import BinaryFormat.Proofs.Records
import BinaryFormat.Schema.Load
import BinaryFormat.Schema.Write

/-!
# Schemas that are written and loaded again

Not every schema that can be built can be written: a size that is computed by the expression `remaining` is written as
the word for what is left, and a definition without a name takes its key as one when it is loaded. A schema without
these two is proper. What is proper is loaded from its written form (`ofDocument_document`), and what is loaded is
proper (`isProper_of_ofDocument`). So the forms that a document may have and the written form has not, entries that
are `null` or in another order, padded words, records as lists, are gone after the first loading, and nothing else is.
-/

namespace BinaryFormat.Schema

open Document

/-- A size whose expression is not the word for what is left. -/
def Size.IsProper : Size → Prop
  | .computed e => Text.trim e.source.toList ≠ "remaining".toList
  | _ => True

/-- A field whose sizes can be told apart in writing. -/
structure Field.IsProper (f : Field) : Prop where
  size : ∀ s ∈ f.size, s.IsProper
  elementSize : ∀ s ∈ f.elementSize, s.IsProper

/-- The table has a name for each of its definitions, which is the key where there is no other. -/
def NamesOf {α : Type} (name : α → String) (t : Table α) : Prop := ∀ e ∈ t, nameUnder e.1 (name e.2) = name e.2

/-- A schema that its written form says all of. -/
structure IsProper (s : Schema) : Prop where
  enums : NamesOf EnumDef.name s.enums
  flags : NamesOf FlagsDef.name s.flags
  structs : NamesOf StructDef.name s.structs
  fields : ∀ e ∈ s.structs, ∀ f ∈ e.2.fields, f.IsProper

/-! ## Writing and loading -/

section

variable (key : String)

/-- A text that may be missing is left out of the table where it is. -/
theorem writes_text? (a : Option String) :
    (Record.optional key toText).Writes a [whenSet key a .text] := Record.writes_optional (fun _ _ => rfl) nofun

theorem writes_expression? (a : Option Expression) :
    (Record.optional key toExpression).Writes a [whenSet key a ofExpression] :=
  Record.writes_optional (fun e _ => toExpression_source e) nofun

theorem writes_uint64? (a : Option UInt64) :
    (Record.optional key toUInt64).Writes a [whenSet key a ofUInt64] :=
  Record.writes_optional (fun n _ => toUInt64_toNat n) nofun

end

theorem EnumEntry.load_document (e : EnumEntry) : EnumEntry.record.load e.document = .ok e := by
  have h : EnumEntry.record.Writes ⟨e.value, e.name, e.description⟩ _ := .apply (.apply (.apply (Record.writes_const _)
    (Record.writes_required (toInt64_toInt _)))
    (Record.writes_required (d := .text _) rfl))
    (writes_text? _ _)
  exact h.load (by decide)

theorem EnumDef.load_document (d : EnumDef) : EnumDef.record.load d.document = .ok d := by
  have h : EnumDef.record.Writes ⟨d.name, d.entries⟩ _ := .apply (.apply (Record.writes_const _)
    (Record.writes_withDefault (d := .text _) rfl))
    (Record.writes_required (toListOf_map fun e _ => EnumEntry.load_document e))
  exact h.load (by decide)

theorem FlagEntry.load_document (e : FlagEntry) : FlagEntry.record.load e.document = .ok e := by
  have h : FlagEntry.record.Writes ⟨e.bit, e.name, e.description⟩ _ := .apply (.apply (.apply (Record.writes_const _)
    (Record.writes_required (toUInt32_toNat _)))
    (Record.writes_required (d := .text _) rfl))
    (writes_text? _ _)
  exact h.load (by decide)

theorem FlagsDef.load_document (d : FlagsDef) : FlagsDef.record.load d.document = .ok d := by
  have h : FlagsDef.record.Writes ⟨d.name, d.flags⟩ _ := .apply (.apply (Record.writes_const _)
    (Record.writes_withDefault (d := .text _) rfl))
    (Record.writes_required (toListOf_map fun e _ => FlagEntry.load_document e))
  exact h.load (by decide)

/-- A size is told apart by its form: a number, the word for what is left, or an expression. -/
theorem Size.load_document {s : Size} (h : s.IsProper) : Size.load s.document = .ok s := by
  cases s with
  | fixed n =>
      show (toUInt64 (.int n.toNat)).map Size.fixed = .ok (.fixed n)
      rw [toUInt64_toNat]
      rfl
  | remaining => rfl
  | computed e =>
      show (if Text.trim e.source.toList = _ then _ else (toExpression (.text e.source)).map Size.computed) = _
      rw [if_neg h, toExpression_source]
      rfl

theorem SwitchCase.load_document (c : SwitchCase) : SwitchCase.record.load c.document = .ok c := by
  have h : SwitchCase.record.Writes ⟨c.value, c.target⟩ _ := .apply (.apply (Record.writes_const _)
    (Record.writes_required (toExpression_source _)))
    (Record.writes_required (d := .text _) rfl)
  exact h.load (by decide)

theorem SwitchDef.load_document (d : SwitchDef) : SwitchDef.record.load d.document = .ok d := by
  have h : SwitchDef.record.Writes ⟨d.discriminant, d.cases, d.fallback⟩ _ :=
    .apply (.apply (.apply (Record.writes_const _)
    (Record.writes_required (toExpression_source _)))
    (Record.writes_withDefault (toListOf_map fun c _ => SwitchCase.load_document c)))
    (writes_text? _ _)
  exact h.load (by decide)

theorem BitRange.load_document (b : BitRange) : BitRange.record.load b.document = .ok b := by
  have h : BitRange.record.Writes ⟨b.name, b.high, b.low, b.enumRef⟩ _ :=
    .apply (.apply (.apply (.apply (Record.writes_const _)
    (Record.writes_required (d := .text _) rfl))
    (Record.writes_required (toUInt32_toNat _)))
    (Record.writes_required (toUInt32_toNat _)))
    (writes_text? _ _)
  exact h.load (by decide)

theorem ChecksumDef.load_document (c : ChecksumDef) : ChecksumDef.record.load c.document = .ok c := by
  have h : ChecksumDef.record.Writes ⟨c.algorithm, c.fields⟩ _ := .apply (.apply (Record.writes_const _)
    (Record.writes_required (d := .text _) rfl))
    (Record.writes_required (toListOf_map fun s _ => (rfl : Document.toText (.text s) = .ok s)))
  exact h.load (by decide)

/-- A repetition is written unless it is none, which is what its absence means. -/
theorem writes_repetition (key : String) (r : Repetition) :
    (Record.withDefault key Repetition.load .once).Writes r [(key, r.document?)] := by
  refine Record.writes_entry (fun d hd => ?_) fun hr => ?_
  · cases r with
    | once => cases hd
    | count n =>
        obtain rfl := Option.some.inj hd
        show (toExpression (.text n.source)).map Repetition.count = _
        rw [toExpression_source]
        rfl
    | untilEnd =>
        obtain rfl := Option.some.inj hd
        rfl
    | untilTrue stop =>
        obtain rfl := Option.some.inj hd
        show (toExpression (.text stop.source)).map Repetition.untilTrue = _
        rw [toExpression_source]
        rfl
  · cases r with
    | once => rfl
    | _ => cases hr

/-- A list of bit ranges is left out where it is empty, which is what it is by default. -/
theorem writes_bitRanges (key : String) (ranges : List BitRange) :
    (Record.withDefault key (toListOf BitRange.record.load) []).Writes ranges [(key, bitRangesDocument? ranges)] := by
  refine Record.writes_entry (fun d hd => ?_) fun hr => ?_
  · rw [bitRangesDocument?] at hd
    split at hd
    · cases hd
    · obtain rfl := Option.some.inj hd
      exact toListOf_map fun b _ => BitRange.load_document b
  · rw [bitRangesDocument?] at hr
    split at hr
    · rename_i hempty
      rw [List.isEmpty_iff.1 hempty]
    · cases hr

/-- A proper field is loaded from its 22 entries as it was. -/
theorem Field.load_document {f : Field} (h : f.IsProper) : Field.record.load f.document = .ok f := by
  -- each entry of the description in its order, as it is written
  have hw : Field.record.Writes ⟨f.name, f.type, f.size, f.elementSize, f.enumRef, f.flagsRef, f.stringTable,
      f.structRef, f.repetition, f.switch, f.bitRanges, f.checksum, f.expected, f.condition, f.seek, f.restore, f.align,
      f.padding, f.validate, f.value, f.compression, f.description⟩ _ :=
    .apply (.apply (.apply (.apply (.apply (.apply (.apply (.apply (.apply (.apply (.apply (.apply (.apply (.apply
    (.apply (.apply (.apply (.apply (.apply (.apply (.apply (.apply (Record.writes_const _)
    (Record.writes_required (d := .text _) rfl))
    (Record.writes_required (toName_text (FieldType.ofName?_name _))))
    (Record.writes_optional (fun s hs => Size.load_document (h.size s hs)) (by intro s; cases s <;> nofun)))
    (Record.writes_optional (fun s hs => Size.load_document (h.elementSize s hs)) (by intro s; cases s <;> nofun)))
    (writes_text? _ _))
    (writes_text? _ _))
    (writes_text? _ _))
    (writes_text? _ _))
    (writes_repetition _ _))
    (Record.writes_optional (fun d _ => SwitchDef.load_document d) nofun))
    (writes_bitRanges _ _))
    (Record.writes_optional (fun c _ => ChecksumDef.load_document c) nofun))
    (Record.writes_optional (fun b _ => toBytes_encode b) nofun))
    (writes_expression? _ _))
    (writes_expression? _ _))
    (Record.writes_withDefault (d := .bool _) rfl))
    (writes_uint64? _ _))
    (Record.writes_withDefault (d := .bool _) rfl))
    (writes_expression? _ _))
    (writes_expression? _ _))
    (writes_text? _ _))
    (writes_text? _ _)
  have hn : Field.record.keys.Nodup := by decide +kernel
  have hl := hw.load hn
  simp only [List.nil_append, List.cons_append] at hl
  exact hl

theorem loadOrder_ofOrder (o : ByteOrder) : loadOrder (ofOrder o) = .ok o := toName_text (by cases o <;> rfl)

/-- A struct of proper fields is loaded as it was. -/
theorem StructDef.load_document {d : StructDef} (h : ∀ f ∈ d.fields, f.IsProper) :
    StructDef.record.load d.document = .ok d := by
  have hw : StructDef.record.Writes ⟨d.name, d.fields, d.order, d.align, d.isStringTable⟩ _ :=
    .apply (.apply (.apply (.apply (.apply (Record.writes_const _)
    (Record.writes_withDefault (d := .text _) rfl))
    (Record.writes_required (toListOf_map fun f hf => Field.load_document (h f hf))))
    (Record.writes_optional (fun o _ => loadOrder_ofOrder o) nofun))
    (writes_uint64? _ _))
    (Record.writes_withDefault (d := .bool _) rfl)
  exact hw.load (by decide)

/-- A table whose definitions keep their names when they are loaded. -/
theorem load_tableDocument {α : Type} {read : Document → Load α} {write : α → Document}
    {rename : String × α → String × α} {t : Table α} (hload : ∀ e ∈ t, read (write e.2) = .ok e.2)
    (hname : ∀ e ∈ t, rename e = e) :
    (do let defs ← toTableOf read (tableDocument write t); pure (defs.map rename)) = (.ok t : Load (Table α)) := by
  rw [tableDocument, toTableOf_map hload]
  exact congrArg Except.ok ((List.map_congr_left hname).trans (List.map_id t))

/-- A proper schema is loaded from what it is written as. -/
theorem ofDocument_document {s : Schema} (h : s.IsProper) : ofDocument s.document = .ok s := by
  have henums : loadEnums (tableDocument EnumDef.document s.enums) = .ok s.enums :=
    load_tableDocument (fun e _ => EnumDef.load_document e.2) fun e he => by rw [h.enums e he]
  have hflags : loadFlags (tableDocument FlagsDef.document s.flags) = .ok s.flags :=
    load_tableDocument (fun e _ => FlagsDef.load_document e.2) fun e he => by rw [h.flags e he]
  have hstructs : loadStructs (tableDocument StructDef.document s.structs) = .ok s.structs :=
    load_tableDocument (fun e he => StructDef.load_document (h.fields e he)) fun e he => by rw [h.structs e he]
  have hw : record.Writes ⟨s.name, s.order, s.enums, s.flags, s.structs, s.root⟩ _ :=
    .apply (.apply (.apply (.apply (.apply (.apply (Record.writes_const _)
    (Record.writes_required (d := .text _) rfl))
    (Record.writes_withDefault (loadOrder_ofOrder _)))
    (Record.writes_withDefault henums))
    (Record.writes_withDefault hflags))
    (Record.writes_required hstructs))
    (Record.writes_required (d := .text _) rfl)
  exact hw.load (by decide)

/-! ## What is loaded -/

/-- An expression keeps the text that it was read from, blanks and braces included. -/
theorem source_of_toExpression {s : String} {e : Expression} (h : toExpression (.text s) = .ok e) : e.source = s := by
  rw [toExpression] at h
  cases he : Expression.ofSource s with
  | error x =>
      rw [he] at h
      cases h
  | ok e' =>
      rw [he] at h
      obtain rfl := Except.ok.inj h
      exact Expression.source_of_ofSource he

/-- The word for what is left is never loaded as an expression. -/
theorem Size.isProper_of_load {d : Document} {s : Size} (h : Size.load d = .ok s) : s.IsProper := by
  unfold Size.load at h
  split at h
  · split at h
    · obtain rfl := Except.ok.inj h
      trivial
    · rename_i hs
      obtain ⟨e, he, rfl⟩ := Load.map_eq_ok_iff.1 h
      rwa [← source_of_toExpression he] at hs
  · obtain ⟨n, -, rfl⟩ := Load.map_eq_ok_iff.1 h
    trivial

/-- Of all entries of a field, only the two sizes might not be proper. -/
theorem Field.isProper_of_load {d : Document} {f : Field} (h : Field.record.load d = .ok f) : f.IsProper := by
  have hy : Field.record.Yields Field.IsProper := by
    -- the sizes are the third and the fourth of the 22 entries
    iterate 18 refine .any ?_
    refine .apply ?_ (Record.yields_optional fun _ _ => Size.isProper_of_load)
    refine .apply ?_ (Record.yields_optional fun _ _ => Size.isProper_of_load)
    refine .any (.any (Record.yields_const fun _ _ size hsize elementSize helement => ?_))
    intros
    exact ⟨hsize, helement⟩
  exact hy.load h

theorem StructDef.isProper_of_load {d : Document} {s : StructDef} (h : StructDef.record.load d = .ok s) :
    ∀ f ∈ s.fields, f.IsProper := by
  have hfields : (Record.required "fields" (toListOf Field.record.load)).Yields fun fs => ∀ f ∈ fs, f.IsProper := by
    refine Record.yields_entry (fun d fs hd f hf => ?_) nofun
    obtain ⟨d', hd'⟩ := mem_of_toListOf hd f hf
    exact Field.isProper_of_load hd'
  have hy : StructDef.record.Yields fun s => ∀ f ∈ s.fields, f.IsProper := by
    refine .any (.any (.any (.apply (.any (Record.yields_const ?_)) hfields)))
    intro name fields hfields _ _ _
    exact hfields
  exact hy.load h

/-- A name that was taken from the key stays as it is. -/
theorem nameUnder_nameUnder (key name : String) : nameUnder key (nameUnder key name) = nameUnder key name := by
  cases h : name.isEmpty <;> simp [nameUnder, h]

/-- The definitions that a table is loaded from, before they have their names. -/
theorem exists_of_loadTable {α : Type} {read : Document → Load α} {rename : String × α → String × α} {d : Document}
    {t : Table α} (h : (do let defs ← toTableOf read d; pure (defs.map rename)) = (.ok t : Load (Table α))) :
    ∀ e ∈ t, ∃ e' d', read d' = .ok e'.2 ∧ rename e' = e := by
  obtain ⟨defs, hdefs, ht⟩ := Load.bind_eq_ok_iff.1 h
  obtain rfl := Except.ok.inj ht
  intro e he
  obtain ⟨e', he', rfl⟩ := List.mem_map.1 he
  obtain ⟨d', hd'⟩ := mem_of_toTableOf hdefs e' he'
  exact ⟨e', d', hd', rfl⟩

/-- Whatever the definitions of a table are called in the document, once loaded they have their names. -/
theorem namesOf_of_loadTable {α : Type} {read : Document → Load α} {rename : String × α → String × α}
    {name : α → String} {d : Document} {t : Table α}
    (h : (do let defs ← toTableOf read d; pure (defs.map rename)) = (.ok t : Load (Table α)))
    (hr : ∀ e, (rename e).1 = e.1 ∧ name (rename e).2 = nameUnder e.1 (name e.2)) : NamesOf name t := by
  intro e he
  obtain ⟨e', -, -, rfl⟩ := exists_of_loadTable h e he
  obtain ⟨hkey, hname⟩ := hr e'
  rw [hkey, hname, nameUnder_nameUnder]

/-- A schema that is loaded is proper. -/
theorem isProper_of_ofDocument {d : Document} {s : Schema} (h : ofDocument d = .ok s) : s.IsProper := by
  have henums : (Record.withDefault "enums" loadEnums []).Yields (NamesOf EnumDef.name) :=
    Record.yields_entry (fun _ _ ht => namesOf_of_loadTable ht fun _ => ⟨rfl, rfl⟩)
      fun _ ht => by obtain rfl := Except.ok.inj ht; nofun
  have hflags : (Record.withDefault "flags" loadFlags []).Yields (NamesOf FlagsDef.name) :=
    Record.yields_entry (fun _ _ ht => namesOf_of_loadTable ht fun _ => ⟨rfl, rfl⟩)
      fun _ ht => by obtain rfl := Except.ok.inj ht; nofun
  have hstructs : (Record.required "structs" loadStructs).Yields fun t =>
      NamesOf StructDef.name t ∧ ∀ e ∈ t, ∀ f ∈ e.2.fields, f.IsProper := by
    refine Record.yields_entry (fun d t ht => ⟨namesOf_of_loadTable ht fun _ => ⟨rfl, rfl⟩, fun e he f hf => ?_⟩) nofun
    obtain ⟨e', d', hd', rfl⟩ := exists_of_loadTable ht e he
    exact StructDef.isProper_of_load hd' f hf
  have hy : record.Yields IsProper := by
    refine .any (.apply (.apply (.apply (.any (.any (Record.yields_const ?_))) henums) hflags) hstructs)
    rintro name order enums henums flags hflags structs ⟨hnames, hfields⟩ root
    exact ⟨henums, hflags, hnames, hfields⟩
  exact hy.load h

/-- **A loaded schema is written and loaded again as it is.** All of it comes back, the texts and trees of its
expressions included, so it is written the same way again. -/
theorem reload {d : Document} {s : Schema} (h : ofDocument d = .ok s) :
    ∃ s', ofDocument s.document = .ok s' ∧ s' = s ∧ s'.document = s.document :=
  ⟨s, ofDocument_document (isProper_of_ofDocument h), rfl, rfl⟩

/-- A schema in a form that writing does not give: a record as a list, a size with padding, digits in both cases, an
entry that is `null`, one without a meaning, and an enumeration without a name. -/
def packet : Document :=
  .table [("name", .text "packet"), ("root", .text "top"), ("note", .null),
    ("enums", .table [("Kind", .table [("entries", .list [.list [.int 1, .text "plain"]])])]),
    ("structs", .table [("top", .table [("fields", .list [
      .list [.text "n", .text "u8"],
      .table [("type", .text "bytes"), ("name", .text "data"), ("size", .text "{n}"), ("expected", .text "0A fF"),
        ("align", .null)],
      .table [("type", .text "bytes"), ("name", .text "rest"), ("size", .text " remaining ")]])])])]

/-- All that is missing or put in another form is settled by the first loading. -/
theorem packet_reload : (ofDocument packet).isOk = true ∧ ∃ s s', ofDocument packet = .ok s ∧
    ofDocument s.document = .ok s' ∧ s' = s ∧ s'.document = s.document := by
  have hok : (ofDocument packet).isOk = true := by decide +kernel
  cases h : ofDocument packet with
  | error e =>
      rw [h] at hok
      cases hok
  | ok s =>
      obtain ⟨s', hs'⟩ := reload h
      exact ⟨rfl, s, s', rfl, hs'⟩

end BinaryFormat.Schema
