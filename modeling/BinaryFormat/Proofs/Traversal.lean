import BinaryFormat.Proofs.Leaves

/-!
# Properties that every step of a decode has

A property of steps holds of every struct if it holds of the steps that a struct is made of and is kept by
every way to put them together. This file walks through the decoder once, for any such property, so that
a property is established by checking it on the brackets alone.

A property is one of a family of steps, indexed by `ι`: the same step under several options or several
numbers of rounds. That way it may compare runs. It also comes in two strengths. The stronger one, at
`true`, is only asked of structs in which nothing moves to another offset for good, for a seek is the
one thing that can move the position backwards.
-/

namespace BinaryFormat

open Schema (Field StructDef)

/-! ## Structs within structs -/

/-- The names of the structs that a field may hold in the buffer that it is in. -/
def Schema.Field.targets (f : Field) : List String :=
  match f.type with
  | .struct => f.structRef.toList
  | .switch =>
    match f.switch with
    | some s => s.cases.map (·.target) ++ s.fallback.toList
    | none => []
  | _ => []

/-- The field moves to an offset of its own, and reading goes on from there. -/
def Schema.Field.Wanders (f : Field) : Prop := f.seek.isSome = true ∧ f.restore = false

/-- Only its elements tell where the array ends. -/
def Schema.Field.IsOpen (f : Field) : Prop :=
  match f.repetition with
  | .untilEnd | .untilTrue _ => True
  | .once | .count _ => False

namespace Schema

variable (schema : Schema)

/-- The schema has this struct, under whatever name. -/
def Defines (s : StructDef) : Prop := ∃ name, schema.structs.get? name = some s

/-- A struct of the schema has this field. -/
def HasField (f : Field) : Prop := ∃ s, schema.Defines s ∧ f ∈ s.fields

/-- One struct may lie in the other, at any depth, in the same buffer. -/
inductive Reaches : StructDef → StructDef → Prop where
  | self (s : StructDef) : Reaches s s
  | field {s inner s' : StructDef} {f : Field} {target : String} :
      f ∈ s.fields → target ∈ f.targets → schema.structs.get? target = some inner →
      Reaches inner s' → Reaches s s'

/-- Nothing in the struct moves to another offset for good. -/
def Calm (s : StructDef) : Prop := ∀ s', schema.Reaches s s' → ∀ f ∈ s'.fields, ¬ f.Wanders

/-- Nothing in the structs that the field may hold moves to another offset for good. -/
def CalmIn (f : Field) : Prop :=
  ∀ target ∈ f.targets, ∀ s, schema.structs.get? target = some s → schema.Calm s

variable {schema}

theorem Calm.not_wanders {s : StructDef} (h : schema.Calm s) {f : Field} (hf : f ∈ s.fields) :
    ¬ f.Wanders := h s (.self s) f hf

/-- Calm is inherited by the structs that a field holds. -/
theorem Calm.calmIn {s : StructDef} (h : schema.Calm s) {f : Field} (hf : f ∈ s.fields) :
    schema.CalmIn f := by
  intro target ht inner hi s' hr
  exact h s' (.field hf ht hi hr)

end Schema

namespace Decoding

/-- The step may yield this. -/
def Yields {α : Type} (x : Decoding α) (a : α) : Prop := ∃ r r', x r = .done a r'

/-- A test that every run at the end of its scope passes, if it comes to a result. -/
structure SeesEnd (isLast : Decoding Bool) : Prop where
  unmoving : isLast.Unmoving
  goesOn : ∀ {r r' : Run}, isLast r = .done false r' → r.reader.isExhausted = false

end Decoding

namespace Decoder

open Decoding

variable {ι : Type}

/-! ## The two tests of open-ended arrays, and the choice of a switch -/

theorem seesEnd_isExhausted : isExhausted.SeesEnd where
  unmoving := unmoving_isExhausted
  goesOn h := by
    obtain ⟨he, -⟩ := Outcome.done.inj h
    exact he

theorem seesEnd_untilTrue (stop : Expression) :
    SeesEnd (do if ← .holds stop then pure true else isExhausted) where
  unmoving := (Unmoving.holds stop).bind fun _ => .ite (.pure _) unmoving_isExhausted
  goesOn h := by
    obtain ⟨v, r₁, hv, h⟩ := bind_eq_done h
    cases (Unmoving.holds stop).eq hv
    split at h
    · cases h
    · exact seesEnd_isExhausted.goesOn h

/-- A switch leads to the struct of one of its cases. -/
theorem mem_of_chosenCase {v : Value} {cases : List Schema.SwitchCase} {r r' : Run} {target : String}
    (h : chosenCase v cases r = .done (some target) r') : target ∈ cases.map (·.target) := by
  induction cases generalizing r with
  | nil => cases h
  | cons c rest ih =>
      unfold chosenCase at h
      obtain ⟨w, r₁, -, h⟩ := bind_eq_done h
      split at h
      · cases h; exact .head _
      · exact .tail _ (ih h)

theorem mem_targets_of_struct {f : Field} {name : String} (hf : f.type = .struct)
    (hs : f.structRef = some name) : name ∈ f.targets := by
  unfold Field.targets
  rw [hf, hs]
  exact List.mem_singleton.mpr rfl

/-- What a switch chooses is among the structs that its field may hold. -/
theorem mem_targets_of_switch {f : Field} {spec : Schema.SwitchDef} {v : Value} {chosen : Option String}
    {target : String} (hf : f.type = .switch) (hs : f.switch = some spec)
    (hy : (chosenCase v spec.cases).Yields chosen) (ht : chosen.or spec.fallback = some target) :
    target ∈ f.targets := by
  obtain ⟨r, r', hy⟩ := hy
  unfold Field.targets
  rw [hf, hs]
  refine List.mem_append.mpr ?_
  cases chosen with
  | some t => cases ht; exact Or.inl (mem_of_chosenCase hy)
  | none => exact Or.inr (Option.mem_toList.mpr ht)

/-- A struct is looked up under its name, and looking it up moves nothing. -/
theorem structDef_eq_done {d : Decoder} {name : String} {s : StructDef} {r r' : Run}
    (h : d.structDef name r = .done s r') : d.schema.structs.get? name = some s ∧ r' = r := by
  unfold structDef at h
  cases hs : d.schema.structs.get? name with
  | none => rw [hs] at h; cases h
  | some s' =>
      rw [hs] at h
      obtain ⟨rfl, rfl⟩ := Outcome.done.inj h
      exact ⟨rfl, rfl⟩

/-- In an array whose elements alone tell where it ends, a property that holds of every element and that
steps in a row keep holds of all the elements together, whatever the number of rounds. -/
theorem openElements_of_element {P : {α : Type} → (ι → Decoding α) → Prop}
    (reading : ∀ {α : Type} {x : Decoding α}, x.Reading → P fun _ => x)
    (unfinished : ∀ {α : Type}, P fun _ => (.unfinished : Decoding α))
    (bind : ∀ {α β : Type} {x : ι → Decoding α} {f : ι → α → Decoding β}, P x →
      (∀ a, (∃ i, (x i).Yields a) → P fun i => f i a) → P fun i => x i >>= f i)
    {d : ι → Decoder} {nested : ι → StructDef → String → Decoding Node} {f : Field}
    {isLast : Decoding Bool} (limited : ∀ n, P fun i => (d i).checkElements n)
    (each : ∀ n, P fun i => element (d i) (nested i) f n) (hl : isLast.Unmoving) (rounds n : Nat)
    (found : List Node) : P fun i => openElements (d i) (nested i) f isLast rounds n found := by
  induction rounds generalizing n found with
  | zero => exact unfinished
  | succ rounds ih =>
      unfold openElements
      refine bind (limited _) fun _ _ => bind (reading .pos) fun before _ => ?_
      refine bind (each n) fun node _ => bind (reading .pos) fun after _ => ?_
      split
      · exact reading (.pure _)
      · refine bind (reading hl.reading) fun last _ => ?_
        split
        · exact reading (.pure _)
        · exact ih (n + 1) (node :: found)

/-! ## The elements of an array -/

section Elements

variable {d : Decoder} {nested : StructDef → String → Decoding Node} {f : Field}

/-- A counted array adds as many nodes as are left. -/
theorem length_countedElements {left i : Nat} {found nodes : List Node} {r r' : Run}
    (h : countedElements d nested f left i found r = .done nodes r') : nodes.length = found.length + left := by
  induction left generalizing i found r with
  | zero =>
      obtain ⟨rfl, -⟩ := Outcome.done.inj h
      exact List.length_reverse
  | succ left ih =>
      obtain ⟨n, r₁, -, h₁⟩ := bind_eq_done h
      rw [ih h₁, List.length_cons]
      omega

variable {P : Nat → Run → List Node → Run → Prop}

/-- The nodes found before come first, and the others are those of the elements from here on. -/
theorem countedElements_induction (hnil : ∀ i r, P i r [] r)
    (hcons : ∀ {i n rest r r' r''}, element d nested f i r = .done n r' → P (i + 1) r' rest r'' →
      P i r (n :: rest) r'')
    {left i : Nat} {found nodes : List Node} {r r' : Run}
    (h : countedElements d nested f left i found r = .done nodes r') :
    ∃ new, nodes = found.reverse ++ new ∧ P i r new r' := by
  induction left generalizing i found r with
  | zero =>
      obtain ⟨rfl, rfl⟩ := Outcome.done.inj h
      exact ⟨[], (List.append_nil _).symm, hnil i r⟩
  | succ left ih =>
      obtain ⟨n, r₁, helement, h₁⟩ := bind_eq_done h
      obtain ⟨new, rfl, hnew⟩ := ih h₁
      refine ⟨n :: new, ?_, hcons helement hnew⟩
      rw [List.reverse_cons, List.append_assoc]
      rfl

/-- What holds of an element that the array ends with, and of one that it goes on behind if it holds of those that
follow, holds of the elements from here on. -/
theorem openElements_induction {isLast : Decoding Bool} (hl : isLast.Unmoving)
    (hlast : ∀ {i n r r'}, element d nested f i r = .done n r' → r'.pos = r.pos ∨ isLast r' = .done true r' →
      P i r [n] r')
    (hnext : ∀ {i n rest r r' r''}, element d nested f i r = .done n r' → r'.pos ≠ r.pos →
      isLast r' = .done false r' → P (i + 1) r' rest r'' → P i r (n :: rest) r'')
    {left i : Nat} {found nodes : List Node} {r r' : Run}
    (h : openElements d nested f isLast left i found r = .done nodes r') :
    ∃ new, nodes = found.reverse ++ new ∧ P i r new r' := by
  induction left generalizing i found r with
  | zero => cases h
  | succ left ih =>
      obtain ⟨_, r₁, hlimit, h₁⟩ := bind_eq_done h
      obtain ⟨before, r₂, hbefore, h₂⟩ := bind_eq_done h₁
      obtain ⟨n, r₃, helement, h₃⟩ := bind_eq_done h₂
      obtain ⟨after, r₄, hafter, h₄⟩ := bind_eq_done h₃
      obtain rfl := (d.unmoving_checkElements _).eq hlimit
      obtain ⟨rfl, rfl⟩ := Outcome.done.inj hbefore
      obtain ⟨rfl, rfl⟩ := Outcome.done.inj hafter
      -- two ways out of the loop end it with this element, and the third goes round again
      split at h₄
      · rename_i hpos
        obtain ⟨rfl, rfl⟩ := Outcome.done.inj h₄
        exact ⟨[n], List.reverse_cons, hlast helement (.inl hpos)⟩
      · rename_i hpos
        obtain ⟨last, r₅, htest, h₅⟩ := bind_eq_done h₄
        obtain rfl := hl.eq htest
        cases last with
        | true =>
            obtain ⟨rfl, rfl⟩ := Outcome.done.inj h₅
            exact ⟨[n], List.reverse_cons, hlast helement (.inr htest)⟩
        | false =>
            obtain ⟨new, rfl, hnew⟩ := ih h₅
            refine ⟨n :: new, ?_, hnext helement hpos htest hnew⟩
            rw [List.reverse_cons, List.append_assoc]
            rfl

end Elements

/-- What holds of no elements, and of an element and those behind it if it holds of these, holds of the elements
of an array. -/
theorem elements_induction {d : Decoder} {nested : StructDef → String → Decoding Node} {f : Field}
    {P : Nat → Run → List Node → Run → Prop} (hnil : ∀ i r, P i r [] r)
    (hcons : ∀ {i n rest r r' r''}, element d nested (elementField f) i r = .done n r' →
      P (i + 1) r' rest r'' → P i r (n :: rest) r'')
    {rounds : Nat} {nodes : List Node} {r r' : Run} (h : elements d rounds nested f r = .done nodes r') :
    P 0 r nodes r' := by
  -- Both kinds of open end run through one loop, which differs in the test alone.
  have hopen : ∀ {r : Run} {isLast : Decoding Bool}, isLast.SeesEnd →
      openElements d nested (elementField f) isLast rounds 0 [] r = .done nodes r' → P 0 r nodes r' := by
    intro r isLast hl hopen
    obtain ⟨new, rfl, hnew⟩ := openElements_induction hl.unmoving
      (fun helement _ => hcons helement (hnil _ _)) (fun helement _ _ => hcons helement) hopen
    exact hnew
  unfold elements at h
  cases hr : f.repetition with
  | once =>
      rw [hr] at h
      obtain ⟨rfl, rfl⟩ := Outcome.done.inj h
      exact hnil _ _
  | count n =>
      rw [hr] at h
      obtain ⟨count, r₁, hcount, h₁⟩ := bind_eq_done h
      obtain ⟨_, r₂, hlimit, h₂⟩ := bind_eq_done h₁
      obtain rfl := (Unmoving.evalNat _ _).eq hcount
      obtain rfl := (d.unmoving_checkElements count).eq hlimit
      obtain ⟨new, rfl, hnew⟩ := countedElements_induction hnil hcons h₂
      exact hnew
  | untilEnd =>
      rw [hr] at h
      obtain ⟨e, r₁, htest, h₁⟩ := bind_eq_done h
      obtain rfl := unmoving_isExhausted.eq htest
      cases e with
      | true =>
          obtain ⟨rfl, rfl⟩ := Outcome.done.inj h₁
          exact hnil _ _
      | false => exact hopen seesEnd_isExhausted h₁
  | untilTrue stop =>
      rw [hr] at h
      exact hopen (seesEnd_untilTrue stop) h

/-! ## Fields and structs that were decoded -/

section Done

variable {d : Decoder} {rounds : Nat} {nested : StructDef → String → Decoding Node} {r r' : Run}

/-- A field is passed over, or it is there and its node is yielded. -/
theorem field_eq_done {f : Field} {siblings : List Node} {o : Option Node}
    (h : field d rounds nested f siblings r = .done o r') :
    let inner : Run := { r with path := f.name :: r.path }
    (isPresent f inner = .done false inner ∧ o = none ∧ r' = r) ∨
      ∃ n r₁, isPresent f inner = .done true inner ∧ presentField d rounds nested f siblings inner = .done n r₁ ∧
        o = some n ∧ r' = { r₁ with path := r.path } := by
  rw [field_eq] at h
  obtain ⟨r₁, hguarded, rfl⟩ := within_eq_done h
  obtain ⟨there, r₂, hpresent, hfound⟩ := bind_eq_done hguarded
  obtain rfl := (unmoving_isPresent f).eq hpresent
  cases there with
  | false =>
      obtain ⟨rfl, rfl⟩ := Outcome.done.inj hfound
      exact Or.inl ⟨hpresent, rfl, rfl⟩
  | true =>
      simp only [if_true, map_eq_pure_bind] at hfound
      obtain ⟨n, r₃, hfield, hnode⟩ := bind_eq_done hfound
      obtain ⟨rfl, rfl⟩ := Outcome.done.inj hnode
      exact Or.inr ⟨n, r₃, hpresent, hfield, rfl, rfl⟩

/-- A struct is gone into, its fields are decoded, and it is padded. -/
theorem structWith_eq_done {s : StructDef} {name : String} {n : Node}
    (h : structWith d rounds nested s name r = .done n r') :
    ∃ children r₁ r₂ r₃, d.descend r = .done () r₁ ∧ body d rounds nested s r₁ = .done children r₂ ∧
      align s.align (tabled s r₁.pos r₂) = .done () r₃ ∧ r' = { r₃ with depth := r₃.depth - 1 } ∧
      n = { name, typeName := s.name, offset := r₁.pos, size := r'.pos - r₁.pos, content := .struct, children } := by
  rw [structWith_eq] at h
  obtain ⟨p, r₁, hdescended, h₁⟩ := bind_eq_done h
  obtain ⟨stop, r₂, hstop, h₂⟩ := bind_eq_done h₁
  obtain ⟨rfl, rfl⟩ := Outcome.done.inj hstop
  obtain ⟨rfl, rfl⟩ := Outcome.done.inj h₂
  obtain ⟨_, r₃, hdescend, h₃⟩ := bind_eq_done hdescended
  obtain ⟨q, r₄, hinside, h₄⟩ := bind_eq_done h₃
  obtain ⟨_, r₅, hascend, h₅⟩ := bind_eq_done h₄
  obtain ⟨-, rfl⟩ := Outcome.done.inj hascend
  obtain ⟨rfl, rfl⟩ := Outcome.done.inj h₅
  obtain ⟨start, r₆, hstart, h₆⟩ := bind_eq_done hinside
  obtain ⟨children, r₇, hbody, -⟩ := bind_eq_done h₆
  obtain ⟨rfl, rfl⟩ := Outcome.done.inj hstart
  rw [inside_apply d rounds nested hbody] at hinside
  obtain ⟨_, r₈, halign, hdone⟩ := bind_eq_done hinside
  obtain ⟨rfl, rfl⟩ := Outcome.done.inj hdone
  exact ⟨children, r₃, r₇, r₈, hdescend, hbody, halign, rfl, rfl⟩

/-- A leaf covers the bytes that its content was read from. -/
theorem leaf_eq_done {f : Field} {read : Decoding Node.Content} {n : Node} (h : leaf f read r = .done n r') :
    read r = .done n.content r' ∧
      n = { name := f.name, typeName := f.type.name, offset := r.pos, size := r'.pos - r.pos
            content := n.content } := by
  obtain ⟨start, r₁, hstart, h₁⟩ := bind_eq_done h
  obtain ⟨c, r₂, hcontent, h₂⟩ := bind_eq_done h₁
  obtain ⟨stop, r₃, hstop, h₃⟩ := bind_eq_done h₂
  obtain ⟨rfl, rfl⟩ := Outcome.done.inj hstart
  obtain ⟨rfl, rfl⟩ := Outcome.done.inj hstop
  obtain ⟨rfl, rfl⟩ := Outcome.done.inj h₃
  exact ⟨hcontent, rfl⟩

/-- A field without a struct in it is read, and its node shows the bytes that were. -/
theorem single_eq_done_of_leaf {f : Field} {siblings : Option (List Node)} {n : Node}
    (hf : f.type ≠ .struct ∧ f.type ≠ .switch ∧ f.type ≠ .compressed)
    (h : single d nested f siblings r = .done n r') :
    r.Reads r' ∧ Covers f.type r r' n.content ∧
      n = { name := f.name, typeName := f.type.name, offset := r.pos, size := r'.pos - r.pos
            content := n.content } := by
  obtain ⟨content, hreading, hcovers, he⟩ := single_eq_leaf d.schema f siblings hf
  rw [show d = ⟨d.schema, d.options⟩ from rfl, he d.options] at h
  obtain ⟨hcontent, hnode⟩ := leaf_eq_done h
  exact ⟨(reading_leaf f hreading).reads h, hcovers hcontent, hnode⟩

/-- A field that is there is sought, aligned, decoded and looked at, and the position may be restored behind it. -/
theorem presentField_eq_done {f : Field} {siblings : List Node} {n : Node}
    (h : presentField d rounds nested f siblings r = .done n r') :
    ∃ before m isValid r₁ r₂ r₃, seek f r = .done before r₁ ∧ align f.align r₁ = .done () r₂ ∧
      content d rounds nested f siblings r₂ = .done m r₃ ∧ restore f before r₃ = .done () r' ∧
      n = { m with description := f.description, isPadding := f.padding, isValid } := by
  rw [presentField_eq] at h
  obtain ⟨before, r₁, hseek, h₁⟩ := bind_eq_done h
  obtain ⟨_, r₄, hinner, h₂⟩ := bind_eq_done h₁
  obtain ⟨_, r₅, hrestore, h₃⟩ := bind_eq_done h₂
  obtain ⟨rfl, rfl⟩ := Outcome.done.inj h₃
  obtain ⟨_, r₂, halign, h₄⟩ := bind_eq_done hinner
  obtain ⟨m, r₃, hcontent, h₅⟩ := bind_eq_done h₄
  obtain ⟨isValid, r₆, hvalid, h₆⟩ := bind_eq_done h₅
  obtain rfl := (unmoving_validity f).eq hvalid
  obtain ⟨rfl, rfl⟩ := Outcome.done.inj h₆
  exact ⟨before, m, isValid, r₁, r₂, r₆, hseek, halign, hcontent, hrestore, rfl⟩

/-- A field holds one occurrence or an array. -/
theorem content_eq_done {f : Field} {siblings : List Node} {n : Node}
    (h : content d rounds nested f siblings r = .done n r') :
    (f.repetition = .once ∧ single d nested f (some siblings) r = .done n r') ∨
      f.repetition ≠ .once ∧ array d rounds nested f r = .done n r' := by
  unfold content at h
  cases hf : f.repetition with
  | once => rw [hf] at h; exact .inl ⟨rfl, h⟩
  | count _ | untilEnd | untilTrue _ => rw [hf] at h; exact .inr ⟨nofun, h⟩

theorem array_eq_done {f : Field} {n : Node} (h : array d rounds nested f r = .done n r') :
    ∃ nodes, elements d rounds nested f r = .done nodes r' ∧
      n = { name := f.name, typeName := f.type.name, offset := r.pos, size := r'.pos - r.pos, content := .array
            children := nodes } := by
  obtain ⟨start, r₁, hstart, h₁⟩ := bind_eq_done h
  obtain ⟨nodes, r₂, helements, h₂⟩ := bind_eq_done h₁
  obtain ⟨stop, r₃, hstop, h₃⟩ := bind_eq_done h₂
  obtain ⟨rfl, rfl⟩ := Outcome.done.inj hstart
  obtain ⟨rfl, rfl⟩ := Outcome.done.inj hstop
  obtain ⟨rfl, rfl⟩ := Outcome.done.inj h₃
  exact ⟨nodes, helements, rfl⟩

/-- An element is one occurrence of its field under a number, and it is counted. -/
theorem element_eq_done {f : Field} {i : Nat} {n : Node} (h : element d nested f i r = .done n r') :
    ∃ m r₁, d.checkCancelled r = .done () r ∧
      single d nested f none { r with path := elementName i :: r.path } = .done m r₁ ∧
      d.Admits (r₁.nodes + 1) ∧ n = { m with name := elementName i } ∧
      r' = { r₁ with path := r.path, nodes := r₁.nodes + 1 } := by
  obtain ⟨_, r₁, hcancelled, h₁⟩ := bind_eq_done h
  obtain ⟨m, r₂, hwithin, h₂⟩ := bind_eq_done h₁
  obtain ⟨_, r₃, hcount, h₃⟩ := bind_eq_done h₂
  obtain rfl := d.unmoving_checkCancelled.eq hcancelled
  obtain ⟨r₄, hsingle, rfl⟩ := within_eq_done hwithin
  obtain ⟨rfl, hadmits⟩ := d.countNode_eq_done hcount
  obtain ⟨rfl, rfl⟩ := Outcome.done.inj h₃
  exact ⟨m, r₄, hcancelled, hsingle, hadmits, rfl, rfl⟩

/-- A struct in a field is decoded where the field is, or in a scope of the size that the field declares. -/
theorem structField_eq_done {f : Field} {s : StructDef} {n : Node} (h : structField nested f s r = .done n r') :
    (f.size = none ∧ nested s f.name r = .done n r') ∨
      ∃ size m, f.size.isSome = true ∧ fieldSize f r = .done size r ∧
        bounded size (nested s f.name) r = .done m r' ∧ n = { m with offset := r.pos, size } := by
  cases hsize : f.size with
  | none =>
      unfold structField at h
      rw [hsize] at h
      exact .inl ⟨rfl, h⟩
  | some size =>
      rw [structField_sized nested hsize] at h
      obtain ⟨start, r₁, hstart, h₁⟩ := bind_eq_done h
      obtain ⟨size, r₂, hfieldSize, h₂⟩ := bind_eq_done h₁
      obtain ⟨m, r₃, hbounded, h₃⟩ := bind_eq_done h₂
      obtain ⟨rfl, rfl⟩ := Outcome.done.inj hstart
      obtain rfl := (unmoving_fieldSize f).eq hfieldSize
      obtain ⟨rfl, rfl⟩ := Outcome.done.inj h₃
      exact .inr ⟨size, m, rfl, hfieldSize, hbounded, rfl⟩

/-- A step in a scope starts from a run that has entered it. -/
theorem inner_of_bounded {α : Type} {x : Decoding α} {size : Nat} {a : α} (h : bounded size x r = .done a r') :
    ∃ reader r₁, r.reader.enter size = .ok reader ∧ x { r with reader } = .done a r₁ := by
  obtain ⟨_, r₁, henter, h₁⟩ := bind_eq_done h
  obtain ⟨b, r₂, hinner, h₂⟩ := bind_eq_done h₁
  obtain ⟨_, r₃, -, h₃⟩ := bind_eq_done h₂
  obtain ⟨rfl, -⟩ := Outcome.done.inj h₃
  obtain ⟨reader, hreader, rfl⟩ := move_eq_done henter
  exact ⟨reader, r₂, hreader, hinner⟩

/-- A compressed field is read and decompressed, and the struct that it names is decoded in what comes out. -/
theorem compressedField_eq_done {f : Field} {n : Node} (h : compressedField d nested f r = .done n r') :
    ∃ size bytes reader c out raw children, fieldSize f r = .done size r ∧
      r.reader.read size = .ok (bytes, reader) ∧
      Compression.ofName? (f.compression.getD Compression.defaultName) = some c ∧
      c.decompress? bytes = some out ∧
      n = { name := f.name, typeName := f.type.name, offset := r.pos, size, children
            content := .compressed (f.compression.getD Compression.defaultName) size out.size raw } ∧
      ((children = [] ∧ r' = { r with reader }) ∨
        ∃ name s m r₁, f.structRef = some name ∧ d.schema.structs.get? name = some s ∧
          nested s f.name { r with reader := .ofBuffer out d.schema.order } = .done m r₁ ∧ children = [m] ∧
          r' = { r with reader, nodes := r₁.nodes, recovered := r₁.recovered }) := by
  obtain ⟨start, r₁, hstart, h₁⟩ := bind_eq_done h
  obtain ⟨size, r₂, hsize, h₂⟩ := bind_eq_done h₁
  obtain ⟨bytes, r₃, hread, h₃⟩ := bind_eq_done h₂
  obtain ⟨rfl, rfl⟩ := Outcome.done.inj hstart
  obtain rfl := (unmoving_fieldSize f).eq hsize
  obtain ⟨reader, hreader, rfl⟩ := read_eq_done hread
  -- The kind, the stream and the struct are asked for in this order, and the first one that is missing ends the
  -- field.
  dsimp only at h₃
  cases hc : Compression.ofName? (f.compression.getD Compression.defaultName) with
  | none => rw [hc] at h₃; cases h₃
  | some c =>
      rw [hc] at h₃
      dsimp only at h₃
      cases hout : c.decompress? bytes with
      | none => rw [hout] at h₃; cases h₃
      | some out =>
          rw [hout] at h₃
          dsimp only at h₃
          cases hs : f.structRef with
          | none =>
              rw [hs] at h₃
              obtain ⟨rfl, rfl⟩ := Outcome.done.inj h₃
              exact ⟨size, bytes, reader, c, out, _, [], hsize, hreader, rfl, hout, rfl, .inl ⟨rfl, rfl⟩⟩
          | some name =>
              rw [hs] at h₃
              obtain ⟨s, r₄, hdef, h₄⟩ := bind_eq_done h₃
              obtain ⟨m, r₅, hbuffer, h₅⟩ := bind_eq_done h₄
              obtain ⟨rfl, rfl⟩ := Outcome.done.inj h₅
              obtain ⟨hs, rfl⟩ := structDef_eq_done hdef
              obtain ⟨r₆, hm, rfl⟩ := inBuffer_eq_done hbuffer
              exact ⟨size, bytes, reader, c, out, _, [m], hsize, hreader, rfl, hout, rfl,
                .inr ⟨name, s, m, r₆, rfl, hs, hm, rfl, rfl⟩⟩

end Done

/-! ## Properties that go through a decode -/

/-- A property of families of steps that holds of the steps a decode is made of, and that the brackets
keep. -/
structure Compositional (schema : Schema) (options : ι → Options) (rounds : ι → Nat)
    (P : Bool → {α : Type} → (ι → Decoding α) → Prop) : Prop where
  reading : ∀ {b : Bool} {α : Type} {x : Decoding α}, x.Reading → P b fun _ => x
  bind : ∀ {b : Bool} {α β : Type} {x : ι → Decoding α} {f : ι → α → Decoding β}, P b x →
    (∀ a, (∃ i, (x i).Yields a) → P b fun i => f i a) → P b fun i => x i >>= f i
  cancelled : ∀ {b : Bool}, P b fun i => checkCancelled ⟨schema, options i⟩
  counted : ∀ {b : Bool}, P b fun i => countNode ⟨schema, options i⟩
  limited : ∀ {b : Bool} (n : Nat), P b fun i => checkElements ⟨schema, options i⟩ n
  table : ∀ {b : Bool} (name : String) (start stop : Nat),
    P b fun _ => .modifyReader (·.addTable name start stop)
  within : ∀ {b : Bool} {α : Type} {x : ι → Decoding α} (segment : String) (type : FieldType), P b x →
    P b fun i => .within segment type (x i)
  inBuffer : ∀ {b : Bool} {α : Type} {x : ι → Decoding α} (data : Buffer), P false x →
    P b fun i => inBuffer ⟨schema, options i⟩ data (x i)
  bounded : ∀ {b : Bool} {α : Type} {x : ι → Decoding α} (size : Nat), P b x →
    P b fun i => bounded size (x i)
  overlaid : ∀ {b : Bool} {α : Type} {x : ι → Decoding α} (order : ByteOrder), P b x →
    P b fun i => overlaid order (x i)
  sought : ∀ {b : Bool} {α : Type} {x : ι → Decoding α} (f : Field), (b = true → ¬ f.Wanders) → P b x →
    P b fun i => sought f (x i)
  member : ∀ {b : Bool} {x : ι → Decoding (Option Node)} (f : Field), P b x →
    P b fun i => member ⟨schema, options i⟩ f (.within f.name f.type (x i))
  openEnded : ∀ {b : Bool} {nested : ι → StructDef → String → Decoding Node} {f : Field}
    {isLast : Decoding Bool}, schema.HasField f → f.IsOpen → (b = true → schema.CalmIn f) →
    (∀ b', (b' = true → schema.CalmIn f) →
      P b' fun i => single ⟨schema, options i⟩ (nested i) (elementField f) none) →
    (∀ b' n, (b' = true → schema.CalmIn f) →
      P b' fun i => element ⟨schema, options i⟩ (nested i) (elementField f) n) →
    isLast.SeesEnd →
    P b fun i => openElements ⟨schema, options i⟩ (nested i) (elementField f) isLast (rounds i) 0 []

/-- The open-ended array that a field may be has the property, whatever test ends it. -/
def Opens (schema : Schema) (options : ι → Options) (rounds : ι → Nat)
    (P : Bool → {α : Type} → (ι → Decoding α) → Prop) (b : Bool)
    (nested : ι → StructDef → String → Decoding Node) (f : Field) : Prop :=
  f.IsOpen → ∀ isLast : Decoding Bool, isLast.SeesEnd →
    P b fun i => openElements ⟨schema, options i⟩ (nested i) (elementField f) isLast (rounds i) 0 []

namespace Compositional

variable {schema : Schema} {options : ι → Options} {rounds : ι → Nat}
  {P : Bool → {α : Type} → (ι → Decoding α) → Prop} {b : Bool}
  {nested : ι → StructDef → String → Decoding Node}

theorem pure (h : Compositional schema options rounds P) {α : Type} (a : α) :
    P b fun _ => (pure a : Decoding α) := h.reading (.pure a)

theorem fail (h : Compositional schema options rounds P) {α : Type} (c : Cause) :
    P b fun _ => (.fail c : Decoding α) := h.reading (.fail c)

/-- A struct looked up is one of the schema. -/
theorem bind_structDef (h : Compositional schema options rounds P) {α : Type} {name : String}
    {f : ι → StructDef → Decoding α}
    (hf : ∀ s, schema.structs.get? name = some s → P b fun i => f i s) :
    P b fun i => structDef ⟨schema, options i⟩ name >>= f i := by
  refine h.bind (h.reading (unmoving_structDef ⟨schema, {}⟩ name).reading) fun s hs => hf s ?_
  obtain ⟨i, r, r', hs⟩ := hs
  exact (structDef_eq_done hs).1

section Fields

variable (h : Compositional schema options rounds P)
  (hn : ∀ b s name, schema.Defines s → (b = true → schema.Calm s) → P b fun i => nested i s name)
  {f : Field}

include h hn

theorem structField {s : StructDef} (hs : schema.Defines s) (hc : b = true → schema.Calm s) :
    P b fun i => structField (nested i) f s := by
  cases hf : f.size with
  | none =>
      unfold Decoder.structField
      rw [hf]
      exact hn _ _ _ hs hc
  | some size =>
      simp only [structField_sized _ hf]
      refine h.bind (h.reading .pos) fun start _ => ?_
      refine h.bind (h.reading (unmoving_fieldSize f).reading) fun size _ => ?_
      exact h.bind (h.bounded size (hn _ _ _ hs hc)) fun node _ => h.pure _

theorem switchField (hf : f.type = .switch) (hc : b = true → schema.CalmIn f) :
    P b fun i => switchField ⟨schema, options i⟩ (nested i) f := by
  unfold Decoder.switchField
  cases hs : f.switch with
  | none => exact h.fail _
  | some spec =>
      refine h.bind (h.reading (Unmoving.eval _).reading) fun v _ => ?_
      refine h.bind (h.reading (unmoving_chosenCase v _).reading) fun chosen hy => ?_
      obtain ⟨_, hy⟩ := hy
      cases ht : chosen.or spec.fallback with
      | none => exact h.fail _
      | some target =>
          refine h.bind_structDef fun s hd => structField h hn ⟨_, hd⟩ fun hb => ?_
          exact hc hb target (mem_targets_of_switch hf hs hy ht) s hd

/-- A stream with a struct in it starts anew, so there the property need not be the strong one. -/
theorem compressedField : P b fun i => compressedField ⟨schema, options i⟩ (nested i) f := by
  unfold Decoder.compressedField
  refine h.bind (h.reading .pos) fun start _ => ?_
  refine h.bind (h.reading (unmoving_fieldSize f).reading) fun size _ => ?_
  refine h.bind (h.reading (reading_readBytes size)) fun data _ => ?_
  dsimp only
  split
  · exact h.fail _
  · split
    · exact h.fail _
    · split
      · exact h.pure _
      · refine h.bind_structDef fun s hd => ?_
        exact h.bind (h.inBuffer _ (hn _ _ _ ⟨_, hd⟩ fun hb => by cases hb)) fun node _ => h.pure _

/-- One occurrence of a field. -/
theorem single (siblings : Option (List Node)) (hc : b = true → schema.CalmIn f) :
    P b fun i => single ⟨schema, options i⟩ (nested i) f siblings := by
  by_cases hf : f.type ≠ .struct ∧ f.type ≠ .switch ∧ f.type ≠ .compressed
  · obtain ⟨content, hr, -, he⟩ := single_eq_leaf schema f siblings hf
    simp only [he]
    exact h.reading (reading_leaf f hr)
  · unfold Decoder.single
    cases ht : f.type with
    | struct =>
        dsimp only
        cases hs : f.structRef with
        | none => exact h.fail _
        | some name =>
            refine h.bind_structDef fun s hd => structField h hn ⟨_, hd⟩ fun hb => ?_
            exact hc hb name (mem_targets_of_struct ht hs) s hd
    | switch => exact switchField h hn ht hc
    | compressed => exact compressedField h hn
    | _ => exact absurd ⟨by rw [ht]; decide, by rw [ht]; decide, by rw [ht]; decide⟩ hf

theorem element (n : Nat) (hc : b = true → schema.CalmIn f) :
    P b fun i => element ⟨schema, options i⟩ (nested i) f n := by
  unfold Decoder.element
  refine h.bind h.cancelled fun _ _ => ?_
  refine h.bind (h.within _ _ (single h hn none hc)) fun node _ => ?_
  exact h.bind h.counted fun _ _ => h.pure _

theorem countedElements (left n : Nat) (found : List Node) (hc : b = true → schema.CalmIn f) :
    P b fun i => countedElements ⟨schema, options i⟩ (nested i) f left n found := by
  induction left generalizing n found with
  | zero => exact h.pure _
  | succ left ih =>
      unfold Decoder.countedElements
      exact h.bind (element h hn n hc) fun node _ => ih (n + 1) (node :: found)

/-- An array of the schema has the property if only its elements tell where it ends. -/
theorem opens (hf : schema.HasField f) (hc : b = true → schema.CalmIn f) :
    Opens schema options rounds P b nested f := by
  intro ho isLast hl
  refine h.openEnded hf ho hc (fun b' hc' => ?_) (fun b' n hc' => ?_) hl
  · exact single h hn (f := elementField f) none hc'
  · exact element h hn (f := elementField f) n hc'

/-- An array has the property if its elements do, and if open-ended ones are kept in it. -/
theorem elements (hopen : Opens schema options rounds P b nested f) (hc : b = true → schema.CalmIn f) :
    P b fun i => elements ⟨schema, options i⟩ (rounds i) (nested i) f := by
  unfold Decoder.elements
  cases hr : f.repetition with
  | once => exact h.pure _
  | count n =>
      refine h.bind (h.reading (Unmoving.evalNat _ _).reading) fun n _ => ?_
      refine h.bind (h.limited n) fun _ _ => ?_
      exact countedElements h hn n 0 [] hc
  | untilEnd =>
      refine h.bind (h.reading unmoving_isExhausted.reading) fun e _ => ?_
      cases e with
      | true => exact h.pure _
      | false => exact hopen (by unfold Field.IsOpen; rw [hr]; trivial) _ seesEnd_isExhausted
  | untilTrue stop =>
      exact hopen (by unfold Field.IsOpen; rw [hr]; trivial) _ (seesEnd_untilTrue stop)

theorem content (siblings : List Node) (hopen : Opens schema options rounds P b nested f)
    (hc : b = true → schema.CalmIn f) :
    P b fun i => content ⟨schema, options i⟩ (rounds i) (nested i) f siblings := by
  have harray : P b fun i => array ⟨schema, options i⟩ (rounds i) (nested i) f := by
    unfold Decoder.array
    refine h.bind (h.reading .pos) fun start _ => ?_
    refine h.bind (elements h hn hopen hc) fun children _ => ?_
    exact h.bind (h.reading .pos) fun stop _ => h.pure _
  unfold Decoder.content
  cases f.repetition with
  | once => exact single h hn _ hc
  | count _ => exact harray
  | untilEnd => exact harray
  | untilTrue _ => exact harray

/-- A field, with the place that it is decoded at. -/
theorem presentField (siblings : List Node) (hopen : Opens schema options rounds P b nested f)
    (hc : b = true → schema.CalmIn f ∧ ¬ f.Wanders) :
    P b fun i => presentField ⟨schema, options i⟩ (rounds i) (nested i) f siblings := by
  simp only [presentField_eq]
  refine h.sought f (fun hb => (hc hb).2) ?_
  refine h.bind (h.reading (reading_align _)) fun _ _ => ?_
  refine h.bind (content h hn siblings hopen fun hb => (hc hb).1) fun node _ => ?_
  exact h.bind (h.reading (unmoving_validity f).reading) fun _ _ => h.pure _

/-- A field, if it is there. -/
theorem guarded (siblings : List Node) (hopen : Opens schema options rounds P b nested f)
    (hc : b = true → schema.CalmIn f ∧ ¬ f.Wanders) :
    P b fun i => guarded ⟨schema, options i⟩ (rounds i) (nested i) f siblings := by
  refine h.bind (h.reading (unmoving_isPresent f).reading) fun there _ => ?_
  cases there with
  | false => exact h.pure _
  | true =>
      simp only [if_true, map_eq_pure_bind]
      exact h.bind (presentField h hn siblings hopen hc) fun _ _ => h.pure _

/-- The fields of a struct. -/
theorem fields {fs : List Field} (found : List Node) (hopen : ∀ f ∈ fs, Opens schema options rounds P b nested f)
    (hc : b = true → ∀ f ∈ fs, schema.CalmIn f ∧ ¬ f.Wanders) :
    P b fun i => fields ⟨schema, options i⟩ (rounds i) (nested i) fs found := by
  induction fs generalizing found with
  | nil => exact h.pure _
  | cons f rest ih =>
      simp only [fields_cons]
      refine h.bind h.cancelled fun _ _ => ?_
      refine h.bind (h.member f ?_) fun p _ => ?_
      · exact guarded h hn found (hopen f (.head _)) fun hb => hc hb f (.head _)
      · cases p.2 with
        | true =>
            exact ih _ (fun g hg => hopen g (.tail _ hg)) (fun hb g hg => hc hb g (.tail _ hg))
        | false => exact h.pure _

omit hn in
/-- The inside of a struct has the property if its fields have. -/
theorem inside_of_fields {s : StructDef}
    (hfields : P b fun i => Decoder.fields ⟨schema, options i⟩ (rounds i) (nested i) s.fields []) :
    P b fun i => Decoder.inside ⟨schema, options i⟩ (rounds i) (nested i) s := by
  have hbody : P b fun i => body ⟨schema, options i⟩ (rounds i) (nested i) s := by
    cases ho : s.order with
    | none => simp only [body_plain _ _ _ ho]; exact hfields
    | some order => simp only [body_ordered _ _ _ ho]; exact h.overlaid order hfields
  unfold Decoder.inside
  refine h.bind (h.reading .pos) fun start _ => ?_
  refine h.bind hbody fun children _ => ?_
  refine h.bind (h.reading .pos) fun stop _ => ?_
  have hend : P b fun _ => (do align s.align; Pure.pure (start, children) : Decoding _) :=
    h.bind (h.reading (reading_align _)) fun _ _ => h.pure _
  by_cases ht : s.isStringTable = true
  · simp only [if_pos ht]
    exact h.bind (h.table _ _ _) fun _ _ => hend
  · simp only [if_neg ht]
    exact hend

/-- The inside of a struct of the schema. -/
theorem inside {s : StructDef} (hs : schema.Defines s) (hc : b = true → schema.Calm s) :
    P b fun i => Decoder.inside ⟨schema, options i⟩ (rounds i) (nested i) s := by
  refine inside_of_fields h (fields h hn [] (fun f hf => ?_) fun hb f hf => ?_)
  · exact opens h hn ⟨s, hs, hf⟩ fun hb => (hc hb).calmIn hf
  · exact ⟨(hc hb).calmIn hf, (hc hb).not_wanders hf⟩

end Fields

end Compositional

end Decoder

end BinaryFormat
