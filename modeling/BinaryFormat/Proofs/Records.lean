import BinaryFormat.Document.Record
import BinaryFormat.Proofs.Spelling

/-!
# Records that are written and read again

A record is read by a description, entry by entry, and written as a list of entries that may be absent. `Writes` says
that a list of entries is a written form of a value: whatever look-up finds these entries and lacks the absent ones
gives the value, and every entry is one that can be read. It is proved along the description, so a record of many
entries has it as soon as each of its entries has.

What an entry owes is the same everywhere. If its value is written, the written form is read as that value; and if it
is left out, its absence means that value. Which values are read at all is the other direction, `Yields`, proved along
the description as well.
-/

namespace BinaryFormat

/-- Two loads succeed if the first does and the second does with what it yields. -/
theorem Load.bind_eq_ok_iff {α β : Type} {x : Load α} {f : α → Load β} {b : β} :
    x >>= f = .ok b ↔ ∃ a, x = .ok a ∧ f a = .ok b := by
  cases x with
  | error e => exact ⟨nofun, nofun⟩
  | ok a => exact ⟨fun h => ⟨a, rfl, h⟩, fun ⟨a', ha, h⟩ => Except.ok.inj ha ▸ h⟩

theorem Load.map_eq_ok_iff {α β : Type} {x : Load α} {f : α → β} {b : β} :
    x.map f = .ok b ↔ ∃ a, x = .ok a ∧ f a = b := by
  cases x with
  | error e => exact ⟨nofun, nofun⟩
  | ok a => exact ⟨fun h => ⟨a, rfl, Except.ok.inj h⟩, fun ⟨a', ha, h⟩ => Except.ok.inj ha ▸ h ▸ rfl⟩

/-! ## Bytes -/

namespace Hex

/-- A byte is written with its quotient and its remainder by 16. -/
theorem digits_eq (b : UInt8) : digits b = [(b.toNat / 16).digitChar, (b.toNat % 16).digitChar] := by
  have hlt : b.toNat / 16 < 16 := Nat.div_lt_of_lt_mul b.toNat_lt
  rw [digits, Numeral.paddedHex, Numeral.hexDigits, Nat.toDigits_eq_if (by decide)]
  -- a number of one digit has a zero put in front
  split
  · rename_i hb
    rw [Nat.div_eq_of_lt hb, Nat.mod_eq_of_lt hb]
    rfl
  · rw [Nat.toDigits_of_lt_base hlt]
    rfl

/-- The two digits of a byte are read as that byte, and they are no spaces. -/
theorem byte?_digits (b : UInt8) : byte? (b.toNat / 16).digitChar (b.toNat % 16).digitChar = some b := by
  have hhigh : b.toNat / 16 < 16 := Nat.div_lt_of_lt_mul b.toNat_lt
  have hlow : b.toNat % 16 < 16 := Nat.mod_lt _ (by decide)
  rw [byte?, Numeral.digit?_digitChar (by decide) hhigh, Numeral.digit?_digitChar (by decide) hlow]
  show some (UInt8.ofNat (16 * (b.toNat / 16) + b.toNat % 16)) = some b
  rw [Nat.div_add_mod, UInt8.ofNat_toNat]

theorem encode_cons (b : UInt8) (bs : List UInt8) :
    encode (b :: bs) = (b.toNat / 16).digitChar :: (b.toNat % 16).digitChar :: encode bs := by
  rw [encode, List.flatMap_cons, digits_eq, ← encode]
  rfl

theorem decodePairs_encode (bytes : List UInt8) (place : Nat) : decodePairs place (encode bytes) = .ok bytes := by
  induction bytes generalizing place with
  | nil => rfl
  | cons b bs ih =>
      rw [encode_cons, decodePairs, byte?_digits]
      dsimp only
      rw [ih]
      rfl

/-- Bytes that are written as digits are read again. -/
theorem decode_encode (bytes : List UInt8) : decode (encode bytes) = .ok bytes := by
  have hdigit : ∀ d < 16, d.digitChar ≠ ' ' ∧ d.digitChar.utf8Size = 1 := by decide
  -- spaces are dropped and the length is looked at before the pairs are
  have hpacked : (encode bytes).filter (· != ' ') = encode bytes ∧ Text.byteLength (encode bytes) % 2 = 0 := by
    induction bytes with
    | nil => exact ⟨rfl, rfl⟩
    | cons b bs ih =>
        obtain ⟨hh, hhs⟩ := hdigit (b.toNat / 16) (Nat.div_lt_of_lt_mul b.toNat_lt)
        obtain ⟨hl, hls⟩ := hdigit (b.toNat % 16) (Nat.mod_lt _ (by decide))
        obtain ⟨hf, hn⟩ := ih
        rw [encode_cons, List.filter_cons_of_pos (by simp [hh]), List.filter_cons_of_pos (by simp [hl]), hf]
        refine ⟨rfl, ?_⟩
        rw [Text.byteLength_cons, Text.byteLength_cons, hhs, hls]
        omega
  rw [decode, hpacked.1, if_pos hpacked.2, decodePairs_encode]

end Hex

/-! ## Scalars -/

namespace Document

theorem toUInt32_toNat (n : UInt32) : toUInt32 (.int n.toNat) = .ok n := by
  have hlt : n.toNat < UInt32.size := n.toNat_lt
  simp [toUInt32, toNatBelow, hlt, Except.map]

theorem toUInt64_toNat (n : UInt64) : toUInt64 (.int n.toNat) = .ok n := by
  have hlt : n.toNat < UInt64.size := n.toNat_lt
  simp [toUInt64, toNatBelow, hlt, Except.map]

theorem toInt64_toInt (n : Int64) : toInt64 (.int n.toInt) = .ok n := by
  rw [toInt64, Numeral.toInt64?_toInt]

/-- An expression is read again from its text. -/
theorem toExpression_source (e : Expression) : toExpression (.text e.source) = .ok e := by
  rw [toExpression, e.ofSource_source]
  rfl

theorem toBytes_encode (bytes : List UInt8) : toBytes (.text (String.ofList (Hex.encode bytes))) = .ok bytes := by
  rw [toBytes, String.toList_ofList, Hex.decode_encode]
  rfl

/-- A name that stands for something is read as that. -/
theorem toName_text {α : Type} {ofName? : String → Option α} {s : String} {a : α} (h : ofName? s = some a) :
    toName ofName? (.text s) = .ok a := by
  rw [toName, toOneOf, Load.bind_eq_ok_iff]
  exact ⟨s, rfl, by rw [h]; rfl⟩

variable {α : Type} {read : Document → Load α} {write : α → Document}

/-- A list is read again if its members are. -/
theorem toListOf_map {as : List α} (h : ∀ a ∈ as, read (write a) = .ok a) :
    toListOf read (.list (as.map write)) = .ok as := by
  rw [toListOf]
  induction as with
  | nil => rfl
  | cons a as ih =>
      obtain ⟨ha, has⟩ := List.forall_mem_cons.1 h
      rw [List.map_cons, List.mapM_cons, ha, ih has]
      rfl

/-- A table is read again, key by key, if its values are. -/
theorem toTableOf_map {t : List (String × α)} (h : ∀ e ∈ t, read (write e.2) = .ok e.2) :
    toTableOf read (.table (t.map fun e => (e.1, write e.2))) = .ok t := by
  rw [toTableOf]
  induction t with
  | nil => rfl
  | cons e t ih =>
      obtain ⟨he, ht⟩ := List.forall_mem_cons.1 h
      rw [List.map_cons, List.mapM_cons, he, ih ht]
      rfl

/-- Each result of a list of loads is that of one of them. -/
theorem mem_of_mapM {β : Type} {f : α → Load β} {as : List α} {bs : List β} (h : as.mapM f = .ok bs) :
    ∀ b ∈ bs, ∃ a ∈ as, f a = .ok b := by
  induction as generalizing bs with
  | nil =>
      obtain rfl := Except.ok.inj h
      nofun
  | cons a as ih =>
      rw [List.mapM_cons] at h
      obtain ⟨b, hb, h⟩ := Load.bind_eq_ok_iff.1 h
      obtain ⟨bs, hbs, h⟩ := Load.bind_eq_ok_iff.1 h
      obtain rfl := Except.ok.inj h
      intro c hc
      rcases List.mem_cons.1 hc with rfl | hc
      · exact ⟨a, .head _, hb⟩
      · obtain ⟨a', ha', hf⟩ := ih hbs c hc
        exact ⟨a', .tail _ ha', hf⟩

/-- Each member of a list that is loaded was loaded from some document. -/
theorem mem_of_toListOf {d : Document} {as : List α} (h : toListOf read d = .ok as) :
    ∀ a ∈ as, ∃ d, read d = .ok a := by
  cases d with
  | list items =>
      intro a ha
      obtain ⟨d, -, hd⟩ := mem_of_mapM h a ha
      exact ⟨d, hd⟩
  | _ => cases h

theorem mem_of_toTableOf {d : Document} {t : List (String × α)} (h : toTableOf read d = .ok t) :
    ∀ e ∈ t, ∃ d, read d = .ok e.2 := by
  cases d with
  | table entries =>
      intro e he
      obtain ⟨e', -, hd⟩ := mem_of_mapM h e he
      obtain ⟨a, ha, rfl⟩ := Load.map_eq_ok_iff.1 hd
      exact ⟨e'.2, ha⟩
  | _ => cases h

end Document

/-! ## Records -/

namespace Record

variable {α β : Type}

theorem check_apply (f : Record (α → β)) (r : Record α) (k : String) (d : Document) :
    (Record.apply f r).check k d = (do f.check k d; r.check k d) := rfl

theorem build_apply (f : Record (α → β)) (r : Record α) (m : String → Option Document) :
    (Record.apply f r).build m = (do pure ((← f.build m) (← r.build m))) := rfl

/-- An entry is only checked under its own key. -/
theorem check_entry (key : String) (read : Document → Load α) (absent : Load α) (k : String) (d : Document) :
    (entry key read absent).check k d = if k = key then (read d).map fun _ => () else .ok () := rfl

theorem build_entry (key : String) (read : Document → Load α) (absent : Load α) (m : String → Option Document) :
    (entry key read absent).build m = ((m key).map read).getD absent := rfl

/-- A table is checked entry by entry, in its own order, before anything is built from it. -/
theorem load_table (r : Record α) (entries : List (String × Document)) :
    r.load (.table entries) = (do
      entries.forM fun e => r.check e.1 e.2
      r.build fun key => entries.lookup key) := rfl

theorem forM_check_eq_ok {r : Record α} {entries : List (String × Document)}
    (h : ∀ e ∈ entries, r.check e.1 e.2 = .ok ()) : (entries.forM fun e => r.check e.1 e.2) = .ok () := by
  induction entries with
  | nil => rfl
  | cons e entries ih =>
      obtain ⟨he, hall⟩ := List.forall_mem_cons.1 h
      show (r.check e.1 e.2 >>= fun _ => entries.forM fun e => r.check e.1 e.2) = .ok ()
      rw [he]
      exact ih hall

/-- The entries are a written form of the value. -/
structure Writes (r : Record α) (a : α) (entries : List (String × Option Document)) : Prop where
  keys : r.keys = entries.map Prod.fst
  /-- An entry under a key that is written is the one that is written. -/
  check : ∀ k d, (∀ e ∈ entries, e.1 = k → e.2 = some d) → r.check k d = .ok ()
  build : ∀ m : String → Option Document, (∀ e ∈ entries, m e.1 = e.2) → r.build m = .ok a

/-- A record without entries writes none. -/
theorem writes_const (a : α) : Writes (const a) a [] where
  keys := rfl
  check _ _ _ := rfl
  build _ _ := rfl

/-- Two records in a row write the entries of both. -/
theorem Writes.apply {f : Record (α → β)} {r : Record α} {g : α → β} {a : α}
    {entries entries' : List (String × Option Document)} (hf : f.Writes g entries) (hr : r.Writes a entries') :
    (Record.apply f r).Writes (g a) (entries ++ entries') where
  keys := by rw [Record.apply, hf.keys, hr.keys, List.map_append]
  check k d h := by
    obtain ⟨hl, hr'⟩ := List.forall_mem_append.1 h
    rw [check_apply, hf.check k d hl]
    exact hr.check k d hr'
  build m h := by
    obtain ⟨hl, hr'⟩ := List.forall_mem_append.1 h
    rw [build_apply, hf.build m hl, hr.build m hr']
    rfl

/-- An entry is written if its value is, and it is left out where its absence means the value. -/
theorem writes_entry {key : String} {read : Document → Load α} {absent : Load α} {a : α} {written : Option Document}
    (h : ∀ d ∈ written, read d = .ok a) (ha : written = none → absent = .ok a) :
    (entry key read absent).Writes a [(key, written)] where
  keys := rfl
  check k d hd := by
    rw [check_entry]
    split
    · rename_i hk
      rw [h d (hd _ (.head _) hk.symm)]
      rfl
    · rfl
  build m hm := by
    have hkey : m key = written := hm _ (.head _)
    rw [build_entry, hkey]
    cases written with
    | none => exact ha rfl
    | some d => exact h d rfl

theorem writes_required {key : String} {read : Document → Load α} {a : α} {d : Document} (h : read d = .ok a) :
    (required key read).Writes a [(key, some d)] :=
  writes_entry (fun _ hd => by obtain rfl := Option.some.inj hd; exact h) nofun

theorem writes_withDefault {key : String} {read : Document → Load α} {a b : α} {d : Document} (h : read d = .ok a) :
    (withDefault key read b).Writes a [(key, some d)] :=
  writes_entry (fun _ hd => by obtain rfl := Option.some.inj hd; exact h) nofun

/-- A value that may be missing is left out where it is, and no written form of one is mistaken for that. -/
theorem writes_optional {key : String} {read : Document → Load α} {write : α → Document} {a : Option α}
    (h : ∀ x ∈ a, read (write x) = .ok x) (hnull : ∀ x, write x ≠ .null) :
    (optional key read).Writes a [(key, a.map write)] := by
  refine writes_entry (fun d hd => ?_) fun ha => ?_
  · obtain ⟨x, rfl, rfl⟩ := Option.map_eq_some_iff.1 hd
    rw [Document.toOption, h x rfl]
    · rfl
    · exact hnull x
  · rw [Option.map_eq_none_iff.1 ha]

/-- Under keys that differ, every entry is found as it was written. -/
theorem lookup_present {entries : List (String × Option Document)} (hn : (entries.map Prod.fst).Nodup) :
    ∀ e ∈ entries, (entries.filterMap fun e => e.2.map fun d => (e.1, d)).lookup e.1 = e.2 := by
  induction entries with
  | nil => nofun
  | cons e entries ih =>
      obtain ⟨k, o⟩ := e
      obtain ⟨hk, hn⟩ := List.nodup_cons.1 hn
      have hother : ∀ e ∈ entries, e.1 ≠ k := fun e he hek => hk (List.mem_map.2 ⟨e, he, hek⟩)
      have hnone : (entries.filterMap fun e => e.2.map fun d => (e.1, d)).lookup k = none := by
        rw [List.lookup_eq_none_iff]
        intro x hx
        obtain ⟨e, he, hex⟩ := List.mem_filterMap.1 hx
        obtain ⟨d, -, rfl⟩ := Option.map_eq_some_iff.1 hex
        simpa using (hother e he).symm
      intro e he
      -- the first entry hides the others under its key, and there are none
      rcases List.mem_cons.1 he with rfl | hmem
      · cases o with
        | none => exact hnone
        | some d => simp
      · have hih := ih hn e hmem
        have hne := beq_false_of_ne (hother e hmem)
        cases o with
        | none => exact hih
        | some d => simpa [List.lookup_cons, hne] using hih

/-- A record whose keys differ is read from its written form. -/
theorem Writes.load {r : Record α} {a : α} {entries : List (String × Option Document)} (h : r.Writes a entries)
    (hn : r.keys.Nodup) : r.load (.ofPresent entries) = .ok a := by
  have hlookup := lookup_present (h.keys ▸ hn)
  have hcheck : ∀ e ∈ entries.filterMap fun e => e.2.map fun d => (e.1, d), r.check e.1 e.2 = .ok () := by
    intro e he
    obtain ⟨⟨k, o⟩, hmem, ho⟩ := List.mem_filterMap.1 he
    obtain ⟨d, rfl, rfl⟩ := Option.map_eq_some_iff.1 ho
    -- of the entries that were written, the one under this key is the one that is looked up
    refine h.check k d fun e' he' hk => ?_
    rw [← hlookup e' he', hk, hlookup _ hmem]
  rw [Document.ofPresent, load_table]
  rw [forM_check_eq_ok hcheck]
  exact h.build _ hlookup

/-! ### What is read -/

/-- Every value that is read has the property. -/
def Yields (r : Record α) (P : α → Prop) : Prop := ∀ m a, r.build m = .ok a → P a

/-- What is built from a record and an entry has a property that follows from those of the two. -/
theorem Yields.apply {f : Record (α → β)} {r : Record α} {Q : α → Prop} {P : β → Prop}
    (hf : f.Yields fun g => ∀ a, Q a → P (g a)) (hr : r.Yields Q) : (Record.apply f r).Yields P := by
  intro m b hb
  obtain ⟨g, hg, hb⟩ := Load.bind_eq_ok_iff.1 hb
  obtain ⟨a, ha, hb⟩ := Load.bind_eq_ok_iff.1 hb
  obtain rfl := Except.ok.inj hb
  exact hf m g hg a (hr m a ha)

/-- An entry that the property does not depend on. -/
theorem Yields.any {f : Record (α → β)} {r : Record α} {P : β → Prop} (hf : f.Yields fun g => ∀ a, P (g a)) :
    (Record.apply f r).Yields P :=
  .apply (Q := fun _ => True) (fun m g hg a _ => hf m g hg a) fun _ _ _ => trivial

theorem yields_const {a : α} {P : α → Prop} (h : P a) : (const a).Yields P := by
  intro m b hb
  obtain rfl := Except.ok.inj hb
  exact h

/-- What an entry yields was read from a document, or stands for the missing entry. -/
theorem yields_entry {key : String} {read : Document → Load α} {absent : Load α} {P : α → Prop}
    (h : ∀ d a, read d = .ok a → P a) (ha : ∀ a, absent = .ok a → P a) : (entry key read absent).Yields P := by
  intro m a hb
  rw [build_entry] at hb
  cases hm : m key with
  | none =>
      rw [hm] at hb
      exact ha a hb
  | some d =>
      rw [hm] at hb
      exact h d a hb

theorem yields_optional {key : String} {read : Document → Load α} {P : α → Prop} (h : ∀ d a, read d = .ok a → P a) :
    (optional key read).Yields fun o => ∀ a ∈ o, P a := by
  refine yields_entry (fun d o ho => ?_) fun o ho => ?_
  · unfold Document.toOption at ho
    split at ho
    · obtain rfl := Except.ok.inj ho
      nofun
    · obtain ⟨x, hx, rfl⟩ := Load.map_eq_ok_iff.1 ho
      intro a ha
      obtain rfl := Option.some.inj ha
      exact h _ _ hx
  · obtain rfl := Except.ok.inj ho
    nofun

/-- A record is read by its description, whether it is given as a table or as a list. -/
theorem Yields.load {r : Record α} {P : α → Prop} (h : r.Yields P) {d : Document} {a : α} (hd : r.load d = .ok a) :
    P a := by
  have entries : ∀ {es : List (String × Document)} {a : α}, r.loadEntries es = .ok a → P a := fun he => by
    obtain ⟨-, -, hb⟩ := Load.bind_eq_ok_iff.1 he
    exact h _ _ hb
  unfold Record.load at hd
  split at hd
  · exact entries hd
  · obtain ⟨a', ha, hd⟩ := Load.bind_eq_ok_iff.1 hd
    split at hd
    · obtain rfl := Except.ok.inj hd
      exact entries ha
    · cases hd
  · cases hd

end Record

end BinaryFormat
