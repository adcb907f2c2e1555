import BinaryFormat.Proofs.Reading

/-!
# Loose equality

Values are compared by their text where both are texts and by the integer they stand for otherwise. A value that is no
text always stands for an integer, so the last rule, that a value is equal to itself, never decides anything: of two
values that are not both texts, one that stands for no integer is a text, and the other is none.

Hence equality is that of one key or of the other. It is an equivalence on each side, and only a path that leaves the
texts and comes back to them can go wrong: two spellings of one integer are equal to the integer, but not to each
other. Cases with integers or truth values never lie at both ends of such a path, and this is why their order does not
matter.
-/

namespace BinaryFormat

open Schema (Field StructDef SwitchCase SwitchDef)

/-! ## Two values -/

namespace Value

/-- Whether a value is a text; the others all stand for an integer. -/
def isText : Value → Bool
  | text _ => true
  | int _ | bool _ => false

variable {a b c : Value}

/-- Only a text can stand for no integer. -/
theorem exists_toInt? (h : a.isText = false) : ∃ n, a.toInt? = some n := by
  cases a with
  | int n => exact ⟨n, rfl⟩
  | bool b => exact ⟨_, rfl⟩
  | text s => cases h

/-- Unless both are texts, values are compared by the integers they stand for. -/
theorem looseEq_iff (h : ¬(a.isText = true ∧ b.isText = true)) :
    a.looseEq b = true ↔ ∃ n, a.toInt? = some n ∧ b.toInt? = some n := by
  -- one of the two is no text and stands for an integer, so the other does as well if they are the same value
  have hsame : a = b → ∃ n, a.toInt? = some n := by
    rintro rfl
    exact exists_toInt? (by simpa using h)
  unfold looseEq
  split
  · exact absurd ⟨rfl, rfl⟩ h
  · split
    · rename_i m n ha hb
      rw [beq_iff_eq, ha, hb]
      constructor
      · rintro rfl
        exact ⟨m, rfl, rfl⟩
      · rintro ⟨k, hm, hn⟩
        exact Option.some.inj (hm.trans hn.symm)
    · rename_i hnone
      rw [beq_iff_eq]
      constructor
      · rintro rfl
        obtain ⟨n, hn⟩ := hsame rfl
        exact (hnone n n hn hn).elim
      · rintro ⟨n, ha, hb⟩
        exact (hnone n n ha hb).elim

/-- Two texts are compared letter by letter, even where both spell the same integer. -/
theorem looseEq_text {s t : String} : (text s).looseEq (text t) = true ↔ s = t := beq_iff_eq

theorem exists_eq_text (h : a.isText = true) : ∃ s, a = text s := by
  cases a with
  | text s => exact ⟨s, rfl⟩
  | int n | bool b => cases h

theorem looseEq_self (a : Value) : a.looseEq a = true := by
  by_cases h : a.isText = true
  · obtain ⟨s, rfl⟩ := exists_eq_text h
    exact looseEq_text.mpr rfl
  · obtain ⟨n, hn⟩ := exists_toInt? (Bool.eq_false_iff.mpr h)
    exact (looseEq_iff fun hh => h hh.1).mpr ⟨n, hn, hn⟩

/-- Which side a value stands on does not matter. -/
theorem looseEq_comm (a b : Value) : a.looseEq b = b.looseEq a := by
  rw [Bool.eq_iff_iff]
  by_cases h : a.isText = true ∧ b.isText = true
  · obtain ⟨s, rfl⟩ := exists_eq_text h.1
    obtain ⟨t, rfl⟩ := exists_eq_text h.2
    rw [looseEq_text, looseEq_text, eq_comm]
  · rw [looseEq_iff h, looseEq_iff fun hh => h hh.symm]
    exact exists_congr fun n => and_comm

/-- A path from value to value keeps to the texts, or it keeps to the integers that are stood for, unless it leaves
the texts and comes back. -/
theorem looseEq_trans (hab : a.looseEq b = true) (hbc : b.looseEq c = true)
    (h : ¬(a.isText = true ∧ c.isText = true ∧ b.isText = false)) : a.looseEq c = true := by
  by_cases hleft : a.isText = true ∧ b.isText = true
  · obtain ⟨s, rfl⟩ := exists_eq_text hleft.1
    obtain ⟨t, rfl⟩ := exists_eq_text hleft.2
    rwa [looseEq_text.mp hab]
  · by_cases hright : b.isText = true ∧ c.isText = true
    · obtain ⟨s, rfl⟩ := exists_eq_text hright.1
      obtain ⟨t, rfl⟩ := exists_eq_text hright.2
      rwa [← looseEq_text.mp hbc]
    · obtain ⟨m, ha, hb⟩ := (looseEq_iff hleft).mp hab
      obtain ⟨n, hb', hc⟩ := (looseEq_iff hright).mp hbc
      obtain rfl : m = n := Option.some.inj (hb.symm.trans hb')
      refine (looseEq_iff fun hends => ?_).mpr ⟨m, ha, hc⟩
      exact h ⟨hends.1, hends.2, Bool.eq_false_iff.mpr fun hb => hleft ⟨hends.1, hb⟩⟩

/-- Two spellings of one integer are equal to it, and not to each other. -/
example : (text " 7").looseEq (int 7) = true ∧ (int 7).looseEq (text "+07") = true ∧
    (text " 7").looseEq (text "+07") = false := by decide

end Value

/-! ## The cases of a switch -/

namespace Decoder

variable {r : Run} {x : Value} {c c' : SwitchCase} {cases cases' : List SwitchCase}

/-- In the run the case has this value, which is an integer or a truth value. -/
structure HasNumber (r : Run) (c : SwitchCase) (v : Value) : Prop where
  eval_eq : Decoding.eval c.value r = .done v r
  isText_eq : v.isText = false

/-- In the run all cases have integers or truth values, and no two of them are loosely equal. -/
structure Distinct (r : Run) (cases : List SwitchCase) : Prop where
  number : ∀ c ∈ cases, ∃ v, HasNumber r c v
  differ : cases.Pairwise fun c c' => ∀ v v', HasNumber r c v → HasNumber r c' v' → v.looseEq v' = false

/-- In the run the case has a value that is equal to this one. -/
def Meets (r : Run) (x : Value) (c : SwitchCase) : Prop :=
  ∃ v, Decoding.eval c.value r = .done v r ∧ x.looseEq v = true

/-- Whatever is compared with two such cases, it is not equal to both. -/
theorem Distinct.not_meets (h : Distinct r cases) (x : Value) :
    cases.Pairwise fun c c' => ¬(Meets r x c ∧ Meets r x c') := by
  refine h.differ.imp_of_mem fun {c c'} hc hc' hdiffer => ?_
  obtain ⟨v, hv⟩ := h.number c hc
  obtain ⟨v', hv'⟩ := h.number c' hc'
  rintro ⟨⟨w, hw, hmeets⟩, ⟨w', hw', hmeets'⟩⟩
  obtain ⟨rfl, -⟩ := Outcome.done.inj (hw.symm.trans hv.eval_eq)
  obtain ⟨rfl, -⟩ := Outcome.done.inj (hw'.symm.trans hv'.eval_eq)
  -- the two values are joined by what is compared, and neither is a text
  have hequal : w.looseEq w' = true :=
    Value.looseEq_trans (Value.looseEq_comm w x ▸ hmeets) hmeets' fun hends => by
      rw [hv.isText_eq] at hends
      exact Bool.false_ne_true hends.1
  rw [hdiffer w w' hv hv'] at hequal
  exact Bool.false_ne_true hequal

theorem Distinct.tail (h : Distinct r (c :: cases)) : Distinct r cases :=
  ⟨fun c' hc' => h.number c' (.tail _ hc'), (List.pairwise_cons.mp h.differ).2⟩

/-- Cases that differ from each other do so in any order. -/
theorem Distinct.perm (h : Distinct r cases) (hperm : cases.Perm cases') : Distinct r cases' := by
  refine ⟨fun c hc => h.number c (hperm.mem_iff.mpr hc), ?_⟩
  refine (hperm.pairwise_iff fun {c c'} hdiffer v v' hv hv' => ?_).mp h.differ
  rw [Value.looseEq_comm]
  exact hdiffer v' v hv' hv

/-- The first case whose value is equal is chosen; the values behind it are not looked at. -/
theorem chosenCase_cons {v : Value} (h : Decoding.eval c.value r = .done v r) :
    chosenCase x (c :: cases) r = if x.looseEq v = true then .done (some c.target) r else chosenCase x cases r := by
  rw [chosenCase, Decoding.bind_done h]
  split <;> rfl

/-- Cases in another order, in front of the same ones, choose the same struct. -/
theorem chosenCase_perm (h : Distinct r cases) (hperm : cases.Perm cases') (back : List SwitchCase) :
    chosenCase x (cases ++ back) r = chosenCase x (cases' ++ back) r := by
  induction hperm with
  | nil => rfl
  | @cons c cases cases' hperm ih =>
      obtain ⟨v, hv⟩ := h.number c (.head _)
      rw [List.cons_append, List.cons_append, chosenCase_cons hv.eval_eq, chosenCase_cons hv.eval_eq, ih h.tail]
  | swap c c' rest =>
      obtain ⟨v, hv⟩ := h.number c (.tail _ (.head _))
      obtain ⟨v', hv'⟩ := h.number c' (.head _)
      have hone : ¬(Meets r x c' ∧ Meets r x c) := (List.pairwise_cons.mp (h.not_meets x)).1 c (.head _)
      simp only [List.cons_append, chosenCase_cons hv.eval_eq, chosenCase_cons hv'.eval_eq]
      by_cases hc : x.looseEq v = true
      · have hc' : ¬x.looseEq v' = true := fun hc' => hone ⟨⟨v', hv'.eval_eq, hc'⟩, ⟨v, hv.eval_eq, hc⟩⟩
        simp only [if_pos hc, if_neg hc']
      · simp only [if_neg hc]
  | trans hperm _ ih ih' => exact (ih h).trans (ih' (h.perm hperm))

/-- What is in front decides alike whatever is behind it. -/
theorem chosenCase_append {back back' : List SwitchCase} (h : chosenCase x back r = chosenCase x back' r)
    (front : List SwitchCase) : chosenCase x (front ++ back) r = chosenCase x (front ++ back') r := by
  induction front with
  | nil => exact h
  | cons c front ih =>
      rw [List.cons_append, List.cons_append, chosenCase, chosenCase, Decoding.bind_apply, Decoding.bind_apply]
      cases he : Decoding.eval c.value r with
      | done v r' =>
          obtain rfl := (Decoding.Unmoving.eval c.value).eq he
          dsimp only
          split
          · rfl
          · exact ih
      | failed e r' => rfl
      | unfinished => rfl

variable {d : Decoder} {nested : StructDef → String → Decoding Node} {f : Field} {s : SwitchDef}

/-- A switch field depends on what its cases choose. -/
theorem switchField_congr (hf : f.switch = some s)
    (h : ∀ x, chosenCase x cases r = chosenCase x s.cases r) :
    switchField d nested { f with switch := some { s with cases := cases } } r = switchField d nested f r := by
  unfold switchField
  rw [hf]
  dsimp only
  rw [Decoding.bind_apply, Decoding.bind_apply]
  cases he : Decoding.eval s.discriminant r with
  | done v r' =>
      obtain rfl := (Decoding.Unmoving.eval s.discriminant).eq he
      dsimp only
      rw [Decoding.bind_apply, Decoding.bind_apply, h v]
      rfl
  | failed e r' => rfl
  | unfinished => rfl

/-- **Loose equality is an equivalence, except across numerals.** Of cases whose values are integers or truth values,
no two of them equal, at most one equals what is compared with them. So a switch field is decoded alike when such cases,
wherever they stand among the others, are put in another order. -/
theorem looseEq_laws :
    (∀ a : Value, a.looseEq a = true) ∧ (∀ a b : Value, a.looseEq b = b.looseEq a) ∧
    (∀ a b c : Value, a.looseEq b = true → b.looseEq c = true →
      ¬(a.isText = true ∧ c.isText = true ∧ b.isText = false) → a.looseEq c = true) ∧
    ∀ (r : Run) (cases : List SwitchCase), Distinct r cases →
      (∀ x, cases.Pairwise fun c c' => ¬(Meets r x c ∧ Meets r x c')) ∧
      ∀ (d : Decoder) (nested : StructDef → String → Decoding Node) (f : Field) (s : SwitchDef)
        (front back cases' : List SwitchCase), f.switch = some s → s.cases = front ++ (cases ++ back) →
        cases.Perm cases' →
        switchField d nested { f with switch := some { s with cases := front ++ (cases' ++ back) } } r =
          switchField d nested f r := by
  refine ⟨Value.looseEq_self, Value.looseEq_comm, fun a b c => Value.looseEq_trans, fun r cases h => ?_⟩
  refine ⟨h.not_meets, fun d nested f s front back cases' hf hs hperm => ?_⟩
  refine switchField_congr hf fun x => ?_
  rw [hs]
  exact (chosenCase_append (chosenCase_perm h hperm back) front).symm

end Decoder

/-! ## A switch on a numeral -/

namespace Dispatch

/-- The tokens of `kind`. -/
theorem scan?_kind : Token.scan? 0 (stripBraces "kind".toList).1 =
    some ⟨[⟨.name "kind", ⟨0, 4⟩⟩, ⟨.finish, ⟨4, 4⟩⟩], []⟩ := by
  decide +kernel

/-- The tokens of `1 < 2`. -/
theorem scan?_less : Token.scan? 0 (stripBraces "1 < 2".toList).1 =
    some ⟨[⟨.int 1, ⟨0, 1⟩⟩, ⟨.symbol .less, ⟨2, 3⟩⟩, ⟨.int 2, ⟨4, 5⟩⟩, ⟨.finish, ⟨5, 5⟩⟩], []⟩ := by
  decide +kernel

/-- The tokens of `2`. -/
theorem scan?_two : Token.scan? 0 (stripBraces "2".toList).1 =
    some ⟨[⟨.int 2, ⟨0, 1⟩⟩, ⟨.finish, ⟨1, 1⟩⟩], []⟩ := by
  decide +kernel

/-- The text that is switched on. -/
def kind : Expression where
  source := "kind"
  tree := .ident "kind" ⟨0, 4⟩
  tree_eq := by
    unfold Expr.ofSource Expr.ofText
    rw [scan?_kind]
    rfl

/-- A truth value, which stands for one. -/
def less : Expression where
  source := "1 < 2"
  tree := .binary .lt (.int 1 ⟨0, 1⟩) (.int 2 ⟨4, 5⟩) ⟨0, 5⟩
  tree_eq := by
    unfold Expr.ofSource Expr.ofText
    rw [scan?_less]
    rfl

/-- The number two. -/
def two : Expression where
  source := "2"
  tree := .int 2 ⟨0, 1⟩
  tree_eq := by
    unfold Expr.ofSource Expr.ofText
    rw [scan?_two]
    rfl

/-- The text that is switched on is compared with itself in front of the numbers. -/
def spec : SwitchDef where
  discriminant := kind
  cases := [⟨two, "empty"⟩, ⟨less, "full"⟩, ⟨kind, "other"⟩]
  fallback := none

/-- A switch on that text. -/
def field : Field where
  name := "item"
  type := .switch
  switch := some spec

/-- A decoder with the structs that the cases lead to. -/
def decoder : Decoder where
  schema := {
    name := "dispatch"
    structs := [
      ("empty", { name := "empty", fields := [] }),
      ("full", { name := "full", fields := [{ name := "x", type := .u8 }] })]
    root := "empty" }
  options := {}

/-- The text is a spelling of one. -/
def run : Run := .start ((Reader.ofBuffer #[7] .little).bind "kind" (.text " +01"))

theorem hasNumber_two (target : String) : Decoder.HasNumber run ⟨two, target⟩ (.int 2) := ⟨rfl, rfl⟩

theorem hasNumber_less (target : String) : Decoder.HasNumber run ⟨less, target⟩ (.bool true) := ⟨rfl, rfl⟩

/-- Two and a truth value stand for different integers. -/
theorem distinct_numbers : Decoder.Distinct run [⟨two, "empty"⟩, ⟨less, "full"⟩] := by
  refine ⟨?_, ?_⟩
  · exact List.forall_mem_cons.mpr ⟨⟨_, hasNumber_two _⟩, List.forall_mem_cons.mpr ⟨⟨_, hasNumber_less _⟩, nofun⟩⟩
  · refine List.pairwise_pair.mpr fun v v' hv hv' => ?_
    obtain ⟨rfl, -⟩ := Outcome.done.inj (hv.eval_eq.symm.trans (hasNumber_two _).eval_eq)
    obtain ⟨rfl, -⟩ := Outcome.done.inj (hv'.eval_eq.symm.trans (hasNumber_less _).eval_eq)
    decide

/-- The two numbers may be exchanged in front of the case with the text. -/
theorem switchField_exchanged :
    (Value.bool true).looseEq (.int 1) = true ∧ Decoder.Distinct run [⟨two, "empty"⟩, ⟨less, "full"⟩] ∧
      Decoder.switchField decoder (decoder.struct 0 8) { field with switch := some { spec with
        cases := [⟨less, "full"⟩, ⟨two, "empty"⟩, ⟨kind, "other"⟩] } } run =
      Decoder.switchField decoder (decoder.struct 0 8) field run := by
  obtain ⟨-, -, htrans, hcases⟩ := Decoder.looseEq_laws
  have hone : (Value.bool true).looseEq (.int 1) = true :=
    htrans (.bool true) (.text " +01") (.int 1) (by decide) (by decide) (by decide)
  obtain ⟨-, hswitch⟩ := hcases run _ distinct_numbers
  exact ⟨hone, distinct_numbers, hswitch decoder (decoder.struct 0 8) field spec [] [⟨kind, "other"⟩]
    [⟨less, "full"⟩, ⟨two, "empty"⟩] rfl rfl (.swap ..)⟩

end Dispatch

end BinaryFormat
