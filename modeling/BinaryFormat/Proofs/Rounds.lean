import BinaryFormat.Proofs.Traversal

/-!
# The number of rounds

Decoding is given a number of rounds for its open-ended arrays, and that number must not matter: a decode
that comes to an end with some rounds ends in the same way with more. So a buffer has at most one answer,
and the answer can be spoken of without the rounds that it took.
-/

namespace BinaryFormat

open Schema (Field StructDef)

namespace Decoding

variable {α β : Type}

/-- The step `y` ends as `x` does wherever `x` comes to an end. -/
def ExtendedBy (x y : Decoding α) : Prop := ∀ r, x r = .unfinished ∨ y r = x r

namespace ExtendedBy

theorem refl (x : Decoding α) : x.ExtendedBy x := fun _ => Or.inr rfl

/-- More rounds for the first step and for the second one are more rounds for both. -/
theorem bind {x y : Decoding α} {f g : α → Decoding β} (hx : x.ExtendedBy y)
    (hf : ∀ a, x.Yields a → (f a).ExtendedBy (g a)) : (x >>= f).ExtendedBy (y >>= g) := by
  intro r
  rw [bind_apply, bind_apply]
  rcases hx r with h | h
  · rw [h]; exact Or.inl rfl
  · rw [h]
    cases hr : x r with
    | done a r' => exact hf a ⟨r, r', hr⟩ r'
    | failed e r' => exact Or.inr rfl
    | unfinished => exact Or.inl rfl

theorem attempt {x y : Decoding α} (h : x.ExtendedBy y) : x.attempt.ExtendedBy y.attempt := by
  intro r
  unfold Decoding.attempt
  rcases h r with h | h
  · rw [h]; exact Or.inl rfl
  · rw [h]; exact Or.inr rfl

theorem within {x y : Decoding α} (segment : String) (type : FieldType) (h : x.ExtendedBy y) :
    (within segment type x).ExtendedBy (.within segment type y) := by
  intro r
  unfold Decoding.within
  rcases h { r with path := segment :: r.path } with h | h
  · rw [h]; exact Or.inl rfl
  · rw [h]; exact Or.inr rfl

theorem inBuffer (d : Decoder) {x y : Decoding α} (data : Buffer) (h : x.ExtendedBy y) :
    (d.inBuffer data x).ExtendedBy (d.inBuffer data y) := by
  intro r
  unfold Decoder.inBuffer
  rcases h { r with reader := .ofBuffer data d.schema.order } with h | h
  · rw [h]; exact Or.inl rfl
  · rw [h]; exact Or.inr rfl

/-- A step between two others that stay the same. -/
theorem bracket {γ : Type} {x y : Decoding α} (opening : Decoding β) (closing : β → α → Decoding γ)
    (h : x.ExtendedBy y) : (do let b ← opening; let a ← x; closing b a : Decoding γ).ExtendedBy
      (do let b ← opening; let a ← y; closing b a) :=
  (refl opening).bind fun b _ => h.bind fun a _ => refl (closing b a)

end ExtendedBy

/-- Where the step ends with some rounds, it ends in the same way with more. -/
def Persistent (x : Nat → Decoding α) : Prop := ∀ n m, n ≤ m → (x n).ExtendedBy (x m)

end Decoding

namespace Decoder

open Decoding

/-- An open-ended array that ends within some rounds ends in the same way within more. -/
theorem extendedBy_openElements {d : Decoder} {nested nested' : StructDef → String → Decoding Node}
    {f : Field} {isLast : Decoding Bool}
    (h : ∀ i, (element d nested f i).ExtendedBy (element d nested' f i)) {n m : Nat} (hnm : n ≤ m)
    (i : Nat) (found : List Node) :
    (openElements d nested f isLast n i found).ExtendedBy
      (openElements d nested' f isLast m i found) := by
  induction n generalizing m i found with
  | zero => intro r; exact Or.inl rfl
  | succ n ih =>
      obtain ⟨m, rfl⟩ : ∃ k, m = k + 1 := ⟨m - 1, by omega⟩
      unfold openElements
      refine (ExtendedBy.refl _).bind fun _ _ => (ExtendedBy.refl _).bind fun before _ => ?_
      refine (h i).bind fun node _ => (ExtendedBy.refl _).bind fun after _ => ?_
      split
      · exact .refl _
      · refine (ExtendedBy.refl _).bind fun last _ => ?_
        split
        · exact .refl _
        · exact ih (by omega) (i + 1) (node :: found)

/-- More rounds change nothing about a step that comes to an end. -/
theorem compositional_persistent (schema : Schema) (options : Options) :
    Compositional schema (fun _ => options) id fun _ {_} x => Persistent x where
  reading _ _ _ _ := .refl _
  bind hx hf n m hnm := (hx n m hnm).bind fun a ha => hf a ⟨n, ha⟩ n m hnm
  cancelled _ _ _ := .refl _
  counted _ _ _ := .refl _
  limited _ _ _ _ := .refl _
  table _ _ _ _ _ _ := .refl _
  within segment type h n m hnm := (h n m hnm).within segment type
  inBuffer data h n m hnm := (h n m hnm).inBuffer ⟨schema, options⟩ data
  bounded _ h n m hnm := .bracket _ _ (h n m hnm)
  overlaid _ h n m hnm := .bracket _ _ (h n m hnm)
  sought _ _ h n m hnm := .bracket _ _ (h n m hnm)
  member f h n m hnm :=
    (ExtendedBy.refl _).bind fun _ _ =>
      ((h n m hnm).within f.name f.type).attempt.bind fun _ _ => .refl _
  openEnded _ _ hc _ h _ n m hnm :=
    extendedBy_openElements (fun i => h _ i hc n m hnm) hnm 0 []

variable (d : Decoder)

theorem persistent_struct (levels : Nat) {s : StructDef} (name : String) (hs : d.schema.Defines s) :
    Persistent fun n => d.struct n levels s name := by
  induction levels generalizing s name with
  | zero => intro n m _ r; exact Or.inl rfl
  | succ levels ih =>
      have hinside : Persistent fun n => d.inside n (d.struct n levels) s :=
        (compositional_persistent d.schema d.options).inside (b := false)
          (fun _ s name hs _ => ih name hs) hs (fun hb => by cases hb)
      intro n m hnm
      show (d.structWith n (d.struct n levels) s name).ExtendedBy
        (d.structWith m (d.struct m levels) s name)
      rw [structWith_eq, structWith_eq]
      exact (ExtendedBy.bracket _ _ (hinside n m hnm)).bind fun _ _ => .refl _

/-- A decode that comes to an end does so with any larger number of rounds, and in the same way. -/
theorem persistent_root : Persistent d.root := by
  intro n m hnm r
  unfold root
  rw [bind_apply, bind_apply]
  unfold structDef
  cases hs : d.schema.structs.get? d.schema.root with
  | none => exact Or.inr rfl
  | some s => exact d.persistent_struct _ _ ⟨_, hs⟩ n m hnm r

/-- The decode of a buffer ends in this, with some number of rounds. -/
def Answers (data : Buffer) (answer : Except Failure Decoded) : Prop :=
  ∃ rounds, d.decode? rounds data = some answer

/-- More rounds change no answer. -/
theorem decode?_mono {n m : Nat} (hnm : n ≤ m) {data : Buffer} {answer : Except Failure Decoded}
    (h : d.decode? n data = some answer) : d.decode? m data = some answer := by
  unfold decode? at h ⊢
  rcases d.persistent_root n m hnm (.start (.ofBuffer data d.schema.order)) with hr | hr
  · rw [hr] at h; cases h
  · rw [hr]; exact h

/-- An answer is a tree if the root is done with some number of rounds. -/
theorem answers_ok_iff {data : Buffer} {t : Decoded} :
    d.Answers data (.ok t) ↔ ∃ rounds r, d.root rounds (.start (.ofBuffer data d.schema.order)) = .done t.root r ∧
      t.recovered = r.recovered.reverse := by
  unfold Answers decode?
  constructor
  · rintro ⟨rounds, h⟩
    cases hr : d.root rounds (.start (.ofBuffer data d.schema.order)) with
    | failed e r => rw [hr] at h; cases h
    | unfinished => rw [hr] at h; cases h
    | done root r =>
        rw [hr] at h
        obtain rfl := Except.ok.inj (Option.some.inj h)
        exact ⟨rounds, r, hr, rfl⟩
  · rintro ⟨rounds, r, hr, hrec⟩
    refine ⟨rounds, ?_⟩
    rw [hr]
    obtain ⟨root, recovered⟩ := t
    obtain rfl : recovered = r.recovered.reverse := hrec
    rfl

/-- What can be computed of an answer is known of it. -/
theorem exists_answer_of_decode? {α : Type} (rounds : Nat) {data : Buffer} {f : Decoded → α} {a : α}
    (h : (d.decode? rounds data).map (fun answer => answer.toOption.map f) = some (some a)) :
    ∃ t, d.Answers data (.ok t) ∧ f t = a := by
  obtain ⟨answer, hanswer, h⟩ := Option.map_eq_some_iff.mp h
  cases answer with
  | error e => cases h
  | ok t => exact ⟨t, ⟨rounds, hanswer⟩, Option.some.inj h⟩

/-- An answer is a failure if the root fails with some number of rounds. -/
theorem answers_error_iff {data : Buffer} {e : Failure} :
    d.Answers data (.error e) ↔
      ∃ rounds r, d.root rounds (.start (.ofBuffer data d.schema.order)) = .failed e r := by
  unfold Answers decode?
  constructor
  · rintro ⟨rounds, h⟩
    cases hr : d.root rounds (.start (.ofBuffer data d.schema.order)) with
    | done root r => rw [hr] at h; cases h
    | unfinished => rw [hr] at h; cases h
    | failed e' r =>
        rw [hr] at h
        obtain rfl := Except.error.inj (Option.some.inj h)
        exact ⟨rounds, r, hr⟩
  · rintro ⟨rounds, r, hr⟩
    exact ⟨rounds, by rw [hr]⟩

/-- A buffer has one answer at most. -/
theorem Answers.unique {d : Decoder} {data : Buffer} {answer answer' : Except Failure Decoded}
    (h : d.Answers data answer) (h' : d.Answers data answer') : answer = answer' := by
  obtain ⟨n, hn⟩ := h
  obtain ⟨m, hm⟩ := h'
  have h1 := d.decode?_mono (Nat.le_max_left n m) hn
  have h2 := d.decode?_mono (Nat.le_max_right n m) hm
  exact Option.some.inj (h1.symm.trans h2)

end Decoder

end BinaryFormat
