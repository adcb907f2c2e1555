import BinaryFormat.Decoder

/-!
# What can be said of an outcome

Statements about decoding speak of a step from a given run: of what it yields, or of the failure it ends
in, and of the run it leaves in either case. A step that comes to no end satisfies every such statement,
so whether it comes to an end is a question of its own, and for the small steps that a decode is made of
the answer is given along with the rest.
-/

namespace BinaryFormat

variable {α β : Type}

namespace Outcome

/-- A step that yields something leaves `Q` true, and one that fails leaves `E` true. -/
def Satisfies (o : Outcome α) (Q : α → Run → Prop) (E : Failure → Run → Prop) : Prop :=
  match o with
  | .done a r => Q a r
  | .failed f r => E f r
  | .unfinished => True

theorem Satisfies.mono {o : Outcome α} {Q Q' : α → Run → Prop} {E E' : Failure → Run → Prop}
    (h : o.Satisfies Q E) (hQ : ∀ a r, Q a r → Q' a r) (hE : ∀ f r, E f r → E' f r) :
    o.Satisfies Q' E' := by
  cases o with
  | done a r => exact hQ a r h
  | failed f r => exact hE f r h
  | unfinished => exact h

/-- The step comes to an end, and satisfies the rest. -/
def Ensures (o : Outcome α) (Q : α → Run → Prop) (E : Failure → Run → Prop) : Prop :=
  o ≠ .unfinished ∧ o.Satisfies Q E

theorem Ensures.mono {o : Outcome α} {Q Q' : α → Run → Prop} {E E' : Failure → Run → Prop}
    (h : o.Ensures Q E) (hQ : ∀ a r, Q a r → Q' a r) (hE : ∀ f r, E f r → E' f r) :
    o.Ensures Q' E' := ⟨h.1, h.2.mono hQ hE⟩

theorem ensures_done {a : α} {r : Run} {Q : α → Run → Prop} {E : Failure → Run → Prop} (h : Q a r) :
    (done a r).Ensures Q E := ⟨nofun, h⟩

theorem ensures_failed {f : Failure} {r : Run} {Q : α → Run → Prop} {E : Failure → Run → Prop}
    (h : E f r) : (failed f r : Outcome α).Ensures Q E := ⟨nofun, h⟩

end Outcome

/-- A failure that has a place keeps it. -/
theorem Failure.locate_of_place {f : Failure} {p q : Place} (h : f.place = some p) : f.locate q = f := by
  unfold Failure.locate
  rw [h]
  exact congrArg (Failure.mk f.cause) h.symm

namespace Decoding

/-! ## Steps one after the other -/

/-- A second step goes on from the run that the first one is done with; any other outcome is that of both. -/
theorem bind_apply (x : Decoding α) (f : α → Decoding β) (r : Run) :
    (x >>= f) r = match x r with
      | .done a r => f a r
      | .failed e r => .failed e r
      | .unfinished => .unfinished := rfl

theorem bind_done {x : Decoding α} {r r' : Run} {a : α} (h : x r = .done a r')
    (f : α → Decoding β) : (x >>= f) r = f a r' := by rw [bind_apply, h]

theorem bind_failed {x : Decoding α} {r r' : Run} {e : Failure} (h : x r = .failed e r')
    (f : α → Decoding β) : (x >>= f) r = .failed e r' := by rw [bind_apply, h]

theorem bind_unfinished {x : Decoding α} {r : Run} (h : x r = .unfinished)
    (f : α → Decoding β) : (x >>= f) r = .unfinished := by rw [bind_apply, h]

/-- Two steps are done if the first one is and the second one behind it. -/
theorem bind_eq_done {x : Decoding α} {f : α → Decoding β} {r r'' : Run} {b : β}
    (h : (x >>= f) r = .done b r'') : ∃ a r', x r = .done a r' ∧ f a r' = .done b r'' := by
  rw [bind_apply] at h
  cases hx : x r with
  | done a r' => rw [hx] at h; exact ⟨a, r', rfl, h⟩
  | failed e r' => rw [hx] at h; cases h
  | unfinished => rw [hx] at h; cases h

/-- Two steps fail in the first one or in the second one behind it. -/
theorem bind_eq_failed {x : Decoding α} {f : α → Decoding β} {r r'' : Run} {e : Failure}
    (h : (x >>= f) r = .failed e r'') :
    x r = .failed e r'' ∨ ∃ a r', x r = .done a r' ∧ f a r' = .failed e r'' := by
  rw [bind_apply] at h
  cases hx : x r with
  | done a r' => rw [hx] at h; exact Or.inr ⟨a, r', rfl, h⟩
  | failed e' r' =>
      rw [hx] at h
      obtain ⟨rfl, rfl⟩ := Outcome.failed.inj h
      exact Or.inl rfl
  | unfinished => rw [hx] at h; cases h

theorem bind_assoc' {γ : Type} (x : Decoding α) (f : α → Decoding β) (g : β → Decoding γ) :
    x >>= f >>= g = x >>= fun a => f a >>= g := by
  funext r
  rw [bind_apply, bind_apply, bind_apply]
  cases x r <;> rfl

theorem bind_pure' (x : Decoding α) : x >>= pure = x := by
  funext r
  rw [bind_apply]
  cases x r <;> rfl

/-- Steps may be put in brackets in any way. -/
instance : LawfulMonad Decoding :=
  LawfulMonad.mk' Decoding bind_pure' (fun _ _ => rfl) bind_assoc'

/-- What holds after two steps is what holds after the second wherever the first one ends. -/
theorem satisfies_bind {x : Decoding α} {f : α → Decoding β} {r : Run} {Q : β → Run → Prop}
    {E : Failure → Run → Prop} :
    ((x >>= f) r).Satisfies Q E ↔ (x r).Satisfies (fun a r' => (f a r').Satisfies Q E) E := by
  rw [bind_apply]
  cases x r <;> exact Iff.rfl

/-- Two steps come to an end if the first does, and the second wherever the first yields something. -/
theorem ensures_bind {x : Decoding α} {f : α → Decoding β} {r : Run} {Q : β → Run → Prop}
    {E : Failure → Run → Prop} (h : (x r).Ensures (fun a r' => (f a r').Ensures Q E) E) :
    ((x >>= f) r).Ensures Q E := by
  obtain ⟨hx, h⟩ := h
  rw [bind_apply]
  cases hr : x r with
  | done a r' => rw [hr] at h; exact h
  | failed e r' => rw [hr] at h; exact Outcome.ensures_failed h
  | unfinished => exact absurd hr hx

/-! ## Steps around a step -/

/-- A step that may fail is unfinished only if the step itself is. -/
theorem attempt_eq_unfinished {x : Decoding α} {r : Run} :
    x.attempt r = .unfinished ↔ x r = .unfinished := by
  unfold attempt
  cases x r <;> simp only [reduceCtorEq]

/-- A step within a segment is done where the step is, and the segment is taken off the path again. -/
theorem within_eq_done {x : Decoding α} {r r' : Run} {a : α} {segment : String} {type : FieldType}
    (h : within segment type x r = .done a r') :
    ∃ r₁, x { r with path := segment :: r.path } = .done a r₁ ∧ r' = { r₁ with path := r.path } := by
  unfold within at h
  cases hx : x { r with path := segment :: r.path } with
  | done b r₁ =>
      rw [hx] at h
      obtain ⟨rfl, rfl⟩ := Outcome.done.inj h
      exact ⟨r₁, rfl, rfl⟩
  | failed e r₁ => rw [hx] at h; cases h
  | unfinished => rw [hx] at h; cases h

/-- A failure leaves a field or element with a place. -/
theorem place_of_within {x : Decoding α} {segment : String} {type : FieldType} {r r' : Run} {e : Failure}
    (h : within segment type x r = .failed e r') : ∃ p, e.place = some p := by
  unfold within at h
  cases hx : x { r with path := segment :: r.path } with
  | done a r₁ => rw [hx] at h; cases h
  | unfinished => rw [hx] at h; cases h
  | failed e' r₁ =>
      rw [hx] at h
      obtain ⟨rfl, -⟩ := Outcome.failed.inj h
      exact ⟨_, rfl⟩

/-- A step in another buffer is done where the step is, and the reader is the one from before. -/
theorem inBuffer_eq_done {d : Decoder} {x : Decoding α} {r r' : Run} {a : α} {data : Buffer}
    (h : d.inBuffer data x r = .done a r') :
    ∃ r₁, x { r with reader := .ofBuffer data d.schema.order } = .done a r₁ ∧
      r' = { r with nodes := r₁.nodes, recovered := r₁.recovered } := by
  unfold Decoder.inBuffer at h
  cases hx : x { r with reader := .ofBuffer data d.schema.order } with
  | done b r₁ =>
      rw [hx] at h
      obtain ⟨rfl, rfl⟩ := Outcome.done.inj h
      exact ⟨r₁, rfl, rfl⟩
  | failed e r₁ => rw [hx] at h; cases h
  | unfinished => rw [hx] at h; cases h

theorem within_eq_unfinished {x : Decoding α} {r : Run} {segment : String} {type : FieldType} :
    within segment type x r = .unfinished ↔ x { r with path := segment :: r.path } = .unfinished := by
  unfold within
  cases x { r with path := segment :: r.path } <;> simp only [reduceCtorEq]

theorem inBuffer_eq_unfinished {d : Decoder} {x : Decoding α} {r : Run} {data : Buffer} :
    d.inBuffer data x r = .unfinished ↔
      x { r with reader := .ofBuffer data d.schema.order } = .unfinished := by
  unfold Decoder.inBuffer
  cases x { r with reader := .ofBuffer data d.schema.order } <;> simp only [reduceCtorEq]

/-! ## Steps of the reader -/

theorem move_ok {f : Reader → Except Cause Reader} {r : Run} {reader : Reader}
    (h : f r.reader = .ok reader) : move f r = .done () { r with reader } := by
  unfold move
  rw [h]

theorem move_error {f : Reader → Except Cause Reader} {r : Run} {c : Cause}
    (h : f r.reader = .error c) : move f r = .failed ⟨c, none⟩ r := by
  unfold move
  rw [h]

theorem read_ok {f : Reader → Except Cause (α × Reader)} {r : Run} {a : α} {reader : Reader}
    (h : f r.reader = .ok (a, reader)) : read f r = .done a { r with reader } := by
  unfold read
  rw [h]

theorem read_error {f : Reader → Except Cause (α × Reader)} {r : Run} {c : Cause}
    (h : f r.reader = .error c) : read f r = .failed ⟨c, none⟩ r := by
  unfold read
  rw [h]

/-- Reading changes the reader only. -/
theorem read_eq_done {f : Reader → Except Cause (α × Reader)} {r r' : Run} {a : α}
    (h : read f r = .done a r') : ∃ reader, f r.reader = .ok (a, reader) ∧ r' = { r with reader } := by
  cases hf : f r.reader with
  | ok p =>
      rw [read_ok hf] at h
      obtain ⟨rfl, rfl⟩ := Outcome.done.inj h
      exact ⟨p.2, rfl, rfl⟩
  | error c => rw [read_error hf] at h; cases h

/-- Moving changes the reader only. -/
theorem move_eq_done {f : Reader → Except Cause Reader} {r r' : Run} {u : Unit}
    (h : move f r = .done u r') : ∃ reader, f r.reader = .ok reader ∧ r' = { r with reader } := by
  cases hf : f r.reader with
  | ok reader =>
      rw [move_ok hf] at h
      exact ⟨reader, rfl, (Outcome.done.inj h).2.symm⟩
  | error c => rw [move_error hf] at h; cases h

end Decoding

end BinaryFormat
