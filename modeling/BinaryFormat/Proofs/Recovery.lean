import BinaryFormat.Proofs.Calls
import BinaryFormat.Proofs.Rounds

/-!
# What recovery does not recover from

In recovery a failure that the data is to blame for is caught by the struct whose field failed, and a node
stands for the field. So the fields of a struct never fail for such a reason, however deep inside it arose,
and what remains are the places outside of every field. There is one: the padding behind the fields of the
root struct. The padding of every other struct belongs to the field that holds the struct, and is caught
there.
-/

namespace BinaryFormat

open Schema (Field StructDef)
open Decoding

namespace Decoder

/-! ## Fields in recovery -/

section Fields

variable {d : Decoder} (hm : d.options.mode = .recover) {rounds : Nat}
  {nested : StructDef → String → Decoding Node}

theorem checkCancelled_fatal (d : Decoder) (r : Run) :
    (d.checkCancelled r).Satisfies (fun _ r' => r' = r) (fun e _ => e.isRecoverable = false) := by
  unfold checkCancelled
  split
  · exact rfl
  · exact rfl

/-- A node too many is never recovered from. -/
theorem countNode_fatal (d : Decoder) (r : Run) :
    (d.countNode r).Satisfies (fun _ _ => True) (fun e _ => e.isRecoverable = false) := by
  rw [countNode_apply]
  split
  · exact rfl
  · trivial

include hm

/-- A failure that can be recovered from becomes a node, unless that node is one too many. -/
theorem settled_failed (f : Field) (before : Run) {failure : Failure} (hf : failure.isRecoverable = true)
    (r : Run) : (d.settled f before (.error failure) r).Satisfies
      (fun p _ => ∃ size, p.1 = some (failedNode f before.pos size failure))
      (fun e _ => e.isRecoverable = false) := by
  have hcaught : d.options.mode = .recover ∧ failure.isRecoverable = true := ⟨hm, hf⟩
  rw [settled_error, if_pos hcaught, satisfies_bind, replaceField_apply]
  dsimp only
  rw [satisfies_bind]
  exact (countNode_fatal d _).mono (fun _ _ _ => ⟨_, rfl⟩) (fun _ _ h => h)

/-- A field fails for good only where the data is not to blame. -/
theorem settled_fatal (f : Field) (before : Run) (result : Except Failure (Option Node)) (r : Run) :
    (d.settled f before result r).Satisfies (fun _ _ => True) (fun e _ => e.isRecoverable = false) := by
  match result with
  | .ok none => trivial
  | .ok (some node) =>
      refine satisfies_bind.mpr ((countNode_fatal d r).mono (fun _ _ _ => ?_) fun _ _ h => h)
      trivial
  | .error failure =>
      cases hf : failure.isRecoverable with
      | true => exact (settled_failed hm f before hf r).mono (fun _ _ _ => trivial) (fun _ _ h => h)
      | false =>
          have hmissed : ¬ (d.options.mode = .recover ∧ failure.isRecoverable = true) := by
            rw [hf]
            exact fun h => Bool.noConfusion h.2
          rw [settled_error, if_neg hmissed]
          exact hf

/-- What fails in a field of a recovering decode and gets out of it is not to be recovered from. -/
theorem member_fatal (f : Field) (x : Decoding (Option Node)) (r : Run) :
    (d.member f x r).Satisfies (fun _ _ => True) (fun e _ => e.isRecoverable = false) := by
  rw [member_apply]
  cases x r with
  | done node r' => exact settled_fatal hm f r (.ok node) r'
  | failed e r' => exact settled_fatal hm f r (.error e) r'
  | unfinished => trivial

/-- The fields of a struct keep the nodes they are given, and fail only where the data is not to blame. -/
theorem fields_fatal (fs : List Field) (found : List Node) (r : Run) :
    (fields d rounds nested fs found r).Satisfies (fun nodes _ => found <+: nodes)
      (fun e _ => e.isRecoverable = false) := by
  induction fs generalizing found r with
  | nil => exact List.prefix_refl _
  | cons f rest ih =>
      rw [fields_cons, satisfies_bind]
      refine (checkCancelled_fatal d r).mono (fun _ r' _ => ?_) (fun _ _ h => h)
      rw [satisfies_bind]
      refine (member_fatal hm f _ r').mono (fun p r'' _ => ?_) (fun _ _ h => h)
      obtain ⟨node, goesOn⟩ := p
      have hpre : found <+: found ++ node.toList := List.prefix_append _ _
      cases goesOn with
      | true => exact (ih _ r'').mono (fun _ _ h => hpre.trans h) (fun _ _ h => h)
      | false => exact hpre

/-- A field that the data makes fail is replaced by a node that says so. -/
theorem fields_cons_failed {f : Field} (rest : List Field) {found : List Node} {r r' : Run}
    {failure : Failure} (hfield : field d rounds nested f found r = .failed failure r')
    (hf : failure.isRecoverable = true) :
    (fields d rounds nested (f :: rest) found r).Satisfies
      (fun nodes _ => ∃ size, found ++ [failedNode f r.pos size failure] <+: nodes)
      (fun e _ => e.isRecoverable = false) := by
  rw [fields_cons, satisfies_bind]
  refine (checkCancelled_fatal d r).mono (fun _ r₁ h => ?_) (fun _ _ h => h)
  subst h
  rw [satisfies_bind, member_apply, hfield]
  refine (settled_failed hm f r₁ hf r').mono (fun p r₂ h => ?_) (fun _ _ h => h)
  obtain ⟨node, goesOn⟩ := p
  obtain ⟨size, rfl⟩ := h
  cases goesOn with
  | true => exact (fields_fatal hm rest _ r₂).mono (fun _ _ h => ⟨size, h⟩) (fun _ _ h => h)
  | false => exact ⟨size, List.prefix_refl _⟩

end Fields

/-! ## The padding of the root struct -/

/-- Aligning fails for want of room only. -/
theorem align_failed {multiple : Option UInt64} {r r' : Run} {e : Failure}
    (h : align multiple r = .failed e r') : ∃ n, multiple = some n ∧ r.reader.LacksRoom n.toNat ∧
      e = ⟨.alignTooFar n.toNat (r.pos + r.reader.padding n.toNat - r.reader.scope.stop), none⟩ := by
  cases multiple with
  | none => cases h
  | some n =>
      rcases r.reader.lacksRoom_or n.toNat with hroom | ⟨p, hok⟩
      · have hfails := bind_failed (read_error (f := fun r => r.align n.toNat) hroom.align_eq) fun _ => pure ()
        exact ⟨n, rfl, hroom, (Outcome.failed.inj (hfails.symm.trans h)).1.symm⟩
      · cases (bind_done (read_ok (f := fun r => r.align n.toNat) hok) fun _ => pure ()).symm.trans h

theorem align_eq_failed {n : UInt64} {r : Run} (h : r.reader.LacksRoom n.toNat) :
    ∃ e, align (some n) r = .failed e r ∧ e.isRecoverable = true :=
  ⟨_, bind_failed (read_error (f := fun r => r.align n.toNat) h.align_eq) _, rfl⟩

variable (d : Decoder)

/-- The run in which the fields of the root struct are decoded. -/
def rootRun (data : Buffer) : Run := { Run.start (.ofBuffer data d.schema.order) with depth := 1 }

/-- The fields of the root struct are decoded, and the multiple that its end is moved up to lies behind the
end of the buffer. -/
def Overhangs (data : Buffer) : Prop :=
  ∃ s n rounds children r, d.schema.structs.get? d.schema.root = some s ∧ s.align = some n ∧
    0 < d.options.maxDepth.toNat ∧
    body d rounds (d.struct rounds d.options.maxDepth.toNat) s (d.rootRun data) = .done children r ∧
    r.reader.LacksRoom n.toNat

variable {d}

/-- The body of a struct only fails with what cannot be recovered from. -/
theorem body_fatal (hm : d.options.mode = .recover) {rounds levels : Nat} {s : StructDef}
    {r r' : Run} {e : Failure}
    (h : body d rounds (d.struct rounds levels) s r = .failed e r') : e.isRecoverable = false := by
  have hfields : (fields d rounds (d.struct rounds levels) s.fields [] (r.inOrder s.order)).Satisfies
      (fun nodes _ => [] <+: nodes) (fun e _ => e.isRecoverable = false) := fields_fatal hm s.fields [] _
  rw [fields_of_body_failed h] at hfields
  exact hfields

theorem tabled_lacksRoom (s : StructDef) (start : Nat) (r : Run) (n : Nat) :
    (tabled s start r).reader.LacksRoom n ↔ r.reader.LacksRoom n := by
  unfold tabled
  split
  · exact Iff.rfl
  · exact Iff.rfl

/-- The inside of a struct fails with its body, or else its padding does not fit. -/
theorem inside_eq_failed {nested : StructDef → String → Decoding Node} {rounds : Nat} {s : StructDef} {e : Failure}
    {r r' : Run} (h : inside d rounds nested s r = .failed e r') :
    body d rounds nested s r = .failed e r' ∨
      ∃ n children r₁, s.align = some n ∧ body d rounds nested s r = .done children r₁ ∧
        r₁.reader.LacksRoom n.toNat ∧
        e = ⟨.alignTooFar n.toNat (r₁.pos + r₁.reader.padding n.toNat - r₁.reader.scope.stop), none⟩ := by
  cases hb : body d rounds nested s r with
  | unfinished =>
      unfold inside at h
      rw [bind_done (rfl : pos r = .done r.pos r), bind_unfinished hb] at h
      cases h
  | failed e' r₁ =>
      unfold inside at h
      rw [bind_done (rfl : pos r = .done r.pos r), bind_failed hb] at h
      obtain ⟨rfl, rfl⟩ := Outcome.failed.inj h
      exact .inl rfl
  | done children r₁ =>
      rw [inside_apply _ _ _ hb] at h
      rcases bind_eq_failed h with halign | ⟨_, _, _, hdone⟩
      · obtain ⟨n, hn, hroom, rfl⟩ := align_failed halign
        refine .inr ⟨n, children, r₁, hn, rfl, (tabled_lacksRoom _ _ _ _).mp hroom, ?_⟩
        -- the table that a struct may leave is none of what the padding depends on
        unfold tabled
        split
        · rfl
        · rfl
      · cases hdone

/-- The inside of a struct fails where its fields do, or else where its padding does not fit. -/
theorem inside_failed_iff (hm : d.options.mode = .recover) {rounds levels : Nat} {s : StructDef}
    {r : Run} :
    (∃ e r', inside d rounds (d.struct rounds levels) s r = .failed e r' ∧ e.isRecoverable = true) ↔
      ∃ n children r', s.align = some n ∧ body d rounds (d.struct rounds levels) s r = .done children r' ∧
        r'.reader.LacksRoom n.toNat := by
  constructor
  · rintro ⟨e, r', h, he⟩
    obtain hb | ⟨n, children, r₁, hn, hb, hroom, -⟩ := inside_eq_failed h
    · exact absurd (body_fatal hm hb) (by rw [he]; nofun)
    · exact ⟨n, children, r₁, hn, hb, hroom⟩
  · rintro ⟨n, children, r', hn, hb, hroom⟩
    obtain ⟨e, halign, he⟩ := align_eq_failed ((tabled_lacksRoom s r.pos r' n.toNat).mpr hroom)
    refine ⟨e, tabled s r.pos r', ?_, he⟩
    rw [inside_apply _ _ _ hb, hn]
    exact bind_failed halign _

/-- A struct fails where its inside does, and where it lies too deep it is not the data's fault. -/
theorem struct_failed_iff (rounds levels : Nat) (s : StructDef) (name : String) (r : Run) :
    (∃ e r', d.struct rounds (levels + 1) s name r = .failed e r' ∧ e.isRecoverable = true) ↔
      r.depth < d.options.maxDepth.toNat ∧
        ∃ e r', inside d rounds (d.struct rounds levels) s { r with depth := r.depth + 1 } = .failed e r' ∧
          e.isRecoverable = true := by
  have hstruct := congrFun (structWith_eq d rounds (d.struct rounds levels) s name) r
  change d.struct rounds (levels + 1) s name r = _ at hstruct
  unfold descended at hstruct
  have hdescend := d.descend_apply r
  by_cases hmax : d.options.maxDepth.toNat < r.depth + 1
  · rw [if_pos hmax] at hdescend
    rw [bind_assoc, bind_failed hdescend] at hstruct
    -- Too deep: the failure is a limit, and no failure of that kind is recovered from.
    rw [hstruct]
    constructor
    · rintro ⟨e, r', h, he⟩
      obtain ⟨rfl, -⟩ := Outcome.failed.inj h
      cases he
    · rintro ⟨h, -⟩
      omega
  · rw [if_neg hmax] at hdescend
    rw [bind_assoc, bind_done hdescend, bind_assoc] at hstruct
    rw [hstruct]
    cases hi : inside d rounds (d.struct rounds levels) s { r with depth := r.depth + 1 } with
    | failed e r' =>
        rw [bind_failed hi]
        constructor
        · rintro ⟨e', r'', h, he⟩
          obtain ⟨rfl, rfl⟩ := Outcome.failed.inj h
          exact ⟨Nat.le_of_not_lt hmax, e, r', rfl, he⟩
        · rintro ⟨-, e', r'', h, he⟩
          obtain ⟨rfl, rfl⟩ := Outcome.failed.inj h
          exact ⟨e, r', rfl, he⟩
    | done p r' =>
        rw [bind_done hi]
        constructor
        · rintro ⟨e, r'', h, -⟩
          cases h
        · rintro ⟨-, e, r'', h, -⟩
          cases h
    | unfinished =>
        rw [bind_unfinished hi]
        constructor
        · rintro ⟨e, r'', h, -⟩
          cases h
        · rintro ⟨-, e, r'', h, -⟩
          cases h

/-- The root fails recoverably exactly if its own padding has no room, as no field is around it. -/
theorem root_failed_iff (hm : d.options.mode = .recover) (data : Buffer) :
    (∃ rounds e r', d.root rounds (.start (.ofBuffer data d.schema.order)) = .failed e r' ∧
      e.isRecoverable = true) ↔ d.Overhangs data := by
  unfold root structDef Overhangs
  cases hs : d.schema.structs.get? d.schema.root with
  -- A root that is not in the schema is the fault of the schema, which is not recovered from.
  | none =>
      constructor
      · rintro ⟨rounds, e, r', h, he⟩
        obtain ⟨rfl, -⟩ := Outcome.failed.inj h
        cases he
      · rintro ⟨s, -, -, -, -, h, -⟩
        cases h
  | some s =>
      constructor
      · rintro ⟨rounds, h⟩
        obtain ⟨hmax, hi⟩ := (struct_failed_iff rounds _ s d.schema.name _).mp h
        obtain ⟨n, children, r, hn, hb, hroom⟩ := (inside_failed_iff hm).mp hi
        exact ⟨s, n, rounds, children, r, rfl, hn, hmax, hb, hroom⟩
      · rintro ⟨s', n, rounds, children, r, hs', hn, hmax, hb, hroom⟩
        obtain rfl := Option.some.inj hs'
        have hi := (inside_failed_iff hm).mpr ⟨n, children, r, hn, hb, hroom⟩
        exact ⟨rounds, (struct_failed_iff rounds _ s d.schema.name _).mpr ⟨hmax, hi⟩⟩

/-- A recovering decode fails because of the data exactly if the padding of the root struct does not fit;
any field that the data makes fail is replaced by a node that says so. -/
theorem recover_fails_iff (d : Decoder) (hm : d.options.mode = .recover) :
    (∀ data, (∃ e, d.Answers data (.error e) ∧ e.isRecoverable = true) ↔ d.Overhangs data) ∧
    ∀ rounds nested f rest found r r' failure, field d rounds nested f found r = .failed failure r' →
      failure.isRecoverable = true →
      (fields d rounds nested (f :: rest) found r).Satisfies
        (fun nodes _ => ∃ size, found ++ [failedNode f r.pos size failure] <+: nodes)
        (fun e _ => e.isRecoverable = false) := by
  refine ⟨fun data => ?_, fun _ _ _ rest _ _ _ _ hfield hf => fields_cons_failed hm rest hfield hf⟩
  rw [← root_failed_iff hm]
  constructor
  · rintro ⟨e, h, he⟩
    obtain ⟨rounds, r, hr⟩ := d.answers_error_iff.mp h
    exact ⟨rounds, e, r, hr, he⟩
  · rintro ⟨rounds, e, r, hr, he⟩
    exact ⟨e, d.answers_error_iff.mpr ⟨rounds, r, hr⟩, he⟩

/-- A byte, and padding up to the next multiple of eight. -/
def padded : Decoder where
  schema := {
    name := "padded"
    structs := [("all", { name := "all", fields := [{ name := "b", type := .u8 }], align := some 8 })]
    root := "all" }
  options := { mode := .recover }

/-- Recovery gives up on a byte alone, and where seven more follow there is nothing to give up on. -/
theorem padded_recover_fails_iff :
    padded.options.mode = .recover ∧
      ((∃ e, padded.Answers #[0] (.error e) ∧ e.isRecoverable = true) ↔ padded.Overhangs #[0]) :=
  ⟨rfl, (recover_fails_iff padded rfl).1 #[0]⟩

/-- The padding behind a single byte is a failure that the data is to blame for, and nothing catches it. -/
theorem padded_fails : ∃ e, padded.options.mode = .recover ∧ padded.Answers #[0] (.error e) ∧
    e.kind = .bounds ∧ e.place = none :=
  ⟨⟨.alignTooFar 8 7, none⟩, rfl, ⟨0, rfl⟩, rfl, rfl⟩

end Decoder

end BinaryFormat
