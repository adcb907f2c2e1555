import BinaryFormat.Proofs.Rounds

/-!
# Limits cut off

A limit is only ever looked at to decide whether to go on. So what a decode does until it runs into a limit it
does under every wider one too, and a decode that runs into none has the same answer under all of them. That a
limit is never recovered from is what makes this hold in recovery: a node put in the place of a field that was
cut off would be there under the narrow limit and not under the wide one.

An exhausted limit is taken for a decode that comes to no end, and then nothing has to be shown that is not
already known of the number of rounds: `ExtendedBy` says that two runs differ only where the first one has no
end.
-/

namespace BinaryFormat

open Schema (Field StructDef)
open Decoding

/-! ## Wider limits -/

/-- A limit that is no limit, or else one that is not smaller than another limit. -/
def Relaxes (wide narrow : UInt64) : Prop := wide = 0 ∨ narrow ≠ 0 ∧ narrow ≤ wide

/-- The options allow at least what others allow, and are the same apart from that. -/
structure Options.Wider (wide narrow : Options) : Prop where
  mode : wide.mode = narrow.mode
  cancelled : wide.cancelled = narrow.cancelled
  maxDepth : narrow.maxDepth ≤ wide.maxDepth
  maxElements : Relaxes wide.maxElements narrow.maxElements
  maxNodes : Relaxes wide.maxNodes narrow.maxNodes

/-- What exceeds a limit exceeds every narrower one. -/
theorem Relaxes.exceeds {wide narrow : UInt64} (h : Relaxes wide narrow) {n : Nat}
    (hn : 0 < wide.toNat ∧ wide.toNat < n) : 0 < narrow.toNat ∧ narrow.toNat < n := by
  obtain rfl | ⟨hpos, hle⟩ := h
  · exact absurd hn.1 (Nat.lt_irrefl 0)
  · have hle' : narrow.toNat ≤ wide.toNat := UInt64.le_iff_toNat_le.mp hle
    have hpos' : narrow.toNat ≠ 0 := fun h => hpos (UInt64.toNat_inj.mp h)
    omega

/-! ## Without the steps that a limit cuts off -/

/-- The outcome, where an exhausted limit is no end. -/
def Outcome.uncut {α : Type} : Outcome α → Outcome α
  | .failed f r => if f.kind = .limit then .unfinished else .failed f r
  | o => o

namespace Decoding

variable {α β γ : Type}

/-- The step, where an exhausted limit is no end. -/
def uncut (x : Decoding α) : Decoding α := fun r => (x r).uncut

/-- Where no limit is exhausted, a step ends as it does. -/
theorem uncut_extendedBy (x : Decoding α) : x.uncut.ExtendedBy x := by
  intro r
  unfold uncut
  cases x r with
  | done a r' => exact Or.inr rfl
  | unfinished => exact Or.inr rfl
  | failed f r' =>
      unfold Outcome.uncut
      dsimp only
      split
      · exact Or.inl rfl
      · exact Or.inr rfl

/-- Steps in a row are cut off where one of them is. -/
theorem uncut_bind (x : Decoding α) (f : α → Decoding β) :
    (x >>= f).uncut = x.uncut >>= fun a => (f a).uncut := by
  funext r
  show ((x >>= f) r).uncut = (x.uncut >>= fun a => (f a).uncut) r
  rw [bind_apply, bind_apply]
  unfold uncut Outcome.uncut
  cases x r with
  | done a r' => rfl
  | unfinished => rfl
  | failed e r' => by_cases he : e.kind = .limit <;> simp only [he, if_true, if_false]

/-- Saying where a limit was exhausted does not change that it was. -/
theorem uncut_within (segment : String) (type : FieldType) (x : Decoding α) :
    (within segment type x).uncut = within segment type x.uncut := by
  funext r
  unfold uncut Decoding.within
  dsimp only
  cases x { r with path := segment :: r.path } with
  | done a r' => rfl
  | unfinished => rfl
  | failed e r' =>
      unfold Outcome.uncut
      dsimp only
      have hkind : ∀ p, (e.locate p).kind = e.kind := fun _ => rfl
      by_cases he : e.kind = .limit <;> simp only [hkind, he, if_true, if_false]

theorem uncut_inBuffer (d : Decoder) (data : Buffer) (x : Decoding α) :
    (d.inBuffer data x).uncut = d.inBuffer data x.uncut := by
  funext r
  unfold uncut Decoder.inBuffer
  dsimp only
  cases x { r with reader := .ofBuffer data d.schema.order } with
  | done a r' => rfl
  | unfinished => rfl
  | failed e r' =>
      unfold Outcome.uncut
      dsimp only
      by_cases he : e.kind = .limit <;> simp only [he, if_true, if_false]

/-- Under a narrow limit the step ends as under a wide one, unless the narrow limit cuts it off. -/
def CutsOff (narrow wide : Decoding α) : Prop := narrow.uncut.ExtendedBy wide

namespace CutsOff

theorem refl (x : Decoding α) : x.CutsOff x := uncut_extendedBy x

/-- Steps in a row are cut off by a narrow limit only where one of them is. -/
theorem bind {x y : Decoding α} {f g : α → Decoding β} (hx : x.CutsOff y)
    (hf : ∀ a, x.Yields a → (f a).CutsOff (g a)) : (x >>= f).CutsOff (y >>= g) := by
  unfold CutsOff
  rw [uncut_bind]
  refine ExtendedBy.bind hx fun a ha => hf a ?_
  obtain ⟨r, r', h⟩ := ha
  refine ⟨r, r', ?_⟩
  unfold uncut Outcome.uncut at h
  cases hr : x r with
  | done b r'' => rw [hr] at h; exact h
  | unfinished => rw [hr] at h; cases h
  | failed e r'' =>
      rw [hr] at h
      dsimp only at h
      split at h <;> cases h

theorem within {x y : Decoding α} (segment : String) (type : FieldType) (h : x.CutsOff y) :
    (within segment type x).CutsOff (.within segment type y) := by
  unfold CutsOff
  rw [uncut_within]
  exact ExtendedBy.within segment type h

theorem inBuffer {d d' : Decoder} (ho : d'.schema.order = d.schema.order) {x y : Decoding α} (data : Buffer)
    (h : x.CutsOff y) : (d.inBuffer data x).CutsOff (d'.inBuffer data y) := by
  have hbuffer : d'.inBuffer data y = d.inBuffer data y := by
    unfold Decoder.inBuffer
    rw [ho]
  unfold CutsOff
  rw [uncut_inBuffer, hbuffer]
  exact ExtendedBy.inBuffer d data h

/-- A step between two others that look at no limit. -/
theorem bracket {x y : Decoding α} (opening : Decoding β) (closing : β → α → Decoding γ) (h : x.CutsOff y) :
    (do let b ← opening; let a ← x; closing b a : Decoding γ).CutsOff
      (do let b ← opening; let a ← y; closing b a) :=
  (refl opening).bind fun b _ => h.bind fun a _ => refl (closing b a)

end CutsOff

end Decoding

namespace Decoder

/-! ## Where limits are looked at -/

variable {schema : Schema} {narrow wide : Options} (h : wide.Wider narrow)

include h

/-- A node too many for the wide cap is one too many for the narrow cap. -/
theorem cutsOff_countNode : (countNode ⟨schema, narrow⟩).CutsOff (countNode ⟨schema, wide⟩) := by
  intro r
  unfold uncut
  rw [countNode_apply, countNode_apply]
  by_cases hn : 0 < narrow.maxNodes.toNat ∧ narrow.maxNodes.toNat < r.nodes + 1
  · rw [if_pos hn]
    exact Or.inl rfl
  · rw [if_neg hn, if_neg fun hw => hn (h.maxNodes.exceeds hw)]
    exact Or.inr rfl

/-- Elements too many for the wide cap are too many for the narrow cap. -/
theorem cutsOff_checkElements (n : Nat) :
    (checkElements ⟨schema, narrow⟩ n).CutsOff (checkElements ⟨schema, wide⟩ n) := by
  intro r
  unfold uncut checkElements
  dsimp only
  by_cases hn : 0 < narrow.maxElements.toNat ∧ narrow.maxElements.toNat < n
  · rw [if_pos hn]
    exact Or.inl rfl
  · rw [if_neg hn, if_neg fun hw => hn (h.maxElements.exceeds hw)]
    exact Or.inr rfl

/-- A struct too deep for the wide limit is too deep for the narrow one. -/
theorem cutsOff_descend : (descend ⟨schema, narrow⟩).CutsOff (descend ⟨schema, wide⟩) := by
  intro r
  unfold uncut
  rw [descend_apply, descend_apply]
  have hle : narrow.maxDepth.toNat ≤ wide.maxDepth.toNat := UInt32.le_iff_toNat_le.mp h.maxDepth
  by_cases hn : narrow.maxDepth.toNat < r.depth + 1
  · rw [if_pos hn]
    exact Or.inl rfl
  · rw [if_neg hn, if_neg (show ¬ wide.maxDepth.toNat < r.depth + 1 by omega)]
    exact Or.inr rfl

theorem cutsOff_checkCancelled :
    (checkCancelled ⟨schema, narrow⟩).CutsOff (checkCancelled ⟨schema, wide⟩) := by
  have hcancelled : checkCancelled ⟨schema, wide⟩ = checkCancelled ⟨schema, narrow⟩ := by
    unfold checkCancelled
    rw [h.cancelled]
  rw [hcancelled]
  exact .refl _

/-- A node put in the place of a failed field is counted like any other. -/
theorem cutsOff_replaceField (f : Field) (before : Run) (e : Failure) :
    (replaceField ⟨schema, narrow⟩ f before e).CutsOff (replaceField ⟨schema, wide⟩ f before e) := by
  refine (CutsOff.refl _).bind fun _ _ => (CutsOff.refl _).bind fun resume _ => ?_
  refine (CutsOff.refl _).bind fun _ _ => (cutsOff_countNode h).bind fun _ _ => ?_
  exact .refl _

/-- An exhausted limit is never recovered from, so a narrow one is not hidden by recovery. -/
theorem cutsOff_settled (f : Field) (before : Run) (result : Except Failure (Option Node)) :
    (settled ⟨schema, narrow⟩ f before result).CutsOff (settled ⟨schema, wide⟩ f before result) := by
  match result with
  | .ok none => exact .refl _
  | .ok (some node) => exact (cutsOff_countNode h).bind fun _ _ => .refl _
  | .error e =>
      rw [settled_error, settled_error]
      dsimp only
      rw [h.mode]
      split
      · exact (cutsOff_replaceField h f before e).bind fun _ _ => .refl _
      · exact .refl _

/-- A field that a limit cuts off is not recovered from, so the limit cuts off the struct as well. -/
theorem cutsOff_member (f : Field) {x y : Decoding (Option Node)} (hx : x.CutsOff y) :
    (member ⟨schema, narrow⟩ f x).CutsOff (member ⟨schema, wide⟩ f y) := by
  intro r
  have hr : (x r).uncut = .unfinished ∨ y r = (x r).uncut := hx r
  unfold uncut
  rw [member_apply, member_apply]
  cases hout : x r with
  | unfinished => exact Or.inl rfl
  | done node r' =>
      rw [hout] at hr
      obtain hr | hr := hr
      · cases hr
      · rw [hr]
        exact cutsOff_settled h f r (.ok node) r'
  | failed e r' =>
      rw [hout] at hr
      by_cases he : e.kind = .limit
      · -- A limit is never recovered from, so the narrow decode ends here.
        have hfatal : ¬ (narrow.mode = .recover ∧ e.isRecoverable = true) := by
          rintro ⟨-, hrec⟩
          rw [Failure.isRecoverable, he] at hrec
          cases hrec
        dsimp only
        rw [settled_error, if_neg hfatal]
        exact Or.inl (if_pos he)
      · -- Any other failure is the same in both, and both recover from it or neither does.
        have hsame : (Outcome.failed e r' : Outcome (Option Node)).uncut = .failed e r' := if_neg he
        rw [hsame] at hr
        obtain hr | hr := hr
        · cases hr
        · rw [hr]
          exact cutsOff_settled h f r (.error e) r'

/-! ## Every step -/

/-- The two sets of options, the narrow one first. -/
def pair (narrow wide : Options) : Bool → Options
  | false => narrow
  | true => wide

/-- A narrow limit does nothing to a step but to cut it off. -/
theorem compositional_cutsOff (rounds : Nat) :
    Compositional schema (pair narrow wide) (fun _ => rounds) fun _ {_} x => (x false).CutsOff (x true) where
  reading _ := .refl _
  bind hx hf := hx.bind fun a ha => hf a ⟨false, ha⟩
  cancelled := cutsOff_checkCancelled h
  counted := cutsOff_countNode h
  limited n := cutsOff_checkElements h n
  table _ _ _ := .refl _
  within segment type hx := hx.within segment type
  inBuffer data hx := hx.inBuffer rfl data
  bounded _ hx := .bracket _ _ hx
  overlaid _ hx := .bracket _ _ hx
  sought _ _ hx := .bracket _ _ hx
  member f hx := cutsOff_member h f (hx.within f.name f.type)
  openEnded _ _ hc _ he hl :=
    openElements_of_element (P := fun x => (x false).CutsOff (x true)) (d := fun i => ⟨schema, pair narrow wide i⟩)
      (fun _ => .refl _) (.refl _) (fun hx hf => hx.bind fun a ha => hf a ⟨false, ha⟩)
      (cutsOff_checkElements h) (fun n => he _ n hc) hl.unmoving rounds 0 []

/-- With a wider limit on nesting a struct is given more levels, and those are never asked for. -/
theorem cutsOff_struct (rounds levels more : Nat) {s : StructDef} (name : String) (hs : schema.Defines s) :
    (struct ⟨schema, narrow⟩ rounds levels s name).CutsOff
      (struct ⟨schema, wide⟩ rounds (levels + more) s name) := by
  induction levels generalizing s name with
  | zero => exact fun _ => Or.inl rfl
  | succ levels ih =>
      -- The two decodes differ in the options and in the levels that are left, so they are taken as one family.
      let nested (i : Bool) : StructDef → String → Decoding Node :=
        struct ⟨schema, pair narrow wide i⟩ rounds (if i then levels + more else levels)
      have hinside : (inside ⟨schema, narrow⟩ rounds (nested false) s).CutsOff
          (inside ⟨schema, wide⟩ rounds (nested true) s) :=
        @Compositional.inside _ _ _ _ _ false nested (compositional_cutsOff h rounds)
          (fun _ s name hs _ => ih name hs) _ hs nofun
      rw [Nat.add_right_comm]
      show (structWith ⟨schema, narrow⟩ rounds (nested false) s name).CutsOff
        (structWith ⟨schema, wide⟩ rounds (nested true) s name)
      rw [structWith_eq, structWith_eq]
      have hdescended : (descended ⟨schema, narrow⟩ (inside ⟨schema, narrow⟩ rounds (nested false) s)).CutsOff
          (descended ⟨schema, wide⟩ (inside ⟨schema, wide⟩ rounds (nested true) s)) :=
        (cutsOff_descend h).bind fun _ _ => hinside.bind fun _ _ => .refl _
      exact hdescended.bind fun _ _ => .refl _

/-- A whole decode is cut off by the narrow options or ends as under the wide ones. -/
theorem cutsOff_root (rounds : Nat) :
    (root ⟨schema, narrow⟩ rounds).CutsOff (root ⟨schema, wide⟩ rounds) := by
  have hle : narrow.maxDepth.toNat ≤ wide.maxDepth.toNat := UInt32.le_iff_toNat_le.mp h.maxDepth
  obtain ⟨more, hmore⟩ : ∃ more, wide.maxDepth.toNat + 1 = narrow.maxDepth.toNat + 1 + more :=
    ⟨wide.maxDepth.toNat - narrow.maxDepth.toNat, by omega⟩
  refine CutsOff.bind (.refl _) fun s hs => ?_
  obtain ⟨r, r', hs⟩ := hs
  show CutsOff _ (struct ⟨schema, wide⟩ rounds (wide.maxDepth.toNat + 1) s schema.name)
  rw [hmore]
  exact cutsOff_struct h rounds _ more _ ⟨_, (structDef_eq_done hs).1⟩

omit h

/-- A decode that runs into no limit has the same answer under every wider set of limits. -/
theorem answers_of_wider {d : Decoder} {wide : Options} (h : wide.Wider d.options) {data : Buffer}
    {answer : Except Failure Decoded} (ha : d.Answers data answer)
    (hl : ∀ e, answer = .error e → e.kind ≠ .limit) : (Decoder.mk d.schema wide).Answers data answer := by
  obtain ⟨rounds, hd⟩ := ha
  refine ⟨rounds, ?_⟩
  unfold decode? at hd ⊢
  have hroot : (d.root rounds).CutsOff (root ⟨d.schema, wide⟩ rounds) := cutsOff_root h rounds
  replace hroot := hroot (.start (.ofBuffer data d.schema.order))
  unfold uncut at hroot
  generalize d.root rounds (.start (.ofBuffer data d.schema.order)) = o at hd hroot
  -- nothing was cut off, so both runs have the same end
  have huncut : o.uncut = o := by
    cases o with
    | done a r => rfl
    | unfinished => rfl
    | failed e r => exact if_neg (hl e (Option.some.inj hd).symm)
  rw [huncut] at hroot
  obtain hroot | hroot := hroot
  · rw [hroot] at hd
    cases hd
  · dsimp only
    rw [hroot]
    exact hd

/-- Bytes up to the end, of which two are allowed, and no node besides theirs. -/
def tally : Decoder where
  schema := {
    name := "tally"
    structs := [("all", { name := "all", fields := [{ name := "bytes", type := .u8, repetition := .untilEnd }] })]
    root := "all" }
  options := { maxDepth := 1, maxElements := 2, maxNodes := 4 }

/-- Two bytes use up every limit and exceed none, so the default options change nothing about them. -/
theorem tally_answers_of_wider : Options.Wider {} tally.options ∧
    ∃ t, tally.Answers #[1, 2] (.ok t) ∧ t.root.count = 4 ∧
      (Decoder.mk tally.schema {}).Answers #[1, 2] (.ok t) := by
  have hwider : Options.Wider {} tally.options :=
    ⟨rfl, rfl, by decide, Or.inl rfl, Or.inl rfl⟩
  obtain ⟨t, ht, hcount⟩ : ∃ t, tally.Answers #[1, 2] (.ok t) ∧ t.root.count = 4 := by
    refine tally.exists_answer_of_decode? 2 ?_
    decide +kernel
  have hlimit : ∀ e, (Except.ok t : Except Failure Decoded) = .error e → e.kind ≠ .limit := by
    intro e he
    cases he
  exact ⟨hwider, t, ht, hcount, answers_of_wider (d := tally) hwider ht hlimit⟩

end Decoder

end BinaryFormat
