import BinaryFormat.Proofs.Balance
import BinaryFormat.Proofs.Rounds

/-!
# Arrays that never end

Only an open-ended array can keep a decode from coming to an end. It goes on as long as its elements
succeed, leave the position elsewhere than they found it, and are not the last ones. Where positions only
move forward that cannot last, so what an array that never ends has is elements that end before they began,
again and again. Here is said what it means that a run gets to such an array, and that it then has no
answer.
-/

namespace BinaryFormat

open Schema (Field StructDef)

variable {α β γ : Type}

namespace Decoding

/-! ## Outcomes with enough rounds -/

/-- With enough rounds, the step from `r` has this outcome. -/
def Eventually (x : Nat → Decoding α) (r : Run) (o : Outcome α) : Prop := ∃ n, ∀ m, n ≤ m → x m r = o

/-- An outcome that is there after some rounds is the one for all larger numbers of rounds. -/
theorem Persistent.eventually {x : Nat → Decoding α} (h : Persistent x) {n : Nat} {r : Run}
    (hn : x n r ≠ .unfinished) : Eventually x r (x n r) :=
  ⟨n, fun m hm => (h n m hm r).resolve_left hn⟩

/-- A step that is unfinished with many rounds is so with few. -/
theorem Persistent.unfinished {x : Nat → Decoding α} (h : Persistent x) {r : Run}
    (hr : Eventually x r .unfinished) (n : Nat) : x n r = .unfinished := by
  obtain ⟨m, hm⟩ := hr
  rcases h n (max n m) (Nat.le_max_left n m) r with hn | hn
  · exact hn
  · rw [← hn]; exact hm _ (Nat.le_max_right n m)

/-- A step comes to an end with some number of rounds, or with none. -/
theorem Persistent.eventually_unfinished_or {x : Nat → Decoding α} (h : Persistent x) (r : Run) :
    Eventually x r .unfinished ∨ ∃ o, o ≠ .unfinished ∧ Eventually x r o := by
  by_cases hn : ∃ n, x n r ≠ .unfinished
  · obtain ⟨n, hn⟩ := hn
    exact Or.inr ⟨_, hn, h.eventually hn⟩
  · exact Or.inl ⟨0, fun m _ => Classical.byContradiction fun hm => hn ⟨m, hm⟩⟩

end Decoding

open Decoding Decoder

/-! ## Laps -/

/-- An open-ended array that a run has got to. -/
structure Loop (d : Decoder) where
  /-- The array. -/
  field : Field
  /-- How the structs in it are decoded, given a number of rounds. -/
  nested : Nat → StructDef → String → Decoding Node
  /-- The test that ends it. -/
  isLast : Decoding Bool
  /-- The run before its first element. -/
  start : Run
  /-- More rounds change nothing about an element that comes to an end. -/
  persistent : ∀ i, Persistent fun n => element d (nested n) (elementField field) i

namespace Loop

variable {d : Decoder} (l : Loop d)

/-- An element of the array. -/
def element (i : Nat) : Nat → Decoding Node := fun n =>
  Decoder.element d (l.nested n) (elementField l.field) i

/-- All of its elements. -/
def elements : Nat → Decoding (List Node) := fun n =>
  openElements d (l.nested n) (elementField l.field) l.isLast n 0 []

/-- Element `i` leads from `r` to `r'`, where the array goes on. -/
def Lap (i : Nat) (r r' : Run) : Prop :=
  d.checkElements (i + 1) r = .done () r ∧ (∃ n node, l.element i n r = .done node r') ∧
    r'.pos ≠ r.pos ∧ l.isLast r' = .done false r'

/-- The array goes on behind its first `i` elements, from `r`. -/
inductive Laps : Nat → Run → Prop where
  | start : Laps 0 l.start
  | lap {i : Nat} {r r' : Run} : Laps i r → l.Lap i r r' → Laps (i + 1) r'

/-- The array never ends, and its elements again and again end before they began. -/
def TurnsBack : Prop :=
  ∀ k, ∃ i, k ≤ i ∧ ∃ r r', l.Laps i r ∧ l.Lap i r r' ∧ r'.pos < r.pos

variable {l}

theorem persistent_elements (l : Loop d) : Persistent l.elements := fun n m hnm =>
  extendedBy_openElements (fun i => l.persistent i n m hnm) hnm 0 []

/-- Behind the first elements of an array the array has gone on behind each of them. -/
theorem Laps.prefix {i : Nat} {r : Run} (h : l.Laps i r) {k : Nat} (hk : k ≤ i) : ∃ r', l.Laps k r' := by
  induction h with
  | start =>
      obtain rfl := Nat.le_zero.mp hk
      exact ⟨_, .start⟩
  | @lap i r r' h hl ih =>
      rcases Nat.lt_or_ge i k with hik | hik
      · obtain rfl : k = i + 1 := by omega
        exact ⟨_, h.lap hl⟩
      · exact ih hik

/-- After a lap the array is where it would be had it started with the next element. -/
theorem Lap.openElements_eq {i : Nat} {r r' : Run} (h : l.Lap i r r') :
    ∃ n node, ∀ m, n ≤ m → ∀ rounds found,
      openElements d (l.nested m) (elementField l.field) l.isLast (rounds + 1) i found r =
        openElements d (l.nested m) (elementField l.field) l.isLast rounds (i + 1) (node :: found) r' := by
  obtain ⟨hlimit, ⟨n, node, hn⟩, hpos, hlast⟩ := h
  refine ⟨n, node, fun m hm rounds found => ?_⟩
  have hm : Decoder.element d (l.nested m) (elementField l.field) i r = .done node r' := by
    rcases l.persistent i n m hm r with hx | hx
    · exact absurd (hx.symm.trans hn) nofun
    · exact hx.trans hn
  rw [openElements, bind_done hlimit, bind_done (rfl : pos r = .done r.pos r), bind_done hm,
    bind_done (rfl : pos r' = .done r'.pos r'), if_neg hpos, bind_done hlast]
  rfl

/-- After some laps the array is where it would be had it started with the next element. -/
theorem Laps.openElements_eq {i : Nat} {r : Run} (h : l.Laps i r) :
    ∃ n found, ∀ m, n ≤ m → ∀ rounds,
      openElements d (l.nested m) (elementField l.field) l.isLast (rounds + i) 0 [] l.start =
        openElements d (l.nested m) (elementField l.field) l.isLast rounds i found r := by
  induction h with
  | start => exact ⟨0, [], fun _ _ _ => rfl⟩
  | @lap i r r' _ hl ih =>
      obtain ⟨n, found, hn⟩ := ih
      obtain ⟨n', node, hn'⟩ := hl.openElements_eq
      refine ⟨max n n', node :: found, fun m hm rounds => ?_⟩
      have hrounds : rounds + (i + 1) = rounds + 1 + i := by omega
      rw [hrounds, hn m (by omega), hn' m (by omega)]

/-- Where it has gone on for `i` elements, the array goes on as the elements from `i` on do. -/
theorem Laps.elements_unfinished {i : Nat} {r : Run} (h : l.Laps i r)
    (hu : ∃ n, ∀ m, n ≤ m → ∀ rounds found,
      openElements d (l.nested m) (elementField l.field) l.isLast rounds i found r = .unfinished) :
    Eventually l.elements l.start .unfinished := by
  obtain ⟨n, found, hn⟩ := h.openElements_eq
  obtain ⟨n', hn'⟩ := hu
  refine ⟨max n n' + i, fun m hm => ?_⟩
  show openElements d (l.nested m) _ _ m 0 [] l.start = _
  obtain ⟨rounds, rfl⟩ : ∃ rounds, m = rounds + i := ⟨m - i, by omega⟩
  rw [hn _ (by omega), hn' _ (by omega)]

/-- An array that never ends has no outcome, however many rounds there are. -/
theorem TurnsBack.elements_unfinished (h : l.TurnsBack) : Eventually l.elements l.start .unfinished := by
  refine ⟨0, fun m _ => ?_⟩
  obtain ⟨i, hi, r, r', hlaps, -, -⟩ := h m
  obtain ⟨r'', hm⟩ := hlaps.prefix hi
  obtain ⟨n, found, hn⟩ := hm.openElements_eq
  have hmore := hn (max n m) (Nat.le_max_left n m) 0
  rw [Nat.zero_add] at hmore
  have hext : (openElements d (l.nested m) (elementField l.field) l.isLast m 0 []).ExtendedBy
      (openElements d (l.nested (max n m)) (elementField l.field) l.isLast m 0 []) :=
    extendedBy_openElements (fun i => l.persistent i _ _ (Nat.le_max_right n m)) (Nat.le_refl m) 0 []
  rcases hext l.start with hx | hx
  · exact hx
  · exact hx.symm.trans hmore

/-! ## Why an array does not end -/

section Balanced

variable (hbal : ∀ i n, (l.element i n).Balanced false)

include hbal

theorem Lap.returns {i : Nat} {r r' : Run} (h : l.Lap i r r') : r.Returns r' := by
  obtain ⟨-, ⟨n, node, hn⟩, -, -⟩ := h
  exact (hbal i n).returns hn

theorem Laps.returns {i : Nat} {r : Run} (h : l.Laps i r) : l.start.Returns r := by
  induction h with
  | start => exact .refl _
  | lap _ hl ih => exact ih.trans (hl.returns hbal)

/-- Positions that never went back would leave the buffer. -/
theorem turnsBack_of_laps (hs : l.start.reader.Sound) (h : ∀ i r, l.Laps i r → ∃ r', l.Lap i r r') :
    l.TurnsBack := by
  intro k
  apply Classical.byContradiction
  intro hno
  have hforward : ∀ {i r r'}, k ≤ i → l.Laps i r → l.Lap i r r' → r.pos < r'.pos := by
    intro i r r' hi hlaps hlap
    have hne := hlap.2.2.1
    have hle : ¬ r'.pos < r.pos := fun hlt => hno ⟨i, hi, r, r', hlaps, hlap, hlt⟩
    omega
  have hlaps : ∀ i, ∃ r, l.Laps i r := by
    intro i
    induction i with
    | zero => exact ⟨_, .start⟩
    | succ i ih =>
        obtain ⟨r, hr⟩ := ih
        obtain ⟨r', hr'⟩ := h i r hr
        exact ⟨r', hr.lap hr'⟩
  -- from lap `k` on the position grows with every lap, and the buffer does not
  have hpos : ∀ j, ∃ r, l.Laps (k + j) r ∧ j ≤ r.pos := by
    intro j
    induction j with
    | zero =>
        obtain ⟨r, hr⟩ := hlaps k
        exact ⟨r, hr, Nat.zero_le _⟩
    | succ j ih =>
        obtain ⟨r, hr, hj⟩ := ih
        obtain ⟨r', hr'⟩ := h (k + j) r hr
        have hlt := hforward (Nat.le_add_right k j) hr hr'
        exact ⟨r', hr.lap hr', by omega⟩
  obtain ⟨r, hr, hle⟩ := hpos (l.start.reader.data.size + 1)
  have hret := hr.returns hbal
  have hsize := (hret.sound hs).pos_le
  rw [hret.data] at hsize
  unfold Run.pos at hle
  omega

end Balanced

/-- Behind every lap of an array that does not end comes an element that does not end, or another lap. -/
theorem exists_lap (hlast : l.isLast.SeesEnd) (h : Eventually l.elements l.start .unfinished) {i : Nat}
    {r : Run} (hlaps : l.Laps i r) :
    (d.checkElements (i + 1) r = .done () r ∧ Eventually (l.element i) r .unfinished) ∨
      ∃ r', l.Lap i r r' := by
  obtain ⟨n, found, hn⟩ := hlaps.openElements_eq
  -- the array is unfinished after any number of rounds, so what follows lap `i` is too
  have hloop : ∀ k, n ≤ k →
      openElements d (l.nested (k + 1 + i)) (elementField l.field) l.isLast (k + 1) i found r
        = .unfinished := by
    intro k hk
    rw [← hn (k + 1 + i) (by omega) (k + 1)]
    exact l.persistent_elements.unfinished h (k + 1 + i)
  -- any other outcome of what the loop does next would be an end
  have hlimit : d.checkElements (i + 1) r = .done () r := by
    obtain ⟨hne, hsame⟩ := d.unmoving_checkElements (i + 1) r
    have hu := hloop n (Nat.le_refl n)
    rw [openElements] at hu
    cases hc : d.checkElements (i + 1) r with
    | done _ r' => rw [hc] at hsame; exact congrArg _ hsame
    | failed e r' => rw [bind_failed hc] at hu; cases hu
    | unfinished => exact absurd hc hne
  rcases (l.persistent i).eventually_unfinished_or r with hu | ⟨o, ho, n', hn'⟩
  · exact Or.inl ⟨hlimit, hu⟩
  · have hu := hloop (max n n') (Nat.le_max_left n n')
    have he := hn' (max n n' + 1 + i) (by omega)
    rw [openElements, bind_done hlimit, bind_done (rfl : pos r = .done r.pos r)] at hu
    cases o with
    | failed e r' => rw [bind_failed he] at hu; cases hu
    | unfinished => exact absurd rfl ho
    | done node r' =>
        rw [bind_done he, bind_done (rfl : pos r' = .done r'.pos r')] at hu
        -- an element that stands still ends the array
        by_cases hpos : r'.pos = r.pos
        · rw [if_pos hpos] at hu; cases hu
        · rw [if_neg hpos] at hu
          obtain ⟨hne, hsame⟩ := hlast.unmoving r'
          cases hl : l.isLast r' with
          | failed e r'' => rw [bind_failed hl] at hu; cases hu
          | unfinished => exact absurd hl hne
          | done last r'' =>
              rw [hl] at hsame
              obtain rfl : r'' = r' := hsame
              rw [bind_done hl] at hu
              cases last with
              | true => cases hu
              | false => exact Or.inr ⟨r'', hlimit, ⟨_, node, he⟩, hpos, hl⟩

end Loop

/-! ## Getting to an array -/

/-- The step from `r` gets to this array, in the course of the steps that it is made of. -/
inductive Visits (d : Decoder) : {α : Type} → (Nat → Decoding α) → Run → Loop d → Prop where
  | array (l : Loop d) : Visits d l.elements l.start l
  | element {l inner : Loop d} {i : Nat} {r : Run} : l.Laps i r → d.checkElements (i + 1) r = .done () r →
      Visits d (l.element i) r inner → Visits d l.elements l.start inner
  | first {α β : Type} {x : Nat → Decoding α} {f : Nat → α → Decoding β} {r : Run} {l : Loop d} :
      Visits d x r l → Visits d (fun n => x n >>= f n) r l
  | next {α β : Type} {x : Nat → Decoding α} {f : Nat → α → Decoding β} {r r' : Run} {a : α} {l : Loop d} :
      Eventually x r (.done a r') → Visits d (fun n => f n a) r' l → Visits d (fun n => x n >>= f n) r l
  | attempt {α : Type} {x : Nat → Decoding α} {r : Run} {l : Loop d} :
      Visits d x r l → Visits d (fun n => (x n).attempt) r l
  | within {α : Type} {x : Nat → Decoding α} {r : Run} {l : Loop d} (segment : String) (type : FieldType) :
      Visits d x { r with path := segment :: r.path } l → Visits d (fun n => .within segment type (x n)) r l
  | inBuffer {α : Type} {x : Nat → Decoding α} {r : Run} {l : Loop d} (data : Buffer) :
      Visits d x { r with reader := .ofBuffer data d.schema.order } l →
      Visits d (fun n => d.inBuffer data (x n)) r l

/-- A step that gets to an array that turns back for ever comes to no end. -/
theorem Visits.unfinished {d : Decoder} {x : Nat → Decoding α} {r : Run} {l : Loop d}
    (h : Visits d x r l) (hl : l.TurnsBack) : Eventually x r .unfinished := by
  induction h with
  | array l => exact hl.elements_unfinished
  | @element l inner i r hlaps hlimit _ ih =>
      obtain ⟨n, hn⟩ := ih hl
      refine hlaps.elements_unfinished ⟨n, fun m hm rounds found => ?_⟩
      -- without rounds left the loop is unfinished by itself
      cases rounds with
      | zero => rfl
      | succ rounds =>
          rw [openElements, bind_done hlimit, bind_done (rfl : pos r = .done r.pos r)]
          exact bind_unfinished (hn m hm) _
  | first _ ih =>
      obtain ⟨n, hn⟩ := ih hl
      exact ⟨n, fun m hm => bind_unfinished (hn m hm) _⟩
  | next hx _ ih =>
      obtain ⟨n, hn⟩ := ih hl
      obtain ⟨n', hn'⟩ := hx
      refine ⟨max n n', fun m hm => ?_⟩
      exact (bind_done (hn' m (by omega)) _).trans (hn m (by omega))
  | attempt _ ih =>
      obtain ⟨n, hn⟩ := ih hl
      exact ⟨n, fun m hm => attempt_eq_unfinished.mpr (hn m hm)⟩
  | within segment type _ ih =>
      obtain ⟨n, hn⟩ := ih hl
      exact ⟨n, fun m hm => within_eq_unfinished.mpr (hn m hm)⟩
  | inBuffer data _ ih =>
      obtain ⟨n, hn⟩ := ih hl
      exact ⟨n, fun m hm => inBuffer_eq_unfinished.mpr (hn m hm)⟩

end BinaryFormat
