import BinaryFormat.Proofs.Loop

/-!
# When a decode comes to an end

A decode comes to an end unless it gets to an open-ended array whose elements turn back for ever: they
succeed, are never the last ones, and again and again end before they began. Nothing else can keep it
busy, for structs are nested no deeper than allowed, and an array that stands still stops. A limit on
elements or nodes rules such arrays out, and so does a schema whose open-ended arrays hold nothing that
moves to another offset for good. Without either, three bytes are enough for a decode without an answer.
-/

namespace BinaryFormat

open Schema (Field StructDef)
open Decoding

variable {α β γ : Type}

/-- Every array is bounded: by a limit, or because nothing in its elements moves to another offset for
good. -/
def Decoder.Contained (d : Decoder) : Prop :=
  0 < d.options.maxElements.toNat ∨ 0 < d.options.maxNodes.toNat ∨
    ∀ f, d.schema.HasField f → f.IsOpen → d.schema.CalmIn f

/-! ## What rules out that an array turns back -/

namespace Decoder

variable (d : Decoder)

/-- An element counts its node, and the nodes do not exceed their limit. -/
theorem nodes_lt_of_element {nested : StructDef → String → Decoding Node} {f : Field} {i : Nat} {r r' : Run}
    {node : Node} (hs : (single d nested f none).Balanced false)
    (h : element d nested f i r = .done node r') :
    r.nodes < r'.nodes ∧ d.Admits r'.nodes := by
  obtain ⟨m, r₁, -, hsingle, hmax, -, rfl⟩ := element_eq_done h
  exact ⟨Nat.lt_succ_of_le (hs.returns hsingle).nodes, hmax⟩

end Decoder

namespace Loop

variable {d : Decoder} {l : Loop d}

/-- An array that never ends is cut off by a cap on its elements. -/
theorem TurnsBack.not_maxElements (h : l.TurnsBack) : ¬ 0 < d.options.maxElements.toNat := by
  intro hmax
  obtain ⟨i, hi, r, r', -, ⟨hlimit, -⟩, -⟩ := h d.options.maxElements.toNat
  have := d.checkElements_eq_done hlimit hmax
  omega

/-- It is cut off by a cap on nodes as well, since each element counts for one. -/
theorem TurnsBack.not_maxNodes (h : l.TurnsBack)
    (hs : ∀ n, (Decoder.single d (l.nested n) (Decoder.elementField l.field) none).Balanced false) :
    ¬ 0 < d.options.maxNodes.toNat := by
  intro hmax
  have hnodes : ∀ i r, l.Laps i r → i ≤ r.nodes := by
    intro i r hlaps
    induction hlaps with
    | start => exact Nat.zero_le _
    | lap _ hlap ih =>
        obtain ⟨-, ⟨n, node, hn⟩, -⟩ := hlap
        have hlt := (d.nodes_lt_of_element (hs n) hn).1
        omega
  obtain ⟨i, hi, r, r', hlaps, ⟨-, ⟨n, node, hn⟩, -⟩, -⟩ := h d.options.maxNodes.toNat
  obtain ⟨hlt, hle⟩ := d.nodes_lt_of_element (hs n) hn
  have := hnodes i r hlaps
  have := hle hmax
  omega

/-- Behind the first lap the position is in the scope, where calm elements only move it forward. -/
theorem not_turnsBack (hlast : l.isLast.SeesEnd) (hb : ∀ i n, (l.element i n).Balanced true) :
    ¬ l.TurnsBack := by
  intro h
  obtain ⟨i, hi, r, r', hlaps, ⟨-, ⟨n, node, hn⟩, -⟩, hlt⟩ := h 1
  cases hlaps with
  | start => omega
  | lap _ hlap =>
      have hmore := hlast.goesOn hlap.2.2.2
      have hpos : r.pos ≤ r.reader.scope.stop := by
        unfold Reader.isExhausted Reader.remaining at hmore
        have : r.reader.scope.stop - r.reader.pos ≠ 0 := by simpa using hmore
        unfold Run.pos
        omega
      have := ((hb _ n).forward hn hpos).1
      omega

end Loop

/-! ## Tracing an unfinished step to an array -/

/-- The structs around the run leave room for `levels` more, and no fewer than the options allow. -/
structure Run.Fits (d : Decoder) (levels : Nat) (r : Run) : Prop where
  sound : r.reader.Sound
  depth_le : r.depth ≤ d.options.maxDepth.toNat
  lt_levels : d.options.maxDepth.toNat < r.depth + levels

theorem Run.Returns.fits {d : Decoder} {levels : Nat} {r r' : Run} (h : r.Returns r')
    (hr : r.Fits d levels) : r'.Fits d levels :=
  ⟨h.sound hr.sound, h.depth ▸ hr.depth_le, h.depth ▸ hr.lt_levels⟩

theorem Run.Fits.reader {d : Decoder} {levels : Nat} {r : Run} {reader : Reader} (h : r.Fits d levels)
    (hs : reader.Sound) : ({ r with reader } : Run).Fits d levels := ⟨hs, h.depth_le, h.lt_levels⟩

/-- Where the step comes to no end, it gets to an array that turns back. -/
structure Decoding.Traced (d : Decoder) (levels : Nat) (b : Bool) (x : Nat → Decoding α) : Prop where
  persistent : Persistent x
  balanced : ∀ n, (x n).Balanced b
  visits : ∀ r, r.Fits d levels → Eventually x r .unfinished →
    ∃ l : Loop d, Visits d x r l ∧ l.TurnsBack ∧ ¬ d.Contained

namespace Decoding.Traced

variable {d : Decoder} {levels : Nat} {b : Bool}

theorem of_ends {x : Decoding α} (hb : x.Balanced b) (hx : ∀ r, x r ≠ .unfinished) :
    Traced d levels b fun _ => x :=
  ⟨fun _ _ _ => .refl x, fun _ => hb, fun r _ ⟨n, hn⟩ => absurd (hn n (Nat.le_refl n)) (hx r)⟩

theorem bind {x : Nat → Decoding α} {f : Nat → α → Decoding β} (hx : Traced d levels b x)
    (hf : ∀ a, (∃ n, (x n).Yields a) → Traced d levels b fun n => f n a) :
    Traced d levels b fun n => x n >>= f n := by
  refine ⟨fun n m hnm => (hx.persistent n m hnm).bind fun a ha => (hf a ⟨n, ha⟩).persistent n m hnm,
    fun n => (hx.balanced n).bind fun a ha => (hf a ⟨n, ha⟩).balanced n, fun r hr hu => ?_⟩
  rcases hx.persistent.eventually_unfinished_or r with hxu | ⟨o, ho, n, hn⟩
  · -- The first step never comes to an outcome.
    obtain ⟨l, hv, hl⟩ := hx.visits r hr hxu
    exact ⟨l, .first hv, hl⟩
  · obtain ⟨n', hn'⟩ := hu
    cases o with
    | unfinished => exact absurd rfl ho
    | failed e r' =>
        have hm := hn' (max n n') (Nat.le_max_right n n')
        have hfailed := bind_failed (hn (max n n') (Nat.le_max_left n n')) (f (max n n'))
        cases hfailed.symm.trans hm
    | done a r' =>
        have hxn := hn n (Nat.le_refl n)
        have hfu : Eventually (fun n => f n a) r' .unfinished := by
          refine ⟨max n n', fun m hm => ?_⟩
          have hdone := bind_done (hn m (by omega)) (f m)
          exact hdone.symm.trans (hn' m (by omega))
        have hr' := ((hx.balanced n).returns hxn).fits hr
        obtain ⟨l, hv, hl⟩ := (hf a ⟨n, r, r', hxn⟩).visits r' hr' hfu
        exact ⟨l, .next ⟨n, hn⟩ hv, hl⟩

end Decoding.Traced

/-! ## Steps that come to an end -/

/-- The step comes to an end from every run. -/
def Decoding.Ends (x : Decoding α) : Prop := ∀ r, x r ≠ .unfinished

namespace Decoding.Ends

theorem bind {x : Decoding α} {f : α → Decoding β} (hx : x.Ends) (hf : ∀ a, (f a).Ends) :
    (x >>= f).Ends := by
  intro r
  cases hr : x r with
  | done a r' => rw [bind_done hr]; exact hf a r'
  | failed e r' => rw [bind_failed hr]; nofun
  | unfinished => exact absurd hr (hx r)

/-- Where what comes afterwards ends, it is the first step that does not. -/
theorem of_bind {x : Decoding α} {f : α → Decoding β} (hf : ∀ a, (f a).Ends) {r : Run}
    (h : (x >>= f) r = .unfinished) : x r = .unfinished := by
  cases hr : x r with
  | done a r' => rw [bind_done hr] at h; exact absurd h (hf a r')
  | failed e r' => rw [bind_failed hr] at h; cases h
  | unfinished => rfl

theorem pure (a : α) : Ends (pure a) := fun _ => nofun

theorem modify (f : Run → Run) : (modify f).Ends := fun _ => nofun

theorem move (f : Reader → Except Cause Reader) : (move f).Ends := by
  intro r
  cases hr : f r.reader with
  | ok reader => rw [move_ok hr]; nofun
  | error c => rw [move_error hr]; nofun

theorem countNode (d : Decoder) : d.countNode.Ends := by
  intro r
  rw [Decoder.countNode_apply]
  split <;> nofun

theorem restore (f : Field) (before : Option Nat) : (Decoder.restore f before).Ends := by
  unfold Decoder.restore
  cases before with
  | none => exact .pure _
  | some pos =>
      dsimp only
      split
      · exact .modify _
      · exact .pure _

theorem replaceField (d : Decoder) (f : Field) (before : Run) (failure : Failure) :
    (d.replaceField f before failure).Ends := by
  intro r
  rw [Decoder.replaceField_apply]
  exact (countNode d).bind (fun _ => (modify _).bind fun _ => .pure _) _

theorem settled (d : Decoder) (f : Field) (before : Run) (result : Except Failure (Option Node)) :
    (d.settled f before result).Ends := by
  match result with
  | .ok (some node) => exact (countNode d).bind fun _ => .pure _
  | .ok none => exact .pure _
  | .error failure =>
      show (if _ then _ else _ : Decoding (Option Node × Bool)).Ends
      split
      · exact (replaceField d f before failure).bind fun _ => .pure _
      · exact fun _ => nofun

theorem descend (d : Decoder) : d.descend.Ends := by
  intro r
  rw [Decoder.descend_apply]
  split <;> nofun

end Decoding.Ends

namespace Decoding.Traced

variable {d : Decoder} {levels : Nat} {b : Bool}

/-- An unfinished step between two that come to an end is itself unfinished, and gets to an array where
the whole does. -/
theorem bracket {inner : Nat} {b' : Bool} {x : Nat → Decoding α} {opening : Decoding β}
    {closing : β → α → Decoding γ} (ho : opening.Ends) (hc : ∀ c a, (closing c a).Ends)
    (hfits : ∀ {r c r'}, r.Fits d levels → opening r = .done c r' → r'.Fits d inner)
    (hb : ∀ n, (opening >>= fun c => x n >>= closing c).Balanced b) (h : Traced d inner b' x) :
    Traced d levels b fun n => opening >>= fun c => x n >>= closing c := by
  refine ⟨fun n m hnm => .bracket _ _ (h.persistent n m hnm), hb, fun r hr ⟨n, hn⟩ => ?_⟩
  cases hopen : opening r with
  | unfinished => exact absurd hopen (ho r)
  | failed e r' => cases (bind_failed hopen _).symm.trans (hn n (Nat.le_refl n))
  | done c r' =>
      have hu : Eventually x r' .unfinished :=
        ⟨n, fun m hm => Ends.of_bind (hc c) ((bind_done hopen _).symm.trans (hn m hm))⟩
      obtain ⟨l, hv, hl⟩ := h.visits r' (hfits hr hopen) hu
      exact ⟨l, .next ⟨0, fun _ _ => hopen⟩ (.first hv), hl⟩

theorem within {x : Nat → Decoding α} (segment : String) (type : FieldType) (h : Traced d levels b x) :
    Traced d levels b fun n => .within segment type (x n) := by
  refine ⟨fun n m hnm => (h.persistent n m hnm).within segment type,
    fun n => (h.balanced n).within segment type, fun r hr ⟨n, hn⟩ => ?_⟩
  obtain ⟨l, hv, hl⟩ := h.visits { r with path := segment :: r.path }
    ⟨hr.sound, hr.depth_le, hr.lt_levels⟩ ⟨n, fun m hm => within_eq_unfinished.mp (hn m hm)⟩
  exact ⟨l, .within segment type hv, hl⟩

theorem inBuffer {x : Nat → Decoding α} (data : Buffer) (h : Traced d levels false x) :
    Traced d levels b fun n => d.inBuffer data (x n) := by
  refine ⟨fun n m hnm => (h.persistent n m hnm).inBuffer d data,
    fun n => (h.balanced n).inBuffer d data, fun r hr ⟨n, hn⟩ => ?_⟩
  obtain ⟨l, hv, hl⟩ := h.visits { r with reader := .ofBuffer data d.schema.order }
    ⟨Reader.sound_ofBuffer _ _, hr.depth_le, hr.lt_levels⟩
    ⟨n, fun m hm => inBuffer_eq_unfinished.mp (hn m hm)⟩
  exact ⟨l, .inBuffer data hv, hl⟩

end Decoding.Traced

namespace Decoder

/-- Only an open-ended array goes on for ever, so all other steps pass on what they are made of. -/
theorem compositional_traced (d : Decoder) (levels : Nat) :
    Compositional d.schema (fun _ => d.options) id fun b {_} x => Traced d levels b x where
  reading h := .of_ends (.reading h) fun r => (h r).1
  bind hx hf := hx.bind hf
  cancelled := .of_ends (.reading d.unmoving_checkCancelled.reading) fun r => (d.unmoving_checkCancelled r).1
  counted := .of_ends (.counted d) (Ends.countNode d)
  limited n := .of_ends (.reading (d.unmoving_checkElements n).reading) fun r => (d.unmoving_checkElements n r).1
  table name start stop := .of_ends (.table name start stop) fun _ => nofun
  within segment type h := h.within segment type
  inBuffer data h := h.inBuffer data
  bounded size h := by
    refine .bracket (.move _) (fun _ _ => .bind (.move _) fun _ => .pure _) (fun hr ho => ?_)
      (fun n => (h.balanced n).bounded size) h
    obtain ⟨inner, he, rfl⟩ := move_eq_done ho
    obtain ⟨hsize, rfl⟩ := Reader.enter_eq_ok he
    exact hr.reader (hr.sound.push hsize)
  overlaid order h := by
    refine .bracket (.modify _) (fun _ _ => .bind (.move _) fun _ => .pure _) (fun hr ho => ?_)
      (fun n => (h.balanced n).overlaid order) h
    obtain ⟨-, rfl⟩ := Outcome.done.inj ho
    exact hr.reader (hr.sound.push (Nat.le_refl _))
  sought f hf h := by
    refine .bracket (fun r => (seek_ensures f r).1) (fun _ _ => .bind (.restore _ _) fun _ => .pure _)
      (fun {r _ _} hr ho => ?_) (fun n => (h.balanced n).sought f hf) h
    have hseek := (seek_ensures f r).2
    rw [ho] at hseek
    obtain ⟨-, -, rfl⟩ | ⟨-, -, target, ht, rfl⟩ := hseek
    · exact hr
    · exact hr.reader (hr.sound.congr rfl rfl ht)
  member {b} x f h := by
    have hw := h.within f.name f.type
    refine ⟨fun n m hnm => ?_, fun n => (hw.balanced n).member d f, fun r hr hu => ?_⟩
    · exact (ExtendedBy.refl _).bind fun _ _ => (hw.persistent n m hnm).attempt.bind fun _ _ => .refl _
    · obtain ⟨n, hn⟩ := hu
      -- what is done about the outcome always ends, so it is the field that does not
      have hxu : Eventually (fun n => .within f.name f.type (x n)) r .unfinished := by
        refine ⟨n, fun m hm => attempt_eq_unfinished.mp ?_⟩
        exact Ends.of_bind (Ends.settled d f r) (hn m hm)
      obtain ⟨l, hv, hl⟩ := hw.visits r hr hxu
      exact ⟨l, .next ⟨0, fun _ _ => rfl⟩ (.first (.attempt hv)), hl⟩
  openEnded {b nested f isLast} hf ho hc hs he hl := by
    have hfalse : ∀ i, Traced d levels false fun n => element d (nested n) (elementField f) i :=
      fun i => he false i nofun
    refine ⟨fun n m hnm => extendedBy_openElements (fun i => (hfalse i).persistent n m hnm) hnm 0 [],
      fun n => .openElements d (fun i => (he b i hc).balanced n) hl.unmoving _ _ _, fun r hr hu => ?_⟩
    let l : Loop d := ⟨f, nested, isLast, r, fun i => (hfalse i).persistent⟩
    have hbal : ∀ i n, (l.element i n).Balanced false := fun i => (hfalse i).balanced
    have hu : Eventually l.elements l.start .unfinished := hu
    -- either an element is itself unfinished, or the laps go on for ever
    by_cases hstuck : ∃ i r', l.Laps i r' ∧ d.checkElements (i + 1) r' = .done () r' ∧
        Eventually (l.element i) r' .unfinished
    · obtain ⟨i, r', hlaps, hlimit, hstuck⟩ := hstuck
      obtain ⟨inner, hv, hi⟩ := (hfalse i).visits r' ((hlaps.returns hbal).fits hr) hstuck
      exact ⟨inner, .element hlaps hlimit hv, hi⟩
    · have hturns : l.TurnsBack := by
        refine Loop.turnsBack_of_laps hbal hr.sound fun i r' hlaps => ?_
        rcases Loop.exists_lap hl hu hlaps with hs | hlap
        · exact absurd ⟨i, r', hlaps, hs⟩ hstuck
        · exact hlap
      refine ⟨l, .array l, hturns, ?_⟩
      -- each bound of a contained decoder keeps this array from turning back
      rintro (hmax | hmax | hcalm)
      · exact hturns.not_maxElements hmax
      · exact hturns.not_maxNodes (fun n => (hs false nofun).balanced n) hmax
      · exact Loop.not_turnsBack (l := l) hl (fun i n => (he true i fun _ => hcalm f hf ho).balanced n) hturns

variable (d : Decoder)

theorem traced_struct {b : Bool} (levels : Nat) {s : StructDef} (name : String)
    (hs : d.schema.Defines s) (hc : b = true → d.schema.Calm s) :
    Traced d levels b fun n => d.struct n levels s name := by
  induction levels generalizing b s name with
  | zero =>
      -- no run that fits has used up its levels
      refine ⟨fun _ _ _ => .refl _, fun n => d.balanced_struct n 0 s name hc, fun r hr _ => ?_⟩
      have h1 := hr.depth_le
      have h2 := hr.lt_levels
      omega
  | succ levels ih =>
      have hinside : Traced d levels b fun n => d.inside n (d.struct n levels) s :=
        (compositional_traced d levels).inside (fun b s name hs hc => ih name hs hc) hs hc
      have hdescended : Traced d (levels + 1) b fun n => d.descended (d.inside n (d.struct n levels) s) := by
        refine .bracket (.descend d) (fun _ _ => .bind (.modify _) fun _ => .pure _) (fun hr ho => ?_)
          (fun n => (hinside.balanced n).descended d) hinside
        obtain ⟨rfl, hmax⟩ := d.descend_eq_done ho
        have := hr.lt_levels
        exact ⟨hr.sound, hmax, by show _ < _ + 1 + _; omega⟩
      have hpos : ∀ p : Nat × List Node, Traced d (levels + 1) b fun _ => (do
          let stop ← .pos
          pure { name, typeName := s.name, offset := p.1, size := stop - p.1, content := .struct
                 children := p.2 } : Decoding Node) := fun p =>
        (compositional_traced d (levels + 1)).reading (Reading.pos.bind fun _ => .pure _)
      have heq : ∀ n, d.struct n (levels + 1) s name = _ := fun n => structWith_eq d n (d.struct n levels) s name
      simp only [heq]
      exact hdescended.bind fun p _ => hpos p

theorem traced_root : Traced d (d.options.maxDepth.toNat + 1) false d.root :=
  (compositional_traced d _).bind_structDef fun _ hs => d.traced_struct _ _ ⟨_, hs⟩ nofun

theorem fits_start (data : Buffer) :
    (Run.start (.ofBuffer data d.schema.order)).Fits d (d.options.maxDepth.toNat + 1) :=
  ⟨Reader.sound_ofBuffer _ _, Nat.zero_le _, by show _ < 0 + _; omega⟩

/-- A buffer has no answer exactly if decoding it comes to no end. -/
theorem exists_answer_iff_not_unfinished (data : Buffer) :
    (∃ answer, d.Answers data answer) ↔
      ¬ Eventually d.root (.start (.ofBuffer data d.schema.order)) .unfinished := by
  constructor
  · rintro ⟨answer, n, hn⟩ hu
    unfold decode? at hn
    rw [d.persistent_root.unfinished hu n] at hn
    cases hn
  · intro hu
    rcases d.persistent_root.eventually_unfinished_or (.start (.ofBuffer data d.schema.order))
      with h | ⟨o, ho, n, hn⟩
    · exact absurd h hu
    · have hroot := hn n (Nat.le_refl n)
      cases o with
      | unfinished => exact absurd rfl ho
      | failed e r => exact ⟨_, d.answers_error_iff.mpr ⟨n, r, hroot⟩⟩
      | done root r => exact ⟨.ok ⟨root, _⟩, d.answers_ok_iff.mpr ⟨n, r, hroot, rfl⟩⟩

/-- A decode comes to an end unless it gets to an array that turns back for ever, and there is none where
every array is bounded. -/
theorem exists_answer_iff (data : Buffer) :
    ((∃ answer, d.Answers data answer) ↔
      ∀ l : Loop d, Visits d d.root (.start (.ofBuffer data d.schema.order)) l → ¬ l.TurnsBack) ∧
    (d.Contained → ∃ answer, d.Answers data answer) := by
  have htrace := d.traced_root.visits _ (d.fits_start data)
  rw [exists_answer_iff_not_unfinished]
  refine ⟨⟨fun hu l hv hl => hu (hv.unfinished hl), fun hno hu => ?_⟩, fun hcontained hu => ?_⟩
  · obtain ⟨l, hv, hl, -⟩ := htrace hu
    exact hno l hv hl
  · obtain ⟨l, -, -, hl⟩ := htrace hu
    exact hl hcontained

end Decoder

/-! ## Three bytes without an answer -/

namespace Seesaw

/-- The tokens of `remaining > 1`. -/
theorem scan?_target : Token.scan? 0 (stripBraces "remaining > 1".toList).1 =
    some ⟨[⟨.name "remaining", ⟨0, 9⟩⟩, ⟨.symbol .greater, ⟨10, 11⟩⟩, ⟨.int 1, ⟨12, 13⟩⟩,
      ⟨.finish, ⟨13, 13⟩⟩], []⟩ := by
  decide +kernel

/-- An offset: 1 if more than one byte is left, and 0 at the last byte. -/
def target : Expression where
  source := "remaining > 1"
  tree := .binary .gt (.ident "remaining" ⟨0, 9⟩) (.int 1 ⟨12, 13⟩) ⟨0, 13⟩
  tree_eq := by
    unfold Expr.ofSource Expr.ofText
    rw [scan?_target]
    rfl

/-- A byte at that offset, behind which reading goes on. -/
def item : StructDef where
  name := "item"
  fields := [{ name := "b", type := .u8, seek := some target }]

/-- Items up to the end. -/
def items : Field where
  name := "items"
  type := .struct
  structRef := some "item"
  repetition := .untilEnd

/-- A format whose elements move to and fro. -/
def decoder : Decoder where
  schema := {
    name := "seesaw"
    structs := [("all", { name := "all", fields := [items] }), ("item", item)]
    root := "all" }
  options := {}

/-- The run behind some elements. -/
def run (pos nodes : Nat) : Run where
  reader := {
    data := #[0, 0, 0], pos, scopes := [], bindings := [("b", .int 0)], order := .little, tables := [] }
  path := ["items"]
  depth := 1
  nodes
  recovered := []

/-- Every element leads from offset 1 to offset 2, or back. -/
theorem element_eq (rounds levels i nodes : Nat) {pos : Nat} (hpos : pos = 1 ∨ pos = 2) :
    ∃ node, Decoder.element decoder (decoder.struct rounds (levels + 1)) (Decoder.elementField items) i
      (run pos nodes) = .done node (run (3 - pos) (nodes + 2)) := by
  rcases hpos with rfl | rfl
  · exact ⟨_, rfl⟩
  · exact ⟨_, rfl⟩

/-- From either of its two positions the array goes on, for any number of rounds. -/
theorem openElements_eq (rounds levels left i nodes : Nat) {pos : Nat} (hpos : pos = 1 ∨ pos = 2)
    (found : List Node) :
    Decoder.openElements decoder (decoder.struct rounds (levels + 1)) (Decoder.elementField items)
      Decoder.isExhausted left i found (run pos nodes) = .unfinished := by
  induction left generalizing i nodes pos found with
  | zero => rfl
  | succ left ih =>
      obtain ⟨node, hlap⟩ := element_eq rounds levels i nodes hpos
      -- Each element ends where the one before it began, so the cursor has moved and there is more to read.
      have hnext : 3 - pos = 1 ∨ 3 - pos = 2 := by omega
      have hmoved : (run (3 - pos) (nodes + 2)).pos ≠ (run pos nodes).pos := by
        show 3 - pos ≠ pos
        omega
      have hmore : Decoder.isExhausted (run (3 - pos) (nodes + 2))
          = .done false (run (3 - pos) (nodes + 2)) := by
        rcases hpos with rfl | rfl <;> rfl
      rw [Decoder.openElements, bind_done (rfl : decoder.checkElements (i + 1) (run pos nodes) = .done () _),
        bind_done (rfl : Decoding.pos (run pos nodes) = .done (run pos nodes).pos _), bind_done hlap,
        bind_done (rfl : Decoding.pos (run (3 - pos) (nodes + 2)) = .done _ _), if_neg hmoved,
        bind_done hmore]
      exact ih (i + 1) (nodes + 2) hnext (node :: found)

/-- The decode is unfinished with any number of rounds. -/
theorem root_eq (rounds : Nat) :
    decoder.root rounds (.start (.ofBuffer #[0, 0, 0] .little)) = .unfinished := by
  let nested := decoder.struct rounds 256
  let before : Run :=
    { reader := .ofBuffer #[0, 0, 0] .little, path := ["items"], depth := 1, nodes := 1, recovered := [] }
  -- The loop over the elements never ends. Everything around it waits for it, layer by layer.
  have hloop : Decoder.openElements decoder nested (Decoder.elementField items) Decoder.isExhausted rounds 0
      [] before = .unfinished := by
    cases rounds with
    | zero => rfl
    | succ rounds => exact openElements_eq (rounds + 1) 255 rounds 1 3 (Or.inr rfl) _
  have helements : Decoder.elements decoder rounds nested items before = .unfinished := hloop
  have harray : Decoder.array decoder rounds nested items before = .unfinished :=
    bind_unfinished (x := Decoder.elements decoder rounds nested items) helements _
  have hpresent : Decoder.presentField decoder rounds nested items [] before = .unfinished :=
    bind_unfinished (x := Decoder.array decoder rounds nested items) harray _
  have hfield : Decoder.field decoder rounds nested items [] { before with path := [] } = .unfinished :=
    within_eq_unfinished.mpr (bind_unfinished hpresent _)
  have hfields : Decoder.fields decoder rounds nested [items] [] { before with path := [] } = .unfinished :=
    bind_unfinished (attempt_eq_unfinished.mpr hfield) _
  exact bind_unfinished
    (x := Decoder.body decoder rounds nested { name := "all", fields := [items] }) hfields _

/-- Without limits the default decode of three bytes has no answer. -/
theorem no_answer : ¬ ∃ answer, decoder.Answers #[0, 0, 0] answer := by
  rw [Decoder.exists_answer_iff_not_unfinished]
  exact fun h => h ⟨0, fun rounds _ => root_eq rounds⟩

end Seesaw

end BinaryFormat
