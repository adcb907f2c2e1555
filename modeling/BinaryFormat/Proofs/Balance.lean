import BinaryFormat.Proofs.Traversal

/-!
# What every step leaves as it was

A step that succeeds closes every scope it opened, comes back to the depth and the path it started at, and
leaves the position inside the buffer. One that fails may leave scopes open, but only on top of those that
were open before it: that is why recovery can close them by their number. And in a struct in which nothing
moves to another offset for good, what succeeds never ends before it started, not even where it recovered
from failures on the way.
-/

namespace BinaryFormat

open Schema (Field StructDef)

namespace Reader

/-- The ends of the scopes, innermost first, and of the buffer. -/
def stops (r : Reader) : List Nat := r.frames.map Scope.stop ++ [r.data.size]

/-- The position is in the buffer, and every scope ends in the one around it. -/
structure Sound (r : Reader) : Prop where
  pos_le : r.pos ≤ r.data.size
  nested : r.stops.Pairwise (· ≤ ·)

/-- The ends are those of the frames and of the buffer. -/
theorem stops_congr {r r' : Reader} (hd : r'.data = r.data) (hf : r'.frames = r.frames) :
    r'.stops = r.stops := by
  unfold stops
  rw [hd, hf]

theorem stops_eq_cons (r : Reader) : ∃ rest, r.stops = r.scope.stop :: rest := by
  unfold stops
  rw [scope_stop_eq]
  cases hf : r.frames with
  | nil => exact ⟨[], rfl⟩
  | cons s fs => exact ⟨fs.map Scope.stop ++ [r.data.size], rfl⟩

/-- In a sound reader the innermost scope ends in the buffer, since it ends in every scope around it. -/
theorem Sound.stop_le {r : Reader} (h : r.Sound) : r.scope.stop ≤ r.data.size := by
  obtain ⟨rest, he⟩ := r.stops_eq_cons
  have hlast : r.data.size ∈ r.stops := List.mem_append_right _ (.head _)
  have hp := h.nested
  rw [he] at hp hlast
  rcases List.mem_cons.mp hlast with heq | hmem
  · exact Nat.le_of_eq heq.symm
  · exact (List.pairwise_cons.mp hp).1 _ hmem

/-- What is in the innermost scope is in the buffer, so that a read of bytes that are left succeeds. -/
theorem Sound.read_eq {r : Reader} (h : r.Sound) {n : Nat} (hn : n ≤ r.remaining) :
    r.read n = .ok (r.data.window r.pos (r.pos + n), { r with pos := r.pos + n }) := by
  have hle : r.pos + n ≤ r.data.size := by
    have hpos := h.pos_le
    have hstop := h.stop_le
    unfold remaining at hn
    omega
  rw [read, if_pos hn, if_pos hle]

/-- The windows of the scopes decide what is sound, besides the position. -/
theorem Sound.congr {r r' : Reader} (h : r.Sound) (hd : r'.data = r.data) (hf : r'.frames = r.frames)
    (hp : r'.pos ≤ r.data.size) : r'.Sound :=
  ⟨hd ▸ hp, stops_congr hd hf ▸ h.nested⟩

/-- A reader of a whole buffer is sound: its one scope is the buffer. -/
theorem sound_ofBuffer (data : Buffer) (order : ByteOrder) : (ofBuffer data order).Sound :=
  ⟨Nat.zero_le _, List.pairwise_singleton _ _⟩

/-- Moving the position leaves a reader sound, since soundness is about scopes only. -/
theorem Advances.sound {r r' : Reader} (h : r.Advances r') (hs : r.Sound) : r'.Sound := by
  refine hs.congr h.data h.frames ?_
  have h1 := h.upper
  have h2 := hs.stop_le
  have h3 := hs.pos_le
  omega

theorem frames_adopt (r : Reader) (bindings : Table Value) : (r.adopt bindings).frames = r.frames := by
  unfold adopt frames
  cases r.scopes <;> rfl

/-- Closing the innermost scope leaves the frames around it. -/
theorem leave_eq_ok {r : Reader} {s : Scope} {rest : List Scope} (h : r.frames = s :: rest) :
    ∃ r', r.leave = .ok r' ∧ r'.data = r.data ∧ r'.order = r.order ∧ r'.frames = rest ∧
      r'.pos = if s.isOverlay then r.pos else s.stop := by
  unfold leave
  cases hs : r.scopes with
  | nil => rw [frames, hs] at h; cases h
  | cons s' rest' =>
      rw [frames, hs, List.map_cons] at h
      obtain ⟨rfl, rfl⟩ := List.cons.inj h
      dsimp only
      -- An overlay hands its bindings down and leaves the position, any other scope drops them and ends at its end.
      by_cases ho : s'.isOverlay = true
      · rw [if_pos ho]
        refine ⟨_, rfl, ?_, ?_, frames_adopt _ _, ?_⟩
        · unfold adopt; cases rest' <;> rfl
        · unfold adopt; cases rest' <;> rfl
        · rw [if_pos (show s'.frame.isOverlay = true from ho)]
          unfold adopt; cases rest' <;> rfl
      · rw [if_neg ho]
        exact ⟨_, rfl, rfl, rfl, rfl, (if_neg ho).symm⟩

/-- A window inside the innermost scope leaves the reader sound. -/
theorem Sound.push {r : Reader} (h : r.Sound) {s : Scope} (hs : s.stop ≤ r.scope.stop) :
    ({ r with scopes := s :: r.scopes } : Reader).Sound := by
  refine ⟨h.pos_le, ?_⟩
  show (s.stop :: r.stops).Pairwise (· ≤ ·)
  obtain ⟨rest, he⟩ := r.stops_eq_cons
  have hn := h.nested
  refine List.pairwise_cons.mpr ⟨fun stop hm => ?_, hn⟩
  rw [he] at hn hm
  rcases List.mem_cons.mp hm with rfl | hm
  · exact hs
  · exact Nat.le_trans hs ((List.pairwise_cons.mp hn).1 stop hm)

/-- A scope is entered where it fits, and then it begins at the position. -/
theorem enter_eq_ok {r r' : Reader} {size : Nat} (h : r.enter size = .ok r') :
    r.pos + size ≤ r.scope.stop ∧
      r' = { r with scopes := ⟨r.pos, r.pos + size, none, false, []⟩ :: r.scopes } := by
  unfold enter at h
  by_cases hs : r.pos + size ≤ r.scope.stop
  · rw [if_pos hs] at h
    exact ⟨hs, (Except.ok.inj h).symm⟩
  · rw [if_neg hs] at h; cases h

/-- Unwinding drops the scopes that a failed step has left open, and none below them. -/
theorem frames_unwind {r before : Reader} (h : before.frames <:+ r.frames) :
    (r.unwind before.scopes.length).frames = before.frames := by
  obtain ⟨opened, h⟩ := h
  have hl : before.scopes.length = before.frames.length := (List.length_map _).symm
  have hr : r.scopes.length = opened.length + before.frames.length := by
    rw [← List.length_map (f := Scope.frame), ← List.length_append, h]
    rfl
  show (r.scopes.drop (r.scopes.length - before.scopes.length)).map Scope.frame = before.frames
  rw [List.map_drop, hl, hr, Nat.add_sub_cancel]
  show r.frames.drop opened.length = before.frames
  rw [← h, List.drop_left]

end Reader

/-! ## Steps that succeed, and steps that fail -/

namespace Run

/-- The run `r'` has the scopes, the path and the depth of `r`, and may have more behind it. -/
structure Returns (r r' : Run) : Prop where
  data : r'.reader.data = r.reader.data
  order : r'.reader.order = r.reader.order
  frames : r'.reader.frames = r.reader.frames
  path : r'.path = r.path
  depth : r'.depth = r.depth
  nodes : r.nodes ≤ r'.nodes
  recovered : r.recovered <:+ r'.recovered
  sound : r.reader.Sound → r'.reader.Sound

/-- The run `r'` has the scopes of `r` open, and maybe others in them. -/
structure Aborts (r r' : Run) : Prop where
  data : r'.reader.data = r.reader.data
  order : r'.reader.order = r.reader.order
  frames : r.reader.frames <:+ r'.reader.frames
  path : r'.path = r.path
  nodes : r.nodes ≤ r'.nodes
  recovered : r.recovered <:+ r'.recovered
  sound : r.reader.Sound → r'.reader.Sound

/-- From inside its scope, the run does not move backwards, and it stays inside. -/
def Forward (r r' : Run) : Prop :=
  r.pos ≤ r.reader.scope.stop → r.pos ≤ r'.pos ∧ r'.pos ≤ r.reader.scope.stop

theorem Returns.refl (r : Run) : r.Returns r :=
  ⟨rfl, rfl, rfl, rfl, rfl, Nat.le_refl _, List.suffix_refl _, id⟩

theorem Returns.trans {r r' r'' : Run} (h : r.Returns r') (h' : r'.Returns r'') : r.Returns r'' :=
  ⟨h'.data.trans h.data, h'.order.trans h.order, h'.frames.trans h.frames, h'.path.trans h.path,
    h'.depth.trans h.depth, Nat.le_trans h.nodes h'.nodes, h.recovered.trans h'.recovered,
    fun hs => h'.sound (h.sound hs)⟩

theorem Returns.stop {r r' : Run} (h : r.Returns r') : r'.reader.scope.stop = r.reader.scope.stop :=
  Reader.scope_stop_congr h.data h.frames

theorem Returns.aborts {r r' : Run} (h : r.Returns r') : r.Aborts r' :=
  ⟨h.data, h.order, h.frames ▸ List.suffix_refl _, h.path, h.nodes, h.recovered, h.sound⟩

/-- A step that returns and one that aborts are together one that aborts. -/
theorem Returns.trans_aborts {r r' r'' : Run} (h : r.Returns r') (h' : r'.Aborts r'') : r.Aborts r'' :=
  ⟨h'.data.trans h.data, h'.order.trans h.order, h.frames ▸ h'.frames, h'.path.trans h.path,
    Nat.le_trans h.nodes h'.nodes, h.recovered.trans h'.recovered, fun hs => h'.sound (h.sound hs)⟩

/-- Once what a failed field left open is closed, the run has come back. -/
theorem Aborts.afterFailure {r r' : Run} (h : r.Aborts r') (f : Field) (e : Failure) :
    r.Returns (Decoder.afterFailure f r r' e) := by
  have hf := Reader.frames_unwind h.frames
  refine ⟨h.data, h.order, hf, rfl, rfl, h.nodes, ?_, fun hs => ?_⟩
  · exact h.recovered.trans (List.suffix_cons _ _)
  · exact hs.congr h.data hf (h.data ▸ (h.sound hs).pos_le)

/-- Moving to an offset of the buffer changes the position alone. -/
theorem Returns.jump {r r' : Run} (h : r.Returns r') {offset : Nat}
    (ho : r.reader.Sound → offset ≤ r.reader.data.size) :
    r.Returns { r' with reader := { r'.reader with pos := offset } } :=
  ⟨h.data, h.order, h.frames, h.path, h.depth, h.nodes, h.recovered, fun hs =>
    (h.sound hs).congr rfl rfl (h.data.symm ▸ ho hs)⟩

/-- Two steps that do not turn back do not turn back together. -/
theorem Forward.trans {r r' r'' : Run} (hr : r.Returns r') (h : r.Forward r') (h' : r'.Forward r'') :
    r.Forward r'' := by
  intro hp
  obtain ⟨h1, h2⟩ := h hp
  obtain ⟨h3, h4⟩ := h' (by rw [hr.stop]; exact h2)
  exact ⟨Nat.le_trans h1 h3, hr.stop ▸ h4⟩

theorem Reads.returns {r r' : Run} (h : r.Reads r') : r.Returns r' := by
  obtain ⟨reader, rfl⟩ : ∃ reader, r' = { r with reader } := ⟨_, h.rest⟩
  exact ⟨h.reader.data, h.reader.order, h.reader.frames, rfl, rfl, Nat.le_refl _, List.suffix_refl _,
    h.reader.sound⟩

theorem Reads.forward {r r' : Run} (h : r.Reads r') : r.Forward r' := by
  intro hp
  have h1 := h.reader.lower
  have h2 := h.reader.upper
  unfold Run.pos at hp ⊢
  omega

end Run

namespace Decoding

variable {α β : Type} {b : Bool}

/-- What succeeds returns, and does not move backwards if nothing in it does; what fails aborts. -/
def Balanced (b : Bool) (x : Decoding α) : Prop :=
  ∀ r, (x r).Satisfies (fun _ r' => r.Returns r' ∧ (b = true → r.Forward r')) (fun _ r' => r.Aborts r')

namespace Balanced

theorem returns {x : Decoding α} (h : x.Balanced b) {r r' : Run} {a : α} (hx : x r = .done a r') :
    r.Returns r' := by
  have := h r
  rw [hx] at this
  exact this.1

theorem forward {x : Decoding α} (h : x.Balanced true) {r r' : Run} {a : α} (hx : x r = .done a r') :
    r.Forward r' := by
  have := h r
  rw [hx] at this
  exact this.2 rfl

theorem aborts {x : Decoding α} (h : x.Balanced b) {r r' : Run} {f : Failure} (hx : x r = .failed f r') :
    r.Aborts r' := by
  have := h r
  rw [hx] at this
  exact this

theorem reading {x : Decoding α} (h : x.Reading) : x.Balanced b := fun r =>
  (h r).2.mono (fun _ _ h => ⟨h.returns, fun _ => h.forward⟩) (fun _ _ h => h.1.returns.aborts)

theorem bind {x : Decoding α} {f : α → Decoding β} (hx : x.Balanced b)
    (hf : ∀ a, x.Yields a → (f a).Balanced b) : (x >>= f).Balanced b := by
  intro r
  rw [bind_apply]
  cases hr : x r with
  | done a r' =>
      have h := hx.returns hr
      refine (hf a ⟨r, r', hr⟩ r').mono (fun _ r'' h' => ⟨h.trans h'.1, fun hb => ?_⟩)
        (fun _ _ h' => h.trans_aborts h')
      subst hb
      exact (hx.forward hr).trans h (h'.2 rfl)
  | failed e r' => exact hx.aborts hr
  | unfinished => trivial

/-- Naming the place opens a segment of the path and closes it again on every way out. -/
theorem within {x : Decoding α} (segment : String) (type : FieldType) (h : x.Balanced b) :
    (within segment type x).Balanced b := by
  intro r
  unfold Decoding.within
  cases hr : x { r with path := segment :: r.path } with
  | done a r' =>
      have h' := h.returns hr
      refine ⟨⟨h'.data, h'.order, h'.frames, rfl, h'.depth, h'.nodes, h'.recovered, h'.sound⟩, fun hb => ?_⟩
      subst hb
      have hm := h.forward hr
      exact hm
  | failed e r' =>
      have h' := h.aborts hr
      exact ⟨h'.data, h'.order, h'.frames, rfl, h'.nodes, h'.recovered, h'.sound⟩
  | unfinished => trivial

/-- A stream is decoded by a reader of its own, and the outer one is put back afterwards. -/
theorem inBuffer (d : Decoder) {x : Decoding α} (data : Buffer) (h : x.Balanced false) :
    (d.inBuffer data x).Balanced b := by
  intro r
  unfold Decoder.inBuffer
  cases hr : x { r with reader := .ofBuffer data d.schema.order } with
  | done a r' =>
      have h' := h.returns hr
      exact ⟨⟨rfl, rfl, rfl, rfl, rfl, h'.nodes, h'.recovered, id⟩, fun _ hp => ⟨Nat.le_refl _, hp⟩⟩
  | failed e r' =>
      have h' := h.aborts hr
      exact ⟨rfl, rfl, List.suffix_refl _, rfl, h'.nodes, h'.recovered, id⟩
  | unfinished => trivial

/-- A step in a scope that `inner` has on top of those of `r`, where closing the scope moves to `stop`. -/
theorem inScope {x : Decoding α} (h : x.Balanced b) {r inner : Run} {s : Scope}
    (hi : inner = { r with reader := inner.reader }) (hd : inner.reader.data = r.reader.data)
    (ho : inner.reader.order = r.reader.order) (hf : inner.reader.frames = s :: r.reader.frames)
    (hs : r.reader.Sound → inner.reader.Sound)
    (hp : ∀ r' : Run, r.reader.Sound → r'.reader.Sound → r'.reader.data = r.reader.data →
      (if s.isOverlay then r'.pos else s.stop) ≤ r.reader.data.size)
    (hm : b = true → ∀ r' : Run, inner.Forward r' → r.pos ≤ r.reader.scope.stop →
      r.pos ≤ (if s.isOverlay then r'.pos else s.stop) ∧
        (if s.isOverlay then r'.pos else s.stop) ≤ r.reader.scope.stop) :
    ((do let a ← x; .move (·.leave); pure a : Decoding α) inner).Satisfies
      (fun _ r' => r.Returns r' ∧ (b = true → r.Forward r')) (fun _ r' => r.Aborts r') := by
  have hpath : inner.path = r.path := by rw [hi]
  have hdepth : inner.depth = r.depth := by rw [hi]
  have hnodes : inner.nodes = r.nodes := by rw [hi]
  have hrec : inner.recovered = r.recovered := by rw [hi]
  cases hr : x inner with
  | done a r' =>
      have h' := h.returns hr
      -- the step left the frames as they were, so `s` is the scope that is closed
      obtain ⟨left, hl, hld, hlo, hlf, hlp⟩ := Reader.leave_eq_ok (h'.frames.trans hf)
      have hd' := hld.trans (h'.data.trans hd)
      rw [bind_done hr, bind_done (move_ok (f := fun r => r.leave) hl)]
      refine ⟨⟨hd', hlo.trans (h'.order.trans ho), hlf, h'.path.trans hpath, h'.depth.trans hdepth,
        hnodes ▸ h'.nodes, hrec ▸ h'.recovered, fun hsound => ?_⟩, fun hb hpos => ?_⟩
      · refine hsound.congr hd' hlf ?_
        show left.pos ≤ _
        rw [hlp]
        exact hp r' hsound (h'.sound (hs hsound)) (h'.data.trans hd)
      · subst hb
        show r.pos ≤ left.pos ∧ left.pos ≤ _
        rw [hlp]
        exact hm rfl r' (h.forward hr) hpos
  | failed e r' =>
      have h' := h.aborts hr
      have hf' : r.reader.frames <:+ inner.reader.frames := hf ▸ List.suffix_cons _ _
      rw [bind_failed hr]
      exact ⟨h'.data.trans hd, h'.order.trans ho, hf'.trans h'.frames, h'.path.trans hpath,
        hnodes ▸ h'.nodes, hrec ▸ h'.recovered, fun hsound => h'.sound (hs hsound)⟩
  | unfinished => rw [bind_unfinished hr]; trivial

/-- The scope that a size opens is closed behind the body; on failure it is left to be unwound. -/
theorem bounded {x : Decoding α} (size : Nat) (h : x.Balanced b) :
    (Decoder.bounded size x).Balanced b := by
  intro r
  unfold Decoder.bounded
  cases he : r.reader.enter size with
  | error c =>
      rw [bind_failed (move_error (f := fun r => r.enter size) he)]
      exact (Run.Returns.refl r).aborts
  | ok inner =>
      rw [bind_done (move_ok (f := fun r => r.enter size) he)]
      obtain ⟨hsize, rfl⟩ := Reader.enter_eq_ok he
      refine inScope h rfl rfl rfl rfl (fun hs => hs.push hsize) (fun r' hs _ _ => ?_) (fun _ r' _ _ => ?_)
      · exact Nat.le_trans hsize hs.stop_le
      · exact ⟨Nat.le_add_right _ _, hsize⟩

/-- A byte order opens a scope of its own over the same bytes, closed behind the body. -/
theorem overlaid {x : Decoding α} (order : ByteOrder) (h : x.Balanced b) :
    (Decoder.overlaid order x).Balanced b := by
  intro r
  unfold Decoder.overlaid
  rw [bind_done (rfl : modifyReader (·.overlay order) r = .done () { r with reader := r.reader.overlay order })]
  refine inScope h rfl rfl rfl rfl (fun hs => hs.push (Nat.le_refl _)) (fun r' _ hs hd => ?_) (fun _ r' hm hp => ?_)
  · exact hd ▸ hs.pos_le
  · exact hm hp

/-- A field that goes elsewhere returns balanced; that it does not turn back needs a field that does not wander. -/
theorem sought {x : Decoding α} (f : Field) (hf : b = true → ¬ f.Wanders) (h : x.Balanced b) :
    (Decoder.sought f x).Balanced b := by
  intro r
  unfold Decoder.sought
  rw [satisfies_bind]
  refine (Decoder.seek_ensures f r).2.mono (fun before inner hseek => ?_) (fun e r' he => ?_)
  · rw [satisfies_bind]
    have hinner : r.Returns inner := by
      obtain ⟨-, -, rfl⟩ | ⟨-, -, target, ht, rfl⟩ := hseek
      · exact .refl _
      · exact (Run.Returns.refl r).jump fun _ => ht
    refine (h inner).mono (fun a r' h' => ?_) (fun _ _ h' => hinner.trans_aborts h')
    have hr := hinner.trans h'.1
    -- only a field that seeks and does not restore ends somewhere else for good
    obtain ⟨-, rfl, rfl⟩ | ⟨hs, rfl, -⟩ := hseek
    · exact h'
    · unfold Decoder.restore
      by_cases hrestore : f.restore = true
      · simp only [if_pos hrestore]
        exact ⟨hr.jump (·.pos_le), fun _ hp => ⟨Nat.le_refl _, hp⟩⟩
      · simp only [if_neg hrestore]
        exact ⟨hr, fun hb => absurd ⟨hs, by simpa using hrestore⟩ (hf hb)⟩
  · subst he
    exact (Run.Returns.refl _).aborts

theorem counted (d : Decoder) : d.countNode.Balanced b := by
  intro r
  have hr : r.Returns { r with nodes := r.nodes + 1 } :=
    ⟨rfl, rfl, rfl, rfl, rfl, Nat.le_succ _, List.suffix_refl _, id⟩
  rw [Decoder.countNode_apply]
  split
  · exact hr.aborts
  · exact ⟨hr, fun _ hp => ⟨Nat.le_refl _, hp⟩⟩

theorem table (name : String) (start stop : Nat) :
    (modifyReader (·.addTable name start stop)).Balanced b := fun _ =>
  ⟨⟨rfl, rfl, rfl, rfl, rfl, Nat.le_refl _, List.suffix_refl _, fun h => ⟨h.pos_le, h.nested⟩⟩,
    fun _ hp => ⟨Nat.le_refl _, hp⟩⟩

/-- The depth that a struct adds is taken off again behind it; a failure leaves that to the field that gives up. -/
theorem descended (d : Decoder) {x : Decoding α} (h : x.Balanced b) : (d.descended x).Balanced b := by
  intro r
  unfold Decoder.descended
  have hdescend := d.descend_apply r
  by_cases hmax : d.options.maxDepth.toNat < r.depth + 1
  · rw [if_pos hmax] at hdescend
    rw [bind_failed hdescend]
    exact ⟨rfl, rfl, List.suffix_refl _, rfl, Nat.le_refl _, List.suffix_refl _, id⟩
  · rw [if_neg hmax] at hdescend
    rw [bind_done hdescend, satisfies_bind]
    refine (h _).mono (fun a r' h' => ?_) (fun e r' h' => ?_)
    · obtain ⟨hr, hm⟩ := h'
      refine ⟨⟨hr.data, hr.order, hr.frames, hr.path, ?_, hr.nodes, hr.recovered, hr.sound⟩, hm⟩
      show r'.depth - 1 = r.depth
      rw [hr.depth]
      rfl
    · exact ⟨h'.data, h'.order, h'.frames, h'.path, h'.nodes, h'.recovered, h'.sound⟩

/-- What a failed field left open is closed before an error node stands in for it, so that recovering returns too. -/
theorem member (d : Decoder) {x : Decoding (Option Node)} (f : Field) (h : x.Balanced b) :
    (d.member f x).Balanced b := by
  intro r
  rw [Decoder.member_apply]
  cases hr : x r with
  | unfinished => trivial
  | done node r' =>
      have h' : r.Returns r' ∧ (b = true → r.Forward r') := by
        have := h r
        rw [hr] at this
        exact this
      cases node with
      | none => exact h'
      | some node =>
          refine satisfies_bind.mpr ((counted (b := b) d r').mono (fun _ r'' h'' => ?_) fun _ _ h'' => ?_)
          · exact ⟨h'.1.trans h''.1, fun hb => (h'.2 hb).trans h'.1 (h''.2 hb)⟩
          · exact h'.1.trans_aborts h''
  | failed e r' =>
      have h' := h.aborts hr
      dsimp only
      rw [Decoder.settled_error]
      by_cases hrec : d.options.mode = .recover ∧ e.isRecoverable
      · rw [if_pos hrec, satisfies_bind, Decoder.replaceField_apply]
        -- the scopes left open are dropped before the position is chosen
        have hrun := h'.afterFailure f e
        have hstop : (Decoder.afterFailure f r r' e).reader.scope.stop = r.reader.scope.stop := hrun.stop
        dsimp only
        rw [satisfies_bind, hstop]
        refine (counted (b := b) d _).mono (fun _ r'' h'' => ?_) fun _ _ h'' => hrun.trans_aborts h''
        refine ⟨(hrun.trans h''.1).jump fun hs => ?_, fun _ hp => ?_⟩
        · exact Nat.le_trans (Decoder.resumesAt_le f r.pos _) (Nat.max_le.mpr ⟨hs.pos_le, hs.stop_le⟩)
        · have hle := Decoder.resumesAt_le f r.pos r.reader.scope.stop
          exact ⟨Decoder.le_resumesAt f hp, Nat.le_trans hle (Nat.max_le.mpr ⟨hp, Nat.le_refl _⟩)⟩
      · rw [if_neg hrec]
        exact h'

theorem openElements (d : Decoder) {nested : Schema.StructDef → String → Decoding Node} {f : Field}
    {isLast : Decoding Bool} (h : ∀ i, (Decoder.element d nested f i).Balanced b) (hl : isLast.Unmoving)
    (rounds i : Nat) (found : List Node) :
    (Decoder.openElements d nested f isLast rounds i found).Balanced b :=
  Decoder.openElements_of_element (ι := Unit) (P := fun x => ∀ u, (x u).Balanced b) (fun h _ => reading h)
    (fun _ _ => trivial) (fun hx hf u => (hx u).bind fun a ha => hf a ⟨u, ha⟩ u)
    (fun n _ => reading (d.unmoving_checkElements n).reading) (fun n _ => h n) hl rounds i found ()

end Balanced

end Decoding

namespace Decoder

open Decoding

variable {ι : Type}

/-- Every step is balanced, under whatever options and for however many rounds. -/
theorem compositional_balanced (schema : Schema) (options : ι → Options) (rounds : ι → Nat) :
    Compositional schema options rounds fun b {_} x => ∀ i, (x i).Balanced b where
  reading h _ := .reading h
  bind hx hf i := (hx i).bind fun a ha => hf a ⟨i, ha⟩ i
  cancelled i := .reading (unmoving_checkCancelled ⟨schema, options i⟩).reading
  counted i := .counted ⟨schema, options i⟩
  limited n i := .reading (unmoving_checkElements ⟨schema, options i⟩ n).reading
  table name start stop _ := .table name start stop
  within segment type h i := (h i).within segment type
  inBuffer data h i := (h i).inBuffer ⟨schema, options i⟩ data
  bounded size h i := (h i).bounded size
  overlaid order h i := (h i).overlaid order
  sought f hf h i := (h i).sought f hf
  member f h i := ((h i).within f.name f.type).member ⟨schema, options i⟩ f
  openEnded _ _ hc _ h hl i := .openElements _ (fun n => h _ n hc i) hl.unmoving _ _ _

variable (d : Decoder)

/-! ## The parts of a decode -/

section Parts

variable {b : Bool} (rounds : Nat) {nested : StructDef → String → Decoding Node}
  (hn : ∀ b s name, d.schema.Defines s → (b = true → d.schema.Calm s) → (nested s name).Balanced b)
  {f : Field}

include hn

theorem balanced_single (siblings : Option (List Node)) (hc : b = true → d.schema.CalmIn f) :
    (single d nested f siblings).Balanced b :=
  (compositional_balanced d.schema (fun _ : Unit => d.options) fun _ => 0).single
    (fun b s name hs hc _ => hn b s name hs hc) siblings hc ()

theorem balanced_element (i : Nat) (hc : b = true → d.schema.CalmIn f) :
    (element d nested f i).Balanced b :=
  (compositional_balanced d.schema (fun _ : Unit => d.options) fun _ => 0).element
    (fun b s name hs hc _ => hn b s name hs hc) i hc ()

/-- Open-ended arrays are balanced whether or not their field is one of the schema. -/
theorem opens_balanced (hc : b = true → d.schema.CalmIn f) :
    Opens d.schema (fun _ : Unit => d.options) (fun _ => rounds) (fun b {_} x => ∀ i, (x i).Balanced b) b
      (fun _ => nested) f := by
  intro _ isLast hl _
  exact .openElements d (fun i => balanced_element d hn (f := elementField f) i hc) hl.unmoving _ _ _

theorem balanced_guarded (siblings : List Node)
    (hc : b = true → d.schema.CalmIn f ∧ ¬ f.Wanders) : (guarded d rounds nested f siblings).Balanced b :=
  (compositional_balanced d.schema (fun _ : Unit => d.options) fun _ => rounds).guarded
    (fun b s name hs hc _ => hn b s name hs hc) siblings
    (opens_balanced d rounds hn fun hb => (hc hb).1) hc ()

/-- The fields of a struct are balanced, and do not turn back where none of them wanders. -/
theorem balanced_fields {fs : List Field} (found : List Node)
    (hc : b = true → ∀ f ∈ fs, d.schema.CalmIn f ∧ ¬ f.Wanders) :
    (fields d rounds nested fs found).Balanced b :=
  (compositional_balanced d.schema (fun _ : Unit => d.options) fun _ => rounds).fields
    (fun b s name hs hc _ => hn b s name hs hc) found
    (fun f hf => opens_balanced d rounds hn fun hb => (hc hb f hf).1) hc ()

theorem balanced_inside (s : StructDef) (hc : b = true → d.schema.Calm s) :
    (inside d rounds nested s).Balanced b := by
  refine (compositional_balanced d.schema (fun _ : Unit => d.options) fun _ => rounds).inside_of_fields
    (fun _ => balanced_fields d rounds hn [] fun hb f hf => ?_) ()
  exact ⟨(hc hb).calmIn hf, (hc hb).not_wanders hf⟩

end Parts

/-- Decoding a struct is balanced at any depth, and does not turn back where its schema is calm. -/
theorem balanced_struct {b : Bool} (rounds levels : Nat) (s : StructDef) (name : String)
    (hc : b = true → d.schema.Calm s) : (d.struct rounds levels s name).Balanced b := by
  induction levels generalizing b s name with
  | zero => intro r; trivial
  | succ levels ih =>
      have hinside := d.balanced_inside rounds (fun _ s name _ hc => ih s name hc) s hc
      show (d.structWith rounds (d.struct rounds levels) s name).Balanced b
      rw [structWith_eq]
      refine (hinside.descended d).bind fun p _ => ?_
      exact (Balanced.reading Reading.pos).bind fun stop _ => .reading (.pure _)

end Decoder

end BinaryFormat
