import BinaryFormat.Proofs.Lookahead
import BinaryFormat.Proofs.Simulation

/-!
# What a scope keeps out

The bytes behind the end of a scope have no influence on what is decoded in it. Reads, searches and expressions
stop at the end of the scope by themselves. What looks at the buffer by offsets of its own, a checksum or a string
table, only gets to offsets that decoding has been at before; that is where seeks have to be ruled out, and
recovery, which may leave a scope by its start.

A field that holds a struct opens its scope last. Its size, and what its switch chooses, are found out in the scope
around it, where `until_marker` sees what lies behind the field.
-/

namespace BinaryFormat

open Schema (Field StructDef)
open Decoding

/-! ## Another buffer under a run -/

/-- The reader over another buffer. -/
def Reader.withData (data : Buffer) (r : Reader) : Reader := { r with data }

/-- The run over another buffer. -/
def Run.withData (data : Buffer) (r : Run) : Run := { r with reader := r.reader.withData data }

/-- The outcome with its run over another buffer. -/
def Outcome.withData {α : Type} (data : Buffer) : Outcome α → Outcome α
  | .done a r => .done a (r.withData data)
  | .failed e r => .failed e (r.withData data)
  | .unfinished => .unfinished

/-- The two buffers have the same bytes before an offset. -/
def Buffer.AgreeBefore (b b' : Buffer) (stop : Nat) : Prop := ∀ p, p < stop → b'[p]? = b[p]?

namespace Buffer.AgreeBefore

variable {b b' : Buffer} {stop : Nat}

theorem mono {stop' : Nat} (h : b.AgreeBefore b' stop) (hle : stop' ≤ stop) : b.AgreeBefore b' stop' :=
  fun p hp => h p (Nat.lt_of_lt_of_le hp hle)

theorem window_eq (h : b.AgreeBefore b' stop) (start : Nat) : b'.window start stop = b.window start stop := by
  rw [Buffer.window_eq, Buffer.window_eq]
  congr 1
  refine List.ext_getElem? fun p => ?_
  rw [List.getElem?_take, List.getElem?_take]
  split
  · rw [Array.getElem?_toList, Array.getElem?_toList]
    exact h p ‹_›
  · rfl

end Buffer.AgreeBefore

namespace Reader

/-- Neither the position nor a string table lies behind what the scope and the position bound. -/
structure Steady (r : Reader) : Prop where
  pos_le : r.pos ≤ r.scope.stop
  tables_le : ∀ e ∈ r.tables, e.2.2 ≤ r.pos

variable (data : Buffer) (r : Reader)

theorem withData_bind (name : String) (v : Value) :
    (r.withData data).bind name v = (r.bind name v).withData data := by
  unfold bind withData
  dsimp only
  cases r.scopes <;> rfl

/-- Closing a scope looks at no byte. -/
theorem withData_leave : (r.withData data).leave = (r.leave).map (withData data) := by
  obtain ⟨own, pos, scopes, bindings, order, tables⟩ := r
  unfold leave withData
  dsimp only
  cases scopes with
  | nil => rfl
  | cons s rest =>
      dsimp only
      split
      · unfold adopt
        cases rest <;> rfl
      · rfl

/-- The innermost scope ends where it did in a buffer of the same size. -/
theorem withData_scope {data : Buffer} {r : Reader} (h : data.size = r.data.size) :
    (r.withData data).scope.stop = r.scope.stop := by
  rw [scope_stop_eq, scope_stop_eq]
  show (r.frames.head?.map Scope.stop).getD data.size = _
  rw [h]

/-- Closing a scope keeps the string tables. -/
theorem tables_leave {r left : Reader} (h : r.leave = .ok left) : left.tables = r.tables := by
  obtain ⟨data, pos, scopes, bindings, order, tables⟩ := r
  unfold leave at h
  dsimp only at h
  cases scopes with
  | nil => cases h
  | cons s rest =>
      dsimp only at h
      split at h
      · obtain rfl := Except.ok.inj h
        unfold adopt
        cases rest <;> rfl
      · obtain rfl := Except.ok.inj h
        rfl

end Reader

/-- What is in a table afterwards was in it before or has been put there. -/
theorem Table.mem_insertIfNew {α : Type} {t : Table α} {name : String} {a : α} {e : String × α}
    (h : e ∈ t.insertIfNew name a) : e ∈ t ∨ e = (name, a) := by
  have hinsert : ∀ t : Table α, e ∈ t.insert name a → e ∈ t ∨ e = (name, a) := by
    intro t
    induction t with
    | nil => exact fun h => Or.inr (List.mem_singleton.mp h)
    | cons first rest ih =>
        unfold Table.insert
        split
        · intro h
          rcases List.mem_cons.mp h with h | h
          · exact Or.inr h
          · exact Or.inl (.tail _ h)
        · intro h
          rcases List.mem_cons.mp h with h | h
          · exact Or.inl (h ▸ .head _)
          · exact (ih h).imp_left (.tail _)
  unfold Table.insertIfNew at h
  split at h
  · exact Or.inl h
  · exact hinsert t h

/-! ## The same reader over two buffers -/

/-- Two buffers, and the scopes that a reader has open over either. -/
structure Swap where
  data : Buffer
  data' : Buffer
  frames : List Scope

/-- The reader `r'` is `r` over the other buffer, and in the scope that they are in the two buffers are the
same. -/
structure Reader.Swaps (swap : Swap) (r r' : Reader) : Prop where
  data : r.data = swap.data
  withData : r' = r.withData swap.data'
  size : swap.data'.size = swap.data.size
  frames : r.frames = swap.frames
  steady : r.Steady
  agree : swap.data.AgreeBefore swap.data' r.scope.stop

namespace Reader.Swaps

variable {swap : Swap} {r r' q q' : Reader}

/-- A reader that only differs in what lies before the position is swapped alike. -/
theorem congr (h : r.Swaps swap r') (hd : q.data = r.data) (hf : q.frames = r.frames) (hs : q.Steady) :
    q.Swaps swap (q.withData swap.data') := by
  have hstop : q.scope.stop = r.scope.stop := scope_stop_congr hd hf
  exact ⟨hd.trans h.data, rfl, h.size, hf.trans h.frames, hs, hstop ▸ h.agree⟩

/-- A reader that moved on inside its scope is swapped as before. -/
theorem advance (h : r.Swaps swap r') (ha : r.Advances q) : q.Swaps swap (q.withData swap.data') := by
  have hstop : q.scope.stop = r.scope.stop := scope_stop_congr ha.data ha.frames
  refine h.congr ha.data ha.frames ⟨?_, fun e he => ?_⟩
  · rw [hstop]
    exact Nat.le_trans ha.upper (Nat.max_le.mpr ⟨h.steady.pos_le, Nat.le_refl _⟩)
  · exact Nat.le_trans (h.steady.tables_le e (ha.tables ▸ he)) ha.lower

theorem stop (h : r.Swaps swap r') : r'.scope.stop = r.scope.stop := by
  rw [h.withData]
  exact withData_scope (h.size.trans (congrArg Array.size h.data.symm))

theorem start (h : r.Swaps swap r') : r'.scope.start = r.scope.start := by
  rw [h.withData]
  unfold Reader.scope Reader.withData
  cases r.scopes <;> rfl

/-- What a reader without seeks can reach lies in its scope. -/
theorem reach (h : r.Swaps swap r') {p : Nat} (hp : r.InReach p) : p ≤ r.scope.stop :=
  Nat.le_trans hp (Nat.max_le.mpr ⟨h.steady.pos_le, Nat.le_refl _⟩)

theorem window (h : r.Swaps swap r') {stop : Nat} (hs : swap.data.AgreeBefore swap.data' stop) (start : Nat) :
    r'.data.window start stop = r.data.window start stop := by
  rw [h.withData, h.data]
  exact hs.window_eq start

theorem slice (h : r.Swaps swap r') (start length : Nat)
    (hs : swap.data.AgreeBefore swap.data' (start + length)) : r'.slice start length = r.slice start length := by
  have hsize : r'.data.size = r.data.size := by
    rw [h.withData, h.data]
    exact h.size
  unfold Reader.slice
  rw [h.window hs, hsize]

/-- String tables end before the position, so their texts are the same. -/
theorem textAt? (h : r.Swaps swap r') (table : String) (offset : Nat) :
    r'.textAt? table offset = r.textAt? table offset := by
  have htables : r'.tables = r.tables := by
    rw [h.withData]
    rfl
  unfold Reader.textAt?
  rw [htables]
  refine Option.bind_congr fun range hrange => ?_
  have hend : range.2 ≤ r.pos := h.steady.tables_le (table, range) (Table.mem_of_get? hrange)
  dsimp only
  split
  · rename_i hlt
    have hstop : range.1 + offset + (range.2 - (range.1 + offset)) ≤ r.scope.stop := by
      have hpos := h.steady.pos_le
      omega
    rw [h.slice _ _ (h.agree.mono hstop)]
  · rfl

/-- A scope inside the innermost one is opened over both buffers. -/
theorem push (h : r.Swaps swap r') {s : Scope} (hpos : r.pos ≤ s.stop) (hstop : s.stop ≤ r.scope.stop) :
    ({ r with scopes := s :: r.scopes } : Reader).Swaps { swap with frames := s.frame :: swap.frames }
      { r' with scopes := s :: r'.scopes } where
  data := h.data
  withData := by
    rw [h.withData]
    rfl
  size := h.size
  frames := congrArg (s.frame :: ·) h.frames
  steady := ⟨hpos, h.steady.tables_le⟩
  agree := h.agree.mono hstop

/-- It is closed over both, too. -/
theorem leave (h : r.Swaps swap r') {s : Scope} (hstop : s.stop ≤ r.scope.stop)
    (hq : q.Swaps { swap with frames := s :: swap.frames } q') :
    ∃ left left', q.leave = .ok left ∧ q'.leave = .ok left' ∧ left.Swaps swap left' := by
  obtain ⟨left, hleave, hdata, -, hframes, hpos⟩ := leave_eq_ok hq.frames
  have hleave' : q'.leave = .ok (left.withData swap.data') := by
    rw [hq.withData, withData_leave, hleave]
    rfl
  -- The position is inside of the scope that is left, and the one below reaches as far, so it stays inside.
  have hinner : q.scope.stop = s.stop := by
    rw [scope_stop_eq, hq.frames]
    rfl
  have hqpos : q.pos ≤ s.stop := hinner ▸ hq.steady.pos_le
  refine ⟨left, _, hleave, hleave', h.congr ?_ ?_ ⟨?_, fun e he => ?_⟩⟩
  · exact hdata.trans (hq.data.trans h.data.symm)
  · exact hframes.trans h.frames.symm
  · have houter : left.scope.stop = r.scope.stop :=
      scope_stop_congr (hdata.trans (hq.data.trans h.data.symm)) (hframes.trans h.frames.symm)
    rw [houter, hpos]
    split <;> omega
  · have hbefore := hq.steady.tables_le e (tables_leave hleave ▸ he)
    rw [hpos]
    split <;> omega

end Reader.Swaps

/-! ## The same run over two buffers -/

namespace Decoder

variable {d : Decoder}

/-- The likeness of readers over two buffers, in a strict decode without seeks. -/
def isolation (hstrict : d.options.mode = .strict) : Kinship d Swap where
  Alike := Reader.Swaps
  Stuck swap _ r r' := r' = r.withData swap.data'
  Shared swap := swap.data.AgreeBefore swap.data'
  Ranging := False
  pos h := by
    rw [h.withData]
    rfl
  stop h := h.stop
  size h := by
    rw [h.withData, h.data]
    exact h.size
  byteOrder h := by
    rw [h.withData]
    exact Reader.byteOrder_congr rfl rfl
  get? h x := by
    rw [h.withData, Reader.get?_eq, Reader.get?_eq]
    rfl
  textAt? h := h.textAt?
  window h start _ hp := h.window (h.agree.mono (h.reach hp)) start
  slice h start length _ hs := h.slice start length hs
  shared h _ hp := h.agree.mono (h.reach hp)
  advance {_ _ _} h {_} hle hp := by
    rw [h.withData]
    exact h.advance ⟨rfl, rfl, rfl, rfl, hle, hp⟩
  bind {_ r _} h name v := by
    rw [h.withData, Reader.withData_bind]
    exact h.advance (r.advances_bind name v)
  -- The new table ends at the position, and none of a steady reader may end later.
  table {_ r _} h name start := by
    rw [h.withData]
    refine h.congr rfl rfl ⟨h.steady.pos_le, fun e he => ?_⟩
    rcases Table.mem_insertIfNew he with he | rfl
    · exact h.steady.tables_le e he
    · exact Nat.le_refl _
  opened {_ r r'} h {size} hle := by
    let scope : Scope := ⟨r.pos, r.pos + size, none, false, []⟩
    have hopened : r'.opened size = { r' with scopes := scope :: r'.scopes } := by
      rw [h.withData]
      rfl
    refine ⟨_, ?_, fun hq => h.leave (s := scope) hle hq, fun hstuck => hstuck⟩
    rw [hopened]
    exact h.push (s := scope) (Nat.le_add_right _ _) hle
  ofBuffer data := ⟨⟨data, data, []⟩, rfl, rfl, rfl, rfl, ⟨Nat.zero_le _, nofun⟩, fun _ _ => rfl⟩
  stuck h _ := h.withData
  stuck_pos h := by
    rw [h]
    rfl
  stuck_locate h _ := h
  ranging hm := nomatch hstrict.symm.trans hm
  -- Seeks and recovery do not happen here: nothing ranges over the buffer, and the decode is strict.
  jump := False.elim
  unwind hm := nomatch hstrict.symm.trans hm

variable (hstrict : d.options.mode = .strict)

/-- A byte order is set and left over both buffers. -/
theorem similarBodies_isolation (rounds : Nat) : (isolation hstrict).SimilarBodies id d rounds := by
  intro levels s hs hfields swap
  cases ho : s.order with
  | none =>
      rw [id, body_plain _ _ _ ho]
      exact hfields swap
  | some order =>
      rw [id, body_ordered _ _ _ ho]
      rintro r _ ⟨reader, rfl, h⟩
      -- The overlay spans what the scope below it spans, and that is the same over both buffers.
      let scope : Scope := ⟨r.reader.scope.start, r.reader.scope.stop, some order, true, []⟩
      have hover : reader.overlay order = { reader with scopes := scope :: reader.scopes } := by
        unfold Reader.overlay
        rw [h.stop, h.start]
      have hinner : (r.reader.overlay order).Swaps { swap with frames := scope :: swap.frames }
          (reader.overlay order) := by
        rw [hover]
        exact h.push (s := scope) h.steady.pos_le (Nat.le_refl _)
      refine (hfields _ { r with reader := r.reader.overlay order } _ ⟨_, rfl, hinner⟩).bind ?_
      rintro a r' _ ⟨-, q, rfl, hq⟩
      obtain ⟨left, left', hleave, hleave', hout⟩ := h.leave (s := scope) (Nat.le_refl _) hq
      rw [bind_done (move_ok (f := fun r => r.leave) hleave),
        bind_done (move_ok (f := fun r => r.leave) (r := { r' with reader := q }) hleave')]
      exact .done ⟨trivial, left', rfl, hout⟩

/-! ## What decoding gets to without seeks -/

section Steady

variable {α : Type} {K : α → Prop}

/-- Every steady reader is like itself, over one buffer taken twice. -/
theorem isolation_self (hstrict : d.options.mode = .strict) {r : Run} (h : r.reader.Steady) :
    r.Pairs ((isolation hstrict).Alike ⟨r.reader.data, r.reader.data, r.reader.frames⟩) r :=
  ⟨r.reader, rfl, rfl, rfl, rfl, rfl, h, fun _ _ => rfl⟩

/-- A step that does the same over two buffers leaves a steady reader as steady. -/
theorem steady_of_similar {hstrict : d.options.mode = .strict} {x : Decoding α} {r r' : Run} {a : α}
    (hx : (isolation hstrict).Similar ⟨r.reader.data, r.reader.data, r.reader.frames⟩ K x x)
    (h : r.reader.Steady) (hdone : x r = .done a r') : r'.reader.Steady := by
  have hmatch := hx r r (isolation_self hstrict h)
  rw [hdone] at hmatch
  cases hmatch with
  | done hd =>
      obtain ⟨-, reader, -, hswap⟩ := hd
      exact hswap.steady

end Steady

/-- No field that the call is about seeks, and the structs are those of the schema. -/
def Call.SeeksNot (schema : Schema) : Call → Prop
  | .struct _ s _ => schema.Defines s
  | .fields _ fs _ => ∀ f ∈ fs, f.seek = none
  | .field _ f _ | .content _ f _ | .elements _ f _ _ => f.seek = none
  | .single .. => True

section Reaches

variable (hseek : ∀ f, d.schema.HasField f → f.seek = none)

include hstrict hseek

/-- Structs are decoded in the same way over both buffers, at any depth. -/
theorem similar_levels (rounds levels : Nat) (swap : Swap) (s : StructDef) (name : String)
    (hs : d.schema.Defines s) :
    (isolation hstrict).Similar swap ((isolation hstrict).Knows swap) (d.struct rounds levels s name)
      (d.struct rounds levels s name) :=
  Kinship.similar_struct (Mirrors.refl d) (fun f hf => Or.inl (hseek f hf))
    (similarBodies_isolation hstrict rounds) levels swap s name hs

/-- Without seeks each call leaves the reader steady for the next one. -/
theorem Calls.steady {rounds : Nat} {c c' : Call} {r r' : Run} (h : Calls d rounds c r c' r')
    (hc : c.SeeksNot d.schema) (hr : r.reader.Steady) : c'.SeeksNot d.schema ∧ r'.reader.Steady := by
  have hlevels := similar_levels hstrict hseek rounds
  have hm := Mirrors.refl d
  -- over one buffer everything may be compared, the nodes found so far among it
  have hknown : ∀ {r : Run} {found : List Node},
      (isolation hstrict).KnowsAll ⟨r.reader.data, r.reader.data, r.reader.frames⟩ found :=
    fun _ _ => ⟨fun _ _ => rfl, fun _ _ => rfl⟩
  cases h with
  | @body levels s name r r₁ hdescend =>
      refine ⟨fun f hf => hseek f ⟨s, hc, hf⟩, ?_⟩
      obtain ⟨rfl, -⟩ := d.descend_eq_done hdescend
      cases s.order with
      | none => exact hr
      | some order => exact ⟨hr.pos_le, hr.tables_le⟩
  | field _ => exact ⟨hc _ (.head _), hr⟩
  | @next levels f rest found p r r' hstep =>
      let swap : Swap := ⟨r.reader.data, r.reader.data, r.reader.frames⟩
      have hfield : (isolation hstrict).Similar swap (fun o => (isolation hstrict).KnowsAll swap o.toList)
          (d.field rounds (d.struct rounds levels) f found) (d.field rounds (d.struct rounds levels) f found) :=
        Kinship.similar_field hm (hlevels levels) (Or.inl (hc f (.head _))) hknown
      have hsimilar : (isolation hstrict).Similar swap
          (fun p => (isolation hstrict).KnowsAll swap p.1.toList)
          (iteration d rounds (d.struct rounds levels) f found)
          (iteration d rounds (d.struct rounds levels) f found) :=
        (Kinship.similar_checkCancelled hm).bind fun _ _ => Kinship.similar_member hm hfield
      refine ⟨fun g hg => ?_, steady_of_similar hsimilar hr hstep⟩
      cases hp : p.2 with
      | true =>
          rw [hp] at hg
          exact hc g (.tail _ hg)
      | false =>
          rw [hp] at hg
          cases hg
  | @content levels f found r r₁ r' hpresent happroach =>
      obtain rfl := (unmoving_isPresent f).eq hpresent
      have hsimilar : (isolation hstrict).Similar ⟨r.reader.data, r.reader.data, r.reader.frames⟩ (fun _ => True)
          (approach f) (approach f) := by
        unfold approach seek
        rw [show f.seek = none from hc]
        exact (Kinship.Similar.pure (K := fun _ => True) trivial).bind fun _ _ => Kinship.similar_align _
      exact ⟨hc, steady_of_similar (r := { r with path := f.name :: r.path }) hsimilar hr happroach⟩
  | once _ => exact ⟨trivial, hr⟩
  | array _ => exact ⟨hc, hr⟩
  | element _ => exact ⟨trivial, hr⟩
  | nextElement hstep =>
      exact ⟨hc, steady_of_similar (Kinship.similar_element hm (hlevels _) _) hr hstep⟩
  | nested _ hheld _ => exact ⟨defines_of_held hheld, hr⟩
  | sized _ hheld _ henter =>
      obtain ⟨-, rfl⟩ := Reader.enter_eq_ok henter
      exact ⟨defines_of_held hheld, Nat.le_add_right _ _, hr.tables_le⟩
  | unpacked _ _ _ _ _ hheld => exact ⟨defines_of_held hheld, Nat.zero_le _, nofun⟩

/-- Without seeks a decode never gets behind the end of the scope it is in. -/
theorem Reaches.steady {rounds : Nat} {data : Buffer} {c : Call} {r : Run} (h : Reaches d rounds data c r) :
    c.SeeksNot d.schema ∧ r.reader.Steady := by
  induction h with
  | root hs => exact ⟨⟨_, hs⟩, Nat.zero_le _, nofun⟩
  | call _ hcall ih => exact hcall.steady hstrict hseek ih.1 ih.2

end Reaches

/-! ## What is decoded in a scope of its own -/

section Sized

variable {α β : Type} {r : Run} {data : Buffer}

/-- Steps in a row do the same over another buffer if each of them does. -/
theorem bind_withData {x : Decoding α} {f : α → Decoding β} {r r' : Run} (hx : x r' = (x r).withData data)
    (hf : ∀ a s, x r = .done a s → f a (s.withData data) = (f a s).withData data) :
    (x >>= f) r' = ((x >>= f) r).withData data := by
  rw [bind_apply, bind_apply, hx]
  cases hr : x r with
  | done a s => exact hf a s hr
  | failed e s => rfl
  | unfinished => rfl

/-- Closing a scope does the same over another buffer. -/
theorem leave_withData (r : Run) :
    Decoding.move (·.leave) (r.withData data) = (Decoding.move (·.leave) r).withData data := by
  have hleave := Reader.withData_leave data r.reader
  cases h : r.reader.leave with
  | ok left =>
      rw [h] at hleave
      rw [move_ok (f := fun r => r.leave) (r := r.withData data) hleave, move_ok (f := fun r => r.leave) h]
      rfl
  | error c =>
      rw [h] at hleave
      rw [move_error (f := fun r => r.leave) (r := r.withData data) hleave, move_error (f := fun r => r.leave) h]
      rfl

/-- Runs that match from a reader and the same reader over another buffer differ by the buffer alone. -/
theorem withData_of_matches {hstrict : d.options.mode = .strict} {swap : Swap} {K : α → Prop} {o o' : Outcome α}
    (h : Outcome.Matches (fun a r s => K a ∧ Run.Pairs ((isolation hstrict).Alike swap) r s)
      (fun e => Run.Pairs ((isolation hstrict).Stuck swap e)) o o') : o' = o.withData swap.data' := by
  cases h with
  | done hd =>
      obtain ⟨-, reader, rfl, hswap⟩ := hd
      obtain rfl := hswap.withData
      rfl
  | failed he =>
      obtain ⟨reader, rfl, hover⟩ := he
      obtain rfl : reader = _ := hover
      rfl
  | unfinished => rfl

/-- A step in a scope that ends before the buffers part does the same over both. -/
theorem bounded_withData {hstrict : d.options.mode = .strict} {x : Decoding α} {size : Nat}
    (hx : ∀ swap, (isolation hstrict).Similar swap (fun _ => True) x x) (hr : r.reader.Steady)
    (hsize : data.size = r.reader.data.size) (hagree : r.reader.data.AgreeBefore data (r.pos + size)) :
    bounded size x (r.withData data) = (bounded size x r).withData data := by
  have hstop : (r.reader.withData data).scope.stop = r.reader.scope.stop := Reader.withData_scope hsize
  unfold bounded
  -- buffers of the same size leave the same room, so the scope is opened over both or refused over both
  by_cases hle : r.reader.pos + size ≤ r.reader.scope.stop
  · have hle' : (r.reader.withData data).pos + size ≤ (r.reader.withData data).scope.stop := hstop ▸ hle
    have henter : r.reader.enter size = .ok (r.reader.opened size) := if_pos hle
    have henter' : (r.reader.withData data).enter size = .ok ((r.reader.withData data).opened size) := if_pos hle'
    rw [bind_done (move_ok (f := fun r => r.enter size) (r := r.withData data) henter'),
      bind_done (move_ok (f := fun r => r.enter size) henter)]
    let swap : Swap := ⟨r.reader.data, data, ⟨r.reader.pos, r.reader.pos + size, none, false, []⟩ :: r.reader.frames⟩
    have hswap : (r.reader.opened size).Swaps swap ((r.reader.withData data).opened size) :=
      ⟨rfl, rfl, hsize, rfl, ⟨Nat.le_add_right _ _, hr.tables_le⟩, hagree⟩
    have hmatch := withData_of_matches (hx swap { r with reader := r.reader.opened size } _ ⟨_, rfl, hswap⟩)
    exact bind_withData hmatch fun a s _ => bind_withData (leave_withData s) fun _ _ _ => rfl
  · have hle' : ¬ (r.reader.withData data).pos + size ≤ (r.reader.withData data).scope.stop := hstop ▸ hle
    have henter : r.reader.enter size = .error (.scopeTooLong size r.reader.pos r.reader.scope.stop) := if_neg hle
    have henter' : (r.reader.withData data).enter size =
        .error (.scopeTooLong size r.reader.pos r.reader.scope.stop) := hstop ▸ if_neg hle'
    rw [bind_failed (move_error (f := fun r => r.enter size) (r := r.withData data) henter'),
      bind_failed (move_error (f := fun r => r.enter size) henter)]
    rfl

end Sized

/-! ## What is found out in the scope around -/

/-- The step only looks, and it sees the same over every buffer of the same size. -/
structure Blind {α : Type} (x : Decoding α) : Prop where
  unmoving : x.Unmoving
  withData : ∀ {r : Run} {data : Buffer}, data.size = r.reader.data.size → x (r.withData data) = (x r).withData data

namespace Blind

variable {α β : Type}

theorem pure (a : α) : Blind (pure a) := ⟨.pure a, fun _ => rfl⟩

theorem fail (c : Cause) : Blind (Decoding.fail c : Decoding α) := ⟨.fail c, fun _ => rfl⟩

theorem bind {x : Decoding α} {f : α → Decoding β} (hx : Blind x) (hf : ∀ a, Blind (f a)) : Blind (x >>= f) where
  unmoving := hx.unmoving.bind fun a => (hf a).unmoving
  withData hsize := bind_withData (hx.withData hsize) fun a _ h => by
    obtain rfl := hx.unmoving.eq h
    exact (hf a).withData hsize

/-- How much is left depends on the size of the buffer, not on its bytes. -/
theorem remaining : Blind (Decoding.run >>= fun run => (Pure.pure run.reader.remaining : Decoding Nat)) where
  unmoving := Unmoving.run.bind fun _ => .pure _
  withData {r data} hsize := by
    have hremaining : (r.withData data).reader.remaining = r.reader.remaining :=
      congrArg (· - r.pos) (Reader.withData_scope hsize)
    show Outcome.done (r.withData data).reader.remaining (r.withData data) = _
    rw [hremaining]
    rfl

/-- An expression that does not look ahead sees the names and the number of bytes left, and no byte. -/
theorem eval {e : Expression} (he : e.tree.looksAhead = false) : Blind (Decoding.eval e) where
  unmoving := .eval e
  withData {r data} hsize := by
    have halike : r.reader.environment.Alike (r.withData data).reader.environment := by
      refine ⟨fun x => ?_, congrArg (· - r.pos) (Reader.withData_scope hsize)⟩
      show (r.reader.withData data).get? x = r.reader.get? x
      rw [Reader.get?_eq, Reader.get?_eq]
      rfl
    unfold Decoding.eval
    rw [Expr.eval_congr halike e.tree he]
    cases e.tree.eval r.reader.environment <;> rfl

theorem integer (v : Value) : Blind (Decoding.integer v) where
  unmoving := .integer v
  withData _ := by
    unfold Decoding.integer
    cases v.toInt <;> rfl

theorem evalNat (role : String) {e : Expression} (he : e.tree.looksAhead = false) :
    Blind (Decoding.evalNat role e) := by
  refine (eval he).bind fun v => (integer v).bind fun n => ?_
  split
  · exact fail _
  · exact pure _

end Blind

/-- None of the expressions by which the field finds out its size and its struct looks ahead. -/
structure LooksNowhere (f : Field) : Prop where
  size : ∀ e, f.size = some (.computed e) → e.tree.looksAhead = false
  discriminant : ∀ s, f.switch = some s → s.discriminant.tree.looksAhead = false
  cases : ∀ s, f.switch = some s → ∀ c ∈ s.cases, c.value.tree.looksAhead = false

section LooksNowhere

variable {f : Field} (hf : LooksNowhere f)

include hf

/-- The size of a field is found out without looking at the bytes. -/
theorem blind_fieldSize : Blind (fieldSize f) := by
  unfold fieldSize
  split
  · exact .pure _
  · exact .remaining
  · exact .evalNat _ (hf.size _ ‹_›)
  · exact .fail _

/-- The cases of a switch are compared without looking at the bytes. -/
theorem blind_target : Blind (target f) := by
  -- The cases are tried one after the other, so this goes by induction on them.
  have hchosen : ∀ (v : Value) (cases : List Schema.SwitchCase),
      (∀ c ∈ cases, c.value.tree.looksAhead = false) → Blind (chosenCase v cases) := by
    intro v cases
    induction cases with
    | nil => exact fun _ => .pure _
    | cons c rest ih =>
        intro hcases
        refine (Blind.eval (hcases c (.head _))).bind fun w => ?_
        split
        · exact .pure _
        · exact ih fun c' hc' => hcases c' (.tail _ hc')
  unfold target
  split
  · split
    · exact .fail _
    · rename_i s hs
      refine (Blind.eval (hf.discriminant s hs)).bind fun v =>
        (hchosen v s.cases (hf.cases s hs)).bind fun chosen => ?_
      split
      · exact .pure _
      · exact .fail _
  · split
    · exact .pure _
    · exact .fail _

theorem blind_held : Blind (held d f) := by
  refine (blind_target hf).bind fun name => ?_
  unfold structDef
  split
  · exact .pure _
  · exact .fail _

end LooksNowhere

/-- What a field that holds a struct finds out in the scope around it comes out the same over both buffers: its
size and the struct. -/
structure ResolvesAlike (d : Decoder) (f : Field) (r : Run) (data data' : Buffer) : Prop where
  size : fieldSize f (r.withData data') = (fieldSize f (r.withData data)).withData data'
  held : held d f (r.withData data') = (held d f (r.withData data)).withData data'

/-- If nothing looks ahead, size and struct come out the same over buffers of the same size. -/
theorem LooksNowhere.resolvesAlike {f : Field} {r : Run} {data data' : Buffer} (hf : LooksNowhere f)
    (hsize : data'.size = data.size) : d.ResolvesAlike f r data data' :=
  ⟨(blind_fieldSize hf).withData (r := r.withData data) hsize, (blind_held hf).withData (r := r.withData data) hsize⟩

/-! ## What is decoded in a field with a size -/

/-- In a strict decode without seeks, a field with a size that holds a struct is decoded in the same way over
any two buffers that have the same bytes up to the end of the field, provided that its size, and what its switch
chooses, come out the same. For these are found out in the scope around it, where `until_marker` looks further; if
none of the expressions calls it, they do come out the same. -/
theorem single_withData (hstrict : d.options.mode = .strict) (hseek : ∀ f, d.schema.HasField f → f.seek = none)
    {rounds levels : Nat} {data : Buffer} {f : Field} {siblings : Option (List Node)} {r : Run}
    (hr : Reaches d rounds data (.single levels f siblings) r) (hf : f.HoldsStruct) (hsized : f.size.isSome = true)
    {data₁ data₂ : Buffer} {size : Nat} (h₁ : data₁.size = r.reader.data.size)
    (h₂ : data₂.size = r.reader.data.size) (hsize : fieldSize f (r.withData data₁) = .done size (r.withData data₁))
    (hagree : data₁.AgreeBefore data₂ (r.pos + size))
    (halike : LooksNowhere f ∨ d.ResolvesAlike f r data₁ data₂) :
    single d (d.struct rounds levels) f siblings (r.withData data₂) =
      (single d (d.struct rounds levels) f siblings (r.withData data₁)).withData data₂ := by
  have hresolves : d.ResolvesAlike f r data₁ data₂ :=
    halike.elim (fun hf => hf.resolvesAlike (h₂.trans h₁.symm)) id
  have hsteady : (r.reader.withData data₁).Steady :=
    ⟨(Reader.withData_scope h₁).symm ▸ (hr.steady hstrict hseek).2.pos_le, (hr.steady hstrict hseek).2.tables_le⟩
  have hnested : ∀ swap s, d.schema.Defines s → (isolation hstrict).Similar swap (fun _ => True)
      (d.struct rounds levels s f.name) (d.struct rounds levels s f.name) := fun swap s hs =>
    (similar_levels hstrict hseek rounds levels swap s f.name hs).mono fun _ _ => trivial
  obtain ⟨declared, hdeclared⟩ := Option.isSome_iff_exists.mp hsized
  -- first the struct and then the size are found out in the scope around, and only then the scope is opened
  rw [single_eq_held hf]
  refine bind_withData hresolves.held fun s r' hs => ?_
  obtain rfl := unmoving_held.eq hs
  rw [structField_sized _ hdeclared]
  refine bind_withData rfl fun start r' hstart => ?_
  obtain ⟨rfl, rfl⟩ := Outcome.done.inj hstart
  refine bind_withData hresolves.size fun size' r' hsize' => ?_
  obtain ⟨rfl, rfl⟩ := Outcome.done.inj (hsize.symm.trans hsize')
  have hbounded : bounded size (d.struct rounds levels s f.name) ((r.withData data₁).withData data₂) =
      (bounded size (d.struct rounds levels s f.name) (r.withData data₁)).withData data₂ :=
    bounded_withData (fun swap => hnested swap s (defines_of_held hs)) hsteady (h₂.trans h₁.symm) hagree
  exact bind_withData hbounded fun _ _ _ => rfl

end Decoder

/-! ## A switch that looks behind its field -/

namespace Gauge

/-- The tokens of `until_marker(0)`. -/
theorem scan?_reach : Token.scan? 0 (stripBraces "until_marker(0)".toList).1 =
    some ⟨[⟨.name "until_marker", ⟨0, 12⟩⟩, ⟨.symbol .openParen, ⟨12, 13⟩⟩, ⟨.int 0, ⟨13, 14⟩⟩,
      ⟨.symbol .closeParen, ⟨14, 15⟩⟩, ⟨.finish, ⟨15, 15⟩⟩], []⟩ := by
  decide +kernel

/-- The tokens of `1`. -/
theorem scan?_one : Token.scan? 0 (stripBraces "1".toList).1 =
    some ⟨[⟨.int 1, ⟨0, 1⟩⟩, ⟨.finish, ⟨1, 1⟩⟩], []⟩ := by
  decide +kernel

/-- The distance to the next zero byte. -/
def reach : Expression where
  source := "until_marker(0)"
  tree := .call "until_marker" [.int 0 ⟨13, 14⟩] ⟨0, 15⟩
  tree_eq := by
    unfold Expr.ofSource Expr.ofText
    rw [scan?_reach]
    rfl

/-- The number one. -/
def one : Expression where
  source := "1"
  tree := .int 1 ⟨0, 1⟩
  tree_eq := by
    unfold Expr.ofSource Expr.ofText
    rw [scan?_one]
    rfl

/-- A field of one byte, whose struct depends on whether a zero byte comes behind it. -/
def item : Field where
  name := "item"
  type := .switch
  size := some (.fixed 1)
  switch := some { discriminant := reach, cases := [⟨one, "last"⟩], fallback := some "inner" }

/-- A decoder whose only field is a switch with a size. -/
def decoder : Decoder where
  schema := {
    name := "gauge"
    structs := [
      ("all", { name := "all", fields := [item] }),
      ("last", { name := "last", fields := [{ name := "x", type := .u8 }] }),
      ("inner", { name := "inner", fields := [{ name := "y", type := .u8 }] })]
    root := "all" }
  options := {}

/-- The run with which a decode comes to the field. -/
def run : Run where
  reader := .ofBuffer #[5, 3, 0] .little
  path := ["item"]
  depth := 1
  nodes := 1
  recovered := []

/-- A decode gets to the field first of all. -/
theorem reaches_item : Decoder.Reaches decoder 0 #[5, 3, 0] (.single 256 item (some [])) run :=
  .call (.call (.call (.call (.root rfl) (.body rfl)) (.field rfl)) (.content rfl rfl)) (.once rfl)

theorem seek_eq_none : ∀ f, decoder.schema.HasField f → f.seek = none := by
  rintro f ⟨s, ⟨name, hs⟩, hf⟩
  have hmem : ∀ e ∈ decoder.schema.structs, ∀ f ∈ e.2.fields, f.seek.isNone = true := by decide
  exact Option.isNone_iff_eq_none.mp (hmem _ (Table.mem_of_get? hs) f hf)

/-- The buffers have the one byte of the field in common. -/
theorem agreeBefore_one (b b' : UInt8) : Buffer.AgreeBefore #[5, b, 0] #[5, b', 0] 1 := by
  intro p hp
  obtain rfl : p = 0 := by omega
  rfl

/-- The byte behind the field may be another one, as long as it is not zero. -/
theorem single_withData_four : Decoder.ResolvesAlike decoder item run #[5, 3, 0] #[5, 4, 0] ∧
    Decoder.single decoder (decoder.struct 0 256) item (some []) (run.withData #[5, 4, 0]) =
      (Decoder.single decoder (decoder.struct 0 256) item (some [])
        (run.withData #[5, 3, 0])).withData #[5, 4, 0] := by
  have halike : Decoder.ResolvesAlike decoder item run #[5, 3, 0] #[5, 4, 0] := ⟨rfl, rfl⟩
  exact ⟨halike, Decoder.single_withData rfl seek_eq_none reaches_item (Or.inr rfl) rfl rfl rfl rfl
    (agreeBefore_one 3 4) (Or.inr halike)⟩

/-- With a zero byte behind it the field holds another struct, although its size is the same. -/
theorem single_sees_behind :
    decoder.options.mode = .strict ∧ (∀ f, decoder.schema.HasField f → f.seek = none) ∧
    Decoder.Reaches decoder 0 #[5, 3, 0] (.single 256 item (some [])) run ∧ item.HoldsStruct ∧
    Decoder.fieldSize item (run.withData #[5, 3, 0]) = .done 1 (run.withData #[5, 3, 0]) ∧
    Decoder.fieldSize item (run.withData #[5, 0, 0]) = .done 1 (run.withData #[5, 0, 0]) ∧
    Buffer.AgreeBefore #[5, 3, 0] #[5, 0, 0] (run.pos + 1) ∧
    ∃ n n' r r',
      Decoder.single decoder (decoder.struct 0 256) item (some []) (run.withData #[5, 3, 0]) = .done n r ∧
      Decoder.single decoder (decoder.struct 0 256) item (some []) (run.withData #[5, 0, 0]) = .done n' r' ∧
      n.children.map (·.name) = ["y"] ∧ n'.children.map (·.name) = ["x"] :=
  ⟨rfl, seek_eq_none, reaches_item, Or.inr rfl, rfl, rfl, agreeBefore_one 3 0, _, _, _, _, rfl, rfl, rfl, rfl⟩

end Gauge

end BinaryFormat
