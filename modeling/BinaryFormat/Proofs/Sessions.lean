import BinaryFormat.Proofs.Balance

/-!
# Sequences of operations on a reader

A decode opens and closes scopes in pairs. Here the operations come in any order, on their own: scopes are opened
where a seek has led, closed while others seek, and read behind their end. A seek is checked against the buffer only,
so the position may be outside of the innermost scope, before it or behind it.

What holds all the same is `Confined`. Each operation keeps it, or fails and leaves the run alone. And it is enough to
know where a read ends: nothing is left behind the end of a scope, so whoever reads a byte was before it.
-/

namespace BinaryFormat

open Decoding Outcome

namespace Reader

/-- The position and all scopes are in the buffer, and every scope ends in the one around it. -/
structure Confined (data : Buffer) (r : Reader) : Prop where
  data_eq : r.data = data
  pos_le : r.pos ≤ data.size
  ordered : ∀ s ∈ r.allScopes, s.start ≤ s.stop
  nested : (r.allScopes.map Scope.stop).Pairwise (· ≤ ·)
  root : r.allScopes.getLast?.map Scope.stop = some data.size

theorem stops_eq_allScopes (r : Reader) : r.stops = r.allScopes.map Scope.stop := by
  unfold stops frames allScopes
  rw [List.map_append, List.map_map]
  rfl

/-- What has to be kept beside soundness. -/
theorem confined_iff {data : Buffer} {r : Reader} :
    r.Confined data ↔ r.data = data ∧ r.Sound ∧ ∀ s ∈ r.frames, s.start ≤ s.stop := by
  constructor
  · intro h
    refine ⟨h.data_eq, ⟨h.data_eq ▸ h.pos_le, ?_⟩, fun s hs => ?_⟩
    · rw [stops_eq_allScopes]
      exact h.nested
    · obtain ⟨s, hm, rfl⟩ := List.mem_map.1 hs
      exact h.ordered s (List.mem_append_left _ hm)
  · rintro ⟨rfl, hs, ho⟩
    refine ⟨rfl, hs.pos_le, fun s hm => ?_, ?_, ?_⟩
    · -- The base is the last of all scopes. It begins at zero, so it is in order by itself.
      rcases List.mem_append.1 hm with hm | hm
      · exact ho s.frame (List.mem_map_of_mem hm)
      · cases List.mem_singleton.1 hm
        exact Nat.zero_le _
    · rw [← stops_eq_allScopes]
      exact hs.nested
    · unfold allScopes
      rw [List.getLast?_append]
      rfl

/-- A reader whose scopes lie in one another is sound. -/
theorem Confined.sound {data : Buffer} {r : Reader} (h : r.Confined data) : r.Sound := (confined_iff.1 h).2.1

theorem confined_ofBuffer (data : Buffer) (order : ByteOrder) : (ofBuffer data order).Confined data :=
  confined_iff.2 ⟨rfl, sound_ofBuffer data order, nofun⟩

/-! ## What keeps a reader confined -/

theorem Confined.advance {data : Buffer} {r r' : Reader} (h : r.Confined data) (ha : r.Advances r') :
    r'.Confined data := by
  obtain ⟨hd, hs, ho⟩ := confined_iff.1 h
  exact confined_iff.2 ⟨ha.data.trans hd, ha.sound hs, ha.frames ▸ ho⟩

/-- A scope inside the innermost one leaves the reader confined. -/
theorem Confined.push {data : Buffer} {r : Reader} {s : Scope} (h : r.Confined data) (hs : s.start ≤ s.stop)
    (hle : s.stop ≤ r.scope.stop) : ({ r with scopes := s :: r.scopes } : Reader).Confined data := by
  obtain ⟨hd, hr, ho⟩ := confined_iff.1 h
  refine confined_iff.2 ⟨hd, hr.push hle, fun s' hs' => ?_⟩
  rcases List.mem_cons.1 hs' with rfl | hs'
  · exact hs
  · exact ho s' hs'

/-- A seek may leave the scope, but not the buffer. -/
theorem Confined.seek {data : Buffer} {r r' : Reader} {offset : Nat} (h : r.Confined data)
    (hs : r.seek offset = .ok r') : r'.Confined data := by
  obtain ⟨hd, hr, ho⟩ := confined_iff.1 h
  unfold Reader.seek at hs
  split at hs
  · rename_i hle
    cases hs
    exact confined_iff.2 ⟨hd, hr.congr rfl rfl hle, ho⟩
  · cases hs

/-- What is closed leaves the scopes around it as they were. -/
theorem Confined.leave {data : Buffer} {r r' : Reader} (h : r.Confined data) (hl : r.leave = .ok r') :
    r'.Confined data := by
  obtain ⟨hd, hr, ho⟩ := confined_iff.1 h
  cases hf : r.frames with
  | nil =>
      unfold Reader.leave at hl
      rw [frames, List.map_eq_nil_iff] at hf
      rw [hf] at hl
      cases hl
  | cons s rest =>
      obtain ⟨r'', hl', hd', -, hf', hp⟩ := leave_eq_ok hf
      cases hl.symm.trans hl'
      -- the scope ends in the buffer, and so does every scope around it
      have hs : s.stop ≤ r.data.size := by
        have hstop := hr.stop_le
        rwa [scope_stop_eq, hf] at hstop
      have hn : r'.stops.Pairwise (· ≤ ·) := by
        have hn := hr.nested
        unfold stops at hn ⊢
        rw [hf, List.map_cons, List.cons_append] at hn
        rw [hf', hd']
        exact (List.pairwise_cons.1 hn).2
      refine confined_iff.2 ⟨hd'.trans hd, ⟨?_, hn⟩, fun s' hs' => ?_⟩
      · rw [hp, hd']
        split
        · exact hr.pos_le
        · exact hs
      · rw [hf'] at hs'
        exact ho s' (hf ▸ List.mem_cons_of_mem _ hs')

theorem Confined.scope_ordered {data : Buffer} {r : Reader} (h : r.Confined data) : r.scope.start ≤ r.scope.stop := by
  refine h.ordered r.scope ?_
  unfold scope allScopes
  cases r.scopes with
  | nil => exact .head _
  | cons s rest => exact .head _

theorem Confined.addTable {data : Buffer} {r : Reader} (h : r.Confined data) (name : String) (start stop : Nat) :
    (r.addTable name start stop).Confined data := by
  obtain ⟨hd, hs, ho⟩ := confined_iff.1 h
  exact confined_iff.2 ⟨hd, hs.congr rfl rfl hs.pos_le, ho⟩

/-! ## Reading in a confined reader -/

/-- In a sound reader no read is refused for the end of the buffer, as no scope reaches beyond it. -/
theorem Sound.read_ne_pastBuffer {r : Reader} (h : r.Sound) (n : Nat) : r.read n ≠ .error .pastBuffer := by
  intro hread
  by_cases hn : n ≤ r.remaining
  · rw [h.read_eq hn] at hread
    cases hread
  · rw [read, if_neg hn] at hread
    cases hread

/-- What cannot fail once the bytes are there fails as the read of them does. -/
theorem bind_read_eq_error {α : Type} {r : Reader} {n : Nat} {c : Cause}
    {k : List UInt8 × Reader → Except Cause (α × Reader)} (h : r.read n >>= k = .error c)
    (hk : ∀ p, ∃ q, k p = .ok q) : r.read n = .error c := by
  cases hr : r.read n with
  | error c' => rw [hr] at h; cases h; rfl
  | ok p =>
      obtain ⟨q, hq⟩ := hk p
      rw [hr] at h
      cases hq.symm.trans h

/-- What stands before the first NUL byte is read along with it. -/
theorem takeWhile_take {α : Type} (p : α → Bool) {l : List α} {n : Nat}
    (h : min ((l.takeWhile p).length + 1) l.length ≤ n) : (l.take n).takeWhile p = l.takeWhile p := by
  induction l generalizing n with
  | nil => rw [List.take_nil]
  | cons a l ih =>
      rw [List.length_cons] at h
      obtain ⟨n, rfl⟩ := Nat.exists_eq_succ_of_ne_zero (by omega : n ≠ 0)
      rw [List.take_succ_cons, List.takeWhile_cons, List.takeWhile_cons]
      split
      · rename_i hp
        rw [List.takeWhile_cons, if_pos hp, List.length_cons] at h
        rw [ih (by omega)]
      · rfl

/-- The text up to the NUL byte is made of bytes that are read. -/
theorem takeWhile_window {r : Reader} :
    let n := min ((r.unread.takeWhile (· != 0)).length + 1) r.unread.length
    (r.data.window r.pos (r.pos + n)).takeWhile (· != 0) = r.unread.takeWhile (· != 0) := by
  intro n
  have hn : n ≤ r.scope.stop - r.pos := by
    have hl := Buffer.length_window r.data r.pos r.scope.stop
    have : n ≤ (r.data.window r.pos r.scope.stop).length := Nat.min_le_right _ _
    omega
  have hw : r.data.window r.pos (r.pos + n) = r.unread.take n := by
    rw [unread, Buffer.window_eq, Buffer.window_eq, List.drop_take, List.drop_take, List.take_take]
    congr 1
    omega
  rw [hw]
  exact takeWhile_take _ (Nat.le_refl n)

end Reader

/-! ## The operations -/

/-- An operation on a run. -/
inductive Operation where
  | bytes (n : Nat)
  | unsigned (width : Nat)
  | signed (width : Nat)
  | binary32
  | binary64
  | text (n : Nat) (encoding : Text.Encoding)
  | terminated (encoding : Text.Encoding)
  | enter (size : Nat)
  | overlay (order : ByteOrder)
  | leave
  | seek (offset : Nat)
  | align (n : Nat)
  | bind (name : String) (v : Value)
  | addTable (name : String) (start stop : Nat)

namespace Operation

/-- What an operation answers. -/
inductive Answer where
  | nothing
  | bytes (bytes : List UInt8)
  | unsigned (n : UInt64)
  | signed (n : Int64)
  | number (x : Binary64)
  | text (t : String)
  | padding (n : Nat)

/-- The operation as a step of a decode. -/
def step : Operation → Decoding Answer
  | bytes n => .bytes <$> .read (·.read n)
  | unsigned width => .unsigned <$> .read (·.readUnsigned width)
  | signed width => .signed <$> .read (·.readSigned width)
  | binary32 => .number <$> .read (·.readBinary32)
  | binary64 => .number <$> .read (·.readBinary64)
  | text n encoding => .text <$> .read (·.readText n encoding)
  | terminated encoding => .text <$> .read (·.readTerminated encoding)
  | enter size => (fun _ => .nothing) <$> Decoding.move (·.enter size)
  | overlay order => (fun _ => .nothing) <$> Decoding.modifyReader (·.overlay order)
  | leave => (fun _ => .nothing) <$> Decoding.move (·.leave)
  | seek offset => (fun _ => .nothing) <$> Decoding.move (·.seek offset)
  | align n => .padding <$> .read (·.align n)
  | bind name v => (fun _ => .nothing) <$> Decoding.bindName name v
  | addTable name start stop => (fun _ => .nothing) <$> Decoding.modifyReader (·.addTable name start stop)

/-- How many bytes the operation reads, if it reads bytes. -/
def length? (r : Reader) : Operation → Option Nat
  | bytes n | text n _ => some n
  | unsigned width | signed width => some width
  | binary32 => some 4
  | binary64 => some 8
  | terminated _ => some (min ((r.unread.takeWhile (· != 0)).length + 1) r.unread.length)
  | enter _ | overlay _ | leave | seek _ | align _ | bind .. | addTable .. => none

/-- What the operation answers to the bytes it reads. -/
def answer (order : ByteOrder) (read : List UInt8) : Operation → Answer
  | bytes _ => .bytes read
  | unsigned _ => .unsigned (UInt64.ofNat (order.value read))
  | signed _ => .signed (Int64.ofInt (order.signedValue read))
  | binary32 => .number (Binary64.ofBinary32 (UInt32.ofNat (order.value read)))
  | binary64 => .number ⟨UInt64.ofNat (order.value read)⟩
  | text _ encoding => .text (Text.decode encoding read)
  | terminated encoding => .text (Text.decode encoding (read.takeWhile (· != 0)))
  | enter _ | overlay _ | leave | seek _ | align _ | bind .. | addTable .. => .nothing

/-- The operation answered by the `n` bytes at the position, and moved behind them. -/
structure Fetched (op : Operation) (n : Nat) (r : Run) (a : Answer) (r' : Run) : Prop where
  inside : r.pos + n ≤ r.reader.data.size
  answer_eq : a = op.answer r.reader.byteOrder (r.reader.data.window r.pos (r.pos + n))
  moved : r' = { r with reader := { r.reader with pos := r.pos + n } }
  stop_le : n ≠ 0 → r'.pos ≤ r.reader.scope.stop

theorem fetched_of_read {op : Operation} {n : Nat} {r : Run} {reader : Reader} {bytes : List UInt8} {a : Answer}
    (h : r.reader.read n = .ok (bytes, reader)) (ha : a = op.answer r.reader.byteOrder bytes) :
    op.Fetched n r a { r with reader } := by
  obtain ⟨rfl, rfl, hn, hs⟩ := Reader.read_eq_ok h
  refine ⟨hs, ha, rfl, fun h₀ => ?_⟩
  -- behind the end of the scope nothing remains, so only a read of no bytes succeeds there
  unfold Reader.remaining at hn
  show r.reader.pos + n ≤ _
  omega

/-- What a step from a confined run leaves: after a success it is confined, and has read what it was to read; a
failure leaves it alone, and was not for want of bytes in the buffer. -/
def Kept (data : Buffer) (op : Operation) (r : Run) (o : Outcome Answer) : Prop :=
  o.Ensures
    (fun a r' => r'.reader.Confined data ∧ ∀ n, op.length? r.reader = some n → op.Fetched n r a r')
    (fun e r' => r' = r ∧ e.cause ≠ .pastBuffer)

section Steps

variable {data : Buffer} {op : Operation} {r : Run} {α : Type}

/-- An operation that reads keeps the reader confined, and fetches the bytes that it says. -/
theorem kept_read {f : Reader → Except Cause (α × Reader)} {g : α → Answer}
    (hok : ∀ a reader, f r.reader = .ok (a, reader) →
      reader.Confined data ∧ ∀ n, op.length? r.reader = some n → op.Fetched n r (g a) { r with reader })
    (herror : ∀ c, f r.reader = .error c → c ≠ .pastBuffer) : Kept data op r ((g <$> Decoding.read f) r) := by
  rw [map_eq_pure_bind]
  refine ensures_bind ?_
  unfold Decoding.read
  cases hf : f r.reader with
  | ok p => exact ensures_done (ensures_done (hok _ _ hf))
  | error c => exact ensures_failed ⟨rfl, herror c hf⟩

/-- An operation that reads `n` bytes keeps what a read of them keeps. -/
theorem kept_bytes {n : Nat} {f : Reader → Except Cause (α × Reader)} {g : α → Answer}
    (h : r.reader.Confined data) (hn : op.length? r.reader = some n)
    (hok : ∀ a reader, f r.reader = .ok (a, reader) →
      ∃ bytes, r.reader.read n = .ok (bytes, reader) ∧ g a = op.answer r.reader.byteOrder bytes)
    (herror : ∀ c, f r.reader = .error c → r.reader.read n = .error c ∨ c ≠ .pastBuffer) :
    Kept data op r ((g <$> Decoding.read f) r) := by
  refine kept_read (fun a reader hf => ?_) (fun c hf => ?_)
  · obtain ⟨bytes, hr, ha⟩ := hok a reader hf
    refine ⟨h.advance (Reader.advances_read hr), fun m hm => ?_⟩
    cases hn.symm.trans hm
    exact fetched_of_read hr ha
  · rintro rfl
    rcases herror _ hf with hr | hc
    · exact h.sound.read_ne_pastBuffer n hr
    · exact hc rfl

theorem kept_move {f : Reader → Except Cause Reader} (hn : op.length? r.reader = none)
    (hok : ∀ reader, f r.reader = .ok reader → reader.Confined data)
    (herror : ∀ c, f r.reader = .error c → c ≠ .pastBuffer) :
    Kept data op r (((fun _ => .nothing) <$> Decoding.move f) r) := by
  rw [map_eq_pure_bind]
  refine ensures_bind ?_
  unfold Decoding.move
  cases hf : f r.reader with
  | ok reader => exact ensures_done (ensures_done ⟨hok _ hf, fun n h => by rw [hn] at h; cases h⟩)
  | error c => exact ensures_failed ⟨rfl, herror c hf⟩

theorem kept_modifyReader {f : Reader → Reader} (hn : op.length? r.reader = none)
    (h : (f r.reader).Confined data) : Kept data op r (((fun _ => .nothing) <$> modifyReader f) r) :=
  ensures_done ⟨h, fun n h => by rw [hn] at h; cases h⟩

end Steps

/-- Every operation keeps a confined run confined. -/
theorem kept_step {data : Buffer} {r : Run} (h : r.reader.Confined data) (op : Operation) :
    Kept data op r (op.step r) := by
  cases op with
  -- The operations that read: each takes its bytes with one `read` and can only fail where that does, or at a width
  -- that no word has.
  | bytes n => exact kept_bytes h rfl (fun bytes reader hr => ⟨bytes, hr, rfl⟩) (fun c hc => .inl hc)
  | unsigned width =>
      refine kept_bytes h rfl (fun n reader hr => ?_) (fun c hc => ?_)
      · obtain ⟨-, bytes, hb, rfl⟩ := Reader.readUnsigned_eq_ok hr
        exact ⟨bytes, hb, rfl⟩
      · unfold Reader.readUnsigned at hc
        split at hc
        · exact .inl (Reader.bind_read_eq_error hc fun _ => ⟨_, rfl⟩)
        · cases hc
          exact .inr nofun
  | signed width =>
      refine kept_bytes h rfl (fun n reader hr => ?_) (fun c hc => ?_)
      · obtain ⟨-, bytes, hb, rfl⟩ := Reader.readSigned_eq_ok hr
        exact ⟨bytes, hb, rfl⟩
      · unfold Reader.readSigned at hc
        split at hc
        · exact .inl (Reader.bind_read_eq_error hc fun _ => ⟨_, rfl⟩)
        · cases hc
          exact .inr nofun
  | binary32 =>
      refine kept_bytes h rfl (fun x reader hr => ?_) fun c hc =>
        .inl (Reader.bind_read_eq_error hc fun _ => ⟨_, rfl⟩)
      obtain ⟨bytes, hb, rfl⟩ := Reader.readBinary32_eq_ok hr
      exact ⟨bytes, hb, rfl⟩
  | binary64 =>
      refine kept_bytes h rfl (fun x reader hr => ?_) fun c hc =>
        .inl (Reader.bind_read_eq_error hc fun _ => ⟨_, rfl⟩)
      obtain ⟨bytes, hb, rfl⟩ := Reader.readBinary64_eq_ok hr
      exact ⟨bytes, hb, rfl⟩
  | text n encoding =>
      refine kept_bytes h rfl (fun t reader hr => ?_) fun c hc =>
        .inl (Reader.bind_read_eq_error hc fun _ => ⟨_, rfl⟩)
      obtain ⟨bytes, hb, rfl⟩ := Reader.readText_eq_ok hr
      exact ⟨bytes, hb, rfl⟩
  | terminated encoding =>
      refine kept_bytes h rfl (fun t reader hr => ?_) fun c hc =>
        .inl (Reader.bind_read_eq_error hc fun _ => ⟨_, rfl⟩)
      obtain ⟨bytes, hb, rfl⟩ := Reader.readTerminated_eq_ok hr
      refine ⟨bytes, hb, ?_⟩
      rw [(Reader.read_eq_ok hb).1, answer, Reader.takeWhile_window]
  -- The operations that move fail with causes of their own. It is left to see that the run stays confined.
  | enter size =>
      refine kept_move rfl (fun reader he => ?_) (fun c hc => ?_)
      · obtain ⟨hle, rfl⟩ := Reader.enter_eq_ok he
        exact h.push (Nat.le_add_right _ _) hle
      · unfold Reader.enter at hc
        split at hc <;> cases hc
        nofun
  | overlay order => exact kept_modifyReader rfl (h.push h.scope_ordered (Nat.le_refl _))
  | leave =>
      refine kept_move rfl (fun reader hl => h.leave hl) (fun c hc => ?_)
      unfold Reader.leave at hc
      split at hc
      · cases hc
        nofun
      · split at hc <;> cases hc
  | seek offset =>
      refine kept_move rfl (fun reader hs => h.seek hs) (fun c hc => ?_)
      unfold Reader.seek at hc
      split at hc <;> cases hc
      nofun
  -- Alignment advances as a read of the padding would, but fails as a move does.
  | align n =>
      refine kept_read (fun pad reader ha => ⟨?_, nofun⟩) (fun c hc => ?_)
      · obtain ⟨-, rfl, hle⟩ := Reader.align_eq_ok ha
        exact h.advance (Reader.advances_move hle)
      · rcases r.reader.lacksRoom_or n with hroom | ⟨p, hp⟩
        · rw [hroom.align_eq] at hc
          cases hc
          nofun
        · cases hp.symm.trans hc
  | bind name v => exact kept_modifyReader rfl (h.advance (r.reader.advances_bind name v))
  | addTable name start stop => exact kept_modifyReader rfl (h.addTable name start stop)

/-- The run behind an operation, whether it succeeded or not. -/
def next (r : Run) (op : Operation) : Run :=
  match op.step r with
  | .done _ r' => r'
  | .failed _ r' => r'
  | .unfinished => r

/-- Every operation keeps the reader confined, whether it succeeds or not. -/
theorem confined_next {data : Buffer} {r : Run} (h : r.reader.Confined data) (op : Operation) :
    (next r op).reader.Confined data := by
  have hk := kept_step h op
  unfold next
  cases ho : op.step r with
  | done a r' => rw [ho] at hk; exact hk.2.1
  | failed e r' => rw [ho] at hk; exact hk.2.1 ▸ h
  | unfinished => exact h

/-- So does any sequence of them. -/
theorem confined_foldl {data : Buffer} {r : Run} (h : r.reader.Confined data) (ops : List Operation) :
    (ops.foldl next r).reader.Confined data := by
  induction ops generalizing r with
  | nil => exact h
  | cons op ops ih => exact ih (confined_next h op)

/-- The run behind some operations on a fresh one. -/
def session (data : Buffer) (order : ByteOrder) (ops : List Operation) : Run :=
  ops.foldl next (.start (.ofBuffer data order))

/-- **Every sequence of operations stays inside the buffer.** After any operations the position is in the buffer, and
every scope lies in the one around it. Whatever comes next either fails and changes nothing, never for want of bytes
in the buffer, or it succeeds; and if it is to read bytes, it has answered with those at the position and moved
behind them, which is not behind the end of the innermost scope unless there were none to read. -/
theorem session_confined (data : Buffer) (order : ByteOrder) (ops : List Operation) :
    (session data order ops).reader.Confined data ∧ ∀ op : Operation,
      (∃ e, op.step (session data order ops) = .failed e (session data order ops) ∧ e.cause ≠ .pastBuffer) ∨
      ∃ a r', op.step (session data order ops) = .done a r' ∧
        ∀ n, op.length? (session data order ops).reader = some n → op.Fetched n (session data order ops) a r' := by
  have h : (session data order ops).reader.Confined data := confined_foldl (Reader.confined_ofBuffer data order) ops
  refine ⟨h, fun op => ?_⟩
  have hk := kept_step h op
  cases ho : op.step (session data order ops) with
  | done a r' => rw [ho] at hk; exact .inr ⟨a, r', rfl, hk.2.2⟩
  | failed e r' =>
      rw [ho] at hk
      obtain ⟨rfl, hc⟩ := hk.2
      exact .inl ⟨e, rfl, hc⟩
  | unfinished => rw [ho] at hk; exact absurd rfl hk.1

/-- A read of no bytes succeeds behind the end of the innermost scope, where a seek has led. -/
theorem session_reads_behind_scope : ¬∀ (a : Answer) (r' : Run),
    (Operation.bytes 0).step (session (Array.replicate 8 0) .little [.enter 2, .seek 6]) = .done a r' →
      r'.pos ≤ (session (Array.replicate 8 0) .little [.enter 2, .seek 6]).reader.scope.stop := by
  intro h
  have : (6 : Nat) ≤ 2 := h (.bytes []) _ rfl
  omega

end Operation

end BinaryFormat
