import Mathlib.Data.List.Basic
import BinaryFormat.Proofs.Traversal

/-!
# Two runs side by side

Two runs that start from different readers, or follow different schemas, do the same as long as whatever a step
looks at is the same in both. What a step looks at is little: the position, the bytes and the end of its scope,
the byte order, the bindings by name, the string tables, and, for a checksum, bytes that were decoded before. A
likeness of readers in which all this is the same, and which survives what steps do to readers, is a `Kinship`.
This file walks once through the decoder, for any kinship; what is left to the one who has a kinship at hand is
only what two structs make of their byte orders.
-/

namespace BinaryFormat

open Schema (Field StructDef)
open Decoding

/-- The reader has come to this offset, or may come to it in its scope. -/
def Reader.InReach (r : Reader) (p : Nat) : Prop := p ≤ max r.pos r.scope.stop

/-- A scope that bounds what is read in it, opened at the position. -/
def Reader.opened (r : Reader) (size : Nat) : Reader :=
  { r with scopes := ⟨r.pos, r.pos + size, none, false, []⟩ :: r.scopes }

/-- A likeness of readers, with what it keeps so that runs from alike readers do the same. There may be many of
them, told apart by an index, since a scope that is opened or a buffer that is decompressed changes what two
readers have in common. -/
structure Kinship (d : Decoder) (ι : Type) where
  /-- Readers of which every step sees the same. -/
  Alike : ι → Reader → Reader → Prop
  /-- What is known of the readers once a failure has arisen. -/
  Stuck : ι → Failure → Reader → Reader → Prop
  /-- The offset lies where readers may be compared. -/
  Shared : ι → Nat → Prop
  /-- Positions do not matter, so that a run may go anywhere. -/
  Ranging : Prop
  pos : ∀ {i r s}, Alike i r s → s.pos = r.pos
  stop : ∀ {i r s}, Alike i r s → s.scope.stop = r.scope.stop
  size : ∀ {i r s}, Alike i r s → s.data.size = r.data.size
  byteOrder : ∀ {i r s}, Alike i r s → s.byteOrder = r.byteOrder
  get? : ∀ {i r s}, Alike i r s → ∀ x, s.get? x = r.get? x
  textAt? : ∀ {i r s}, Alike i r s → ∀ table n, s.textAt? table n = r.textAt? table n
  window : ∀ {i r s}, Alike i r s → ∀ p q, r.InReach q → s.data.window p q = r.data.window p q
  slice : ∀ {i r s}, Alike i r s → ∀ p n, Shared i p → Shared i (p + n) → s.slice p n = r.slice p n
  shared : ∀ {i r s}, Alike i r s → ∀ {p}, r.InReach p → Shared i p
  advance : ∀ {i r s}, Alike i r s → ∀ {p}, r.pos ≤ p → r.InReach p →
    Alike i { r with pos := p } { s with pos := p }
  bind : ∀ {i r s}, Alike i r s → ∀ name v, Alike i (r.bind name v) (s.bind name v)
  table : ∀ {i r s}, Alike i r s → ∀ name start,
    Alike i (r.addTable name start r.pos) (s.addTable name start r.pos)
  opened : ∀ {i r s}, Alike i r s → ∀ {size}, r.pos + size ≤ r.scope.stop →
    ∃ j, Alike j (r.opened size) (s.opened size) ∧
      (∀ {r' s'}, Alike j r' s' →
        ∃ r'' s'', r'.leave = .ok r'' ∧ s'.leave = .ok s'' ∧ Alike i r'' s'') ∧
      ∀ {e r' s'}, Stuck j e r' s' → Stuck i e r' s'
  ofBuffer : ∀ data, ∃ i, Alike i (.ofBuffer data d.schema.order) (.ofBuffer data d.schema.order)
  stuck : ∀ {i r s}, Alike i r s → ∀ e, Stuck i e r s
  stuck_pos : ∀ {i e r s}, Stuck i e r s → s.pos = r.pos
  stuck_locate : ∀ {i e r s}, Stuck i e r s → ∀ place, Stuck i (e.locate place) r s
  ranging : d.options.mode = .recover → Ranging
  jump : Ranging → ∀ {i r s}, Alike i r s → ∀ p, Alike i { r with pos := p } { s with pos := p }
  unwind : d.options.mode = .recover → ∀ {e : Failure}, e.isRecoverable = true →
    ∀ {i r s r' s'}, Alike i r s → Stuck i e r' s' →
      Alike i (r'.unwind r.scopes.length) (s'.unwind s.scopes.length)

/-- A second decoder has the definitions of the first one, apart from how it alters structs: their names, their ends
and whether they are string tables stay as they are. -/
structure Decoder.Mirrors (alter : StructDef → StructDef) (d d' : Decoder) : Prop where
  options : d'.options = d.options
  name : d'.schema.name = d.schema.name
  root : d'.schema.root = d.schema.root
  order : d'.schema.order = d.schema.order
  enums : d'.schema.enums = d.schema.enums
  flags : d'.schema.flags = d.schema.flags
  structs : ∀ n, d'.schema.structs.get? n = (d.schema.structs.get? n).map alter
  structName : ∀ s, (alter s).name = s.name
  structAlign : ∀ s, (alter s).align = s.align
  structTable : ∀ s, (alter s).isStringTable = s.isStringTable

theorem Decoder.Mirrors.refl (d : Decoder) : d.Mirrors id d where
  options := rfl
  name := rfl
  root := rfl
  order := rfl
  enums := rfl
  flags := rfl
  structs _ := (Option.map_id_apply).symm
  structName _ := rfl
  structAlign _ := rfl
  structTable _ := rfl

variable {α β : Type}

/-- Two outcomes are of the same kind and have the same result, and their runs are related. -/
inductive Outcome.Matches (Q : α → Run → Run → Prop) (E : Failure → Run → Run → Prop) :
    Outcome α → Outcome α → Prop where
  | done {a : α} {r s : Run} : Q a r s → Matches Q E (.done a r) (.done a s)
  | failed {e : Failure} {r s : Run} : E e r s → Matches Q E (.failed e r) (.failed e s)
  | unfinished : Matches Q E .unfinished .unfinished

theorem Outcome.Matches.mono {Q Q' : α → Run → Run → Prop} {E E' : Failure → Run → Run → Prop}
    {x y : Outcome α} (h : Matches Q E x y) (hQ : ∀ {a r s}, Q a r s → Q' a r s)
    (hE : ∀ {e r s}, E e r s → E' e r s) : Matches Q' E' x y := by
  cases h with
  | done h => exact .done (hQ h)
  | failed h => exact .failed (hE h)
  | unfinished => exact .unfinished

/-- What is known of the one outcome is known of two that match. -/
theorem Outcome.Matches.and_left {Q : α → Run → Run → Prop} {E : Failure → Run → Run → Prop}
    {Q' : α → Run → Prop} {E' : Failure → Run → Prop} {x y : Outcome α} (h : Matches Q E x y)
    (hx : x.Satisfies Q' E') :
    Matches (fun a r s => Q a r s ∧ Q' a r) (fun e r s => E e r s ∧ E' e r) x y := by
  cases h with
  | done h => exact .done ⟨h, hx⟩
  | failed h => exact .failed ⟨h, hx⟩
  | unfinished => exact .unfinished

/-- What is done behind two steps matches if the steps do. -/
theorem Outcome.Matches.bind {Q : α → Run → Run → Prop} {Q' : β → Run → Run → Prop}
    {E : Failure → Run → Run → Prop} {x y : Decoding α} {f g : α → Decoding β} {r s : Run}
    (h : Matches Q E (x r) (y s)) (hf : ∀ {a r' s'}, Q a r' s' → Matches Q' E (f a r') (g a s')) :
    Matches Q' E ((x >>= f) r) ((y >>= g) s) := by
  rw [bind_apply, bind_apply]
  revert h
  generalize x r = o
  generalize y s = o'
  intro h
  cases h with
  | done h => exact hf h
  | failed h => exact .failed h
  | unfinished => exact .unfinished

/-- The runs are the same but for their readers, which are related. -/
def Run.Pairs (R : Reader → Reader → Prop) (r s : Run) : Prop :=
  ∃ reader, s = { r with reader } ∧ R r.reader reader

theorem Run.Pairs.mono {R R' : Reader → Reader → Prop} {r s : Run} (h : r.Pairs R s)
    (hR : ∀ {x y}, R x y → R' x y) : r.Pairs R' s := by
  obtain ⟨reader, rfl, h⟩ := h
  exact ⟨reader, rfl, hR h⟩

namespace Kinship

variable {d d' : Decoder} {ι : Type} (k : Kinship d ι) (i : ι)

/-- From paired runs the steps do the same: they yield the same, of which `K` holds, or fail alike. -/
def Similar (K : α → Prop) (x y : Decoding α) : Prop :=
  ∀ r s, Run.Pairs (k.Alike i) r s →
    Outcome.Matches (fun a r' s' => K a ∧ Run.Pairs (k.Alike i) r' s')
      (fun e => Run.Pairs (k.Stuck i e)) (x r) (y s)

/-- The node lies where readers may be compared. -/
def Knows (n : Node) : Prop := k.Shared i n.offset ∧ k.Shared i (n.offset + n.size)

variable {k i} {K : α → Prop} {L : β → Prop}

/-- What lies between two offsets ends at the one or at the other. -/
theorem shared_add {start stop : Nat} (h : k.Shared i start) (h' : k.Shared i stop) :
    k.Shared i (start + (stop - start)) := by
  rcases Nat.le_total start stop with hle | hle
  · rw [Nat.add_sub_cancel' hle]
    exact h'
  · rw [Nat.sub_eq_zero_of_le hle]
    exact h

namespace Similar

/-! ## Steps one after the other -/

theorem mono {K' : α → Prop} {x y : Decoding α} (h : k.Similar i K x y) (hK : ∀ a, K a → K' a) :
    k.Similar i K' x y := fun r s hp => (h r s hp).mono (fun ha => ⟨hK _ ha.1, ha.2⟩) id

theorem pure {a : α} (h : K a) : k.Similar i K (pure a) (pure a) := fun _ _ hp => .done ⟨h, hp⟩

theorem unfinished : k.Similar i K .unfinished .unfinished :=
  fun _ _ _ => .unfinished

theorem fail (c : Cause) : k.Similar i K (fail c) (fail c) :=
  fun _ _ hp => .failed (hp.mono fun h => k.stuck h _)

theorem bind {x y : Decoding α} {f g : α → Decoding β} (h : k.Similar i K x y)
    (hf : ∀ a, K a → k.Similar i L (f a) (g a)) : k.Similar i L (x >>= f) (y >>= g) :=
  fun r s hp => (h r s hp).bind fun {a _ _} ha => hf a ha.1 _ _ ha.2

/-- Behind steps that leave the run as it is, it is still known of the run what was known before. -/
theorem bind_unmoving {Q : β → Run → Run → Prop} {x y : Decoding α} {f g : α → Decoding β} {r s : Run}
    (h : k.Similar i K x y) (hx : x.Unmoving) (hy : y.Unmoving) (hp : r.Pairs (k.Alike i) s)
    (hf : ∀ a, K a → Outcome.Matches Q (fun e => Run.Pairs (k.Stuck i e)) (f a r) (g a s)) :
    Outcome.Matches Q (fun e => Run.Pairs (k.Stuck i e)) ((x >>= f) r) ((y >>= g) s) := by
  refine Outcome.Matches.bind (Q := fun a r' s' => K a ∧ r' = r ∧ s' = s) ?_ ?_
  · have hxy := h r s hp
    revert hxy
    cases hr : x r <;> cases hs : y s <;> intro hxy <;> cases hxy
    case done.done.done ha => exact .done ⟨ha.1, hx.eq hr, hy.eq hs⟩
    case failed.failed.failed he => exact .failed he
    case unfinished.unfinished.unfinished => exact .unfinished
  · rintro a _ _ ⟨ha, rfl, rfl⟩
    exact hf a ha

theorem map {x y : Decoding α} (f : α → β) (h : k.Similar i K x y) (hf : ∀ a, K a → L (f a)) :
    k.Similar i L (f <$> x) (f <$> y) := by
  rw [map_eq_pure_bind, map_eq_pure_bind]
  exact h.bind fun a ha => .pure (hf a ha)

theorem ite {c : Prop} [Decidable c] {x x' y y' : Decoding α} (hx : k.Similar i K x x')
    (hy : k.Similar i K y y') : k.Similar i K (if c then x else y) (if c then x' else y') := by
  split
  · exact hx
  · exact hy

/-! ## Looking at the reader -/

/-- A step that yields what it sees of the reader. -/
theorem ask {f : Reader → α} (hf : ∀ {r s}, k.Alike i r s → f s = f r)
    (hK : ∀ {r s}, k.Alike i r s → K (f r)) :
    k.Similar i K (fun r => .done (f r.reader) r) fun r => .done (f r.reader) r := by
  rintro r s ⟨reader, rfl, h⟩
  show Outcome.Matches _ _ (.done (f r.reader) r) (.done (f reader) _)
  rw [hf h]
  exact .done ⟨hK h, reader, rfl, h⟩

theorem pos : k.Similar i (k.Shared i) Decoding.pos Decoding.pos :=
  ask (f := Reader.pos) k.pos fun h => k.shared h (Nat.le_max_left _ _)

theorem remaining_eq {r s : Reader} (h : k.Alike i r s) : s.remaining = r.remaining := by
  unfold Reader.remaining
  rw [k.stop h, k.pos h]

theorem unread_eq {r s : Reader} (h : k.Alike i r s) : s.unread = r.unread := by
  unfold Reader.unread
  rw [k.pos h, k.stop h]
  exact k.window h _ _ (Nat.le_max_right _ _)

/-- Expressions see the same. -/
theorem environment_eq {r s : Reader} (h : k.Alike i r s) : s.environment = r.environment := by
  have hget : s.get? = r.get? := funext (k.get? h)
  have hdistance : s.distance = r.distance := by
    funext marker
    unfold Reader.distance
    rw [unread_eq h]
  unfold Reader.environment
  rw [hget, hdistance, remaining_eq h]

/-- An expression has the same value: it sees bindings, the bytes left and the distance to others. -/
theorem eval (e : Expression) : k.Similar i (fun _ => True) (Decoding.eval e) (Decoding.eval e) := by
  rintro r s ⟨reader, rfl, h⟩
  unfold Decoding.eval
  dsimp only
  rw [environment_eq h]
  cases e.tree.eval r.reader.environment with
  | ok v => exact .done ⟨trivial, reader, rfl, h⟩
  | error c => exact .failed ⟨reader, rfl, k.stuck h _⟩

theorem integer (v : Value) : k.Similar i (fun _ => True) (Decoding.integer v) (Decoding.integer v) := by
  rintro r s ⟨reader, rfl, h⟩
  unfold Decoding.integer
  cases v.toInt with
  | ok v => exact .done ⟨trivial, reader, rfl, h⟩
  | error c => exact .failed ⟨reader, rfl, k.stuck h _⟩

theorem holds (e : Expression) : k.Similar i (fun _ => True) (Decoding.holds e) (Decoding.holds e) :=
  (eval e).bind fun _ _ => .pure trivial

theorem evalNat (role : String) (e : Expression) :
    k.Similar i (fun _ => True) (Decoding.evalNat role e) (Decoding.evalNat role e) :=
  (eval e).bind fun v _ => (integer v).bind fun _ _ => .ite (.fail _) (.pure trivial)

/-! ## Changing the reader -/

theorem modifyReader {f g : Reader → Reader} (h : ∀ {r s}, k.Alike i r s → k.Alike i (f r) (g s)) :
    k.Similar i (fun _ => True) (Decoding.modifyReader f) (Decoding.modifyReader g) := by
  rintro r s ⟨reader, rfl, ha⟩
  exact .done ⟨trivial, g reader, rfl, h ha⟩

/-- A name that is bound in both runs to the same value means the same in both. -/
theorem bindName (name : String) (v : Value) :
    k.Similar i (fun _ => True) (Decoding.bindName name v) (Decoding.bindName name v) :=
  modifyReader fun h => k.bind h name v

/-- Two ways to read yield the same and lead to alike readers, or refuse for the same cause. -/
def Reads (k : Kinship d ι) (i : ι) (f : Reader → Except Cause (α × Reader)) : Prop :=
  ∀ {r s}, k.Alike i r s →
    (∃ a r' s', f r = .ok (a, r') ∧ f s = .ok (a, s') ∧ k.Alike i r' s') ∨
      ∃ c, f r = .error c ∧ f s = .error c

theorem read {f : Reader → Except Cause (α × Reader)} (hf : Reads k i f) :
    k.Similar i (fun _ => True) (Decoding.read f) (Decoding.read f) := by
  rintro r s ⟨reader, rfl, h⟩
  obtain ⟨a, r', s', hr, hs, h'⟩ | ⟨c, hr, hs⟩ := hf h
  · rw [read_ok hr, read_ok (r := { r with reader }) hs]
    exact .done ⟨trivial, s', rfl, h'⟩
  · rw [read_error hr, read_error (r := { r with reader }) hs]
    exact .failed ⟨reader, rfl, k.stuck h _⟩

/-- The bytes of a scope are read in both runs or in none. -/
theorem reads_bytes (n : Nat) : Reads k i (·.read n) := by
  intro r s h
  dsimp only
  unfold Reader.read
  rw [remaining_eq h, k.pos h, k.size h]
  by_cases hn : n ≤ r.remaining
  · by_cases hsize : r.pos + n ≤ r.data.size
    · have hreach : r.InReach (r.pos + n) := by
        unfold Reader.remaining at hn
        unfold Reader.InReach
        omega
      rw [if_pos hn, if_pos hsize, if_pos hn, if_pos hsize, k.window h _ _ hreach]
      exact Or.inl ⟨_, _, _, rfl, rfl, k.advance h (Nat.le_add_right _ _) hreach⟩
    · rw [if_pos hn, if_neg hsize, if_pos hn, if_neg hsize]
      exact Or.inr ⟨_, rfl, rfl⟩
  · rw [if_neg hn, if_neg hn]
    exact Or.inr ⟨_, rfl, rfl⟩

/-- What is read lies up to an offset where readers may be compared. -/
theorem readBytes (n : Nat) {r s : Run} (hp : r.Pairs (k.Alike i) s) :
    Outcome.Matches (fun _ r' s' => k.Shared i (r.pos + n) ∧ Run.Pairs (k.Alike i) r' s')
      (fun e => Run.Pairs (k.Stuck i e)) (Decoding.read (·.read n) r) (Decoding.read (·.read n) s) := by
  obtain ⟨reader, rfl, ha⟩ := hp
  obtain ⟨bytes, r', s', hr, hs, ha'⟩ | ⟨c, hr, hs⟩ := reads_bytes n ha
  · obtain ⟨-, -, hn, -⟩ := Reader.read_eq_ok hr
    have hreach : r.reader.InReach (r.reader.pos + n) := by
      unfold Reader.remaining at hn
      unfold Reader.InReach
      omega
    rw [read_ok (f := fun r => r.read n) hr, read_ok (f := fun r => r.read n) (r := { r with reader }) hs]
    exact .done ⟨k.shared ha hreach, s', rfl, ha'⟩
  · rw [read_error (f := fun r => r.read n) hr,
      read_error (f := fun r => r.read n) (r := { r with reader }) hs]
    exact .failed ⟨reader, rfl, k.stuck ha _⟩

/-- A value made of the byte order, the bytes that were ahead and the bytes that are read. -/
theorem reads_value (n : List UInt8 → Nat) (value : ByteOrder → List UInt8 → List UInt8 → α) :
    Reads k i fun r => (do
      let (bytes, r') ← r.read (n r.unread)
      Pure.pure (value r.byteOrder r.unread bytes, r')) := by
  intro r s h
  dsimp only
  rw [k.byteOrder h, unread_eq h]
  obtain ⟨bytes, r', s', hr, hs, h'⟩ | ⟨c, hr, hs⟩ := reads_bytes (n r.unread) h
  · dsimp only at hr hs
    rw [hr, hs]
    exact Or.inl ⟨_, r', s', rfl, rfl, h'⟩
  · dsimp only at hr hs
    rw [hr, hs]
    exact Or.inr ⟨c, rfl, rfl⟩

theorem reads_unsigned (width : Nat) : Reads k i (·.readUnsigned width) := by
  unfold Reader.readUnsigned
  by_cases hw : Reader.isWidth width = true
  · simp only [if_pos hw]
    exact reads_value (fun _ => width) fun order _ bytes => UInt64.ofNat (order.value bytes)
  · simp only [if_neg hw]
    exact fun _ => Or.inr ⟨_, rfl, rfl⟩

theorem reads_signed (width : Nat) : Reads k i (·.readSigned width) := by
  unfold Reader.readSigned
  by_cases hw : Reader.isWidth width = true
  · simp only [if_pos hw]
    exact reads_value (fun _ => width) fun order _ bytes => Int64.ofInt (order.signedValue bytes)
  · simp only [if_neg hw]
    exact fun _ => Or.inr ⟨_, rfl, rfl⟩

theorem reads_binary32 : Reads k i (·.readBinary32) :=
  reads_value (fun _ => 4) fun order _ bytes => Binary64.ofBinary32 (UInt32.ofNat (order.value bytes))

theorem reads_binary64 : Reads k i (·.readBinary64) :=
  reads_value (fun _ => 8) fun order _ bytes => Binary64.mk (UInt64.ofNat (order.value bytes))

theorem reads_text (n : Nat) (e : Text.Encoding) : Reads k i (·.readText n e) :=
  reads_value (fun _ => n) fun _ _ bytes => Text.decode e bytes

/-- A text ends in both runs at the same terminator, since what is unread is the same. -/
theorem reads_terminated (e : Text.Encoding) : Reads k i (·.readTerminated e) :=
  reads_value (fun unread => min ((unread.takeWhile (· != 0)).length + 1) unread.length)
    fun _ unread _ => Text.decode e (unread.takeWhile (· != 0))

theorem reads_align (n : Nat) : Reads k i (·.align n) := by
  intro r s h
  dsimp only
  unfold Reader.align Reader.padding
  rw [k.pos h, k.stop h]
  by_cases hn : n ≤ 1
  · rw [if_pos hn, if_pos hn]
    exact Or.inl ⟨_, _, _, rfl, rfl, h⟩
  · by_cases hs : r.pos + (n - r.pos % n) % n ≤ r.scope.stop
    · rw [if_neg hn, if_pos hs, if_neg hn, if_pos hs]
      refine Or.inl ⟨_, _, _, rfl, rfl, k.advance h (Nat.le_add_right _ _) ?_⟩
      exact Nat.le_trans hs (Nat.le_max_right _ _)
    · rw [if_neg hn, if_neg hs, if_neg hn, if_neg hs]
      exact Or.inr ⟨_, rfl, rfl⟩

/-! ## Steps around a step -/

/-- The segment is on both paths, and both failures get the same place. -/
theorem within (segment : String) (type : FieldType) {x y : Decoding α} (h : k.Similar i K x y) :
    k.Similar i K (Decoding.within segment type x) (Decoding.within segment type y) := by
  rintro r s ⟨reader, rfl, ha⟩
  unfold Decoding.within
  dsimp only
  have hxy := h { r with path := segment :: r.path } _ ⟨reader, rfl, ha⟩
  dsimp only at hxy
  -- Only the outcomes of the two steps matter from here on.
  revert hxy
  generalize x { r with path := segment :: r.path } = o
  generalize y { r with path := segment :: r.path, reader := reader } = o'
  intro hxy
  cases hxy with
  | done hd =>
      obtain ⟨hK, reader', rfl, ha'⟩ := hd
      exact .done ⟨hK, reader', rfl, ha'⟩
  | @failed e r' _ he =>
      obtain ⟨reader', rfl, he⟩ := he
      -- A place is told by the path and the position, and both sides stand where the failure left them.
      have hplace : ({ r' with reader := reader', path := segment :: r.path } : Run).place type =
          ({ r' with path := segment :: r.path } : Run).place type := by
        unfold Run.place Run.pos
        rw [k.stuck_pos he]
        rfl
      dsimp only
      rw [hplace]
      exact .failed ⟨reader', rfl, k.stuck_locate he _⟩
  | unfinished => exact .unfinished

/-- A step in a scope of its own, wherever the scope may be opened. -/
theorem bounded {size : Nat} {x y : Decoding α} (h : ∀ j, k.Similar j (fun _ => True) x y) {r s : Run}
    (hp : r.Pairs (k.Alike i) s) :
    Outcome.Matches (fun _ r' s' => k.Shared i (r.pos + size) ∧ Run.Pairs (k.Alike i) r' s')
      (fun e => Run.Pairs (k.Stuck i e)) (Decoder.bounded size x r) (Decoder.bounded size y s) := by
  obtain ⟨reader, rfl, ha⟩ := hp
  unfold Decoder.bounded
  have hstop : reader.pos + size ≤ reader.scope.stop ↔ r.reader.pos + size ≤ r.reader.scope.stop := by
    rw [k.pos ha, k.stop ha]
  by_cases hs : r.reader.pos + size ≤ r.reader.scope.stop
  · have hr : r.reader.enter size = .ok (r.reader.opened size) := if_pos hs
    have hr' : reader.enter size = .ok (reader.opened size) := if_pos (hstop.mpr hs)
    rw [bind_done (move_ok (f := fun r => r.enter size) hr),
      bind_done (move_ok (f := fun r => r.enter size) (r := { r with reader }) hr')]
    -- Inside, the two are alike in another way, `j`, and the likeness of before is there again when the scope is
    -- left.
    obtain ⟨j, hopen, hclose, hstuck⟩ := k.opened ha hs
    have hxy := h j { r with reader := r.reader.opened size } _ ⟨reader.opened size, rfl, hopen⟩
    refine (hxy.mono id fun he => he.mono hstuck).bind ?_
    rintro a r' _ ⟨-, reader', rfl, ha'⟩
    obtain ⟨left, left', hleft, hleft', hout⟩ := hclose ha'
    rw [bind_done (move_ok (f := fun r => r.leave) hleft),
      bind_done (move_ok (f := fun r => r.leave) (r := { r' with reader := reader' }) hleft')]
    exact .done ⟨k.shared ha (Nat.le_trans hs (Nat.le_max_right _ _)), left', rfl, hout⟩
  · have hr : r.reader.enter size = .error (.scopeTooLong size r.reader.pos r.reader.scope.stop) :=
      if_neg hs
    have hr' : reader.enter size = .error (.scopeTooLong size r.reader.pos r.reader.scope.stop) := by
      rw [← k.pos ha, ← k.stop ha]
      exact if_neg fun hle => hs (hstop.mp hle)
    rw [bind_failed (move_error (f := fun r => r.enter size) hr),
      bind_failed (move_error (f := fun r => r.enter size) (r := { r with reader }) hr')]
    exact .failed ⟨reader, rfl, k.stuck ha _⟩

/-- A step in another buffer, whatever readers of one buffer have in common. -/
theorem inBuffer (ho : d'.schema.order = d.schema.order) (data : Buffer) {x y : Decoding α}
    (h : ∀ j, k.Similar j (fun _ => True) x y) :
    k.Similar i (fun _ => True) (d.inBuffer data x) (d'.inBuffer data y) := by
  rintro r s ⟨reader, rfl, ha⟩
  unfold Decoder.inBuffer
  rw [ho]
  obtain ⟨j, hj⟩ := k.ofBuffer data
  have hxy := h j { r with reader := .ofBuffer data d.schema.order } _ ⟨_, rfl, hj⟩
  dsimp only at hxy ⊢
  -- The reader of before comes back whatever happens in the buffer, so only the outcomes matter.
  revert hxy
  generalize x { r with reader := .ofBuffer data d.schema.order } = o
  generalize y { r with reader := .ofBuffer data d.schema.order } = o'
  intro hxy
  cases hxy with
  | done hd =>
      obtain ⟨-, inner, rfl, -⟩ := hd
      exact .done ⟨trivial, reader, rfl, ha⟩
  | failed he =>
      obtain ⟨inner, rfl, -⟩ := he
      exact .failed ⟨reader, rfl, k.stuck ha _⟩
  | unfinished => exact .unfinished

/-- A step at the place where the field says it is. -/
theorem sought {f : Field} (hf : f.seek = none ∨ k.Ranging) {x y : Decoding α} (h : k.Similar i K x y) :
    k.Similar i K (Decoder.sought f x) (Decoder.sought f y) := by
  -- A field that seeks jumps to the same place on both sides, or is refused on both: the buffers are equally long.
  have hseek : k.Similar i (fun before => before = none ∨ k.Ranging) (Decoder.seek f) (Decoder.seek f) := by
    unfold Decoder.seek
    cases he : f.seek with
    | none => exact .pure (Or.inl rfl)
    | some e =>
        have hrange : k.Ranging := hf.resolve_left (by rw [he]; nofun)
        refine (evalNat _ _).bind fun target _ => pos.bind fun before _ => ?_
        refine bind (K := fun _ => True) ?_ fun _ _ => .pure (Or.inr hrange)
        rintro r s ⟨reader, rfl, ha⟩
        by_cases ht : target ≤ r.reader.data.size
        · have hr : r.reader.seek target = .ok { r.reader with pos := target } := if_pos ht
          have hr' : reader.seek target = .ok { reader with pos := target } :=
            if_pos ((k.size ha).symm ▸ ht)
          rw [move_ok (f := fun r => r.seek target) hr,
            move_ok (f := fun r => r.seek target) (r := { r with reader }) hr']
          exact .done ⟨trivial, _, rfl, k.jump hrange ha target⟩
        · have hr : r.reader.seek target = .error (.seekTooFar target r.reader.data.size) := if_neg ht
          have hr' : reader.seek target = .error (.seekTooFar target r.reader.data.size) := by
            rw [← k.size ha] at ht ⊢
            exact if_neg ht
          rw [move_error (f := fun r => r.seek target) hr,
            move_error (f := fun r => r.seek target) (r := { r with reader }) hr']
          exact .failed ⟨reader, rfl, k.stuck ha _⟩
  -- The place to go back to was told by the position, on which the two sides agree.
  have hrestore : ∀ before, before = none ∨ k.Ranging →
      k.Similar i (fun _ => True) (Decoder.restore f before) (Decoder.restore f before) := by
    intro before hb
    unfold Decoder.restore
    cases before with
    | none => exact .pure trivial
    | some offset =>
        have hrange : k.Ranging := hb.resolve_left nofun
        exact .ite (modifyReader fun ha => k.jump hrange ha offset) (.pure trivial)
  unfold Decoder.sought
  exact hseek.bind fun before hb => h.bind fun a hK => (hrestore before hb).bind fun _ _ => .pure hK

end Similar

/-! ## The steps of a decoder -/

section Decoder

open Kinship.Similar

variable {alter : StructDef → StructDef} (hm : d.Mirrors alter d') {f : Field}

include hm

/-- A struct is looked up in both schemas, and found altered in the second. -/
theorem bind_structDef {name : String} {g h : StructDef → Decoding α}
    (hs : ∀ s, d.schema.structs.get? name = some s → k.Similar i K (g s) (h (alter s))) :
    k.Similar i K (d.structDef name >>= g) (d'.structDef name >>= h) := by
  unfold Decoder.structDef
  rw [hm.structs name]
  cases hd : d.schema.structs.get? name with
  | none => exact (Similar.fail (K := fun _ => False) _).bind fun _ h => h.elim
  | some s => exact hs s hd

theorem similar_checkCancelled : k.Similar i (fun _ => True) d.checkCancelled d'.checkCancelled := by
  unfold Decoder.checkCancelled
  rw [hm.options]
  exact .ite (.fail _) (.pure trivial)

theorem similar_checkElements (n : Nat) :
    k.Similar i (fun _ => True) (d.checkElements n) (d'.checkElements n) := by
  unfold Decoder.checkElements
  rw [hm.options]
  exact .ite (.fail _) (.pure trivial)

theorem similar_countNode : k.Similar i (fun _ => True) d.countNode d'.countNode := by
  rintro r s ⟨reader, rfl, h⟩
  rw [Decoder.countNode_apply, Decoder.countNode_apply, hm.options]
  dsimp only
  split
  · exact .failed ⟨reader, rfl, k.stuck h _⟩
  · exact .done ⟨trivial, reader, rfl, h⟩

theorem similar_descended {x y : Decoding α} (h : k.Similar i K x y) :
    k.Similar i K (d.descended x) (d'.descended y) := by
  have hdescend : k.Similar i (fun _ => True) d.descend d'.descend := by
    rintro r s ⟨reader, rfl, h⟩
    rw [Decoder.descend_apply, Decoder.descend_apply, hm.options]
    dsimp only
    split
    · exact .failed ⟨reader, rfl, k.stuck h _⟩
    · exact .done ⟨trivial, reader, rfl, h⟩
  have hascend : k.Similar i (fun _ => True) Decoder.ascend Decoder.ascend := by
    rintro r s ⟨reader, rfl, h⟩
    exact .done ⟨trivial, reader, rfl, h⟩
  exact hdescend.bind fun _ _ => h.bind fun a hK => hascend.bind fun _ _ => .pure hK

theorem similar_statesOf (flagsRef : Option String) (register : UInt64) :
    k.Similar i (fun _ => True) (d.statesOf flagsRef register) (d'.statesOf flagsRef register) := by
  unfold Decoder.statesOf Decoder.flagsDef
  rw [hm.flags]
  cases flagsRef with
  | none => exact .pure trivial
  | some name =>
      refine Similar.bind (K := fun _ => True) ?_ fun _ _ => .pure trivial
      cases d.schema.flags.get? name with
      | none => exact .fail _
      | some _ => exact .pure trivial

theorem similar_entryOf (enumRef : Option String) (value : Int64) :
    k.Similar i (fun _ => True) (d.entryOf enumRef value) (d'.entryOf enumRef value) := by
  unfold Decoder.entryOf Decoder.enumDef
  rw [hm.enums]
  cases enumRef with
  | none => exact .pure trivial
  | some name =>
      refine Similar.bind (K := fun _ => True) ?_ fun _ _ => .pure trivial
      cases d.schema.enums.get? name with
      | none => exact .fail _
      | some _ => exact .pure trivial

omit hm

theorem similar_fieldSize (f : Field) :
    k.Similar i (fun _ => True) (Decoder.fieldSize f) (Decoder.fieldSize f) := by
  unfold Decoder.fieldSize
  cases f.size with
  | none => exact .fail _
  | some size =>
      cases size with
      | fixed n => exact .pure trivial
      | remaining => exact .ask (f := Reader.remaining) remaining_eq fun _ => trivial
      | computed e => exact .evalNat _ _

theorem similar_align (multiple : Option UInt64) :
    k.Similar i (fun _ => True) (Decoder.align multiple) (Decoder.align multiple) := by
  unfold Decoder.align
  cases multiple with
  | none => exact .pure trivial
  | some n => exact (Similar.read (reads_align _)).bind fun _ _ => .pure trivial

theorem similar_isPresent (f : Field) :
    k.Similar i (fun _ => True) (Decoder.isPresent f) (Decoder.isPresent f) := by
  unfold Decoder.isPresent
  cases f.condition with
  | none => exact .pure trivial
  | some e => exact .holds e

theorem similar_validity (f : Field) :
    k.Similar i (fun _ => True) (Decoder.validity f) (Decoder.validity f) := by
  unfold Decoder.validity
  cases f.validate with
  | none => exact .pure trivial
  | some e => exact (Similar.holds e).map _ fun _ _ => trivial

theorem similar_chosenCase (v : Value) (cases : List Schema.SwitchCase) :
    k.Similar i (fun _ => True) (Decoder.chosenCase v cases) (Decoder.chosenCase v cases) := by
  induction cases with
  | nil => exact .pure trivial
  | cons c rest ih =>
      unfold Decoder.chosenCase
      exact (Similar.eval _).bind fun _ _ => .ite (.pure trivial) ih

theorem similar_isExhausted : k.Similar i (fun _ => True) Decoder.isExhausted Decoder.isExhausted := by
  refine .ask (f := Reader.isExhausted) (fun h => ?_) fun _ => trivial
  unfold Reader.isExhausted
  rw [remaining_eq h]

/-! ### Fields without fields of their own -/

variable (k i) in
/-- Nodes that were decoded before lie where readers may be compared. -/
def KnowsAll (nodes : List Node) : Prop := ∀ n ∈ nodes, k.Knows i n

/-- A stored checksum is compared with that of the same bytes. -/
theorem verdict_eq {r s : Reader} (h : k.Alike i r s) (c : Schema.ChecksumDef) {nodes : List Node}
    (hn : k.KnowsAll i nodes) (stored : UInt64) : c.verdict s nodes stored = c.verdict r nodes stored := by
  have hslice : ∀ n ∈ c.fields.filterMap (fun name => nodes.find? (·.name == name)),
      s.slice n.offset n.size = r.slice n.offset n.size := by
    intro n hmem
    obtain ⟨name, -, hfind⟩ := List.mem_filterMap.mp hmem
    obtain ⟨hstart, hstop⟩ := hn n (List.mem_of_find?_eq_some hfind)
    exact k.slice h _ _ hstart hstop
  unfold Schema.ChecksumDef.verdict
  dsimp only
  generalize c.fields.filterMap (fun name => nodes.find? (·.name == name)) = covered at hslice ⊢
  have hsum : covered.foldl (fun crc n => crc.update (s.slice n.offset n.size)) Crc32.start =
      covered.foldl (fun crc n => crc.update (r.slice n.offset n.size)) Crc32.start :=
    List.foldl_ext _ _ _ fun crc n hmem => by rw [hslice n hmem]
  rw [hsum]

theorem similar_number (width : Nat) (isSigned : Bool) :
    k.Similar i (fun _ => True) (Decoder.number width isSigned) (Decoder.number width isSigned) := by
  unfold Decoder.number
  cases isSigned with
  | false => exact (Similar.read (reads_unsigned width)).map _ fun _ _ => trivial
  | true => exact (Similar.read (reads_signed width)).map _ fun _ _ => trivial

/-- The node of a leaf lies where its bytes were read. -/
theorem similar_leaf {x y : Decoding Node.Content} (h : k.Similar i (fun _ => True) x y) :
    k.Similar i (k.Knows i) (Decoder.leaf f x) (Decoder.leaf f y) := by
  refine Similar.pos.bind fun start hstart => h.bind fun c _ => Similar.pos.bind fun stop hstop => ?_
  exact .pure ⟨hstart, shared_add hstart hstop⟩

theorem similar_bytes (f : Field) :
    k.Similar i (fun _ => True) (Decoder.bytes f) (Decoder.bytes f) :=
  (similar_fieldSize f).bind fun n _ => (Similar.read (reads_bytes n)).bind fun _ _ => .pure trivial

theorem similar_text (f : Field) (e : Text.Encoding) :
    k.Similar i (fun _ => True) (Decoder.text f e) (Decoder.text f e) :=
  (similar_fieldSize f).bind fun n _ => (Similar.read (reads_text n e)).bind fun _ _ =>
    (Similar.bindName _ _).bind fun _ _ => .pure trivial

theorem similar_terminated (f : Field) (e : Text.Encoding) :
    k.Similar i (fun _ => True) (Decoder.terminated f e) (Decoder.terminated f e) :=
  (Similar.read (reads_terminated e)).bind fun _ _ => (Similar.bindName _ _).bind fun _ _ => .pure trivial

theorem similar_computed (f : Field) :
    k.Similar i (fun _ => True) (Decoder.computed f) (Decoder.computed f) := by
  unfold Decoder.computed
  cases f.value with
  | none => exact .fail _
  | some e =>
      exact (Similar.eval e).bind fun v _ => (Similar.bindName _ v).bind fun _ _ => .pure trivial

include hm

/-- The checksum of an integer is over bytes that both runs have in common. -/
theorem similar_integer {siblings : Option (List Node)} (hs : ∀ nodes, siblings = some nodes → k.KnowsAll i nodes)
    (width : Nat) (isSigned : Bool) :
    k.Similar i (fun _ => True) (d.integer f siblings width isSigned) (d'.integer f siblings width isSigned) := by
  refine (similar_number width isSigned).bind fun n _ => (Similar.bindName _ _).bind fun _ _ => ?_
  refine (similar_statesOf hm _ _).bind fun states _ => ?_
  cases states with
  | some states => exact .pure trivial
  | none =>
      refine (similar_entryOf hm _ _).bind fun entry _ => ?_
      refine .ask (f := fun reader => Node.Content.integer {
        value := n, entry
        text := f.stringTable.bind fun table => reader.textAt? table n.toUInt64.toNat
        verdict := do Pure.pure ((← f.checksum).verdict reader (← siblings) n.toUInt64) })
        (fun {r s} h => ?_) fun _ => trivial
      -- The value is the same. The text and the verdict are made of other bytes, which both runs share.
      have htext : ∀ table, s.textAt? table n.toUInt64.toNat = r.textAt? table n.toUInt64.toNat :=
        fun table => k.textAt? h table _
      have hverdict : (do Pure.pure ((← f.checksum).verdict s (← siblings) n.toUInt64) : Option Node.Verdict) =
          (do Pure.pure ((← f.checksum).verdict r (← siblings) n.toUInt64)) :=
        bind_congr fun c => Option.bind_congr fun nodes hnodes =>
          congrArg some (verdict_eq h c (hs nodes hnodes) _)
      simp only [htext]
      exact congrArg (fun verdict => Node.Content.integer ⟨n, entry, verdict, _⟩) hverdict

theorem similar_ascii (f : Field) : k.Similar i (fun _ => True) (d.ascii f) (d'.ascii f) :=
  (similar_fieldSize f).bind fun n _ => (Similar.read (reads_bytes n)).bind fun _ _ =>
    (similar_statesOf hm _ _).bind fun _ _ => (Similar.bindName _ _).bind fun _ _ => .pure trivial

theorem similar_bitPart (register : UInt64) (b : Schema.BitRange) :
    k.Similar i (fun _ => True) (d.bitPart register b) (d'.bitPart register b) :=
  .ite ((similar_entryOf hm _ _).bind fun _ _ => .pure trivial) (.fail _)

theorem similar_bitParts (register : UInt64) (ranges : List Schema.BitRange) :
    k.Similar i (fun _ => True) (ranges.mapM (d.bitPart register)) (ranges.mapM (d'.bitPart register)) := by
  induction ranges with
  | nil => exact .pure trivial
  | cons b rest ih =>
      rw [List.mapM_cons, List.mapM_cons]
      exact (similar_bitPart hm register b).bind fun _ _ => ih.bind fun _ _ => .pure trivial

theorem similar_bitfield (f : Field) : k.Similar i (fun _ => True) (d.bitfield f) (d'.bitfield f) := by
  refine (similar_fieldSize f).bind fun n _ => .ite ?_ (.fail _)
  refine (Similar.read (reads_unsigned n)).bind fun register _ => (Similar.bindName _ _).bind fun _ _ => ?_
  exact (similar_bitParts hm register _).bind fun _ _ => .pure trivial

/-! ### Structs inside fields, and arrays -/

section Nested

variable {rounds : Nat} {nested nested' : StructDef → String → Decoding Node}
  (hn : ∀ j s name, d.schema.Defines s → k.Similar j (k.Knows j) (nested s name) (nested' (alter s) name))

include hn

omit hm in
/-- A struct inside a field is decoded alike, in a scope of its own or not. -/
theorem similar_structField {s : StructDef} (hs : d.schema.Defines s) :
    k.Similar i (k.Knows i) (Decoder.structField nested f s) (Decoder.structField nested' f (alter s)) := by
  cases hf : f.size with
  | none =>
      unfold Decoder.structField
      rw [hf]
      exact hn _ _ _ hs
  | some size =>
      rw [Decoder.structField_sized _ hf, Decoder.structField_sized _ hf]
      rintro r s ⟨reader, rfl, ha⟩
      have hpos : Decoding.pos { r with reader } = .done r.pos { r with reader } :=
        congrArg (Outcome.done · { r with reader }) (k.pos ha)
      rw [bind_done (rfl : Decoding.pos r = .done r.pos r), bind_done hpos]
      refine (similar_fieldSize f).bind_unmoving (Decoder.unmoving_fieldSize f)
        (Decoder.unmoving_fieldSize f) ⟨reader, rfl, ha⟩ fun size _ => ?_
      have hnode := fun j => (hn j s f.name hs).mono fun _ _ => trivial
      refine (bounded hnode ⟨reader, rfl, ha⟩).bind fun hbounded => ?_
      have hstart : k.Shared i r.pos := k.shared ha (Nat.le_max_left _ _)
      exact .done ⟨⟨hstart, hbounded.1⟩, hbounded.2⟩

theorem similar_switchField :
    k.Similar i (k.Knows i) (Decoder.switchField d nested f) (Decoder.switchField d' nested' f) := by
  unfold Decoder.switchField
  cases f.switch with
  | none => exact .fail _
  | some spec =>
      refine (Similar.eval _).bind fun v _ => ?_
      refine (similar_chosenCase v _).bind fun chosen _ => ?_
      cases chosen.or spec.fallback with
      | none => exact .fail _
      | some target => exact bind_structDef hm fun s hs => similar_structField hn ⟨_, hs⟩

/-- A stream is unpacked from the same bytes into the same buffer. -/
theorem similar_compressedField :
    k.Similar i (k.Knows i) (Decoder.compressedField d nested f) (Decoder.compressedField d' nested' f) := by
  rintro r s ⟨reader, rfl, ha⟩
  unfold Decoder.compressedField
  have hpos : Decoding.pos { r with reader } = .done r.pos { r with reader } :=
    congrArg (Outcome.done · { r with reader }) (k.pos ha)
  rw [bind_done (rfl : Decoding.pos r = .done r.pos r), bind_done hpos]
  refine (similar_fieldSize f).bind_unmoving (Decoder.unmoving_fieldSize f)
    (Decoder.unmoving_fieldSize f) ⟨reader, rfl, ha⟩ fun size _ => ?_
  have hstart : k.Shared i r.pos := k.shared ha (Nat.le_max_left _ _)
  refine (readBytes size ⟨reader, rfl, ha⟩).bind fun {data r' s'} hread => ?_
  obtain ⟨hstop, hp⟩ := hread
  refine (?_ : k.Similar i (k.Knows i) _ _) r' s' hp
  split
  · exact .fail _
  · split
    · exact .fail _
    · cases f.structRef with
      | none => exact .pure ⟨hstart, hstop⟩
      | some name =>
          refine bind_structDef hm fun s hs => ?_
          have hnode := fun j => (hn j s f.name ⟨_, hs⟩).mono fun _ _ => trivial
          exact (Similar.inBuffer hm.order _ hnode).bind fun _ _ => .pure ⟨hstart, hstop⟩

/-- One occurrence of a field. -/
theorem similar_single {siblings : Option (List Node)} (hs : ∀ nodes, siblings = some nodes → k.KnowsAll i nodes) :
    k.Similar i (k.Knows i) (Decoder.single d nested f siblings) (Decoder.single d' nested' f siblings) := by
  unfold Decoder.single
  cases f.type with
  | u8 | u16 | u32 | u64 | i8 | i16 | i32 | i64 => exact similar_leaf (similar_integer hm hs _ _)
  | f32 => exact similar_leaf ((Similar.read reads_binary32).map _ fun _ _ => trivial)
  | f64 => exact similar_leaf ((Similar.read reads_binary64).map _ fun _ _ => trivial)
  | bytes => exact similar_leaf (similar_bytes f)
  | ascii => exact similar_leaf (similar_ascii hm f)
  | utf8 | utf16le | utf16be | shiftJis | latin1 => exact similar_leaf (similar_text f _)
  | asciiz | utf8z => exact similar_leaf (similar_terminated f _)
  | bitfield => exact similar_leaf (similar_bitfield hm f)
  | virtual => exact similar_leaf (similar_computed f)
  | struct =>
      cases f.structRef with
      | none => exact .fail _
      | some name => exact bind_structDef hm fun s hs => similar_structField hn ⟨_, hs⟩
  | switch => exact similar_switchField hm hn
  | compressed => exact similar_compressedField hm hn

theorem similar_element (n : Nat) :
    k.Similar i (k.Knows i) (Decoder.element d nested f n) (Decoder.element d' nested' f n) := by
  refine (similar_checkCancelled hm).bind fun _ _ => ?_
  refine (Similar.within _ _ (similar_single hm hn fun _ h => by cases h)).bind fun node hnode => ?_
  exact (similar_countNode hm).bind fun _ _ => .pure hnode

theorem similar_countedElements (left n : Nat) (found : List Node) :
    k.Similar i (fun _ => True) (Decoder.countedElements d nested f left n found)
      (Decoder.countedElements d' nested' f left n found) := by
  induction left generalizing n found with
  | zero => exact .pure trivial
  | succ left ih => exact (similar_element hm hn n).bind fun node _ => ih (n + 1) (node :: found)

theorem similar_openElements {isLast : Decoding Bool} (hl : k.Similar i (fun _ => True) isLast isLast)
    (rounds n : Nat) (found : List Node) :
    k.Similar i (fun _ => True) (Decoder.openElements d nested f isLast rounds n found)
      (Decoder.openElements d' nested' f isLast rounds n found) := by
  induction rounds generalizing n found with
  | zero => exact .unfinished
  | succ rounds ih =>
      refine (similar_checkElements hm _).bind fun _ _ => Similar.pos.bind fun before _ => ?_
      refine (similar_element hm hn n).bind fun node _ => Similar.pos.bind fun after _ => ?_
      refine .ite (.pure trivial) (hl.bind fun last _ => ?_)
      exact .ite (.pure trivial) (ih (n + 1) (node :: found))

theorem similar_elements :
    k.Similar i (fun _ => True) (Decoder.elements d rounds nested f) (Decoder.elements d' rounds nested' f) := by
  unfold Decoder.elements
  cases f.repetition with
  | once => exact .pure trivial
  | count n =>
      refine (Similar.evalNat _ _).bind fun n _ => (similar_checkElements hm n).bind fun _ _ => ?_
      exact similar_countedElements hm hn n 0 []
  | untilEnd =>
      refine similar_isExhausted.bind fun _ _ => .ite (.pure trivial) ?_
      exact similar_openElements hm hn similar_isExhausted rounds 0 []
  | untilTrue stop =>
      have hlast : k.Similar i (fun _ => True) (do if ← .holds stop then Pure.pure true else Decoder.isExhausted)
          (do if ← .holds stop then Pure.pure true else Decoder.isExhausted) :=
        (Similar.holds stop).bind fun _ _ => .ite (.pure trivial) similar_isExhausted
      exact similar_openElements hm hn hlast rounds 0 []

theorem similar_content {siblings : List Node} (hs : k.KnowsAll i siblings) :
    k.Similar i (k.Knows i) (Decoder.content d rounds nested f siblings)
      (Decoder.content d' rounds nested' f siblings) := by
  have harray : k.Similar i (k.Knows i) (Decoder.array d rounds nested f) (Decoder.array d' rounds nested' f) := by
    refine Similar.pos.bind fun start hstart => (similar_elements hm hn).bind fun children _ => ?_
    exact Similar.pos.bind fun stop hstop => .pure ⟨hstart, shared_add hstart hstop⟩
  unfold Decoder.content
  cases f.repetition with
  | once => exact similar_single hm hn fun nodes h => Option.some.inj h ▸ hs
  | count _ | untilEnd | untilTrue _ => exact harray

/-- A field, with the place that it is decoded at. -/
theorem similar_presentField (hf : f.seek = none ∨ k.Ranging) {siblings : List Node} (hs : k.KnowsAll i siblings) :
    k.Similar i (k.Knows i) (Decoder.presentField d rounds nested f siblings)
      (Decoder.presentField d' rounds nested' f siblings) := by
  rw [Decoder.presentField_eq, Decoder.presentField_eq]
  refine .sought hf ((similar_align _).bind fun _ _ => (similar_content hm hn hs).bind fun node hnode => ?_)
  exact (similar_validity f).bind fun _ _ => .pure hnode

/-- A field, if it is there. -/
theorem similar_field (hf : f.seek = none ∨ k.Ranging) {siblings : List Node} (hs : k.KnowsAll i siblings) :
    k.Similar i (fun o => k.KnowsAll i o.toList) (Decoder.field d rounds nested f siblings)
      (Decoder.field d' rounds nested' f siblings) := by
  refine .within _ _ ((similar_isPresent f).bind fun _ _ => .ite ?_ (.pure nofun))
  refine (similar_presentField hm hn hf hs).map _ fun node hnode n hmem => ?_
  cases List.mem_singleton.mp hmem
  exact hnode

end Nested

/-! ### The fields of a struct -/

/-- Where a field has failed, what it left open is closed alike, and the runs go on from the same offset. -/
theorem similar_replaceField {before before' r s : Run} {e : Failure} (hrec : d.options.mode = .recover)
    (he : e.isRecoverable = true) (hb : before.Pairs (k.Alike i) before') (hs : r.Pairs (k.Stuck i e) s) :
    Outcome.Matches (fun p r' s' => k.Knows i p.1 ∧ Run.Pairs (k.Alike i) r' s')
      (fun e => Run.Pairs (k.Stuck i e)) (d.replaceField f before e r) (d'.replaceField f before' e s) := by
  obtain ⟨reader, rfl, ha⟩ := hb
  obtain ⟨reader', rfl, hstuck⟩ := hs
  have hback := k.unwind hrec he ha hstuck
  have hpos : ({ before with reader } : Run).pos = before.pos := k.pos ha
  have hnoted : Decoder.recoveredFailure f { before with reader } e = Decoder.recoveredFailure f before e := by
    unfold Decoder.recoveredFailure
    rw [hpos]
    rfl
  have hstart : k.Shared i before.pos := k.shared ha (Nat.le_max_left _ _)
  rw [Decoder.replaceField_apply, Decoder.replaceField_apply]
  unfold Decoder.afterFailure
  rw [hnoted, hpos]
  dsimp only
  rw [k.stop hback]
  generalize hresume : Decoder.resumesAt f before.pos _ = resume
  refine (similar_countNode hm _ _ ⟨_, rfl, hback⟩).bind fun {_ _ _} hcount => ?_
  refine (Similar.modifyReader (fun h => k.jump (k.ranging hrec) h _) _ _ hcount.2).bind fun {_ _ _} hjump => ?_
  refine .done ⟨⟨hstart, ?_⟩, hjump.2⟩
  show k.Shared i (before.pos + (resume.map (· - before.pos)).getD 0)
  cases hr : resume with
  | none => exact hstart
  | some stop =>
      -- the run goes on inside the scope that the field was in
      have hstop : stop ≤ (r.reader.unwind before.reader.scopes.length).scope.stop := by
        rw [hr] at hresume
        obtain ⟨size, -, rfl⟩ := Option.map_eq_some_iff.mp hresume
        exact Nat.min_le_right _ _
      exact shared_add hstart (k.shared hback (Nat.le_trans hstop (Nat.le_max_right _ _)))

theorem similar_settled_error {before before' r s : Run} {e : Failure} (hb : before.Pairs (k.Alike i) before')
    (hs : r.Pairs (k.Stuck i e) s) :
    Outcome.Matches (fun p r' s' => k.KnowsAll i p.1.toList ∧ Run.Pairs (k.Alike i) r' s')
      (fun e => Run.Pairs (k.Stuck i e)) (d.settled f before (.error e) r) (d'.settled f before' (.error e) s) := by
  rw [Decoder.settled_error, Decoder.settled_error, hm.options]
  by_cases hrec : d.options.mode = .recover ∧ e.isRecoverable = true
  · rw [if_pos hrec, if_pos hrec]
    refine (similar_replaceField hm hrec.1 hrec.2 hb hs).bind fun {p _ _} h => .done ⟨fun n hmem => ?_, h.2⟩
    cases List.mem_singleton.mp hmem
    exact h.1
  · rw [if_neg hrec, if_neg hrec]
    exact .failed hs

/-- Whether a field succeeds or is recovered from, the struct goes on alike. -/
theorem similar_member {x y : Decoding (Option Node)} (h : k.Similar i (fun o => k.KnowsAll i o.toList) x y) :
    k.Similar i (fun p => k.KnowsAll i p.1.toList) (d.member f x) (d'.member f y) := by
  intro r s hp
  rw [Decoder.member_apply, Decoder.member_apply]
  have hxy := h r s hp
  revert hxy
  generalize x r = o
  generalize y s = o'
  intro hxy
  cases hxy with
  | @done node r' s' hd =>
      obtain ⟨hnode, hp'⟩ := hd
      cases node with
      | none => exact .done ⟨hnode, hp'⟩
      | some node =>
          refine (similar_countNode hm r' s' hp').bind fun {_ _ _} h => ?_
          exact .done ⟨hnode, h.2⟩
  | failed he => exact similar_settled_error hm hp he
  | unfinished => exact .unfinished

section Nested

variable {rounds : Nat} {nested nested' : StructDef → String → Decoding Node}
  (hn : ∀ j s name, d.schema.Defines s → k.Similar j (k.Knows j) (nested s name) (nested' (alter s) name))

include hn

/-- Fields are decoded alike one after the other, and so is what stands for those that failed. -/
theorem similar_fields {fs : List Field} (hf : ∀ f ∈ fs, f.seek = none ∨ k.Ranging) {found : List Node}
    (hs : k.KnowsAll i found) :
    k.Similar i (fun _ => True) (Decoder.fields d rounds nested fs found)
      (Decoder.fields d' rounds nested' fs found) := by
  induction fs generalizing found with
  | nil => exact .pure trivial
  | cons f rest ih =>
      rw [Decoder.fields_cons, Decoder.fields_cons]
      refine (similar_checkCancelled hm).bind fun _ _ => ?_
      refine (similar_member hm (similar_field hm hn (hf f (.head _)) hs)).bind fun p hp => ?_
      have hfound : k.KnowsAll i (found ++ p.1.toList) :=
        fun n hmem => (List.mem_append.mp hmem).elim (hs n) (hp n)
      exact .ite (ih (fun g hg => hf g (.tail _ hg)) hfound) (.pure trivial)

end Nested

/-- The inside of a struct, given what becomes of its body. -/
theorem similar_inside {rounds : Nat} {nested nested' : StructDef → String → Decoding Node} {s : StructDef}
    (hbody : k.Similar i (fun _ => True) (Decoder.body d rounds nested s)
      (Decoder.body d' rounds nested' (alter s))) :
    k.Similar i (fun p => k.Shared i p.1) (Decoder.inside d rounds nested s)
      (Decoder.inside d' rounds nested' (alter s)) := by
  unfold Decoder.inside
  rw [hm.structName, hm.structAlign, hm.structTable]
  refine Similar.pos.bind fun start hstart => hbody.bind fun children _ => ?_
  have hend : k.Similar i (fun p => k.Shared i p.1) (do Decoder.align s.align; Pure.pure (start, children))
      (do Decoder.align s.align; Pure.pure (start, children)) :=
    (similar_align _).bind fun _ _ => .pure hstart
  -- The table, if the struct is one, spans from the start to the position, and both sides stand there.
  rintro r _ ⟨reader, rfl, ha⟩
  have hpos : Decoding.pos { r with reader } = .done r.pos { r with reader } :=
    congrArg (Outcome.done · { r with reader }) (k.pos ha)
  rw [bind_done (rfl : Decoding.pos r = .done r.pos r), bind_done hpos]
  by_cases ht : s.isStringTable = true
  · rw [if_pos ht]
    exact hend { r with reader := r.reader.addTable s.name start r.pos } _ ⟨_, rfl, k.table ha s.name start⟩
  · rw [if_neg ht]
    exact hend r _ ⟨reader, rfl, ha⟩

/-! ### Structs in structs -/

variable (k) in
/-- What two structs make of their byte orders is alike wherever their fields are. -/
def SimilarBodies (alter : StructDef → StructDef) (d' : Decoder) (rounds : Nat) : Prop :=
  ∀ {levels s}, d.schema.Defines s →
    (∀ i, k.Similar i (fun _ => True) (Decoder.fields d rounds (d.struct rounds levels) s.fields [])
      (Decoder.fields d' rounds (d'.struct rounds levels) s.fields [])) →
    ∀ i, k.Similar i (fun _ => True) (Decoder.body d rounds (d.struct rounds levels) s)
      (Decoder.body d' rounds (d'.struct rounds levels) (alter s))

section Struct

variable {rounds : Nat} (hf : ∀ f, d.schema.HasField f → f.seek = none ∨ k.Ranging)
  (hb : k.SimilarBodies alter d' rounds)

include hf hb

/-- Every struct of the schema is decoded alike. -/
theorem similar_struct (levels : Nat) (i : ι) (s : StructDef) (name : String) (hs : d.schema.Defines s) :
    k.Similar i (k.Knows i) (d.struct rounds levels s name) (d'.struct rounds levels (alter s) name) := by
  induction levels generalizing i s name with
  | zero => exact .unfinished
  | succ levels ih =>
      have hfields : ∀ j, k.Similar j (fun _ => True) (d.fields rounds (d.struct rounds levels) s.fields [])
          (d'.fields rounds (d'.struct rounds levels) s.fields []) := fun j =>
        similar_fields hm ih (fun f hmem => hf f ⟨s, hs, hmem⟩) (fun _ h => nomatch h)
      show k.Similar i (k.Knows i) (d.structWith rounds (d.struct rounds levels) s name)
        (d'.structWith rounds (d'.struct rounds levels) (alter s) name)
      rw [Decoder.structWith_eq, Decoder.structWith_eq, hm.structName]
      refine (similar_descended hm (similar_inside hm (hb hs hfields i))).bind fun p hstart => ?_
      exact Similar.pos.bind fun stop hstop => .pure ⟨hstart, shared_add hstart hstop⟩

/-- Whole decodes are alike, if the bodies of their structs are. -/
theorem similar_root (i : ι) : k.Similar i (fun _ => True) (d.root rounds) (d'.root rounds) := by
  unfold Decoder.root
  rw [hm.root, hm.name, hm.options]
  refine bind_structDef hm fun s hs => ?_
  exact (similar_struct hm hf hb _ i s _ ⟨_, hs⟩).mono fun _ _ => trivial

/-- A buffer has the same answer for both decoders, and takes the same number of rounds. -/
theorem decode?_eq (data : Buffer) : d'.decode? rounds data = d.decode? rounds data := by
  obtain ⟨i, hstart⟩ := k.ofBuffer data
  have hroot := similar_root hm hf hb i (.start (.ofBuffer data d.schema.order))
    (.start (.ofBuffer data d.schema.order)) ⟨_, rfl, hstart⟩
  unfold Decoder.decode?
  rw [hm.order]
  revert hroot
  generalize d.root rounds (.start (.ofBuffer data d.schema.order)) = o
  generalize d'.root rounds (.start (.ofBuffer data d.schema.order)) = o'
  intro hroot
  cases hroot with
  | done h =>
      obtain ⟨-, reader, rfl, -⟩ := h
      rfl
  | failed h => rfl
  | unfinished => rfl

end Struct

end Decoder

end Kinship

end BinaryFormat
