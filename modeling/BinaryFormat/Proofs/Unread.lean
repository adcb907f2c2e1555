import Mathlib.Order.Bounds.Defs
import BinaryFormat.Proofs.Sessions

/-!
# The bytes that are left

How many bytes are left and which ones they are is worked out in two ways. The number is the distance from the position
to the end of the innermost scope, and zero behind that end. The bytes are cut out of the buffer, and a cut takes no
more than there is to take. The two agree as long as position and scope end in the buffer, which every session keeps,
and it does not matter on which side of the scope a seek has led.

Two searches rely on it. A terminated text is searched for its end and then read up to it, and an expression looks for
a marker so that a field can be read as far as that. Neither may find more than a read will give.
-/

namespace BinaryFormat

/-! ## Where a byte sequence occurs -/

/-- The byte sequence lies wholly inside of the bytes, `k` bytes behind their start. -/
def OccursAt (marker bytes : List UInt8) (k : Nat) : Prop :=
  ∃ front back, bytes = front ++ marker ++ back ∧ front.length = k

section Occurrences

variable {marker bytes : List UInt8} {b : UInt8} {k : Nat}

theorem occursAt_zero_iff : OccursAt marker bytes 0 ↔ marker <+: bytes := by
  constructor
  · rintro ⟨front, back, rfl, hfront⟩
    obtain rfl := List.length_eq_zero_iff.mp hfront
    exact List.prefix_append marker back
  · rintro ⟨back, rfl⟩
    exact ⟨[], back, rfl, rfl⟩

theorem occursAt_cons_succ_iff : OccursAt marker (b :: bytes) (k + 1) ↔ OccursAt marker bytes k := by
  constructor
  · rintro ⟨front, back, h, hfront⟩
    cases front with
    | nil => cases hfront
    | cons c front =>
        obtain ⟨-, rfl⟩ := List.cons.inj h
        exact ⟨front, back, rfl, Nat.succ.inj hfront⟩
  · rintro ⟨front, back, rfl, rfl⟩
    exact ⟨b :: front, back, rfl, rfl⟩

/-- At the end of the bytes only the empty marker occurs. -/
theorem occursAt_nil_iff : OccursAt marker [] k ↔ marker = [] ∧ k = 0 := by
  constructor
  · rintro ⟨front, back, h, rfl⟩
    obtain ⟨hfront, -⟩ := List.append_eq_nil_iff.mp h.symm
    obtain ⟨rfl, rfl⟩ := List.append_eq_nil_iff.mp hfront
    exact ⟨rfl, rfl⟩
  · rintro ⟨rfl, rfl⟩
    exact occursAt_zero_iff.mpr (List.prefix_refl [])

/-- The place that is found is the first one. -/
theorem isLeast_of_offsetOf? (h : offsetOf? marker bytes = some k) : IsLeast {k | OccursAt marker bytes k} k := by
  induction bytes generalizing k with
  | nil =>
      unfold offsetOf? at h
      split at h
      · rename_i hm
        obtain rfl := Option.some.inj h
        exact ⟨occursAt_nil_iff.mpr ⟨hm, rfl⟩, fun _ _ => Nat.zero_le _⟩
      · cases h
  | cons b bytes ih =>
      unfold offsetOf? at h
      split at h
      · rename_i hm
        obtain rfl := Option.some.inj h
        exact ⟨occursAt_zero_iff.mpr (List.isPrefixOf_iff_prefix.mp hm), fun _ _ => Nat.zero_le _⟩
      · rename_i hm
        obtain ⟨j, hj, rfl⟩ := Option.map_eq_some_iff.mp h
        obtain ⟨hoccurs, hleast⟩ := ih hj
        refine ⟨occursAt_cons_succ_iff.mpr hoccurs, fun i hi => ?_⟩
        -- Nothing is found in front, as the marker does not begin here.
        cases i with
        | zero => exact absurd (List.isPrefixOf_iff_prefix.mpr (occursAt_zero_iff.mp hi)) hm
        | succ i => exact Nat.succ_le_succ (hleast (occursAt_cons_succ_iff.mp hi))

/-- A marker that is not found does not occur. -/
theorem not_occursAt_of_offsetOf? (h : offsetOf? marker bytes = none) (k : Nat) : ¬OccursAt marker bytes k := by
  induction bytes generalizing k with
  | nil =>
      unfold offsetOf? at h
      split at h
      · cases h
      · rename_i hm
        exact fun hk => hm (occursAt_nil_iff.mp hk).1
  | cons b bytes ih =>
      unfold offsetOf? at h
      split at h
      · cases h
      · rename_i hm
        cases k with
        | zero => exact fun hk => hm (List.isPrefixOf_iff_prefix.mpr (occursAt_zero_iff.mp hk))
        | succ k => exact fun hk => ih (Option.map_eq_none_iff.mp h) k (occursAt_cons_succ_iff.mp hk)

/-- What lies inside of the bytes does not begin behind their end. -/
theorem OccursAt.le_length (h : OccursAt marker bytes k) : k ≤ bytes.length := by
  obtain ⟨front, back, rfl, rfl⟩ := h
  rw [List.append_assoc, List.length_append]
  exact Nat.le_add_right _ _

end Occurrences

/-! ## Where a terminated text ends -/

/-- The text is what stands in front of the first NUL byte, and it takes that byte with it; where there is none, it is
all bytes. -/
structure Terminates (bytes body : List UInt8) (n : Nat) : Prop where
  nonzero : 0 ∉ body
  taken : (∃ rest, bytes = body ++ 0 :: rest ∧ n = body.length + 1) ∨ (bytes = body ∧ n = body.length)

/-- What stands before the first zero, and how far the text goes with it. -/
theorem terminates_takeWhile (bytes : List UInt8) :
    Terminates bytes (bytes.takeWhile (· != 0)) (min ((bytes.takeWhile (· != 0)).length + 1) bytes.length) := by
  induction bytes with
  | nil => exact ⟨nofun, .inr ⟨rfl, rfl⟩⟩
  | cons b bytes ih =>
      by_cases hb : b = 0
      · subst hb
        refine ⟨nofun, .inl ⟨bytes, rfl, ?_⟩⟩
        exact Nat.min_eq_left (Nat.succ_le_succ (Nat.zero_le _))
      · obtain ⟨hnonzero, htaken⟩ := ih
        have hcons : (b :: bytes).takeWhile (· != 0) = b :: bytes.takeWhile (· != 0) :=
          List.takeWhile_cons_of_pos (bne_iff_ne.mpr hb)
        -- Another character in front, and the same end one place further on.
        rw [hcons, List.length_cons, List.length_cons, Nat.succ_min_succ]
        refine ⟨fun h => ?_, htaken.imp ?_ ?_⟩
        · rcases List.mem_cons.mp h with h | h
          · exact hb h.symm
          · exact hnonzero h
        · rintro ⟨rest, hbytes, hn⟩
          exact ⟨rest, congrArg (b :: ·) hbytes, congrArg Nat.succ hn⟩
        · rintro ⟨hbytes, hn⟩
          exact ⟨congrArg (b :: ·) hbytes, congrArg Nat.succ hn⟩

/-! ## What is left in a reader -/

namespace Reader

variable {r : Reader}

/-- The bytes that are left begin at the position. -/
theorem unread_eq (r : Reader) : r.unread = (r.data.toList.drop r.pos).take r.remaining := by
  rw [unread, Buffer.window_eq, List.drop_take, remaining]

theorem Sound.length_unread (h : r.Sound) : r.unread.length = r.remaining := by
  rw [unread, Buffer.length_window, Nat.min_eq_left h.stop_le, remaining]

/-- A terminated text is always read, with or without its terminator. -/
theorem Sound.readTerminated_eq (h : r.Sound) (encoding : Text.Encoding) : ∃ body n, Terminates r.unread body n ∧
    r.readTerminated encoding = .ok (Text.decode encoding body, { r with pos := r.pos + n }) := by
  refine ⟨_, _, terminates_takeWhile r.unread, ?_⟩
  rw [readTerminated, h.read_eq (h.length_unread ▸ Nat.min_le_right _ _)]
  rfl

/-- The distance is the least one at which the marker occurs, or else that to the end. -/
theorem Sound.distance_spec (h : r.Sound) (marker : List UInt8) :
    IsLeast {k | OccursAt marker r.unread k} (r.distance marker) ∨
      (∀ k, ¬OccursAt marker r.unread k) ∧ r.distance marker = r.remaining := by
  unfold distance
  cases ho : offsetOf? marker r.unread with
  | some k => exact .inl (isLeast_of_offsetOf? ho)
  | none => exact .inr ⟨not_occursAt_of_offsetOf? ho, h.length_unread⟩

theorem Sound.distance_le (h : r.Sound) (marker : List UInt8) : r.distance marker ≤ r.remaining := by
  rcases h.distance_spec marker with ⟨hoccurs, -⟩ | ⟨-, heq⟩
  · rw [← h.length_unread]
    exact hoccurs.le_length
  · exact Nat.le_of_eq heq

end Reader

namespace Operation

/-- **What is searched is what can be read.** After any operations, the bytes in which texts and markers are searched
are as many as remain, from the position on. So a terminated text is always read: it is what stands in front of the
first NUL byte, or all that is left. And the distance to a marker is the least one at which it lies wholly inside of
these bytes, or else all of them, so that as many bytes can be read. -/
theorem session_unread (data : Buffer) (order : ByteOrder) (ops : List Operation) :
    let r := (session data order ops).reader
    (r.unread = (data.toList.drop r.pos).take r.remaining ∧ r.unread.length = r.remaining) ∧
    (∀ encoding, ∃ body n, Terminates r.unread body n ∧
      r.readTerminated encoding = .ok (Text.decode encoding body, { r with pos := r.pos + n })) ∧
    ∀ marker, (IsLeast {k | OccursAt marker r.unread k} (r.distance marker) ∨
        (∀ k, ¬OccursAt marker r.unread k) ∧ r.distance marker = r.remaining) ∧
      ∃ bytes, r.read (r.distance marker) = .ok (bytes, { r with pos := r.pos + r.distance marker }) := by
  intro r
  have hconfined : r.Confined data := confined_foldl (Reader.confined_ofBuffer data order) ops
  have hsound : r.Sound := hconfined.sound
  refine ⟨⟨?_, hsound.length_unread⟩, hsound.readTerminated_eq, fun marker => ⟨hsound.distance_spec marker, ?_⟩⟩
  · rw [r.unread_eq, hconfined.data_eq]
  · exact ⟨_, hsound.read_eq (hsound.distance_le marker)⟩

end Operation

end BinaryFormat
