import Mathlib.Algebra.Ring.Nat
import Mathlib.Order.Bounds.Defs
import BinaryFormat.Proofs.Sessions
import BinaryFormat.Proofs.Trace

/-!
# Alignment is exact

To align is to go to the least multiple from the position on, if the innermost scope reaches as far. Positions are
counted here without a bound, while a position is a word of 64 bits and a multiple may be any word. So the same
computation is done in words as well, and is given up at the first sum or difference that wraps. It never is, and the
two agree.

The one sum that could wrap is that of the position and the bytes left to the multiple. If the position is below the
multiple, the sum is not above the multiple, which is a word. Otherwise what is left is less than the multiple, and so
both parts are below half of a word, since the position is in the buffer. Nothing is said of where the scope ends: a
seek may have led behind it.
-/

namespace BinaryFormat

/-! ## Multiples -/

/-- The bytes that are left lead to the least multiple from the offset on. -/
theorem isLeast_multiple (offset : Nat) {n : Nat} (hn : 0 < n) :
    IsLeast {m | n ∣ m ∧ offset ≤ m} (offset + (n - offset % n) % n) := by
  refine ⟨⟨?_, Nat.le_add_right _ _⟩, ?_⟩
  · rw [add_padding_eq offset n hn]
    exact Nat.dvd_mul_left n _
  · rintro m ⟨⟨k, rfl⟩, hle⟩
    rw [add_padding_eq offset n hn, Nat.mul_comm n k]
    refine Nat.mul_le_mul_right n (Nat.le_of_lt_succ ?_)
    rw [Nat.div_lt_iff_lt_mul hn, Nat.succ_mul, Nat.mul_comm k n]
    omega

/-- From an offset in the lower half of the words, the next multiple is a word. -/
theorem add_padding_lt {offset n : Nat} (hoffset : offset < 2 ^ 63) (hpos : 0 < n) (hn : n < 2 ^ 64) :
    offset + (n - offset % n) % n < 2 ^ 64 := by
  by_cases h : offset < n
  · have hleft : (n - offset % n) % n ≤ n - offset % n := Nat.mod_le _ _
    rw [Nat.mod_eq_of_lt h] at hleft ⊢
    omega
  · have hleft : (n - offset % n) % n < n := Nat.mod_lt _ hpos
    omega

namespace Reader

variable {r : Reader} {n : Nat}

theorem align_of_le_one (r : Reader) (hn : n ≤ 1) : r.align n = .ok (0, r) := if_pos hn

/-- Where the padding fits into the scope, aligning skips exactly that. -/
theorem align_of_fits (hn : 1 < n) (h : r.pos + r.padding n ≤ r.scope.stop) :
    r.align n = .ok (r.padding n, { r with pos := r.pos + r.padding n }) := by
  rw [align, if_neg (Nat.not_le_of_lt hn), if_pos h]

/-- Behind an alignment nothing is left to the multiple. -/
theorem align_align {r' : Reader} {padding : Nat} (h : r.align n = .ok (padding, r')) : r'.align n = .ok (0, r') := by
  by_cases hn : n ≤ 1
  · exact r'.align_of_le_one hn
  · have hn : 1 < n := Nat.lt_of_not_le hn
    by_cases hs : r.pos + r.padding n ≤ r.scope.stop
    · rw [align_of_fits hn hs] at h
      obtain ⟨rfl, rfl⟩ := Prod.mk.inj (Except.ok.inj h)
      have hdvd : n ∣ r.pos + r.padding n := (isLeast_multiple r.pos (Nat.lt_of_succ_lt hn)).1.1
      have hnone : ({ r with pos := r.pos + r.padding n } : Reader).padding n = 0 := by
        rw [padding, Nat.mod_eq_zero_of_dvd hdvd, Nat.sub_zero, Nat.mod_self]
      rw [align_of_fits hn (by rw [hnone]; exact hs), hnone]
      rfl
    · cases (LacksRoom.align_eq ⟨hn, Nat.lt_of_not_le hs⟩).symm.trans h

end Reader

/-! ## Words -/

namespace Word

/-- The sum of two words, unless it wraps. -/
def add? (a b : UInt64) : Option UInt64 := if a.toNat + b.toNat < 2 ^ 64 then some (a + b) else none

/-- The difference of two words, unless it wraps. -/
def sub? (a b : UInt64) : Option UInt64 := if b ≤ a then some (a - b) else none

/-- The bytes between a position and the next multiple. -/
def padding? (pos n : UInt64) : Option UInt64 := (sub? n (pos % n)).map (· % n)

variable {a b : UInt64}

/-- A sum of words that fits into a word is there, and is the sum of the numbers. -/
theorem exists_add? (h : a.toNat + b.toNat < 2 ^ 64) : ∃ c, add? a b = some c ∧ c.toNat = a.toNat + b.toNat := by
  refine ⟨a + b, if_pos h, ?_⟩
  rw [UInt64.toNat_add]
  exact Nat.mod_eq_of_lt h

theorem exists_sub? (h : b.toNat ≤ a.toNat) : ∃ c, sub? a b = some c ∧ c.toNat = a.toNat - b.toNat := by
  have hle : b ≤ a := UInt64.le_iff_toNat_le.mpr h
  exact ⟨a - b, if_pos hle, UInt64.toNat_sub_of_le a b hle⟩

/-- Computed in words, the padding is what it is among the natural numbers; no step of it overflows. -/
theorem exists_padding? (pos : UInt64) {n : UInt64} (hn : 0 < n.toNat) :
    ∃ c, padding? pos n = some c ∧ c.toNat = (n.toNat - pos.toNat % n.toNat) % n.toNat := by
  have hmod : (pos % n).toNat = pos.toNat % n.toNat := UInt64.toNat_mod pos n
  have hle : (pos % n).toNat ≤ n.toNat := hmod ▸ Nat.le_of_lt (Nat.mod_lt _ hn)
  obtain ⟨rest, hrest, hword⟩ := exists_sub? hle
  refine ⟨rest % n, by rw [padding?, hrest, Option.map_some], ?_⟩
  rw [UInt64.toNat_mod, hword, hmod]

end Word

namespace Reader

/-- The move to the next multiple, worked out in words, unless a sum or a difference in it wraps. -/
def alignInWords? (r : Reader) (n : UInt64) : Option (Except Cause (Nat × Reader)) :=
  let pos := UInt64.ofNat r.pos
  let stop := UInt64.ofNat r.scope.stop
  if n ≤ 1 then some (.ok (0, r))
  else do
    let padding ← Word.padding? pos n
    let target ← Word.add? pos padding
    if target ≤ stop then some (.ok (padding.toNat, { r with pos := target.toNat }))
    else do
      let excess ← Word.sub? target stop
      some (.error (.alignTooFar n.toNat excess.toNat))

/-- While the position and the scope stay below 2^63, nothing overflows, and words and numbers agree. -/
theorem alignInWords?_eq {r : Reader} (hpos : r.pos < 2 ^ 63) (hstop : r.scope.stop < 2 ^ 63) (n : UInt64) :
    r.alignInWords? n = some (r.align n.toNat) := by
  have hn : n ≤ 1 ↔ n.toNat ≤ 1 := UInt64.le_iff_toNat_le
  have hposWord : (UInt64.ofNat r.pos).toNat = r.pos := UInt64.toNat_ofNat_of_lt' (Nat.lt_trans hpos (by decide))
  have hstopWord : (UInt64.ofNat r.scope.stop).toNat = r.scope.stop :=
    UInt64.toNat_ofNat_of_lt' (Nat.lt_trans hstop (by decide))
  unfold alignInWords? align
  by_cases hle : n.toNat ≤ 1
  · rw [if_pos (hn.mpr hle), if_pos hle]
  · have hone : 0 < n.toNat := by omega
    obtain ⟨padding, hpadding, hleft⟩ := Word.exists_padding? (UInt64.ofNat r.pos) hone
    rw [hposWord, ← Reader.padding] at hleft
    -- The position and the padding of a word add up to a word, since the padding is less than what is aligned to.
    have hfits : (UInt64.ofNat r.pos).toNat + padding.toNat < 2 ^ 64 := by
      rw [hposWord, hleft]
      exact add_padding_lt hpos hone n.toNat_lt
    obtain ⟨target, htarget, hsum⟩ := Word.exists_add? hfits
    rw [hposWord, hleft] at hsum
    have hroom : target ≤ UInt64.ofNat r.scope.stop ↔ r.pos + r.padding n.toNat ≤ r.scope.stop := by
      rw [UInt64.le_iff_toNat_le, hsum, hstopWord]
    simp only [if_neg (mt hn.mp hle), if_neg hle, hpadding, htarget, Option.bind_eq_bind, Option.bind_some]
    by_cases hin : r.pos + r.padding n.toNat ≤ r.scope.stop
    · rw [if_pos (hroom.mpr hin), if_pos hin, hleft, hsum]
    · -- What is missing is only worked out where the target is behind the scope, so the difference does not wrap.
      have hexceeds : (UInt64.ofNat r.scope.stop).toNat ≤ target.toNat := by omega
      obtain ⟨excess, hexcess, hrest⟩ := Word.exists_sub? hexceeds
      rw [if_neg (mt hroom.mp hin), if_neg hin, hexcess, Option.bind_some, hrest, hsum, hstopWord]

end Reader

/-! ## After any operations -/

namespace Operation

variable {run : Run} {n padding : Nat}

theorem step_align_ok {reader : Reader} (h : run.reader.align n = .ok (padding, reader)) :
    (align n).step run = .done (.padding padding) { run with reader } := by
  rw [step, map_eq_pure_bind, Decoding.bind_done (Decoding.read_ok h)]
  rfl

theorem step_align_error {c : Cause} (h : run.reader.align n = .error c) :
    (align n).step run = .failed ⟨c, none⟩ run := by
  rw [step, map_eq_pure_bind, Decoding.bind_failed (Decoding.read_error h)]

/-- **Alignment is exact.** After any operations on a buffer of less than 2 ^ 63 bytes, a multiple of zero or one has
nothing to go to. Any other word leads to the least multiple from the position on if the innermost scope reaches as
far, and otherwise it fails and changes nothing. A second alignment to it stays where it is. No sum and no difference
in this wraps when it is worked out in words. -/
theorem session_align {data : Buffer} (hdata : data.size < 2 ^ 63) (order : ByteOrder) (ops : List Operation)
    (n : UInt64) :
    let run := session data order ops
    let r := run.reader
    (n ≤ 1 → (align n.toNat).step run = .done (.padding 0) run) ∧
    (1 < n → ∃ p, IsLeast {m | n.toNat ∣ m ∧ r.pos ≤ m} p ∧
      (align n.toNat).step run =
        if p ≤ r.scope.stop then .done (.padding (p - r.pos)) { run with reader := { r with pos := p } }
        else .failed ⟨.alignTooFar n.toNat (p - r.scope.stop), none⟩ run) ∧
    (∀ a run', (align n.toNat).step run = .done a run' → (align n.toNat).step run' = .done (.padding 0) run') ∧
    r.pos < 2 ^ 63 ∧ r.scope.stop < 2 ^ 63 ∧ r.alignInWords? n = some (r.align n.toNat) := by
  intro run r
  have hconfined : r.Confined data := confined_foldl (Reader.confined_ofBuffer data order) ops
  have hpos : r.pos < 2 ^ 63 := Nat.lt_of_le_of_lt hconfined.pos_le hdata
  -- Scopes end inside the buffer in every run, which keeps the end of the scope below the bound as well.
  have hstop : r.scope.stop < 2 ^ 63 :=
    Nat.lt_of_le_of_lt hconfined.sound.stop_le (hconfined.data_eq.symm ▸ hdata)
  refine ⟨fun hn => ?_, fun hn => ?_, fun a run' h => ?_, hpos, hstop, Reader.alignInWords?_eq hpos hstop n⟩
  · exact step_align_ok (r.align_of_le_one (UInt64.le_iff_toNat_le.mp hn))
  · have hlt : 1 < n.toNat := UInt64.lt_iff_toNat_lt.mp hn
    refine ⟨r.pos + r.padding n.toNat, isLeast_multiple r.pos (Nat.lt_of_succ_lt hlt), ?_⟩
    rw [Nat.add_sub_cancel_left]
    split
    · rename_i hs
      exact step_align_ok (Reader.align_of_fits hlt hs)
    · rename_i hs
      exact step_align_error (Reader.LacksRoom.align_eq ⟨hlt, Nat.lt_of_not_le hs⟩)
  · cases ha : r.align n.toNat with
    | ok p =>
        obtain ⟨-, rfl⟩ := Outcome.done.inj ((step_align_ok ha).symm.trans h)
        exact step_align_ok (Reader.align_align ha)
    | error c => cases (step_align_error ha).symm.trans h

/-- The position is behind the scope, and the multiple is the last word. -/
theorem session_align_behind_scope :
    let data : Buffer := Array.replicate 8 0
    let run := session data .little [.enter 2, .seek 6]
    let last := UInt64.ofNat (2 ^ 64 - 1)
    data.size < 2 ^ 63 ∧ run.pos = 6 ∧ run.reader.scope.stop = 2 ∧
      (align last.toNat).step run = .failed ⟨.alignTooFar (2 ^ 64 - 1) (2 ^ 64 - 3), none⟩ run ∧
      run.reader.alignInWords? last = some (.error (.alignTooFar (2 ^ 64 - 1) (2 ^ 64 - 3))) := by
  intro data run last
  have hdata : data.size < 2 ^ 63 := by decide
  have hpos : run.reader.pos = 6 := rfl
  have hstop : run.reader.scope.stop = 2 := rfl
  have hlast : last.toNat = 2 ^ 64 - 1 := by decide
  obtain ⟨-, hmore, -, -, -, hwords⟩ := session_align hdata .little [.enter 2, .seek 6] last
  obtain ⟨p, ⟨⟨hdvd, hbehind⟩, hleast⟩, hstep⟩ := hmore (by decide)
  have hle : p ≤ last.toNat := hleast ⟨Nat.dvd_refl _, hpos ▸ hlast ▸ (by decide : 6 ≤ 2 ^ 64 - 1)⟩
  have hge : last.toNat ≤ p := Nat.le_of_dvd (Nat.lt_of_lt_of_le (hpos ▸ Nat.succ_pos 5) hbehind) hdvd
  -- The least multiple of the last word behind 0 is that word itself.
  obtain rfl : last.toNat = p := Nat.le_antisymm hge hle
  have hfar : ¬last.toNat ≤ run.reader.scope.stop := by rw [hstop, hlast]; decide
  rw [if_neg hfar, hstop, hlast] at hstep
  have hpadding : run.reader.padding last.toNat = 2 ^ 64 - 7 := by
    rw [Reader.padding, hpos, hlast]
    decide
  have hroom : run.reader.LacksRoom last.toNat := by
    rw [Reader.LacksRoom, hpadding, hlast, hpos, hstop]
    decide
  have hsum : 6 + (2 ^ 64 - 7) - 2 = 2 ^ 64 - 3 := by decide
  rw [hroom.align_eq, hpadding, hpos, hstop, hlast, hsum] at hwords
  exact ⟨hdata, hpos, hstop, hlast ▸ hstep, hwords⟩

end Operation

end BinaryFormat
