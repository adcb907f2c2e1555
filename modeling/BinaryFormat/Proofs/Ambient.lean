import BinaryFormat.Proofs.Balance

/-!
# What a step makes of a buffer

What a step yields can be judged by the buffer being read and the byte order in force, whatever else the run
carries along. The byte order is a matter of the scopes that are open, and a step leaves them as they were,
so everything that two steps in a row yield is judged by the same byte order. Only two brackets change what is
judged by: a byte order that a struct sets, and a decompressed buffer.
-/

namespace BinaryFormat

open Schema (Field)

namespace Run

variable {r r' : Run}

/-- The byte order is part of the frames, and those are back after a step that returns. -/
theorem Returns.byteOrder (h : r.Returns r') : r'.reader.byteOrder = r.reader.byteOrder :=
  Reader.byteOrder_congr h.order h.frames

end Run

namespace Decoding

variable {α β : Type}

/-- Whatever the step yields in a sound run fits the buffer and the byte order in force. -/
structure Makes (x : Decoding α) (J : Buffer → ByteOrder → α → Prop) : Prop where
  balanced : x.Balanced false
  fits : ∀ {r r' : Run} {a : α}, r.reader.Sound → x r = .done a r' →
    J r.reader.data r.reader.byteOrder a

namespace Makes

variable {I J : Buffer → ByteOrder → α → Prop} {K : Buffer → ByteOrder → β → Prop}

theorem mono {J' : Buffer → ByteOrder → α → Prop} {x : Decoding α} (h : x.Makes J)
    (hJ : ∀ data order a, J data order a → J' data order a) : x.Makes J' :=
  ⟨h.balanced, fun hs hx => hJ _ _ _ (h.fits hs hx)⟩

theorem pure {a : α} (h : ∀ data order, J data order a) : Makes (pure a) J where
  balanced := .reading (.pure a)
  fits _ hx := by
    obtain ⟨rfl, -⟩ := Outcome.done.inj hx
    exact h _ _

theorem fail (c : Cause) : Makes (fail c) J := ⟨.reading (.fail c), fun _ hx => nomatch hx⟩

theorem unfinished : Makes unfinished J := ⟨fun _ => trivial, fun _ hx => nomatch hx⟩

/-- What the second step yields may be judged by what the first one did. -/
theorem bind {x : Decoding α} {f : α → Decoding β} (hx : x.Makes I)
    (hf : ∀ a, x.Yields a → (f a).Makes fun data order b => I data order a → K data order b) :
    (x >>= f).Makes K where
  balanced := hx.balanced.bind fun a ha => (hf a ha).balanced
  fits {r r'' b} hs h := by
    obtain ⟨a, r', h₁, h₂⟩ := bind_eq_done h
    have hr := hx.balanced.returns h₁
    have hb := (hf a ⟨r, r', h₁⟩).fits (hr.sound hs) h₂
    rw [hr.data, hr.byteOrder] at hb
    exact hb (hx.fits hs h₁)

/-- A step in front, of which nothing is to be known. -/
theorem behind {x : Decoding α} {f : α → Decoding β} (hx : x.Balanced false)
    (hf : ∀ a, x.Yields a → (f a).Makes K) : (x >>= f).Makes K :=
  bind (I := fun _ _ _ => True) ⟨hx, fun _ _ => trivial⟩ fun a ha => (hf a ha).mono fun _ _ _ h _ => h

/-- A position is never behind the end of the buffer, since every scope ends in it. -/
theorem pos : pos.Makes fun data _ p => p ≤ data.size where
  balanced := .reading .pos
  fits hs hx := by
    obtain ⟨rfl, -⟩ := Outcome.done.inj hx
    exact hs.pos_le

/-- Naming the place of a failure changes nothing about what is made. -/
theorem within {x : Decoding α} (segment : String) (type : FieldType) (h : x.Makes J) :
    (within segment type x).Makes J where
  balanced := h.balanced.within segment type
  fits {r r' a} hs hx := by
    obtain ⟨r₁, hr, -⟩ := within_eq_done hx
    exact h.fits (r := { r with path := segment :: r.path }) hs hr

/-- A narrower scope lies in the same buffer and keeps the byte order. -/
theorem bounded {x : Decoding α} (size : Nat) (h : x.Makes J) : (Decoder.bounded size x).Makes J where
  balanced := h.balanced.bounded size
  fits {r r' a} hs hx := by
    obtain ⟨_, r₁, henter, h₁⟩ := bind_eq_done hx
    obtain ⟨_, r₂, hr, h₂⟩ := bind_eq_done h₁
    obtain ⟨_, r₃, -, h₃⟩ := bind_eq_done h₂
    obtain ⟨rfl, -⟩ := Outcome.done.inj h₃
    obtain ⟨reader, he, rfl⟩ := move_eq_done henter
    obtain ⟨hsize, rfl⟩ := Reader.enter_eq_ok he
    have hinner := hs.push (s := ⟨r.reader.pos, r.reader.pos + size, none, false, []⟩) hsize
    have ha := h.fits hinner hr
    exact ha

/-- What is made inside an overlay is about the order of the overlay, whatever is in force outside. -/
theorem overlaid {x : Decoding α} (order : ByteOrder) (h : x.Makes J) :
    (Decoder.overlaid order x).Makes fun data _ a => J data order a where
  balanced := h.balanced.overlaid order
  fits {r r' a} hs hx := by
    obtain ⟨_, r₁, hoverlay, h₁⟩ := bind_eq_done hx
    obtain ⟨_, r₂, hr, h₂⟩ := bind_eq_done h₁
    obtain ⟨_, r₃, -, h₃⟩ := bind_eq_done h₂
    obtain ⟨rfl, -⟩ := Outcome.done.inj h₃
    obtain ⟨-, rfl⟩ := Outcome.done.inj hoverlay
    have ha := h.fits (r := { r with reader := r.reader.overlay order }) (hs.push (Nat.le_refl _)) hr
    exact ha

theorem sought {x : Decoding α} (f : Field) (h : x.Makes J) : (Decoder.sought f x).Makes J where
  balanced := h.balanced.sought f fun hb => nomatch hb
  fits {r r' a} hs hx := by
    obtain ⟨before, r₁, hseek, h₁⟩ := bind_eq_done hx
    obtain ⟨_, r₂, hr, h₂⟩ := bind_eq_done h₁
    obtain ⟨_, r₃, -, h₃⟩ := bind_eq_done h₂
    obtain ⟨rfl, -⟩ := Outcome.done.inj h₃
    have hat := Decoder.seek_ensures f r
    rw [hseek] at hat
    obtain ⟨-, -, rfl⟩ | ⟨-, -, target, ht, rfl⟩ := hat.2
    · exact h.fits hs hr
    · have ha := h.fits (r := { r with reader := { r.reader with pos := target } }) (hs.congr rfl rfl ht) hr
      exact ha

theorem descended (d : Decoder) {x : Decoding α} (h : x.Makes J) : (d.descended x).Makes J where
  balanced := h.balanced.descended d
  fits {r r' a} hs hx := by
    obtain ⟨_, r₁, hdescend, h₁⟩ := bind_eq_done hx
    obtain ⟨_, r₂, hr, h₂⟩ := bind_eq_done h₁
    obtain ⟨_, r₃, -, h₃⟩ := bind_eq_done h₂
    obtain ⟨rfl, -⟩ := Outcome.done.inj h₃
    obtain ⟨rfl, -⟩ := d.descend_eq_done hdescend
    exact h.fits (r := { r with depth := r.depth + 1 }) hs hr

/-- Inside a stream the judgement is about the stream, in the order that the schema starts with. -/
theorem inBuffer (d : Decoder) {x : Decoding α} (data : Buffer) (h : x.Makes J) :
    (d.inBuffer data x).Makes fun _ _ a => J data d.schema.order a where
  balanced := h.balanced.inBuffer d data
  fits {r r' a} _ hx := by
    obtain ⟨r₁, hr, -⟩ := inBuffer_eq_done hx
    exact h.fits (Reader.sound_ofBuffer data d.schema.order) hr

end Makes

end Decoding

end BinaryFormat
