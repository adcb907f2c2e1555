import BinaryFormat.Proofs.Traversal

/-!
# Where an array ends

An array of a counted field has as many elements as it was found to have before the first of them. Every other array
asks behind each element whether that was the last one, and it was if it left the position where it had been, for the
next one would do the same, or if the test of the array says so. The elements are spoken of together with the runs
that they lead from and to, so that what is said of an array is said of every one of its elements: the last ends it,
and those before do not.
-/

namespace BinaryFormat

open Schema (Field StructDef)
open Decoding

/-- A run, and then the runs behind it. -/
def Run.followedBy (r : Run) (runs : Nat → Run) : Nat → Run
  | 0 => r
  | k + 1 => runs k

namespace Decoder

variable {d : Decoder} {rounds : Nat} {nested : StructDef → String → Decoding Node} {f : Field} {nodes : List Node}
  {r r' : Run}

/-- The nodes are those of elements, from a number on, and each of these leads from one of the runs to the next. -/
structure Leads (d : Decoder) (nested : StructDef → String → Decoding Node) (f : Field) (runs : Nat → Run)
    (first : Nat) (r : Run) (nodes : List Node) (r' : Run) : Prop where
  start : runs 0 = r
  stop : runs nodes.length = r'
  step : ∀ k (hk : k < nodes.length), element d nested f (first + k) (runs k) = .done nodes[k] (runs (k + 1))

theorem Leads.nil (first : Nat) (r : Run) : Leads d nested f (fun _ => r) first r [] r :=
  ⟨rfl, rfl, fun _ hk => nomatch hk⟩

theorem Leads.cons {first : Nat} {n : Node} {r₁ : Run} {runs : Nat → Run}
    (helement : element d nested f first r = .done n r₁) (h : Leads d nested f runs (first + 1) r₁ nodes r') :
    Leads d nested f (r.followedBy runs) first r (n :: nodes) r' := by
  refine ⟨rfl, h.stop, fun k hk => ?_⟩
  cases k with
  | zero => exact helement.trans (by rw [← h.start]; rfl)
  | succ k =>
      have hstep := h.step k (Nat.lt_of_succ_lt_succ hk)
      rw [Nat.add_assoc, Nat.add_comm 1 k] at hstep
      exact hstep

/-- An array of a known length is that many elements, each decoded where the one before it ended. -/
theorem leads_countedElements {left : Nat} (h : countedElements d nested f left 0 [] r = .done nodes r') :
    nodes.length = left ∧ ∃ runs, Leads d nested f runs 0 r nodes r' := by
  refine ⟨(length_countedElements h).trans (Nat.zero_add left), ?_⟩
  obtain ⟨new, rfl, hnew⟩ := countedElements_induction
    (P := fun first r nodes r' => ∃ runs, Leads d nested f runs first r nodes r')
    (fun first r => ⟨_, .nil first r⟩) (fun helement ⟨_, h⟩ => ⟨_, h.cons helement⟩) h
  exact hnew

/-- Behind its last element, and behind no other, the array finds that it ends. -/
structure EndsBy (ends : Run → Run → Prop) (runs : Nat → Run) (length : Nat) : Prop where
  pos : 0 < length
  ends_iff : ∀ k < length, k + 1 = length ↔ ends (runs k) (runs (k + 1))

/-- A row that ends behind its first element has a length of one. -/
theorem EndsBy.last {ends : Run → Run → Prop} (h : ends r r') : EndsBy ends (r.followedBy fun _ => r') 1 := by
  refine ⟨Nat.one_pos, fun k hk => ?_⟩
  obtain rfl : k = 0 := Nat.lt_one_iff.mp hk
  exact iff_of_true rfl h

/-- A row goes on for one element more in front, as long as that one does not end it. -/
theorem EndsBy.next {ends : Run → Run → Prop} {runs : Nat → Run} {length : Nat} (h : ¬ ends r (runs 0))
    (hrest : EndsBy ends runs length) : EndsBy ends (r.followedBy runs) (length + 1) := by
  refine ⟨Nat.succ_pos _, fun k hk => ?_⟩
  cases k with
  | zero =>
      have hpos := hrest.pos
      exact iff_of_false (by omega) h
  | succ k => exact (Nat.succ_inj.trans (hrest.ends_iff k (Nat.lt_of_succ_lt_succ hk)))

/-- An open-ended array stops behind the first element that ends it, and behind no earlier one. -/
theorem leads_openElements {isLast : Decoding Bool} {left : Nat} {ends : Run → Run → Prop} (hl : isLast.Unmoving)
    (hends : ∀ {r r' : Run}, r'.pos = r.pos ∨ isLast r' = .done true r' → ends r r')
    (hgoesOn : ∀ {r r' : Run}, r'.pos ≠ r.pos → isLast r' = .done false r' → ¬ ends r r')
    (h : openElements d nested f isLast left 0 [] r = .done nodes r') :
    ∃ runs, Leads d nested f runs 0 r nodes r' ∧ EndsBy ends runs nodes.length := by
  obtain ⟨new, rfl, hnew⟩ := openElements_induction
    (P := fun first r nodes r' => ∃ runs, Leads d nested f runs first r nodes r' ∧ EndsBy ends runs nodes.length) hl
    (fun helement hlast => ⟨_, (Leads.nil _ _).cons helement, .last (hends hlast)⟩)
    (fun helement hpos hlast ⟨runs, hleads, hrest⟩ => ⟨_, hleads.cons helement,
      hrest.next (by rw [hleads.start]; exact hgoesOn hpos hlast)⟩) h
  exact hnew

/-! ## The tests of open-ended arrays -/

/-- What ends an array at the end of its scope: an element that stands still, or one that comes to that end. -/
def EndsAtEnd (before after : Run) : Prop := after.pos = before.pos ∨ after.reader.isExhausted = true

/-- What ends an array at a value: besides what ends an array at the end of its scope, that the value is found. -/
def EndsAtValue (stop : Expression) (before after : Run) : Prop :=
  after.pos = before.pos ∨ holds stop after = .done true after ∨ after.reader.isExhausted = true

/-- An array up to the end of its scope stops where nothing is left, or where an element read nothing. -/
theorem leads_untilEnd {left : Nat} (h : openElements d nested f isExhausted left 0 [] r = .done nodes r') :
    ∃ runs, Leads d nested f runs 0 r nodes r' ∧ EndsBy EndsAtEnd runs nodes.length := by
  refine leads_openElements unmoving_isExhausted (fun hlast => ?_) (fun hpos hlast hends => ?_) h
  · refine hlast.imp id fun htest => ?_
    exact (Outcome.done.inj htest).1
  · obtain hsame | hend := hends
    · exact hpos hsame
    · have hmore := seesEnd_isExhausted.goesOn hlast
      rw [hend] at hmore
      cases hmore

/-- An array up to a value asks its condition behind every element, and then whether anything is left. -/
theorem leads_untilTrue {stop : Expression} {left : Nat}
    (h : openElements d nested f (do if ← holds stop then pure true else isExhausted) left 0 [] r = .done nodes r') :
    ∃ runs, Leads d nested f runs 0 r nodes r' ∧ EndsBy (EndsAtValue stop) runs nodes.length := by
  refine leads_openElements (seesEnd_untilTrue stop).unmoving (fun hlast => ?_) (fun hpos hlast hends => ?_) h
  · refine hlast.imp id fun htest => ?_
    obtain ⟨found, r₁, hstop, hrest⟩ := bind_eq_done htest
    obtain rfl := (Unmoving.holds stop).eq hstop
    cases found with
    | true => exact .inl hstop
    | false => exact .inr (Outcome.done.inj hrest).1
  · obtain hsame | hfound | hend := hends
    · exact hpos hsame
    · rw [bind_done hfound] at hlast
      cases hlast
    · have hmore := (seesEnd_untilTrue stop).goesOn hlast
      rw [hend] at hmore
      cases hmore

/-! ## Arrays -/

/-- The array of a field ends where its field says. -/
def EndsRight (f : Field) (runs : Nat → Run) (length : Nat) : Prop :=
  match f.repetition with
  | .once => length = 0
  | .count n => evalNat "repeat count" n (runs 0) = .done length (runs 0)
  | .untilEnd => (length = 0 ↔ (runs 0).reader.isExhausted = true) ∧
      ∀ k < length, k + 1 = length ↔ EndsAtEnd (runs k) (runs (k + 1))
  | .untilTrue stop => 0 < length ∧ ∀ k < length, k + 1 = length ↔ EndsAtValue stop (runs k) (runs (k + 1))

/-- Whatever its repetition, an array is a row of elements that ends where the repetition says. -/
theorem leads_elements (h : elements d rounds nested f r = .done nodes r') :
    ∃ runs, Leads d nested (elementField f) runs 0 r nodes r' ∧ EndsRight f runs nodes.length := by
  unfold elements at h
  unfold EndsRight
  cases hf : f.repetition with
  | once =>
      rw [hf] at h
      obtain ⟨rfl, rfl⟩ := Outcome.done.inj h
      exact ⟨_, .nil 0 _, rfl⟩
  | count n =>
      rw [hf] at h
      obtain ⟨count, r₁, hcount, h₁⟩ := bind_eq_done h
      obtain ⟨_, r₂, hlimit, h₂⟩ := bind_eq_done h₁
      obtain rfl := (Unmoving.evalNat _ _).eq hcount
      obtain rfl := (d.unmoving_checkElements count).eq hlimit
      obtain ⟨rfl, runs, hleads⟩ := leads_countedElements h₂
      refine ⟨runs, hleads, ?_⟩
      rw [hleads.start]
      exact hcount
  -- Only this kind of array makes its test before the first element as well.
  | untilEnd =>
      rw [hf] at h
      obtain ⟨exhausted, r₁, htest, h₁⟩ := bind_eq_done h
      obtain ⟨hexhausted, rfl⟩ := Outcome.done.inj htest
      cases exhausted with
      | true =>
          obtain ⟨rfl, rfl⟩ := Outcome.done.inj h₁
          exact ⟨_, .nil 0 _, iff_of_true rfl hexhausted, fun _ hk => nomatch hk⟩
      | false =>
          obtain ⟨runs, hleads, hends⟩ := leads_untilEnd h₁
          refine ⟨runs, hleads, iff_of_false (Nat.ne_of_gt hends.pos) ?_, hends.ends_iff⟩
          rw [hleads.start, hexhausted]
          exact Bool.false_ne_true
  | untilTrue stop =>
      rw [hf] at h
      obtain ⟨runs, hleads, hends⟩ := leads_untilTrue h
      exact ⟨runs, hleads, hends.pos, hends.ends_iff⟩

/-- The elements of an array are numbered from zero on, each is decoded where the one before it ended, and the array
ends where its field says. A counted array has as many elements as its count comes to before the first of them. One
that goes on to the end of its scope has none exactly if the scope is at its end already, and otherwise its last
element and no other stands still or comes to that end. One that goes on to a value has an element at least, and its
last element and no other stands still, or is followed by the value, or comes to the end of the scope. -/
theorem array_stops {n : Node} (h : array d rounds nested f r = .done n r') :
    n.content = .array ∧ ∃ runs : Nat → Run, runs 0 = r ∧ runs n.children.length = r' ∧
      (∀ k (hk : k < n.children.length),
        element d nested (elementField f) k (runs k) = .done n.children[k] (runs (k + 1)) ∧
          n.children[k].name = elementName k) ∧
      EndsRight f runs n.children.length := by
  obtain ⟨nodes, helements, rfl⟩ := array_eq_done h
  obtain ⟨runs, hleads, hends⟩ := leads_elements helements
  refine ⟨rfl, runs, hleads.start, hleads.stop, fun k hk => ?_, hends⟩
  have helement := hleads.step k hk
  rw [Nat.zero_add] at helement
  obtain ⟨m, r₁, -, -, -, hnode, -⟩ := element_eq_done helement
  exact ⟨helement, by rw [hnode]⟩

end Decoder

/-! ## Bytes up to one that is not zero -/

namespace Leader

/-- The tokens of the condition `zero`. -/
theorem scan?_stop : Token.scan? 0 (stripBraces "zero".toList).1 =
    some ⟨[⟨.name "zero", ⟨0, 4⟩⟩, ⟨.finish, ⟨4, 4⟩⟩], []⟩ := by
  decide +kernel

/-- The value of the element that was decoded last. -/
def stop : Expression where
  source := "zero"
  tree := .ident "zero" ⟨0, 4⟩
  tree_eq := by
    unfold Expr.ofSource Expr.ofText
    rw [scan?_stop]
    rfl

/-- Bytes up to the first that is not zero. -/
def zeros : Field where
  name := "zero"
  type := .u8
  repetition := .untilTrue stop

/-- A decoder without a limit on the elements of an array. -/
def decoder : Decoder where
  schema := {
    name := "leader"
    structs := [("all", { name := "all", fields := [zeros] })]
    root := "all" }
  options := {}

/-- Two zeros, a seven and a zero, from their start. -/
def start : Run := .start (.ofBuffer #[0, 0, 7, 0] .little)

/-- The third byte is the first that is not zero, and there the array ends, although a byte is left. -/
theorem zeros_stop : ∃ n r', Decoder.array decoder 3 (decoder.struct 3 0) zeros start = .done n r' ∧
    n.children.length = 3 ∧ n.content = .array ∧ ∃ runs, runs 0 = start ∧ runs 3 = r' ∧
      Decoder.EndsRight zeros runs 3 := by
  obtain ⟨n, r', harray, hlength⟩ : ∃ n r', Decoder.array decoder 3 (decoder.struct 3 0) zeros start = .done n r' ∧
      n.children.length = 3 := ⟨_, _, rfl, rfl⟩
  obtain ⟨hcontent, runs, hstart, hstop, -, hends⟩ := Decoder.array_stops harray
  rw [hlength] at hstop hends
  exact ⟨n, r', harray, hlength, hcontent, runs, hstart, hstop, hends⟩

end Leader

end BinaryFormat
