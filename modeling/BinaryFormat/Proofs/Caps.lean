import BinaryFormat.Proofs.Growth

/-!
# How deep and how wide a tree is

The depth of a run is raised where a struct is gone into and lowered where it is left. A failure skips the lowering,
and what makes up for it is that the loop which recovers from the failure sets the depth back. So wherever a decode
gets to, the depth is the number of structs around it, in the buffers of compressed streams too, which inherit it.
The limit is checked on the way in, and for that reason no chain of nodes has more structs than the options allow.

How wide an array may be is checked in two ways: where the number of its elements is known, once and before the
first of them, and otherwise before every element.
-/

namespace BinaryFormat

open Schema (Field StructDef)
open Decoding

namespace Node

/-- The nodes from one node down to a leaf, each of them a child of the one before. -/
inductive Chain : Node → List Node → Prop where
  | leaf {n : Node} : n.children = [] → Chain n [n]
  | child {n c : Node} {path : List Node} : c ∈ n.children → Chain c path → Chain n (n :: path)

/-- How many of these nodes are structs. -/
def structs (nodes : List Node) : Nat := nodes.countP fun n => n.content = .struct

theorem structs_cons (n : Node) (nodes : List Node) :
    structs (n :: nodes) = structs nodes + if n.content = .struct then 1 else 0 := by
  unfold structs
  simp only [List.countP_cons, decide_eq_true_eq]

/-- No chain from the node down has more structs than this. -/
def StructsWithin (k : Nat) (n : Node) : Prop := ∀ path, n.Chain path → structs path ≤ k

namespace StructsWithin

variable {k : Nat} {n m : Node}

/-- A struct adds one to the structs below it. -/
theorem of_struct (hn : n.content = .struct) (hk : 1 ≤ k) (hbelow : ∀ c ∈ n.children, c.StructsWithin (k - 1)) :
    n.StructsWithin k := by
  intro path hpath
  cases hpath with
  | leaf =>
      rw [structs_cons, if_pos hn]
      exact hk
  | child hc hpath =>
      have hrest := hbelow _ hc _ hpath
      rw [structs_cons, if_pos hn]
      omega

/-- A node that is no struct adds nothing to the structs below it. -/
theorem of_ne (hn : n.content ≠ .struct) (hbelow : ∀ c ∈ n.children, c.StructsWithin k) : n.StructsWithin k := by
  intro path hpath
  cases hpath with
  | leaf =>
      rw [structs_cons, if_neg hn]
      exact Nat.zero_le k
  | child hc hpath =>
      rw [structs_cons, if_neg hn]
      exact hbelow _ hc _ hpath

/-- Nodes that are alike have the same chains below them. -/
theorem like (hl : n.Like m) (h : m.StructsWithin k) : n.StructsWithin k := by
  intro path hpath
  cases hpath with
  | leaf hnil =>
      have hm := h [m] (.leaf (hl.children ▸ hnil))
      rw [structs_cons] at hm ⊢
      rwa [hl.content]
  | child hc hpath =>
      have hm := h _ (.child (hl.children ▸ hc) hpath)
      rw [structs_cons] at hm ⊢
      rwa [hl.content]

end StructsWithin

end Node

namespace Decoder

open Node (StructsWithin)

/-! ## The structs around a call -/

/-- The struct that a call goes into, if it does. -/
def Call.opens : Call → List StructDef
  | .struct _ s _ => [s]
  | _ => []

/-- The structs that a decode is in when it gets to a call, innermost first. -/
inductive Around (d : Decoder) (rounds : Nat) (data : Buffer) : List StructDef → Call → Run → Prop where
  | root {s : StructDef} :
      d.schema.structs.get? d.schema.root = some s →
      Around d rounds data [] (.struct (d.options.maxDepth.toNat + 1) s d.schema.name)
        (.start (.ofBuffer data d.schema.order))
  | call {around : List StructDef} {c c' : Call} {r r' : Run} :
      Around d rounds data around c r → Calls d rounds c r c' r' → Around d rounds data (c.opens ++ around) c' r'

variable {d : Decoder} {rounds : Nat}

/-- Wherever a decode gets to, there are structs that it is in. -/
theorem Reaches.exists_around {data : Buffer} {c : Call} {r : Run} (h : Reaches d rounds data c r) :
    ∃ around, Around d rounds data around c r := by
  induction h with
  | root hs => exact ⟨[], .root hs⟩
  | call _ hcall ih =>
      obtain ⟨around, h⟩ := ih
      exact ⟨_, h.call hcall⟩

/-- The structs around a call are a record of how the decode got there. -/
theorem Around.reaches {data : Buffer} {around : List StructDef} {c : Call} {r : Run}
    (h : Around d rounds data around c r) : Reaches d rounds data c r := by
  induction h with
  | root hs => exact .root hs
  | call _ hcall ih => exact ih.call hcall

/-! ## What a call does to the depth -/

theorem depth_inOrder (r : Run) (order : Option ByteOrder) : (r.inOrder order).depth = r.depth := by
  cases order <;> rfl

/-- A field leaves the depth as it was, failed or not. -/
theorem depth_iteration {levels : Nat} {f : Field} {found : List Node} {p : Option Node × Bool} {r r' : Run}
    (h : iteration d rounds (d.struct rounds levels) f found r = .done p r') : r'.depth = r.depth :=
  ((d.balanced_iteration rounds levels f found).level h).depth

theorem depth_element {levels i : Nat} {f : Field} {n : Node} {r r' : Run}
    (h : element d (d.struct rounds levels) f i r = .done n r') : r'.depth = r.depth :=
  ((d.balanced_element_levels rounds levels f i).level h).depth

/-- The place of a field that is there is at the depth of the field. -/
theorem depth_place {f : Field} {path : List String} {r r₁ r' : Run}
    (hpresent : isPresent f { r with path } = .done true r₁) (happroach : approach f r₁ = .done () r') :
    r'.depth = r.depth := by
  obtain rfl := (unmoving_isPresent f).eq hpresent
  have hdepth := (returns_approach happroach).depth
  exact hdepth

/-- A call goes one struct deeper if it is the call of a struct, and otherwise the depth stays. -/
theorem Calls.depth {c c' : Call} {r r' : Run} (h : Calls d rounds c r c' r') :
    r'.depth = c.opens.length + r.depth := by
  cases h with
  | body hdescend =>
      obtain ⟨rfl, -⟩ := d.descend_eq_done hdescend
      exact (depth_inOrder _ _).trans (Nat.add_comm _ _)
  | next hstep => exact (depth_iteration hstep).trans (Nat.zero_add _).symm
  | content hpresent happroach => exact (depth_place hpresent happroach).trans (Nat.zero_add _).symm
  | nextElement helement => exact (depth_element helement).trans (Nat.zero_add _).symm
  | field | once | array | element | nested | sized | unpacked => exact (Nat.zero_add _).symm

/-- The depth is the number of structs around. -/
theorem Around.depth {data : Buffer} {around : List StructDef} {c : Call} {r : Run}
    (h : Around d rounds data around c r) : r.depth = around.length := by
  induction h with
  | root => rfl
  | call _ hcall ih => rw [hcall.depth, ih, List.length_append]

/-! ## How many structs a chain has -/

/-- Below a call there are at most so many structs in a chain as the options still allow there. -/
theorem Builds.structsWithin {c : Call} {r : Run} {nodes : List Node} (h : Builds d rounds c r nodes) :
    ∀ n ∈ nodes, n.StructsWithin (d.options.maxDepth.toNat - r.depth) := by
  induction h with
  | struct hn hdescend _ ih =>
      -- the limit was checked on the way in, so there is room for this struct above those below it
      intro n hmem
      obtain rfl := List.mem_singleton.mp hmem
      obtain ⟨rfl, hmax⟩ := d.descend_eq_done hdescend
      rw [depth_inOrder, ← Nat.sub_sub] at ih
      exact .of_struct (congrArg Node.content (node_of_struct hn)) (by omega) ih
  | noField | noElement => nofun
  | absent hstep _ ih =>
      rw [depth_iteration hstep] at ih
      exact ih
  | present hstep _ _ ihfield ih =>
      rw [depth_iteration hstep] at ih
      intro n hmem
      rcases List.mem_cons.mp hmem with rfl | hmem
      · exact ihfield _ (.head _)
      · exact ih n hmem
  | failed hstep _ ih =>
      rw [depth_iteration hstep] at ih
      intro n hmem
      rcases List.mem_cons.mp hmem with rfl | hmem
      · exact .of_ne nofun nofun
      · exact ih n hmem
  | field hpresent happroach _ hl ih =>
      rw [depth_place hpresent happroach] at ih
      intro n hmem
      obtain rfl := List.mem_singleton.mp hmem
      exact (ih _ (.head _)).like hl
  | once _ _ ih => exact ih
  | array hf hc helements _ ih =>
      intro n hmem
      obtain rfl := List.mem_singleton.mp hmem
      exact .of_ne (by rw [hc]; nofun) ih
  | element helement _ hl _ ihsingle ih =>
      rw [depth_element helement] at ih
      intro n hmem
      rcases List.mem_cons.mp hmem with rfl | hmem
      · exact (ihsingle _ (.head _)).like hl
      · exact ih n hmem
  | leaf hn =>
      intro n hmem
      obtain rfl := List.mem_singleton.mp hmem
      exact .of_ne (Node.content_ne_struct_of_isBranch hn.isBranch) (hn.children ▸ nofun)
  | nested _ _ _ _ ih => exact ih
  | sized _ _ _ _ _ hl ih =>
      intro n hmem
      obtain rfl := List.mem_singleton.mp hmem
      exact (ih _ (.head _)).like hl
  | unpacked _ _ _ _ _ _ hholds _ ih =>
      intro n hmem
      obtain rfl := List.mem_singleton.mp hmem
      refine .of_ne (Node.content_ne_struct_of_isBranch hholds.isBranch_eq) ?_
      rw [hholds.children]
      exact ih

/-! ## How many elements an array has -/

/-- The options allow for an array of this many elements. -/
def Fits (d : Decoder) (n : Nat) : Prop := 0 < d.options.maxElements.toNat → n ≤ d.options.maxElements.toNat

section Elements

variable {nested : StructDef → String → Decoding Node} {f : Field} {nodes : List Node} {r r' : Run}

/-- Before each element the loop checks that there may be one more. -/
theorem fits_openElements {isLast : Decoding Bool} {left i : Nat} {found : List Node} (hi : found.length = i)
    (h : openElements d nested f isLast left i found r = .done nodes r') : d.Fits nodes.length := by
  induction left generalizing i found r with
  | zero => cases h
  | succ left ih =>
      obtain ⟨_, r₁, hlimit, h₁⟩ := bind_eq_done h
      obtain ⟨before, r₂, -, h₂⟩ := bind_eq_done h₁
      obtain ⟨n, r₃, -, h₃⟩ := bind_eq_done h₂
      obtain ⟨after, r₄, -, h₄⟩ := bind_eq_done h₃
      -- the check before the element was for as many as there are if it is the last one
      have hlast : d.Fits (n :: found).reverse.length := by
        rw [List.length_reverse, List.length_cons, hi]
        exact d.checkElements_eq_done hlimit
      split at h₄
      · obtain ⟨rfl, -⟩ := Outcome.done.inj h₄
        exact hlast
      · obtain ⟨last, r₅, -, h₅⟩ := bind_eq_done h₄
        split at h₅
        · obtain ⟨rfl, -⟩ := Outcome.done.inj h₅
          exact hlast
        · have hlonger : (n :: found).length = i + 1 := by rw [List.length_cons, hi]
          exact ih hlonger h₅

/-- However an array ends, it has no more elements than the options allow. -/
theorem fits_elements (h : elements d rounds nested f r = .done nodes r') : d.Fits nodes.length := by
  unfold elements at h
  cases hf : f.repetition with
  | once =>
      rw [hf] at h
      obtain ⟨rfl, -⟩ := Outcome.done.inj h
      exact fun _ => Nat.zero_le _
  | count n =>
      rw [hf] at h
      obtain ⟨count, r₁, -, h₁⟩ := bind_eq_done h
      obtain ⟨_, r₂, hlimit, h₂⟩ := bind_eq_done h₁
      rw [length_countedElements h₂, List.length_nil, Nat.zero_add]
      exact d.checkElements_eq_done hlimit
  | untilEnd =>
      rw [hf] at h
      obtain ⟨exhausted, r₁, -, h₁⟩ := bind_eq_done h
      cases exhausted with
      | true =>
          obtain ⟨rfl, -⟩ := Outcome.done.inj h₁
          exact fun _ => Nat.zero_le _
      | false => exact fits_openElements List.length_nil h₁
  | untilTrue stop =>
      rw [hf] at h
      exact fits_openElements List.length_nil h

end Elements

/-- No chain of nodes from the root down has more structs than the options allow, and no array has more elements. At
every iteration of the loop over the fields of a struct the depth is the number of structs that the decode is in,
recovered failures or not. -/
theorem depth_and_width_capped (d : Decoder) (data : Buffer) :
    (∀ t, d.Answers data (.ok t) →
      (∀ path, t.root.Chain path → Node.structs path ≤ d.options.maxDepth.toNat) ∧
      (0 < d.options.maxElements.toNat → ∀ n, t.root.Contains n → n.content = .array →
        n.children.length ≤ d.options.maxElements.toNat)) ∧
    ∀ rounds levels fs found r, Reaches d rounds data (.fields levels fs found) r →
      (∃ around, Around d rounds data around (.fields levels fs found) r) ∧
      ∀ around, Around d rounds data around (.fields levels fs found) r → r.depth = around.length := by
  refine ⟨fun t ht => ?_, fun rounds levels fs found r hr => ⟨hr.exists_around, fun _ h => h.depth⟩⟩
  obtain ⟨rounds, s, hs, hbuilds⟩ := ht.builds
  refine ⟨hbuilds.structsWithin _ (.head _), fun hmax n hn => ?_⟩
  -- A node has the content of an array only where elements were decoded.
  refine hbuilds.throughout (P := fun n => n.content = .array → n.children.length ≤ d.options.maxElements.toNat)
    ?_ ?_ ?_ ?_ (.root hs) _ (.head _) n hn
  · intro n m hl hm hc
    rw [hl.children]
    exact hm (hl.content ▸ hc)
  · intro n hb hc
    unfold Node.isBranch at hb
    rw [hc] at hb
    cases hb
  · intro levels f n r r' _ helements _
    exact fits_elements helements hmax
  · intro levels s name n r r' _ hstruct hc
    rw [node_of_struct hstruct] at hc
    cases hc

/-- Two bytes in a stream. -/
def packed : Field where
  name := "packed"
  type := .compressed
  size := some (.fixed 2)
  compression := some "none"
  structRef := some "pair"

/-- A box, and a stream behind it. -/
def boxAndStream : StructDef where
  name := "all"
  fields := [box, packed]

/-- The padding of the box does not fit in it, and the stream is as deep and as wide as the options allow. -/
def burrow : Decoder where
  schema := {
    name := "burrow"
    structs := [
      ("all", boxAndStream),
      ("inner", { name := "inner", fields := [{ name := "n", type := .u16 }], align := some 8 }),
      ("pair", { name := "pair", fields := [{ name := "bytes", type := .u8, repetition := .untilEnd }] })]
    root := "all" }
  options := { mode := .recover, maxDepth := 2, maxElements := 2 }

/-- The box fails two structs deep. Were the depth not set back then, the stream would be refused. -/
theorem burrow_capped : ∃ t, burrow.Answers #[1, 2, 3, 4] (.ok t) ∧
    t.root.children.map (fun n => (n.isFailed, n.children.length)) = [(true, 0), (false, 1)] ∧
    (∀ path, t.root.Chain path → Node.structs path ≤ 2) ∧
    (∀ n, t.root.Contains n → n.content = .array → n.children.length ≤ 2) ∧
    ∃ found r, Reaches burrow 0 #[1, 2, 3, 4] (.fields 2 [packed] found) r ∧ r.recovered ≠ [] ∧ r.depth = 1 := by
  obtain ⟨hcapped, hdepth⟩ := depth_and_width_capped burrow #[1, 2, 3, 4]
  obtain ⟨t, ht, hchildren⟩ : ∃ t, burrow.Answers #[1, 2, 3, 4] (.ok t) ∧
      t.root.children.map (fun n => (n.isFailed, n.children.length)) = [(true, 0), (false, 1)] := by
    refine burrow.exists_answer_of_decode? 2 ?_
    decide +kernel
  obtain ⟨hchains, harrays⟩ := hcapped t ht
  have hroot : Around burrow 0 #[1, 2, 3, 4] [boxAndStream] (.fields 2 [box, packed] [])
      { Run.start (.ofBuffer #[1, 2, 3, 4] .little) with depth := 1 } := (Around.root rfl).call (.body rfl)
  -- The first iteration recovers from the box, two structs further in.
  obtain ⟨n, r, hstep, hrecovered⟩ : ∃ n r,
      iteration burrow 0 (burrow.struct 0 2) box [] { Run.start (.ofBuffer #[1, 2, 3, 4] .little) with depth := 1 } =
        .done (some n, true) r ∧ r.recovered ≠ [] := ⟨_, _, rfl, nofun⟩
  have hbehind : Around burrow 0 #[1, 2, 3, 4] [boxAndStream] (.fields 2 [packed] [n]) r := hroot.call (.next hstep)
  have hreaches := hbehind.reaches
  obtain ⟨-, hlength⟩ := hdepth _ _ _ _ _ hreaches
  exact ⟨t, ht, hchildren, hchains, harrays (by decide), _, r, hreaches, hrecovered, hlength _ hbehind⟩

end Decoder

end BinaryFormat
