import BinaryFormat.Proofs.Calls
import BinaryFormat.Proofs.Modes

/-!
# What a name is bound to

A field binds its name in the innermost scope, and lookup goes from the innermost scope outwards. A scope that is
bounded takes its bindings with it, and an overlay hands them on. So of all that is decoded within a field the last
field of a name that was decoded in the field's own scope says what the name is bound to afterwards.

Which fields those are is said by `Decodes`, along the calls that the decoder makes. The tables of the open scopes
make up the stack of a reader, and only the innermost of them changes.
-/

namespace BinaryFormat

open Schema (Field StructDef)
open Decoding

/-- A field of this type binds its name: an integer or its flags, a text, a bitfield or a computed value. -/
def FieldType.binds : FieldType → Bool
  | u8 | u16 | u32 | u64 | i8 | i16 | i32 | i64 => true
  | ascii | utf8 | utf16le | utf16be | shiftJis | latin1 | asciiz | utf8z => true
  | bitfield | virtual => true
  | f32 | f64 | bytes | struct | switch | compressed => false

/-- The value that a node stores. -/
def Node.value? (n : Node) : Option Value :=
  match n.content with
  | .computed v => some v
  | _ => (n.int?.map .int).or (n.text?.map .text)

/-- The node shows at least the bytes and the content of the other one, at some depth. -/
def Node.Bears (n m : Node) : Prop :=
  ∃ m', n.Contains m' ∧ m'.content = m.content ∧ m'.offset = m.offset ∧ m'.size = m.size

namespace Decoder

/-! ## The fields decoded in a scope -/

/-- The last of these fields, with its node, that binds the name. -/
def latest (w : List (Field × Node)) (x : String) : Option (Field × Node) :=
  (w.filter fun e => e.1.type.binds && e.1.name == x).getLast?

/-- A call decodes these fields in the scope of its run, in order. A struct that is not in a scope of its own
stands for its fields, and an array for its elements. What is decoded in a scope with a size or in a stream is
left out. -/
inductive Decodes (d : Decoder) (rounds : Nat) : Call → Run → List (Field × Node) → Prop where
  | struct {levels : Nat} {s : StructDef} {name : String} {r r' : Run} {w : List (Field × Node)} :
      d.descend r = .done () r' → Decodes d rounds (.fields levels s.fields []) (r'.inOrder s.order) w →
      Decodes d rounds (.struct (levels + 1) s name) r w
  | noField {levels : Nat} {found : List Node} {r : Run} : Decodes d rounds (.fields levels [] found) r []
  | fields {levels : Nat} {f : Field} {rest : List Field} {found : List Node} {node : Option Node} {r r' : Run}
      {w w' : List (Field × Node)} :
      iteration d rounds (d.struct rounds levels) f found r = .done (node, true) r' →
      Decodes d rounds (.field levels f found) r w →
      Decodes d rounds (.fields levels rest (found ++ node.toList)) r' w' →
      Decodes d rounds (.fields levels (f :: rest) found) r (w ++ w')
  | absent {levels : Nat} {f : Field} {found : List Node} {r r' : Run} :
      isPresent f { r with path := f.name :: r.path } = .done false r' →
      Decodes d rounds (.field levels f found) r []
  | present {levels : Nat} {f : Field} {found : List Node} {r r₁ r' : Run} {w : List (Field × Node)} :
      isPresent f { r with path := f.name :: r.path } = .done true r₁ → approach f r₁ = .done () r' →
      Decodes d rounds (.content levels f found) r' w → Decodes d rounds (.field levels f found) r w
  | once {levels : Nat} {f : Field} {found : List Node} {r : Run} {w : List (Field × Node)} :
      f.repetition = .once → Decodes d rounds (.single levels f (some found)) r w →
      Decodes d rounds (.content levels f found) r w
  | array {levels : Nat} {f : Field} {found : List Node} {n : Node} {r r' : Run} {w : List (Field × Node)} :
      f.repetition ≠ .once → array d rounds (d.struct rounds levels) f r = .done n r' →
      Decodes d rounds (.elements levels (elementField f) 0 n.children.length) r w →
      Decodes d rounds (.content levels f found) r w
  | noElement {levels i : Nat} {f : Field} {r : Run} : Decodes d rounds (.elements levels f i 0) r []
  | element {levels i left : Nat} {f : Field} {n : Node} {r r' : Run} {w w' : List (Field × Node)} :
      element d (d.struct rounds levels) f i r = .done n r' →
      Decodes d rounds (.single levels f none) { r with path := elementName i :: r.path } w →
      Decodes d rounds (.elements levels f (i + 1) left) r' w' →
      Decodes d rounds (.elements levels f i (left + 1)) r (w ++ w')
  | nested {levels : Nat} {f : Field} {siblings : Option (List Node)} {s : StructDef} {r : Run}
      {w : List (Field × Node)} :
      f.HoldsStruct → f.size = none → held d f r = .done s r → Decodes d rounds (.struct levels s f.name) r w →
      Decodes d rounds (.single levels f siblings) r w
  | closed {levels : Nat} {f : Field} {siblings : Option (List Node)} {n : Node} {r r' : Run} :
      (f.HoldsStruct → f.size.isSome = true) → single d (d.struct rounds levels) f siblings r = .done n r' →
      Decodes d rounds (.single levels f siblings) r [(f, n)]

/-- A call decodes the same fields whenever it is made with the same run. -/
theorem Decodes.unique {d : Decoder} {rounds : Nat} {c : Call} {r : Run} {w w' : List (Field × Node)}
    (h : Decodes d rounds c r w) (h' : Decodes d rounds c r w') : w' = w := by
  -- the premises are outcomes of the run, so another derivation can only begin in the same way
  induction h generalizing w' with
  | struct hd _ ih =>
      cases h' with
      | struct hd' hw' =>
          obtain ⟨-, rfl⟩ := Outcome.done.inj (hd.symm.trans hd')
          exact ih hw'
  | noField => cases h' with | noField => rfl
  | fields hi _ _ ih ih' =>
      cases h' with
      | fields hi' hw hw' =>
          obtain ⟨hp, rfl⟩ := Outcome.done.inj (hi.symm.trans hi')
          obtain ⟨rfl, -⟩ := Prod.mk.inj hp
          rw [ih hw, ih' hw']
  | absent hp =>
      cases h' with
      | absent => rfl
      | present hp' => cases (Outcome.done.inj (hp.symm.trans hp')).1
  | present hp ha _ ih =>
      cases h' with
      | absent hp' => cases (Outcome.done.inj (hp.symm.trans hp')).1
      | present hp' ha' hw' =>
          obtain ⟨-, rfl⟩ := Outcome.done.inj (hp.symm.trans hp')
          obtain ⟨-, rfl⟩ := Outcome.done.inj (ha.symm.trans ha')
          exact ih hw'
  | once hf _ ih =>
      cases h' with
      | once _ hw' => exact ih hw'
      | array hf' => exact absurd hf hf'
  | array hf ha _ ih =>
      cases h' with
      | once hf' => exact absurd hf' hf
      | array _ ha' hw' =>
          obtain ⟨rfl, -⟩ := Outcome.done.inj (ha.symm.trans ha')
          exact ih hw'
  | noElement => cases h' with | noElement => rfl
  | element he _ _ ih ih' =>
      cases h' with
      | element he' hw hw' =>
          obtain ⟨-, rfl⟩ := Outcome.done.inj (he.symm.trans he')
          rw [ih hw, ih' hw']
  | nested hf hsize hs _ ih =>
      cases h' with
      | nested _ _ hs' hw' =>
          obtain ⟨rfl, -⟩ := Outcome.done.inj (hs.symm.trans hs')
          exact ih hw'
      | closed hc _ =>
          have hsome := hc hf
          rw [hsize] at hsome
          cases hsome
  | closed hc hn =>
      cases h' with
      | nested hf hsize _ _ =>
          have hsome := hc hf
          rw [hsize] at hsome
          cases hsome
      | closed _ hn' =>
          obtain ⟨rfl, -⟩ := Outcome.done.inj (hn.symm.trans hn')
          rfl

/-! ## Tables before and after -/

/-- Behind these fields a name is bound to what the node of the last one of that name stores, and otherwise to what
it was bound to before. -/
structure Rebound (w : List (Field × Node)) (before after : String → Option Value) : Prop where
  bound : ∀ {x e}, latest w x = some e → ∃ v, e.2.value? = some v ∧ after x = some v
  kept : ∀ {x}, latest w x = none → after x = before x

/-- The latest of two lists in a row is that of the second one, where it has any. -/
theorem latest_append (w w' : List (Field × Node)) (x : String) :
    latest (w ++ w') x = (latest w' x).or (latest w x) := by
  unfold latest
  rw [List.filter_append, List.getLast?_append]

theorem latest_singleton (f : Field) (n : Node) (x : String) :
    latest [(f, n)] x = if f.type.binds = true ∧ f.name = x then some (f, n) else none := by
  unfold latest
  rw [List.filter_cons]
  simp only [Bool.and_eq_true, beq_iff_eq, List.filter_nil]
  split <;> rfl

namespace Rebound

variable {w w' : List (Field × Node)} {before mid after : String → Option Value}

/-- Decoding one list of fields and then another binds what both bind, the later one first. -/
theorem trans (h : Rebound w before mid) (h' : Rebound w' mid after) : Rebound (w ++ w') before after where
  bound {x e} he := by
    rw [latest_append] at he
    -- the fields decoded later decide, and where they are silent those before
    cases hl : latest w' x with
    | some e' =>
        rw [hl] at he
        obtain rfl := Option.some.inj he
        exact h'.bound hl
    | none =>
        rw [hl] at he
        obtain ⟨v, hv, hmid⟩ := h.bound he
        exact ⟨v, hv, (h'.kept hl).trans hmid⟩
  kept {x} he := by
    rw [latest_append, Option.or_eq_none_iff] at he
    exact (h'.kept he.1).trans (h.kept he.2)

theorem of_none (h : ∀ x, latest w x = none) : Rebound w before before where
  bound {x e} he := by
    rw [h x] at he
    cases he
  kept _ := rfl

end Rebound

end Decoder

/-! ## The stack of tables -/

namespace Reader

open Decoder (Rebound latest)

/-- What is bound in each of the scopes, innermost first, and outside of them. -/
def stack (r : Reader) : List (Table Value) := r.scopes.map Scope.bindings ++ [r.bindings]

variable {r r' left : Reader} {w w' : List (Field × Node)}

theorem stack_eq_cons (r : Reader) : ∃ top rest, r.stack = top :: rest := by
  unfold stack
  cases r.scopes with
  | nil => exact ⟨_, _, rfl⟩
  | cons s rest => exact ⟨_, _, rfl⟩

/-- A name is looked up from the innermost scope outwards. -/
theorem get?_eq_stack (r : Reader) (x : String) : r.get? x = r.stack.findSome? (·.get? x) := by
  rw [get?_eq, stack, List.findSome?_append, List.findSome?_map, List.findSome?_singleton]
  rfl

/-- A name is bound in the innermost scope. -/
theorem stack_bind (r : Reader) (name : String) (v : Value) :
    (r.bind name v).stack = r.stack.modifyHead (·.insert name v) := by
  unfold bind stack
  cases r.scopes <;> rfl

theorem stack_of_read {n : Nat} {bytes : List UInt8} (h : r.read n = .ok (bytes, r')) : r'.stack = r.stack := by
  obtain ⟨-, rfl, -⟩ := read_eq_ok h
  rfl

/-- A bounded scope takes its table with it. -/
theorem stack_leave_bounded {s : Scope} {frames : List Scope} {top : Table Value} {rest : List (Table Value)}
    (hf : r.frames = s :: frames) (ho : s.isOverlay = false) (hs : r.stack = top :: rest)
    (h : r.leave = .ok left) : left.stack = rest := by
  obtain ⟨data, pos, scopes, bindings, order, tables⟩ := r
  cases scopes with
  | nil => cases hf
  | cons s' scopes =>
      obtain ⟨rfl, -⟩ := List.cons.inj hf
      obtain rfl := Except.ok.inj ((if_neg (ne_true_of_eq_false ho)).symm.trans h)
      exact (List.cons.inj hs).2

/-- An overlay hands its table on. -/
theorem stack_leave_overlay {s : Scope} {frames : List Scope} {top under : Table Value}
    {rest : List (Table Value)} (hf : r.frames = s :: frames) (ho : s.isOverlay = true)
    (hs : r.stack = top :: under :: rest) (h : r.leave = .ok left) : left.stack = under.merge top :: rest := by
  obtain ⟨data, pos, scopes, bindings, order, tables⟩ := r
  cases scopes with
  | nil => cases hf
  | cons s' scopes =>
      obtain ⟨rfl, -⟩ := List.cons.inj hf
      obtain rfl := Except.ok.inj ((if_pos ho).symm.trans h)
      obtain ⟨rfl, hunder⟩ := List.cons.inj hs
      cases scopes with
      | nil =>
          obtain ⟨rfl, rfl⟩ := List.cons.inj hunder
          rfl
      | cons s'' scopes =>
          obtain ⟨rfl, rfl⟩ := List.cons.inj hunder
          rfl

/-- These fields have been decoded in the innermost scope, and the tables around it are as they were. -/
def Rebinds (w : List (Field × Node)) (r r' : Reader) : Prop :=
  ∃ top top' rest, r.stack = top :: rest ∧ r'.stack = top' :: rest ∧ Rebound w top.get? top'.get?

namespace Rebinds

theorem trans {r'' : Reader} (h : Rebinds w r r') (h' : Rebinds w' r' r'') : Rebinds (w ++ w') r r'' := by
  obtain ⟨top, mid, rest, hr, hr', hbound⟩ := h
  obtain ⟨mid', top', rest', hr₁, hr'', hbound'⟩ := h'
  obtain ⟨rfl, rfl⟩ := List.cons.inj (hr'.symm.trans hr₁)
  exact ⟨top, top', rest, hr, hr'', hbound.trans hbound'⟩

theorem congr {q q' : Reader} (h : Rebinds w r r') (hq : q.stack = r.stack) (hq' : q'.stack = r'.stack) :
    Rebinds w q q' := by
  unfold Rebinds
  rw [hq, hq']
  exact h

/-- No name is bound anew. -/
theorem of_none (hs : r'.stack = r.stack) (hw : ∀ x, latest w x = none) : Rebinds w r r' := by
  obtain ⟨top, rest, hr⟩ := r.stack_eq_cons
  exact ⟨top, top, rest, hr, hs.trans hr, .of_none hw⟩

theorem nil (hs : r'.stack = r.stack) : Rebinds [] r r' := of_none hs fun _ => rfl

/-- A field of a type that binds nothing leaves the names alone. -/
theorem silent {f : Field} (hf : f.type.binds = false) (n : Node) (hs : r'.stack = r.stack) :
    Rebinds [(f, n)] r r' :=
  of_none hs fun x => by
    rw [Decoder.latest_singleton, if_neg (fun h => ne_true_of_eq_false hf h.1)]

/-- A field that bears a value binds its name to it in the innermost scope. -/
theorem bound {f : Field} {n : Node} {v : Value} (hf : f.type.binds = true) (hv : n.value? = some v)
    (hs : r'.stack = r.stack.modifyHead (·.insert f.name v)) : Rebinds [(f, n)] r r' := by
  obtain ⟨top, rest, hr⟩ := r.stack_eq_cons
  rw [hr] at hs
  refine ⟨top, top.insert f.name v, rest, hr, hs, fun {x e} he => ?_, fun {x} hx => ?_⟩
  · rw [Decoder.latest_singleton] at he
    split at he
    · obtain rfl := Option.some.inj he
      refine ⟨v, hv, ?_⟩
      rw [Table.get?_insert, if_pos]
      rename_i h
      exact h.2.symm
    · cases he
  · rw [Decoder.latest_singleton] at hx
    split at hx
    · cases hx
    · rename_i h
      rw [Table.get?_insert, if_neg fun hxf => h ⟨hf, hxf.symm⟩]

/-- A name that is not bound anew is looked up in the same tables as before. -/
theorem get? (h : Rebinds w r r') : Rebound w r.get? r'.get? := by
  obtain ⟨top, top', rest, hr, hr', hbound⟩ := h
  refine ⟨fun {x e} he => ?_, fun {x} hx => ?_⟩
  · obtain ⟨v, hv, htop⟩ := hbound.bound he
    refine ⟨v, hv, ?_⟩
    rw [get?_eq_stack, hr', List.findSome?_cons, htop]
  · rw [get?_eq_stack, get?_eq_stack, hr, hr', List.findSome?_cons, List.findSome?_cons, hbound.kept hx]

end Rebinds

end Reader

/-! ## Steps that bind nothing -/

namespace Decoding

variable {α : Type}

/-- The step leaves every table as it is. -/
def BindsNothing (x : Decoding α) : Prop := ∀ r a r', x r = .done a r' → r'.reader.stack = r.reader.stack

namespace BindsNothing

theorem stack_eq {x : Decoding α} (h : x.BindsNothing) {r r' : Run} {a : α} (hx : x r = .done a r') :
    r'.reader.stack = r.reader.stack := h r a r' hx

theorem read {f : Reader → Except Cause (α × Reader)}
    (h : ∀ {r a r'}, f r = .ok (a, r') → r'.stack = r.stack) : (read f).BindsNothing := by
  intro r a r' hx
  obtain ⟨reader, hr, rfl⟩ := read_eq_done hx
  exact h hr

theorem readBytes (n : Nat) : (Decoding.read (·.read n)).BindsNothing := read Reader.stack_of_read

end BindsNothing

end Decoding

namespace Decoder

theorem bindsNothing_align (multiple : Option UInt64) : (align multiple).BindsNothing := by
  intro r u r' h
  cases multiple with
  | none => rw [(Outcome.done.inj h).2]
  | some n =>
      obtain ⟨pad, r₁, hread, h₁⟩ := bind_eq_done h
      obtain ⟨-, rfl⟩ := Outcome.done.inj h₁
      obtain ⟨reader, hr, rfl⟩ := read_eq_done hread
      obtain ⟨-, rfl, -⟩ := Reader.align_eq_ok hr
      rfl

theorem bindsNothing_seek (f : Field) : (seek f).BindsNothing := by
  intro r before r' h
  have hat := seek_ensures f r
  rw [h] at hat
  obtain ⟨-, -, rfl⟩ | ⟨-, -, target, -, rfl⟩ := hat.2
  · rfl
  · rfl

theorem bindsNothing_restore (f : Field) (before : Option Nat) : (restore f before).BindsNothing := by
  intro r u r' h
  unfold restore at h
  split at h
  · split at h
    · rw [(Outcome.done.inj h).2.symm]
      rfl
    · rw [(Outcome.done.inj h).2]
  · rw [(Outcome.done.inj h).2]

/-! ## Leaves -/

section Leaves

variable {d : Decoder} {f : Field} {r r' : Run} {c : Node.Content}

/-- From one run to the other the name has been bound to what a node with this content stores. -/
def Names (name : String) (c : Node.Content) (r r' : Run) : Prop :=
  ∃ v, (∀ n : Node, n.content = c → n.value? = some v) ∧
    r'.reader.stack = r.reader.stack.modifyHead (·.insert name v)

/-- A name is bound once the bytes have been read, and what comes before and after binds nothing. -/
theorem names_of_bind {name : String} {v : Value} {r₁ r₂ : Run} {u : Unit}
    (hbefore : r₁.reader.stack = r.reader.stack) (hbind : bindName name v r₁ = .done u r₂)
    (hafter : r'.reader.stack = r₂.reader.stack) (hv : ∀ n : Node, n.content = c → n.value? = some v) :
    Names name c r r' := by
  obtain ⟨-, rfl⟩ := Outcome.done.inj hbind
  refine ⟨v, hv, hafter.trans ?_⟩
  rw [← hbefore]
  exact Reader.stack_bind _ _ _

/-- An integer binds its value, whatever its flags or its enum make of it. -/
theorem names_integer {siblings : Option (List Node)} {width : Nat} {isSigned : Bool}
    (h : d.integer f siblings width isSigned r = .done c r') : Names f.name c r r' := by
  obtain ⟨n, r₁, hn, h₁⟩ := bind_eq_done h
  obtain ⟨bytes, hread, -⟩ := number_eq_done hn
  obtain ⟨_, r₂, hbind, h₂⟩ := bind_eq_done h₁
  obtain ⟨states, r₃, hstates, h₃⟩ := bind_eq_done h₂
  obtain rfl := (d.unmoving_statesOf _ _).eq hstates
  cases states with
  -- With flags the node keeps the raw register, with an enum the value. The name is bound to the number in both.
  | some states =>
      obtain ⟨rfl, rfl⟩ := Outcome.done.inj h₃
      refine names_of_bind (Reader.stack_of_read hread) hbind rfl fun m hm => ?_
      unfold Node.value? Node.int?
      rw [hm]
      cases n <;> rfl
  | none =>
      obtain ⟨entry, r₄, hentry, h₄⟩ := bind_eq_done h₃
      obtain rfl := (d.unmoving_entryOf _ _).eq hentry
      obtain ⟨rfl, rfl⟩ := Outcome.done.inj h₄
      refine names_of_bind (Reader.stack_of_read hread) hbind rfl fun m hm => ?_
      unfold Node.value? Node.int?
      rw [hm]
      rfl

theorem value?_text {n : Node} {t : String} {e : Text.Encoding} {states : Option (List Schema.FlagState)}
    (h : n.content = .text t e states) : n.value? = some (.text t) := by
  unfold Node.value? Node.int? Node.text?
  rw [h]
  rfl

theorem names_ascii (h : d.ascii f r = .done c r') : Names f.name c r r' := by
  obtain ⟨n, r₁, hn, h₁⟩ := bind_eq_done h
  obtain ⟨bytes, r₂, hr, h₂⟩ := bind_eq_done h₁
  obtain ⟨states, r₃, hstates, h₃⟩ := bind_eq_done h₂
  obtain ⟨_, r₄, hbind, h₄⟩ := bind_eq_done h₃
  obtain rfl := (unmoving_fieldSize f).eq hn
  obtain rfl := (d.unmoving_statesOf _ _).eq hstates
  obtain ⟨rfl, rfl⟩ := Outcome.done.inj h₄
  exact names_of_bind ((BindsNothing.readBytes n).stack_eq hr) hbind rfl fun _ => value?_text

theorem names_text {e : Text.Encoding} (h : text f e r = .done c r') : Names f.name c r r' := by
  obtain ⟨n, r₁, hn, h₁⟩ := bind_eq_done h
  obtain ⟨t, r₂, hr, h₂⟩ := bind_eq_done h₁
  obtain ⟨_, r₃, hbind, h₃⟩ := bind_eq_done h₂
  obtain rfl := (unmoving_fieldSize f).eq hn
  obtain ⟨reader, hread, rfl⟩ := read_eq_done hr
  obtain ⟨bytes, hb, -⟩ := Reader.readText_eq_ok hread
  obtain ⟨rfl, rfl⟩ := Outcome.done.inj h₃
  exact names_of_bind (Reader.stack_of_read hb) hbind rfl fun _ => value?_text

theorem names_terminated {e : Text.Encoding} (h : terminated f e r = .done c r') : Names f.name c r r' := by
  obtain ⟨t, r₁, hr, h₁⟩ := bind_eq_done h
  obtain ⟨_, r₂, hbind, h₂⟩ := bind_eq_done h₁
  obtain ⟨reader, hread, rfl⟩ := read_eq_done hr
  obtain ⟨bytes, hb, -⟩ := Reader.readTerminated_eq_ok hread
  obtain ⟨rfl, rfl⟩ := Outcome.done.inj h₂
  exact names_of_bind (Reader.stack_of_read hb) hbind rfl fun _ => value?_text

/-- A bitfield binds its register; its parts bind nothing. -/
theorem names_bitfield (h : d.bitfield f r = .done c r') : Names f.name c r r' := by
  obtain ⟨n, r₁, hn, h₁⟩ := bind_eq_done h
  obtain rfl := (unmoving_fieldSize f).eq hn
  by_cases hsize : n = 1 ∨ n = 2 ∨ n = 4
  · rw [if_pos hsize] at h₁
    obtain ⟨raw, r₂, hr, h₂⟩ := bind_eq_done h₁
    obtain ⟨_, r₃, hbind, h₃⟩ := bind_eq_done h₂
    obtain ⟨parts, r₄, hparts, h₄⟩ := bind_eq_done h₃
    obtain ⟨reader, hread, rfl⟩ := read_eq_done hr
    obtain ⟨-, bytes, hb, -⟩ := Reader.readUnsigned_eq_ok hread
    obtain rfl := (Unmoving.mapM (d.unmoving_bitPart raw) _).eq hparts
    obtain ⟨rfl, rfl⟩ := Outcome.done.inj h₄
    refine names_of_bind (Reader.stack_of_read hb) hbind rfl fun m hm => ?_
    unfold Node.value? Node.int?
    rw [hm]
    rfl
  · rw [if_neg hsize] at h₁
    cases h₁

theorem names_computed (h : computed f r = .done c r') : Names f.name c r r' := by
  unfold computed at h
  cases hv : f.value with
  | none => rw [hv] at h; cases h
  | some e =>
      rw [hv] at h
      obtain ⟨v, r₁, heval, h₁⟩ := bind_eq_done h
      obtain ⟨_, r₂, hbind, h₂⟩ := bind_eq_done h₁
      obtain rfl := (Unmoving.eval e).eq heval
      obtain ⟨rfl, rfl⟩ := Outcome.done.inj h₂
      refine names_of_bind rfl hbind rfl fun m hm => ?_
      unfold Node.value?
      rw [hm]

theorem bindsNothing_bytes (f : Field) : (bytes f).BindsNothing := by
  intro r c r' h
  obtain ⟨n, r₁, hn, h₁⟩ := bind_eq_done h
  obtain ⟨bytes, r₂, hr, h₂⟩ := bind_eq_done h₁
  obtain rfl := (unmoving_fieldSize f).eq hn
  obtain ⟨-, rfl⟩ := Outcome.done.inj h₂
  exact (BindsNothing.readBytes n).stack_eq hr

theorem bindsNothing_float {x : Reader → Except Cause (Binary64 × Reader)}
    (hx : ∀ {r r' : Reader} {v : Binary64}, x r = .ok (v, r') → r'.stack = r.stack) :
    (Node.Content.float <$> Decoding.read x).BindsNothing := by
  intro r c r' h
  rw [map_eq_pure_bind] at h
  obtain ⟨v, r₁, hr, hp⟩ := bind_eq_done h
  obtain ⟨-, rfl⟩ := Outcome.done.inj hp
  exact (BindsNothing.read hx).stack_eq hr

/-- A field without a struct in it binds its own name or none. -/
theorem rebinds_single {nested : StructDef → String → Decoding Node} {siblings : Option (List Node)} {n : Node}
    (hf : f.type ≠ .struct ∧ f.type ≠ .switch ∧ f.type ≠ .compressed)
    (h : single d nested f siblings r = .done n r') : r.reader.Rebinds [(f, n)] r'.reader := by
  -- Only two things can happen: the kind binds the value that it shows, or it binds nothing and leaves the stack.
  have hnames : f.type.binds = true → Names f.name n.content r r' → r.reader.Rebinds [(f, n)] r'.reader := by
    rintro hb ⟨v, hv, hstack⟩
    exact .bound hb (hv n rfl) hstack
  have hnothing : ∀ {content : Decoding Node.Content}, f.type.binds = false → content.BindsNothing →
      content r = .done n.content r' → r.reader.Rebinds [(f, n)] r'.reader := fun hb hc hdone =>
    .silent hb n (hc.stack_eq hdone)
  unfold single at h
  cases ht : f.type with
  | u8 | u16 | u32 | u64 | i8 | i16 | i32 | i64 =>
      rw [ht] at h
      exact hnames (by rw [ht]; rfl) (names_integer (leaf_eq_done h).1)
  | f32 =>
      rw [ht] at h
      have hread : ∀ {r r' : Reader} {v : Binary64}, r.readBinary32 = .ok (v, r') → r'.stack = r.stack := by
        intro r r' v hr
        obtain ⟨bytes, hb, -⟩ := Reader.readBinary32_eq_ok hr
        exact Reader.stack_of_read hb
      exact hnothing (by rw [ht]; rfl) (bindsNothing_float hread) (leaf_eq_done h).1
  | f64 =>
      rw [ht] at h
      have hread : ∀ {r r' : Reader} {v : Binary64}, r.readBinary64 = .ok (v, r') → r'.stack = r.stack := by
        intro r r' v hr
        obtain ⟨bytes, hb, -⟩ := Reader.readBinary64_eq_ok hr
        exact Reader.stack_of_read hb
      exact hnothing (by rw [ht]; rfl) (bindsNothing_float hread) (leaf_eq_done h).1
  | bytes =>
      rw [ht] at h
      exact hnothing (by rw [ht]; rfl) (bindsNothing_bytes f) (leaf_eq_done h).1
  | ascii =>
      rw [ht] at h
      exact hnames (by rw [ht]; rfl) (names_ascii (leaf_eq_done h).1)
  | utf8 | utf16le | utf16be | shiftJis | latin1 =>
      rw [ht] at h
      exact hnames (by rw [ht]; rfl) (names_text (leaf_eq_done h).1)
  | asciiz | utf8z =>
      rw [ht] at h
      exact hnames (by rw [ht]; rfl) (names_terminated (leaf_eq_done h).1)
  | bitfield =>
      rw [ht] at h
      exact hnames (by rw [ht]; rfl) (names_bitfield (leaf_eq_done h).1)
  | virtual =>
      rw [ht] at h
      exact hnames (by rw [ht]; rfl) (names_computed (leaf_eq_done h).1)
  | struct => exact absurd ht hf.1
  | switch => exact absurd ht hf.2.1
  | compressed => exact absurd ht hf.2.2

end Leaves

/-! ## Scopes and buffers of their own -/

section Brackets

variable {α : Type} {d : Decoder} {x : Decoding α} {r r' : Run} {a : α} {b : Bool}

/-- What is bound in a scope with a size is gone behind it. -/
theorem stack_of_bounded {size : Nat} (hx : x.Balanced b)
    (hinner : ∀ {r r'}, x r = .done a r' → ∃ w, r.reader.Rebinds w r'.reader)
    (h : bounded size x r = .done a r') : r'.reader.stack = r.reader.stack := by
  obtain ⟨_, r₁, henter, h₁⟩ := bind_eq_done h
  obtain ⟨_, r₂, hdone, h₂⟩ := bind_eq_done h₁
  obtain ⟨_, r₃, hleave, h₃⟩ := bind_eq_done h₂
  obtain ⟨rfl, rfl⟩ := Outcome.done.inj h₃
  obtain ⟨reader, he, rfl⟩ := move_eq_done henter
  obtain ⟨-, rfl⟩ := Reader.enter_eq_ok he
  obtain ⟨left, hl, rfl⟩ := move_eq_done hleave
  obtain ⟨w, top, top', rest, htop, htop', -⟩ := hinner hdone
  -- the scope has been opened above the stack from before, so that stack is what is left without it
  obtain ⟨-, rfl⟩ := List.cons.inj htop
  exact Reader.stack_leave_bounded (hx.returns hdone).frames rfl htop' hl

/-- What is bound in an overlay is bound behind it. -/
theorem rebinds_of_overlaid {order : ByteOrder} (hx : x.Balanced b)
    (h : overlaid order x r = .done a r') :
    ∃ r₂, x { r with reader := r.reader.overlay order } = .done a r₂ ∧
      ∀ {w}, (r.reader.overlay order).Rebinds w r₂.reader → r.reader.Rebinds w r'.reader := by
  obtain ⟨_, r₁, hoverlay, h₁⟩ := bind_eq_done h
  obtain ⟨_, r₂, hdone, h₂⟩ := bind_eq_done h₁
  obtain ⟨_, r₃, hleave, h₃⟩ := bind_eq_done h₂
  obtain ⟨rfl, rfl⟩ := Outcome.done.inj h₃
  obtain ⟨-, rfl⟩ := Outcome.done.inj hoverlay
  obtain ⟨left, hl, rfl⟩ := move_eq_done hleave
  refine ⟨r₂, hdone, fun {w} hbinds => ?_⟩
  obtain ⟨top, top', outer, htop, htop', hbound⟩ := hbinds
  obtain ⟨under, rest, hunder⟩ := r.reader.stack_eq_cons
  -- the overlay starts with an empty table, so a name that it lacks at its end was not bound in it
  obtain ⟨rfl, rfl⟩ := List.cons.inj htop
  have hmerged : left.stack = under.merge top' :: rest :=
    Reader.stack_leave_overlay (hx.returns hdone).frames rfl (htop'.trans (congrArg (top' :: ·) hunder)) hl
  refine ⟨under, under.merge top', rest, hunder, hmerged, fun {x e} he => ?_, fun {x} hx => ?_⟩
  · obtain ⟨v, hv, hget⟩ := hbound.bound he
    exact ⟨v, hv, by rw [Table.get?_merge, hget]; rfl⟩
  · rw [Table.get?_merge, hbound.kept hx]
    rfl

/-- What is bound inside a stream is gone with the reader of the stream. -/
theorem bindsNothing_compressedField (nested : StructDef → String → Decoding Node) (f : Field) :
    (compressedField d nested f).BindsNothing := by
  intro r n r' h
  obtain ⟨size, bytes, reader, c, out, raw, children, -, hread, -, -, -, hrest⟩ := compressedField_eq_done h
  obtain ⟨-, rfl⟩ | ⟨name, s, m, r₁, -, -, -, -, rfl⟩ := hrest
  · exact Reader.stack_of_read hread
  · exact Reader.stack_of_read hread

end Brackets

/-! ## From the occurrence of a field to a struct -/

end Decoder

namespace Node.Bears

theorem self (n : Node) : n.Bears n := ⟨n, .self n, rfl, rfl, rfl⟩

theorem child {n c m : Node} (hc : c ∈ n.children) (h : c.Bears m) : n.Bears m := by
  obtain ⟨m', hm', hrest⟩ := h
  exact ⟨m', .child hc hm', hrest⟩

/-- What a node is called and what is said besides does not matter. -/
theorem relabel {n m : Node} (h : n.Bears m) (name : String) (description : Option String) (isPadding : Bool)
    (isValid : Option Bool) : ({ n with name, description, isPadding, isValid } : Node).Bears m := by
  obtain ⟨m', hm', hc, ho, hs⟩ := h
  cases hm' with
  | self => exact ⟨_, .self _, hc, ho, hs⟩
  | child hmem hm' => exact ⟨m', .child hmem hm', hc, ho, hs⟩

end Node.Bears

namespace Decoder

/-- From one run to another a call has bound the names of the fields that it decodes, and their nodes are among
those that it yields. -/
def Bound (d : Decoder) (rounds : Nat) (c : Call) (r : Run) (nodes : List Node) (r' : Run) : Prop :=
  ∃ w, Decodes d rounds c r w ∧ r.reader.Rebinds w r'.reader ∧ ∀ e ∈ w, ∃ n ∈ nodes, n.Bears e.2

section Walk

variable {d : Decoder} {rounds levels : Nat}
  (hn : ∀ {s name r n r'}, d.struct rounds levels s name r = .done n r' →
    Bound d rounds (.struct levels s name) r [n] r')

include hn

/-- One occurrence of a field binds what the fields decoded in it say. -/
theorem bound_single {f : Field} {siblings : Option (List Node)} {n : Node} {r r' : Run}
    (h : single d (d.struct rounds levels) f siblings r = .done n r') :
    Bound d rounds (.single levels f siblings) r [n] r' := by
  -- What a field keeps to itself, its own name apart: the lookups of the caller see nothing of what is inside.
  have hclosed : (f.HoldsStruct → f.size.isSome = true) → r.reader.Rebinds [(f, n)] r'.reader →
      Bound d rounds (.single levels f siblings) r [n] r' := fun hc hbinds =>
    ⟨_, .closed hc h, hbinds, fun e he => ⟨n, .head _, List.mem_singleton.mp he ▸ .self n⟩⟩
  obtain ⟨hf, s, hs, h₁⟩ | ⟨hc, h₁⟩ | ⟨hleaf, -⟩ := single_eq_done h
  · -- A struct without a size is decoded in the scope of the field, so its fields bind for the fields behind it. With
    -- a size it has a scope of its own, and they are gone with it.
    have hsilent : f.type.binds = false := by
      rcases hf with hf | hf
      · rw [hf]; rfl
      · rw [hf]; rfl
    obtain ⟨hsize, h₂⟩ | ⟨size, m, hsize, -, hbounded, -⟩ := structField_eq_done h₁
    · obtain ⟨w, hw, hbinds, hbears⟩ := hn h₂
      exact ⟨w, .nested hf hsize hs hw, hbinds, hbears⟩
    · refine hclosed (fun _ => hsize) (.silent hsilent n ?_)
      have hbalanced : (d.struct rounds levels s f.name).Balanced false :=
        d.balanced_struct rounds levels s f.name nofun
      refine stack_of_bounded hbalanced (fun hinner => ?_) hbounded
      obtain ⟨w, -, hbinds, -⟩ := hn hinner
      exact ⟨w, hbinds⟩
  · have hf : ¬ f.HoldsStruct := by
      unfold Schema.Field.HoldsStruct
      rw [hc]
      decide
    exact hclosed (fun h => absurd h hf)
      (.silent (by rw [hc]; rfl) n ((bindsNothing_compressedField _ f).stack_eq h₁))
  · have hf : ¬ f.HoldsStruct := by
      rintro (hf | hf)
      · exact hleaf.1 hf
      · exact hleaf.2.1 hf
    exact hclosed (fun h => absurd h hf) (rebinds_single hleaf h)

/-! ### Arrays -/

/-- An element binds like one occurrence of the field, and the elements behind it go on from there. -/
theorem bound_element {f : Field} {i : Nat} {n : Node} {rest : List Node} {r r' r'' : Run}
    (h : element d (d.struct rounds levels) f i r = .done n r')
    (hrest : Bound d rounds (.elements levels f (i + 1) rest.length) r' rest r'') :
    Bound d rounds (.elements levels f i (n :: rest).length) r (n :: rest) r'' := by
  obtain ⟨m, r₁, -, hsingle, -, rfl, rfl⟩ := element_eq_done h
  obtain ⟨w, hw, hbinds, hbears⟩ := bound_single hn hsingle
  obtain ⟨w', hw', hbinds', hbears'⟩ := hrest
  refine ⟨w ++ w', .element h hw hw', hbinds.trans hbinds', fun e he => ?_⟩
  rcases List.mem_append.mp he with he | he
  · obtain ⟨m, hm, hbear⟩ := hbears e he
    obtain rfl := List.mem_singleton.mp hm
    exact ⟨_, .head _, hbear.relabel _ _ _ _⟩
  · obtain ⟨m, hm, hbear⟩ := hbears' e he
    exact ⟨m, .tail _ hm, hbear⟩

theorem bound_elements {f : Field} {nodes : List Node} {r r' : Run}
    (h : elements d rounds (d.struct rounds levels) f r = .done nodes r') :
    Bound d rounds (.elements levels (elementField f) 0 nodes.length) r nodes r' :=
  elements_induction
    (P := fun i r nodes => Bound d rounds (.elements levels (elementField f) i nodes.length) r nodes)
    (fun _ _ => ⟨[], .noElement, .nil rfl, fun _ he => absurd he List.not_mem_nil⟩) (bound_element hn) h

/-! ### Fields -/

theorem bound_content {f : Field} {found : List Node} {n : Node} {r r' : Run}
    (h : content d rounds (d.struct rounds levels) f found r = .done n r') :
    Bound d rounds (.content levels f found) r [n] r' := by
  obtain ⟨hf, h⟩ | ⟨hf, harray⟩ := content_eq_done h
  · obtain ⟨w, hw, hrest⟩ := bound_single hn h
    exact ⟨w, .once hf hw, hrest⟩
  · obtain ⟨nodes, helements, rfl⟩ := array_eq_done harray
    obtain ⟨w, hw, hbinds, hbears⟩ := bound_elements hn helements
    refine ⟨w, .array hf harray hw, hbinds, fun e he => ?_⟩
    obtain ⟨m, hm, hbear⟩ := hbears e he
    exact ⟨_, .head _, hbear.child hm⟩

/-- A field that is not there binds nothing; one that is binds what its content does. -/
theorem bound_field {f : Field} {found : List Node} {o : Option Node} {r r' : Run}
    (h : field d rounds (d.struct rounds levels) f found r = .done o r') :
    Bound d rounds (.field levels f found) r o.toList r' := by
  obtain ⟨hpresent, rfl, rfl⟩ | ⟨n, r₁, hpresent, hfield, rfl, rfl⟩ := field_eq_done h
  · exact ⟨[], .absent hpresent, .nil rfl, fun _ he => absurd he List.not_mem_nil⟩
  · obtain ⟨before, m, isValid, r₂, r₃, r₄, hseek, halign, hcontent, hrestore, rfl⟩ := presentField_eq_done hfield
    -- neither the approach nor the way back binds anything
    obtain ⟨w, hw, hbinds, hbears⟩ := bound_content hn hcontent
    have hsought := (bindsNothing_seek f).stack_eq hseek
    have hbefore : r₃.reader.stack = r.reader.stack := ((bindsNothing_align _).stack_eq halign).trans hsought
    have hafter := (bindsNothing_restore f before).stack_eq hrestore
    refine ⟨w, .present hpresent (approach_eq_done hseek halign) hw, hbinds.congr hbefore.symm hafter,
      fun e he => ?_⟩
    obtain ⟨m', hm', hbear⟩ := hbears e he
    obtain rfl := List.mem_singleton.mp hm'
    exact ⟨_, .head _, hbear.relabel _ _ _ _⟩

/-! ### Structs -/

variable (hstrict : d.options.mode = .strict)

include hstrict

/-- In a strict decode the loop goes on behind every field, and with what the field has bound. -/
theorem bound_fields {fs : List Field} {found nodes : List Node} {r r' : Run}
    (h : fields d rounds (d.struct rounds levels) fs found r = .done nodes r') :
    ∃ new, nodes = found ++ new ∧ Bound d rounds (.fields levels fs found) r new r' := by
  refine fields_induction (P := fun fs found r new r' => Bound d rounds (.fields levels fs found) r new r')
    (fun _ _ => ⟨[], .noField, .nil rfl, fun _ he => absurd he List.not_mem_nil⟩)
    (fun {f rest found p new r r₁ r'} hstep hnew => ?_) h
  -- the loop would only go on behind a failure in recovery, and counting a node leaves the reader alone
  obtain ⟨o, r₂, hfield, rfl, hreader⟩ : ∃ o r₂,
      field d rounds (d.struct rounds levels) f found r = .done o r₂ ∧ p = (o, true) ∧ r₁.reader = r₂.reader := by
    obtain ⟨-, ⟨hfield, rfl⟩ | ⟨n, r₂, hfield, rfl, -, rfl⟩ | ⟨e, r₂, hrecover, -⟩⟩ := iteration_eq_done hstep
    · exact ⟨none, r₁, hfield, rfl, rfl⟩
    · exact ⟨some n, r₂, hfield, rfl, rfl⟩
    · rw [hstrict] at hrecover
      cases hrecover
  obtain ⟨w, hw, hbinds, hbears⟩ := bound_field hn hfield
  obtain ⟨w', hw', hbinds', hbears'⟩ := hnew
  refine ⟨w ++ w', .fields hstep hw hw', hbinds.trans (hreader ▸ hbinds'), fun e he => ?_⟩
  rcases List.mem_append.mp he with he | he
  · obtain ⟨n, hn, hbear⟩ := hbears e he
    exact ⟨n, List.mem_append_left _ hn, hbear⟩
  · obtain ⟨n, hn, hbear⟩ := hbears' e he
    exact ⟨n, List.mem_append_right _ hn, hbear⟩

/-- The body of a struct binds what its fields do, as the overlay of a byte order hands its names on. -/
theorem bound_body {s : StructDef} {nodes : List Node} {r r' : Run}
    (h : body d rounds (d.struct rounds levels) s r = .done nodes r') :
    ∃ w, Decodes d rounds (.fields levels s.fields []) (r.inOrder s.order) w ∧
      r.reader.Rebinds w r'.reader ∧ ∀ e ∈ w, ∃ n ∈ nodes, n.Bears e.2 := by
  cases ho : s.order with
  | none =>
      rw [body_plain _ _ _ ho] at h
      obtain ⟨new, rfl, w, hw, hbinds, hbears⟩ := bound_fields hn hstrict h
      exact ⟨w, hw, hbinds, hbears⟩
  | some order =>
      rw [body_ordered _ _ _ ho] at h
      have hbalanced : (fields d rounds (d.struct rounds levels) s.fields []).Balanced false :=
        d.balanced_fields rounds (d.balanced_levels rounds levels) [] nofun
      obtain ⟨r₂, hfields, hleft⟩ := rebinds_of_overlaid hbalanced h
      obtain ⟨new, rfl, w, hw, hbinds, hbears⟩ := bound_fields hn hstrict hfields
      exact ⟨w, hw, hleft hbinds, hbears⟩

theorem bound_structWith {s : StructDef} {name : String} {n : Node} {r r' : Run}
    (h : structWith d rounds (d.struct rounds levels) s name r = .done n r') :
    Bound d rounds (.struct (levels + 1) s name) r [n] r' := by
  obtain ⟨children, r₁, r₂, r₃, hdescend, hbody, halign, rfl, rfl⟩ := structWith_eq_done h
  obtain ⟨w, hw, hbinds, hbears⟩ := bound_body hn hstrict hbody
  have hbefore : r.reader.stack = r₁.reader.stack := by
    rw [(d.descend_eq_done hdescend).1]
  have htable : (tabled s r₁.pos r₂).reader.stack = r₂.reader.stack := by
    unfold tabled
    split <;> rfl
  have hafter := ((bindsNothing_align _).stack_eq halign).trans htable
  refine ⟨w, .struct hdescend hw, hbinds.congr hbefore hafter, fun e he => ?_⟩
  obtain ⟨m, hm, hbear⟩ := hbears e he
  exact ⟨_, .head _, hbear.child hm⟩

end Walk

/-- A struct binds what is decoded in it, at any depth. -/
theorem bound_struct {d : Decoder} (hstrict : d.options.mode = .strict) {rounds levels : Nat} {s : StructDef}
    {name : String} {n : Node} {r r' : Run} (h : d.struct rounds levels s name r = .done n r') :
    Bound d rounds (.struct levels s name) r [n] r' := by
  induction levels generalizing s name r n r' with
  | zero => cases h
  | succ levels ih => exact bound_structWith ih hstrict h

/-- In a strict decode, behind a field that succeeds a name is bound to what the node of the last field of that
name stores that has been decoded in the field's scope and binds its name. If there is none, the name is bound to
what it was bound to before. The fields that have been decoded in the scope are known from the decoder's own
calls, and their nodes hang in the tree that the field has yielded. -/
theorem field_binds {d : Decoder} (hstrict : d.options.mode = .strict) {rounds levels : Nat} {f : Field}
    {found : List Node} {o : Option Node} {r r' : Run}
    (h : field d rounds (d.struct rounds levels) f found r = .done o r') :
    ∃ w, Decodes d rounds (.field levels f found) r w ∧
      (∀ w', Decodes d rounds (.field levels f found) r w' → w' = w) ∧
      (∀ e ∈ w, ∃ n ∈ o, n.Bears e.2) ∧ Rebound w r.reader.get? r'.reader.get? := by
  obtain ⟨w, hw, hbinds, hbears⟩ := bound_field (bound_struct hstrict) h
  refine ⟨w, hw, fun w' hw' => hw.unique hw', fun e he => ?_, hbinds.get?⟩
  obtain ⟨n, hn, hbear⟩ := hbears e he
  exact ⟨n, Option.mem_toList.mp hn, hbear⟩

end Decoder

/-! ## A number inside a box and outside of it -/

namespace Ledger

/-- A byte under the name `n`. -/
def number : Field where
  name := "n"
  type := .u8

/-- A number in a scope of its own, where its name ends. -/
def box : Field where
  name := "box"
  type := .struct
  size := some (.fixed 1)
  structRef := some "inner"

/-- A struct in the scope of what stands around it. -/
def entry : Field where
  name := "entry"
  type := .struct
  structRef := some "entry"

/-- A number, and behind it another one of the same name in a box of its own. -/
def decoder : Decoder where
  schema := {
    name := "ledger"
    structs := [
      ("all", { name := "all", fields := [entry] }),
      ("entry", { name := "entry", fields := [number, box] }),
      ("inner", { name := "inner", fields := [number] })]
    root := "all" }
  options := {}

/-- The run that comes to the entry. -/
def run : Run := .start (.ofBuffer #[1, 2] .little)

/-- Both numbers are decoded, but only the first one in the scope of the entry, so the name is bound to it. -/
theorem field_binds_entry : ∃ o r w e,
    Decoder.field decoder 0 (decoder.struct 0 2) entry [] run = .done o r ∧
      Decoder.Decodes decoder 0 (.field 2 entry []) run w ∧
      Decoder.Rebound w run.reader.get? r.reader.get? ∧
      Decoder.latest w "n" = some e ∧ e.2.value? = some (.int 1) := by
  obtain ⟨o, r, h, hn⟩ : ∃ o r, Decoder.field decoder 0 (decoder.struct 0 2) entry [] run = .done o r ∧
      r.reader.get? "n" = some (.int 1) := by
    have hdone : (match Decoder.field decoder 0 (decoder.struct 0 2) entry [] run with
      | .done _ r => decide (r.reader.get? "n" = some (.int 1))
      | _ => false) = true := by
      decide +kernel
    -- Only whether it is done and what the name stands for is computed. The node and the run stay unevaluated.
    generalize Decoder.field decoder 0 (decoder.struct 0 2) entry [] run = outcome at hdone ⊢
    cases outcome with
    | done o r => exact ⟨o, r, rfl, of_decide_eq_true hdone⟩
    | failed _ _ | unfinished => cases hdone
  obtain ⟨w, hw, -, -, hbound⟩ := Decoder.field_binds (d := decoder) rfl h
  cases he : Decoder.latest w "n" with
  | none =>
      rw [hbound.kept he] at hn
      cases hn
  | some e =>
      obtain ⟨v, hv, hget⟩ := hbound.bound he
      obtain rfl := Option.some.inj (hget.symm.trans hn)
      exact ⟨o, r, w, e, h, hw, hbound, he, hv⟩

end Ledger

end BinaryFormat
