import BinaryFormat.Proofs.Outcome

/-!
# Steps inside brackets

Several things that a decode does come in pairs: a scope is opened and closed, a depth is entered and left,
a position is left and restored, a failure is caught and undone. What holds between the two halves of
such a pair does not hold of either half, so the pair is the unit that properties of a decode are
stated of. This file gives each pair a name and writes the decoder in these names.
-/

namespace BinaryFormat

open Schema (Field StructDef)

namespace Decoder

variable {α : Type}

/-- A step in a scope of `size` bytes. -/
def bounded (size : Nat) (x : Decoding α) : Decoding α := do
  .move (·.enter size)
  let a ← x
  .move (·.leave)
  pure a

/-- A step in a byte order. -/
def overlaid (order : ByteOrder) (x : Decoding α) : Decoding α := do
  .modifyReader (·.overlay order)
  let a ← x
  .move (·.leave)
  pure a

/-- A step at the place where a field says it is. -/
def sought (f : Field) (x : Decoding α) : Decoding α := do
  let before ← seek f
  let a ← x
  restore f before
  pure a

variable (d : Decoder)

/-- A step one struct further in. -/
def descended (x : Decoding α) : Decoding α := do
  d.descend
  let a ← x
  ascend
  pure a

/-- What becomes of a field: its node, if it has one, and whether the struct goes on behind it. -/
def settled (f : Field) (before : Run) : Except Failure (Option Node) → Decoding (Option Node × Bool)
  | .ok (some node) => do
    d.countNode
    pure (some node, true)
  | .ok none => pure (none, true)
  | .error failure =>
    if d.options.mode = .recover ∧ failure.isRecoverable then do
      let (node, resume) ← d.replaceField f before failure
      pure (some node, resume.isSome)
    else .rethrow failure

/-- A field among the fields of a struct. -/
def member (f : Field) (x : Decoding (Option Node)) : Decoding (Option Node × Bool) := do
  let before ← .run
  let result ← .attempt x
  d.settled f before result

variable (rounds : Nat) (nested : StructDef → String → Decoding Node)

/-- The inside of a struct: where it starts, and the nodes of its fields. -/
def inside (s : StructDef) : Decoding (Nat × List Node) := do
  let start ← .pos
  let children ← body d rounds nested s
  let stop ← .pos
  if s.isStringTable then .modifyReader (·.addTable s.name start stop) else pure ()
  align s.align
  pure (start, children)

/-- What a field decodes to once its place is found. -/
def content (f : Field) (siblings : List Node) : Decoding Node :=
  match f.repetition with
  | .once => single d nested f (some siblings)
  | _ => array d rounds nested f

/-- A field, or nothing if it is not there. -/
def guarded (f : Field) (siblings : List Node) : Decoding (Option Node) := do
  if ← isPresent f then some <$> presentField d rounds nested f siblings else pure none

/-! ## The decoder in brackets -/

theorem structField_sized {f : Field} {size : Schema.Size} (h : f.size = some size) (s : StructDef) :
    structField nested f s = (do
      let start ← .pos
      let size ← fieldSize f
      let node ← bounded size (nested s f.name)
      pure { node with offset := start, size }) := by
  unfold structField bounded
  rw [h]
  simp only [bind_assoc, pure_bind]

theorem body_ordered {s : StructDef} {order : ByteOrder} (h : s.order = some order) :
    body d rounds nested s = overlaid order (fields d rounds nested s.fields []) := by
  unfold body overlaid
  rw [h]

theorem body_plain {s : StructDef} (h : s.order = none) :
    body d rounds nested s = fields d rounds nested s.fields [] := by
  unfold body
  rw [h]

/-- A present field is aligned, decoded and checked where it was sought. -/
theorem presentField_eq (f : Field) (siblings : List Node) :
    presentField d rounds nested f siblings = sought f (do
      align f.align
      let node ← content d rounds nested f siblings
      let isValid ← validity f
      pure { node with description := f.description, isPadding := f.padding, isValid }) := by
  unfold presentField sought content
  cases h : f.repetition <;> simp only [bind_assoc, pure_bind]

theorem field_eq (f : Field) (siblings : List Node) :
    field d rounds nested f siblings = .within f.name f.type (guarded d rounds nested f siblings) := rfl

/-- The first field either contributes a node or none, and the others follow unless it was abandoned. -/
theorem fields_cons (f : Field) (rest : List Field) (found : List Node) :
    fields d rounds nested (f :: rest) found = (do
      d.checkCancelled
      let (node, goesOn) ← member d f (field d rounds nested f found)
      if goesOn then fields d rounds nested rest (found ++ node.toList)
      else pure (found ++ node.toList)) := by
  rw [fields, member]
  -- Both sides run the field in the same way. Only what they do with its outcome is told apart below.
  simp only [bind_assoc]
  congr 1
  funext _
  congr 1
  funext before
  congr 1
  funext result
  unfold settled
  match result with
  | .ok (some node) => simp only [bind_assoc, pure_bind, if_true, Option.toList_some]
  | .ok none => simp only [pure_bind, if_true, Option.toList_none, List.append_nil]
  | .error failure =>
      by_cases h : d.options.mode = .recover ∧ failure.isRecoverable
      · simp only [if_pos h, bind_assoc, pure_bind, Option.toList_some]
      · simp only [if_neg h]
        rfl

/-- A struct is what is decoded one level further down, from its first byte to where the position is then. -/
theorem structWith_eq (s : StructDef) (name : String) :
    structWith d rounds nested s name = (do
      let (start, children) ← descended d (inside d rounds nested s)
      let stop ← .pos
      pure { name, typeName := s.name, offset := start, size := stop - start, content := .struct
             children }) := by
  unfold structWith descended inside
  simp only [bind_assoc, pure_bind]
  by_cases h : s.isStringTable = true
  · simp only [if_pos h, bind_assoc, pure_bind]
  · simp only [if_neg h, bind_assoc, pure_bind]

/-- The run that the padding of a struct starts from. -/
def tabled (s : StructDef) (start : Nat) (r : Run) : Run :=
  if s.isStringTable then { r with reader := r.reader.addTable s.name start r.pos } else r

/-- Behind its fields a struct is named as a string table, where it is one, and padded. -/
theorem inside_apply {s : StructDef} {r r' : Run} {children : List Node}
    (h : body d rounds nested s r = .done children r') :
    inside d rounds nested s r = (do align s.align; pure (r.pos, children)) (tabled s r.pos r') := by
  unfold inside tabled
  rw [Decoding.bind_done (rfl : Decoding.pos r = .done r.pos r), Decoding.bind_done h,
    Decoding.bind_done (rfl : Decoding.pos r' = .done r'.pos r')]
  by_cases ht : s.isStringTable = true
  · rw [if_pos ht, if_pos ht]; rfl
  · rw [if_neg ht, if_neg ht]

/-! ## What becomes of a field -/

/-- A field that failed goes on as a member by way of `settled`, at the state it failed in. -/
theorem member_apply (f : Field) (x : Decoding (Option Node)) (r : Run) :
    d.member f x r = match x r with
      | .done node r' => d.settled f r (.ok node) r'
      | .failed e r' => d.settled f r (.error e) r'
      | .unfinished => .unfinished := by
  show (x.attempt >>= d.settled f r) r = _
  rw [Decoding.bind_apply]
  unfold Decoding.attempt
  cases x r <;> rfl

theorem settled_error (f : Field) (before : Run) (e : Failure) :
    d.settled f before (.error e) =
      if d.options.mode = .recover ∧ e.isRecoverable then do
        let (node, resume) ← d.replaceField f before e
        pure (some node, resume.isSome)
      else .rethrow e := rfl

/-! ## Counting, and putting one in the place of a failed field -/

theorem countNode_apply (r : Run) :
    d.countNode r =
      if 0 < d.options.maxNodes.toNat ∧ d.options.maxNodes.toNat < r.nodes + 1 then
        .failed ⟨.tooManyNodes d.options.maxNodes.toNat, none⟩ { r with nodes := r.nodes + 1 }
      else .done () { r with nodes := r.nodes + 1 } := by
  show (if _ then _ else _ : Decoding Unit) { r with nodes := r.nodes + 1 } = _
  split <;> rfl

/-- The options allow for this number of nodes. -/
def Admits (n : Nat) : Prop := 0 < d.options.maxNodes.toNat → n ≤ d.options.maxNodes.toNat

theorem countNode_eq_done {r r' : Run} {u : Unit} (h : d.countNode r = .done u r') :
    r' = { r with nodes := r.nodes + 1 } ∧ d.Admits (r.nodes + 1) := by
  rw [countNode_apply] at h
  split at h
  · cases h
  · rename_i hmax
    obtain ⟨-, rfl⟩ := Outcome.done.inj h
    exact ⟨rfl, fun h0 => Nat.le_of_not_lt fun hlt => hmax ⟨h0, hlt⟩⟩

/-- A node that the cap admits is counted. -/
theorem countNode_of_admits {r : Run} (h : d.Admits (r.nodes + 1)) :
    d.countNode r = .done () { r with nodes := r.nodes + 1 } := by
  rw [countNode_apply, if_neg fun hmax => Nat.not_lt.mpr (h hmax.1) hmax.2]

theorem checkElements_eq_done {n : Nat} {r r' : Run} (h : d.checkElements n r = .done () r')
    (hmax : 0 < d.options.maxElements.toNat) : n ≤ d.options.maxElements.toNat := by
  unfold checkElements at h
  by_cases hn : d.options.maxElements.toNat < n
  · rw [if_pos ⟨hmax, hn⟩] at h; cases h
  · omega

theorem descend_apply (r : Run) :
    d.descend r =
      if d.options.maxDepth.toNat < r.depth + 1 then
        .failed ⟨.tooDeep d.options.maxDepth.toNat, none⟩ { r with depth := r.depth + 1 }
      else .done () { r with depth := r.depth + 1 } := by
  show (if _ then _ else _ : Decoding Unit) { r with depth := r.depth + 1 } = _
  split <;> rfl

/-- A struct is entered one level down, and never below the limit. -/
theorem descend_eq_done {r r' : Run} {u : Unit} (h : d.descend r = .done u r') :
    r' = { r with depth := r.depth + 1 } ∧ r.depth + 1 ≤ d.options.maxDepth.toNat := by
  rw [descend_apply] at h
  split at h
  · cases h
  · rename_i hmax
    obtain ⟨-, rfl⟩ := Outcome.done.inj h
    exact ⟨rfl, Nat.le_of_not_lt hmax⟩

/-- The run after a field that failed, all that it left open closed and the failure noted down. -/
def afterFailure (f : Field) (before after : Run) (failure : Failure) : Run :=
  { after with
    reader := after.reader.unwind before.reader.scopes.length
    path := before.path
    depth := before.depth
    recovered := recoveredFailure f before failure :: after.recovered }

/-- Where decoding goes on behind a field that failed, in a scope that ends at `stop`. -/
def resumesAt (f : Field) (start stop : Nat) : Option Nat :=
  f.staticSize?.map fun size => min (start + size) stop

/-- Where to go on is known exactly if the size of the field is. -/
theorem isSome_resumesAt (f : Field) (start stop : Nat) :
    (resumesAt f start stop).isSome = f.staticSize?.isSome := by
  rw [resumesAt, Option.isSome_map]

/-- Decoding never goes on behind the end of the scope, however large the field claims to be. -/
theorem resumesAt_le (f : Field) (start stop : Nat) :
    (resumesAt f start stop).getD start ≤ max start stop := by
  unfold resumesAt
  cases f.staticSize? with
  | none => exact Nat.le_max_left _ _
  | some size => exact Nat.le_trans (Nat.min_le_right _ _) (Nat.le_max_right _ _)

theorem le_resumesAt (f : Field) {start stop : Nat} (h : start ≤ stop) :
    start ≤ (resumesAt f start stop).getD start := by
  unfold resumesAt
  cases f.staticSize? with
  | none => exact Nat.le_refl _
  | some size => exact Nat.le_min.mpr ⟨Nat.le_add_right _ _, h⟩

theorem replaceField_apply (f : Field) (before after : Run) (failure : Failure) :
    d.replaceField f before failure after =
      let run := afterFailure f before after failure
      let resume := resumesAt f before.pos run.reader.scope.stop
      (do
        d.countNode
        .jump (resume.getD before.pos)
        pure (failedNode f before.pos ((resume.map (· - before.pos)).getD 0) failure, resume)) run := rfl

/-- A failure that is settled is one that was recovered from: a node stands for the field, and the run goes on
where the schema says, or else where the field started. -/
theorem settled_error_eq_done {f : Field} {before r r' : Run} {e : Failure} {p : Option Node × Bool}
    (h : d.settled f before (.error e) r = .done p r') :
    let run := afterFailure f before r e
    let resume := resumesAt f before.pos run.reader.scope.stop
    d.options.mode = .recover ∧ e.isRecoverable = true ∧ d.Admits (r.nodes + 1) ∧
      p = (some (failedNode f before.pos (resume.getD before.pos - before.pos) e), resume.isSome) ∧
      r' = { run with
        reader := { run.reader with pos := resume.getD before.pos }
        nodes := r.nodes + 1 } := by
  rw [settled_error] at h
  by_cases hrec : d.options.mode = .recover ∧ e.isRecoverable = true
  · rw [if_pos hrec] at h
    obtain ⟨q, r₁, hreplace, hpure⟩ := Decoding.bind_eq_done h
    rw [replaceField_apply] at hreplace
    obtain ⟨_, r₂, hcount, hrest⟩ := Decoding.bind_eq_done hreplace
    obtain ⟨_, r₃, hjump, hnode⟩ := Decoding.bind_eq_done hrest
    obtain ⟨rfl, hadmits⟩ := d.countNode_eq_done hcount
    obtain ⟨-, rfl⟩ := Outcome.done.inj hjump
    obtain ⟨rfl, rfl⟩ := Outcome.done.inj hnode
    obtain ⟨rfl, rfl⟩ := Outcome.done.inj hpure
    refine ⟨hrec.1, hrec.2, hadmits, ?_, rfl⟩
    cases resumesAt f before.pos (afterFailure f before r e).reader.scope.stop with
    | none => simp only [Option.map_none, Option.getD_none, Nat.sub_self]
    | some resume => rfl
  · rw [if_neg hrec] at h
    cases h

end Decoder

end BinaryFormat
