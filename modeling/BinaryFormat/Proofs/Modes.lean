import BinaryFormat.Proofs.Accuracy

/-!
# The two modes up to the first failure

A strict decode and a recovering one of the same buffer are one and the same until something fails. There the
strict one ends, and the recovering one notes down the very failure that the strict one ends in. What has been
noted down stays, so everything that a decode recovered from can be read off its first failure: without one, the
two modes cannot be told apart.
-/

namespace BinaryFormat

open Schema (Field StructDef)

/-- The same options in another mode. -/
def Options.withMode (o : Options) (m : Mode) : Options := { o with mode := m }

/-- What is reported of a failure at a place. -/
def Failure.noteAt (f : Failure) (p : Place) : Recovered := ⟨p.offset, p.path, f.report⟩

/-- The tree under the first node has the second one in it. -/
inductive Node.Contains : Node → Node → Prop where
  | self (n : Node) : Contains n n
  | child {n c m : Node} : c ∈ n.children → Contains c m → Contains n m

namespace Node

/-- Every node in the tree has this property. -/
def Throughout (P : Node → Prop) (n : Node) : Prop := ∀ m, n.Contains m → P m

namespace Throughout

variable {P : Node → Prop} {n : Node}

theorem here (h : n.Throughout P) : P n := h n (.self n)

theorem below (h : n.Throughout P) : ∀ c ∈ n.children, c.Throughout P := fun _ hc m hm => h m (.child hc hm)

theorem intro (h : P n) (hbelow : ∀ c ∈ n.children, c.Throughout P) : n.Throughout P := by
  intro m hm
  cases hm with
  | self => exact h
  | child hc hm => exact hbelow _ hc m hm

end Throughout

end Node

namespace Outcome

variable {α β : Type}

/-- However the step ends, it leaves `Q` true. -/
def Leaves (o : Outcome α) (Q : Run → Prop) : Prop := o.Satisfies (fun _ => Q) (fun _ => Q)

theorem Leaves.mono {o : Outcome α} {Q Q' : Run → Prop} (h : o.Leaves Q) (hQ : ∀ r, Q r → Q' r) :
    o.Leaves Q' := Satisfies.mono h (fun _ => hQ) (fun _ => hQ)

/-- How a strict step ends, and the same step in recovery, from a run that has recovered from `before`. Either
they end alike and nothing was recovered from, or the strict one fails and the other one notes that failure
down before any other. -/
inductive Agrees (before : List Recovered) : Outcome α → Outcome α → Prop where
  | done {a : α} {r : Run} : r.recovered = before → Agrees before (done a r) (done a r)
  | failed {f : Failure} {r : Run} : r.recovered = before → Agrees before (failed f r) (failed f r)
  | unfinished : Agrees before unfinished unfinished
  | noted {f : Failure} {p : Place} {r : Run} {o : Outcome α} : f.place = some p →
      o.Leaves (fun r' => f.noteAt p :: before <:+ r'.recovered) → Agrees before (failed f r) o

/-- A step that recovers from nothing agrees with itself. -/
theorem Leaves.agrees {o : Outcome α} {before : List Recovered}
    (h : o.Leaves fun r => r.recovered = before) : Agrees before o o := by
  cases o with
  | done a r => exact .done h
  | failed f r => exact .failed h
  | unfinished => exact .unfinished

end Outcome

namespace Decoding

variable {α β γ : Type}

/-- A second step may build on what the first one left. -/
theorem leaves_bind {x : Decoding α} {f : α → Decoding β} {r : Run} {Q Q' : Run → Prop}
    (hx : (x r).Leaves Q) (hQ : ∀ r', Q r' → Q' r') (hf : ∀ a r', Q r' → (f a r').Leaves Q') :
    ((x >>= f) r).Leaves Q' :=
  satisfies_bind.mpr (Outcome.Satisfies.mono hx (fun a r' h => hf a r' h) fun _ => hQ)

/-! ## Steps that keep what was noted down -/

/-- Whatever was recovered from before the step is still noted down after it. -/
def Keeps (x : Decoding α) : Prop := ∀ r, (x r).Leaves fun r' => r.recovered <:+ r'.recovered

/-- The step recovers from nothing. -/
def Plain (x : Decoding α) : Prop := ∀ r, (x r).Leaves fun r' => r'.recovered = r.recovered

/-- A balanced step only adds to the notes. -/
theorem Balanced.keeps {b : Bool} {x : Decoding α} (h : x.Balanced b) : x.Keeps := fun r =>
  (h r).mono (fun _ _ h => h.1.recovered) (fun _ _ h => h.recovered)

theorem Keeps.bind {x : Decoding α} {f : α → Decoding β} (hx : x.Keeps) (hf : ∀ a, (f a).Keeps) :
    (x >>= f).Keeps := fun r =>
  leaves_bind (hx r) (fun _ h => h) fun a r' h => (hf a r').mono fun _ => h.trans

namespace Plain

theorem keeps {x : Decoding α} (h : x.Plain) : x.Keeps := fun r =>
  (h r).mono fun _ h => h ▸ List.suffix_refl _

theorem reading {x : Decoding α} (h : x.Reading) : x.Plain := fun r =>
  (h r).2.mono (fun _ _ h => by rw [h.rest]) (fun _ _ h => by rw [h.1.rest])

theorem pure (a : α) : Plain (pure a) := .reading (.pure a)

theorem bind {x : Decoding α} {f : α → Decoding β} (hx : x.Plain) (hf : ∀ a, (f a).Plain) :
    (x >>= f).Plain := fun r =>
  leaves_bind (hx r) (fun _ h => h) fun a r' h => (hf a r').mono fun _ h' => h'.trans h

theorem modifyReader (f : Reader → Reader) : (modifyReader f).Plain := fun _ => rfl

theorem move (f : Reader → Except Cause Reader) : (move f).Plain := by
  intro r
  cases hf : f r.reader with
  | ok reader => rw [move_ok hf]; exact rfl
  | error c => rw [move_error hf]; exact rfl

theorem seek (f : Field) : (Decoder.seek f).Plain := fun r =>
  (Decoder.seek_ensures f r).2.mono
    (fun _ _ h => by obtain ⟨-, -, rfl⟩ | ⟨-, -, _, -, rfl⟩ := h <;> rfl) (fun _ _ h => by rw [h])

theorem restore (f : Field) (before : Option Nat) : (Decoder.restore f before).Plain := by
  unfold Decoder.restore
  cases before with
  | none => exact .pure ()
  | some pos =>
      dsimp only
      split
      · exact .modifyReader _
      · exact .pure ()

/-- A node too many is a failure of the limit and not noted down. -/
theorem counted (d : Decoder) : d.countNode.Plain := by
  intro r
  rw [Decoder.countNode_apply]
  split
  · exact rfl
  · exact rfl

theorem descend (d : Decoder) : d.descend.Plain := by
  intro r
  rw [Decoder.descend_apply]
  split
  · exact rfl
  · exact rfl

end Plain

/-! ## What becomes of a field -/

/-- A field that was decoded is counted, and nothing is noted down. -/
theorem Plain.settled_ok (d : Decoder) (f : Field) (before : Run) (node : Option Node) :
    (d.settled f before (.ok node)).Plain := by
  cases node with
  | none => exact .pure _
  | some node => exact (counted d).bind fun _ => .pure _

/-- The failure that a node is put in the place of is noted down on top of what was there before. -/
theorem leaves_replaced (d : Decoder) (f : Field) (before : Run) (e : Failure) (r : Run) :
    ((do
      let (node, resume) ← d.replaceField f before e
      pure (some node, resume.isSome) : Decoding (Option Node × Bool)) r).Leaves
        fun r' => r'.recovered = Decoder.recoveredFailure f before e :: r.recovered := by
  show Outcome.Leaves ((d.replaceField f before e >>= _) r) _
  rw [bind_apply, Decoder.replaceField_apply]
  exact Plain.bind (Plain.bind (.counted d) fun _ => (Plain.modifyReader _).bind fun _ => .pure _)
    (fun _ => .pure _) (Decoder.afterFailure f before r e)

/-- A failure that is recovered from goes on top of the notes; one that is not leaves them alone. -/
theorem keeps_settled (d : Decoder) (f : Field) (before : Run) (result : Except Failure (Option Node)) :
    (d.settled f before result).Keeps := by
  intro r
  match result with
  | .ok node => exact (Plain.settled_ok d f before node).keeps r
  | .error e =>
      rw [Decoder.settled_error]
      split
      · exact (leaves_replaced d f before e r).mono fun _ h => h ▸ List.suffix_cons _ _
      · exact List.suffix_refl _

/-! ## Steps in both modes -/

/-- The two modes of a step agree up to the first failure. -/
def Agree (x : Mode → Decoding α) : Prop :=
  ∀ r, Outcome.Agrees r.recovered (x .strict r) (x .recover r)

namespace Agree

/-- A step that recovers from nothing is the same in both modes. -/
theorem plain {x : Decoding α} (h : x.Plain) : Agree fun _ => x := fun r => (h r).agrees

/-- Behind a failure only the recovering mode gets to the second step, and that step must keep what the first
one noted down. -/
theorem bind {x : Mode → Decoding α} {f : Mode → α → Decoding β} (hx : Agree x)
    (hk : ∀ a, (x .recover).Yields a → (f .recover a).Keeps)
    (hf : ∀ a, (∃ m, (x m).Yields a) → Agree fun m => f m a) :
    Agree fun m => x m >>= f m := by
  intro r
  show Outcome.Agrees r.recovered ((x .strict >>= f .strict) r) ((x .recover >>= f .recover) r)
  rw [bind_apply, bind_apply]
  have h := hx r
  generalize hs : x .strict r = strict at h
  generalize hr : x .recover r = recovering at h
  cases h with
  | done hrec => exact hrec ▸ hf _ ⟨.strict, r, _, hs⟩ _
  | failed hrec => exact .failed hrec
  | unfinished => exact .unfinished
  | noted hp ho =>
      refine .noted hp ?_
      cases recovering with
      | done a r' => exact (hk a ⟨r, r', hr⟩ r').mono fun _ h => ho.trans h
      | failed e r' => exact ho
      | unfinished => trivial

/-- What goes before and after a step recovers from nothing. -/
theorem bracket {x : Mode → Decoding α} {opening : Decoding β} {closing : β → α → Decoding γ}
    (ho : opening.Plain) (hx : Agree x) (hk : (x .recover).Keeps) (hc : ∀ b a, (closing b a).Plain) :
    Agree fun m => (do let b ← opening; let a ← x m; closing b a : Decoding γ) :=
  bind (plain ho) (fun b _ => hk.bind fun a => (hc b a).keeps) fun b _ =>
    bind hx (fun a _ => (hc b a).keeps) fun a _ => plain (hc b a)

/-- A failure that has been noted down has a place, and keeps it. -/
theorem within {x : Mode → Decoding α} (segment : String) (type : FieldType) (h : Agree x) :
    Agree fun m => within segment type (x m) := by
  intro r
  have h' := h { r with path := segment :: r.path }
  dsimp only
  unfold Decoding.within
  generalize x .strict { r with path := segment :: r.path } = strict at h'
  generalize x .recover { r with path := segment :: r.path } = recovering at h'
  cases h' with
  | done hrec => exact .done hrec
  | failed hrec => exact .failed hrec
  | unfinished => exact .unfinished
  | noted hp ho =>
      dsimp only
      -- The place was said where the failure was noted down, and nothing around it says another one.
      rw [Failure.locate_of_place hp]
      refine .noted hp ?_
      cases recovering with
      | done a r' => exact ho
      | failed e r' => exact ho
      | unfinished => trivial

theorem inBuffer (s : Schema) (o : Options) {x : Mode → Decoding α} (data : Buffer) (h : Agree x) :
    Agree fun m => Decoder.inBuffer ⟨s, o.withMode m⟩ data (x m) := by
  intro r
  have h' := h { r with reader := .ofBuffer data s.order }
  dsimp only
  unfold Decoder.inBuffer
  dsimp only
  generalize x .strict { r with reader := .ofBuffer data s.order } = strict at h'
  generalize x .recover { r with reader := .ofBuffer data s.order } = recovering at h'
  cases h' with
  | done hrec => exact .done hrec
  | failed hrec => exact .failed hrec
  | unfinished => exact .unfinished
  | noted hp ho =>
      refine .noted hp ?_
      cases recovering with
      | done a r' => exact ho
      | failed e r' => exact ho
      | unfinished => trivial

/-- A field that fails gets its place from the field itself, if from nothing inside it. -/
theorem member (s : Schema) (o : Options) {x : Mode → Decoding (Option Node)} (f : Field)
    (hx : Agree x) : Agree fun m =>
      Decoder.member ⟨s, o.withMode m⟩ f (.within f.name f.type (x m)) := by
  intro r
  have h : Outcome.Agrees r.recovered (Decoding.within f.name f.type (x .strict) r)
      (Decoding.within f.name f.type (x .recover) r) := hx.within f.name f.type r
  show Outcome.Agrees _ (Decoder.member _ f _ r) (Decoder.member _ f _ r)
  rw [Decoder.member_apply, Decoder.member_apply]
  generalize hs : Decoding.within f.name f.type (x .strict) r = strict at h
  generalize Decoding.within f.name f.type (x .recover) r = recovering at h
  cases h with
  | unfinished => exact .unfinished
  | @done node r' hrec =>
      rw [← hrec]
      cases node with
      | none => exact .done rfl
      | some n => exact (Plain.settled_ok ⟨s, o⟩ f r (some n) r').agrees
  | @failed e r' hrec =>
      -- the field gave the failure a place, and that is the place noted down
      obtain ⟨p, hp⟩ := place_of_within hs
      dsimp only
      rw [Decoder.settled_error, Decoder.settled_error, if_neg (fun h => nomatch h.1)]
      by_cases he : e.isRecoverable = true
      · rw [if_pos ⟨rfl, he⟩]
        refine .noted hp ?_
        have hnote : Decoder.recoveredFailure f r e = e.noteAt p := by
          unfold Decoder.recoveredFailure
          rw [hp]
          rfl
        refine (leaves_replaced _ f r e r').mono fun r'' h => ?_
        have hnoted : r''.recovered = e.noteAt p :: r.recovered := by rw [h, hnote, hrec]
        exact hnoted ▸ List.suffix_refl _
      · rw [if_neg fun h => he h.2]
        exact .failed hrec
  | noted hp ho =>
      -- the recovering run has noted the failure already, and settling keeps what is noted
      dsimp only
      rw [Decoder.settled_error, if_neg (fun h => nomatch h.1)]
      refine .noted hp ?_
      cases recovering with
      | done node r' => exact (keeps_settled _ f r _ r').mono fun _ h => ho.trans h
      | failed e r' => exact (keeps_settled _ f r _ r').mono fun _ h => ho.trans h
      | unfinished => trivial

end Agree

/-- Both modes of the step agree up to the first failure, and each of them is balanced. -/
structure Lockstep (b : Bool) (x : Mode → Decoding α) : Prop where
  agree : Agree x
  balanced : ∀ m, (x m).Balanced b

namespace Lockstep

variable {b : Bool}

theorem reading {x : Decoding α} (h : x.Reading) : Lockstep b fun _ => x :=
  ⟨.plain (.reading h), fun _ => .reading h⟩

theorem bind {x : Mode → Decoding α} {f : Mode → α → Decoding β} (hx : Lockstep b x)
    (hf : ∀ a, (∃ m, (x m).Yields a) → Lockstep b fun m => f m a) : Lockstep b fun m => x m >>= f m :=
  ⟨hx.agree.bind (fun a ha => ((hf a ⟨_, ha⟩).balanced _).keeps) fun a ha => (hf a ha).agree,
    fun m => (hx.balanced m).bind fun a ha => (hf a ⟨m, ha⟩).balanced m⟩

/-- Two steps around another that recover from nothing, and are balanced together with it. -/
theorem bracket {x : Mode → Decoding α} {opening : Decoding β} {closing : β → α → Decoding γ}
    (h : Lockstep b x) (ho : opening.Plain) (hc : ∀ b a, (closing b a).Plain)
    (hb : ∀ m, (do let b ← opening; let a ← x m; closing b a : Decoding γ).Balanced b) :
    Lockstep b fun m => (do let b ← opening; let a ← x m; closing b a : Decoding γ) :=
  ⟨.bracket ho h.agree (h.balanced _).keeps hc, hb⟩

end Lockstep

end Decoding

namespace Decoder

open Decoding

/-- The same decoder in another mode. -/
def withMode (d : Decoder) (m : Mode) : Decoder := ⟨d.schema, d.options.withMode m⟩

variable (d : Decoder)

/-- Every step goes on in lockstep in both modes. -/
theorem compositional_lockstep (rounds : Nat) :
    Compositional d.schema d.options.withMode (fun _ => rounds) fun b {_} x => Lockstep b x where
  reading := .reading
  bind := .bind
  cancelled := .reading d.unmoving_checkCancelled.reading
  counted := ⟨.plain (.counted d), fun m => .counted (d.withMode m)⟩
  limited n := .reading (d.unmoving_checkElements n).reading
  table name start stop := ⟨.plain (.modifyReader _), fun _ => .table name start stop⟩
  within segment type h := ⟨h.agree.within segment type, fun m => (h.balanced m).within segment type⟩
  inBuffer data h := ⟨h.agree.inBuffer d.schema d.options data,
    fun m => (h.balanced m).inBuffer (d.withMode m) data⟩
  bounded size h := h.bracket (.move _) (fun _ _ => .bind (.move _) fun _ => .pure _)
    fun m => (h.balanced m).bounded size
  overlaid order h := h.bracket (.modifyReader _) (fun _ _ => .bind (.move _) fun _ => .pure _)
    fun m => (h.balanced m).overlaid order
  sought f hf h := h.bracket (.seek f) (fun before _ => .bind (.restore f before) fun _ => .pure _)
    fun m => (h.balanced m).sought f hf
  member f h := ⟨h.agree.member d.schema d.options f,
    fun m => ((h.balanced m).within f.name f.type).member (d.withMode m) f⟩
  openEnded _ _ hc _ h hl := openElements_of_element (P := fun x => Lockstep _ x) (d := d.withMode) .reading
    ⟨fun _ => .unfinished, fun _ _ => trivial⟩ .bind (fun n => .reading (d.unmoving_checkElements n).reading)
    (fun n => h _ n hc) hl.unmoving rounds 0 []

/-- Structs agree in both modes at any depth. -/
theorem lockstep_struct (rounds levels : Nat) {s : StructDef} (name : String) (hs : d.schema.Defines s) :
    Lockstep false fun m => (d.withMode m).struct rounds levels s name := by
  refine ⟨?_, fun m => (d.withMode m).balanced_struct rounds levels s name nofun⟩
  induction levels generalizing s name with
  | zero => exact fun _ => .unfinished
  | succ levels ih =>
      have hinside : Lockstep false fun m =>
          inside (d.withMode m) rounds ((d.withMode m).struct rounds levels) s :=
        (d.compositional_lockstep rounds).inside (fun _ s name hs hc =>
          ⟨ih name hs, fun m => (d.withMode m).balanced_struct rounds levels s name hc⟩) hs nofun
      -- Going into the struct and out of it changes the depth alone, which the two modes count alike.
      have hdescended : Agree fun m => (d.withMode m).descended
          (inside (d.withMode m) rounds ((d.withMode m).struct rounds levels) s) :=
        .bracket (.descend d) hinside.agree (hinside.balanced _).keeps fun _ _ _ => rfl
      have hstruct : ∀ m, (d.withMode m).struct rounds (levels + 1) s name = _ :=
        fun m => structWith_eq (d.withMode m) rounds _ s name
      have hnode : ∀ p : Nat × List Node, (do
          let stop ← Decoding.pos
          pure { name, typeName := s.name, offset := p.1, size := stop - p.1, content := .struct
                 children := p.2 } : Decoding Node).Plain :=
        fun p => .bind (.reading .pos) fun _ => .pure _
      simp only [hstruct]
      exact hdescended.bind (fun p _ => (hnode p).keeps) fun p _ => .plain (hnode p)

/-- A whole decode agrees in both modes up to its first failure. -/
theorem agree_root (rounds : Nat) : Agree fun m => (d.withMode m).root rounds :=
  ((d.compositional_lockstep rounds).bind_structDef (b := false) fun _ hs =>
    d.lockstep_struct rounds _ d.schema.name ⟨_, hs⟩).agree

/-! ## Trees without a failure -/

/-- The node is about something that was decoded. -/
def Judged (n : Node) : Prop :=
  ∃ data order, (∃ s, StructNode d data order s n) ∨ (∃ f, FieldNode d data order f n) ∨
    ∃ f, Occurrence d data order f n

variable {d}

/-- In strict mode only a field that was decoded has a node. -/
theorem Members.fieldNode (hm : d.options.mode = .strict) {data : Buffer} {order : ByteOrder}
    {fs : List Field} {nodes : List Node} (h : Members d data order fs nodes) :
    ∀ n ∈ nodes, ∃ f, FieldNode d data order f n := by
  induction fs generalizing nodes with
  | nil => cases h with
    | nil => exact nofun
  | cons f rest ih => cases h with
    | absent _ hrest => exact ih hrest
    | present hf hrest => exact List.forall_mem_cons.mpr ⟨⟨f, hf⟩, ih hrest⟩
    | failed hrecover _ _ _ _ _ => cases hm.symm.trans hrecover
    | abandoned hrecover _ _ _ _ => cases hm.symm.trans hrecover

theorem StructNode.children_judged (hm : d.options.mode = .strict) {data : Buffer} {order : ByteOrder}
    {s : StructDef} {n : Node} (h : StructNode d data order s n) :
    n.isFailed = false ∧ ∀ c ∈ n.children, d.Judged c := by
  cases h with
  | mk _ hc hmembers =>
      refine ⟨by rw [Node.isFailed, hc], fun c hmem => ?_⟩
      obtain ⟨f, hf⟩ := hmembers.fieldNode hm c hmem
      exact ⟨data, _, Or.inr (Or.inl ⟨f, hf⟩)⟩

theorem Occurrence.children_judged (hm : d.options.mode = .strict) {data : Buffer} {order : ByteOrder}
    {f : Field} {n : Node} (h : Occurrence d data order f n) :
    n.isFailed = false ∧ ∀ c ∈ n.children, d.Judged c := by
  cases h with
  | leaf _ _ hs hch => exact ⟨hs.isFailed_eq, hch ▸ nofun⟩
  | struct _ _ hs => exact hs.children_judged hm
  | stream _ _ _ _ _ hc hch => exact ⟨by rw [Node.isFailed, hc], hch ▸ nofun⟩
  | unpacked _ _ _ _ _ hc _ hch hi =>
      refine ⟨by rw [Node.isFailed, hc], fun c hmem => ?_⟩
      obtain rfl := List.mem_singleton.mp (hch ▸ hmem)
      exact ⟨_, _, Or.inl ⟨_, hi⟩⟩

/-- What was decoded in strict mode did not fail, and all that hangs below it was decoded, too. -/
theorem Judged.children_judged (hm : d.options.mode = .strict) {n : Node} (h : d.Judged n) :
    n.isFailed = false ∧ ∀ c ∈ n.children, d.Judged c := by
  obtain ⟨data, order, ⟨s, hs⟩ | ⟨f, hf⟩ | ⟨f, ho⟩⟩ := h
  · exact hs.children_judged hm
  · cases hf with
    | once _ ho => exact ho.children_judged hm
    | array _ _ hc he =>
        exact ⟨by rw [Node.isFailed, hc], fun c hmem => ⟨data, order, Or.inr (Or.inr ⟨_, he c hmem⟩)⟩⟩
  · exact ho.children_judged hm

/-- No node of a strict decode stands for a field that failed, at whatever depth. -/
theorem Judged.not_failed (hm : d.options.mode = .strict) {n m : Node} (h : d.Judged n)
    (hc : n.Contains m) : m.isFailed = false := by
  induction hc with
  | self n => exact (h.children_judged hm).1
  | child hmem _ ih => exact ih ((h.children_judged hm).2 _ hmem)

/-! ## The two answers -/

/-- What a decode answers if its root ends like this. -/
def answerOf? : Outcome Node → Option (Except Failure Decoded)
  | .done root run => some (.ok ⟨root, run.recovered.reverse⟩)
  | .failed f _ => some (.error f)
  | .unfinished => none

theorem decode?_eq (d : Decoder) (rounds : Nat) (data : Buffer) :
    d.decode? rounds data = answerOf? (d.root rounds (.start (.ofBuffer data d.schema.order))) := by
  unfold decode? answerOf?
  cases d.root rounds (.start (.ofBuffer data d.schema.order)) <;> rfl

/-- Two ends that agree are the same answer, in which nothing was recovered from, or else a failure and an
answer that begins with it. -/
theorem answers_of_agrees {strict recovering : Outcome Node} (h : Outcome.Agrees [] strict recovering)
    {S R : Except Failure Decoded} (hS : answerOf? strict = some S) (hR : answerOf? recovering = some R) :
    (R = S ∧ ∀ t, S = .ok t → t.recovered = []) ∨
      ∃ f p, S = .error f ∧ f.place = some p ∧ ∀ t, R = .ok t → t.recovered.head? = some (f.noteAt p) := by
  cases h with
  | unfinished => cases hS
  | @done root r hrec =>
      obtain rfl := Option.some.inj hS
      obtain rfl := Option.some.inj hR
      refine Or.inl ⟨rfl, fun t ht => ?_⟩
      obtain rfl := Except.ok.inj ht
      show r.recovered.reverse = []
      rw [hrec]
      rfl
  | failed _ =>
      obtain rfl := Option.some.inj hS
      obtain rfl := Option.some.inj hR
      exact Or.inl ⟨rfl, nofun⟩
  | @noted f p r o hp ho =>
      obtain rfl := Option.some.inj hS
      refine Or.inr ⟨f, p, rfl, hp, fun t ht => ?_⟩
      subst ht
      cases recovering with
      | unfinished => cases hR
      | failed e r' => cases hR
      | done root r' =>
          obtain rfl := Except.ok.inj (Option.some.inj hR)
          -- notes are kept last first, so what was noted first is at the end
          obtain ⟨later, hlater⟩ : [f.noteAt p] <:+ r'.recovered := ho
          show r'.recovered.reverse.head? = _
          rw [← hlater, List.reverse_append]
          rfl

/-- Where both modes have an answer, a strict decode succeeds exactly if the recovering one has nothing to
recover from, and then the trees are the same. Otherwise it fails for what the recovering one noted down first. -/
theorem modes_agree {d : Decoder} {data : Buffer} {S R : Except Failure Decoded}
    (hS : (d.withMode .strict).Answers data S) (hR : (d.withMode .recover).Answers data R) :
    (∀ t, S = .ok t → t.recovered = [] ∧ (∀ n, t.root.Contains n → n.isFailed = false) ∧ R = .ok t) ∧
    (∀ t, R = .ok t → t.recovered = [] → S = .ok t) ∧
    ∀ t first rest, R = .ok t → t.recovered = first :: rest →
      ∃ f p, S = .error f ∧ f.place = some p ∧ p.offset = first.offset ∧ p.path = first.path ∧
        f.report = first.message := by
  have hclean : ∀ t, S = .ok t → ∀ n, t.root.Contains n → n.isFailed = false := by
    rintro t rfl n hn
    obtain ⟨rounds, r, hr, -⟩ := answers_ok_iff _ |>.mp hS
    obtain ⟨s, -, hroot⟩ := (makes_root _ rounds).fits (Reader.sound_ofBuffer data _) hr
    exact Judged.not_failed (d := d.withMode .strict) rfl ⟨_, _, Or.inl ⟨s, hroot⟩⟩ hn
  obtain ⟨k, hk⟩ := hS
  obtain ⟨l, hl⟩ := hR
  -- both answers are there after the same number of rounds
  replace hk := (d.withMode .strict).decode?_mono (Nat.le_max_left k l) hk
  replace hl := (d.withMode .recover).decode?_mono (Nat.le_max_right k l) hl
  rw [decode?_eq] at hk hl
  have hagree := d.agree_root (max k l) (.start (.ofBuffer data d.schema.order))
  rcases answers_of_agrees hagree hk hl with ⟨rfl, hnone⟩ | ⟨f, p, rfl, hp, hfirst⟩
  · refine ⟨fun t ht => ⟨hnone t ht, hclean t ht, ht⟩, fun t ht _ => ht, fun t first rest ht hrec => ?_⟩
    rw [hnone t ht] at hrec
    cases hrec
  · refine ⟨nofun, fun t ht hrec => ?_, fun t first rest ht hrec => ?_⟩
    · have := hfirst t ht
      rw [hrec] at this
      cases this
    · have := hfirst t ht
      rw [hrec] at this
      obtain rfl := Option.some.inj this
      exact ⟨f, p, rfl, hp, rfl, rfl, rfl⟩

/-- Four bytes in one field. -/
def quad : Decoder where
  schema := {
    name := "quad"
    structs := [("all", { name := "all", fields := [{ name := "q", type := .u32 }] })]
    root := "all" }
  options := { maxDepth := 1 }

/-- Why four bytes cannot be read where there is one. -/
def quadFailure : Failure := ⟨.readTooLong 4 1, some ⟨0, "q", .u32⟩⟩

/-- A strict decode of a single byte fails, and a recovering one begins its notes with that failure. -/
theorem quad_modes_agree : (quad.withMode .strict).Answers #[7] (.error quadFailure) ∧
    ∃ t first, (quad.withMode .recover).Answers #[7] (.ok t) ∧ t.recovered = [first] ∧
      ∃ f p, (.error quadFailure : Except Failure Decoded) = .error f ∧ f.place = some p ∧
        p.offset = first.offset ∧ p.path = first.path ∧ f.report = first.message := by
  have hS : (quad.withMode .strict).Answers #[7] (.error quadFailure) := ⟨0, rfl⟩
  obtain ⟨t, first, hR, hfirst⟩ : ∃ t first, (quad.withMode .recover).Answers #[7] (.ok t) ∧
      t.recovered = [first] := ⟨_, _, ⟨0, rfl⟩, rfl⟩
  exact ⟨hS, t, first, hR, hfirst, (modes_agree hS hR).2.2 t first [] rfl hfirst⟩

end Decoder

end BinaryFormat
