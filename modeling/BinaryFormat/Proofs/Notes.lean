import BinaryFormat.Proofs.Trace

/-!
# What is noted down of failures

A decode that recovers keeps a list of the failures that it recovered from, and nothing is ever taken off it: the
list tells first what a strict decode would have failed with. A field may fail as a whole after failures inside of
it were recovered from, and then their nodes are gone with it, and their notes are not. So there may be more notes
than nodes that failed. What holds is that the notes come in groups, in the order of the nodes: the note of the
node itself, and in front of it those of what had failed inside.
-/

namespace BinaryFormat

open Schema (Field StructDef)
open Decoding

/-! ## Ways -/

/-- The dotted path of a way, which has its innermost segment first. -/
def Run.wayText (way : List String) : String :=
  way.foldr (fun segment path => extendPath path segment) ""

/-- The path is that of the field at the end of the way, or of something inside of it. -/
def OnWay (way : List String) (path : String) : Prop := ∃ inner, path = Run.wayText (inner ++ way)

/-- What is on the way to a field is on the way to what the field is in. -/
theorem OnWay.tail {segment path : String} {way : List String} (h : OnWay (segment :: way) path) :
    OnWay way path := by
  obtain ⟨inner, rfl⟩ := h
  exact ⟨inner ++ [segment], by rw [List.append_assoc]; rfl⟩

namespace Node

mutual

/-- The fields that failed in a tree, the first ones first: the way to each, given that to the tree itself, and what
its node says. The struct in a stream is where the stream is. -/
def failures (way : List String) : Node → List (List String × String)
  | { content, children, .. } =>
    (match content with
      | .failed message => [(way, message)]
      | _ => []) ++ failuresBelow (fun name => if content.isStream then way else name :: way) children

/-- The fields that failed in some trees. -/
def failuresBelow (wayTo : String → List String) : List Node → List (List String × String)
  | [] => []
  | n :: rest => n.failures (wayTo n.name) ++ failuresBelow wayTo rest

end

end Node

namespace Node

theorem failures_eq (way : List String) (n : Node) :
    n.failures way = (match n.content with
      | .failed message => [(way, message)]
      | _ => []) ++ failuresBelow (fun name => if n.content.isStream then way else name :: way) n.children := by
  cases n
  rfl

/-- Below a list of one node are the failures of that node. -/
theorem failuresBelow_singleton (wayTo : String → List String) (n : Node) :
    failuresBelow wayTo [n] = n.failures (wayTo n.name) := by
  rw [failuresBelow, failuresBelow, List.append_nil]

/-- What is said of a node besides its content and what lies below it is no matter. -/
theorem failures_relabel (way : List String) (n : Node) (name : String) (offset size : Nat)
    (description : Option String) (isPadding : Bool) (isValid : Option Bool) :
    failures way { n with name, offset, size, description, isPadding, isValid } = n.failures way := by
  rw [failures_eq, failures_eq]

/-- A struct or an array has the failures of its members, each under its name. -/
theorem failures_of_isBranch {way : List String} {n : Node} (h : n.isBranch = true) :
    n.failures way = failuresBelow (fun name => name :: way) n.children := by
  unfold isBranch at h
  rw [failures_eq]
  cases hc : n.content with
  | struct | array => rfl
  | _ => rw [hc] at h; cases h

/-- A stream adds no segment to the way of the struct in it. -/
theorem Holds.failures_eq {way : List String} {n inner : Node} (h : n.Holds inner) :
    n.failures way = failuresBelow (fun _ => way) [inner] := by
  have hstream := h.isStream
  rw [Node.failures_eq, h.children]
  cases hc : n.content with
  | compressed _ _ _ _ => rfl
  | _ => rw [hc] at hstream; cases hstream

/-- A leaf did not fail, and has nothing below it that did. -/
theorem IsLeaf.failures_eq {way : List String} {n : Node} (h : n.IsLeaf) : n.failures way = [] := by
  have hfailed := h.isFailed
  unfold Node.isFailed at hfailed
  rw [Node.failures_eq, h.children]
  cases hc : n.content with
  | failed message => rw [hc] at hfailed; cases hfailed
  | _ => rfl

end Node

/-- The notes account for the failures, in order: for each of them there is its own note, and in front of it there
are those of what had failed inside. -/
inductive Accounts : List (List String × String) → List Recovered → Prop where
  | nil : Accounts [] []
  | cons {way : List String} {message : String} {failures : List (List String × String)}
      {inside : List Recovered} {note : Recovered} {notes : List Recovered} :
      (∀ e ∈ inside, OnWay way e.path) → OnWay way note.path →
      (∃ front, note.message = front ++ message) → Accounts failures notes →
      Accounts ((way, message) :: failures) (inside ++ note :: notes)

/-- Notes that account for some failures, and then notes for others, account for all of them in order. -/
theorem Accounts.append {failures failures' : List (List String × String)} {notes notes' : List Recovered}
    (h : Accounts failures notes) (h' : Accounts failures' notes') :
    Accounts (failures ++ failures') (notes ++ notes') := by
  induction h with
  | nil => exact h'
  | cons hinside hpath hmessage _ ih =>
      rw [List.append_assoc]
      exact .cons hinside hpath hmessage ih

/-- Between the two runs these failures were accounted for. -/
def Run.AccountsFor (r : Run) (failures : List (List String × String)) (r' : Run) : Prop :=
  ∃ notes, r'.recovered.reverse = r.recovered.reverse ++ notes ∧ Accounts failures notes

namespace Run.AccountsFor

variable {r r' r'' : Run} {failures failures' : List (List String × String)}

theorem of_eq (h : r'.recovered = r.recovered) : r.AccountsFor [] r' :=
  ⟨[], by rw [h, List.append_nil], .nil⟩

theorem append (h : r.AccountsFor failures r') (h' : r'.AccountsFor failures' r'') :
    r.AccountsFor (failures ++ failures') r'' := by
  obtain ⟨notes, hnotes, haccounts⟩ := h
  obtain ⟨notes', hnotes', haccounts'⟩ := h'
  exact ⟨notes ++ notes', by rw [hnotes', hnotes, List.append_assoc], haccounts.append haccounts'⟩

/-- Only what is noted down before and after matters. -/
theorem congr {q q' : Run} (h : r.AccountsFor failures r') (hr : r.recovered = q.recovered)
    (hr' : q'.recovered = r'.recovered) : q.AccountsFor failures q' := by
  unfold AccountsFor
  rw [hr', ← hr]
  exact h

end Run.AccountsFor

/-! ## Steps that note down what is on their way -/

namespace Run

/-- What was noted down between the two runs is on the way that the first one is at. -/
def Notes (r r' : Run) : Prop := ∃ new, r'.recovered = new ++ r.recovered ∧ ∀ e ∈ new, OnWay r.path e.path

theorem Notes.of_eq {r r' : Run} (h : r'.recovered = r.recovered) : r.Notes r' := ⟨[], h, nofun⟩

/-- What two steps in a row note down is on the way, if the first one returns to it. -/
theorem Notes.trans {r r' r'' : Run} (h : r.Notes r') (hpath : r'.path = r.path) (h' : r'.Notes r'') :
    r.Notes r'' := by
  obtain ⟨new, hnew, hway⟩ := h
  obtain ⟨new', hnew', hway'⟩ := h'
  refine ⟨new' ++ new, by rw [hnew', hnew, List.append_assoc], fun e he => ?_⟩
  rcases List.mem_append.mp he with he | he
  · exact hpath ▸ hway' e he
  · exact hway e he

end Run

namespace Decoding

variable {α β : Type}

/-- The step notes nothing down, and leaves it to others to say where it failed. -/
def Quiet (x : Decoding α) : Prop := ∀ r, (x r).Satisfies (fun _ r' => r'.path = r.path ∧ r'.recovered = r.recovered)
  (fun e r' => e.place = none ∧ r'.recovered = r.recovered)

namespace Quiet

/-- A step that only reads notes nothing down. -/
theorem reading {x : Decoding α} (h : x.Reading) : x.Quiet := fun r =>
  (h r).2.mono (fun _ _ h => by rw [h.rest]; exact ⟨rfl, rfl⟩) (fun _ _ h => ⟨h.2, by rw [h.1.rest]⟩)

theorem pure (a : α) : Quiet (pure a) := reading (.pure a)

theorem unfinished : (unfinished : Decoding α).Quiet := fun _ => trivial

theorem modifyReader (f : Reader → Reader) : (modifyReader f).Quiet := fun _ => ⟨rfl, rfl⟩

theorem move (f : Reader → Except Cause Reader) : (move f).Quiet := by
  intro r
  cases hf : f r.reader with
  | ok reader => rw [move_ok hf]; exact ⟨rfl, rfl⟩
  | error c => rw [move_error hf]; exact ⟨rfl, rfl⟩

/-- Counting a node notes nothing down, and a node too many has no place of its own. -/
theorem counted (d : Decoder) : d.countNode.Quiet := by
  intro r
  rw [Decoder.countNode_apply]
  split
  · exact ⟨rfl, rfl⟩
  · exact ⟨rfl, rfl⟩

theorem descend (d : Decoder) : d.descend.Quiet := by
  intro r
  rw [Decoder.descend_apply]
  split
  · exact ⟨rfl, rfl⟩
  · exact ⟨rfl, rfl⟩

theorem ascend : Decoder.ascend.Quiet := fun _ => ⟨rfl, rfl⟩

theorem bind {x : Decoding α} {f : α → Decoding β} (hx : x.Quiet) (hf : ∀ a, (f a).Quiet) : (x >>= f).Quiet := by
  intro r
  rw [satisfies_bind]
  refine (hx r).mono (fun a r' h => ?_) (fun _ _ h => h)
  refine (hf a r').mono (fun _ _ h' => ?_) (fun _ _ h' => ?_)
  · exact ⟨h'.1.trans h.1, h'.2.trans h.2⟩
  · exact ⟨h'.1, h'.2.trans h.2⟩

theorem andPure {x : Decoding β} (h : x.Quiet) (a : α) : (do let _ ← x; Pure.pure a : Decoding α).Quiet :=
  h.bind fun _ => .pure a

theorem seek (f : Field) : (Decoder.seek f).Quiet := by
  unfold Decoder.seek
  cases f.seek with
  | none => exact .pure _
  | some e =>
      refine bind (reading (Unmoving.evalNat _ _).reading) fun target => ?_
      exact bind (reading .pos) fun before => (move _).andPure _

theorem restore (f : Field) (before : Option Nat) : (Decoder.restore f before).Quiet := by
  unfold Decoder.restore
  cases before with
  | none => exact .pure _
  | some pos =>
      dsimp only
      split
      · exact .modifyReader _
      · exact .pure _

/-- What is done with a field that did not fail. -/
theorem settled (d : Decoder) (f : Field) (before : Run) (node : Option Node) :
    (d.settled f before (.ok node)).Quiet := by
  cases node with
  | none => exact .pure _
  | some n => exact (counted d).andPure _

/-- A failure that is recovered from is noted down, and then nothing is left to do but to count the node and to move
on. -/
theorem settled_failed (d : Decoder) {f : Field} {before r : Run} {e : Failure}
    (h : d.options.mode = .recover ∧ e.isRecoverable = true) :
    (d.settled f before (.error e) r).Satisfies
      (fun _ r' => r'.path = before.path ∧ r'.recovered = Decoder.recoveredFailure f before e :: r.recovered)
      (fun e' r' => e'.place = none ∧ r'.recovered = Decoder.recoveredFailure f before e :: r.recovered) := by
  have hrest : ∀ q : Node × Option Nat, ∀ offset, (do
      d.countNode
      .jump offset
      Pure.pure q : Decoding (Node × Option Nat)).Quiet := fun q offset =>
    (counted d).bind fun _ => (modifyReader _).andPure q
  rw [Decoder.settled_error, if_pos h, satisfies_bind, Decoder.replaceField_apply]
  exact hrest _ _ (Decoder.afterFailure f before r e)

end Quiet

/-- Whatever the step notes down, and wherever it says that it failed, is on the way that it is taken at. -/
def Local (x : Decoding α) : Prop := ∀ r, (x r).Satisfies (fun _ r' => r'.path = r.path ∧ r.Notes r')
  (fun e r' => r.Notes r' ∧ ∀ p, e.place = some p → OnWay r.path p.path)

namespace Local

/-- A step that notes nothing down is local. -/
theorem quiet {x : Decoding α} (h : x.Quiet) : x.Local := fun r =>
  (h r).mono (fun _ _ h => ⟨h.1, .of_eq h.2⟩) (fun _ _ h => ⟨.of_eq h.2, fun _ hp => nomatch h.1.symm.trans hp⟩)

theorem reading {x : Decoding α} (h : x.Reading) : x.Local := .quiet (.reading h)

theorem bind {x : Decoding α} {f : α → Decoding β} (hx : x.Local) (hf : ∀ a, x.Yields a → (f a).Local) :
    (x >>= f).Local := by
  intro r
  have hr := hx r
  rw [bind_apply]
  cases hx' : x r with
  | unfinished => trivial
  | failed e r' => rw [hx'] at hr; exact hr
  | done a r' =>
      rw [hx'] at hr
      obtain ⟨hpath, hnotes⟩ := hr
      refine (hf a ⟨r, r', hx'⟩ r').mono (fun _ _ h' => ?_) (fun _ _ h' => ?_)
      · exact ⟨h'.1.trans hpath, hnotes.trans hpath h'.2⟩
      · exact ⟨hnotes.trans hpath h'.1, fun p hp => hpath ▸ h'.2 p hp⟩

/-- A step between two quiet ones. -/
theorem bracket {γ : Type} {x : Decoding α} {opening : Decoding β} {closing : β → α → Decoding γ}
    (hopening : opening.Quiet) (h : x.Local) (hclosing : ∀ b a, (closing b a).Quiet) :
    (do let b ← opening; let a ← x; closing b a : Decoding γ).Local :=
  (quiet hopening).bind fun b _ => h.bind fun a _ => .quiet (hclosing b a)

/-- What is noted down in a stream is noted down on the way to the stream. -/
theorem inBuffer (d : Decoder) {x : Decoding α} (data : Buffer) (h : x.Local) : (d.inBuffer data x).Local := by
  intro r
  have hx := h { r with reader := .ofBuffer data d.schema.order }
  unfold Decoder.inBuffer
  cases hr : x { r with reader := .ofBuffer data d.schema.order } with
  | unfinished => trivial
  | done a r' => rw [hr] at hx; exact ⟨rfl, hx.2⟩
  | failed e r' => rw [hr] at hx; exact hx

/-- A failure leaves a field with a place in it, and so do the notes that were made in it. -/
theorem within_failed {x : Decoding α} (h : x.Local) {segment : String} {type : FieldType} {r r' : Run}
    {e : Failure} (hf : Decoding.within segment type x r = .failed e r') :
    (∃ new, r'.recovered = new ++ r.recovered ∧ ∀ e ∈ new, OnWay (segment :: r.path) e.path) ∧
      ∃ p, e.place = some p ∧ OnWay (segment :: r.path) p.path := by
  have hx := h { r with path := segment :: r.path }
  unfold Decoding.within at hf
  cases hr : x { r with path := segment :: r.path } with
  | done a r₁ => rw [hr] at hf; cases hf
  | unfinished => rw [hr] at hf; cases hf
  | failed e' r₁ =>
      rw [hr] at hf hx
      obtain ⟨rfl, rfl⟩ := Outcome.failed.inj hf
      obtain ⟨hnotes, hplace⟩ := hx
      refine ⟨hnotes, _, rfl, ?_⟩
      cases hp : e'.place with
      | none => exact ⟨[], rfl⟩
      | some p => exact hplace p hp

/-- Inside a field all is on the way to the field, and thus on the way to what is around it. -/
theorem within {x : Decoding α} (segment : String) (type : FieldType) (h : x.Local) :
    (Decoding.within segment type x).Local := by
  intro r
  cases hw : Decoding.within segment type x r with
  | unfinished => trivial
  | done a r' =>
      have hx := h { r with path := segment :: r.path }
      obtain ⟨r₁, hr, rfl⟩ := within_eq_done hw
      rw [hr] at hx
      obtain ⟨-, new, hnew, hway⟩ := hx
      exact ⟨rfl, new, hnew, fun e he => (hway e he).tail⟩
  | failed e r' =>
      obtain ⟨⟨new, hnew, hway⟩, p, hp, hplace⟩ := h.within_failed hw
      refine ⟨⟨new, hnew, fun e he => (hway e he).tail⟩, fun q hq => ?_⟩
      obtain rfl := Option.some.inj (hp.symm.trans hq)
      exact hplace.tail

/-- The note of a field that failed is on the way of the field. -/
theorem member (d : Decoder) {x : Decoding (Option Node)} (f : Field) (h : x.Local) :
    (d.member f (Decoding.within f.name f.type x)).Local := by
  intro r
  rw [Decoder.member_apply]
  have hw := h.within f.name f.type r
  cases hx : Decoding.within f.name f.type x r with
  | unfinished => trivial
  | done node r' =>
      rw [hx] at hw
      obtain ⟨hpath, hnotes⟩ := hw
      have hsettled : (d.settled f r (.ok node)).Local := .quiet (.settled d f r node)
      refine (hsettled r').mono (fun _ _ h' => ?_) (fun _ _ h' => ?_)
      · exact ⟨h'.1.trans hpath, hnotes.trans hpath h'.2⟩
      · exact ⟨hnotes.trans hpath h'.1, fun p hp => hpath ▸ h'.2 p hp⟩
  | failed e r' =>
      rw [hx] at hw
      dsimp only
      by_cases hrecovers : d.options.mode = .recover ∧ e.isRecoverable = true
      · -- The failure carries a place by now, so its note is on the way that the place tells, not on that of the run.
        obtain ⟨⟨new, hnew, hway⟩, p, hp, hplace⟩ := h.within_failed hx
        have hnotes : ∀ r'' : Run, r''.recovered = Decoder.recoveredFailure f r e :: r'.recovered → r.Notes r'' := by
          intro r'' hr''
          refine ⟨Decoder.recoveredFailure f r e :: new, by rw [hr'', hnew]; rfl, ?_⟩
          refine List.forall_mem_cons.mpr ⟨?_, fun e he => (hway e he).tail⟩
          show OnWay r.path (e.place.getD _).path
          rw [hp]
          exact hplace.tail
        refine (Quiet.settled_failed d hrecovers).mono (fun _ _ h' => ?_) (fun _ _ h' => ?_)
        · exact ⟨h'.1, hnotes _ h'.2⟩
        · exact ⟨hnotes _ h'.2, fun _ hp => nomatch h'.1.symm.trans hp⟩
      · rw [Decoder.settled_error, if_neg hrecovers]
        exact hw

end Local

end Decoding

namespace Decoder

variable {ι : Type}

theorem local_openElements {d : Decoder} {nested : StructDef → String → Decoding Node} {f : Field}
    {isLast : Decoding Bool} (h : ∀ i, (element d nested f i).Local) (hl : isLast.Unmoving) (rounds i : Nat)
    (found : List Node) : (openElements d nested f isLast rounds i found).Local :=
  openElements_of_element (ι := Unit) (P := fun x => ∀ u, (x u).Local) (fun h _ => .reading h)
    (fun _ => .quiet .unfinished) (fun hx hf u => (hx u).bind fun a ha => hf a ⟨u, ha⟩ u)
    (fun n _ => .reading (d.unmoving_checkElements n).reading) (fun n _ => h n) hl rounds i found ()

/-- Every step is local, under whatever options and for however many rounds. -/
theorem compositional_local (schema : Schema) (options : ι → Options) (rounds : ι → Nat) :
    Compositional schema options rounds fun _ {_} x => ∀ i, (x i).Local where
  reading h _ := .reading h
  bind hx hf i := (hx i).bind fun a ha => hf a ⟨i, ha⟩ i
  cancelled i := .reading (unmoving_checkCancelled ⟨schema, options i⟩).reading
  counted i := .quiet (.counted ⟨schema, options i⟩)
  limited n i := .reading (unmoving_checkElements ⟨schema, options i⟩ n).reading
  table _ _ _ _ := .quiet (.modifyReader _)
  within segment type h i := (h i).within segment type
  inBuffer data h i := (h i).inBuffer ⟨schema, options i⟩ data
  bounded _ h i := .bracket (.move _) (h i) fun _ a => (Quiet.move _).andPure a
  overlaid _ h i := .bracket (.modifyReader _) (h i) fun _ a => (Quiet.move _).andPure a
  sought f _ h i := .bracket (.seek f) (h i) fun before a => (Quiet.restore f before).andPure a
  member f h i := (h i).member ⟨schema, options i⟩ f
  openEnded _ _ hc _ h hl i := local_openElements (fun n => h _ n hc i) hl.unmoving _ _ _

variable (d : Decoder) (rounds levels : Nat)

/-- Structs are local at any depth. -/
theorem local_struct {s : StructDef} (name : String) (hs : d.schema.Defines s) :
    (d.struct rounds levels s name).Local := by
  induction levels generalizing s name with
  | zero => exact .quiet .unfinished
  | succ levels ih =>
      have hinside : (d.inside rounds (d.struct rounds levels) s).Local :=
        (compositional_local d.schema (fun _ : Unit => d.options) fun _ => rounds).inside (b := false)
          (fun _ s name hs _ _ => ih name hs) hs nofun ()
      show (d.structWith rounds (d.struct rounds levels) s name).Local
      rw [structWith_eq]
      have hdescended : (d.descended (d.inside rounds (d.struct rounds levels) s)).Local :=
        .bracket (.descend d) hinside fun _ p => Quiet.ascend.andPure p
      exact hdescended.bind fun p _ => .reading (Reading.pos.bind fun _ => .pure _)

theorem local_guarded (f : Field) (siblings : List Node) :
    (guarded d rounds (d.struct rounds levels) f siblings).Local := by
  have hn : ∀ b s name, d.schema.Defines s → (b = true → d.schema.Calm s) → ∀ _ : Unit,
      (d.struct rounds levels s name).Local := fun _ s name hs _ _ => d.local_struct rounds levels name hs
  have h := compositional_local d.schema (fun _ : Unit => d.options) fun _ => rounds
  refine h.guarded (b := false) hn siblings (fun _ isLast hl _ => ?_) nofun ()
  exact local_openElements (fun i => h.element (b := false) (f := elementField f) hn i nofun ()) hl.unmoving _ _ _

/-! ## The notes of a decode -/

/-- Where a node of the part is on the way, given that to the part. -/
def Task.wayTo (way : List String) : Task → String → List String
  | .fields _, name | .elements _ _, name => name :: way
  | _, _ => way

/-- The nodes of the part all have this name. -/
def Task.Names : Task → List Node → Prop
  | .struct _ name, nodes => ∀ n ∈ nodes, n.name = name
  | .content f, nodes | .occurrence f, nodes => ∀ n ∈ nodes, n.name = f.name
  | .fields _, _ | .elements _ _, _ => True

variable {d}

/-- What a field yields has the name of the field. -/
theorem Trace.names {t : Task} {r r' : Run} {nodes : List Node} (h : Trace d t r nodes r') : t.Names nodes := by
  induction h with
  | leaf hname | unpacked hname | array _ hname | struct hname => exact List.forall_mem_singleton.mpr hname
  | nested _ _ _ ih | once _ _ ih => exact ih
  | @sized f target s size n _ _ _ _ _ _ _ _ _ _ ih =>
      have hname : n.name = f.name := ih n (.head _)
      exact List.forall_mem_singleton.mpr hname
  | noElement | element | noField | absent | present | failed | abandoned => trivial

/-- A node in the place of a field comes with its own note, behind those of what failed in the field. -/
theorem Replaces.accountsFor {f : Field} {r r' : Run} {n : Node} (h : Replaces d f r n r') :
    r.AccountsFor (n.failures (n.name :: r.path)) r' := by
  cases h with
  | @mk rounds levels found e failed _ _ hfield _ _ _ _ hrecovered _ _ =>
      obtain ⟨⟨new, hnew, hway⟩, p, hp, hplace⟩ := (d.local_guarded rounds levels f found).within_failed hfield
      refine ⟨new.reverse ++ [recoveredFailure f r e], ?_, ?_⟩
      · rw [hrecovered, hnew, List.reverse_cons, List.reverse_append, List.append_assoc]
      · refine .cons (fun e he => hway e (List.mem_reverse.mp he)) ?_ ?_ .nil
        · show OnWay (f.name :: r.path) (e.place.getD _).path
          rw [hp]
          exact hplace
        · show ∃ front, e.report = front ++ e.message
          unfold Failure.report
          rw [hp]
          exact ⟨_, rfl⟩

/-- Every part of a decode accounts for the fields that failed in it. -/
theorem Trace.accountsFor {t : Task} {r r' : Run} {nodes : List Node} (h : Trace d t r nodes r') :
    r.AccountsFor (Node.failuresBelow (t.wayTo r.path) nodes) r' := by
  induction h with
  | leaf _ hleaf _ _ _ hclose =>
      rw [Node.failuresBelow_singleton, hleaf.failures_eq]
      exact .of_eq hclose.recovered
  | nested _ _ _ ih => exact ih
  | sized _ _ _ hopen _ hclose ih =>
      rw [Node.failuresBelow_singleton] at ih ⊢
      rw [Node.failures_relabel]
      exact hopen.path ▸ ih.congr hopen.recovered hclose.recovered
  | unpacked _ _ hholds _ _ _ hopen _ hclose ih =>
      rw [Node.failuresBelow_singleton, hholds.failures_eq]
      exact hopen.path ▸ ih.congr hopen.recovered hclose.recovered
  | once _ _ ih => exact ih
  | @array f n r r' _ hname hc _ _ ih =>
      rw [Node.failuresBelow_singleton, Node.failures_of_isBranch (by unfold Node.isBranch; rw [hc])]
      exact ih
  | noElement | noField => exact .of_eq rfl
  | @element f i n rest r r₁ r' _ _ _ ih ih' =>
      rw [Node.failuresBelow_singleton] at ih
      rw [Node.failuresBelow, Node.failures_relabel]
      exact ih.append ih'
  | absent _ _ ih => exact ih
  | @present f fs n rest isValid r r₁ r₂ r₃ r' _ hopen _ hcontent hclose _ _ ih ih' =>
      -- the path is made of the names of fields, and the way through the tree of the names of nodes
      have hname : n.name = f.name := hcontent.names n (.head _)
      have hway : r₁.path = n.name :: r.path := hname.symm ▸ hopen.path
      have hfirst : r₁.AccountsFor (n.failures r₁.path) r₂ := by
        rw [Node.failuresBelow_singleton] at ih
        exact ih
      have hpath : r₃.path = r.path := hclose.path
      rw [hway] at hfirst
      rw [hpath] at ih'
      rw [Node.failuresBelow, Node.failures_relabel]
      exact (hfirst.congr hopen.recovered rfl).append (ih'.congr hclose.recovered rfl)
  | failed _ hrep _ ih =>
      rw [hrep.path] at ih
      exact hrep.accountsFor.append ih
  | abandoned _ hrep =>
      rw [Node.failuresBelow_singleton]
      exact hrep.accountsFor
  | @struct s name n r r₁ r₂ r' hname hc _ hopen _ hclose _ ih =>
      rw [Node.failuresBelow_singleton, Node.failures_of_isBranch (by unfold Node.isBranch; rw [hc])]
      exact hopen.path ▸ ih.congr hopen.recovered hclose.recovered

/-- The notes of an answer account for the fields that failed in it. -/
theorem answer_accounts {d : Decoder} {data : Buffer} {t : Decoded} (h : d.Answers data (.ok t)) :
    Accounts (t.root.failures []) t.recovered := by
  obtain ⟨s, r, -, htrace, hrecovered⟩ := h.trace
  obtain ⟨notes, hnotes, haccounts⟩ := htrace.accountsFor
  rw [Node.failuresBelow_singleton] at haccounts
  rw [hrecovered, hnotes]
  exact haccounts

/-- A struct that is padded to eight bytes, with a number in it that is cut off. -/
def tower : Decoder where
  schema := {
    name := "tower"
    structs := [
      ("all", { name := "all", fields := [{ name := "s", type := .struct, structRef := some "inner" }] }),
      ("inner", { name := "inner", fields := [{ name := "b", type := .u32 }], align := some 8 })]
    root := "all" }
  options := { mode := .recover }

/-- The number was recovered from before its struct failed for want of padding, and its note comes first. -/
def towerNotes : List Recovered := [
  ⟨0, "s.b", "bounds error at offset 0x0 in 's.b' (u32): read of 4 bytes exceeds scope (1 remaining)"⟩,
  ⟨1, "s", "bounds error at offset 0x1 in 's' (struct): alignment to 8 needs 7 bytes past scope end"⟩]

/-- The notes and the failed nodes of the tower over a single byte. -/
theorem tower_answer : ∃ t, tower.Answers #[0] (.ok t) ∧
    (t.recovered, t.root.failures []) =
      (towerNotes, [(["s"], "alignment to 8 needs 7 bytes past scope end")]) := by
  refine tower.exists_answer_of_decode? 0 ?_
  decide +kernel

/-- The second note is that of the struct, and the first one is that of the number in it. -/
theorem tower_accounts : ∃ t, tower.Answers #[0] (.ok t) ∧ t.recovered = towerNotes ∧
    Accounts (t.root.failures []) t.recovered := by
  obtain ⟨t, ht, hnotes⟩ := tower_answer
  exact ⟨t, ht, congrArg Prod.fst hnotes, answer_accounts ht⟩

/-- There are two notes, and one field that failed. -/
theorem tower_unmatched : tower.options.mode = .recover ∧ ∃ t, tower.Answers #[0] (.ok t) ∧
    t.recovered.length = 2 ∧ (t.root.failures []).length = 1 := by
  obtain ⟨t, ht, hnotes⟩ := tower_answer
  obtain ⟨hrecovered, hfailures⟩ := Prod.mk.inj hnotes
  exact ⟨rfl, t, ht, by rw [hrecovered]; rfl, by rw [hfailures]; rfl⟩

end Decoder

end BinaryFormat
