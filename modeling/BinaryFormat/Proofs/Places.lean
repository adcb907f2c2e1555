import BinaryFormat.Proofs.Notes
import BinaryFormat.Proofs.Recovery

/-!
# Where a failure says that it arose

A failure may arise anywhere in the decoder, and where it does nothing is said of its place. The innermost field or
element around it says so, and whatever is around that one passes the failure on as it is: other fields and elements,
structs that do not recover from it, and the stream that a struct was unpacked from. So a failure with a place has got
it in one of the calls of the decode, however far inside, and a field never fails without a place. What is left are
the failures of the root struct itself, outside of its fields.
-/

namespace BinaryFormat

open Schema (Field StructDef)
open Decoding

namespace Failure

variable {e : Failure} {p : Place}

/-- The full text of a failure that arose at this place. -/
def display (e : Failure) (p : Place) : String :=
  e.kind.text ++ " at offset " ++ Numeral.hex p.offset ++ " in '" ++ p.path ++ "' (" ++ p.type.name ++ "): " ++
    e.message

/-- A failure with a place is reported in full. -/
theorem report_eq_display (h : e.place = some p) : e.report = e.display p := by
  unfold report display
  rw [h]

end Failure

namespace Decoder

/-! ## Calls that say where a failure arose, and calls that note one down -/

/-- From one call with its run, a decode may get to another one, over any number of calls. -/
inductive GetsTo (d : Decoder) (rounds : Nat) (c : Call) (r : Run) : Call → Run → Prop where
  | here : GetsTo d rounds c r c r
  | call {c' c'' : Call} {r' r'' : Run} :
      GetsTo d rounds c r c' r' → Calls d rounds c' r' c'' r'' → GetsTo d rounds c r c'' r''

/-- In this call a failure gets its place: what is inside of a field or element has failed and has not said where. -/
inductive Locates (d : Decoder) (rounds : Nat) (e : Failure) : Call → Run → Prop where
  | field {levels : Nat} {f : Field} {found : List Node} {r r' : Run} {cause : Cause} :
      guarded d rounds (d.struct rounds levels) f found { r with path := f.name :: r.path } =
        .failed ⟨cause, none⟩ r' →
      e = ⟨cause, some ⟨r'.pos, Run.wayText (f.name :: r.path), f.type⟩⟩ →
      Locates d rounds e (.field levels f found) r
  | element {levels i left : Nat} {f : Field} {r r' : Run} {cause : Cause} :
      single d (d.struct rounds levels) f none { r with path := elementName i :: r.path } =
        .failed ⟨cause, none⟩ r' →
      e = ⟨cause, some ⟨r'.pos, Run.wayText (elementName i :: r.path), f.type⟩⟩ →
      Locates d rounds e (.elements levels f i (left + 1)) r

/-- In this call the failure of a field is recovered from, and what it says of itself in full is noted down. -/
inductive NotesDown (d : Decoder) (rounds : Nat) (note : Recovered) : Call → Run → Prop where
  | mk {levels : Nat} {f : Field} {rest : List Field} {found : List Node} {r r' : Run} {e : Failure} {p : Place} :
      d.options.mode = .recover →
      field d rounds (d.struct rounds levels) f found r = .failed e r' → e.isRecoverable = true →
      e.place = some p → note = ⟨p.offset, p.path, e.display p⟩ →
      NotesDown d rounds note (.fields levels (f :: rest) found) r

variable {d : Decoder} {rounds : Nat}

section Tracked

/-! ## Calls that are gone through -/

variable {α β : Type} {T : Call → Run → Prop} {levels : Nat} {r r' r'' : Run}

/-- What was noted down between the two runs was noted down in some of these calls. -/
def Keeps (d : Decoder) (rounds : Nat) (T : Call → Run → Prop) (r r' : Run) : Prop :=
  ∃ new, r'.recovered = new ++ r.recovered ∧ ∀ note ∈ new, ∃ c q, T c q ∧ NotesDown d rounds note c q

theorem Keeps.of_eq (h : r'.recovered = r.recovered) : Keeps d rounds T r r' := ⟨[], h, nofun⟩

/-- What two steps in a row note down, each of them in some calls, is noted down in those calls. -/
theorem Keeps.trans (h : Keeps d rounds T r r') (h' : Keeps d rounds T r' r'') : Keeps d rounds T r r'' := by
  obtain ⟨new, hnew, hnoted⟩ := h
  obtain ⟨new', hnew', hnoted'⟩ := h'
  refine ⟨new' ++ new, by rw [hnew', hnew, List.append_assoc], fun note hnote => ?_⟩
  obtain hnote | hnote := List.mem_append.mp hnote
  · exact hnoted' note hnote
  · exact hnoted note hnote

/-- A failure that has a place got it in one of these calls. -/
def Located (d : Decoder) (rounds : Nat) (T : Call → Run → Prop) (e : Failure) : Prop :=
  ∀ p, e.place = some p → ∃ c q, T c q ∧ Locates d rounds e c q

theorem Located.of_eq_none {e : Failure} (h : e.place = none) : Located d rounds T e :=
  fun _ hp => nomatch h.symm.trans hp

/-- Whatever is noted down on the way to the outcome was noted down in some of these calls, and a failure with a place
got it in one of them. -/
def Tracked (d : Decoder) (rounds : Nat) (T : Call → Run → Prop) (r : Run) (o : Outcome α) : Prop :=
  o.Satisfies (fun _ r' => Keeps d rounds T r r') (fun e r' => Keeps d rounds T r r' ∧ Located d rounds T e)

namespace Tracked

/-- A step that notes nothing down and places no failure is tracked. -/
theorem quiet {x : Decoding α} (h : x.Quiet) (r : Run) : Tracked d rounds T r (x r) :=
  (h r).mono (fun _ _ h => .of_eq h.2) (fun _ _ h => ⟨.of_eq h.2, .of_eq_none h.1⟩)

/-- Steps in a row are tracked if each is, from where it begins. -/
theorem bind {x : Decoding α} {f : α → Decoding β} (hx : Tracked d rounds T r (x r))
    (hf : ∀ a r', x r = .done a r' → Tracked d rounds T r' (f a r')) : Tracked d rounds T r ((x >>= f) r) := by
  rw [bind_apply]
  cases hr : x r with
  | unfinished => trivial
  | failed e r' => rw [hr] at hx; exact hx
  | done a r' =>
      rw [hr] at hx
      refine (hf a r' hr).mono (fun _ _ h => ?_) (fun _ _ h => ?_)
      · exact Keeps.trans hx h
      · exact ⟨Keeps.trans hx h.1, h.2⟩

/-- What comes behind a step that only reads a run and leaves it as it is. -/
theorem ask {x : Decoding α} {f : α → Decoding β} (hx : x.Unmoving)
    (hf : ∀ a, x r = .done a r → Tracked d rounds T r (f a r)) : Tracked d rounds T r ((x >>= f) r) := by
  refine bind (quiet (.reading hx.reading) r) fun a r' hr => ?_
  obtain rfl := hx.eq hr
  exact hf a hr

/-- What comes behind a step may be quiet. -/
theorem andThen {x : Decoding α} {f : α → Decoding β} (hx : Tracked d rounds T r (x r)) (hf : ∀ a, (f a).Quiet) :
    Tracked d rounds T r ((x >>= f) r) := bind hx fun a r' _ => quiet (hf a) r'

/-- The inside of a field or element fails with a place, or it gets one here. -/
theorem within {x : Decoding α} {segment : String} {type : FieldType}
    (hx : Tracked d rounds T r (x { r with path := segment :: r.path }))
    (hhere : ∀ e r' cause, x { r with path := segment :: r.path } = .failed ⟨cause, none⟩ r' →
      e = ⟨cause, some ⟨r'.pos, Run.wayText (segment :: r.path), type⟩⟩ → ∃ c q, T c q ∧ Locates d rounds e c q) :
    Tracked d rounds T r (Decoding.within segment type x r) := by
  unfold Decoding.within
  cases hr : x { r with path := segment :: r.path } with
  | unfinished => trivial
  | done a r' => rw [hr] at hx; exact hx
  | failed e r' =>
      rw [hr] at hx
      refine ⟨hx.1, fun p hp => ?_⟩
      obtain ⟨cause, place⟩ := e
      cases place with
      | none => exact hhere _ r' cause hr rfl
      | some q =>
          rw [Failure.locate_of_place rfl] at hp ⊢
          exact hx.2 p hp

theorem inBuffer {x : Decoding α} {data : Buffer}
    (hx : Tracked d rounds T r (x { r with reader := .ofBuffer data d.schema.order })) :
    Tracked d rounds T r (d.inBuffer data x r) := by
  unfold Decoder.inBuffer
  cases hr : x { r with reader := .ofBuffer data d.schema.order } with
  | unfinished => trivial
  | done a r' => rw [hr] at hx; exact hx
  | failed e r' => rw [hr] at hx; exact hx

end Tracked

variable (hT : ∀ {c c' : Call} {r r' : Run}, T c r → Calls d rounds c r c' r' → T c' r')

/-! ### Occurrences and elements -/

section Nested

variable (hn : ∀ s name r, T (.struct levels s name) r → Tracked d rounds T r (d.struct rounds levels s name r))

include hT hn

/-- A struct inside a field is a call of its own, whether or not it has a scope of its own. -/
theorem tracked_structField {f : Field} {siblings : Option (List Node)} {s : StructDef} (hf : f.HoldsStruct)
    (hr : T (.single levels f siblings) r) (hheld : held d f r = .done s r) :
    Tracked d rounds T r (structField (d.struct rounds levels) f s r) := by
  cases hsize : f.size with
  | none =>
      unfold structField
      rw [hsize]
      exact hn s f.name r (hT hr (.nested hf hheld hsize))
  | some size =>
      rw [structField_sized _ hsize]
      refine .ask (x := .pos) (fun _ => Outcome.ensures_done rfl) fun start _ => ?_
      refine .ask (unmoving_fieldSize f) fun size hfieldSize => ?_
      refine .andThen ?_ fun node => .pure _
      refine .bind (.quiet (.move _) r) fun _ r₁ hmove => ?_
      obtain ⟨reader, henter, rfl⟩ := move_eq_done hmove
      exact .andThen (hn s f.name _ (hT hr (.sized hf hheld hfieldSize henter))) fun a => (Quiet.move _).andPure a

/-- The struct in a stream is a call of its own, over another buffer. -/
theorem tracked_compressedField {f : Field} {siblings : Option (List Node)} (hf : f.type = .compressed)
    (hr : T (.single levels f siblings) r) :
    Tracked d rounds T r (compressedField d (d.struct rounds levels) f r) := by
  refine .ask (x := .pos) (fun _ => Outcome.ensures_done rfl) fun start _ => ?_
  refine .ask (unmoving_fieldSize f) fun size hsize => ?_
  refine .bind (.quiet (.reading (reading_readBytes size)) r) fun bytes r₁ htake => ?_
  obtain ⟨reader, hread, rfl⟩ := read_eq_done htake
  dsimp only
  cases hname : Compression.ofName? (f.compression.getD Compression.defaultName) with
  | none => exact .quiet (.reading (.fail _)) _
  | some c =>
      dsimp only
      cases hout : c.decompress? bytes with
      | none => exact .quiet (.reading (.fail _)) _
      | some out =>
          dsimp only
          cases href : f.structRef with
          | none => exact .quiet (.pure _) _
          | some name =>
              refine .ask (d.unmoving_structDef name) fun s hdef => ?_
              -- What is unpacked is a call of the struct that the field holds, with the scope and the order of a new
              -- buffer.
              have hheld : held d f r = .done s r := by
                unfold held target
                rw [hf, href]
                show d.structDef name r = .done s r
                unfold structDef
                rw [(structDef_eq_done hdef).1]
                rfl
              refine .andThen (.inBuffer ?_) fun node => .pure _
              exact hn s f.name _ (hT hr (.unpacked hf hsize hread hname hout hheld))

/-- One occurrence of a field fails in its own call or in that of the struct in it. -/
theorem tracked_single {f : Field} {siblings : Option (List Node)} (hr : T (.single levels f siblings) r) :
    Tracked d rounds T r (single d (d.struct rounds levels) f siblings r) := by
  by_cases hs : f.HoldsStruct
  · rw [single_eq_held hs]
    exact .ask unmoving_held fun s hheld => tracked_structField hT hn hs hr hheld
  by_cases hc : f.type = .compressed
  · unfold single
    rw [hc]
    exact tracked_compressedField hT hn hc hr
  · obtain ⟨content, hreading, -, he⟩ := single_eq_leaf d.schema f siblings
      ⟨fun ht => hs (.inl ht), fun ht => hs (.inr ht), hc⟩
    rw [show single d (d.struct rounds levels) f siblings = leaf f content from he d.options _]
    exact .quiet (.reading (reading_leaf f hreading)) r

/-- An element places its failure, if what is in it has not. -/
theorem tracked_element {f : Field} {i left : Nat} (hr : T (.elements levels f i (left + 1)) r) :
    Tracked d rounds T r (element d (d.struct rounds levels) f i r) := by
  refine .ask d.unmoving_checkCancelled fun _ hcancelled => ?_
  refine .andThen ?_ fun node => (Quiet.counted d).andPure _
  have hsingle := tracked_single hT hn (hT hr (.element hcancelled))
  exact .within hsingle fun e r' cause hfails he => ⟨_, r, hr, .element hfails he⟩

theorem tracked_countedElements {f : Field} {left i : Nat} (found : List Node) (hr : T (.elements levels f i left) r) :
    Tracked d rounds T r (countedElements d (d.struct rounds levels) f left i found r) := by
  induction left generalizing i found r with
  | zero => exact .quiet (.pure _) r
  | succ left ih =>
      refine .bind (tracked_element hT hn hr) fun node r₁ helement => ?_
      exact ih (node :: found) (hT hr (.nextElement helement))

/-- Every element is a call of its own, as many as there are. -/
theorem tracked_openElements {f : Field} {isLast : Decoding Bool} (hl : isLast.Unmoving) {left i : Nat}
    (found : List Node) (hr : T (.elements levels f i left) r) :
    Tracked d rounds T r (openElements d (d.struct rounds levels) f isLast left i found r) := by
  induction left generalizing i found r with
  | zero => trivial
  | succ left ih =>
      refine .ask (d.unmoving_checkElements _) fun _ _ => ?_
      refine .ask (x := .pos) (fun _ => Outcome.ensures_done rfl) fun before _ => ?_
      refine .bind (tracked_element hT hn hr) fun node r₁ helement => ?_
      refine .ask (x := .pos) (fun _ => Outcome.ensures_done rfl) fun after _ => ?_
      split
      · exact .quiet (.pure _) r₁
      · refine .ask hl fun last _ => ?_
        split
        · exact .quiet (.pure _) r₁
        · exact ih (node :: found) (hT hr (.nextElement helement))

theorem tracked_elements {f : Field} (hr : ∀ left, T (.elements levels (elementField f) 0 left) r) :
    Tracked d rounds T r (elements d rounds (d.struct rounds levels) f r) := by
  unfold elements
  cases f.repetition with
  | once => exact .quiet (.pure _) r
  | count n =>
      refine .ask (.evalNat _ _) fun n _ => ?_
      refine .ask (d.unmoving_checkElements n) fun _ _ => ?_
      exact tracked_countedElements hT hn [] (hr n)
  | untilEnd =>
      refine .ask unmoving_isExhausted fun exhausted _ => ?_
      cases exhausted with
      | true => exact .quiet (.pure _) r
      | false => exact tracked_openElements hT hn unmoving_isExhausted [] (hr rounds)
  | untilTrue stop => exact tracked_openElements hT hn (seesEnd_untilTrue stop).unmoving [] (hr rounds)

/-! ### Fields and structs -/

theorem tracked_content {f : Field} {found : List Node} (hr : T (.content levels f found) r) :
    Tracked d rounds T r (content d rounds (d.struct rounds levels) f found r) := by
  have harray : f.repetition ≠ .once → Tracked d rounds T r (array d rounds (d.struct rounds levels) f r) := by
    intro hf
    refine .ask (x := .pos) (fun _ => Outcome.ensures_done rfl) fun start _ => ?_
    refine .andThen (tracked_elements hT hn fun left => hT hr (.array hf)) fun children => ?_
    exact .reading (Reading.pos.bind fun _ => .pure _)
  unfold content
  cases hf : f.repetition with
  | once => exact tracked_single hT hn (hT hr (.once hf))
  | count _ | untilEnd | untilTrue _ => exact harray (by rw [hf]; nofun)

/-- A field places its failure, if what is in it has not. -/
theorem tracked_field {f : Field} {found : List Node} (hr : T (.field levels f found) r) :
    Tracked d rounds T r (field d rounds (d.struct rounds levels) f found r) := by
  refine .within (.ask (unmoving_isPresent f) fun there hpresent => ?_) fun e r' cause hfails he =>
    ⟨_, r, hr, .field hfails he⟩
  cases there with
  | false => exact .quiet (.pure _) _
  | true =>
      rw [if_pos rfl, map_eq_pure_bind, presentField_eq]
      refine .andThen ?_ fun _ => .pure _
      refine .bind (.quiet (.seek f) _) fun before r₁ hseek => ?_
      refine .andThen ?_ fun node => (Quiet.restore f before).andPure node
      refine .bind (.quiet (.reading (reading_align _)) _) fun _ r₂ halign => ?_
      have hcontent := tracked_content hT hn (hT hr (.content hpresent (approach_eq_done hseek halign)))
      exact .andThen hcontent fun node => .reading ((unmoving_validity f).reading.bind fun _ => .pure _)

/-- The loop over the fields notes a failure down that it recovers from, and passes any other one on. -/
theorem tracked_iteration {f : Field} {rest : List Field} {found : List Node}
    (hr : T (.fields levels (f :: rest) found) r) :
    Tracked d rounds T r (iteration d rounds (d.struct rounds levels) f found r) := by
  refine .ask d.unmoving_checkCancelled fun _ hcancelled => ?_
  have hfield := tracked_field hT hn (hT hr (.field hcancelled))
  rw [member_apply]
  cases hx : field d rounds (d.struct rounds levels) f found r with
  | unfinished => trivial
  | done node r' =>
      rw [hx] at hfield
      refine (Quiet.settled d f r node r').mono (fun _ _ h => ?_) (fun _ _ h => ?_)
      · exact Keeps.trans hfield (.of_eq h.2)
      · exact ⟨Keeps.trans hfield (.of_eq h.2), .of_eq_none h.1⟩
  | failed e r' =>
      rw [hx] at hfield
      obtain ⟨hkeeps, hlocated⟩ := hfield
      obtain ⟨p, hp⟩ := place_of_within hx
      dsimp only
      by_cases hrecovers : d.options.mode = .recover ∧ e.isRecoverable = true
      · -- Recovered from: the note that is added is the one of this call, and those in front of it are the field's.
        have hnote : NotesDown d rounds (recoveredFailure f r e) (.fields levels (f :: rest) found) r := by
          refine .mk hrecovers.1 hx hrecovers.2 hp ?_
          unfold recoveredFailure
          rw [hp, Option.getD_some, Failure.report_eq_display hp]
        have hafter : ∀ q : Run, q.recovered = recoveredFailure f r e :: r'.recovered → Keeps d rounds T r q := by
          intro q hq
          have hone : Keeps d rounds T r' q := ⟨[recoveredFailure f r e], hq,
            List.forall_mem_singleton.mpr ⟨_, r, hr, hnote⟩⟩
          exact hkeeps.trans hone
        refine (Quiet.settled_failed d hrecovers).mono (fun _ _ h => ?_) (fun _ _ h => ?_)
        · exact hafter _ h.2
        · exact ⟨hafter _ h.2, .of_eq_none h.1⟩
      · rw [settled_error, if_neg hrecovers]
        exact ⟨hkeeps, hlocated⟩

/-- Every field is a call of its own, failed or not. -/
theorem tracked_fields {fs : List Field} {found : List Node} (hr : T (.fields levels fs found) r) :
    Tracked d rounds T r (fields d rounds (d.struct rounds levels) fs found r) := by
  induction fs generalizing found r with
  | nil => exact .quiet (.pure _) r
  | cons f rest ih =>
      rw [fields_cons_eq]
      refine .bind (tracked_iteration hT hn hr) fun p r₁ hstep => ?_
      have hnext := hT hr (.next hstep)
      obtain ⟨node, goesOn⟩ := p
      cases goesOn with
      | true => exact ih hnext
      | false => exact .quiet (.pure _) r₁

/-- A struct is tracked if the structs inside it are. -/
theorem tracked_structWith {s : StructDef} {name : String} (hr : T (.struct (levels + 1) s name) r) :
    Tracked d rounds T r (structWith d rounds (d.struct rounds levels) s name r) := by
  rw [structWith_eq]
  refine .andThen ?_ fun p => .reading (Reading.pos.bind fun _ => .pure _)
  refine .bind (.quiet (.descend d) r) fun _ r₁ hdescend => ?_
  refine .andThen ?_ fun p => Quiet.ascend.andPure p
  refine .ask (x := .pos) (fun _ => Outcome.ensures_done rfl) fun start _ => ?_
  have hfields := tracked_fields hT hn (hT hr (.body hdescend))
  -- An order of its own puts an overlay around the fields. It does not touch what has been noted down.
  have hbody : Tracked d rounds T r₁ (body d rounds (d.struct rounds levels) s r₁) := by
    cases ho : s.order with
    | none =>
        rw [body_plain _ _ _ ho]
        rw [ho] at hfields
        exact hfields
    | some order =>
        rw [body_ordered _ _ _ ho]
        rw [ho] at hfields
        refine .bind (.quiet (.modifyReader _) r₁) fun _ r₂ hoverlay => ?_
        obtain ⟨-, rfl⟩ := Outcome.done.inj hoverlay
        exact .andThen hfields fun children => (Quiet.move _).andPure children
  refine .andThen hbody fun children => ?_
  refine .bind (.reading .pos) fun stop => ?_
  have hend : (do align s.align; pure (start, children) : Decoding (Nat × List Node)).Quiet :=
    (Quiet.reading (reading_align _)).andPure _
  by_cases ht : s.isStringTable = true
  · simp only [if_pos ht]
    exact (Quiet.modifyReader _).bind fun _ => hend
  · simp only [if_neg ht]
    exact hend

end Nested

include hT in
/-- What a struct notes down and where it fails is a matter of the calls that its decoding gets to. -/
theorem tracked_struct {levels : Nat} {s : StructDef} {name : String} (hr : T (.struct levels s name) r) :
    Tracked d rounds T r (d.struct rounds levels s name r) := by
  induction levels generalizing s name r with
  | zero => trivial
  | succ levels ih => exact tracked_structWith hT (fun s name r hr => ih hr) hr

end Tracked

/-- All that a decode notes down and places, it does in calls that it gets to. -/
theorem tracked_root (d : Decoder) (rounds : Nat) (data : Buffer) :
    Tracked d rounds (Reaches d rounds data) (.start (.ofBuffer data d.schema.order))
      (d.root rounds (.start (.ofBuffer data d.schema.order))) := by
  refine .ask (d.unmoving_structDef _) fun s hdef => ?_
  exact tracked_struct .call (.root (structDef_eq_done hdef).1)

/-! ## Failures outside of every field -/

/-- What makes the root struct fail by itself. Where its fields are, these are runs that the loop over them gets
to. -/
inductive RootFault (d : Decoder) (data : Buffer) : Cause → Prop where
  | unknown : d.schema.structs.get? d.schema.root = none → RootFault d data (.unknownStruct d.schema.root)
  | tooDeep : d.options.maxDepth.toNat = 0 → RootFault d data (.tooDeep 0)
  | cancelled {rounds : Nat} {s : StructDef} {f : Field} {rest : List Field} {found : List Node} {r : Run} :
      d.schema.structs.get? d.schema.root = some s →
      Iterates d rounds (d.struct rounds d.options.maxDepth.toNat) s.fields ((d.rootRun data).inOrder s.order)
        (f :: rest) found r →
      d.options.cancelled = true → RootFault d data .cancelled
  /-- Another node is one too many: that of a field, or the one in the place of a field that failed. -/
  | tooManyNodes {rounds : Nat} {s : StructDef} {f : Field} {rest : List Field} {found : List Node} {r r' : Run} :
      d.schema.structs.get? d.schema.root = some s →
      Iterates d rounds (d.struct rounds d.options.maxDepth.toNat) s.fields ((d.rootRun data).inOrder s.order)
        (f :: rest) found r →
      ((∃ n, field d rounds (d.struct rounds d.options.maxDepth.toNat) f found r = .done (some n) r') ∨
        d.options.mode = .recover ∧ ∃ e, e.isRecoverable = true ∧
          field d rounds (d.struct rounds d.options.maxDepth.toNat) f found r = .failed e r') →
      ¬ d.Admits (r'.nodes + 1) → RootFault d data (.tooManyNodes d.options.maxNodes.toNat)
  | padding {rounds : Nat} {s : StructDef} {n : UInt64} {nodes : List Node} {r : Run} :
      d.schema.structs.get? d.schema.root = some s → s.align = some n →
      body d rounds (d.struct rounds d.options.maxDepth.toNat) s (d.rootRun data) = .done nodes r →
      r.reader.LacksRoom n.toNat →
      RootFault d data (.alignTooFar n.toNat (r.pos + r.reader.padding n.toNat - r.stop))

/-- Counting fails only at the cap, and says how large that is. -/
theorem countNode_eq_failed {e : Failure} {r r' : Run} (h : d.countNode r = .failed e r') :
    e = ⟨.tooManyNodes d.options.maxNodes.toNat, none⟩ ∧ ¬ d.Admits (r.nodes + 1) := by
  rw [countNode_apply] at h
  split at h
  · rename_i hmax
    obtain ⟨rfl, -⟩ := Outcome.failed.inj h
    exact ⟨rfl, fun hadmits => Nat.not_lt.mpr (hadmits hmax.1) hmax.2⟩
  · cases h

/-- An iteration fails by itself or with its field. -/
theorem iteration_eq_failed {f : Field} {found : List Node} {e : Failure} {r r' : Run}
    (h : iteration d rounds nested f found r = .failed e r') :
    (d.options.cancelled = true ∧ e = ⟨.cancelled, none⟩) ∨
    (e = ⟨.tooManyNodes d.options.maxNodes.toNat, none⟩ ∧ ∃ r₁, ¬ d.Admits (r₁.nodes + 1) ∧
      ((∃ n, field d rounds nested f found r = .done (some n) r₁) ∨
        d.options.mode = .recover ∧ ∃ e, e.isRecoverable = true ∧ field d rounds nested f found r = .failed e r₁)) ∨
    field d rounds nested f found r = .failed e r' := by
  obtain hcancelled | ⟨_, r₁, hcancelled, hmember⟩ := bind_eq_failed h
  · left
    unfold checkCancelled at hcancelled
    split at hcancelled
    · rename_i hset
      exact ⟨hset, (Outcome.failed.inj hcancelled).1.symm⟩
    · cases hcancelled
  obtain rfl := d.unmoving_checkCancelled.eq hcancelled
  right
  rw [member_apply] at hmember
  -- The field has a node or has failed. Either way the iteration may still fail when it counts the node, the one in
  -- place of a failed field included.
  cases hx : field d rounds nested f found r₁ with
  | unfinished => rw [hx] at hmember; cases hmember
  | done o r₂ =>
      rw [hx] at hmember
      cases o with
      | none => cases hmember
      | some n =>
          obtain hcount | ⟨_, _, _, hpure⟩ := bind_eq_failed hmember
          · obtain ⟨he, hadmits⟩ := countNode_eq_failed hcount
            exact .inl ⟨he, r₂, hadmits, .inl ⟨n, rfl⟩⟩
          · cases hpure
  | failed e' r₂ =>
      rw [hx] at hmember
      dsimp only at hmember
      rw [settled_error] at hmember
      split at hmember
      · rename_i hrecovers
        obtain hreplace | ⟨_, _, _, hpure⟩ := bind_eq_failed hmember
        · rw [replaceField_apply] at hreplace
          obtain hcount | ⟨_, _, _, hrest⟩ := bind_eq_failed hreplace
          · obtain ⟨he, hadmits⟩ := countNode_eq_failed hcount
            exact .inl ⟨he, r₂, hadmits, .inr ⟨hrecovers.1, e', hrecovers.2, rfl⟩⟩
          · cases hrest
        · cases hpure
      · obtain ⟨rfl, rfl⟩ := Outcome.failed.inj hmember
        exact .inr rfl

/-- Where the loop over the fields fails, it does so in one of its iterations. -/
theorem Iterates.failed {fs rest : List Field} {start r r' : Run} {found : List Node} {e : Failure}
    (hloop : Iterates d rounds nested fs start rest found r) (h : fields d rounds nested rest found r = .failed e r') :
    ∃ f rest found r, Iterates d rounds nested fs start (f :: rest) found r ∧
      iteration d rounds nested f found r = .failed e r' := by
  induction rest generalizing found r with
  | nil => cases h
  | cons f rest ih =>
      rw [fields_cons_eq] at h
      obtain hstep | ⟨p, r₁, hstep, hrest⟩ := bind_eq_failed h
      · exact ⟨f, rest, found, r, hloop, hstep⟩
      · have hnext := hloop.next hstep
        obtain ⟨node, goesOn⟩ := p
        cases goesOn with
        | true => exact ih hnext hrest
        | false => cases hrest

/-- A struct fails where it is gone into, or with its inside. -/
theorem structWith_eq_failed {s : StructDef} {name : String} {e : Failure} {r r' : Run}
    (h : structWith d rounds nested s name r = .failed e r') :
    (d.options.maxDepth.toNat < r.depth + 1 ∧ e = ⟨.tooDeep d.options.maxDepth.toNat, none⟩) ∨
      inside d rounds nested s { r with depth := r.depth + 1 } = .failed e r' := by
  rw [structWith_eq] at h
  obtain hdescended | ⟨_, _, _, hnode⟩ := bind_eq_failed h
  · obtain hdescend | ⟨_, r₁, hdescend, hinside⟩ := bind_eq_failed hdescended
    · left
      rw [descend_apply] at hdescend
      split at hdescend
      · rename_i hmax
        exact ⟨hmax, (Outcome.failed.inj hdescend).1.symm⟩
      · cases hdescend
    · obtain ⟨rfl, -⟩ := d.descend_eq_done hdescend
      obtain hinside | ⟨_, _, _, hascend⟩ := bind_eq_failed hinside
      · exact .inr hinside
      · cases hascend
  · cases hnode

/-- A failure without a place is one of the root struct itself. -/
theorem rootFault_of_failed {data : Buffer} {e : Failure} {r' : Run}
    (h : d.root rounds (.start (.ofBuffer data d.schema.order)) = .failed e r') (hp : e.place = none) :
    RootFault d data e.cause := by
  obtain hdef | ⟨s, r₁, hdef, hstruct⟩ := bind_eq_failed h
  · unfold structDef at hdef
    cases hs : d.schema.structs.get? d.schema.root with
    | none =>
        rw [hs] at hdef
        obtain ⟨rfl, -⟩ := Outcome.failed.inj hdef
        exact .unknown hs
    | some s => rw [hs] at hdef; cases hdef
  obtain ⟨hs, rfl⟩ := structDef_eq_done hdef
  obtain ⟨hmax, rfl⟩ | hinside := structWith_eq_failed hstruct
  · have hzero : d.options.maxDepth.toNat = 0 := Nat.lt_one_iff.mp hmax
    show RootFault d data (.tooDeep d.options.maxDepth.toNat)
    rw [hzero]
    exact .tooDeep hzero
  -- The struct fails in the loop over its fields or in the padding behind them. In the loop only the iteration itself
  -- is left, as every failure of a field has a place.
  obtain hbody | ⟨n, nodes, r₂, hn, hbody, hroom, rfl⟩ := inside_eq_failed hinside
  · obtain ⟨f, rest, found, r₃, hloop, hstep⟩ := Iterates.failed .enter (fields_of_body_failed hbody)
    obtain ⟨hcancelled, rfl⟩ | ⟨rfl, r₄, hadmits, hfield⟩ | hfield := iteration_eq_failed hstep
    · exact .cancelled hs hloop hcancelled
    · exact .tooManyNodes hs hloop hfield hadmits
    · obtain ⟨p, hplace⟩ := place_of_within hfield
      cases hp.symm.trans hplace
  · exact .padding hs hn hbody hroom

/-- Every failure of a field has a place, which is that of the field or of something inside of it: the one that the
innermost field or element around the failure has said, in one of the calls that the field gets to. So a decode fails
with a failure that has got its place in one of its calls, or with one that has no place and is the fault of the root
struct itself. And what it notes down of a failure that it recovers from is what that one says of itself in full. -/
theorem failures_placed (d : Decoder) :
    (∀ rounds levels f found r e r', field d rounds (d.struct rounds levels) f found r = .failed e r' →
      (∃ p, e.place = some p ∧ OnWay (f.name :: r.path) p.path) ∧
        ∃ c q, GetsTo d rounds (.field levels f found) r c q ∧ Locates d rounds e c q) ∧
    ∀ data,
      (∀ e, d.Answers data (.error e) →
        ((∃ p, e.place = some p) ∧ ∃ rounds c q, Reaches d rounds data c q ∧ Locates d rounds e c q) ∨
          (e.place = none ∧ RootFault d data e.cause)) ∧
      ∀ t, d.Answers data (.ok t) → ∀ note ∈ t.recovered,
        ∃ rounds c q, Reaches d rounds data c q ∧ NotesDown d rounds note c q := by
  refine ⟨fun rounds levels f found r e r' h => ?_, fun data => ⟨fun e h => ?_, fun t h note hnote => ?_⟩⟩
  · have hplaced := ((d.local_guarded rounds levels f found).within_failed h).2
    obtain ⟨p, hp, -⟩ := id hplaced
    -- The calls that are meant are those of this one field, not those of a whole decode.
    have htracked := tracked_field (T := GetsTo d rounds (.field levels f found) r) .call
      (fun s name r hr => tracked_struct .call hr) .here
    rw [h] at htracked
    exact ⟨hplaced, htracked.2 p hp⟩
  · obtain ⟨rounds, r, hroot⟩ := d.answers_error_iff.mp h
    cases hp : e.place with
    | some p =>
        have htracked := d.tracked_root rounds data
        rw [hroot] at htracked
        exact .inl ⟨⟨p, rfl⟩, rounds, htracked.2 p hp⟩
    | none => exact .inr ⟨rfl, rootFault_of_failed hroot hp⟩
  · obtain ⟨rounds, r, hroot, hrecovered⟩ := d.answers_ok_iff.mp h
    have htracked := d.tracked_root rounds data
    rw [hroot] at htracked
    obtain ⟨new, hnew, hnoted⟩ := htracked
    rw [hrecovered, hnew, show (Run.start (.ofBuffer data d.schema.order)).recovered = [] from rfl,
      List.append_nil] at hnote
    exact ⟨rounds, hnoted note (List.mem_reverse.mp hnote)⟩

end Decoder

/-! ## A pair that is cut off -/

namespace Ragged

/-- Pairs of bytes up to the end. -/
def pairs : Field where
  name := "pairs"
  type := .struct
  structRef := some "pair"
  repetition := .untilEnd

/-- A decoder of pairs, each of them one number. -/
def decoder : Decoder where
  schema := {
    name := "ragged"
    structs := [
      ("all", { name := "all", fields := [pairs] }),
      ("pair", { name := "pair", fields := [{ name := "both", type := .u16 }] })]
    root := "all" }
  options := {}

/-- The second pair is cut off, and it is the number in it that says so. -/
def failure : Failure := ⟨.readTooLong 2 1, some ⟨2, "pairs[1].both", .u16⟩⟩

/-- Of the second pair only one byte is left. -/
theorem decoder_fails : decoder.Answers #[1, 2, 3] (.error failure) := by
  have hfails : (decoder.decode? 2 #[1, 2, 3]).map (fun answer => match answer with
      | .error e => some e
      | .ok _ => none) = some (some failure) := by
    decide +kernel
  obtain ⟨answer, hanswer, herror⟩ := Option.map_eq_some_iff.mp hfails
  cases answer with
  | ok t => cases herror
  | error e =>
      obtain rfl := Option.some.inj herror
      exact ⟨2, hanswer⟩

/-- The failure of the number is what the decode fails with, and it got its place in one of its calls. -/
theorem failure_placed : decoder.Answers #[1, 2, 3] (.error failure) ∧ ∃ rounds c q,
    Decoder.Reaches decoder rounds #[1, 2, 3] c q ∧ Decoder.Locates decoder rounds failure c q := by
  have hplaced := ((Decoder.failures_placed decoder).2 #[1, 2, 3]).1 failure decoder_fails
  obtain ⟨-, hlocated⟩ | ⟨hnone, -⟩ := hplaced
  · exact ⟨decoder_fails, hlocated⟩
  · cases hnone

end Ragged

end BinaryFormat
