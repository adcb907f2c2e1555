import BinaryFormat.Proofs.Grammar

/-!
# The parser accepts the grammar

The machine never looks ahead and never goes back: a token decides how much of the stack is closed. So a derivation
cannot be followed node by node; what stands on the stack behind its tokens may still be split into operators that
the next token has to close. `Closes` says what is left to close, which depends on the level only, and with that every
derivation is read, by induction on it.

The other way round every open construct on the stack remembers derivations of what it was read from. Closing one
puts them together, and a stack that is closed down to the bottom has been read from one derivation.
-/

namespace BinaryFormat

open Grammar

namespace Parser

/-! ## Closing -/

theorem settle_applyPrefixes (e : Expr) (fs : List Frame) :
    settle (applyPrefixes e fs).1 (applyPrefixes e fs).2 = settle e fs := by
  fun_induction applyPrefixes e fs with
  | case1 e op s fs ih => exact ih
  | case2 => rfl

/-- What is closed early by an operator would have been closed by the bracket anyway. -/
theorem settle_reduce (k : Nat) (e : Expr) (fs : List Frame) :
    settle (reduce k e fs).1 (reduce k e fs).2 = settle e fs := by
  fun_induction reduce k e fs with
  | case1 e l op fs h ih => exact ih
  | case2 => rfl
  | case3 => rfl

/-- Closing the tighter operators first makes no difference to closing the looser ones. -/
theorem reduce_reduce {j k : Nat} (h : j ≤ k) (e : Expr) (fs : List Frame) :
    reduce j (reduce k e fs).1 (reduce k e fs).2 = reduce j e fs := by
  fun_induction reduce k e fs with
  | case1 e l op fs hk ih => rw [ih, reduce, if_pos (Nat.le_trans h hk)]
  | case2 => rfl
  | case3 => rfl

/-- There is no operator of level 0. -/
theorem reduce_zero (e : Expr) (fs : List Frame) : reduce 0 e fs = reduce 1 e fs := by
  fun_induction reduce 1 e fs with
  | case1 e l op fs h ih => rw [reduce, if_pos (Nat.zero_le _), ih]
  | case2 e l op fs h => exact absurd op.one_le_level h
  | case3 e fs h => rw [reduce.eq_def]; split <;> simp_all

/-- A phrase of the level may be read on this stack: the innermost construct does not take it away. -/
def Admits (k : Nat) : List Frame → Prop
  | .unary .. :: _ => False
  | .binary _ op :: _ => op.level < k
  | _ => True

theorem Admits.tighter {k : Nat} {fs : List Frame} (h : Admits k fs) : Admits (k + 1) fs := by
  unfold Admits at h ⊢
  split at h
  · exact h
  · exact Nat.lt_succ_of_lt h
  · trivial

theorem Admits.applyPrefixes {k : Nat} {fs : List Frame} (h : Admits k fs) (e : Expr) :
    applyPrefixes e fs = (e, fs) := by
  fun_cases Parser.applyPrefixes e fs with
  | case1 => exact absurd h id
  | case2 => rfl

/-- Where a phrase of the level may be read, no operator waits to be closed by one of the level. -/
theorem Admits.reduce {k : Nat} {fs : List Frame} (h : Admits k fs) (e : Expr) : reduce k e fs = (e, fs) := by
  fun_cases Parser.reduce k e fs with
  | case1 l op fs hk => exact absurd h (Nat.not_lt.2 hk)
  | case2 => rfl
  | case3 => rfl

theorem Admits.of_not_binary {j k : Nat} {fs : List Frame} (h : Admits j fs)
    (hfs : ∀ l op fs', fs = .binary l op :: fs' → False) : Admits k fs := by
  unfold Admits at h ⊢
  split at h
  · exact h
  · exact (hfs _ _ _ rfl).elim
  · trivial

/-- A stack that admits a phrase of the loosest level with an operator admits a choice. -/
theorem admits_zero {fs : List Frame} (h : Admits 1 fs) : Admits 0 fs := by
  refine h.of_not_binary ?_
  rintro l op fs' rfl
  exact Nat.not_lt.2 op.one_le_level h

/-- Above the prefix operators every phrase of their level may be read. -/
theorem admits_of_not_unary {fs : List Frame} (hfs : ∀ op s fs', fs = .unary op s :: fs' → False) : Admits 11 fs := by
  unfold Admits
  split
  · exact hfs _ _ _ rfl
  · rename_i op _
    exact Nat.lt_succ_of_le op.level_le_ten
  · trivial

/-! ## One token after the other -/

/-- The complete operand, when there is one, and the constructs that are open around it. -/
def State.held? : State → Option (Expr × List Frame)
  | .wanting _ => none
  | .named n s fs => some (applyPrefixes (.ident n s) fs)
  | .holding e fs => some (e, fs)

/-- The tokens are taken and lead from one state to the other. -/
inductive Reads : State → List Token → State → Prop where
  | nil {s : State} : Reads s [] s
  | cons {s s₁ s' : State} {t : Token} {ts : List Token} : s.step t = .ok s₁ → Reads s₁ ts s' → Reads s (t :: ts) s'

theorem Reads.append {s s₁ s' : State} {ts ts' : List Token} (h : Reads s ts s₁) (h' : Reads s₁ ts' s') :
    Reads s (ts ++ ts') s' := by
  induction h with
  | nil => exact h'
  | cons hs _ ih => exact .cons hs (ih h')

theorem Reads.one {s s' : State} {t : Token} (h : s.step t = .ok s') : Reads s [t] s' := .cons h .nil

/-- The tokens before the end token. -/
def body (ts : List Token) : List Token := ts.takeWhile (·.kind != .finish)

/-- The end is accepted where an operand is complete and no bracket is open. -/
theorem finish_eq_ok_iff {s : State} {span : Span} {t : Expr} :
    s.finish span = .ok t ↔ ∃ h, s.held? = some h ∧ settle h.1 h.2 = (t, none) := by
  have closed : ∀ e fs, finishHolding e fs span = .ok t ↔ settle e fs = (t, none) := by
    intro e fs
    unfold finishHolding
    split <;> simp_all
  cases s with
  | wanting fs => simp [State.finish, State.held?]
  | named n sp fs => simp [State.finish, State.held?, closed, settle_applyPrefixes]
  | holding e fs => simp [State.finish, State.held?, closed]

/-- An expression is read if all tokens before the end are taken and an operand is complete behind them. -/
theorem run_eq_ok_iff {s : State} {ts : List Token} {t : Expr} :
    s.run ts = .ok t ↔ ∃ s' h, Reads s (body ts) s' ∧ s'.held? = some h ∧ settle h.1 h.2 = (t, none) := by
  induction ts generalizing s with
  | nil =>
      rw [State.run, finish_eq_ok_iff]
      constructor
      · rintro ⟨h, hh⟩
        exact ⟨s, h, .nil, hh⟩
      · rintro ⟨s', h, hr, hh⟩
        cases hr
        exact ⟨h, hh⟩
  | cons a ts ih =>
      by_cases hk : a.kind = .finish
      · -- The first end token stops the run, whatever stands behind it.
        rw [State.run, if_pos hk, finish_eq_ok_iff, body, List.takeWhile_cons_of_neg (by simp [hk])]
        constructor
        · rintro ⟨h, hh⟩
          exact ⟨s, h, .nil, hh⟩
        · rintro ⟨s', h, hr, hh⟩
          cases hr
          exact ⟨h, hh⟩
      · rw [State.run, if_neg hk, body, List.takeWhile_cons_of_pos (by simp [hk])]
        cases hs : s.step a with
        | error u =>
            constructor
            · simp [Except.bind]
            · rintro ⟨s', h, hr, -⟩
              cases hr with
              | cons hs' => cases hs.symm.trans hs'
        | ok s₁ =>
            rw [Except.bind, ih]
            constructor
            · rintro ⟨s', h, hr, hh⟩
              exact ⟨s', h, .cons hs hr, hh⟩
            · rintro ⟨s', h, hr, hh⟩
              cases hr with
              | cons hs' hr =>
                  cases hs.symm.trans hs'
                  exact ⟨s', h, hr, hh⟩

/-! ## What a token does behind a complete operand -/

/-- Behind a complete operand a token does the same, whether the operand may still become a call or not. -/
theorem step_held {s : State} {h : Expr × List Frame} {t : Token} (hs : s.held? = some h)
    (hp : t.kind ≠ .symbol .openParen) (hb : t.kind ≠ .symbol .openBracket) :
    s.step t = stepHolding t h.1 h.2 := by
  cases s with
  | wanting fs => cases hs
  | named n sp fs => cases hs; rw [State.step, if_neg hp, if_neg hb]
  | holding e fs => cases hs; rfl

theorem stepHolding_question {e : Expr} {fs : List Frame} {s : Span} :
    stepHolding ⟨.symbol .question, s⟩ e fs =
      .ok (.wanting (.bracket (.condition (reduce 0 e fs).1) :: (reduce 0 e fs).2)) := rfl

/-- An operator closes what is at least as tight, and waits for its right operand. -/
theorem stepHolding_op {e : Expr} {fs : List Frame} {op : BinaryOp} {s : Span} :
    stepHolding ⟨.symbol op.symbol, s⟩ e fs =
      .ok (.wanting (.binary (reduce op.level e fs).1 op :: (reduce op.level e fs).2)) := by
  cases op <;> rfl

/-- A symbol that closes what is open down to the next bracket. -/
def Closing : Symbol → Prop
  | .colon | .comma | .closeParen | .closeBracket => True
  | _ => False

/-- A closing symbol closes all up to the innermost bracket, and is then up to that bracket. -/
theorem step_closing {s : State} {h : Expr × List Frame} {e : Expr} {fs : List Frame} {b : Bracket} {sym : Symbol}
    {span : Span} (hsym : Closing sym) (hs : s.held? = some h) (hb : settle h.1 h.2 = (e, some (b, fs))) :
    s.step ⟨.symbol sym, span⟩ = stepBracket ⟨.symbol sym, span⟩ e fs b := by
  cases sym <;>
    first | exact absurd hsym id | rw [step_held hs (by simp) (by simp), stepHolding]; simp [Symbol.binaryOp?, hb]

/-! ## Every derivation is read -/

/-- What is left to close behind a phrase that was read on the stack `fs`, by its level. -/
def Closes : Nat → Expr × List Frame → Expr → List Frame → Prop
  | 0, h, t, fs => settle h.1 h.2 = settle t fs
  | k + 1, h, t, fs => if k < 10 then reduce (k + 1) h.1 h.2 = (t, fs) else h = applyPrefixes t fs

/-- On the levels of the operators, what is left to close is what an operator of the level closes. -/
theorem closes_iff_reduce {k : Nat} {h : Expr × List Frame} {t : Expr} {fs : List Frame} (h₁ : 1 ≤ k)
    (h₂ : k ≤ 10) : Closes k h t fs ↔ reduce k h.1 h.2 = (t, fs) := by
  obtain ⟨k, rfl⟩ := Nat.exists_eq_succ_of_ne_zero (Nat.ne_of_gt h₁)
  rw [Closes, if_pos (by omega)]

/-- Behind a right operand all operators of the level are closed as behind its tree. -/
theorem Closes.reduce {k : Nat} {h : Expr × List Frame} {t : Expr} {fs : List Frame} (hc : Closes (k + 1) h t fs)
    (ha : Admits (k + 1) fs) : reduce k h.1 h.2 = reduce k t fs := by
  rw [Closes] at hc
  split at hc
  · rw [← reduce_reduce (Nat.le_succ k), hc]
  · rw [hc, ha.applyPrefixes]

/-- What is left to close on one level is closed on the next looser one as well. -/
theorem Closes.looser {k : Nat} {h : Expr × List Frame} {t : Expr} {fs : List Frame}
    (hc : Closes (k + 1) h t fs) (ha : k ≤ 10 → Admits k fs) : Closes k h t fs := by
  -- above level 10 only prefix operators are left to close, and they close alike on every level
  by_cases hk : k ≤ 10
  · have hr := hc.reduce (ha hk).tighter
    rcases k with - | k
    · rw [Closes, ← settle_reduce 0, hr, settle_reduce]
    · rw [closes_iff_reduce (Nat.succ_pos k) hk, hr, (ha hk).reduce]
  · obtain ⟨k, rfl⟩ := Nat.exists_eq_succ_of_ne_zero (by omega : k ≠ 0)
    rw [Closes, if_neg (by omega)] at hc ⊢
    exact hc

end Parser

namespace Grammar

open BinaryFormat.Parser

/-- Wherever the stack admits a phrase, its tokens are taken, and its tree is what is left to close. -/
def Phrase.Read {k : Nat} (p : Phrase k) : Prop :=
  ∀ fs : List Frame, (k ≤ 10 → Admits k fs) →
    ∃ s h, Reads (.wanting fs) p.yield s ∧ s.held? = some h ∧ Closes k h p.tree fs

/-- Behind the arguments the last of them is complete, and the others are listed in the open call. -/
def Arguments.Read (args : Arguments) : Prop :=
  ∀ (n : String) (sp : Span) (done : List Expr) (fs : List Frame), ∃ s h front last,
    Reads (.wanting (.bracket (.call n sp done) :: fs)) args.yield s ∧ s.held? = some h ∧
      settle h.1 h.2 = (last, some (.call n sp front, fs)) ∧ front ++ [last] = done ++ args.trees

/-- A phrase of the loosest level and the symbol that closes the bracket around it. -/
theorem Phrase.Read.closed {p : Phrase 0} (hp : p.Read) {b : Bracket} {fs : List Frame} {sym : Symbol} {span : Span}
    {s' : State} (hsym : Closing sym) (hb : stepBracket ⟨.symbol sym, span⟩ p.tree fs b = .ok s') :
    Reads (.wanting (.bracket b :: fs)) (p.yield ++ [⟨.symbol sym, span⟩]) s' := by
  obtain ⟨s, h, hr, hh, hc⟩ := hp (.bracket b :: fs) (fun _ => trivial)
  exact hr.append (.one ((step_closing hsym hh hc).trans hb))

/-- A phrase of the next level is read where one of the level is. -/
theorem read_tighter {k : Nat} (hk : k < 12) {p : Phrase (k + 1)} (hp : p.Read) : (Phrase.tighter hk p).Read := by
  intro fs ha
  obtain ⟨s, h, hr, hh, hc⟩ := hp fs (fun hk => (ha (by omega)).tighter)
  exact ⟨s, h, hr, hh, hc.looser ha⟩

/-- The operator closes its left operand, and its right one is left to close. -/
theorem read_binary {k : Nat} {l : Phrase k} {op : BinaryOp} {hl : op.level = k} {s : Span} {r : Phrase (k + 1)}
    (hp : l.Read) (hr : r.Read) : (Phrase.binary l op hl s r).Read := by
  subst hl
  intro fs ha
  have ha := ha op.level_le_ten
  have closes_iff : ∀ {h t}, Closes op.level h t fs ↔ reduce op.level h.1 h.2 = (t, fs) :=
    closes_iff_reduce op.one_le_level op.level_le_ten
  obtain ⟨s₁, h₁, hr₁, hh₁, hc₁⟩ := hp fs (fun _ => ha)
  have hop : s₁.step ⟨.symbol op.symbol, s⟩ = .ok (.wanting (.binary l.tree op :: fs)) := by
    rw [step_held hh₁ (by cases op <;> simp [BinaryOp.symbol]) (by cases op <;> simp [BinaryOp.symbol]),
      stepHolding_op, closes_iff.1 hc₁]
  -- the right operand is one level tighter, so the operator that waits for it is closed with its own level
  have hb : Admits (op.level + 1) (.binary l.tree op :: fs) := Nat.lt_succ_self op.level
  obtain ⟨s₂, h₂, hr₂, hh₂, hc₂⟩ := hr (.binary l.tree op :: fs) (fun _ => hb)
  refine ⟨s₂, h₂, hr₁.append (.cons hop hr₂), hh₂, closes_iff.2 ?_⟩
  rw [hc₂.reduce hb, reduce, if_pos (Nat.le_refl _), ha.reduce]
  rfl

/-- The question mark closes the condition, the colon the first branch, and the second one is left to close. -/
theorem read_choice {c : Phrase 1} {t e : Phrase 0} {q o : Span} (hc : c.Read) (ht : t.Read) (he : e.Read) :
    (Phrase.choice c q t o e).Read := by
  intro fs ha
  obtain ⟨s₁, h₁, hr₁, hh₁, hc₁⟩ := hc fs (fun _ => (ha (by decide)).tighter)
  have hq : s₁.step ⟨.symbol .question, q⟩ = .ok (.wanting (.bracket (.condition c.tree) :: fs)) := by
    -- all operators are closed, and since none is of level 0, no more than the condition is
    rw [step_held hh₁ (by simp) (by simp), stepHolding_question, reduce_zero,
      (closes_iff_reduce (by decide) (by decide)).1 hc₁]
  have ho : Reads (.wanting (.bracket (.condition c.tree) :: fs)) (t.yield ++ [⟨.symbol .colon, o⟩])
      (.wanting (.choice c.tree t.tree :: fs)) := ht.closed trivial rfl
  obtain ⟨s₂, h₂, hr₂, hh₂, hc₂⟩ := he (.choice c.tree t.tree :: fs) (fun _ => trivial)
  refine ⟨s₂, h₂, ?_, hh₂, hc₂⟩
  rw [Phrase.yield]
  simpa using hr₁.append (.cons hq (ho.append hr₂))

theorem read_unary {op : UnaryOp} {s : Span} {p : Phrase 11} (hp : p.Read) : (Phrase.unary op s p).Read := by
  intro fs _
  obtain ⟨s', h, hr, hh, hc⟩ := hp (.unary op s :: fs) nofun
  exact ⟨s', h, .cons (by cases op <;> rfl) hr, hh, hc⟩

/-- A primary is read if the machine comes to hold its tree. -/
theorem read_primary {p : Phrase 12} (hp : ∀ fs, Reads (.wanting fs) p.yield (hold p.tree fs)) : p.Read :=
  fun fs _ => ⟨_, _, hp fs, rfl, rfl⟩

theorem read_name {n : String} {s : Span} : (Phrase.name n s).Read :=
  fun _ _ => ⟨_, _, .one rfl, rfl, rfl⟩

theorem read_group {p : Phrase 0} {o c : Span} (hp : p.Read) : (Phrase.group o p c).Read :=
  read_primary fun _ => .cons rfl (hp.closed trivial rfl)

theorem read_index {p : Phrase 0} {n : String} {s o c : Span} (hp : p.Read) : (Phrase.index n s o p c).Read :=
  read_primary fun _ => .cons rfl (.cons rfl (hp.closed trivial rfl))

theorem read_call {args : Arguments} {n : String} {s o c : Span} (ha : args.Read) :
    (Phrase.call n s o args c).Read := by
  refine read_primary fun fs => .cons rfl (.cons rfl ?_)
  obtain ⟨s', h, front, last, hr, hh, hs, ht⟩ := ha n s [] fs
  have hsym : Closing .closeParen := trivial
  refine hr.append (.one ?_)
  rw [step_closing hsym hh hs, Phrase.tree, ← List.nil_append args.trees, ← ht]
  rfl

/-- The last argument is complete behind its tokens. -/
theorem read_last {p : Phrase 0} (hp : p.Read) : (Arguments.last p).Read := by
  intro n sp done fs
  obtain ⟨s, h, hr, hh, hc⟩ := hp (.bracket (.call n sp done) :: fs) (fun _ => trivial)
  exact ⟨s, h, done, p.tree, hr, hh, hc, rfl⟩

/-- A comma closes an argument and lists it in the open call. -/
theorem read_more {p : Phrase 0} {s : Span} {args : Arguments} (hp : p.Read) (ha : args.Read) :
    (Arguments.more p s args).Read := by
  intro n sp done fs
  have hr : Reads (.wanting (.bracket (.call n sp done) :: fs)) (p.yield ++ [⟨.symbol .comma, s⟩])
      (.wanting (.bracket (.call n sp (done ++ [p.tree])) :: fs)) := hp.closed trivial rfl
  obtain ⟨s', h, front, last, hr', hh, hs, ht⟩ := ha n sp (done ++ [p.tree]) fs
  refine ⟨s', h, front, last, ?_, hh, hs, ?_⟩
  · rw [Arguments.yield]
    simpa using hr.append hr'
  · rw [ht, Arguments.trees, List.append_assoc, List.singleton_append]

mutual

/-- The tokens of every phrase are taken, by recursion along the phrase and its arguments. -/
theorem Phrase.read : ∀ {k : Nat} (p : Phrase k), p.Read
  | _, .tighter h p => read_tighter h p.read
  | _, .choice c _ t _ e => read_choice c.read t.read e.read
  | _, .binary l _ _ _ r => read_binary l.read r.read
  | _, .unary _ _ p => read_unary p.read
  | _, .int .. => read_primary fun _ => .one rfl
  | _, .text .. => read_primary fun _ => .one rfl
  | _, .name .. => read_name
  | _, .group _ p _ => read_group p.read
  | _, .emptyCall .. => read_primary fun _ => .cons rfl (.cons rfl (.one rfl))
  | _, .call _ _ _ args _ => read_call args.read
  | _, .index _ _ _ p _ => read_index p.read

theorem Arguments.read : ∀ args : Arguments, args.Read
  | .last p => read_last p.read
  | .more p _ args => read_more p.read args.read

end

/-! ## Everything that is read is derived -/

/-- The arguments that a call has closed, each with its comma. -/
abbrev Closed := List (Phrase 0 × Span)

/-- The tokens of the arguments, commas included. -/
def Closed.yield (done : Closed) : List Token := done.flatMap fun a => a.1.yield ++ [⟨.symbol .comma, a.2⟩]

/-- The expressions of the arguments. -/
def Closed.trees (done : Closed) : List Expr := done.map (·.1.tree)

/-- Closed arguments and one more phrase make up the arguments of a call. -/
theorem Closed.exists_arguments (done : Closed) (p : Phrase 0) : ∃ args : Arguments,
    args.yield = done.yield ++ p.yield ∧ args.trees = done.trees ++ [p.tree] := by
  induction done with
  | nil => exact ⟨.last p, rfl, rfl⟩
  | cons a done ih =>
      obtain ⟨args, hy, ht⟩ := ih
      refine ⟨.more a.1 a.2 args, ?_, ?_⟩
      · rw [Arguments.yield, hy]
        simp [Closed.yield]
      · rw [Arguments.trees, ht]
        rfl

/-- The open constructs were read from these tokens: what is complete of them is derived, and each stands where its
level may stand. -/
inductive Stands : List Frame → List Token → Prop where
  | bottom : Stands [] []
  | group {fs : List Frame} {ts : List Token} {o : Span} : Stands fs ts →
      Stands (.bracket .group :: fs) (ts ++ [⟨.symbol .openParen, o⟩])
  | call {fs : List Frame} {ts : List Token} {n : String} {s o : Span} (done : Closed) : Stands fs ts →
      Stands (.bracket (.call n s done.trees) :: fs) (ts ++ ⟨.name n, s⟩ :: ⟨.symbol .openParen, o⟩ :: done.yield)
  | index {fs : List Frame} {ts : List Token} {n : String} {s o : Span} : Stands fs ts →
      Stands (.bracket (.index n s) :: fs) (ts ++ [⟨.name n, s⟩, ⟨.symbol .openBracket, o⟩])
  | condition {fs : List Frame} {ts : List Token} {q : Span} (c : Phrase 1) : Stands fs ts → Admits 0 fs →
      Stands (.bracket (.condition c.tree) :: fs) (ts ++ (c.yield ++ [⟨.symbol .question, q⟩]))
  | choice {fs : List Frame} {ts : List Token} {q o : Span} (c : Phrase 1) (t : Phrase 0) : Stands fs ts →
      Admits 0 fs → Stands (.choice c.tree t.tree :: fs)
        (ts ++ (c.yield ++ ⟨.symbol .question, q⟩ :: (t.yield ++ [⟨.symbol .colon, o⟩])))
  | unary {fs : List Frame} {ts : List Token} {s : Span} (op : UnaryOp) : Stands fs ts →
      Stands (.unary op s :: fs) (ts ++ [⟨.symbol op.symbol, s⟩])
  | binary {fs : List Frame} {ts : List Token} {s : Span} (op : BinaryOp) (l : Phrase op.level) : Stands fs ts →
      Admits op.level fs → Stands (.binary l.tree op :: fs) (ts ++ (l.yield ++ [⟨.symbol op.symbol, s⟩]))

/-- The tokens are those of the open constructs with a phrase of the level behind them. -/
def Holds (k : Nat) (h : Expr × List Frame) (ts : List Token) : Prop :=
  ∃ (p : Phrase k) (front : List Token), p.tree = h.1 ∧ Stands h.2 front ∧ Admits k h.2 ∧ front ++ p.yield = ts

theorem Holds.admits {k : Nat} {h : Expr × List Frame} {ts : List Token} (hh : Holds k h ts) : Admits k h.2 := by
  obtain ⟨_, _, -, -, ha, -⟩ := hh
  exact ha

/-- A phrase of a tighter level is one of every looser level that may stand here. -/
theorem Holds.looser {j k : Nat} {h : Expr × List Frame} {ts : List Token} (hh : Holds j h ts) (hkj : k ≤ j)
    (hj : j ≤ 12) (ha : Admits k h.2) : Holds k h ts := by
  obtain ⟨p, front, ht, hs, -, hts⟩ := hh
  obtain ⟨q, hqy, hqt⟩ := p.exists_looser hkj hj
  exact ⟨q, front, hqt.trans ht, hs, ha, by rw [hqy, hts]⟩

/-- An operator and its operands, closed. -/
theorem Holds.binary {op : BinaryOp} {l : Expr} {fs : List Frame} {e : Expr} {ts : List Token}
    (hh : Holds (op.level + 1) (e, .binary l op :: fs) ts) : Holds op.level (applyBinary l op e, fs) ts := by
  obtain ⟨p, front, rfl, hs, -, rfl⟩ := hh
  cases hs with
  | @binary _ ts s _ l hs ha =>
      refine ⟨.binary l op rfl s p, ts, rfl, hs, ha, ?_⟩
      simp [Phrase.yield]

/-- A choice and its branches, closed. -/
theorem Holds.choice {c t : Expr} {fs : List Frame} {e : Expr} {ts : List Token}
    (hh : Holds 0 (e, .choice c t :: fs) ts) : Holds 0 (applyChoice c t e, fs) ts := by
  obtain ⟨p, front, rfl, hs, -, rfl⟩ := hh
  cases hs with
  | @choice _ ts q o c t hs ha =>
      refine ⟨.choice c q t o p, ts, rfl, hs, ha, ?_⟩
      simp [Phrase.yield]

/-- The prefix operators in front of an operand are put together with it, the innermost first. -/
theorem holds_applyPrefixes {fs : List Frame} {p : Phrase 11} {e : Expr} {front : List Token} (hp : p.tree = e)
    (hs : Stands fs front) : Holds 11 (applyPrefixes e fs) (front ++ p.yield) := by
  fun_induction applyPrefixes e fs generalizing p front with
  | case1 e op s fs ih =>
      cases hs with
      | @unary _ ts _ _ hs =>
          have h := ih (p := .unary op s p) (by rw [← hp]; rfl) hs
          rwa [Phrase.yield, List.append_cons] at h
  | case2 e fs hfs => exact ⟨p, front, hp, hs, admits_of_not_unary hfs, rfl⟩

/-- Closing operators up to a level leaves a phrase of that level. -/
theorem Holds.reduce {j k : Nat} {e : Expr} {fs : List Frame} {ts : List Token} (hh : Holds j (e, fs) ts)
    (hkj : k ≤ j) (hj : j ≤ 12) : Holds k (Parser.reduce k e fs) ts := by
  -- along the operators that are closed: each of them makes a phrase of its own level
  have ha : Admits j fs := hh.admits
  fun_induction Parser.reduce k e fs generalizing j with
  | case1 e l op fs hk ih =>
      have hb := (hh.looser ha hj (Nat.lt_succ_self _)).binary
      exact ih hb hk (Nat.le_trans op.level_le_ten (by decide)) hb.admits
  | case2 e l op fs hk => exact hh.looser hkj hj (Nat.not_le.1 hk)
  | case3 e fs hfs => exact hh.looser hkj hj (ha.of_not_binary hfs)

/-- What is left of the stack below the bracket that was closed. -/
def below : Option (Bracket × List Frame) → List Frame
  | none => []
  | some (b, fs) => .bracket b :: fs

/-- Closing all up to the innermost bracket leaves a phrase of the loosest level. -/
theorem Holds.settle {j : Nat} {e : Expr} {fs : List Frame} {ts : List Token} (hh : Holds j (e, fs) ts)
    (hj : j ≤ 12) : Holds 0 ((Parser.settle e fs).1, below (Parser.settle e fs).2) ts := by
  have ha : Admits j fs := hh.admits
  fun_induction Parser.settle e fs generalizing j with
  | case1 => exact absurd ha id
  | case2 e l op fs ih =>
      have hb := (hh.looser ha hj (Nat.lt_succ_self _)).binary
      exact ih hb (Nat.le_trans op.level_le_ten (by decide)) hb.admits
  | case3 e c t fs ih =>
      have hb := (hh.looser (Nat.zero_le j) hj trivial).choice
      exact ih hb (Nat.zero_le 12) hb.admits
  | case4 e b fs => exact hh.looser (Nat.zero_le j) hj trivial
  | case5 e => exact hh.looser (Nat.zero_le j) hj trivial

/-- The state was reached with these tokens. -/
inductive Follows : State → List Token → Prop where
  | wanting {fs : List Frame} {ts : List Token} : Stands fs ts → Follows (.wanting fs) ts
  | named {fs : List Frame} {ts : List Token} {n : String} {s : Span} : Stands fs ts →
      Follows (.named n s fs) (ts ++ [⟨.name n, s⟩])
  | holding {e : Expr} {fs : List Frame} {ts : List Token} : Holds 11 (e, fs) ts → Follows (.holding e fs) ts

theorem holds_primary {fs : List Frame} {front : List Token} (p : Phrase 12) (hs : Stands fs front) :
    Holds 11 (applyPrefixes p.tree fs) (front ++ p.yield) := by
  obtain ⟨q, hy, ht⟩ := p.exists_looser (Nat.le_succ 11) (Nat.le_refl 12)
  exact hy ▸ holds_applyPrefixes ht hs

theorem follows_hold {fs : List Frame} {front : List Token} (p : Phrase 12) (hs : Stands fs front) :
    Follows (hold p.tree fs) (front ++ p.yield) := .holding (holds_primary p hs)

/-- What is complete behind some tokens was read from the last of them. -/
theorem Follows.held {s : State} {h : Expr × List Frame} {ts : List Token} (hf : Follows s ts)
    (hs : s.held? = some h) : Holds 11 h ts := by
  cases hf with
  | wanting => cases hs
  | @named fs ts n sp hfs =>
      cases hs
      exact holds_primary (.name n sp) hfs
  | holding hh => cases hs; exact hh

/-- An open call was read from its name, its parenthesis and the arguments closed so far. -/
theorem Stands.call_inv {n : String} {s : Span} {args : List Expr} {fs : List Frame} {ts : List Token}
    (hs : Stands (.bracket (.call n s args) :: fs) ts) : ∃ (done : Closed) (front : List Token) (o : Span),
      done.trees = args ∧ Stands fs front ∧ front ++ ⟨.name n, s⟩ :: ⟨.symbol .openParen, o⟩ :: done.yield = ts := by
  cases hs with
  | @call _ front _ _ o done hs => exact ⟨done, front, o, rfl, hs, rfl⟩

/-- A token where an operand is wanted begins one, or opens a construct around one. -/
theorem follows_stepWanting {fs : List Frame} {ts : List Token} {t : Token} {s : State} (hs : Stands fs ts)
    (h : stepWanting t fs = .ok s) : Follows s (ts ++ [t]) := by
  obtain ⟨kind, span⟩ := t
  cases kind with
  | int n =>
      obtain rfl := Except.ok.inj h
      exact follows_hold (.int n span) hs
  | text x =>
      obtain rfl := Except.ok.inj h
      exact follows_hold (.text x span) hs
  | name n =>
      obtain rfl := Except.ok.inj h
      exact .named hs
  | finish => cases h
  | symbol x =>
      cases x with
      | openParen =>
          obtain rfl := Except.ok.inj h
          exact .wanting (.group hs)
      | minus =>
          obtain rfl := Except.ok.inj h
          exact .wanting (.unary .neg hs)
      | not =>
          obtain rfl := Except.ok.inj h
          exact .wanting (.unary .not hs)
      | closeParen =>
          -- an operand may be missing before it only if it ends a call without arguments
          obtain ⟨n, sp, rest, rfl⟩ : ∃ n sp rest, fs = .bracket (.call n sp []) :: rest := by
            match fs, h with
            | .bracket (.call n sp []) :: rest, _ => exact ⟨n, sp, rest, rfl⟩
            | [], h | .unary .. :: _, h | .binary .. :: _, h | .choice .. :: _, h | .bracket (.condition _) :: _, h
            | .bracket .group :: _, h | .bracket (.index ..) :: _, h | .bracket (.call _ _ (_ :: _)) :: _, h => cases h
          obtain rfl := Except.ok.inj h
          obtain ⟨done, front, o, hd, hfs, rfl⟩ := hs.call_inv
          obtain rfl : done = [] := List.map_eq_nil_iff.1 hd
          have h := follows_hold (.emptyCall n sp o span) hfs
          rw [Phrase.yield, Phrase.tree] at h
          simpa [Closed.yield] using h
      | _ => cases h

/-- A token that ends what is in a bracket closes the bracket, or goes on in it. -/
theorem follows_stepBracket {b : Bracket} {e : Expr} {fs : List Frame} {ts : List Token} {t : Token} {s : State}
    (hh : Holds 0 (e, .bracket b :: fs) ts) (h : stepBracket t e fs b = .ok s) : Follows s (ts ++ [t]) := by
  obtain ⟨p, front, rfl, hs, -, rfl⟩ := hh
  obtain ⟨kind, span⟩ := t
  cases b with
  | condition c =>
      cases hs with
      | @condition _ front q c hs ha =>
          rw [stepBracket] at h
          split at h <;> cases h
          rename_i hk
          obtain rfl : kind = .symbol .colon := hk
          have h := Stands.choice (q := q) (o := span) c p hs ha
          exact .wanting (by simpa using h)
  | group =>
      cases hs with
      | @group _ front o hs =>
          rw [stepBracket] at h
          split at h <;> cases h
          rename_i hk
          obtain rfl : kind = .symbol .closeParen := hk
          have h := follows_hold (.group o p span) hs
          rw [Phrase.yield, Phrase.tree] at h
          simpa using h
  -- A comma puts the argument behind those that are done; a parenthesis ends the call with all of them.
  | call n sp args =>
      obtain ⟨done, front, o, rfl, hfs, rfl⟩ := hs.call_inv
      rw [stepBracket] at h
      split at h
      · rename_i hk
        obtain rfl : kind = .symbol .comma := hk
        cases h
        have h := Stands.call (n := n) (s := sp) (o := o) (done ++ [(p, span)]) hfs
        simpa [Closed.yield, Closed.trees] using Follows.wanting h
      · split at h <;> cases h
        rename_i hk
        obtain rfl : kind = .symbol .closeParen := hk
        obtain ⟨args, hy, ht⟩ := done.exists_arguments p
        have h := follows_hold (.call n sp o args span) hfs
        rw [Phrase.yield, Phrase.tree, hy, ht] at h
        simpa using h
  | index n sp =>
      cases hs with
      | @index _ front _ _ o hs =>
          rw [stepBracket] at h
          split at h <;> cases h
          rename_i hk
          obtain rfl : kind = .symbol .closeBracket := hk
          have h := follows_hold (.index n sp o p span) hs
          rw [Phrase.yield, Phrase.tree] at h
          simpa using h

/-- A token behind a complete operand closes what it has to, and opens the next construct. -/
theorem follows_stepHolding {e : Expr} {fs : List Frame} {ts : List Token} {t : Token} {s : State}
    (hh : Holds 11 (e, fs) ts) (h : stepHolding t e fs = .ok s) : Follows s (ts ++ [t]) := by
  obtain ⟨kind, span⟩ := t
  unfold stepHolding at h
  split at h
  · rename_i hk
    obtain rfl : kind = .symbol .question := hk
    cases h
    -- A question closes all operators: its condition is everything back to the bracket.
    rw [reduce_zero]
    obtain ⟨c, front, ht, hs, ha, hts⟩ := hh.reduce (k := 1) (by decide) (by decide)
    have h := Stands.condition (q := span) c hs (admits_zero ha)
    rw [ht, ← List.append_assoc, hts] at h
    exact .wanting h
  · split at h
    · rename_i op hop
      obtain ⟨sym, rfl, hsym⟩ : ∃ sym, kind = .symbol sym ∧ sym.binaryOp? = some op := by
        cases kind <;> simp_all
      obtain rfl := Symbol.binaryOp?_eq_some_iff.1 hsym
      cases h
      -- An operator closes those that bind at least as tightly as it does.
      have hl : op.level ≤ 11 := Nat.le_succ_of_le op.level_le_ten
      obtain ⟨l, front, ht, hs, ha, hts⟩ := hh.reduce hl (by decide)
      have h := Stands.binary (s := span) op l hs ha
      rw [ht, ← List.append_assoc, hts] at h
      exact .wanting h
    · split at h
      · rename_i hb
        -- Any other token closes everything inside the innermost bracket, and has to suit that one.
        have h₀ := hh.settle (by decide)
        rw [hb] at h₀
        exact follows_stepBracket h₀ h
      · cases h

/-- One token leads from a state that was reached with some tokens to one that was reached with it as well. -/
theorem follows_step {s s' : State} {ts : List Token} {t : Token} (hf : Follows s ts) (h : s.step t = .ok s') :
    Follows s' (ts ++ [t]) := by
  obtain ⟨kind, span⟩ := t
  cases hf with
  | wanting hs => exact follows_stepWanting hs h
  | holding hh => exact follows_stepHolding hh h
  -- Behind a name a bracket of either kind belongs to it. Anything else finds the name alone as an operand.
  | @named fs ts n sp hs =>
      rw [State.step] at h
      split at h
      · rename_i hk
        obtain rfl : kind = .symbol .openParen := hk
        cases h
        have h := Stands.call (n := n) (s := sp) (o := span) [] hs
        simpa [Closed.yield, Closed.trees] using Follows.wanting h
      · split at h
        · rename_i hk
          obtain rfl : kind = .symbol .openBracket := hk
          cases h
          simpa using Follows.wanting (Stands.index (n := n) (s := sp) (o := span) hs)
        · exact follows_stepHolding (holds_primary (.name n sp) hs) h

/-- So does a run of tokens. -/
theorem follows_reads {s s' : State} {ts ts' : List Token} (hf : Follows s ts) (h : Reads s ts' s') :
    Follows s' (ts ++ ts') := by
  induction h generalizing ts with
  | nil => rwa [List.append_nil]
  | @cons s s₁ s' t ts' hs _ ih => simpa using ih (follows_step hf hs)

/-- An operand that is complete behind these tokens, with nothing open around it, is derived of them. -/
theorem Holds.exists_phrase {k : Nat} {e : Expr} {ts : List Token} (hh : Holds k (e, []) ts) :
    ∃ p : Phrase k, p.yield = ts ∧ p.tree = e := by
  obtain ⟨p, front, ht, hs, -, hts⟩ := hh
  cases hs
  exact ⟨p, hts, ht⟩

end Grammar

end BinaryFormat
