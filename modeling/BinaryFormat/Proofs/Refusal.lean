import BinaryFormat.Proofs.Parsing

/-!
# Which token a refusal points at

A token that is taken is never one too many. Whatever constructs are open, an operand may follow, and behind an operand
the innermost bracket may be closed. What is open then is a part of what was open before, so that by induction on the
stack every state can be completed. The stack itself need not be one that tokens have led to.

A token that is refused cannot be saved by what comes behind it, as the machine never looks there. So the tokens before
it are the longest part of the list that still begins an expression, and the report carries the bytes of the token that
ends this.
-/

namespace BinaryFormat

namespace Parser

/-! ## Every state can be completed -/

/-- Some tokens lead on to a complete expression. -/
def State.Completes (s : State) : Prop :=
  ∃ ts s' h e, Reads s ts s' ∧ s'.held? = some h ∧ settle h.1 h.2 = (e, none)

/-- A state from which a completable one is reached is completable. -/
theorem State.Completes.of_step {s s' : State} {t : Token} (hs : s.step t = .ok s') (h : s'.Completes) :
    s.Completes := by
  obtain ⟨ts, s'', hd, e, hr, hh, he⟩ := h
  exact ⟨t :: ts, s'', hd, e, .cons hs hr, hh, he⟩

/-- What is closed like an operand `e` on a stack `fs` can be completed, whatever the stack is. -/
theorem completes_held (fs : List Frame) {s : State} {h : Expr × List Frame} {e : Expr} (hs : s.held? = some h)
    (hh : settle h.1 h.2 = settle e fs) : s.Completes := by
  induction fs generalizing s h e with
  | nil => exact ⟨[], s, h, e, .nil, hs, hh⟩
  | cons frame fs ih =>
      have behind (e : Expr) : (hold e fs).Completes := ih rfl (settle_applyPrefixes e fs)
      cases frame with
      | unary op span => exact ih hs hh
      | binary lhs op => exact ih hs hh
      | choice condition thenBranch => exact ih hs hh
      | bracket b =>
          have closed (sym : Symbol) (hsym : Closing sym) :
              s.step ⟨.symbol sym, .origin⟩ = stepBracket ⟨.symbol sym, .origin⟩ e fs b :=
            step_closing hsym hs hh
          cases b with
          | group => exact .of_step (closed .closeParen trivial) (behind _)
          | call name span args => exact .of_step (closed .closeParen trivial) (behind _)
          | index name span => exact .of_step (closed .closeBracket trivial) (behind _)
          | condition c =>
              -- the colon opens the second branch, for which any operand will do
              refine .of_step (closed .colon trivial) (.of_step (t := ⟨.int 0, .origin⟩) rfl ?_)
              exact ih (s := hold _ (.choice c e :: fs)) rfl rfl

/-- Every state is completable: operands and closing brackets can be supplied. -/
theorem State.completes : ∀ s : State, s.Completes
  | .wanting fs => .of_step (t := ⟨.int 0, .origin⟩) rfl (completes_held fs rfl (settle_applyPrefixes _ fs))
  | .named _ _ _ => completes_held _ rfl rfl
  | .holding _ fs => completes_held fs rfl rfl

/-! ## The token that is refused -/

/-- The token that is refused where an operand is wanted is the one at hand. -/
theorem stepWanting_eq_error {t : Token} {fs : List Frame} {u : Unexpected} (h : stepWanting t fs = .error u) :
    u.found = t.kind ∧ u.span = t.span := by
  obtain ⟨kind, span⟩ := t
  have refused (h : Except.error (α := State) ⟨kind, .expression, span⟩ = .error u) :
      u.found = kind ∧ u.span = span := by
    cases h
    exact ⟨rfl, rfl⟩
  cases kind with
  | int | text | name => cases h
  | finish => exact refused h
  | symbol x =>
      cases x with
      | openParen | minus | not => cases h
      | closeParen =>
          -- in order only where it ends a call without arguments
          match fs, h with
          | .bracket (.call _ _ []) :: _, h => cases h
          | [], h | .unary .. :: _, h | .binary .. :: _, h | .choice .. :: _, h | .bracket (.condition _) :: _, h
          | .bracket .group :: _, h | .bracket (.index ..) :: _, h | .bracket (.call _ _ (_ :: _)) :: _, h =>
              exact refused h
      | _ => exact refused h

theorem stepBracket_eq_error {t : Token} {e : Expr} {fs : List Frame} {b : Bracket} {u : Unexpected}
    (h : stepBracket t e fs b = .error u) : u.found = t.kind ∧ u.span = t.span := by
  unfold stepBracket at h
  repeat' split at h
  all_goals cases h
  all_goals exact ⟨rfl, rfl⟩

theorem stepHolding_eq_error {t : Token} {e : Expr} {fs : List Frame} {u : Unexpected}
    (h : stepHolding t e fs = .error u) : u.found = t.kind ∧ u.span = t.span := by
  unfold stepHolding at h
  split at h
  · cases h
  · split at h
    · cases h
    · split at h
      · exact stepBracket_eq_error h
      · cases h
        exact ⟨rfl, rfl⟩

/-- A token that is refused is the one that is reported. -/
theorem step_eq_error {s : State} {t : Token} {u : Unexpected} (h : s.step t = .error u) :
    u.found = t.kind ∧ u.span = t.span := by
  cases s with
  | wanting fs => exact stepWanting_eq_error h
  | named n sp fs =>
      rw [State.step] at h
      split at h
      · cases h
      · split at h
        · cases h
        · exact stepHolding_eq_error h
  | holding e fs => exact stepHolding_eq_error h

/-- At the end, it is the end that is refused. -/
theorem finish_eq_error {s : State} {span : Span} {u : Unexpected} (h : s.finish span = .error u) :
    u.found = .finish ∧ u.span = span := by
  have closed {e : Expr} {fs : List Frame} (h : finishHolding e fs span = .error u) :
      u.found = .finish ∧ u.span = span := by
    unfold finishHolding at h
    split at h <;> cases h
    exact ⟨rfl, rfl⟩
  cases s with
  | wanting fs => cases h; exact ⟨rfl, rfl⟩
  | named n sp fs => exact closed h
  | holding e fs => exact closed h

/-- No step takes an end token. -/
theorem kind_ne_finish {s s' : State} {t : Token} (h : s.step t = .ok s') : t.kind ≠ .finish := by
  obtain ⟨kind, span⟩ := t
  rintro rfl
  have held (e : Expr) (fs : List Frame) : stepHolding ⟨.finish, span⟩ e fs ≠ .ok s' := by
    unfold stepHolding
    dsimp only
    split
    · rename_i b _ _
      cases b <;> nofun
    · nofun
  cases s with
  | wanting fs => cases h
  | named n sp fs => exact held _ _ h
  | holding e fs => exact held _ _ h

/-- The end is not among the tokens that are taken. -/
theorem Reads.kind_ne_finish {s s' : State} {ts : List Token} (h : Reads s ts s') : ∀ t ∈ ts, t.kind ≠ .finish := by
  induction h with
  | nil => nofun
  | cons hs _ ih => exact List.forall_mem_cons.mpr ⟨Parser.kind_ne_finish hs, ih⟩

/-- Behind tokens that are taken the parser goes on from the state that they lead to. -/
theorem Reads.run_append {s s' : State} {ts : List Token} (h : Reads s ts s') (rest : List Token) :
    s.run (ts ++ rest) = s'.run rest := by
  induction h with
  | nil => rfl
  | cons hs _ ih =>
      rw [List.cons_append, State.run, if_neg (Parser.kind_ne_finish hs), hs]
      exact ih

/-- Tokens with an end token among them are refused at one of them, whatever may stand behind it. -/
theorem run_eq_error {s : State} {ts : List Token} {u : Unexpected} (hts : ∃ t ∈ ts, t.kind = .finish)
    (h : s.run ts = .error u) : ∃ front t back s', ts = front ++ t :: back ∧ Reads s front s' ∧
      u.found = t.kind ∧ u.span = t.span ∧ ∀ rest, s'.run (t :: rest) = .error u := by
  induction ts generalizing s with
  | nil => simp at hts
  | cons t ts ih =>
      -- the first token ends the run, is refused, or is taken and belongs to the front
      by_cases hk : t.kind = .finish
      · rw [State.run, if_pos hk] at h
        obtain ⟨hfound, hspan⟩ := finish_eq_error h
        refine ⟨[], t, ts, s, rfl, .nil, hfound.trans hk.symm, hspan, fun rest => ?_⟩
        rw [State.run, if_pos hk, h]
      · rw [State.run, if_neg hk] at h
        cases hs : s.step t with
        | error u' =>
            rw [hs] at h
            obtain rfl := Except.error.inj h
            obtain ⟨hfound, hspan⟩ := step_eq_error hs
            refine ⟨[], t, ts, s, rfl, .nil, hfound, hspan, fun rest => ?_⟩
            rw [State.run, if_neg hk, hs]
            rfl
        | ok s₁ =>
            rw [hs] at h
            have hrest : ∃ t ∈ ts, t.kind = .finish := by simpa [hk] using hts
            obtain ⟨front, t', back, s', rfl, hr, hu⟩ := ih hrest h
            exact ⟨t :: front, t', back, s', rfl, .cons hs hr, hu⟩

/-! ## What begins an expression -/

/-- The end token is the last of the tokens, and there is no other. -/
def Terminated (ts : List Token) : Prop :=
  ∃ front last, ts = front ++ [last] ∧ last.kind = .finish ∧ ∀ t ∈ front, t.kind ≠ .finish

/-- The tokens are read as an expression. -/
def Accepted (ts : List Token) : Prop := ∃ e, Expr.ofTokens ts = .ok e

/-- With some more tokens, these are read as an expression. -/
def Viable (ts : List Token) : Prop := ∃ rest, Terminated (ts ++ rest) ∧ Accepted (ts ++ rest)

/-- The front of a viable list is viable. -/
theorem Viable.take {ts : List Token} (h : Viable ts) (n : Nat) : Viable (ts.take n) := by
  obtain ⟨rest, h⟩ := h
  refine ⟨ts.drop n ++ rest, ?_⟩
  rwa [← List.append_assoc, List.take_append_drop]

/-- Tokens that are taken are viable, as the state behind them can be completed. -/
theorem viable_of_reads {s : State} {ts : List Token} (h : Reads (.wanting []) ts s) : Viable ts := by
  obtain ⟨rest, s', hd, e, hr, hh, he⟩ := s.completes
  have hread : Reads (.wanting []) (ts ++ rest) s' := h.append hr
  refine ⟨rest ++ [⟨.finish, .origin⟩], ?_, e, ?_⟩
  · exact ⟨ts ++ rest, _, (List.append_assoc ..).symm, rfl, hread.kind_ne_finish⟩
  · rw [Expr.ofTokens, ← List.append_assoc, hread.run_append]
    exact finish_eq_ok_iff.mpr ⟨hd, hh, he⟩

/-- **A refusal points at the first token that nothing can save.** The tokens before it can be completed to an
expression, and no list of tokens that goes on with it is read as one. -/
theorem refuses_first {ts : List Token} {u : Unexpected} (hts : Terminated ts) (h : Expr.ofTokens ts = .error u) :
    ∃ (k : Nat) (hk : k < ts.length), u.found = ts[k].kind ∧ u.span = ts[k].span ∧
      (∀ n ≤ k, Viable (ts.take n)) ∧ ∀ n > k, ∀ rest, ¬Accepted (ts.take n ++ rest) := by
  have hend : ∃ t ∈ ts, t.kind = .finish := by
    obtain ⟨front, last, rfl, hlast, -⟩ := hts
    exact ⟨last, List.mem_append_right _ (.head _), hlast⟩
  -- The run stops at the first token that it refuses, in a state that the tokens before it lead to.
  obtain ⟨front, t, back, s, rfl, hr, hfound, hspan, hrefused⟩ := run_eq_error hend h
  have hk : front.length < (front ++ t :: back).length := by simp
  have ht : (front ++ t :: back)[front.length] = t := by simp
  refine ⟨front.length, hk, by rw [ht, hfound], by rw [ht, hspan], fun n hn => ?_, fun n hn rest => ?_⟩
  · rw [List.take_append_of_le_length hn]
    exact (viable_of_reads hr).take n
  · rintro ⟨e, he⟩
    obtain ⟨m, rfl⟩ := Nat.exists_eq_add_of_lt hn
    have htake : (front ++ t :: back).take (front.length + m + 1) = front ++ t :: back.take m := by
      rw [Nat.add_assoc, List.take_length_add_append, List.take_succ_cons]
    rw [htake, Expr.ofTokens, List.append_assoc, hr.run_append, List.cons_append, hrefused] at he
    cases he

end Parser

/-! ## An argument that is missing -/

namespace Trailing

/-- The tokens of `f(a?b:c,)`. -/
def tokens : List Token := [⟨.name "f", ⟨0, 1⟩⟩, ⟨.symbol .openParen, ⟨1, 2⟩⟩, ⟨.name "a", ⟨2, 3⟩⟩,
  ⟨.symbol .question, ⟨3, 4⟩⟩, ⟨.name "b", ⟨4, 5⟩⟩, ⟨.symbol .colon, ⟨5, 6⟩⟩, ⟨.name "c", ⟨6, 7⟩⟩,
  ⟨.symbol .comma, ⟨7, 8⟩⟩, ⟨.symbol .closeParen, ⟨8, 9⟩⟩, ⟨.finish, ⟨9, 9⟩⟩]

/-- The tokens end with the end, and have no other one. -/
theorem terminated_tokens : Parser.Terminated tokens :=
  ⟨tokens.take 9, ⟨.finish, ⟨9, 9⟩⟩, rfl, rfl, by decide⟩

/-- The comma is still in order, and the parenthesis is not. -/
theorem refuses_closeParen : Parser.Terminated tokens ∧
    Expr.ofTokens tokens = .error ⟨.symbol .closeParen, .expression, ⟨8, 9⟩⟩ ∧
      (∀ n ≤ 8, Parser.Viable (tokens.take n)) ∧ ∀ n > 8, ∀ rest, ¬Parser.Accepted (tokens.take n ++ rest) := by
  have hrefused : Expr.ofTokens tokens = .error ⟨.symbol .closeParen, .expression, ⟨8, 9⟩⟩ := rfl
  obtain ⟨k, hk, -, hspan, hviable⟩ := Parser.refuses_first terminated_tokens hrefused
  have only : ∀ (k : Nat) (hk : k < tokens.length), ⟨8, 9⟩ = tokens[k].span → k = 8 := by decide
  obtain rfl := only k hk hspan
  exact ⟨terminated_tokens, hrefused, hviable⟩

end Trailing

end BinaryFormat
