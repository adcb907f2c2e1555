import BinaryFormat.Expr.Parser

/-!
# The grammar of expressions

Level 0 is the choice `or ? choice : choice`. Levels 1 to 10 are those of the operators with two operands, where the
left operand is of the same level and the right one of the next. Level 11 has the prefix operators and level 12 the
primaries. What a level derives, all looser levels derive as well.

A derivation is a value, so that it can be counted: two derivations of the same tokens are equal. The grammar is
left-recursive, and what a phrase begins with is therefore a phrase of the same level. So the proof does not compare
two complete phrases. It compares a phrase that may still go on with one that is complete, and the complete one turns
out to be the other with some more operands behind it.
-/

namespace BinaryFormat

/-- The symbol that a prefix operator is written with. -/
def UnaryOp.symbol : UnaryOp → Symbol
  | neg => .minus
  | not => .not

theorem UnaryOp.symbol_injective {op op' : UnaryOp} (h : op.symbol = op'.symbol) : op = op' := by
  cases op <;> cases op' <;> first | rfl | contradiction

theorem BinaryOp.symbol_injective {op op' : BinaryOp} (h : op.symbol = op'.symbol) : op = op' :=
  Option.some.inj ((Symbol.binaryOp?_eq_some_iff.2 h).symm.trans (Symbol.binaryOp?_eq_some_iff.2 rfl))

@[simp] theorem BinaryOp.binaryOp?_symbol (op : BinaryOp) : op.symbol.binaryOp? = some op :=
  Symbol.binaryOp?_eq_some_iff.2 rfl

theorem BinaryOp.one_le_level (op : BinaryOp) : 1 ≤ op.level := by cases op <;> decide

theorem BinaryOp.level_le_ten (op : BinaryOp) : op.level ≤ 10 := by cases op <;> decide

theorem BinaryOp.level_ne_zero (op : BinaryOp) : op.level ≠ 0 := Nat.ne_of_gt op.one_le_level

/-- The operators end at level 10, so that no prefix operator and no primary is mistaken for one. -/
theorem BinaryOp.level_ne_of_lt {k : Nat} (h : 10 < k) (op : BinaryOp) : op.level ≠ k :=
  Nat.ne_of_lt (Nat.lt_of_le_of_lt op.level_le_ten h)

namespace Grammar

mutual

/-- A derivation from a level of the grammar. -/
inductive Phrase : Nat → Type where
  | tighter {k : Nat} (h : k < 12) (p : Phrase (k + 1)) : Phrase k
  | choice (condition : Phrase 1) (question : Span) (thenBranch : Phrase 0) (colon : Span)
      (elseBranch : Phrase 0) : Phrase 0
  | binary {k : Nat} (lhs : Phrase k) (op : BinaryOp) (h : op.level = k) (span : Span)
      (rhs : Phrase (k + 1)) : Phrase k
  | unary (op : UnaryOp) (span : Span) (operand : Phrase 11) : Phrase 11
  | int (value : Int64) (span : Span) : Phrase 12
  | text (value : String) (span : Span) : Phrase 12
  | name (name : String) (span : Span) : Phrase 12
  | group (opening : Span) (inner : Phrase 0) (closing : Span) : Phrase 12
  | emptyCall (name : String) (span opening closing : Span) : Phrase 12
  | call (name : String) (span opening : Span) (args : Arguments) (closing : Span) : Phrase 12
  | index (name : String) (span opening : Span) (position : Phrase 0) (closing : Span) : Phrase 12

/-- A derivation of one or more arguments. -/
inductive Arguments : Type where
  | last (p : Phrase 0)
  | more (p : Phrase 0) (comma : Span) (args : Arguments)

end

mutual

/-- The tokens that are derived. -/
def Phrase.yield : {k : Nat} → Phrase k → List Token
  | _, .tighter _ p => p.yield
  | _, .choice c q t o e => c.yield ++ ⟨.symbol .question, q⟩ :: (t.yield ++ ⟨.symbol .colon, o⟩ :: e.yield)
  | _, .binary l op _ s r => l.yield ++ ⟨.symbol op.symbol, s⟩ :: r.yield
  | _, .unary op s p => ⟨.symbol op.symbol, s⟩ :: p.yield
  | _, .int n s => [⟨.int n, s⟩]
  | _, .text t s => [⟨.text t, s⟩]
  | _, .name n s => [⟨.name n, s⟩]
  | _, .group o p c => ⟨.symbol .openParen, o⟩ :: (p.yield ++ [⟨.symbol .closeParen, c⟩])
  | _, .emptyCall n s o c => [⟨.name n, s⟩, ⟨.symbol .openParen, o⟩, ⟨.symbol .closeParen, c⟩]
  | _, .call n s o args c =>
    ⟨.name n, s⟩ :: ⟨.symbol .openParen, o⟩ :: (args.yield ++ [⟨.symbol .closeParen, c⟩])
  | _, .index n s o p c =>
    ⟨.name n, s⟩ :: ⟨.symbol .openBracket, o⟩ :: (p.yield ++ [⟨.symbol .closeBracket, c⟩])

/-- The tokens that are derived. -/
def Arguments.yield : Arguments → List Token
  | .last p => p.yield
  | .more p s args => p.yield ++ ⟨.symbol .comma, s⟩ :: args.yield

end

mutual

/-- The expression that a derivation stands for; parentheses leave no node. -/
def Phrase.tree : {k : Nat} → Phrase k → Expr
  | _, .tighter _ p => p.tree
  | _, .choice c _ t _ e => .ternary c.tree t.tree e.tree (c.tree.span.merge e.tree.span)
  | _, .binary l op _ _ r => .binary op l.tree r.tree (l.tree.span.merge r.tree.span)
  | _, .unary op s p => .unary op p.tree (s.merge p.tree.span)
  | _, .int n s => .int n s
  | _, .text t s => .text t s
  | _, .name n s => .ident n s
  | _, .group _ p _ => p.tree
  | _, .emptyCall n s _ c => .call n [] (s.merge c)
  | _, .call n s _ args c => .call n args.trees (s.merge c)
  | _, .index n s _ p c => .index n p.tree (s.merge c)

/-- The expressions that the arguments stand for. -/
def Arguments.trees : Arguments → List Expr
  | .last p => [p.tree]
  | .more p _ args => p.tree :: args.trees

end

/-- What one level derives, all looser levels derive. -/
theorem Phrase.exists_looser {j k : Nat} (p : Phrase j) (hkj : k ≤ j) (hj : j ≤ 12) :
    ∃ q : Phrase k, q.yield = p.yield ∧ q.tree = p.tree := by
  induction hkj with
  | refl => exact ⟨p, rfl, rfl⟩
  | step _ ih =>
      obtain ⟨q, hy, ht⟩ := ih (.tighter (by omega) p) (by omega)
      exact ⟨q, by rw [hy, Phrase.yield], by rw [ht, Phrase.tree]⟩

/-! ## Where a phrase ends -/

/-- A phrase of the level may go on with this token behind it. -/
def Continues (k : Nat) : Token.Kind → Prop
  | .symbol .question => k = 0
  | .symbol .openParen | .symbol .openBracket => True
  | .symbol s => ∃ op ∈ s.binaryOp?, k ≤ op.level
  | _ => False

@[simp] theorem continues_op {k : Nat} {op : BinaryOp} : Continues k (.symbol op.symbol) ↔ k ≤ op.level := by
  cases op <;> simp [Continues, BinaryOp.symbol, Symbol.binaryOp?]

@[simp] theorem continues_question {k : Nat} : Continues k (.symbol .question) ↔ k = 0 := Iff.rfl

@[simp] theorem not_continues_colon {k : Nat} : ¬Continues k (.symbol .colon) := by
  simp [Continues, Symbol.binaryOp?]

@[simp] theorem not_continues_comma {k : Nat} : ¬Continues k (.symbol .comma) := by
  simp [Continues, Symbol.binaryOp?]

@[simp] theorem not_continues_closeParen {k : Nat} : ¬Continues k (.symbol .closeParen) := by
  simp [Continues, Symbol.binaryOp?]

@[simp] theorem not_continues_closeBracket {k : Nat} : ¬Continues k (.symbol .closeBracket) := by
  simp [Continues, Symbol.binaryOp?]

/-- A phrase of the level is complete before these tokens. -/
def Stops (k : Nat) (rest : List Token) : Prop :=
  ∀ t ∈ rest.head?, ¬Continues k t.kind

/-- If a phrase of the level goes on with these tokens, then with an operator of that very level. -/
def Pauses (k : Nat) (rest : List Token) : Prop :=
  ∀ t ∈ rest.head?, Continues k t.kind → ∃ op : BinaryOp, op.level = k ∧ t.kind = .symbol op.symbol

@[simp] theorem stops_cons {k : Nat} {t : Token} {ts : List Token} :
    Stops k (t :: ts) ↔ ¬Continues k t.kind := by simp [Stops]

theorem Stops.pauses {k : Nat} {rest : List Token} (h : Stops k rest) : Pauses k rest :=
  fun t ht hc => absurd hc (h t ht)

/-- What a tight phrase goes on with, a loose one does as well. -/
theorem Continues.looser {k : Nat} {c : Token.Kind} (h : Continues (k + 1) c) : Continues k c := by
  unfold Continues at h ⊢
  split at h
  · exact absurd h (by omega)
  · trivial
  · trivial
  · obtain ⟨op, hop, hk⟩ := h
    exact ⟨op, hop, by omega⟩
  · exact h

/-- Before an operator of the level, phrases of the next level are complete. -/
theorem Pauses.stops_succ {k : Nat} {rest : List Token} (h : Pauses k rest) : Stops (k + 1) rest := by
  intro t ht hc
  obtain ⟨op, hk, hop⟩ := h t ht hc.looser
  rw [hop, continues_op] at hc
  omega

/-- Where no operator is of the level, a pause is the end. -/
theorem Pauses.stops {k : Nat} {rest : List Token} (h : Pauses k rest) (hk : ∀ op : BinaryOp, op.level ≠ k) :
    Stops k rest := by
  intro t ht hc
  obtain ⟨op, hop, -⟩ := h t ht hc
  exact hk op hop

theorem Stops.tighter {k : Nat} {rest : List Token} (h : Stops k rest) : Stops (k + 1) rest := h.pauses.stops_succ

/-! ## Operands behind a phrase -/

/-- An operator of the level with its right operand. -/
structure Link (k : Nat) where
  op : BinaryOp
  level_eq : op.level = k
  span : Span
  operand : Phrase (k + 1)

/-- The tokens of the operator and its operand. -/
def Link.yield {k : Nat} (l : Link k) : List Token := ⟨.symbol l.op.symbol, l.span⟩ :: l.operand.yield

/-- The phrase with some more operands behind it. -/
def Phrase.extend {k : Nat} (p : Phrase k) (links : List (Link k)) : Phrase k :=
  links.foldl (fun p l => .binary p l.op l.level_eq l.span l.operand) p

theorem Phrase.yield_extend {k : Nat} (p : Phrase k) (links : List (Link k)) :
    (p.extend links).yield = p.yield ++ links.flatMap Link.yield := by
  induction links generalizing p with
  | nil => simp [extend]
  | cons l links ih =>
      rw [extend, List.foldl_cons, ← extend, ih]
      simp [Phrase.yield, Link.yield]

/-- Every phrase is one without an operator of its level, with some operands behind it. -/
theorem Phrase.exists_base {k : Nat} : ∀ p : Phrase k, ∃ (b : Phrase k) (links : List (Link k)),
    p = b.extend links ∧ ∀ l op h s r, b ≠ .binary l op h s r
  | .binary l op h s r => by
      obtain ⟨b, links, hl, hb⟩ := exists_base l
      exact ⟨b, links ++ [⟨op, h, s, r⟩], by rw [hl]; simp [extend], hb⟩
  | .tighter .. | .choice .. | .unary .. | .int .. | .text .. | .name .. | .group .. | .emptyCall .. | .call ..
  | .index .. => ⟨_, [], rfl, by intros; nofun⟩

/-- A phrase of the next level is complete before further operands, and before what ends them all. -/
theorem stops_links {k : Nat} (links : List (Link k)) {rest : List Token} (h : Stops (k + 1) rest) :
    Stops (k + 1) (links.flatMap Link.yield ++ rest) := by
  cases links with
  | nil => exact h
  | cons l links =>
      rw [List.flatMap_cons, Link.yield, List.cons_append, List.cons_append, stops_cons, continues_op, l.level_eq]
      omega

/-- No operand of the level stands at the front of tokens that complete it. -/
theorem links_eq_nil {k : Nat} {links : List (Link k)} {rest rest' : List Token}
    (h : rest = links.flatMap Link.yield ++ rest') (hs : Stops k rest) : links = [] := by
  cases links with
  | nil => rfl
  | cons l links =>
      subst h
      exact absurd (continues_op.2 (Nat.le_of_eq l.level_eq.symm)) (hs _ rfl)

/-! ## Unique derivations -/

/-- Whatever complete phrase is derived of the same tokens, it is this phrase with some operands behind it. -/
def Phrase.Resolves {k : Nat} (p : Phrase k) : Prop :=
  ∀ (p' : Phrase k) (rest rest' : List Token), p.yield ++ rest = p'.yield ++ rest' → Pauses k rest →
    Stops k rest' → ∃ links : List (Link k), p' = p.extend links ∧ rest = links.flatMap Link.yield ++ rest'

/-- Two complete phrases of the same tokens are the same, and so is what follows them. -/
theorem Phrase.Resolves.eq {k : Nat} {p p' : Phrase k} {rest rest' : List Token} (hp : p.Resolves)
    (h : p.yield ++ rest = p'.yield ++ rest') (hs : Stops k rest) (hs' : Stops k rest') :
    p' = p ∧ rest = rest' := by
  obtain ⟨links, rfl, hr⟩ := hp p' rest rest' h hs.pauses hs'
  obtain rfl := links_eq_nil hr hs
  exact ⟨rfl, hr⟩

/-- No phrase begins with a closing parenthesis. -/
theorem Phrase.yield_append_ne_closeParen {k : Nat} {c : Span} {rest ts : List Token} :
    ∀ p : Phrase k, p.yield ++ rest ≠ ⟨.symbol .closeParen, c⟩ :: ts
  | .tighter _ p => by rw [yield]; exact yield_append_ne_closeParen p
  | .choice p .. => by rw [yield, List.append_assoc]; exact yield_append_ne_closeParen p
  | .binary p .. => by rw [yield, List.append_assoc]; exact yield_append_ne_closeParen p
  | .unary op .. => by cases op <;> simp [yield, UnaryOp.symbol]
  | .int .. | .text .. | .name .. | .group .. | .emptyCall .. | .call .. | .index .. => by simp [yield]

/-- Arguments begin with a phrase, and thus with no closing parenthesis. -/
theorem Arguments.yield_append_ne_closeParen {c : Span} {rest ts : List Token} (args : Arguments) :
    args.yield ++ rest ≠ ⟨.symbol .closeParen, c⟩ :: ts := by
  cases args with
  | last p => exact p.yield_append_ne_closeParen
  | more p s args => rw [yield, List.append_assoc]; exact p.yield_append_ne_closeParen

/-- No primary begins with a prefix operator. -/
theorem Phrase.yield_append_ne_prefix {p : Phrase 12} {op : UnaryOp} {s : Span} {rest ts : List Token} :
    p.yield ++ rest ≠ ⟨.symbol op.symbol, s⟩ :: ts := by
  cases p with
  | tighter h => omega
  | binary _ op' hl => exact absurd hl (op'.level_ne_of_lt (by decide))
  | _ => cases op <;> simp [yield, UnaryOp.symbol]

/-- A phrase of the next level resolves, as the operators of its own level only stand behind it. -/
theorem resolves_tighter {k : Nat} (hk : k < 12) {p : Phrase (k + 1)} (hp : p.Resolves) :
    (Phrase.tighter hk p).Resolves := by
  intro p' rest rest' h hs hs'
  obtain ⟨b, links, rfl, hb⟩ := p'.exists_base
  rw [Phrase.yield, Phrase.yield_extend, List.append_assoc] at h
  cases b with
  | tighter _ q =>
      rw [Phrase.yield] at h
      obtain ⟨rfl, hr⟩ := hp.eq h hs.stops_succ (stops_links links hs'.tighter)
      exact ⟨links, rfl, hr⟩
  | choice c q t o e =>
      -- the question mark would be behind a complete phrase
      rw [Phrase.yield, List.append_assoc] at h
      obtain ⟨-, hr⟩ := hp.eq h hs.stops_succ (by simp)
      rw [hr] at hs
      obtain ⟨op, -, hop⟩ := hs _ rfl rfl
      cases op <;> simp [BinaryOp.symbol] at hop
  | unary op s q => exact absurd h Phrase.yield_append_ne_prefix
  | binary l op hl s r => exact absurd rfl (hb l op hl s r)
  | _ => omega

/-- A choice is told from an operand by its question mark, which continues no tighter phrase. -/
theorem resolves_choice {c : Phrase 1} {t e : Phrase 0} {q o : Span} (hc : c.Resolves) (ht : t.Resolves)
    (he : e.Resolves) : (Phrase.choice c q t o e).Resolves := by
  intro p' rest rest' h hs hs'
  cases p' with
  | tighter _ p' =>
      -- the condition would be all of the other phrase, which a question mark does not complete
      simp only [Phrase.yield, List.append_assoc, List.cons_append] at h
      obtain ⟨-, rfl⟩ := hc.eq h (by simp) hs'.tighter
      exact absurd rfl (stops_cons.1 hs')
  | choice c' q' t' o' e' =>
      simp only [Phrase.yield, List.append_assoc, List.cons_append] at h
      obtain ⟨rfl, h₁⟩ := hc.eq h (by simp) (by simp)
      obtain ⟨hq, h₂⟩ := List.cons.inj h₁
      obtain ⟨rfl, h₃⟩ := ht.eq h₂ (by simp) (by simp)
      obtain ⟨ho, h₄⟩ := List.cons.inj h₃
      obtain ⟨rfl, hr⟩ := he.eq h₄ (hs.stops BinaryOp.level_ne_zero) hs'
      obtain ⟨-, rfl⟩ := Token.mk.inj hq
      obtain ⟨-, rfl⟩ := Token.mk.inj ho
      exact ⟨[], rfl, hr⟩
  | binary _ op hl => exact absurd hl op.level_ne_zero

/-- The operator pauses its left operand, so another derivation has the same operand and the same operator behind it. -/
theorem resolves_binary {k : Nat} {l : Phrase k} {op : BinaryOp} {hl : op.level = k} {s : Span}
    {r : Phrase (k + 1)} (hp : l.Resolves) (hr : r.Resolves) : (Phrase.binary l op hl s r).Resolves := by
  intro p' rest rest' h hs hs'
  rw [Phrase.yield, List.append_assoc, List.cons_append] at h
  -- the left operand is only paused by the operator, as the other derivation may have more operands behind it
  have hop : Pauses k (⟨.symbol op.symbol, s⟩ :: (r.yield ++ rest)) :=
    fun t ht _ => ⟨op, hl, by cases Option.some.inj ht; rfl⟩
  obtain ⟨links, rfl, h₁⟩ := hp p' _ rest' h hop hs'
  cases links with
  | nil =>
      obtain rfl : _ = rest' := h₁
      exact absurd (continues_op.2 (Nat.le_of_eq hl.symm)) (stops_cons.1 hs')
  | cons link links =>
      obtain ⟨op', hl', s', r'⟩ := link
      rw [List.flatMap_cons, Link.yield, List.append_assoc, List.cons_append] at h₁
      obtain ⟨ht, h₂⟩ := List.cons.inj h₁
      obtain ⟨rfl, h₃⟩ := hr.eq h₂ hs.stops_succ (stops_links links hs'.tighter)
      obtain ⟨hsym, rfl⟩ := Token.mk.inj ht
      obtain rfl := BinaryOp.symbol_injective (Token.Kind.symbol.inj hsym)
      exact ⟨links, rfl, h₃⟩

/-- A prefix operator is told from a primary by its first token. -/
theorem resolves_unary {op : UnaryOp} {s : Span} {p : Phrase 11} (hp : p.Resolves) :
    (Phrase.unary op s p).Resolves := by
  intro p' rest rest' h hs hs'
  rw [Phrase.yield, List.cons_append] at h
  cases p' with
  | tighter _ p' => exact absurd h.symm Phrase.yield_append_ne_prefix
  | binary _ op' hl => exact absurd hl (op'.level_ne_of_lt (by decide))
  | unary op' s' p' =>
      obtain ⟨ht, h₁⟩ := List.cons.inj h
      obtain ⟨rfl, hr⟩ := hp.eq h₁ (hs.stops (BinaryOp.level_ne_of_lt (by decide))) hs'
      obtain ⟨hop, rfl⟩ := Token.mk.inj ht
      obtain rfl := UnaryOp.symbol_injective (Token.Kind.symbol.inj hop)
      exact ⟨[], rfl, hr⟩

/-- Behind a primary stands no operator of its level, so it is complete. -/
theorem resolves_primary {p : Phrase 12} (hp : ∀ (p' : Phrase 12) (rest rest' : List Token),
    p.yield ++ rest = p'.yield ++ rest' → Stops 12 rest → Stops 12 rest' → p' = p ∧ rest = rest') :
    p.Resolves := by
  intro p' rest rest' h hs hs'
  obtain ⟨rfl, hr⟩ := hp p' rest rest' h (hs.stops (BinaryOp.level_ne_of_lt (by decide))) hs'
  exact ⟨[], rfl, hr⟩

/-- Whatever follows its closing parenthesis, an argument list is derived in one way. -/
def Arguments.Resolves (args : Arguments) : Prop :=
  ∀ (args' : Arguments) (c c' : Span) (rest rest' : List Token),
    args.yield ++ ⟨.symbol .closeParen, c⟩ :: rest = args'.yield ++ ⟨.symbol .closeParen, c'⟩ :: rest' →
      args' = args ∧ c' = c ∧ rest = rest'

/-- A last argument is followed by no comma. -/
theorem resolves_last {p : Phrase 0} (hp : p.Resolves) : (Arguments.last p).Resolves := by
  intro args' c c' rest rest' h
  cases args' with
  | last p' =>
      rw [Arguments.yield, Arguments.yield] at h
      obtain ⟨rfl, hr⟩ := hp.eq h (by simp) (by simp)
      obtain ⟨hc, rfl⟩ := List.cons.inj hr
      exact ⟨rfl, (Token.mk.inj hc).2.symm, rfl⟩
  | more p' s' args' =>
      simp only [Arguments.yield, List.append_assoc, List.cons_append] at h
      obtain ⟨-, hr⟩ := hp.eq h (by simp) (by simp)
      simp at hr

/-- An argument with a comma behind it is not the last one. -/
theorem resolves_more {p : Phrase 0} {s : Span} {args : Arguments} (hp : p.Resolves) (ha : args.Resolves) :
    (Arguments.more p s args).Resolves := by
  intro args' c c' rest rest' h
  cases args' with
  | last p' =>
      simp only [Arguments.yield, List.append_assoc, List.cons_append] at h
      obtain ⟨-, hr⟩ := hp.eq h (by simp) (by simp)
      simp at hr
  | more p' s' args' =>
      simp only [Arguments.yield, List.append_assoc, List.cons_append] at h
      obtain ⟨rfl, h₁⟩ := hp.eq h (by simp) (by simp)
      obtain ⟨hs, h₂⟩ := List.cons.inj h₁
      obtain ⟨rfl, hc, hr⟩ := ha args' c c' rest rest' h₂
      obtain ⟨-, rfl⟩ := Token.mk.inj hs
      exact ⟨rfl, hc, hr⟩

theorem resolves_group {p : Phrase 0} {o c : Span} (hp : p.Resolves) : (Phrase.group o p c).Resolves := by
  refine resolves_primary fun p' rest rest' h _ _ => ?_
  cases p' with
  | tighter h => omega
  | binary _ op hl => exact absurd hl (op.level_ne_of_lt (by decide))
  | group o' p' c' =>
      simp only [Phrase.yield, List.cons_append, List.append_assoc] at h
      obtain ⟨ho, h₁⟩ := List.cons.inj h
      obtain ⟨rfl, h₂⟩ := hp.eq h₁ (by simp) (by simp)
      obtain ⟨hc, hr⟩ := List.cons.inj h₂
      obtain ⟨-, rfl⟩ := Token.mk.inj ho
      obtain ⟨-, rfl⟩ := Token.mk.inj hc
      exact ⟨rfl, hr⟩
  | _ => simp [Phrase.yield] at h

theorem resolves_index {p : Phrase 0} {n : String} {s o c : Span} (hp : p.Resolves) :
    (Phrase.index n s o p c).Resolves := by
  refine resolves_primary fun p' rest rest' h _ hs' => ?_
  cases p' with
  | tighter h => omega
  | binary _ op hl => exact absurd hl (op.level_ne_of_lt (by decide))
  | index n' s' o' p' c' =>
      simp only [Phrase.yield, List.cons_append, List.append_assoc] at h
      obtain ⟨hn, h₁⟩ := List.cons.inj h
      obtain ⟨ho, h₂⟩ := List.cons.inj h₁
      obtain ⟨rfl, h₃⟩ := hp.eq h₂ (by simp) (by simp)
      obtain ⟨hc, hr⟩ := List.cons.inj h₃
      cases hn
      cases ho
      cases hc
      exact ⟨rfl, hr⟩
  -- A name alone would stop in front of the bracket, where a phrase cannot stop.
  | name =>
      rw [Phrase.yield, Phrase.yield] at h
      obtain ⟨-, rfl⟩ := List.cons.inj h
      exact absurd trivial (stops_cons.1 hs')
  | _ => simp [Phrase.yield] at h

theorem resolves_call {args : Arguments} {n : String} {s o c : Span} (ha : args.Resolves) :
    (Phrase.call n s o args c).Resolves := by
  refine resolves_primary fun p' rest rest' h _ hs' => ?_
  cases p' with
  | tighter h => omega
  | binary _ op hl => exact absurd hl (op.level_ne_of_lt (by decide))
  | call n' s' o' args' c' =>
      simp only [Phrase.yield, List.cons_append, List.append_assoc] at h
      obtain ⟨hn, h₁⟩ := List.cons.inj h
      obtain ⟨ho, h₂⟩ := List.cons.inj h₁
      obtain ⟨rfl, rfl, hr⟩ := ha args' c c' rest rest' h₂
      cases hn
      cases ho
      exact ⟨rfl, hr⟩
  -- An empty call closes at once, and no argument begins with a closing parenthesis.
  | emptyCall n' s' o' c' =>
      simp only [Phrase.yield, List.cons_append, List.append_assoc, List.cons.injEq] at h
      exact absurd h.2.2 args.yield_append_ne_closeParen
  -- A name alone would stop in front of the parenthesis, where a phrase cannot stop.
  | name =>
      rw [Phrase.yield, Phrase.yield] at h
      obtain ⟨-, rfl⟩ := List.cons.inj h
      exact absurd trivial (stops_cons.1 hs')
  | _ => simp [Phrase.yield] at h

theorem resolves_emptyCall {n : String} {s o c : Span} : (Phrase.emptyCall n s o c).Resolves := by
  refine resolves_primary fun p' rest rest' h _ hs' => ?_
  cases p' with
  | tighter h => omega
  | binary _ op hl => exact absurd hl (op.level_ne_of_lt (by decide))
  | emptyCall => simpa [Phrase.yield, eq_comm, and_assoc] using h
  | call _ _ _ args =>
      simp only [Phrase.yield, List.cons_append, List.append_assoc, List.cons.injEq] at h
      exact absurd h.2.2.symm args.yield_append_ne_closeParen
  | name =>
      rw [Phrase.yield, Phrase.yield] at h
      obtain ⟨-, rfl⟩ := List.cons.inj h
      exact absurd trivial (stops_cons.1 hs')
  | _ => simp [Phrase.yield] at h

/-- A name alone is told from a call or an index by the bracket that does not follow it. -/
theorem resolves_name {n : String} {s : Span} : (Phrase.name n s).Resolves := by
  refine resolves_primary fun p' rest rest' h hs hs' => ?_
  cases p' with
  | tighter h => omega
  | binary _ op hl => exact absurd hl (op.level_ne_of_lt (by decide))
  | name => simpa [Phrase.yield, eq_comm, and_assoc] using h
  | emptyCall | call | index =>
      -- a name is not complete before an opening bracket
      rw [Phrase.yield, Phrase.yield] at h
      obtain ⟨-, rfl⟩ := List.cons.inj h
      exact absurd trivial (stops_cons.1 hs)
  | _ => simp [Phrase.yield] at h

theorem resolves_int {n : Int64} {s : Span} : (Phrase.int n s).Resolves := by
  refine resolves_primary fun p' rest rest' h hs hs' => ?_
  cases p' with
  | tighter h => omega
  | binary _ op hl => exact absurd hl (op.level_ne_of_lt (by decide))
  | int => simpa [Phrase.yield, eq_comm, and_assoc] using h
  | _ => simp [Phrase.yield] at h

theorem resolves_text {t : String} {s : Span} : (Phrase.text t s).Resolves := by
  refine resolves_primary fun p' rest rest' h hs hs' => ?_
  cases p' with
  | tighter h => omega
  | binary _ op hl => exact absurd hl (op.level_ne_of_lt (by decide))
  | text => simpa [Phrase.yield, eq_comm, and_assoc] using h
  | _ => simp [Phrase.yield] at h

mutual

/-- Every phrase resolves, by recursion along the phrase and its arguments. -/
theorem Phrase.resolves : ∀ {k : Nat} (p : Phrase k), p.Resolves
  | _, .tighter h p => resolves_tighter h p.resolves
  | _, .choice c _ t _ e => resolves_choice c.resolves t.resolves e.resolves
  | _, .binary l _ _ _ r => resolves_binary l.resolves r.resolves
  | _, .unary _ _ p => resolves_unary p.resolves
  | _, .int .. => resolves_int
  | _, .text .. => resolves_text
  | _, .name .. => resolves_name
  | _, .group _ p _ => resolves_group p.resolves
  | _, .emptyCall .. => resolves_emptyCall
  | _, .call _ _ _ args _ => resolves_call args.resolves
  | _, .index _ _ _ p _ => resolves_index p.resolves

theorem Arguments.resolves : ∀ args : Arguments, args.Resolves
  | .last p => resolves_last p.resolves
  | .more p _ args => resolves_more p.resolves args.resolves

end

/-- The grammar is unambiguous. -/
theorem Phrase.yield_injective {k : Nat} {p p' : Phrase k} (h : p.yield = p'.yield) : p' = p := by
  have stops_nil : Stops k [] := by simp [Stops]
  exact (p.resolves.eq (by rw [h]) stops_nil stops_nil).1

end Grammar

end BinaryFormat
