import BinaryFormat.Proofs.Parsing
import BinaryFormat.Proofs.Spelling
import BinaryFormat.Expr.Printer
import BinaryFormat.Expression

/-!
# Which expressions can be read back

The written form of an expression is made for the eye: it shows how the expression was grouped. Whether it also is the
text of that expression is a question to the scanner and to the grammar, and they are asked one after the other. The
scanner finds tokens whose kinds `written` lists, or a fault. And tokens of these kinds, wherever they stand, are
derived as an operand, since the written form puts parentheses around everything that has an operator.

What is derived is not always the tree that was written. A negative integer comes from a hexadecimal numeral, is written
with a sign, and its sign is read as an operator. So the tree is known up to the integers, `respell` compares it with
the one that was written, and they are the same where no integer is negative.
-/

namespace BinaryFormat

open Token (Kind Scans Anything Spaced Delimits)

namespace Expr

/-! ## Trees without bytes -/

mutual

/-- The tree with another one for each of its integers, and no bytes. -/
def respell (int : Int64 → Expr) : Expr → Expr
  | .int n _ => int n
  | .text t _ => .text t .origin
  | .ident n _ => .ident n .origin
  | .index n i _ => .index n (i.respell int) .origin
  | .call n args _ => .call n (respellArgs int args) .origin
  | .unary op e _ => .unary op (e.respell int) .origin
  | .binary op l r _ => .binary op (l.respell int) (r.respell int) .origin
  | .ternary c t e _ => .ternary (c.respell int) (t.respell int) (e.respell int) .origin

/-- The same for the arguments of a call. -/
def respellArgs (int : Int64 → Expr) : List Expr → List Expr
  | [] => []
  | e :: es => e.respell int :: respellArgs int es

end

/-- The tree without the bytes it was read from. -/
def erase : Expr → Expr := respell (.int · .origin)

/-- What an integer is read as when it was written: a sign is an operator. -/
def reread (n : Int64) : Expr := if n < 0 then .unary .neg (.int (-n) .origin) .origin else .int n .origin

mutual

/-- The literals and names of an expression, in the order of its text. -/
def leaves : Expr → List Kind
  | .int n _ => [.int n]
  | .text t _ => [.text t]
  | .ident n _ => [.name n]
  | .index n i _ => .name n :: i.leaves
  | .call n args _ => .name n :: leavesArgs args
  | .unary _ e _ => e.leaves
  | .binary _ l r _ => l.leaves ++ r.leaves
  | .ternary c t e _ => c.leaves ++ t.leaves ++ e.leaves

/-- Those of the arguments of a call. -/
def leavesArgs : List Expr → List Kind
  | [] => []
  | e :: es => e.leaves ++ leavesArgs es

end

mutual

/-- The tokens of the written form. -/
def written : Expr → List Kind
  | .int n _ => if n < 0 then [.symbol .minus, .int (-n)] else [.int n]
  | .text t _ => [.text t]
  | .ident n _ => [.name n]
  | .index n i _ => .name n :: .symbol .openBracket :: (i.written ++ [.symbol .closeBracket])
  | .call n args _ => .name n :: .symbol .openParen :: (writtenArgs args ++ [.symbol .closeParen])
  | .unary op e _ => .symbol .openParen :: .symbol op.symbol :: (e.written ++ [.symbol .closeParen])
  | .binary op l r _ =>
    .symbol .openParen :: (l.written ++ .symbol op.symbol :: (r.written ++ [.symbol .closeParen]))
  | .ternary c t e _ => .symbol .openParen :: (c.written ++ .symbol .question :: (t.written ++ .symbol .colon ::
      (e.written ++ [.symbol .closeParen])))

/-- Those of the arguments of a call, with commas between them. -/
def writtenArgs : List Expr → List Kind
  | [] => []
  | [e] => e.written
  | e :: es => e.written ++ .symbol .comma :: writtenArgs es

end

@[simp] theorem isLegible_symbol (s : Symbol) : (Kind.symbol s).IsLegible := trivial

@[simp] theorem isLegible_name (n : String) : (Kind.name n).IsLegible := trivial

theorem legible_writtenArgs_cons {e : Expr} {es : List Expr} : (∀ k ∈ writtenArgs (e :: es), k.IsLegible) ↔
    (∀ k ∈ e.written, k.IsLegible) ∧ ∀ k ∈ writtenArgs es, k.IsLegible := by
  cases es <;> simp [writtenArgs, or_imp, forall_and]

mutual

/-- The leaves are legible if and only if nothing is wrong with the written form and no integer in it has a sign. -/
theorem legible_leaves_iff : ∀ e : Expr, (∀ k ∈ e.leaves, k.IsLegible) ↔
    (∀ k ∈ e.written, k.IsLegible) ∧ e.respell reread = e.respell (.int · .origin)
  | .int n s => by
      simp only [leaves, written, respell, reread, List.forall_mem_singleton]
      split
      · rename_i hn
        simpa [Kind.IsLegible] using hn
      · simp [Kind.IsLegible]
  | .text t s => by simp [leaves, written, respell]
  | .ident n s => by simp [leaves, written, respell]
  | .index n i s => by simp [leaves, written, respell, legible_leaves_iff i, or_imp, forall_and]
  | .call n args s => by simp [leaves, written, respell, legible_leavesArgs_iff args, or_imp, forall_and]
  | .unary op e s => by simp [leaves, written, respell, legible_leaves_iff e, or_imp, forall_and]
  | .binary op l r s => by
      simp [leaves, written, respell, legible_leaves_iff l, legible_leaves_iff r, or_imp, forall_and, and_assoc,
        and_left_comm]
  | .ternary c t e s => by
      simp [leaves, written, respell, legible_leaves_iff c, legible_leaves_iff t, legible_leaves_iff e, or_imp,
        forall_and, and_assoc, and_left_comm]

theorem legible_leavesArgs_iff : ∀ es : List Expr, (∀ k ∈ leavesArgs es, k.IsLegible) ↔
    (∀ k ∈ writtenArgs es, k.IsLegible) ∧ respellArgs reread es = respellArgs (.int · .origin) es
  | [] => by simp [leavesArgs, writtenArgs, respellArgs]
  | e :: es => by
      rw [legible_writtenArgs_cons, leavesArgs, List.forall_mem_append, legible_leaves_iff e, legible_leavesArgs_iff es]
      simp [respellArgs, and_assoc, and_left_comm]

end

/-! ## The written form is scanned -/

theorem scans_close (c : Char) (s : Symbol) (hs : ∀ rest, Token.symbol? (c :: rest) = some (s, rest)) :
    Scans Delimits [c] [.symbol s] := (Token.scans_nil.mono fun _ _ => trivial).mark c s hs

mutual

/-- The written form is scanned as the tokens that are listed, if its names are names. -/
theorem scans_render : ∀ e : Expr, (∀ k ∈ e.leaves, k.IsProper) → Scans Delimits e.render e.written
  | .int n s, _ => Token.scans_decimal n
  | .text t s, _ => (Token.scans_quoted t).mono fun _ _ => trivial
  | .ident n s, h => Token.scans_name (h _ (.head _))
  | .index n i s, h => by
      obtain ⟨hn, hi⟩ := List.forall_mem_cons.1 h
      have hclose := (scans_render i hi).then (scans_close ']' .closeBracket fun _ => rfl) rfl
      have hall := (Token.scans_name hn).then (hclose.mark '[' .openBracket fun _ => rfl) rfl
      simpa [render, written] using hall
  | .call n args s, h => by
      obtain ⟨hn, hargs⟩ := List.forall_mem_cons.1 h
      have hclose := (scans_renderArgs args hargs).then (scans_close ')' .closeParen fun _ => rfl) rfl
      have hall := (Token.scans_name hn).then (hclose.mark '(' .openParen fun _ => rfl) rfl
      simpa [render, written] using hall
  | .unary op e s, h => by
      have hclose := (scans_render e h).then (scans_close ')' .closeParen fun _ => rfl) rfl
      -- a word needs the space behind it, and the sign has none
      cases op with
      | neg =>
          have hall := (hclose.mark '-' .minus fun _ => rfl).mark '(' .openParen fun _ => rfl
          simpa [render, written, UnaryOp.symbol] using hall
      | not =>
          have hall := (hclose.operator .not).mark '(' .openParen fun _ => rfl
          simpa [render, written, UnaryOp.symbol, Symbol.text] using hall
  | .binary op l r s, h => by
      obtain ⟨hl, hr⟩ := List.forall_mem_append.1 h
      have hclose := (scans_render r hr).then (scans_close ')' .closeParen fun _ => rfl) rfl
      have hall := (scans_render l hl).then (hclose.operator op.symbol).space rfl
      simpa [render, written] using hall.mark '(' .openParen fun _ => rfl
  | .ternary c t e s, h => by
      obtain ⟨hct, he⟩ := List.forall_mem_append.1 h
      obtain ⟨hc, ht⟩ := List.forall_mem_append.1 hct
      have hclose := (scans_render e he).then (scans_close ')' .closeParen fun _ => rfl) rfl
      have hthen := (scans_render t ht).then (hclose.operator .colon).space rfl
      have hall := (scans_render c hc).then (hthen.operator .question).space rfl
      simpa [render, written, Symbol.text] using hall.mark '(' .openParen fun _ => rfl

theorem scans_renderArgs : ∀ es : List Expr, (∀ k ∈ leavesArgs es, k.IsProper) →
    Scans Delimits (renderArgs es) (writtenArgs es)
  | [], _ => Token.scans_nil.mono fun _ _ => trivial
  | [e], h => scans_render e (List.forall_mem_append.1 h).1
  | e :: e' :: es, h => by
      obtain ⟨he, hes⟩ := List.forall_mem_append.1 h
      have hall := (scans_render e he).then ((scans_renderArgs (e' :: es) hes).space.mark ',' .comma fun _ => rfl) rfl
      simpa [renderArgs, writtenArgs] using hall

end

end Expr

/-! ## The tokens of the written form are derived -/

namespace Grammar

open BinaryFormat.Expr

/-- Whatever tokens have these kinds, they are derived from the level and stand for this tree. -/
def Derives (k : Nat) (ks : List Kind) (e : Expr) : Prop :=
  ∀ ts : List Token, ts.map (·.kind) = ks → ∃ p : Phrase k, p.yield = ts ∧ p.tree.erase = e

/-- Whatever tokens have these kinds, they are derived as arguments. -/
def DerivesArgs (ks : List Kind) (es : List Expr) : Prop :=
  ∀ ts : List Token, ts.map (·.kind) = ks → ∃ args : Arguments, args.yield = ts ∧ args.trees.map erase = es

theorem exists_cons_of_kinds {ts : List Token} {k : Kind} {ks : List Kind} (h : ts.map (·.kind) = k :: ks) :
    ∃ s ts', ts = ⟨k, s⟩ :: ts' ∧ ts'.map (·.kind) = ks := by
  obtain ⟨t, ts', rfl, rfl, hts⟩ := List.map_eq_cons_iff.1 h
  exact ⟨t.span, ts', rfl, hts⟩

/-- The phrase in front of a token. -/
theorem Derives.front {j : Nat} {ks ks' : List Kind} {k : Kind} {e : Expr} {ts : List Token} (h : Derives j ks e)
    (hts : ts.map (·.kind) = ks ++ k :: ks') : ∃ (p : Phrase j) (s : Span) (ts' : List Token),
      p.tree.erase = e ∧ ts = p.yield ++ ⟨k, s⟩ :: ts' ∧ ts'.map (·.kind) = ks' := by
  obtain ⟨front, back, rfl, hfront, hback⟩ := List.map_eq_append_iff.1 hts
  obtain ⟨p, rfl, hp⟩ := h front hfront
  obtain ⟨s, ts', rfl, hts'⟩ := exists_cons_of_kinds hback
  exact ⟨p, s, ts', hp, rfl, hts'⟩

/-- What is derived on a tight level is derived on a loose one. -/
theorem Derives.looser {j k : Nat} {ks : List Kind} {e : Expr} (h : Derives j ks e) (hkj : k ≤ j) (hj : j ≤ 12) :
    Derives k ks e := by
  intro ts hts
  obtain ⟨p, hy, hp⟩ := h ts hts
  obtain ⟨q, hqy, hqt⟩ := p.exists_looser hkj hj
  exact ⟨q, hqy.trans hy, by rw [hqt, hp]⟩

/-- A token that is a phrase, wherever it stands. -/
theorem derives_token {k : Kind} {e : Expr} (p : Span → Phrase 12) (hy : ∀ s, (p s).yield = [⟨k, s⟩])
    (hp : ∀ s, (p s).tree.erase = e) : Derives 12 [k] e := by
  intro ts hts
  obtain ⟨s, ts', rfl, hnil⟩ := exists_cons_of_kinds hts
  obtain rfl := List.map_eq_nil_iff.1 hnil
  exact ⟨p s, hy s, hp s⟩

theorem derives_int (n : Int64) : Derives 12 [.int n] (.int n .origin) :=
  derives_token (.int n) (fun _ => rfl) fun _ => rfl

theorem derives_text (t : String) : Derives 12 [.text t] (.text t .origin) :=
  derives_token (.text t) (fun _ => rfl) fun _ => rfl

theorem derives_name (n : String) : Derives 12 [.name n] (.ident n .origin) :=
  derives_token (.name n) (fun _ => rfl) fun _ => rfl

theorem derives_emptyCall (n : String) :
    Derives 12 [.name n, .symbol .openParen, .symbol .closeParen] (.call n [] .origin) := by
  intro ts hts
  obtain ⟨s, ts₁, rfl, h₁⟩ := exists_cons_of_kinds hts
  obtain ⟨o, ts₂, rfl, h₂⟩ := exists_cons_of_kinds h₁
  obtain ⟨c, ts₃, rfl, h₃⟩ := exists_cons_of_kinds h₂
  obtain rfl := List.map_eq_nil_iff.1 h₃
  exact ⟨.emptyCall n s o c, rfl, rfl⟩

section

variable {ks ks' ks'' : List Kind} {e e' e'' : Expr}

theorem Derives.group (h : Derives 0 ks e) :
    Derives 12 (.symbol .openParen :: (ks ++ [.symbol .closeParen])) e := by
  intro ts hts
  obtain ⟨o, ts₁, rfl, h₁⟩ := exists_cons_of_kinds hts
  obtain ⟨p, c, ts₂, hp, rfl, h₂⟩ := h.front h₁
  obtain rfl := List.map_eq_nil_iff.1 h₂
  exact ⟨.group o p c, rfl, hp⟩

theorem Derives.index (h : Derives 0 ks e) (n : String) :
    Derives 12 (.name n :: .symbol .openBracket :: (ks ++ [.symbol .closeBracket])) (.index n e .origin) := by
  intro ts hts
  obtain ⟨s, ts₁, rfl, h₁⟩ := exists_cons_of_kinds hts
  obtain ⟨o, ts₂, rfl, h₂⟩ := exists_cons_of_kinds h₁
  obtain ⟨p, c, ts₃, hp, rfl, h₃⟩ := h.front h₂
  obtain rfl := List.map_eq_nil_iff.1 h₃
  exact ⟨.index n s o p c, rfl, by rw [← hp]; rfl⟩

theorem Derives.unary (h : Derives 11 ks e) (op : UnaryOp) :
    Derives 11 (.symbol op.symbol :: ks) (.unary op e .origin) := by
  intro ts hts
  obtain ⟨s, ts₁, rfl, h₁⟩ := exists_cons_of_kinds hts
  obtain ⟨p, rfl, hp⟩ := h ts₁ h₁
  exact ⟨.unary op s p, rfl, by rw [← hp]; rfl⟩

/-- Two operands and an operator are derived on the loosest level, whichever level the operator has. -/
theorem Derives.binary (h : Derives 11 ks e) (h' : Derives 11 ks' e') (op : BinaryOp) :
    Derives 0 (ks ++ .symbol op.symbol :: ks') (.binary op e e' .origin) := by
  -- what is derived from level 11 may stand on either side of every operator
  have hop : Derives op.level (ks ++ .symbol op.symbol :: ks') (.binary op e e' .origin) := by
    intro ts hts
    have hl := op.level_le_ten
    obtain ⟨p, s, ts₁, hp, rfl, h₁⟩ := (h.looser (k := op.level) (by omega) (by decide)).front hts
    obtain ⟨q, rfl, hq⟩ := h'.looser (k := op.level + 1) (by omega) (by decide) ts₁ h₁
    exact ⟨.binary p op rfl s q, rfl, by rw [← hp, ← hq]; rfl⟩
  exact hop.looser (Nat.zero_le _) (Nat.le_trans op.level_le_ten (by decide))

theorem Derives.ternary (h : Derives 11 ks e) (h' : Derives 11 ks' e') (h'' : Derives 11 ks'' e'') :
    Derives 0 (ks ++ .symbol .question :: (ks' ++ .symbol .colon :: ks'')) (.ternary e e' e'' .origin) := by
  intro ts hts
  obtain ⟨p, q, ts₁, hp, rfl, h₁⟩ := (h.looser (k := 1) (by decide) (by decide)).front hts
  obtain ⟨p', o, ts₂, hp', rfl, h₂⟩ := (h'.looser (k := 0) (by decide) (by decide)).front h₁
  obtain ⟨p'', rfl, hp''⟩ := h''.looser (k := 0) (by decide) (by decide) ts₂ h₂
  exact ⟨.choice p q p' o p'', rfl, by rw [← hp, ← hp', ← hp'']; rfl⟩

theorem Derives.last (h : Derives 0 ks e) : DerivesArgs ks [e] := by
  intro ts hts
  obtain ⟨p, rfl, hp⟩ := h ts hts
  exact ⟨.last p, rfl, by rw [← hp]; rfl⟩

theorem DerivesArgs.more {es : List Expr} (h : DerivesArgs ks es) (h' : Derives 0 ks' e) :
    DerivesArgs (ks' ++ .symbol .comma :: ks) (e :: es) := by
  intro ts hts
  obtain ⟨p, s, ts₁, hp, rfl, h₁⟩ := h'.front hts
  obtain ⟨args, rfl, hargs⟩ := h ts₁ h₁
  exact ⟨.more p s args, rfl, by rw [← hp, ← hargs]; rfl⟩

theorem respellArgs_eq_map (int : Int64 → Expr) (es : List Expr) : respellArgs int es = es.map (respell int) := by
  induction es with
  | nil => rfl
  | cons e es ih => rw [respellArgs, ih, List.map_cons]

/-- A call of these arguments is derived like any other primary. -/
theorem DerivesArgs.call {es : List Expr} (h : DerivesArgs ks es) (n : String) :
    Derives 12 (.name n :: .symbol .openParen :: (ks ++ [.symbol .closeParen])) (.call n es .origin) := by
  intro ts hts
  obtain ⟨s, ts₁, rfl, h₁⟩ := exists_cons_of_kinds hts
  obtain ⟨o, ts₂, rfl, h₂⟩ := exists_cons_of_kinds h₁
  obtain ⟨front, back, rfl, hfront, hback⟩ := List.map_eq_append_iff.1 h₂
  obtain ⟨args, rfl, hargs⟩ := h front hfront
  obtain ⟨c, ts₃, rfl, h₃⟩ := exists_cons_of_kinds hback
  obtain rfl := List.map_eq_nil_iff.1 h₃
  refine ⟨.call n s o args c, rfl, ?_⟩
  rw [← hargs, Phrase.tree, erase, respell, respellArgs_eq_map]

end

mutual

/-- The written form is an operand, and it is the tree in which integers have their sign as an operator. -/
theorem derives_written : ∀ e : Expr, Derives 11 e.written (e.respell reread)
  | .int n s => by
      rw [written, respell, reread]
      split
      · exact ((derives_int (-n)).looser (by decide) (by decide)).unary .neg
      · exact (derives_int n).looser (by decide) (by decide)
  | .text t s => (derives_text t).looser (by decide) (by decide)
  | .ident n s => (derives_name n).looser (by decide) (by decide)
  | .index n i s => (((derives_written i).looser (by decide) (by decide)).index n).looser (by decide) (by decide)
  | .call n [] s => (derives_emptyCall n).looser (by decide) (by decide)
  | .call n (e :: es) s => ((derivesArgs_written (e :: es) nofun).call n).looser (by decide) (by decide)
  -- Whatever has operands is written in parentheses, so it stands anywhere an operand may.
  | .unary op e s => by
      have h := (((derives_written e).unary op).looser (k := 0) (by decide) (by decide)).group
      exact h.looser (by decide) (by decide)
  | .binary op l r s => by
      have h := ((derives_written l).binary (derives_written r) op).group
      simpa [written, respell] using h.looser (k := 11) (by decide) (by decide)
  | .ternary c t e s => by
      have h := ((derives_written c).ternary (derives_written t) (derives_written e)).group
      simpa [written, respell] using h.looser (k := 11) (by decide) (by decide)

theorem derivesArgs_written : ∀ es : List Expr, es ≠ [] → DerivesArgs (writtenArgs es) (respellArgs reread es)
  | [], h => absurd rfl h
  | [e], _ => ((derives_written e).looser (by decide) (by decide)).last
  | e :: e' :: es, _ =>
    (derivesArgs_written (e' :: es) nofun).more ((derives_written e).looser (by decide) (by decide))

end

/-! ## What is read has names -/

mutual

/-- The leaves of a tree were tokens. -/
theorem Phrase.kinds_leaves : ∀ {k : Nat} (p : Phrase k), ∀ x ∈ p.tree.leaves, x ∈ p.yield.map (·.kind)
  | _, .tighter _ p => p.kinds_leaves
  | _, .choice c _ t _ e => fun x hx => by
      have hc := c.kinds_leaves x
      have ht := t.kinds_leaves x
      have he := e.kinds_leaves x
      simp only [Phrase.tree, leaves, Phrase.yield, List.map_append, List.map_cons, List.mem_append,
        List.mem_cons] at hx ⊢
      grind
  | _, .binary l op _ _ r => fun x hx => by
      have hl := l.kinds_leaves x
      have hr := r.kinds_leaves x
      simp only [Phrase.tree, leaves, Phrase.yield, List.map_append, List.map_cons, List.mem_append,
        List.mem_cons] at hx ⊢
      grind
  | _, .unary op s p => fun x hx => List.mem_cons_of_mem _ (p.kinds_leaves x hx)
  | _, .int .. | _, .text .. | _, .name .. | _, .emptyCall .. => by simp [Phrase.tree, Phrase.yield, leaves, leavesArgs]
  | _, .group o p c => fun x hx => by
      have hp := p.kinds_leaves x hx
      simp only [Phrase.yield, List.map_append, List.map_cons, List.mem_append, List.mem_cons]
      exact .inr (.inl hp)
  | _, .call n s o args c => fun x hx => by
      have ha := args.kinds_leaves x
      simp only [Phrase.tree, leaves, Phrase.yield, List.map_append, List.map_cons, List.mem_append,
        List.mem_cons] at hx ⊢
      grind
  | _, .index n s o p c => fun x hx => by
      have hp := p.kinds_leaves x
      simp only [Phrase.tree, leaves, Phrase.yield, List.map_append, List.map_cons, List.mem_append,
        List.mem_cons] at hx ⊢
      grind

theorem Arguments.kinds_leaves : ∀ args : Arguments, ∀ x ∈ leavesArgs args.trees, x ∈ args.yield.map (·.kind)
  | .last p => by simpa [Arguments.trees, Arguments.yield, leavesArgs] using p.kinds_leaves
  | .more p s args => fun x hx => by
      have hp := p.kinds_leaves x
      have ha := args.kinds_leaves x
      simp only [Arguments.trees, leavesArgs, Arguments.yield, List.map_append, List.map_cons, List.mem_append,
        List.mem_cons] at hx ⊢
      grind

end

/-- The tokens before the end are all but the last. -/
theorem body_append_finish {ts : List Token} (h : ∀ t ∈ ts, t.kind ≠ .finish) (s : Span) :
    Parser.body (ts ++ [⟨.finish, s⟩]) = ts := by
  rw [Parser.body, List.takeWhile_append_of_pos (by simpa using h)]
  simp

/-- Tokens that are derived, and the end token. -/
theorem ofTokens_finish {ts : List Token} (h : ∀ t ∈ ts, t.kind ≠ .finish) (s : Span) (e : Expr) :
    Expr.ofTokens (ts ++ [⟨.finish, s⟩]) = .ok e ↔ ∃ p : Phrase 0, p.yield = ts ∧ p.tree = e := by
  rw [Expr.ofTokens, Parser.run_eq_ok_iff, body_append_finish h]
  constructor
  · rintro ⟨s, held, hr, hh, hs⟩
    have h₀ := ((follows_reads (.wanting .bottom) hr).held hh).settle (by decide)
    rw [hs] at h₀
    exact h₀.exists_phrase
  · rintro ⟨p, rfl, rfl⟩
    obtain ⟨s, h, hr, hh, hc⟩ := p.read [] (fun _ => trivial)
    exact ⟨s, h, hr, hh, hc⟩

end Grammar

namespace Text

/-- A text without blanks at its ends. -/
theorem trim_eq_self {cs : List Char} (hhead : ∀ c ∈ cs.head?, isBlank c = false)
    (hlast : ∀ c ∈ cs.getLast?, isBlank c = false) : trim cs = cs := by
  have hfront : ([] ++ cs).dropWhile isBlank = cs := dropWhile_append nofun hhead
  have hend : dropEndWhile isBlank (cs ++ []) = cs := dropEndWhile_append hlast nofun
  rw [List.nil_append] at hfront
  rw [List.append_nil] at hend
  rw [trim, hfront, hend]

end Text

namespace Expr

/-- A character that a written form may begin or end with. -/
def IsEdge (c : Char) : Prop := Token.isNameRest c = true ∨ c ∈ ['-', '\'', '(', ')', ']']

theorem IsEdge.isBlank_eq_false {c : Char} (h : IsEdge c) : Text.isBlank c = false := by
  rcases h with h | h
  · have hc := Token.toNat_of_isNameRest h
    simp only [Text.isBlank, Bool.or_eq_false_iff, Bool.and_eq_false_iff, decide_eq_false_iff_not, beq_eq_false_iff_ne]
    omega
  · exact Token.forall_mem_of_all (P := fun c => Text.isBlank c = false) rfl c h

theorem IsEdge.ne_brace {c : Char} (h : IsEdge c) : c ≠ '\x7b' := by
  rcases h with h | h
  · exact Token.ne_of_isNameRest h rfl
  · exact Token.forall_mem_of_all (P := (· ≠ '\x7b')) rfl c h

/-- A written form may begin or end with any character of a decimal numeral, its sign included. -/
theorem isEdge_decimal (n : Int) : ∀ c ∈ Numeral.decimal n, IsEdge c := by
  have hdigit : ∀ c ∈ Nat.toDigits 10 n.natAbs, IsEdge c := fun c hc =>
    .inl (Token.isNameRest_of_isDigit (Numeral.isDigit_of_mem_toDigits c hc))
  intro c hc
  rw [Numeral.decimal] at hc
  split at hc
  · rcases List.mem_cons.1 hc with rfl | hc
    · exact .inr (by decide)
    · exact hdigit c hc
  · exact hdigit c hc

/-- A written form begins and ends with such characters. -/
theorem isEdge_render {e : Expr} (h : ∀ k ∈ e.leaves, k.IsProper) :
    (∀ c ∈ e.render.head?, IsEdge c) ∧ ∀ c ∈ e.render.getLast?, IsEdge c := by
  have every : ∀ {cs : List Char}, (∀ c ∈ cs, IsEdge c) →
      (∀ c ∈ cs.head?, IsEdge c) ∧ ∀ c ∈ cs.getLast?, IsEdge c := fun hcs =>
    ⟨fun c hc => hcs c (List.mem_of_head? hc), fun c hc => hcs c (List.mem_of_getLast? hc)⟩
  -- every form but that of an integer or a name begins and ends with a character that can be told
  have ends : ∀ {c d : Char} {cs mid : List Char}, cs = c :: mid ++ [d] → IsEdge c → IsEdge d →
      (∀ c ∈ cs.head?, IsEdge c) ∧ ∀ c ∈ cs.getLast?, IsEdge c := by
    rintro c d _ mid rfl hc hd
    refine ⟨fun x hx => ?_, fun x hx => ?_⟩
    · obtain rfl := Option.some.inj hx
      exact hc
    · rw [List.getLast?_concat] at hx
      obtain rfl := Option.some.inj hx
      exact hd
  have hopen : IsEdge '(' := .inr (by decide)
  have hclose : IsEdge ')' := .inr (by decide)
  cases e with
  | int n s => exact every (isEdge_decimal _)
  | text t s => exact ends rfl (.inr (by decide)) (.inr (by decide))
  | ident n s =>
      obtain ⟨c, cs, hcons, hc, hcs, -⟩ := h _ (.head _)
      rw [render, hcons]
      exact every (List.forall_mem_cons.2 ⟨.inl (Token.isNameRest_of_isNameStart hc), fun d hd => .inl (hcs d hd)⟩)
  | index n i s =>
      obtain ⟨c, cs, hcons, hc, -, -⟩ := h _ (.head _)
      rw [render, hcons]
      exact ends rfl (.inl (Token.isNameRest_of_isNameStart hc)) (.inr (by decide))
  | call n args s =>
      obtain ⟨c, cs, hcons, hc, -, -⟩ := h _ (.head _)
      rw [render, hcons]
      exact ends rfl (.inl (Token.isNameRest_of_isNameStart hc)) hclose
  | unary op e s =>
      cases op with
      | neg => exact ends rfl hopen hclose
      | not => exact ends rfl hopen hclose
  | binary op l r s => exact ends rfl hopen hclose
  | ternary c t e s => exact ends rfl hopen hclose

/-- The written form has no braces and no padding that would be taken off. -/
theorem stripBraces_render {e : Expr} (h : ∀ k ∈ e.leaves, k.IsProper) : (stripBraces e.render).1 = e.render := by
  obtain ⟨hhead, hlast⟩ := isEdge_render h
  have htrim := Text.trim_eq_self (fun c hc => (hhead c hc).isBlank_eq_false) fun c hc => (hlast c hc).isBlank_eq_false
  rw [stripBraces, htrim]
  split
  · rename_i r hr
    exact absurd rfl (hhead '\x7b' (by rw [hr]; rfl)).ne_brace
  · rfl

/-- The tokens in front of the end token. -/
theorem isProper_of_scan? {cs : List Char} {ts : List Token} {sp : Span} {fs : List Token.Fault}
    (h : Token.scan? 0 cs = some ⟨ts ++ [⟨.finish, sp⟩], fs⟩) : ∀ t ∈ ts, t.kind.IsProper := by
  obtain ⟨ts', hl, hts⟩ := Token.lays_of_scan? h
  obtain ⟨rfl, -⟩ := List.append_inj' hts rfl
  intro t ht
  obtain ⟨-, -, -, -, -, -, hk, -⟩ := hl.lexeme t ht
  exact hk

/-- A text is an expression if its scan has no fault and its tokens are derived. -/
theorem ofText_eq_ok_iff {cs : List Char} {e : Expr} : ofText cs = .ok e ↔
    ∃ ts s, Token.scan? 0 cs = some ⟨ts ++ [⟨.finish, s⟩], []⟩ ∧ ∃ p : Grammar.Phrase 0, p.yield = ts ∧ p.tree = e := by
  have hread : ∀ {ts s fs}, Token.scan? 0 cs = some ⟨ts ++ [⟨.finish, s⟩], fs⟩ →
      (ofTokens (ts ++ [⟨.finish, s⟩]) = .ok e ↔ ∃ p : Grammar.Phrase 0, p.yield = ts ∧ p.tree = e) := fun h =>
    Grammar.ofTokens_finish (fun t ht => Kind.IsProper.ne_finish (isProper_of_scan? h t ht)) _ e
  constructor
  · intro h
    rw [ofText] at h
    split at h
    · cases h
    · rename_i s hs
      split at h
      · rename_i hf
        obtain ⟨tokens, faults⟩ := s
        obtain rfl : faults = [] := hf
        obtain ⟨ts, -, hts⟩ := Token.lays_of_scan? hs
        obtain rfl : tokens = _ := hts
        cases ht : ofTokens (ts ++ [⟨.finish, _⟩]) with
        | error u =>
            rw [ht] at h
            cases h
        | ok e' =>
            rw [ht] at h
            obtain rfl := Except.ok.inj h
            exact ⟨ts, _, hs, (hread hs).1 ht⟩
      · cases h
  · -- The end token is the last one of every scan, so what is derived is all in front of it.
    rintro ⟨ts, s, hs, hp⟩
    rw [ofText, hs]
    dsimp only
    rw [if_pos rfl, (hread hs).2 hp]
    rfl

/-- What is read as an expression has the names of one. -/
theorem isProper_of_ofText {cs : List Char} {e : Expr} (h : ofText cs = .ok e) : ∀ k ∈ e.leaves, k.IsProper := by
  obtain ⟨ts, s, hs, p, rfl, rfl⟩ := ofText_eq_ok_iff.1 h
  intro k hk
  obtain ⟨t, ht, rfl⟩ := List.mem_map.1 (p.kinds_leaves k hk)
  exact isProper_of_scan? hs t ht

/-- The written form is an expression if nothing in it is illegible, and it has the same tree but for the signs. -/
theorem ofText_render_iff {e t : Expr} (h : ∀ k ∈ e.leaves, k.IsProper) :
    (∃ e', ofText e.render = .ok e' ∧ e'.erase = t) ↔ (∀ k ∈ e.written, k.IsLegible) ∧ e.respell reread = t := by
  obtain ⟨pos, ts, fs, hscan, hfs, hts⟩ := scans_render e h 0 [] Token.delimits_nil
  rw [List.append_nil, Token.scan?, Option.map_some, List.append_nil] at hscan
  have hderives := (Grammar.derives_written e).looser (Nat.zero_le 11) (by decide)
  -- the tokens are derived in one way at most, so the tree that is read is the one that is known to be derived
  constructor
  · rintro ⟨e', he, rfl⟩
    obtain ⟨ts', s, hs, p, rfl, rfl⟩ := ofText_eq_ok_iff.1 he
    obtain ⟨hts', rfl⟩ := Token.Scan.mk.inj (Option.some.inj (hscan.symm.trans hs))
    obtain ⟨rfl, -⟩ := List.append_inj' hts' rfl
    obtain ⟨q, hy, hq⟩ := hderives p.yield (hts rfl)
    obtain rfl := Grammar.Phrase.yield_injective hy
    exact ⟨hfs.1 rfl, hq.symm⟩
  · rintro ⟨hw, rfl⟩
    obtain rfl := hfs.2 hw
    obtain ⟨p, hy, hp⟩ := hderives ts (hts rfl)
    exact ⟨p.tree, ofText_eq_ok_iff.2 ⟨ts, _, hscan, p, hy, rfl⟩, hp⟩

/-- **What the written form keeps.** The written form of an expression that was read is read as the same tree, bytes
aside, if and only if no integer in it is negative and its texts consist of tabs, line breaks and printable ASCII
characters other than the double quote. -/
theorem ofSource_render_iff {source : String} {e : Expr} (h : ofSource source = .ok e) :
    (∃ e', ofSource (String.ofList e.render) = .ok e' ∧ e'.erase = e.erase) ↔
      (∀ n, .int n ∈ e.leaves → 0 ≤ n) ∧
        ∀ t, .text t ∈ e.leaves → ∀ c ∈ t.toList, c = '\t' ∨ c = '\n' ∨ c = '\r' ∨
          (0x20 ≤ c.toNat ∧ c.toNat ≤ 0x7e ∧ c ≠ '"') := by
  have hproper := isProper_of_ofText h
  have hleaves : (∀ k ∈ e.leaves, k.IsLegible) ↔ (∀ n, .int n ∈ e.leaves → 0 ≤ n) ∧
      ∀ t, .text t ∈ e.leaves → ∀ c ∈ t.toList, Token.IsLegible c := by
    constructor
    · exact fun h => ⟨fun n hn => h _ hn, fun t ht => h _ ht⟩
    · rintro ⟨hint, htext⟩ k hk
      cases k with
      | int n => exact hint n hk
      | text t => exact htext t hk
      | _ => trivial
  rw [ofSource, String.toList_ofList, stripBraces_render hproper, ofText_render_iff hproper, erase,
    ← legible_leaves_iff, hleaves]
  rfl

/-- The tree of `-n + pick(0x10, m)`. -/
def picked : Expr :=
  .binary .add (.unary .neg (.ident "n" ⟨1, 2⟩) ⟨0, 2⟩) (.call "pick" [.int 16 ⟨10, 14⟩, .ident "m" ⟨16, 17⟩] ⟨5, 18⟩)
    ⟨0, 18⟩

/-- The tokens of the expression above, braces stripped. -/
theorem scan?_picked : Token.scan? 0 (stripBraces "{-n + pick(0x10, m)}".toList).1 =
    some ⟨[⟨.symbol .minus, ⟨0, 1⟩⟩, ⟨.name "n", ⟨1, 2⟩⟩, ⟨.symbol .plus, ⟨3, 4⟩⟩, ⟨.name "pick", ⟨5, 9⟩⟩,
      ⟨.symbol .openParen, ⟨9, 10⟩⟩, ⟨.int 16, ⟨10, 14⟩⟩, ⟨.symbol .comma, ⟨14, 15⟩⟩, ⟨.name "m", ⟨16, 17⟩⟩,
      ⟨.symbol .closeParen, ⟨17, 18⟩⟩, ⟨.finish, ⟨18, 18⟩⟩], []⟩ := by
  decide +kernel

/-- It is written with parentheses and in decimal digits, and read as the same tree. -/
theorem ofSource_render_picked : ofSource "{-n + pick(0x10, m)}" = .ok picked ∧
    ∃ e', ofSource "((-n) + pick(16, m))" = .ok e' ∧ e'.erase = picked.erase := by
  have hread : ofSource "{-n + pick(0x10, m)}" = .ok picked := by
    unfold ofSource ofText
    rw [scan?_picked]
    rfl
  have hleaves : picked.leaves = [.name "n", .name "pick", .int 16, .name "m"] := rfl
  have hint : ∀ n, Token.Kind.int n ∈ picked.leaves → 0 ≤ n := by
    intro n hn
    simp only [hleaves, List.mem_cons, List.not_mem_nil, or_false, false_or, reduceCtorEq, Token.Kind.int.injEq] at hn
    rw [hn]
    decide
  have htext : ∀ t, Token.Kind.text t ∉ picked.leaves := by
    intro t ht
    simp only [hleaves, List.mem_cons, List.not_mem_nil, or_false, reduceCtorEq] at ht
  exact ⟨hread, (ofSource_render_iff hread).2 ⟨hint, fun t ht => absurd ht (htext t)⟩⟩

end Expr

end BinaryFormat
