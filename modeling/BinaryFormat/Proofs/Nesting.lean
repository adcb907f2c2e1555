import Mathlib.Data.List.Pairwise
import BinaryFormat.Proofs.Rendering

/-!
# Where the nodes of a tree stand

The scanner leaves its tokens in a row: none is empty, and each ends before the next begins. A phrase takes a segment
of that row, and its tree begins where one of the segment's tokens begins and ends where one of them ends, though not
always with the outermost ones, as parentheses do not count.

So a segment can be replaced by the bytes of its tree and the row is still a row. Once this is done for all the
operands of a phrase, they stand in a row with the operators and brackets between them, and the bytes of the new node
reach from the first of that row to the last. The induction over derivations is this step at every node.
-/

namespace BinaryFormat

namespace Span

/-- None of the ranges is empty, and each ends before the next begins. -/
structure Row (ss : List Span) : Prop where
  nonempty : ∀ s ∈ ss, s.start < s.stop
  ordered : ss.Pairwise fun s t => s.stop ≤ t.start

/-- The range begins where one of these begins and ends where one of them ends. -/
structure Within (ss : List Span) (s : Span) : Prop where
  begins : ∃ a ∈ ss, a.start = s.start
  ends : ∃ b ∈ ss, b.stop = s.stop

/-- Ranges may be left out of a row. -/
theorem Row.sublist {rs ss : List Span} (h : Row ss) (hs : rs.Sublist ss) : Row rs :=
  ⟨fun s hr => h.nonempty s (hs.subset hr), h.ordered.sublist hs⟩

theorem Row.left {rs ss : List Span} (h : Row (rs ++ ss)) : Row rs := h.sublist (List.sublist_append_left ..)

theorem Row.right {rs ss : List Span} (h : Row (rs ++ ss)) : Row ss := h.sublist (List.sublist_append_right ..)

theorem Within.mono {rs ss : List Span} {s : Span} (h : Within rs s) (hs : rs ⊆ ss) : Within ss s := by
  obtain ⟨⟨a, ha, hstart⟩, b, hb, hstop⟩ := h
  exact ⟨⟨a, hs ha, hstart⟩, b, hs hb, hstop⟩

theorem Within.of_mem {ss : List Span} {s : Span} (h : s ∈ ss) : Within ss s := ⟨⟨s, h, rfl⟩, s, h, rfl⟩

/-- A segment of a row may be replaced by a range within it. -/
theorem Row.collapse {front ss back : List Span} {s : Span} (h : Row (front ++ (ss ++ back))) (hs : Within ss s)
    (hne : s.start < s.stop) : Row (front ++ s :: back) := by
  obtain ⟨⟨a, ha, hstart⟩, b, hb, hstop⟩ := hs
  obtain ⟨hfront, htail, hcross⟩ := List.pairwise_append.1 h.ordered
  obtain ⟨-, hback, hbehind⟩ := List.pairwise_append.1 htail
  constructor
  · intro t ht
    rcases List.mem_append.1 ht with ht | ht
    · exact h.nonempty t (List.mem_append_left _ ht)
    · rcases List.mem_cons.1 ht with rfl | ht
      · exact hne
      · exact h.right.right.nonempty t ht
  · refine List.pairwise_append.2 ⟨hfront, .cons (fun t ht => hstop ▸ hbehind b hb t ht) hback, fun t ht u hu => ?_⟩
    rcases List.mem_cons.1 hu with rfl | hu
    · exact hstart ▸ hcross t ht a (List.mem_append_left _ ha)
    · exact hcross t ht u (List.mem_append_right _ hu)

section

variable {first last : Span} {mid : List Span}

/-- The first and the last of a row together reach from the start of the one to the end of the other. -/
theorem Row.merge_eq (h : Row (first :: (mid ++ [last]))) : first.merge last = ⟨first.start, last.stop⟩ := by
  have hends := (List.pairwise_cons.1 h.ordered).1 last (by simp)
  have hfirst := h.nonempty first (.head _)
  have hlast := h.nonempty last (by simp)
  rw [merge, Nat.min_eq_left (by omega), Nat.max_eq_right (by omega)]

/-- The first and the last of a row together cover all of it. -/
theorem Row.covers (h : Row (first :: (mid ++ [last]))) :
    ∀ s ∈ first :: (mid ++ [last]), (first.merge last).Covers s := by
  obtain ⟨hfirst, -⟩ := List.pairwise_cons.1 h.ordered
  have hlast : ∀ s ∈ first :: mid, s.stop ≤ last.start := fun s hs =>
    (List.pairwise_append.1 (show List.Pairwise _ ((first :: mid) ++ [last]) from h.ordered)).2.2 s hs last (.head _)
  intro s hs
  rw [h.merge_eq]
  constructor
  · rcases List.mem_cons.1 hs with rfl | hs
    · exact Nat.le_refl _
    · exact Nat.le_trans (Nat.le_of_lt (h.nonempty first (.head _))) (hfirst s hs)
  · rcases List.mem_append.1 (show s ∈ (first :: mid) ++ [last] from hs) with hs | hs
    · exact Nat.le_trans (hlast s hs) (Nat.le_of_lt (h.nonempty last (by simp)))
    · obtain rfl := List.mem_singleton.1 hs
      exact Nat.le_refl _

end

end Span

namespace Token

/-- The bytes that the tokens were read from. -/
def spans (ts : List Token) : List Span := ts.map (·.span)

@[simp] theorem spans_nil : spans [] = [] := rfl

@[simp] theorem spans_cons (k : Kind) (s : Span) (ts : List Token) : spans (⟨k, s⟩ :: ts) = s :: spans ts := rfl

@[simp] theorem spans_append (ts us : List Token) : spans (ts ++ us) = spans ts ++ spans us := List.map_append

theorem spans_subset {ts us : List Token} (h : ts ⊆ us) : spans ts ⊆ spans us := List.map_subset _ h

/-- Of tokens in a row, no two share a byte. -/
theorem apart_of_ne {ts : List Token} (h : ts.Pairwise fun t u => t.span.stop ≤ u.span.start) {t u : Token}
    (ht : t ∈ ts) (hu : u ∈ ts) (hne : u ≠ t) : u.span.Apart t.span := by
  have : Std.Symm fun t u : Token => t.span.Apart u.span := ⟨fun _ _ => Or.symm⟩
  have hapart : ts.Pairwise fun t u => t.span.Apart u.span := h.imp .inl
  exact hapart.forall hu ht hne

end Token

namespace Expr

/-- The expressions directly below a node, in the order in which they are written. -/
def operands : Expr → List Expr
  | int .. | text .. | ident .. => []
  | index _ position _ => [position]
  | call _ args _ => args
  | unary _ operand _ => [operand]
  | binary _ lhs rhs _ => [lhs, rhs]
  | ternary condition thenBranch elseBranch _ => [condition, thenBranch, elseBranch]

/-- A node of a tree is the tree itself or a node of one of its operands. -/
inductive HasNode : Expr → Expr → Prop where
  | root {e : Expr} : HasNode e e
  | operand {e o n : Expr} : o ∈ e.operands → HasNode o n → HasNode e n

/-- The token that an integer, a text or an identifier was read from. -/
def token? : Expr → Option Token
  | int value span => some ⟨.int value, span⟩
  | text value span => some ⟨.text value, span⟩
  | ident name span => some ⟨.name name, span⟩
  | _ => none

/-- What was read from one token has its bytes and no operands. -/
theorem span_of_token? {e : Expr} {t : Token} (h : e.token? = some t) : t.span = e.span ∧ e.operands = [] := by
  cases e <;> simp only [token?, Option.some.injEq, reduceCtorEq] at h <;> exact h ▸ ⟨rfl, rfl⟩

/-- Where a node stands that was read from among these tokens. -/
structure Placed (ts : List Token) (n : Expr) : Prop where
  nonempty : n.span.start < n.span.stop
  within : n.span.Within (Token.spans ts)
  covers : ∀ o ∈ n.operands, n.span.Covers o.span
  /-- The operands stand in the order of the text and share no byte. -/
  ordered : n.operands.Pairwise fun a b => a.span.stop ≤ b.span.start
  token : ∀ t ∈ n.token?, t ∈ ts

/-- Every node of the tree was read from among these tokens. -/
def Drawn (ts : List Token) (e : Expr) : Prop := ∀ n, e.HasNode n → Placed ts n

variable {ts us : List Token} {e : Expr}

/-- A node keeps its place when there are more tokens around it. -/
theorem Placed.mono {n : Expr} (h : Placed ts n) (hs : ts ⊆ us) : Placed us n :=
  { h with within := h.within.mono (Token.spans_subset hs), token := fun t ht => hs (h.token t ht) }

theorem Drawn.mono (h : Drawn ts e) (hs : ts ⊆ us) : Drawn us e := fun n hn => (h n hn).mono hs

/-- A tree is drawn from tokens if its root is placed among them and its operands are drawn from them. -/
theorem Drawn.intro (h : Placed ts e) (hops : ∀ o ∈ e.operands, Drawn ts o) : Drawn ts e := by
  intro n hn
  cases hn with
  | root => exact h
  | operand ho hn => exact hops _ ho n hn

/-- A node whose operands stand in a row that begins and ends with what the node begins and ends with. -/
theorem drawn_node {first last : Span} (mid : List Span) (hspan : e.span = first.merge last) (htoken : e.token? = none)
    (hrow : Span.Row (first :: (mid ++ [last])))
    (hops : (e.operands.map span).Sublist (first :: (mid ++ [last]))) (hfirst : first.Within (Token.spans ts))
    (hlast : last.Within (Token.spans ts)) (hdrawn : ∀ o ∈ e.operands, Drawn ts o) : Drawn ts e := by
  have hcovers := hrow.covers
  rw [← hspan] at hcovers
  have hmerge := hspan.trans hrow.merge_eq
  refine .intro ⟨?_, ⟨?_, ?_⟩, ?_, ?_, by simp [htoken]⟩ hdrawn
  · obtain ⟨hstart, hstop⟩ := hcovers first (.head _)
    have hne := hrow.nonempty first (.head _)
    omega
  · rw [hmerge]
    exact hfirst.begins
  · rw [hmerge]
    exact hlast.ends
  · exact fun o ho => hcovers _ (hops.subset (List.mem_map_of_mem ho))
  · exact List.pairwise_map.1 (hrow.ordered.sublist hops)

/-- What was read from one token is drawn from that token. -/
theorem drawn_leaf {t : Token} (h : e.token? = some t) (hne : t.span.start < t.span.stop) : Drawn [t] e := by
  obtain ⟨hspan, hops⟩ := span_of_token? h
  refine .intro ⟨hspan ▸ hne, hspan ▸ .of_mem (.head _), ?_, ?_, ?_⟩ ?_
  · simp [hops]
  · simp [hops]
  · simp [h]
  · simp [hops]

end Expr

namespace Grammar

/-- If the tokens of the phrase are in a row, its tree is drawn from them. -/
def Phrase.Draws {k : Nat} (p : Phrase k) : Prop := Span.Row (Token.spans p.yield) → Expr.Drawn p.yield p.tree

/-- The bytes of its tree may take the place of a phrase in a row. -/
theorem Phrase.Draws.collapse {k : Nat} {p : Phrase k} (hp : p.Draws) (front back : List Span)
    (h : Span.Row (front ++ (Token.spans p.yield ++ back))) :
    Expr.Drawn p.yield p.tree ∧ Span.Row (front ++ p.tree.span :: back) := by
  have hdrawn := hp h.right.left
  have hroot := hdrawn _ .root
  exact ⟨hdrawn, h.collapse hroot.within hroot.nonempty⟩

/-- The bytes of their trees may take the place of the arguments in a row, and the trees are drawn from them. -/
def Arguments.Draws (args : Arguments) : Prop :=
  ∀ front back : List Span, Span.Row (front ++ (Token.spans args.yield ++ back)) →
    (∀ e ∈ args.trees, Expr.Drawn args.yield e) ∧ Span.Row (front ++ (args.trees.map Expr.span ++ back))

/-- A choice reaches from its condition to the end of its second branch. -/
theorem draws_choice {c : Phrase 1} {t e : Phrase 0} {q o : Span} (hc : c.Draws) (ht : t.Draws) (he : e.Draws) :
    (Phrase.choice c q t o e).Draws := by
  intro h
  -- from the left to the right, the operands give way to their bytes
  obtain ⟨hc, h⟩ := hc.collapse [] _ (by simpa [Phrase.yield] using h)
  obtain ⟨ht, h⟩ := ht.collapse [c.tree.span, q] _ h
  obtain ⟨he, h⟩ := he.collapse [c.tree.span, q, t.tree.span, o] [] (by simpa using h)
  have hc : Expr.Drawn (Phrase.choice c q t o e).yield c.tree := hc.mono fun x hx => by simp [Phrase.yield, hx]
  have ht : Expr.Drawn (Phrase.choice c q t o e).yield t.tree := ht.mono fun x hx => by simp [Phrase.yield, hx]
  have he : Expr.Drawn (Phrase.choice c q t o e).yield e.tree := he.mono fun x hx => by simp [Phrase.yield, hx]
  exact Expr.drawn_node [q, t.tree.span, o] rfl rfl h (by simp [Phrase.tree, Expr.operands]) (hc _ .root).within
    (he _ .root).within (by simp [Phrase.tree, Expr.operands, hc, ht, he])

/-- A node of an operator reaches from its left operand to its right one. -/
theorem draws_binary {k : Nat} {l : Phrase k} {op : BinaryOp} {hl : op.level = k} {s : Span} {r : Phrase (k + 1)}
    (hp : l.Draws) (hr : r.Draws) : (Phrase.binary l op hl s r).Draws := by
  intro h
  obtain ⟨hp, h⟩ := hp.collapse [] _ (by simpa [Phrase.yield] using h)
  obtain ⟨hr, h⟩ := hr.collapse [l.tree.span, s] [] (by simpa using h)
  have hp : Expr.Drawn (Phrase.binary l op hl s r).yield l.tree := hp.mono fun x hx => by simp [Phrase.yield, hx]
  have hr : Expr.Drawn (Phrase.binary l op hl s r).yield r.tree := hr.mono fun x hx => by simp [Phrase.yield, hx]
  exact Expr.drawn_node [s] rfl rfl h (by simp [Phrase.tree, Expr.operands]) (hp _ .root).within (hr _ .root).within
    (by simp [Phrase.tree, Expr.operands, hp, hr])

/-- A node of a prefix operator reaches from the operator to the end of its operand. -/
theorem draws_unary {op : UnaryOp} {s : Span} {p : Phrase 11} (hp : p.Draws) : (Phrase.unary op s p).Draws := by
  intro h
  obtain ⟨hp, h⟩ := hp.collapse [s] [] (by simpa [Phrase.yield] using h)
  have hp : Expr.Drawn (Phrase.unary op s p).yield p.tree := hp.mono fun x hx => by simp [Phrase.yield, hx]
  exact Expr.drawn_node [] rfl rfl h (by simp [Phrase.tree, Expr.operands]) (.of_mem (by simp [Phrase.yield]))
    (hp _ .root).within (by simp [Phrase.tree, Expr.operands, hp])

/-- Parentheses stand in the row, but not in the tree. -/
theorem draws_group {p : Phrase 0} {o c : Span} (hp : p.Draws) : (Phrase.group o p c).Draws := by
  intro h
  obtain ⟨hp, -⟩ := hp.collapse [o] [c] (by simpa [Phrase.yield] using h)
  exact hp.mono fun x hx => by simp [Phrase.yield, hx]

theorem draws_index {p : Phrase 0} {n : String} {s o c : Span} (hp : p.Draws) : (Phrase.index n s o p c).Draws := by
  intro h
  obtain ⟨hp, h⟩ := hp.collapse [s, o] [c] (by simpa [Phrase.yield] using h)
  have hp : Expr.Drawn (Phrase.index n s o p c).yield p.tree := hp.mono fun x hx => by simp [Phrase.yield, hx]
  exact Expr.drawn_node [o, p.tree.span] rfl rfl h (by simp [Phrase.tree, Expr.operands])
    (.of_mem (by simp [Phrase.yield])) (.of_mem (by simp [Phrase.yield])) (by simp [Phrase.tree, Expr.operands, hp])

theorem draws_emptyCall {n : String} {s o c : Span} : (Phrase.emptyCall n s o c).Draws := by
  intro h
  have h : Span.Row [s, o, c] := by simpa [Phrase.yield] using h
  exact Expr.drawn_node [o] rfl rfl h (by simp [Phrase.tree, Expr.operands]) (.of_mem (by simp [Phrase.yield]))
    (.of_mem (by simp [Phrase.yield])) (by simp [Phrase.tree, Expr.operands])

/-- A call reaches from its name to its closing parenthesis, with the arguments between. -/
theorem draws_call {n : String} {s o c : Span} {args : Arguments} (ha : args.Draws) :
    (Phrase.call n s o args c).Draws := by
  intro h
  obtain ⟨ha, h⟩ := ha [s, o] [c] (by simpa [Phrase.yield] using h)
  have ha : ∀ e ∈ args.trees, Expr.Drawn (Phrase.call n s o args c).yield e := fun e he =>
    (ha e he).mono fun x hx => by simp [Phrase.yield, hx]
  have hops : (args.trees.map Expr.span).Sublist (s :: o :: (args.trees.map Expr.span ++ [c])) :=
    .cons _ (.cons _ (List.sublist_append_left ..))
  exact Expr.drawn_node (o :: args.trees.map Expr.span) rfl rfl h hops (.of_mem (by simp [Phrase.yield]))
    (.of_mem (by simp [Phrase.yield])) ha

theorem draws_last {p : Phrase 0} (hp : p.Draws) : (Arguments.last p).Draws := by
  intro front back h
  obtain ⟨hp, h⟩ := hp.collapse front back h
  exact ⟨by simpa [Arguments.trees, Arguments.yield] using hp, h⟩

/-- The comma is dropped from the row. -/
theorem draws_more {p : Phrase 0} {s : Span} {args : Arguments} (hp : p.Draws) (ha : args.Draws) :
    (Arguments.more p s args).Draws := by
  intro front back h
  obtain ⟨hp, h⟩ := hp.collapse front _ (by simpa [Arguments.yield] using h)
  obtain ⟨ha, h⟩ := ha (front ++ [p.tree.span, s]) back (by simpa using h)
  refine ⟨List.forall_mem_cons.2 ⟨?_, fun e he => ?_⟩, h.sublist ?_⟩
  · exact hp.mono fun x hx => by simp [Arguments.yield, hx]
  · exact (ha e he).mono fun x hx => by simp [Arguments.yield, hx]
  · simp [Arguments.trees]

mutual

/-- Every phrase draws its tree, by recursion along the phrase and its arguments. -/
theorem Phrase.draws : ∀ {k : Nat} (p : Phrase k), p.Draws
  | _, .tighter _ p => p.draws
  | _, .choice c _ t _ e => draws_choice c.draws t.draws e.draws
  | _, .binary l _ _ _ r => draws_binary l.draws r.draws
  | _, .unary _ _ p => draws_unary p.draws
  | _, .int .. | _, .text .. | _, .name .. => fun h => Expr.drawn_leaf rfl (h.nonempty _ (.head _))
  | _, .group _ p _ => draws_group p.draws
  | _, .emptyCall .. => draws_emptyCall
  | _, .call _ _ _ args _ => draws_call args.draws
  | _, .index _ _ _ p _ => draws_index p.draws

theorem Arguments.draws : ∀ args : Arguments, args.Draws
  | .last p => draws_last p.draws
  | .more p _ args => draws_more p.draws args.draws

end

end Grammar

namespace Expression

/-- **Spans are well nested.** A text that is an expression has a scan without faults, and every node of its tree has
some bytes of the stripped text. They cover those of its operands, which stand one behind the other. The bytes of an
integer, a text or an identifier are those of one token with its value: they share nothing with another token, and
scanned on their own they are that token again. No offset is beyond the end of the text, so the offsets in a text
shorter than 2^32 bytes fit in 32 bits. -/
theorem spans_nested {source : String} {x : Expression} (h : ofSource source = .ok x) :
    let cs := (stripBraces source.toList).1
    ∃ ts, Token.scan? 0 cs = some ⟨ts ++ [⟨.finish, ⟨Text.byteLength cs, Text.byteLength cs⟩⟩], []⟩ ∧
      ∀ n, x.tree.HasNode n →
        n.span.start < n.span.stop ∧ n.span.stop ≤ Text.byteLength cs ∧
          (∀ o ∈ n.operands, n.span.Covers o.span) ∧
          (n.operands.Pairwise fun a b => a.span.stop ≤ b.span.start) ∧
          ∀ t ∈ n.token?, t ∈ ts ∧ (∀ u ∈ ts, u ≠ t → u.span.Apart n.span) ∧
            Token.Alone t.kind (n.span.excerpt cs) ∧
              Text.byteLength (n.span.excerpt cs) = n.span.stop - n.span.start := by
  intro cs
  have htree : Expr.ofText cs = .ok x.tree := by
    have hsource := x.tree_eq
    rwa [source_of_ofSource h] at hsource
  obtain ⟨ts, s, hscan, p, rfl, hp⟩ := Expr.ofText_eq_ok_iff.1 htree
  obtain ⟨ts, hl, hts⟩ := Token.lays_of_scan? hscan
  obtain ⟨rfl, hs⟩ := List.append_inj' hts rfl
  have hs : s = ⟨Text.byteLength cs, Text.byteLength cs⟩ := by simpa using hs
  -- The tokens are in order and apart. Everything below is read off this row of spans.
  have hrow : Span.Row (Token.spans p.yield) :=
    ⟨List.forall_mem_map.2 fun t ht => (hl.bounds t ht).2.1, List.pairwise_map.2 hl.ordered⟩
  refine ⟨p.yield, hs ▸ hscan, fun n hn => ?_⟩
  have hplaced := p.draws hrow n (hp ▸ hn)
  refine ⟨hplaced.nonempty, ?_, hplaced.covers, hplaced.ordered, fun t ht => ?_⟩
  · obtain ⟨b, hb, hstop⟩ := hplaced.within.ends
    obtain ⟨t, ht, rfl⟩ := List.mem_map.1 hb
    obtain ⟨-, -, hle⟩ := hl.bounds t ht
    omega
  · have hmem := hplaced.token t ht
    rw [← (Expr.span_of_token? ht).1]
    exact ⟨hmem, fun u hu => Token.apart_of_ne hl.ordered hmem hu, hl.accounts.alone rfl t hmem⟩

/-- The tokens of the expression below, in which one character takes two bytes. -/
theorem scan?_scaled : Token.scan? 0 (stripBraces "\x7b(n - 1) * size[k] ? sum('é', n) : -n\x7d".toList).1 =
    some ⟨[⟨.symbol .openParen, ⟨0, 1⟩⟩, ⟨.name "n", ⟨1, 2⟩⟩, ⟨.symbol .minus, ⟨3, 4⟩⟩, ⟨.int 1, ⟨5, 6⟩⟩,
      ⟨.symbol .closeParen, ⟨6, 7⟩⟩, ⟨.symbol .star, ⟨8, 9⟩⟩, ⟨.name "size", ⟨10, 14⟩⟩,
      ⟨.symbol .openBracket, ⟨14, 15⟩⟩, ⟨.name "k", ⟨15, 16⟩⟩, ⟨.symbol .closeBracket, ⟨16, 17⟩⟩,
      ⟨.symbol .question, ⟨18, 19⟩⟩, ⟨.name "sum", ⟨20, 23⟩⟩, ⟨.symbol .openParen, ⟨23, 24⟩⟩, ⟨.text "é", ⟨24, 28⟩⟩,
      ⟨.symbol .comma, ⟨28, 29⟩⟩, ⟨.name "n", ⟨30, 31⟩⟩, ⟨.symbol .closeParen, ⟨31, 32⟩⟩, ⟨.symbol .colon, ⟨33, 34⟩⟩,
      ⟨.symbol .minus, ⟨35, 36⟩⟩, ⟨.name "n", ⟨36, 37⟩⟩, ⟨.finish, ⟨37, 37⟩⟩], []⟩ := by
  decide +kernel

/-- An expression whose outermost node begins behind the parenthesis in front of it. -/
def scaled : Expression where
  source := "\x7b(n - 1) * size[k] ? sum('é', n) : -n\x7d"
  tree :=
    .ternary
      (.binary .mul (.binary .sub (.ident "n" ⟨1, 2⟩) (.int 1 ⟨5, 6⟩) ⟨1, 6⟩)
        (.index "size" (.ident "k" ⟨15, 16⟩) ⟨10, 17⟩) ⟨1, 17⟩)
      (.call "sum" [.text "é" ⟨24, 28⟩, .ident "n" ⟨30, 31⟩] ⟨20, 32⟩)
      (.unary .neg (.ident "n" ⟨36, 37⟩) ⟨35, 37⟩) ⟨1, 37⟩
  tree_eq := by
    unfold Expr.ofSource Expr.ofText
    rw [scan?_scaled]
    rfl

/-- The two arguments stand inside the call, and the bytes of the first are its token alone. -/
theorem spans_nested_scaled : ofSource scaled.source = .ok scaled ∧
    scaled.tree.HasNode (.call "sum" [.text "é" ⟨24, 28⟩, .ident "n" ⟨30, 31⟩] ⟨20, 32⟩) ∧
      (⟨20, 32⟩ : Span).Covers ⟨24, 28⟩ ∧ (⟨20, 32⟩ : Span).Covers ⟨30, 31⟩ ∧
        Token.Alone (.text "é") ((⟨24, 28⟩ : Span).excerpt (stripBraces scaled.source.toList).1) := by
  have hcall : scaled.tree.HasNode (.call "sum" [.text "é" ⟨24, 28⟩, .ident "n" ⟨30, 31⟩] ⟨20, 32⟩) :=
    .operand (.tail _ (.head _)) .root
  have htext : scaled.tree.HasNode (.text "é" ⟨24, 28⟩) :=
    .operand (.tail _ (.head _)) (.operand (.head _) .root)
  obtain ⟨ts, -, hnodes⟩ := spans_nested scaled.ofSource_source
  obtain ⟨-, -, hcovers, -, -⟩ := hnodes _ hcall
  obtain ⟨-, -, -, -, htoken⟩ := hnodes _ htext
  obtain ⟨-, -, halone, -⟩ := htoken _ rfl
  exact ⟨scaled.ofSource_source, hcall, hcovers _ (.head _), hcovers _ (.tail _ (.head _)), halone⟩

end Expression

end BinaryFormat
