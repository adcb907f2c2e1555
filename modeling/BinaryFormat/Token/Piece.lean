import BinaryFormat.Token.Quoted

/-!
# Pieces of source

Outside the spaces a source text falls into pieces. Each is the longest run of characters that makes
one token, or a single character that starts none. A piece hands on the characters behind it, and there
are always fewer of them, which is all the recursion over the text needs.
-/

namespace BinaryFormat.Token

/-! ### Character classes -/

/-- The characters skipped between tokens. -/
def isSpace (c : Char) : Bool :=
  c == ' ' || c == '\t' || c == '\n' || c == '\x0c' || c == '\r'

/-- The characters an identifier may start with. -/
def isNameStart (c : Char) : Bool := c.isAlpha || c == '_'

/-- The characters an identifier goes on with. -/
def isNameRest (c : Char) : Bool := c.isAlphanum || c == '_'

/-! ### One piece of source -/

/-- One piece of source: a token or none, the end of the piece, what follows it, and its faults. -/
structure Piece where
  /-- The token, if the piece is one. -/
  kind : Option Kind
  /-- The offset just past the piece. -/
  stop : Nat
  /-- The characters behind the piece. -/
  rest : List Char
  /-- The faults found in the piece, in order. -/
  faults : List Fault
deriving DecidableEq, Repr

/-- The symbol at the front, the longest one that fits, and what follows it. -/
def symbol? : List Char → Option (Symbol × List Char)
  | '<' :: '<' :: r => some (.shiftLeft, r)
  | '<' :: '=' :: r => some (.lessEqual, r)
  | '<' :: r => some (.less, r)
  | '>' :: '>' :: r => some (.shiftRight, r)
  | '>' :: '=' :: r => some (.greaterEqual, r)
  | '>' :: r => some (.greater, r)
  | '=' :: '=' :: r => some (.equal, r)
  | '!' :: '=' :: r => some (.notEqual, r)
  | '+' :: r => some (.plus, r)
  | '-' :: r => some (.minus, r)
  | '*' :: r => some (.star, r)
  | '/' :: r => some (.slash, r)
  | '%' :: r => some (.percent, r)
  | '&' :: r => some (.ampersand, r)
  | '|' :: r => some (.pipe, r)
  | '^' :: r => some (.caret, r)
  | '?' :: r => some (.question, r)
  | ':' :: r => some (.colon, r)
  | '(' :: r => some (.openParen, r)
  | ')' :: r => some (.closeParen, r)
  | '[' :: r => some (.openBracket, r)
  | ']' :: r => some (.closeBracket, r)
  | ',' :: r => some (.comma, r)
  | _ => none

/-- The kind of a word: three are reserved, the others are identifiers. -/
def wordKind (w : String) : Kind :=
  if w = "and" then .symbol .and
  else if w = "or" then .symbol .or
  else if w = "not" then .symbol .not
  else .name w

/-- The piece of an identifier or reserved word. -/
def word (pos : Nat) (cs : List Char) : Piece :=
  let w := cs.takeWhile isNameRest
  { kind := some (wordKind (String.ofList w))
    stop := pos + w.length
    rest := cs.dropWhile isNameRest
    faults := [] }

/-- The value of a run of digits: hexadecimal ones give a 64-bit pattern, decimal ones a number. -/
def literal? (base : Nat) (digits : List Char) : Option Int64 :=
  if base = 16 then
    ((Numeral.natural? 16 digits).filter (· < UInt64.size)).map fun n => (UInt64.ofNat n).toInt64
  else Numeral.int64? base digits

/-- The piece of a numeral whose digits start `skip` bytes behind `pos`. -/
def numeral (base pos skip : Nat) (isDigit : Char → Bool) (cs : List Char) : Piece :=
  let digits := cs.takeWhile isDigit
  let rest := cs.dropWhile isDigit
  let span : Span := ⟨pos, pos + skip + digits.length⟩
  if digits.isEmpty then
    { kind := some (.int 0), stop := span.stop, rest, faults := [⟨.missingHexDigits, span⟩] }
  else
    let stuck : List Fault :=
      if rest.head?.any isNameRest then [⟨.invalidDigit (String.ofList digits), span⟩] else []
    match literal? base digits with
    | some n => { kind := some (.int n), stop := span.stop, rest, faults := stuck }
    | none =>
      { kind := some (.int 0), stop := span.stop, rest
        faults := stuck ++ [⟨.integerOverflow, span⟩] }

/-- The piece of a numeral. -/
def number (pos : Nat) : List Char → Piece
  | '0' :: 'x' :: cs => numeral 16 pos 2 isHexDigit cs
  | '0' :: 'X' :: cs => numeral 16 pos 2 isHexDigit cs
  | cs => numeral 10 pos 0 Char.isDigit cs

/-- The piece at `pos` that starts with the character `c`, or `none` where a literal has no reading. -/
def piece? (pos : Nat) (c : Char) (cs : List Char) : Option Piece :=
  if c.isDigit then some (number pos (c :: cs))
  else if c = '\'' then
    (body? pos (pos + 1) cs).map fun b =>
      { kind := some (.text (String.ofList b.value)), stop := b.stop, rest := b.rest
        faults := b.faults }
  else if isNameStart c then some (word pos (c :: cs))
  else
    match symbol? (c :: cs) with
    | some (s, rest) =>
      some { kind := some (.symbol s), stop := pos + s.text.length, rest, faults := [] }
    | none =>
      let stop := pos + c.utf8Size
      some { kind := none, stop, rest := cs, faults := [⟨.unexpectedCharacter c, ⟨pos, stop⟩⟩] }

/-! ### Every piece takes at least one character -/

theorem length_dropWhile_le (p : Char → Bool) (cs : List Char) :
    (cs.dropWhile p).length ≤ cs.length := (List.dropWhile_sublist p).length_le

theorem rest_numeral (base pos skip : Nat) (isDigit : Char → Bool) (cs : List Char) :
    (numeral base pos skip isDigit cs).rest = cs.dropWhile isDigit := by
  simp only [numeral]
  split
  · rfl
  · split <;> rfl

theorem length_rest_number_lt (pos : Nat) {cs : List Char} (h : cs.head?.any Char.isDigit = true) :
    (number pos cs).rest.length < cs.length := by
  fun_cases number pos cs
  case case1 cs | case2 cs =>
    rw [rest_numeral]
    have := length_dropWhile_le isHexDigit cs
    simp only [List.length_cons]; omega
  case case3 =>
    cases cs with
    | nil => simp at h
    | cons c cs =>
      rw [rest_numeral, List.dropWhile_cons_of_pos (by simpa using h)]
      exact Nat.lt_succ_of_le (length_dropWhile_le _ cs)

theorem length_rest_lt_of_symbol? {cs : List Char} {s : Symbol} {rest : List Char}
    (h : symbol? cs = some (s, rest)) : rest.length < cs.length := by
  unfold symbol? at h
  split at h <;> first | contradiction | (cases h; simp only [List.length_cons]; omega)

theorem length_rest_lt_of_piece? {pos : Nat} {c : Char} {cs : List Char} {p : Piece}
    (h : piece? pos c cs = some p) : p.rest.length < (c :: cs).length := by
  unfold piece? at h
  split at h
  case isTrue hd => cases h; exact length_rest_number_lt pos (by simpa using hd)
  split at h
  case isTrue =>
    obtain ⟨b, hb, rfl⟩ := Option.map_eq_some_iff.1 h
    exact Nat.lt_succ_of_le (length_rest_le_of_body? hb)
  split at h
  case isTrue hn =>
    cases h
    have : isNameRest c = true := by
      simp only [isNameStart, isNameRest, Char.isAlphanum, Bool.or_eq_true] at hn ⊢
      exact hn.imp_left .inl
    simp only [word, List.dropWhile_cons_of_pos this]
    exact Nat.lt_succ_of_le (length_dropWhile_le _ cs)
  split at h
  case h_1 hs => cases h; exact length_rest_lt_of_symbol? hs
  case h_2 => cases h; simp

end BinaryFormat.Token
