import BinaryFormat.Decimal
import BinaryFormat.Numeral

/-!
# The small parts of TOML

Blanks, comments, keys, strings and scalars. Each reader takes the characters in front and answers what
it read together with the characters behind it, or nothing when they are not of its kind.
-/

namespace BinaryFormat.Toml

/-- A reader of the characters in front. -/
abbrev Reads (α : Type) := List Char → Option (α × List Char)

/-- Drops spaces and tabs. -/
def skipBlanks (cs : List Char) : List Char := cs.dropWhile fun c => c == ' ' || c == '\t'

/-- Whether a character may stand in a comment or a one-line string. -/
def isPrintable (c : Char) : Bool := c == '\t' || (0x20 ≤ c.toNat && c.toNat != 0x7f)

/-- Drops blanks and a comment up to the end of the line. -/
def skipToLineEnd (cs : List Char) : List Char :=
  match skipBlanks cs with
  | '#' :: r => r.dropWhile isPrintable
  | r => r

/-- Reads the end of a line, or of the text. -/
def lineEnd : Reads Unit
  | [] => some ((), [])
  | '\n' :: r => some ((), r)
  | '\r' :: '\n' :: r => some ((), r)
  | _ => none

/-- Drops blanks, comments and line ends; `n` bounds the number of lines. -/
def skipLines : Nat → List Char → List Char
  | 0, cs => cs
  | n + 1, cs =>
    match skipToLineEnd cs with
    | '\n' :: r => skipLines n r
    | '\r' :: '\n' :: r => skipLines n r
    | r => r

/-- Drops blanks and line ends; a carriage return on its own ends no line. -/
def skipSpace : List Char → List Char
  | ' ' :: r => skipSpace r
  | '\t' :: r => skipSpace r
  | '\n' :: r => skipSpace r
  | '\r' :: '\n' :: r => skipSpace r
  | r => r

/-! ### Strings -/

/-- The character that a one-letter escape stands for. -/
def escape? : Char → Option Char
  | 'b' => some '\x08'
  | 't' => some '\t'
  | 'n' => some '\n'
  | 'f' => some '\x0c'
  | 'r' => some '\r'
  | '"' => some '"'
  | '\\' => some '\\'
  | _ => none

/-- The character of a code in hexadecimal digits. -/
def codeCharacter? (digits : List Char) : Option Char := do
  let n ← Numeral.natural? 16 digits
  if n.isValidChar then some (Char.ofNat n) else none

/-- Reads an escape behind its backslash. -/
def escape : Reads Char
  | 'u' :: r =>
    if r.length < 4 then none else (codeCharacter? (r.take 4)).map fun c => (c, r.drop 4)
  | 'U' :: r =>
    if r.length < 8 then none else (codeCharacter? (r.take 8)).map fun c => (c, r.drop 8)
  | c :: r => (escape? c).map fun c => (c, r)
  | [] => none

/-- Reads a one-line string behind its opening quote; `n` bounds its length. -/
def basicString : Nat → Reads (List Char)
  | 0, _ => none
  | n + 1, cs =>
    match cs with
    | '"' :: r => some ([], r)
    | '\\' :: r => do
      let (c, r) ← escape r
      let (s, r) ← basicString n r
      some (c :: s, r)
    | c :: r => do
      if isPrintable c then
        let (s, r) ← basicString n r
        some (c :: s, r)
      else none
    | [] => none

/-- Reads a one-line string without escapes behind its opening quote. -/
def literalString (cs : List Char) : Option (List Char × List Char) :=
  match cs.dropWhile fun c => isPrintable c && c != '\'' with
  | '\'' :: r => some (cs.takeWhile fun c => isPrintable c && c != '\'', r)
  | _ => none

/-- Drops the line end that may follow an opening triple quote. -/
def skipFirstLineEnd (cs : List Char) : List Char :=
  match cs with
  | '\n' :: r => r
  | '\r' :: '\n' :: r => r
  | r => r

/-- Reads a string of several lines behind its opening quotes; `n` bounds its length. -/
def multilineString (quote : Char) (escapes : Bool) : Nat → Reads (List Char)
  | 0, _ => none
  | n + 1, cs =>
    match cs with
    | [] => none
    | c :: r =>
      if c = quote then
        match r with
        | a :: b :: r' =>
          if a = quote ∧ b = quote then
            -- up to two quotes may stand directly before the closing ones
            let extra := (r'.takeWhile (· == quote)).length
            if extra ≤ 2 then some (List.replicate extra quote, r'.drop extra) else none
          else do
            let (s, r) ← multilineString quote escapes n r
            some (c :: s, r)
        | r => do
          let (s, r) ← multilineString quote escapes n r
          some (c :: s, r)
      else if c = '\\' ∧ escapes then
        match skipBlanks r with
        -- a backslash at the end of a line takes the space up to the next text with it
        | '\n' :: r' => multilineString quote escapes n (skipSpace r')
        | '\r' :: '\n' :: r' => multilineString quote escapes n (skipSpace r')
        | _ => do
          let (e, r) ← escape r
          let (s, r) ← multilineString quote escapes n r
          some (e :: s, r)
      else if isPrintable c ∨ c = '\n' ∨ (c = '\r' ∧ r.head? = some '\n') then do
        let (s, r) ← multilineString quote escapes n r
        some (c :: s, r)
      else none

/-- Reads a string of any of the four kinds; three quotes open one that goes over lines. -/
def string (cs : List Char) : Option (List Char × List Char) :=
  match cs with
  | '"' :: '"' :: '"' :: r => multilineString '"' true (r.length + 1) (skipFirstLineEnd r)
  | '\'' :: '\'' :: '\'' :: r => multilineString '\'' false (r.length + 1) (skipFirstLineEnd r)
  | '"' :: r => basicString (r.length + 1) r
  | '\'' :: r => literalString r
  | _ => none

/-! ### Keys -/

/-- Whether a character may stand in a key without quotes. -/
def isBareKey (c : Char) : Bool := c.isAlphanum || c == '_' || c == '-'

/-- Reads one part of a key, quoted or bare. -/
def keyPart (cs : List Char) : Option (String × List Char) :=
  match cs with
  | '"' :: r => (basicString (r.length + 1) r).map fun p => (String.ofList p.1, p.2)
  | '\'' :: r => (literalString r).map fun p => (String.ofList p.1, p.2)
  | cs =>
    let k := cs.takeWhile isBareKey
    if k.isEmpty then none else some (String.ofList k, cs.dropWhile isBareKey)

/-- Reads the parts of a key, blanks around the dots allowed; `n` bounds their number. -/
def keyParts : Nat → Reads (List String)
  | 0, _ => none
  | n + 1, cs => do
    let (k, r) ← keyPart (skipBlanks cs)
    match skipBlanks r with
    | '.' :: r => do
      let (ks, r) ← keyParts n r
      some (k :: ks, r)
    | r => some ([k], r)

/-- How many parts a key may have. -/
def maxKeyParts : Nat := 79

/-- Reads a key, dotted or not. -/
def key : Reads (List String) := keyParts maxKeyParts

/-! ### Numbers and dates -/

/-- Removes the underscores of a run of digits; each has to stand between two of them. -/
def joinDigits (isDigit : Char → Bool) : List Char → Option (List Char)
  | [] => none
  | [c] => if isDigit c then some [c] else none
  | c :: '_' :: d :: cs => if isDigit c ∧ isDigit d then (joinDigits isDigit (d :: cs)).map (c :: ·) else none
  | c :: cs => if isDigit c then (joinDigits isDigit cs).map (c :: ·) else none

/-- The number of a run of digits in a base. -/
def digits? (base : Nat) (cs : List Char) : Option Nat := do
  let ds ← joinDigits (fun c => (Numeral.digit? base c).isSome) cs
  Numeral.natural? base ds

/-- A decimal number without leading zeros. -/
def decimal? : List Char → Option Nat
  | ['0'] => some 0
  | '0' :: _ => none
  | cs => digits? 10 cs

/-- The integer that a word is, if it is one. -/
def integer? : List Char → Option Int
  | '0' :: 'x' :: cs => (digits? 16 cs).map Int.ofNat
  | '0' :: 'o' :: cs => (digits? 8 cs).map Int.ofNat
  | '0' :: 'b' :: cs => (digits? 2 cs).map Int.ofNat
  | '+' :: cs => (decimal? cs).map Int.ofNat
  | '-' :: cs => (decimal? cs).map fun n => -Int.ofNat n
  | cs => (decimal? cs).map Int.ofNat

/-- Drops one sign. -/
def unsigned : List Char → List Char
  | '+' :: cs => cs
  | '-' :: cs => cs
  | cs => cs

/-- The digits of a fraction, from its point on. -/
def fraction? : List Char → Option (List Char)
  | [] => some []
  | _ :: ds => joinDigits Char.isDigit ds

/-- The number of an exponent, from its letter on. -/
def exponent? : List Char → Option Int
  | [] => some 0
  | _ :: '+' :: ds => (digits? 10 ds).map Int.ofNat
  | _ :: '-' :: ds => (digits? 10 ds).map fun n => -Int.ofNat n
  | _ :: ds => (digits? 10 ds).map Int.ofNat

/-- The number of a word without sign that has a fraction, an exponent or both. -/
def scientific? (cs : List Char) : Option Decimal := do
  let isMark (c : Char) : Bool := c == 'e' || c == 'E'
  let mantissa := cs.takeWhile fun c => !isMark c
  let exponent := cs.dropWhile fun c => !isMark c
  let fraction := mantissa.dropWhile (· != '.')
  if fraction.isEmpty ∧ exponent.isEmpty then none
  else
    let whole ← decimal? (mantissa.takeWhile (· != '.'))
    let ds ← fraction? fraction
    let e ← exponent? exponent
    let n ← Numeral.extend? 10 whole ds
    some ⟨n, e - ds.length⟩

/-- Whether a word is a floating-point number. Digits that round to positive infinity are none; those
that round to negative infinity or to zero are. -/
def isFloat (cs : List Char) : Bool :=
  let body := unsigned cs
  body == "inf".toList || body == "nan".toList ||
    (scientific? body).any fun x => cs.head? == some '-' || !x.overflows

/-- Whether `cs` is a two-digit number within bounds. -/
def isPart (least greatest : Nat) (cs : List Char) : Bool :=
  cs.length == 2 && ((Numeral.natural? 10 cs).any fun n => least ≤ n && n ≤ greatest)

/-- Whether a word is a time of the day, seconds and fraction included. -/
def isTime (cs : List Char) : Bool :=
  match cs with
  | a :: b :: ':' :: c :: d :: ':' :: e :: f :: r =>
    isPart 0 23 [a, b] && isPart 0 59 [c, d] && isPart 0 60 [e, f] &&
      (r.isEmpty || (r.head? == some '.' && 1 < r.length && (r.drop 1).all Char.isDigit))
  | _ => false

/-- Whether a word is an offset from universal time. -/
def isOffset (cs : List Char) : Bool :=
  match cs with
  | ['Z'] => true
  | ['z'] => true
  | s :: a :: b :: ':' :: c :: d :: r =>
    (s == '+' || s == '-') && isPart 0 23 [a, b] && isPart 0 59 [c, d] && r.isEmpty
  | _ => false

/-- The number of days of a month. -/
def daysOf (year month : Nat) : Nat :=
  if month = 2 then
    if year % 4 = 0 ∧ (year % 100 ≠ 0 ∨ year % 400 = 0) then 29 else 28
  else if month = 4 ∨ month = 6 ∨ month = 9 ∨ month = 11 then 30
  else 31

/-- Whether some digits are a day of the calendar. -/
def isDay (year month day : List Char) : Bool :=
  match Numeral.natural? 10 year, Numeral.natural? 10 month with
  | some y, some m => 1 ≤ m && m ≤ 12 && isPart 1 (daysOf y m) day
  | _, _ => false

/-- Whether a word is a date, followed by nothing or by a time. -/
def isDate (cs : List Char) : Bool :=
  match cs with
  | y₁ :: y₂ :: y₃ :: y₄ :: '-' :: m₁ :: m₂ :: '-' :: d₁ :: d₂ :: r =>
    isDay [y₁, y₂, y₃, y₄] [m₁, m₂] [d₁, d₂] &&
      (match r with
        | [] => true
        | t :: r =>
          (t == 'T' || t == 't' || t == ' ') &&
            (let time := r.takeWhile fun c => c.isDigit || c == ':' || c == '.'
             let zone := r.drop time.length
             isTime time && (zone.isEmpty || isOffset zone)))
  | _ => false

/-- Whether a character may stand in an unquoted scalar. -/
def isWord (c : Char) : Bool := c.isAlphanum || c == '_' || c == '+' || c == '-' || c == '.' || c == ':'

/-- Reads an unquoted scalar; a date may go on behind one space. -/
def word (cs : List Char) : List Char × List Char :=
  let w := cs.takeWhile isWord
  let r := cs.dropWhile isWord
  if w.length = 10 ∧ isDate w then
    match r with
    | ' ' :: a :: b :: ':' :: _ =>
      if a.isDigit ∧ b.isDigit then (w ++ ' ' :: (r.drop 1).takeWhile isWord, (r.drop 1).dropWhile isWord)
      else (w, r)
    | r => (w, r)
  else (w, r)

end BinaryFormat.Toml
