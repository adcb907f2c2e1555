import BinaryFormat.Numeral
import BinaryFormat.Token.Fault

/-!
# Quoted literals

A backslash escapes exactly one byte. Where the next character is longer than a byte, reading would
have to go on from the middle of it, so such a literal has no reading at all: `body?` answers `none`
there and only there. Everything else that is wrong with a literal is a fault beside its value.
-/

namespace BinaryFormat.Token

/-- The hexadecimal digits, in either case. -/
def isHexDigit (c : Char) : Bool := (Numeral.digit? 16 c).isSome

/-- The inside of a quoted literal up to and including its closing quote. -/
structure Body where
  /-- The characters the literal stands for. -/
  value : List Char
  /-- The offset just past the closing quote, or the end of the text. -/
  stop : Nat
  /-- The characters behind the literal. -/
  rest : List Char
  /-- The faults found inside, in order. -/
  faults : List Fault
deriving DecidableEq, Repr

/-- Puts a character and the faults of its spelling in front. -/
def Body.push (b : Body) (c : Char) (faults : List Fault) : Body :=
  { b with value := c :: b.value, faults := faults ++ b.faults }

/-- The character that a one-letter escape stands for. -/
def escape? : Char → Option Char
  | 'n' => some '\n'
  | 'r' => some '\r'
  | 't' => some '\t'
  | '0' => some '\x00'
  | '\\' => some '\\'
  | '\'' => some '\''
  | _ => none

/-- The character that the escape at `pos` stands for, and its faults: a character that needs no escape
stands for itself. -/
def escaped? (pos : Nat) (c : Char) : Option (Char × List Fault) :=
  match escape? c with
  | some e => some (e, [])
  | none => if c.toNat < 0x80 then some (c, [⟨.unknownEscape c, ⟨pos, pos + 2⟩⟩]) else none

/-- The digits of a hexadecimal escape, two at most, given what follows its letter. -/
def hexDigits (cs : List Char) : List Char := (cs.take 2).takeWhile isHexDigit

/-- The faults of a hexadecimal escape at `pos`: it must have a digit. -/
def hexFaults (pos : Nat) (digits : List Char) : List Fault :=
  if digits = [] then [⟨.emptyHexEscape, ⟨pos + 2, pos + 2⟩⟩] else []

/-- The character with the given code, for the hexadecimal digits of an escape. -/
def hexCharacter (digits : List Char) : Char :=
  Char.ofNat ((Numeral.natural? 16 digits).getD 0)

/-- Reads the inside of a literal that was opened at `start`, from `pos` on. -/
def body? (start pos : Nat) : List Char → Option Body
  | [] => some { value := [], stop := pos, rest := [], faults := [⟨.unterminatedText, ⟨start, pos⟩⟩] }
  | '\'' :: cs => some { value := [], stop := pos + 1, rest := cs, faults := [] }
  | '\\' :: 'x' :: cs =>
    (body? start (pos + 2 + (hexDigits cs).length) (cs.drop (hexDigits cs).length)).map
      (·.push (hexCharacter (hexDigits cs)) (hexFaults pos (hexDigits cs)))
  | '\\' :: c :: cs =>
    (escaped? pos c).bind fun e => (body? start (pos + 2) cs).map (·.push e.1 e.2)
  | c :: cs => (body? start (pos + c.utf8Size) cs).map (·.push c [])
termination_by cs => cs.length

theorem length_rest_le_of_body? {start pos : Nat} {cs : List Char} {b : Body}
    (h : body? start pos cs = some b) : b.rest.length ≤ cs.length := by
  fun_induction body? start pos cs generalizing b with
  | case1 => cases h; exact Nat.le_refl _
  | case2 => cases h; exact Nat.le_succ _
  | case3 pos cs ih | case5 pos c cs _ _ _ ih =>
    obtain ⟨b₀, h₀, rfl⟩ := Option.map_eq_some_iff.1 h
    have := ih h₀
    simp only [Body.push, List.length_cons, List.length_drop] at *
    omega
  | case4 pos c cs _ ih =>
    obtain ⟨e, -, h⟩ := Option.bind_eq_some_iff.1 h
    obtain ⟨b₀, h₀, rfl⟩ := Option.map_eq_some_iff.1 h
    have := ih h₀
    simp only [Body.push, List.length_cons] at *
    omega

end BinaryFormat.Token
