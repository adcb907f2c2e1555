import BinaryFormat.Toml.Lexeme
import BinaryFormat.Toml.Tree

/-!
# Reading TOML

A text is a sequence of lines, each empty, a header or a key with its value. Values nest only so deep;
how many of them stand side by side is bounded by the length of the text alone.
-/

namespace BinaryFormat.Toml

/-- The scalar that a word is. -/
def scalar? (w : List Char) : Option Document :=
  if w = "true".toList then some (.bool true)
  else if w = "false".toList then some (.bool false)
  else
    match integer? w with
    | some n => if Int64.minValue.toInt ≤ n ∧ n ≤ Int64.maxValue.toInt then some (.int n) else none
    | none => if isFloat w ∨ isDate w ∨ isTime w then some .other else none

/-- How many arrays and inline tables may lie within one another. -/
def maxNesting : Nat := 79

mutual

/-- Reads a value; `n` bounds the number of steps, `depth` how many arrays and inline tables may lie
within one another. -/
def value : Nat → Nat → Reads Document
  | 0, _, _ => none
  | n + 1, depth, cs =>
    match cs, depth with
    | '[' :: _, 0 => none
    | '[' :: r, depth + 1 => elements n depth (skipLines r.length r)
    | '\x7b' :: _, 0 => none
    | '\x7b' :: r, depth + 1 =>
      match skipBlanks r with
      | '\x7d' :: r => some (.table [], r)
      | r => inlineTable n depth [] r
    | cs, _ =>
      match string cs with
      | some (s, r) => some (.text (String.ofList s), r)
      | none =>
        let (w, r) := word cs
        (scalar? w).map fun d => (d, r)

/-- Reads the elements of an array up to its closing bracket. -/
def elements : Nat → Nat → Reads Document
  | 0, _, _ => none
  | n + 1, depth, cs =>
    match cs with
    | ']' :: r => some (.list [], r)
    | cs => do
      let (d, r) ← value n depth cs
      match skipLines r.length r with
      | ',' :: r => do
        let (rest, r) ← elements n depth (skipLines r.length r)
        match rest with
        | .list ds => some (.list (d :: ds), r)
        | _ => none
      | ']' :: r => some (.list [d], r)
      | _ => none

/-- Reads the entries of an inline table up to its closing brace. -/
def inlineTable : Nat → Nat → Entries → Reads Document
  | 0, _, _, _ => none
  | n + 1, depth, entries, cs => do
    let (k, r) ← key cs
    match r with
    | '=' :: r => do
      let (d, r) ← value n depth (skipBlanks r)
      let entries ← assign? d k entries
      match skipBlanks r with
      | ',' :: r => inlineTable n depth entries r
      | '\x7d' :: r => some (.table (documents entries), r)
      | _ => none
    | _ => none

end

/-- Reads the rest of a line. -/
def lineRest (cs : List Char) : Option (List Char) := (lineEnd (skipToLineEnd cs)).map Prod.snd

/-- Reads lines up to the end of the text; `n` bounds their number, and the sections read so far are
given last first. -/
def sections : Nat → Section → List Section → List Char → Option (List Section)
  | 0, _, _, _ => none
  | n + 1, current, done, cs =>
    match skipBlanks cs with
    | [] => some (current :: done).reverse
    -- Two brackets open a section of an array, and have to be looked for before one.
    | '[' :: '[' :: r => do
      let (k, r) ← key r
      match r with
      | ']' :: ']' :: r => sections n ⟨k, true, []⟩ (current :: done) (← lineRest r)
      | _ => none
    | '[' :: r => do
      let (k, r) ← key r
      match r with
      | ']' :: r => sections n ⟨k, false, []⟩ (current :: done) (← lineRest r)
      | _ => none
    | c :: r =>
      if c = '#' ∨ c = '\n' ∨ c = '\r' then do sections n current done (← lineRest (c :: r))
      else do
        let (k, r) ← key (c :: r)
        match r with
        | '=' :: r => do
          let (d, r) ← value (r.length + 1) maxNesting (skipBlanks r)
          sections n { current with lines := current.lines ++ [(k, d)] } done (← lineRest r)
        | _ => none

/-- Drops a byte order mark, which may stand in front of a text. -/
def dropMark : List Char → List Char
  | '\uFEFF' :: cs => cs
  | cs => cs

/-- The document of a TOML text, if it is one. -/
def parse (text : List Char) : Option Document := do
  let cs := dropMark text
  let parts ← sections (cs.length + 1) ⟨[], false, []⟩ [] cs
  let root ← parts.foldlM addSection? []
  some (.table (documents root))

end BinaryFormat.Toml
