import BinaryFormat.Proofs.Numerals
import BinaryFormat.Proofs.Scanning
import BinaryFormat.Text.Escape

/-!
# Reading what was written

The written form of a number, a name, a text or a symbol is scanned as one token, or as two where a number has a sign.
What may stand behind it differs: a name must not go on, an operator is followed by a space, a bracket by anything. So
the statement about a piece of text says what may follow it, and pieces are put together where one may follow the
other.

Two things can go wrong, and they are told apart token by token. A text is written with escapes that a literal does
not know, and the digits of the least number, behind its sign, are too many. The tokens in which nothing goes wrong
are legible; one token that is not puts a fault into the scan.
-/

namespace BinaryFormat

open Text (byteLength)

namespace Numeral

theorem isDigit_of_mem_toDigits {n : Nat} : ∀ c ∈ Nat.toDigits 10 n, c.isDigit = true := fun _ hc =>
  Nat.isDigit_of_mem_toDigits (by decide) (by decide) hc

theorem integer?_toDigits (n : Nat) : integer? 10 (Nat.toDigits 10 n) = some (n : Int) :=
  (integer?_eq_some_iff (by decide)).mpr
    ⟨[], _, rfl, spells_toDigits (by decide) n, .inl ⟨.inl rfl, Int.natCast_nonneg n⟩⟩

end Numeral

namespace Token

/-- A literal of decimal digits is the number, if it is in range. -/
theorem literal?_toDigits (n : Nat) : literal? 10 (Nat.toDigits 10 n) = Numeral.toInt64? n := by
  rw [literal?, if_neg (by decide), Numeral.int64?, Numeral.integer?_toDigits, Option.bind_some]

/-! ## Scanning what was written -/

/-- A character that is written in a literal as a scan reads it. -/
def IsLegible (c : Char) : Prop :=
  c = '\t' ∨ c = '\n' ∨ c = '\r' ∨ (0x20 ≤ c.toNat ∧ c.toNat ≤ 0x7e ∧ c ≠ '"')

/-- Legible characters are told one by one. -/
instance (c : Char) : Decidable (IsLegible c) := inferInstanceAs (Decidable (_ ∨ _))

/-- A token with a written form. -/
def Kind.IsLegible : Kind → Prop
  | .int n => 0 ≤ n
  | .text t => ∀ c ∈ t.toList, Token.IsLegible c
  | _ => True

/-- Before such a text this one is scanned without a fault if the tokens are legible, and then it gives them. -/
def Scans (before : List Char → Prop) (cs : List Char) (ks : List Kind) : Prop :=
  ∀ (pos : Nat) (rest : List Char), before rest → ∃ pos' ts fs,
    scan? pos (cs ++ rest) = (scan? pos' rest).map (fun s => ⟨ts ++ s.tokens, fs ++ s.faults⟩) ∧
      (fs = [] ↔ ∀ k ∈ ks, k.IsLegible) ∧ (fs = [] → ts.map (·.kind) = ks)

/-- Any text. -/
def Anything (_ : List Char) : Prop := True

/-- A text that begins with a space. -/
def Spaced (rest : List Char) : Prop := ∃ cs, rest = ' ' :: cs

theorem scans_nil : Scans Anything [] [] := fun pos rest _ => ⟨pos, [], [], by simp, by simp, by simp⟩

theorem Scans.mono {before before' : List Char → Prop} {cs : List Char} {ks : List Kind} (h : Scans before cs ks)
    (hb : ∀ rest, before' rest → before rest) : Scans before' cs ks :=
  fun pos rest hrest => h pos rest (hb rest hrest)

/-- Two texts in a row are scanned one after the other, where the second may follow the first. -/
theorem Scans.append {before before' : List Char → Prop} {cs cs' : List Char} {ks ks' : List Kind}
    (h : Scans before cs ks) (h' : Scans before' cs' ks') (hb : ∀ rest, before' rest → before (cs' ++ rest)) :
    Scans before' (cs ++ cs') (ks ++ ks') := by
  intro pos rest hrest
  obtain ⟨pos₁, ts, fs, hs, hfs, hts⟩ := h pos (cs' ++ rest) (hb rest hrest)
  obtain ⟨pos₂, ts', fs', hs', hfs', hts'⟩ := h' pos₁ rest hrest
  refine ⟨pos₂, ts ++ ts', fs ++ fs', ?_, ?_, fun hf => ?_⟩
  · rw [List.append_assoc, hs, hs', Option.map_map]
    simp [Function.comp_def]
  · rw [List.append_eq_nil_iff, hfs, hfs', List.forall_mem_append]
  · obtain ⟨hf, hf'⟩ := List.append_eq_nil_iff.1 hf
    rw [List.map_append, hts hf, hts' hf']

/-- A token that is complete before `c` anyway. -/
theorem Scans.then {before : List Char → Prop} {cs cs' : List Char} {ks ks' : List Kind} {c : Char}
    (h : Scans Delimits cs ks) (h' : Scans before (c :: cs') ks') (hc : isNameRest c = false) :
    Scans before (cs ++ c :: cs') (ks ++ ks') := h.append h' fun _ _ => delimits_cons.2 hc

theorem Scans.space {before : List Char → Prop} {cs : List Char} {ks : List Kind} (h : Scans before cs ks) :
    Scans before (' ' :: cs) ks := by
  intro pos rest hrest
  rw [List.cons_append, scan?_space (by decide)]
  exact h (pos + 1) rest hrest

/-- A lexeme is one token if its piece ends with it. -/
theorem scans_lexeme {before : List Char → Prop} {k : Kind} {c : Char} {cs : List Char} (hc : isSpace c = false)
    (h : ∀ pos rest, before rest → ∃ p, piece? pos c (cs ++ rest) = some p ∧ p.rest = rest ∧
      (p.faults = [] ↔ k.IsLegible) ∧ (p.faults = [] → p.kind = some k)) : Scans before (c :: cs) [k] := by
  intro pos rest hrest
  obtain ⟨p, hp, hr, hf, hk⟩ := h pos rest hrest
  refine ⟨p.stop, (p.kind.map fun k => (⟨k, ⟨pos, p.stop⟩⟩ : Token)).toList, p.faults, ?_, ?_, fun hfs => ?_⟩
  · rw [List.cons_append, scan?_piece hc hp, hr]
    rfl
  · rw [List.forall_mem_singleton, hf]
  · rw [hk hfs]
    rfl

/-! ### Symbols -/

theorem class_of_symbol? {c : Char} {cs rest : List Char} {s : Symbol} (h : symbol? (c :: cs) = some (s, rest)) :
    c.isDigit = false ∧ c ≠ '\'' ∧ isNameStart c = false ∧ isSpace c = false := by
  unfold symbol? at h
  split at h <;> first | contradiction | (rename_i heq; cases heq; decide)

/-- A symbol is scanned where no longer one begins. -/
theorem scans_symbol {before : List Char → Prop} {s : Symbol}
    (h : ∀ rest, before rest → symbol? (s.text.toList ++ rest) = some (s, rest)) (hs : symbol? s.text.toList ≠ none) :
    Scans before s.text.toList [.symbol s] := by
  cases hcons : s.text.toList with
  | nil => rw [hcons] at hs; exact absurd rfl hs
  | cons c cs =>
      obtain ⟨⟨s', rest⟩, hs⟩ := Option.ne_none_iff_exists'.1 hs
      rw [hcons] at h hs
      obtain ⟨hd, hq, hn, hsp⟩ := class_of_symbol? hs
      refine scans_lexeme hsp fun pos rest hrest => ⟨⟨some (.symbol s), pos + s.text.length, rest, []⟩, ?_, rfl, ?_, ?_⟩
      · rw [piece?, if_neg (by simp [hd]), if_neg hq, if_neg (by simp [hn]), ← List.cons_append, h rest hrest]
      · simp [Kind.IsLegible]
      · simp

/-- A symbol of one character that begins no longer one. -/
theorem Scans.mark {before : List Char → Prop} {cs : List Char} {ks : List Kind} (h : Scans before cs ks) (c : Char)
    (s : Symbol) (hs : ∀ rest, symbol? (c :: rest) = some (s, rest)) : Scans before (c :: cs) (.symbol s :: ks) := by
  have htext := (symbol?_takes (hs [])).1
  rw [List.append_nil] at htext
  have hm : Scans Anything [c] [.symbol s] := htext ▸ scans_symbol (fun rest _ => by rw [← htext]; exact hs rest)
    (by rw [← htext, hs]; nofun)
  exact hm.append h fun _ _ => trivial

/-! ### Words and numerals -/

theorem isSpace_of_isNameRest {c : Char} (h : isNameRest c = true) : isSpace c = false := by
  cases hs : isSpace c with
  | false => rfl
  | true =>
      simp only [isSpace, Bool.or_eq_true, beq_iff_eq] at hs
      rcases hs with (((rfl | rfl) | rfl) | rfl) | rfl <;> exact absurd h (by decide)

theorem isDigit_of_isNameStart {c : Char} (h : isNameStart c = true) : c.isDigit = false := by
  rw [Bool.eq_false_iff]
  intro hd
  have hdigit := isDigit_iff.1 hd
  rcases isNameStart_iff.1 h with h | rfl
  · omega
  · exact absurd hd (by decide)

theorem isLegible_wordKind (w : String) : (wordKind w).IsLegible := by
  unfold wordKind
  split
  · trivial
  · split
    · trivial
    · split <;> trivial

/-- A word is scanned where no character of a name follows it. -/
theorem scans_word {c : Char} {cs : List Char} (hc : isNameStart c = true) (hcs : ∀ d ∈ cs, isNameRest d = true) :
    Scans Delimits (c :: cs) [wordKind (String.ofList (c :: cs))] := by
  have hr := isNameRest_of_isNameStart hc
  refine scans_lexeme (isSpace_of_isNameRest hr) fun pos rest hrest =>
    ⟨_, piece?_word (isDigit_of_isNameStart hc) (ne_of_isNameRest hr rfl) hc, ?_⟩
  have hw := word_append pos (List.forall_mem_cons.2 ⟨hr, hcs⟩) hrest
  rw [List.cons_append] at hw
  rw [hw]
  exact ⟨rfl, ⟨fun _ => isLegible_wordKind _, fun _ => rfl⟩, fun _ => rfl⟩

theorem scans_name {n : String} (h : IsName n) : Scans Delimits n.toList [.name n] := by
  obtain ⟨c, cs, hcons, hc, hcs, hk⟩ := h
  have hs := scans_word hc hcs
  rwa [← hcons, String.ofList_toList, hk] at hs

theorem delimits_of_spaced {rest : List Char} (h : Spaced rest) : Delimits rest := by
  obtain ⟨cs, rfl⟩ := h
  exact delimits_cons.2 rfl

/-- Any symbol and a space. -/
theorem Scans.operator {before : List Char → Prop} {cs : List Char} {ks : List Kind} (h : Scans before cs ks)
    (s : Symbol) : Scans before (s.text.toList ++ ' ' :: cs) (.symbol s :: ks) := by
  have hs : Scans Spaced s.text.toList [.symbol s] := by
    cases s with
    | and => exact (scans_word (c := 'a') rfl (forall_mem_of_all rfl)).mono fun _ => delimits_of_spaced
    | or => exact (scans_word (c := 'o') rfl (forall_mem_of_all rfl)).mono fun _ => delimits_of_spaced
    | not => exact (scans_word (c := 'n') rfl (forall_mem_of_all rfl)).mono fun _ => delimits_of_spaced
    | _ => exact scans_symbol (by rintro _ ⟨cs, rfl⟩; rfl) (by decide)
  exact hs.append h.space fun rest _ => ⟨cs ++ rest, rfl⟩

theorem toInt64?_of_nonneg {n : Int64} (h : 0 ≤ n) : Numeral.toInt64? (n.toInt.natAbs : Int) = some n := by
  have hn : ((n.toInt.natAbs : Nat) : Int) = n.toInt := Int.natAbs_of_nonneg (Int64.le_iff_toInt_le.1 h)
  rw [hn, Numeral.toInt64?_toInt]

/-- Digits are a decimal numeral: what would make them a hexadecimal one cannot follow them. -/
theorem number_append {pos : Nat} {ds rest : List Char} (hds : ∀ d ∈ ds, d.isDigit = true) (hne : ds ≠ [])
    (hrest : Delimits rest) : number pos (ds ++ rest) = numeral 10 pos 0 Char.isDigit (ds ++ rest) := by
  have hlead : ∀ {x : Char}, isNameRest x = true → x.isDigit = false → ∀ cs, ds ++ rest ≠ '0' :: x :: cs := by
    intro x hx hx' cs h
    -- the second character is the first one behind the digits, or a digit itself
    match ds, hne, hds with
    | [d], _, _ =>
        obtain rfl : rest = x :: cs := (List.cons.inj h).2
        rw [delimits_cons.1 hrest] at hx
        contradiction
    | d :: e :: ds, _, hds =>
        obtain rfl : e = x := (List.cons.inj (List.cons.inj h).2).1
        rw [hds e (by simp)] at hx'
        contradiction
  rw [number]
  · exact hlead rfl rfl
  · exact hlead rfl rfl

/-- The digits of a number, unless they are those of the least one without its sign. -/
theorem scans_digits {n : Int64} (h : 0 ≤ n ∨ n = Int64.minValue) :
    Scans Delimits (Nat.toDigits 10 n.toInt.natAbs) [.int n] := by
  obtain ⟨c, cs, hcons⟩ := List.exists_cons_of_ne_nil (Nat.toDigits_ne_nil (n := n.toInt.natAbs) (b := 10))
  have hdigits := Numeral.isDigit_of_mem_toDigits (n := n.toInt.natAbs)
  have hvalue := literal?_toDigits n.toInt.natAbs
  rw [hcons] at hdigits hvalue ⊢
  have hc := hdigits c (.head _)
  refine scans_lexeme (isSpace_of_isNameRest (isNameRest_of_isDigit hc)) fun pos rest hrest =>
    ⟨_, piece?_number hc, ?_⟩
  rw [← List.cons_append, number_append hdigits nofun hrest]
  rcases h with h | rfl
  · rw [toInt64?_of_nonneg h] at hvalue
    rw [numeral_append _ _ (fun _ => isNameRest_of_isDigit) hdigits nofun hvalue hrest]
    exact ⟨rfl, ⟨fun _ => h, fun _ => rfl⟩, fun _ => rfl⟩
  · -- the least number has its sign in front of these digits, and without it they stand for one too many
    obtain ⟨ht, hd⟩ := hrest.takeWhile (fun _ => isNameRest_of_isDigit) hdigits
    have hnone : literal? 10 (c :: cs) = none := hvalue
    obtain ⟨-, hr, -, m, -, hok⟩ := numeral_takes 10 pos 0 Char.isDigit (c :: cs ++ rest) rfl
    have hf : (numeral 10 pos 0 Char.isDigit (c :: cs ++ rest)).faults ≠ [] := fun hf => by
      have hsome := (hok hf).2
      rw [ht, hnone] at hsome
      cases hsome
    have hmin : ¬(Kind.int Int64.minValue).IsLegible := show ¬(0 : Int64) ≤ Int64.minValue by decide
    exact ⟨hr.trans hd, ⟨fun h => absurd h hf, fun h => absurd h hmin⟩, fun h => absurd h hf⟩

theorem natAbs_toInt_neg (n : Int64) : (-n).toInt.natAbs = n.toInt.natAbs := by
  have hle := n.le_toInt
  have hlt := n.toInt_lt
  rw [Int64.toInt_neg, Int.bmod_def]
  split <;> omega

/-- A number is scanned as its digits, behind a minus sign if it is negative. -/
theorem scans_decimal (n : Int64) : Scans Delimits (Numeral.decimal n.toInt)
    (if n < 0 then [.symbol .minus, .int (-n)] else [.int n]) := by
  by_cases hn : n < 0
  · -- the negation of the least number is that number
    have hm : 0 ≤ -n ∨ -n = Int64.minValue := by
      have hle : - -n ≤ 0 := by
        rw [Int64.neg_neg]
        exact Int64.le_of_lt hn
      rwa [Int64.neg_nonpos_iff, or_comm] at hle
    rw [Numeral.decimal, if_pos (by simpa using Int64.lt_iff_toInt_lt.1 hn), if_pos hn, ← natAbs_toInt_neg]
    exact (scans_digits hm).mark '-' .minus fun _ => rfl
  · have h : 0 ≤ n := by simpa using hn
    rw [Numeral.decimal, if_neg (by simpa using Int64.le_iff_toInt_le.1 h), if_neg hn]
    exact scans_digits (.inl h)

/-! ### Quoted texts -/

/-- A character that stands for itself in a literal. -/
theorem body?_plain {start pos : Nat} {c : Char} {cs : List Char} (hq : c ≠ '\'') (hb : c ≠ '\\') :
    body? start pos (c :: cs) = (body? start (pos + c.utf8Size) cs).map (·.push c []) := by
  rw [body?]
  · exact hq
  · exact fun _ hc => absurd hc hb
  · exact fun _ _ hc => absurd hc hb

theorem body?_plain_append (start pos : Nat) {ds : List Char} (cs : List Char) (h : ∀ d ∈ ds, d ≠ '\'' ∧ d ≠ '\\') :
    body? start pos (ds ++ cs) =
      (body? start (pos + byteLength ds) cs).map fun b => { b with value := ds ++ b.value } := by
  induction ds generalizing pos with
  | nil => simp
  | cons d ds ih =>
      obtain ⟨hd, hds⟩ := List.forall_mem_cons.1 h
      rw [List.cons_append, body?_plain hd.1 hd.2, ih _ hds, Option.map_map, Nat.add_assoc]
      rfl

theorem body?_letter {start pos : Nat} {e c : Char} {fs : List Fault} {cs : List Char}
    (he : escaped? pos e = some (c, fs)) (hx : e ≠ 'x') :
    body? start pos ('\\' :: e :: cs) = (body? start (pos + 2) cs).map (·.push c fs) := by
  rw [body?, he, Option.bind_some]
  exact hx

/-- In quotes the inner text is read as a literal, without a fault if its value is legible. -/
def Quotes (inner value : List Char) : Prop :=
  ∀ (start pos : Nat) (rest : List Char), ∃ b, body? start pos (inner ++ '\'' :: rest) = some b ∧ b.rest = rest ∧
    (b.faults = [] ↔ ∀ c ∈ value, IsLegible c) ∧ (b.faults = [] → b.value = value)

theorem quotes_nil : Quotes [] [] := fun start pos rest =>
  ⟨_, by rw [List.nil_append, body?], rfl, by simp, fun _ => rfl⟩

/-- What is read as a legible character. -/
theorem Quotes.legible {inner value spelling : List Char} {c : Char} (h : Quotes inner value) (hc : IsLegible c)
    (hs : ∀ start pos cs, ∃ pos', body? start pos (spelling ++ cs) = (body? start pos' cs).map (·.push c [])) :
    Quotes (spelling ++ inner) (c :: value) := by
  intro start pos rest
  obtain ⟨pos', hb'⟩ := hs start pos (inner ++ '\'' :: rest)
  obtain ⟨b, hb, hr, hf, hv⟩ := h start pos' rest
  refine ⟨b.push c [], by rw [List.append_assoc, hb', hb, Option.map_some], hr, ?_, fun h => ?_⟩
  · rw [List.forall_mem_cons, ← hf]
    simp [Body.push, hc]
  · rw [Body.push, hv h]

/-- An escape that a literal does not know is read over, with a fault. -/
theorem Quotes.illegible {inner value spelling : List Char} {c : Char} (h : Quotes inner value) (hc : ¬IsLegible c)
    (hs : ∀ start pos cs, ∃ pos', ∃ f : Body → Body, body? start pos (spelling ++ cs) = (body? start pos' cs).map f ∧
      ∀ b, (f b).rest = b.rest ∧ (f b).faults ≠ []) : Quotes (spelling ++ inner) (c :: value) := by
  intro start pos rest
  obtain ⟨pos', f, hb', hf⟩ := hs start pos (inner ++ '\'' :: rest)
  obtain ⟨b, hb, hr, -, -⟩ := h start pos' rest
  obtain ⟨hfr, hff⟩ := hf b
  refine ⟨f b, by rw [List.append_assoc, hb', hb, Option.map_some], hfr.trans hr, ?_, fun h => absurd h hff⟩
  exact ⟨fun h => absurd h hff, fun h => absurd (h c (.head _)) hc⟩

/-- A letter behind the backslash, if it is an escape. -/
theorem Quotes.letter {inner value : List Char} {e c : Char} (h : Quotes inner value) (hc : IsLegible c)
    (he : escape? e = some c) (hx : e ≠ 'x') : Quotes (['\\', e] ++ inner) (c :: value) :=
  h.legible hc fun _ pos _ => ⟨pos + 2, body?_letter (by rw [escaped?, he]) hx⟩

/-- The spelling by a code: its first letter is no escape, and what is behind it stands for itself. -/
theorem Quotes.code {inner value : List Char} {c : Char} (h : Quotes inner value) (hc : ¬IsLegible c) :
    Quotes (['\\', 'u', '\x7b'] ++ Numeral.hexDigits c.toNat ++ ['\x7d'] ++ inner) (c :: value) := by
  -- None of these characters is a quote or a backslash, so they stand for themselves.
  have hds : ∀ d ∈ '\x7b' :: (Numeral.hexDigits c.toNat ++ ['\x7d']), d ≠ '\'' ∧ d ≠ '\\' := by
    have hdigit : ∀ n < 16, n.digitChar ≠ '\'' ∧ n.digitChar ≠ '\\' := by decide
    intro d hd
    rcases List.mem_cons.1 hd with rfl | hd
    · decide
    · rcases List.mem_append.1 hd with hd | hd
      · obtain ⟨n, hn, rfl⟩ := Numeral.exists_of_mem_toDigits (by decide) d hd
        exact hdigit n hn
      · obtain rfl := List.mem_singleton.1 hd
        decide
  refine h.illegible hc fun start pos cs => ⟨pos + 2 + byteLength ('\x7b' :: (Numeral.hexDigits c.toNat ++ ['\x7d'])),
    fun b => Body.push { b with value := '\x7b' :: (Numeral.hexDigits c.toNat ++ ['\x7d']) ++ b.value } 'u'
      [⟨.unknownEscape 'u', ⟨pos, pos + 2⟩⟩], ?_, fun b => ⟨rfl, by simp [Body.push]⟩⟩
  have hplain := body?_plain_append start (pos + 2) cs hds
  have hletter : body? start pos ('\\' :: 'u' :: ('\x7b' :: (Numeral.hexDigits c.toNat ++ ['\x7d']) ++ cs)) = _ :=
    body?_letter rfl (by decide)
  rw [hplain, Option.map_map, Function.comp_def] at hletter
  simpa using hletter

/-- Whatever its escape, a character is read as itself or leaves a fault. -/
theorem Quotes.escape {inner value : List Char} (h : Quotes inner value) (c : Char) :
    Quotes (Text.escape c ++ inner) (c :: value) := by
  -- the cases are those of the escape: three control characters, three marks, the printable ones and the rest
  unfold Text.escape
  split
  · rename_i hc
    subst hc
    exact h.letter (by decide) rfl (by decide)
  · split
    · rename_i hc
      subst hc
      exact h.letter (by decide) rfl (by decide)
    · split
      · rename_i hc
        subst hc
        exact h.letter (by decide) rfl (by decide)
      · rename_i ht hr hn
        split
        · rename_i hc
          rcases hc with rfl | rfl | rfl
          · exact h.letter (by decide) rfl (by decide)
          · -- the only printable character with a letter that is no escape
            exact h.illegible (by decide) fun start pos cs => ⟨pos + 2,
              (·.push '"' [⟨.unknownEscape '"', ⟨pos, pos + 2⟩⟩]), body?_letter rfl (by decide),
              fun b => ⟨rfl, by simp [Body.push]⟩⟩
          · exact h.letter (by decide) rfl (by decide)
        · rename_i hc
          obtain ⟨hq, hd, hb⟩ : c ≠ '\'' ∧ c ≠ '"' ∧ c ≠ '\\' := by simpa using hc
          split
          · rename_i hp
            exact h.legible (.inr (.inr (.inr ⟨hp.1, hp.2, hd⟩))) fun start pos cs => ⟨_, body?_plain hq hb⟩
          · rename_i hp
            refine h.code ?_
            rintro (hc | hc | hc | ⟨hle, hge, -⟩)
            · exact ht hc
            · exact hn hc
            · exact hr hc
            · exact hp ⟨hle, hge⟩

theorem quotes_escaped (cs : List Char) : Quotes (cs.flatMap Text.escape) cs := by
  induction cs with
  | nil => exact quotes_nil
  | cons c cs ih => exact ih.escape c

/-- A quoted text is scanned as that text, or leaves a fault. -/
theorem scans_quoted (t : String) : Scans Anything (Text.quote t.toList) [.text t] := by
  refine scans_lexeme (by decide) fun pos rest _ => ?_
  obtain ⟨b, hb, hr, hf, hv⟩ := quotes_escaped t.toList pos (pos + 1) rest
  have happend : t.toList.flatMap Text.escape ++ ['\''] ++ rest = t.toList.flatMap Text.escape ++ '\'' :: rest :=
    List.append_cons .. |>.symm
  refine ⟨_, by rw [piece?_text, List.append_eq, happend, hb]; rfl, hr, hf, fun h => ?_⟩
  dsimp only at h ⊢
  rw [hv h, String.ofList_toList]

end Token

end BinaryFormat
