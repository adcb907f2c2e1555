import BinaryFormat.Text.Blank
import BinaryFormat.Token.Scan

/-!
# What a piece takes of its text

A piece is read without a look at where it ends, so what it takes has to be found afterwards. Three things are said
of every piece that is a token. Its faults lie within the bytes it takes. What it takes, read on its own, is the same
token again, unless there was a fault. And it leaves the text behind it outside of every quoted literal.

The last one is why the literals that have no reading can be told without the scanner, by a machine of three states
that looks at one character after the other and at nothing but quotes and backslashes.
-/

namespace BinaryFormat.Token

open Text (byteLength)

/-! ## Classes of characters -/

theorem utf8Size_eq_one {c : Char} (h : c.toNat < 0x80) : c.utf8Size = 1 :=
  Char.utf8Size_eq_one_iff.2 (Nat.le_of_lt_succ h)

/-- In ASCII, characters and bytes are counted alike. -/
theorem byteLength_eq_length {cs : List Char} (h : ∀ c ∈ cs, c.toNat < 0x80) : byteLength cs = cs.length := by
  induction cs with
  | nil => rfl
  | cons c cs ih =>
      have hc := utf8Size_eq_one (h c (.head _))
      have hcs := ih fun d hd => h d (.tail _ hd)
      rw [Text.byteLength_cons, List.length_cons, hc, hcs]
      omega

theorem isAlpha_iff {c : Char} :
    c.isAlpha = true ↔ (65 ≤ c.toNat ∧ c.toNat ≤ 90) ∨ (97 ≤ c.toNat ∧ c.toNat ≤ 122) := by
  show (decide (65 ≤ c.val ∧ c.val ≤ 90) || (decide (97 ≤ c.val) && decide (c.val ≤ 122))) = true ↔ _
  simp only [Bool.or_eq_true, Bool.and_eq_true, decide_eq_true_eq, UInt32.le_iff_toNat_le]
  exact Iff.rfl

theorem isDigit_iff {c : Char} : c.isDigit = true ↔ 48 ≤ c.toNat ∧ c.toNat ≤ 57 := by
  show (decide (48 ≤ c.val) && decide (c.val ≤ 57)) = true ↔ _
  simp only [Bool.and_eq_true, decide_eq_true_eq, UInt32.le_iff_toNat_le]
  exact Iff.rfl

theorem isNameStart_iff {c : Char} : isNameStart c = true ↔
    ((65 ≤ c.toNat ∧ c.toNat ≤ 90) ∨ (97 ≤ c.toNat ∧ c.toNat ≤ 122)) ∨ c = '_' := by
  rw [isNameStart, Bool.or_eq_true, isAlpha_iff, beq_iff_eq]

theorem isNameRest_iff {c : Char} : isNameRest c = true ↔
    (((65 ≤ c.toNat ∧ c.toNat ≤ 90) ∨ (97 ≤ c.toNat ∧ c.toNat ≤ 122)) ∨ (48 ≤ c.toNat ∧ c.toNat ≤ 57)) ∨ c = '_' := by
  rw [isNameRest, Char.isAlphanum, Bool.or_eq_true, Bool.or_eq_true, isAlpha_iff, isDigit_iff, beq_iff_eq]

theorem isNameRest_of_isDigit {c : Char} (h : c.isDigit = true) : isNameRest c = true :=
  isNameRest_iff.2 (.inl (.inr (isDigit_iff.1 h)))

theorem isNameRest_of_isNameStart {c : Char} (h : isNameStart c = true) : isNameRest c = true :=
  isNameRest_iff.2 ((isNameStart_iff.1 h).imp_left .inl)

/-- The characters of names are ASCII ones, and none of them is a mark. -/
theorem toNat_of_isNameRest {c : Char} (h : isNameRest c = true) : 0x2f < c.toNat ∧ c.toNat < 0x80 := by
  rcases isNameRest_iff.1 h with h | rfl
  · omega
  · decide

theorem toNat_lt_of_isNameRest {c : Char} (h : isNameRest c = true) : c.toNat < 0x80 := (toNat_of_isNameRest h).2

/-- What holds of each character of a text at hand is computed. -/
theorem forall_mem_of_all {cs : List Char} {P : Char → Prop} [DecidablePred P]
    (h : cs.all (fun c => decide (P c)) = true) : ∀ c ∈ cs, P c :=
  fun c hc => of_decide_eq_true (List.all_eq_true.1 h c hc)

/-- A character of a name differs from every character that is none. -/
theorem ne_of_isNameRest {c d : Char} (hc : isNameRest c = true) (hd : isNameRest d = false) : c ≠ d := by
  rintro rfl
  rw [hc] at hd
  cases hd

theorem isNameRest_of_isHexDigit {c : Char} (h : isHexDigit c = true) : isNameRest c = true := by
  simp only [isHexDigit, Numeral.digit?, Numeral.digitValue?] at h
  rw [isNameRest_iff]
  split at h
  · rename_i hc
    exact .inl (.inr hc)
  · split at h
    · rename_i hc
      exact .inl (.inl (.inr hc))
    · split at h
      · rename_i hc
        exact .inl (.inl (.inl hc))
      · cases h

/-- Nothing here makes a name or a numeral in front of it longer. -/
def Delimits (rest : List Char) : Prop := ∀ c ∈ rest.head?, isNameRest c = false

@[simp] theorem delimits_nil : Delimits [] := nofun

@[simp] theorem delimits_cons {c : Char} {cs : List Char} : Delimits (c :: cs) ↔ isNameRest c = false := by
  simp [Delimits]

/-- Before such characters a class that is part of those of a name takes all it can take. -/
theorem Delimits.takeWhile {p : Char → Bool} {cs rest : List Char} (h : Delimits rest)
    (hp : ∀ c, p c = true → isNameRest c = true) (hcs : ∀ c ∈ cs, p c = true) :
    (cs ++ rest).takeWhile p = cs ∧ (cs ++ rest).dropWhile p = rest := by
  rw [List.takeWhile_append_of_pos hcs, List.dropWhile_append_of_pos hcs]
  cases rest with
  | nil => simp
  | cons c rest =>
      have hc : ¬p c = true := fun hc => by simpa [delimits_cons.1 h] using hp c hc
      rw [List.takeWhile_cons_of_neg hc, List.dropWhile_cons_of_neg hc, List.append_nil]
      exact ⟨rfl, rfl⟩

/-! ## Inside and outside of literals -/

/-- Where a character stands. -/
inductive Mode where
  | outside
  /-- In a quoted literal. -/
  | inside
  /-- In a quoted literal, directly behind a backslash that escapes. -/
  | escaped

namespace Mode

/-- Where the character behind `c` stands. -/
def next : Mode → Char → Mode
  | outside, c => if c = '\'' then inside else outside
  | inside, c => if c = '\'' then outside else if c = '\\' then escaped else inside
  | escaped, _ => inside

/-- Where the text behind some characters stands. -/
def after (m : Mode) (cs : List Char) : Mode := cs.foldl next m

/-- Some character of the text is escaped and longer than a byte. -/
def Splits (m : Mode) (cs : List Char) : Prop :=
  ∃ front c back, cs = front ++ c :: back ∧ m.after front = escaped ∧ 0x80 ≤ c.toNat

@[simp] theorem splits_nil {m : Mode} : m.Splits [] ↔ False :=
  iff_false_intro fun ⟨front, c, back, h, _⟩ => by simp at h

@[simp] theorem splits_cons {m : Mode} {c : Char} {cs : List Char} :
    m.Splits (c :: cs) ↔ (m = escaped ∧ 0x80 ≤ c.toNat) ∨ (m.next c).Splits cs := by
  constructor
  · rintro ⟨front, d, back, h, hm, hd⟩
    cases front with
    | nil =>
        obtain ⟨rfl, rfl⟩ := List.cons.inj h
        exact .inl ⟨hm, hd⟩
    | cons a front =>
        obtain ⟨rfl, rfl⟩ := List.cons.inj h
        exact .inr ⟨front, d, back, rfl, hm, hd⟩
  · rintro (⟨rfl, hc⟩ | ⟨front, d, back, rfl, hm, hd⟩)
    · exact ⟨[], c, cs, rfl, rfl, hc⟩
    · exact ⟨c :: front, d, back, rfl, hm, hd⟩

/-- Without a quote the text stays outside. -/
theorem splits_outside_append {cs rest : List Char} (h : ∀ c ∈ cs, c ≠ '\'') :
    outside.Splits (cs ++ rest) ↔ outside.Splits rest := by
  induction cs with
  | nil => rfl
  | cons c cs ih =>
      rw [List.cons_append, splits_cons, next, if_neg (h c (.head _)), ih fun d hd => h d (.tail _ hd)]
      simp

/-- Without a quote and a backslash it stays in its literal. -/
theorem splits_inside_append (rest : List Char) {cs : List Char} (h : ∀ c ∈ cs, c ≠ '\'' ∧ c ≠ '\\') :
    inside.Splits (cs ++ rest) ↔ inside.Splits rest := by
  induction cs with
  | nil => rfl
  | cons c cs ih =>
      obtain ⟨hq, hb⟩ := h c (.head _)
      rw [List.cons_append, splits_cons, next, if_neg hq, if_neg hb, ih fun d hd => h d (.tail _ hd)]
      simp

end Mode

/-! ## The inside of a literal -/

theorem hexDigits_append (cs : List Char) : hexDigits cs ++ cs.drop (hexDigits cs).length = cs :=
  List.prefix_iff_eq_append.1 ((List.takeWhile_prefix _).trans (List.take_prefix _ _))

/-- The digits of an escape are hexadecimal. -/
theorem isHexDigit_of_mem_hexDigits {c : Char} {cs : List Char} (h : c ∈ hexDigits cs) : isHexDigit c = true :=
  List.all_eq_true.1 List.all_takeWhile c h

/-- The digits of an escape are the same ones if less follows them. -/
theorem hexDigits_of_append {ds a b : List Char} (h : hexDigits (ds ++ (a ++ b)) = ds) : hexDigits (ds ++ a) = ds := by
  have hl : ds.length ≤ 2 := by
    rw [← h]
    exact Nat.le_trans (List.takeWhile_prefix _).length_le (List.length_take_le _ _)
  rw [hexDigits, List.take_append, List.take_of_length_le hl] at h ⊢
  have hds : ∀ d ∈ ds, isHexDigit d = true := by
    rw [← h]
    exact fun d hd => List.all_eq_true.1 List.all_takeWhile d hd
  rw [List.takeWhile_append_of_pos hds] at h ⊢
  rw [List.append_right_eq_self] at h ⊢
  cases a with
  | nil => simp
  | cons x a => cases hn : 2 - ds.length <;> simp_all [List.takeWhile_cons]

theorem isNameRest_of_mem_hexDigits {c : Char} {cs : List Char} (h : c ∈ hexDigits cs) : isNameRest c = true :=
  isNameRest_of_isHexDigit (isHexDigit_of_mem_hexDigits h)

/-- The digits of an escape leave the text inside its literal. -/
theorem splits_drop_hexDigits (cs : List Char) :
    Mode.inside.Splits cs ↔ Mode.inside.Splits (cs.drop (hexDigits cs).length) := by
  have hplain : ∀ c ∈ hexDigits cs, c ≠ '\'' ∧ c ≠ '\\' := fun c hc =>
    ⟨ne_of_isNameRest (isNameRest_of_mem_hexDigits hc) rfl, ne_of_isNameRest (isNameRest_of_mem_hexDigits hc) rfl⟩
  have hs := Mode.splits_inside_append (cs.drop (hexDigits cs).length) hplain
  rwa [hexDigits_append] at hs

/-- A fault of a token that takes the bytes of `s`. -/
structure Fault.IsIn (f : Fault) (s : Span) : Prop where
  problem : ∀ c, f.problem ≠ .unexpectedCharacter c
  start : s.start ≤ f.span.start
  ordered : f.span.start ≤ f.span.stop
  stop : f.span.stop ≤ s.stop

/-- A fault inside a token is inside of what the token is part of. -/
theorem Fault.IsIn.mono {f : Fault} {s s' : Span} (h : f.IsIn s) (hs : s'.start ≤ s.start) (he : s.stop ≤ s'.stop) :
    f.IsIn s' := ⟨h.problem, Nat.le_trans hs h.start, h.ordered, Nat.le_trans h.stop he⟩

theorem toNat_lt_of_escape? {c e : Char} (h : escape? c = some e) : c.toNat < 0x80 := by
  unfold escape? at h
  split at h <;> first | decide | cases h

/-- Only a character that is longer than a byte cannot be escaped. -/
theorem splits_of_escaped?_eq_none {pos : Nat} {c : Char} (h : escaped? pos c = none) : 0x80 ≤ c.toNat := by
  unfold escaped? at h
  split at h
  · cases h
  · split at h
    · cases h
    · omega

/-- An escape by a letter is of one byte, with a fault if it need not be one. -/
theorem escaped?_eq_some {pos : Nat} {c : Char} {e : Char × List Fault} (h : escaped? pos c = some e) :
    c.toNat < 0x80 ∧ (∀ f ∈ e.2, f.IsIn ⟨pos, pos + 2⟩) ∧ (e.2 = [] → ∀ pos', escaped? pos' c = some e) := by
  unfold escaped? at h ⊢
  cases he : escape? c with
  | some d =>
      rw [he] at h
      obtain rfl := Option.some.inj h
      exact ⟨toNat_lt_of_escape? he, nofun, fun _ _ => rfl⟩
  | none =>
      rw [he] at h
      dsimp only at h
      split at h
      · rename_i hc
        obtain rfl := Option.some.inj h
        refine ⟨hc, fun f hf => ?_, nofun⟩
        obtain rfl := List.mem_singleton.1 hf
        exact ⟨nofun, Nat.le_refl _, Nat.le_add_right _ _, Nat.le_refl _⟩
      · cases h

/-- What was read as the inside of a literal from `pos` on: what it takes, and what it is when it stands alone. -/
structure Body.Takes (b : Body) (start pos : Nat) (cs inner : List Char) : Prop where
  text : cs = inner ++ b.rest
  stop : b.stop = pos + byteLength inner
  faults : start ≤ pos → ∀ f ∈ b.faults, f.IsIn ⟨start, b.stop⟩
  alone : b.faults = [] → ∀ start' pos', body? start' pos' inner = some ⟨b.value, pos' + byteLength inner, [], []⟩
  splits : Mode.inside.Splits cs ↔ Mode.outside.Splits b.rest

/-- A literal without an end takes nothing more, and has a fault. -/
theorem takes_nil {start pos : Nat} :
    Body.Takes ⟨[], pos, [], [⟨.unterminatedText, ⟨start, pos⟩⟩]⟩ start pos [] [] where
  text := rfl
  stop := rfl
  faults h f hf := by
    obtain rfl := List.mem_singleton.1 hf
    exact ⟨nofun, Nat.le_refl _, h, Nat.le_refl _⟩
  alone := nofun
  splits := by simp

/-- A quote ends a literal, and it is part of it. -/
theorem takes_quote {start pos : Nat} {cs : List Char} :
    Body.Takes ⟨[], pos + 1, cs, []⟩ start pos ('\'' :: cs) ['\''] where
  text := rfl
  stop := rfl
  faults := nofun
  alone _ start' pos' := by simp [body?, utf8Size_eq_one]
  splits := by simp [Mode.next]

/-- An escape by a code takes its letter and its digits. -/
theorem Body.Takes.hex {b : Body} {start pos : Nat} {cs inner : List Char}
    (h : b.Takes start (pos + 2 + (hexDigits cs).length) (cs.drop (hexDigits cs).length) inner) :
    (b.push (hexCharacter (hexDigits cs)) (hexFaults pos (hexDigits cs))).Takes start pos ('\\' :: 'x' :: cs)
      ('\\' :: 'x' :: (hexDigits cs ++ inner)) := by
  have hcs : cs = hexDigits cs ++ (inner ++ b.rest) := by rw [← h.text, hexDigits_append]
  have hlength : byteLength (hexDigits cs) = (hexDigits cs).length :=
    byteLength_eq_length fun c hc => toNat_lt_of_isNameRest (isNameRest_of_mem_hexDigits hc)
  have hstop : b.stop = pos + byteLength ('\\' :: 'x' :: (hexDigits cs ++ inner)) := by
    rw [h.stop, Text.byteLength_cons, Text.byteLength_cons, Text.byteLength_append, hlength,
      utf8Size_eq_one (by decide), utf8Size_eq_one (by decide)]
    omega
  refine ⟨?_, hstop, fun hs f hf => ?_, fun hf start' pos' => ?_, ?_⟩
  · rw [List.cons_append, List.cons_append, List.append_assoc]
    exact congrArg (fun cs => '\\' :: 'x' :: cs) hcs
  · rcases List.mem_append.1 hf with hf | hf
    · unfold hexFaults at hf
      split at hf
      · obtain rfl := List.mem_singleton.1 hf
        have hb : pos + 2 ≤ b.stop := by rw [h.stop]; omega
        exact ⟨nofun, Nat.le_trans hs (Nat.le_add_right _ _), Nat.le_refl _, hb⟩
      · cases hf
    · exact h.faults (by omega) f hf
  · obtain ⟨hempty, hf⟩ := List.append_eq_nil_iff.1 hf
    -- on their own the digits are followed by less, and so they are the same
    have hdigits : hexDigits (hexDigits cs ++ inner) = hexDigits cs := hexDigits_of_append (by rw [← hcs])
    rw [body?, hdigits, List.drop_left, h.alone hf]
    have hempty' : hexFaults pos' (hexDigits cs) = [] := by
      unfold hexFaults at hempty ⊢
      split at hempty
      · cases hempty
      · rename_i hne
        rw [if_neg hne]
    simp [Body.push, hempty', hlength, utf8Size_eq_one]
    omega
  · simp [Mode.next, splits_drop_hexDigits cs, h.splits, Body.push]

/-- An escape by a letter takes two characters. -/
theorem Body.Takes.escape {b : Body} {start pos : Nat} {c : Char} {e : Char × List Fault} {cs inner : List Char}
    (h : b.Takes start (pos + 2) cs inner) (hx : c ≠ 'x') (he : escaped? pos c = some e) :
    (b.push e.1 e.2).Takes start pos ('\\' :: c :: cs) ('\\' :: c :: inner) := by
  obtain ⟨hc, hin, halone⟩ := escaped?_eq_some he
  have hstop : b.stop = pos + byteLength ('\\' :: c :: inner) := by
    rw [h.stop, Text.byteLength_cons, Text.byteLength_cons, utf8Size_eq_one hc, utf8Size_eq_one (by decide)]
    omega
  refine ⟨by rw [h.text]; rfl, hstop, fun hs f hf => ?_, fun hf start' pos' => ?_, ?_⟩
  · rcases List.mem_append.1 hf with hf | hf
    · have hb : pos + 2 ≤ b.stop := by rw [h.stop]; omega
      exact (hin f hf).mono hs hb
    · exact h.faults (by omega) f hf
  · obtain ⟨hempty, hf⟩ := List.append_eq_nil_iff.1 hf
    rw [body?, halone hempty pos', Option.bind_some, h.alone hf]
    · simp [Body.push, hempty, utf8Size_eq_one hc, utf8Size_eq_one]
      omega
    · exact hx
  · simp [Mode.next, h.splits, Nat.not_le.2 hc, Body.push]

/-- Any other character takes itself. -/
theorem Body.Takes.plain {b : Body} {start pos : Nat} {c : Char} {cs inner : List Char}
    (h : b.Takes start (pos + c.utf8Size) cs inner) (hq : c ≠ '\'') (hb : c = '\\' → cs = []) :
    (b.push c []).Takes start pos (c :: cs) (c :: inner) := by
  refine ⟨by rw [h.text]; rfl, ?_, fun hs f hf => ?_, fun hf start' pos' => ?_, ?_⟩
  · rw [Body.push, h.stop, Text.byteLength_cons, Nat.add_assoc]
  · exact h.faults (Nat.le_trans hs (Nat.le_add_right _ _)) f hf
  · have halone := h.alone hf start' (pos' + c.utf8Size)
    -- a backslash at the end of the text leaves the literal open, which is a fault
    have hc : c ≠ '\\' := by
      intro hc
      have htext := h.text
      rw [hb hc] at htext
      obtain ⟨rfl, -⟩ := List.append_eq_nil_iff.1 htext.symm
      simp [body?] at halone
    rw [body?, halone]
    · simp [Body.push, Nat.add_assoc]
    · exact hq
    · exact fun _ hc' => absurd hc' hc
    · exact fun _ _ hc' => absurd hc' hc
  · by_cases hc : c = '\\'
    · have htext := h.text
      rw [hb hc] at htext ⊢
      obtain ⟨-, hrest⟩ := List.append_eq_nil_iff.1 htext.symm
      simp [Body.push, hrest]
    · simp [Body.push, Mode.next, hq, hc, h.splits]

/-- Whatever is read of a literal, it is some of the text, and the rest is outside again. -/
theorem exists_body?_takes {start pos : Nat} {cs : List Char} {b : Body} (h : body? start pos cs = some b) :
    ∃ inner, b.Takes start pos cs inner := by
  fun_induction body? start pos cs generalizing b with
  | case1 pos =>
      obtain rfl := Option.some.inj h
      exact ⟨[], takes_nil⟩
  | case2 pos cs =>
      obtain rfl := Option.some.inj h
      exact ⟨['\''], takes_quote⟩
  -- A hexadecimal escape, another escape, and a plain character: each stands in front of a shorter literal.
  | case3 pos cs ih =>
      obtain ⟨b, hb, rfl⟩ := Option.map_eq_some_iff.1 h
      obtain ⟨inner, ht⟩ := ih hb
      exact ⟨_, ht.hex⟩
  | case4 pos c cs hx ih =>
      obtain ⟨e, he, h⟩ := Option.bind_eq_some_iff.1 h
      obtain ⟨b, hb, rfl⟩ := Option.map_eq_some_iff.1 h
      obtain ⟨inner, ht⟩ := ih hb
      exact ⟨_, ht.escape hx he⟩
  | case5 pos c cs hq hx hb ih =>
      obtain ⟨b, hbody, rfl⟩ := Option.map_eq_some_iff.1 h
      obtain ⟨inner, ht⟩ := ih hbody
      refine ⟨_, ht.plain hq fun hc => ?_⟩
      cases cs with
      | nil => rfl
      | cons d cs => exact (hb d cs hc rfl).elim

/-- A literal has no reading only if an escaped character in it is longer than a byte. -/
theorem splits_of_body?_eq_none {start pos : Nat} {cs : List Char} (h : body? start pos cs = none) :
    Mode.inside.Splits cs := by
  fun_induction body? start pos cs with
  | case1 => cases h
  | case2 => cases h
  | case3 pos cs ih =>
      have hs := (splits_drop_hexDigits _).2 (ih (Option.map_eq_none_iff.1 h))
      simp [Mode.next, hs]
  | case4 pos c cs hx ih =>
      cases he : escaped? pos c with
      | none => simp [Mode.next, splits_of_escaped?_eq_none he]
      | some e =>
          rw [he, Option.bind_some, Option.map_eq_none_iff] at h
          simp [Mode.next, ih h]
  | case5 pos c cs hq hx hb ih =>
      have hs := ih (Option.map_eq_none_iff.1 h)
      -- A backslash would have been an escape, unless the text ended there.
      have hc : c ≠ '\\' := by
        rintro rfl
        cases cs with
        | nil => simp at hs
        | cons d cs => exact hb d cs rfl rfl
      have hq : c ≠ '\'' := hq
      simp [Mode.next, hq, hc, hs]

/-! ## The piece of a token -/

/-- On its own the lexeme is this token, without a fault. -/
def Spells (k : Kind) (lexeme : List Char) : Prop :=
  ∃ c cs, lexeme = c :: cs ∧ ∀ pos, piece? pos c cs = some ⟨some k, pos + byteLength lexeme, [], []⟩

/-- The spelling of an identifier. -/
def IsName (n : String) : Prop :=
  ∃ c cs, n.toList = c :: cs ∧ isNameStart c = true ∧ (∀ d ∈ cs, isNameRest d = true) ∧ wordKind n = .name n

/-- The contents that a token of a text may have. -/
def Kind.IsProper : Kind → Prop
  | .name n => IsName n
  | .finish => False
  | _ => True

theorem Kind.IsProper.ne_finish {k : Kind} (h : k.IsProper) : k ≠ .finish := by
  rintro rfl
  exact h

/-- The piece at `pos` is the token `k`, and the lexeme is what it takes of its text. -/
structure Piece.Takes (p : Piece) (pos : Nat) (cs lexeme : List Char) (k : Kind) : Prop where
  kind : p.kind = some k
  proper : k.IsProper
  text : cs = lexeme ++ p.rest
  ne_nil : lexeme ≠ []
  stop : p.stop = pos + byteLength lexeme
  faults : ∀ f ∈ p.faults, f.IsIn ⟨pos, p.stop⟩
  alone : p.faults = [] → Spells k lexeme
  splits : Mode.outside.Splits cs ↔ Mode.outside.Splits p.rest

/-- A word is as long as its characters go on. -/
theorem word_append (pos : Nat) {w rest : List Char} (hw : ∀ c ∈ w, isNameRest c = true) (hr : Delimits rest) :
    word pos (w ++ rest) = ⟨some (wordKind (String.ofList w)), pos + w.length, rest, []⟩ := by
  obtain ⟨ht, hd⟩ := hr.takeWhile (fun _ => id) hw
  rw [word, ht, hd]

/-- A numeral is as long as its digits go on. -/
theorem numeral_append (pos skip : Nat) {base : Nat} {isDigit : Char → Bool} {digits rest : List Char} {n : Int64}
    (hp : ∀ c, isDigit c = true → isNameRest c = true) (hd : ∀ c ∈ digits, isDigit c = true) (hne : digits ≠ [])
    (hn : literal? base digits = some n) (hr : Delimits rest) :
    numeral base pos skip isDigit (digits ++ rest) = ⟨some (.int n), pos + skip + digits.length, rest, []⟩ := by
  obtain ⟨ht, hd⟩ := hr.takeWhile hp hd
  have hstuck : rest.head?.any isNameRest = false := by
    cases rest with
    | nil => rfl
    | cons c rest => exact delimits_cons.1 hr
  simp [numeral, ht, hd, hne, hn, hstuck]

/-- A numeral takes its digits, and what is wrong with it concerns all of it. -/
theorem numeral_takes (base pos skip : Nat) (isDigit : Char → Bool) (cs : List Char) {p : Piece}
    (h : numeral base pos skip isDigit cs = p) :
    p.stop = pos + skip + (cs.takeWhile isDigit).length ∧ p.rest = cs.dropWhile isDigit ∧
      (∀ f ∈ p.faults, f.IsIn ⟨pos, p.stop⟩) ∧ ∃ n, p.kind = some (.int n) ∧
        (p.faults = [] → cs.takeWhile isDigit ≠ [] ∧ literal? base (cs.takeWhile isDigit) = some n) := by
  have hwhole : ∀ (problem : Problem) (stop : Nat), (∀ c, problem ≠ .unexpectedCharacter c) → pos ≤ stop →
      (⟨problem, ⟨pos, stop⟩⟩ : Fault).IsIn ⟨pos, stop⟩ := fun _ _ hp hs => ⟨hp, Nat.le_refl _, hs, Nat.le_refl _⟩
  have hle : pos ≤ pos + skip + (cs.takeWhile isDigit).length := by omega
  unfold numeral at h
  dsimp only at h
  -- No digit at all, or a run of digits that may have a letter stuck to it and may be too large.
  split at h
  · subst h
    refine ⟨rfl, rfl, fun f hf => ?_, 0, rfl, nofun⟩
    obtain rfl := List.mem_singleton.1 hf
    exact hwhole _ _ nofun hle
  · rename_i hne
    have hstuck : ∀ f ∈ (if (cs.dropWhile isDigit).head?.any isNameRest then
        [⟨.invalidDigit (String.ofList (cs.takeWhile isDigit)), ⟨pos, pos + skip + (cs.takeWhile isDigit).length⟩⟩]
        else [] : List Fault), f.IsIn ⟨pos, pos + skip + (cs.takeWhile isDigit).length⟩ := by
      intro f hf
      split at hf
      · obtain rfl := List.mem_singleton.1 hf
        exact hwhole _ _ nofun hle
      · cases hf
    split at h
    · rename_i n hn
      subst h
      exact ⟨rfl, rfl, hstuck, n, rfl, fun _ => ⟨by simpa using hne, hn⟩⟩
    · -- The fault is there in any case, so nothing is claimed of the value.
      subst h
      refine ⟨rfl, rfl, fun f hf => ?_, 0, rfl, fun hf => ?_⟩
      · rcases List.mem_append.1 hf with hf | hf
        · exact hstuck f hf
        · obtain rfl := List.mem_singleton.1 hf
          exact hwhole _ _ nofun hle
      · simp at hf

theorem piece?_number {pos : Nat} {c : Char} {cs : List Char} (h : c.isDigit = true) :
    piece? pos c cs = some (number pos (c :: cs)) := by
  rw [piece?, if_pos h]

/-- A lexeme of characters that a name may have is of as many bytes, and stays outside of literals. -/
theorem lexeme_of_name (rest : List Char) {lexeme : List Char} (h : ∀ c ∈ lexeme, isNameRest c = true) :
    byteLength lexeme = lexeme.length ∧
      (Mode.outside.Splits (lexeme ++ rest) ↔ Mode.outside.Splits rest) :=
  ⟨byteLength_eq_length fun c hc => toNat_lt_of_isNameRest (h c hc),
    Mode.splits_outside_append fun c hc => ne_of_isNameRest (h c hc) rfl⟩

/-- A numeral takes what leads it in and its digits. -/
theorem numeral_piece_takes (lead : List Char) {base pos : Nat} {cs t : List Char} {isDigit : Char → Bool} {c : Char}
    (hp : ∀ c, isDigit c = true → isNameRest c = true) (hlead : ∀ c ∈ lead, isNameRest c = true)
    (hc : c.isDigit = true) (hlexeme : lead ++ cs.takeWhile isDigit = c :: t)
    (hnumber : ∀ pos' ds, (∀ d ∈ ds, isDigit d = true) →
      number pos' (lead ++ ds) = numeral base pos' lead.length isDigit ds) :
    ∃ lexeme k, (numeral base pos lead.length isDigit cs).Takes pos (lead ++ cs) lexeme k := by
  obtain ⟨hstop, hrest, hfaults, n, hkind, hok⟩ := numeral_takes base pos lead.length isDigit cs rfl
  have hdigits : ∀ d ∈ cs.takeWhile isDigit, isDigit d = true := List.all_eq_true.1 List.all_takeWhile
  have hname : ∀ d ∈ lead ++ cs.takeWhile isDigit, isNameRest d = true := by
    intro d hd
    rcases List.mem_append.1 hd with hd | hd
    · exact hlead d hd
    · exact hp d (hdigits d hd)
  obtain ⟨hlength, hsplits⟩ := lexeme_of_name (cs.dropWhile isDigit) hname
  have htext : lead ++ cs = lead ++ cs.takeWhile isDigit ++ cs.dropWhile isDigit := by
    rw [List.append_assoc, List.takeWhile_append_dropWhile]
  refine ⟨lead ++ cs.takeWhile isDigit, .int n, hkind, trivial, ?_, ?_, ?_, hfaults, fun hf => ?_, ?_⟩
  · rw [hrest, htext]
  · rw [hlexeme]
    nofun
  · rw [hstop, hlength, List.length_append, Nat.add_assoc]
  · obtain ⟨hne, hn⟩ := hok hf
    refine ⟨c, t, hlexeme, fun pos' => ?_⟩
    have hone := numeral_append pos' lead.length hp hdigits hne hn delimits_nil
    rw [List.append_nil] at hone
    rw [piece?_number hc, ← hlexeme, hnumber pos' _ hdigits, hone, hlength, List.length_append, Nat.add_assoc]
  · rw [hrest, htext, hsplits]

/-- Decimal digits have no lead that would make them hexadecimal. -/
theorem number_of_digits {pos : Nat} {ds : List Char} (h : ∀ d ∈ ds, d.isDigit = true) :
    number pos ds = numeral 10 pos 0 Char.isDigit ds := by
  fun_cases number pos ds with
  | case1 cs => exact absurd (h 'x' (by simp)) (by decide)
  | case2 cs => exact absurd (h 'X' (by simp)) (by decide)
  | case3 => rfl

/-- A number takes its digits, and its lead if it is hexadecimal. -/
theorem number_takes {pos : Nat} {c : Char} {cs : List Char} (h : c.isDigit = true) :
    ∃ lexeme k, (number pos (c :: cs)).Takes pos (c :: cs) lexeme k := by
  generalize htext : c :: cs = text
  fun_cases number pos text with
  | case1 r =>
      exact numeral_piece_takes ['0', 'x'] (fun _ => isNameRest_of_isHexDigit) (forall_mem_of_all rfl) (by decide) rfl
        fun _ _ _ => rfl
  | case2 r =>
      exact numeral_piece_takes ['0', 'X'] (fun _ => isNameRest_of_isHexDigit) (forall_mem_of_all rfl) (by decide) rfl
        fun _ _ _ => rfl
  | case3 =>
      subst htext
      exact numeral_piece_takes [] (fun _ => isNameRest_of_isDigit) (List.forall_mem_nil _) h
        (List.takeWhile_cons_of_pos h) fun _ _ => number_of_digits

theorem piece?_word {pos : Nat} {c : Char} {cs : List Char} (hd : c.isDigit = false) (hq : c ≠ '\'')
    (h : isNameStart c = true) : piece? pos c cs = some (word pos (c :: cs)) := by
  rw [piece?, if_neg (by simp [hd]), if_neg hq, if_pos h]

/-- A word that is no keyword is a name. -/
theorem isProper_wordKind {w : List Char} {c : Char} {cs : List Char} (hw : w = c :: cs) (hc : isNameStart c = true)
    (hcs : ∀ d ∈ cs, isNameRest d = true) : (wordKind (String.ofList w)).IsProper := by
  have hname : wordKind (String.ofList w) = .name (String.ofList w) → IsName (String.ofList w) := fun h =>
    ⟨c, cs, by rw [String.toList_ofList, hw], hc, hcs, h⟩
  unfold wordKind at hname ⊢
  split
  · trivial
  · split
    · trivial
    · split
      · trivial
      · simp_all [Kind.IsProper]

/-- A word takes all characters of a name. -/
theorem word_takes {pos : Nat} {c : Char} {cs : List Char} (hd : c.isDigit = false) (hq : c ≠ '\'')
    (h : isNameStart c = true) : ∃ lexeme k, (word pos (c :: cs)).Takes pos (c :: cs) lexeme k := by
  have hall : ∀ d ∈ (c :: cs).takeWhile isNameRest, isNameRest d = true := List.all_eq_true.1 List.all_takeWhile
  have hcons : (c :: cs).takeWhile isNameRest = c :: cs.takeWhile isNameRest :=
    List.takeWhile_cons_of_pos (isNameRest_of_isNameStart h)
  have htext : c :: cs = (c :: cs).takeWhile isNameRest ++ (c :: cs).dropWhile isNameRest :=
    List.takeWhile_append_dropWhile.symm
  obtain ⟨hlength, hsplits⟩ := lexeme_of_name ((c :: cs).dropWhile isNameRest) hall
  refine ⟨(c :: cs).takeWhile isNameRest, _, rfl, ?_, htext, ?_, ?_, nofun, fun _ => ?_, ?_⟩
  · exact isProper_wordKind hcons h fun d hd => hall d (hcons ▸ .tail _ hd)
  · rw [hcons]
    nofun
  · rw [hlength]
    rfl
  · refine ⟨c, _, hcons, fun pos' => ?_⟩
    have hone := word_append pos' hall delimits_nil
    rw [List.append_nil] at hone
    rw [piece?_word hd hq h, ← hcons, hone, hlength]
  · rw [← htext] at hsplits
    exact hsplits

/-- A symbol takes its spelling. -/
theorem symbol?_takes {cs rest : List Char} {s : Symbol} (h : symbol? cs = some (s, rest)) :
    cs = s.text.toList ++ rest ∧ symbol? s.text.toList = some (s, []) ∧
      ∀ c ∈ s.text.toList, c.toNat < 0x80 ∧ c ≠ '\'' := by
  unfold symbol? at h
  split at h <;> first | contradiction | (cases h; exact ⟨rfl, rfl, forall_mem_of_all (by decide)⟩)

/-- A symbol takes its spelling, the longest one that fits. -/
theorem symbol_takes {pos : Nat} {c : Char} {cs rest : List Char} {s : Symbol} (hd : c.isDigit = false) (hq : c ≠ '\'')
    (hn : isNameStart c = false) (h : symbol? (c :: cs) = some (s, rest)) :
    ∃ lexeme k, Piece.Takes ⟨some (.symbol s), pos + s.text.length, rest, []⟩ pos (c :: cs) lexeme k := by
  obtain ⟨htext, hone, hchars⟩ := symbol?_takes h
  have hlength : byteLength s.text.toList = s.text.length := by
    rw [byteLength_eq_length fun c hc => (hchars c hc).1, String.length_toList]
  have hne : s.text.toList ≠ [] := by cases s <;> decide
  obtain ⟨d, t, hcons⟩ := List.exists_cons_of_ne_nil hne
  obtain rfl : c = d := by
    rw [hcons] at htext
    exact (List.cons.inj htext).1
  refine ⟨s.text.toList, .symbol s, rfl, trivial, htext, hne, ?_, nofun, fun _ => ⟨c, t, hcons, fun pos' => ?_⟩, ?_⟩
  · rw [hlength]
  · rw [hcons] at hone
    rw [piece?, if_neg (by simp [hd]), if_neg hq, if_neg (by simp [hn]), hone, hlength]
  · rw [htext]
    exact Mode.splits_outside_append fun c hc => (hchars c hc).2

theorem piece?_text {pos : Nat} {cs : List Char} : piece? pos '\'' cs = (body? pos (pos + 1) cs).map fun b =>
    ⟨some (.text (String.ofList b.value)), b.stop, b.rest, b.faults⟩ := by
  rw [piece?, if_neg (by decide), if_pos rfl]

/-- A literal takes its quotes and what is between them. -/
theorem text_takes {pos : Nat} {cs : List Char} {b : Body} (h : body? pos (pos + 1) cs = some b) :
    ∃ lexeme k,
      Piece.Takes ⟨some (.text (String.ofList b.value)), b.stop, b.rest, b.faults⟩ pos ('\'' :: cs) lexeme k := by
  obtain ⟨inner, ht⟩ := exists_body?_takes h
  have hlength : byteLength ('\'' :: inner) = 1 + byteLength inner := rfl
  refine ⟨'\'' :: inner, _, rfl, trivial, by rw [ht.text]; rfl, nofun, ?_, ht.faults (Nat.le_succ pos), fun hf => ?_,
    ?_⟩
  · rw [ht.stop, hlength, Nat.add_assoc]
  · refine ⟨'\'', inner, rfl, fun pos' => ?_⟩
    rw [piece?_text, ht.alone hf, Option.map_some, hlength, Nat.add_assoc]
  · simp [Mode.next, ht.splits]

/-- A piece is a token, or it is a single character that starts none. -/
theorem piece?_eq_some {pos : Nat} {c : Char} {cs : List Char} {p : Piece} (h : piece? pos c cs = some p) :
    (∃ lexeme k, p.Takes pos (c :: cs) lexeme k) ∨
      c ≠ '\'' ∧ p = ⟨none, pos + c.utf8Size, cs, [⟨.unexpectedCharacter c, ⟨pos, pos + c.utf8Size⟩⟩]⟩ := by
  -- The first character decides, in the order in which the scanner asks: a digit, a quote, a letter, anything else.
  by_cases hd : c.isDigit = true
  · rw [piece?_number hd] at h
    obtain rfl := Option.some.inj h
    exact .inl (number_takes hd)
  · have hd : c.isDigit = false := by simpa using hd
    by_cases hq : c = '\''
    · subst hq
      rw [piece?_text] at h
      obtain ⟨b, hb, rfl⟩ := Option.map_eq_some_iff.1 h
      exact .inl (text_takes hb)
    · by_cases hn : isNameStart c = true
      · rw [piece?_word hd hq hn] at h
        obtain rfl := Option.some.inj h
        exact .inl (word_takes hd hq hn)
      · rw [piece?, if_neg (by simp [hd]), if_neg hq, if_neg hn] at h
        split at h
        · rename_i s rest hs
          obtain rfl := Option.some.inj h
          exact .inl (symbol_takes hd hq (by simpa using hn) hs)
        · obtain rfl := Option.some.inj h
          exact .inr ⟨hq, rfl⟩

/-- Only a literal may have no reading. -/
theorem piece?_eq_none {pos : Nat} {c : Char} {cs : List Char} (h : piece? pos c cs = none) :
    Mode.outside.Splits (c :: cs) := by
  unfold piece? at h
  split at h
  · cases h
  · split at h
    · rename_i hq
      subst hq
      have hs := splits_of_body?_eq_none (Option.map_eq_none_iff.1 h)
      simp [Mode.next, hs]
    · split at h
      · cases h
      · split at h <;> cases h

end BinaryFormat.Token
