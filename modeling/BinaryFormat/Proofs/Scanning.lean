import BinaryFormat.Proofs.Lexemes

/-!
# A scan accounts for its text

Every character of a text is in one token, or is a space, or is reported as a stray. `Lays` says so by building the
text from its front, one space, stray or lexeme at a time, with the tokens and faults that each of them contributes.
The offset is carried along, so that what a token or a fault claims about its bytes is part of the judgement and not
computed from it.

Whatever is said of spans afterwards is an induction on `Lays`; the scanner is looked at once.
-/

namespace BinaryFormat

open Text (byteLength)

/-! ## Cutting a text where a character begins -/

/-- A text is cut where a character ends. -/
theorem splitAtByte?_append (front back : List Char) :
    splitAtByte? (byteLength front) (front ++ back) = some (front, back) := by
  induction front with
  | nil => cases back <;> simp [splitAtByte?]
  | cons c front ih =>
      have hc : 0 < c.utf8Size := c.utf8Size_pos
      obtain ⟨n, hn⟩ := Nat.exists_eq_succ_of_ne_zero (Nat.ne_of_gt (Nat.lt_add_right (byteLength front) hc))
      have hrest : n + 1 - c.utf8Size = byteLength front := by omega
      rw [Text.byteLength_cons, hn, List.cons_append, splitAtByte?, if_pos (by omega), hrest, ih]
      rfl

/-- A range from where a character begins to where one begins covers what is between. -/
theorem Span.excerpt_append (front cs back : List Char) :
    (⟨byteLength front, byteLength front + byteLength cs⟩ : Span).excerpt (front ++ (cs ++ back)) = cs := by
  have hlength : byteLength front + byteLength cs - byteLength front = byteLength cs := Nat.add_sub_cancel_left ..
  simp [Span.excerpt, splitAtByte?_append, hlength]

/-- A character of a text in two parts is in the first or in the second. -/
theorem append_eq_append_cons {d cs front back : List Char} {c : Char} (h : d ++ cs = front ++ c :: back) :
    (∃ tail, d = front ++ c :: tail) ∨ ∃ further, front = d ++ further ∧ cs = further ++ c :: back := by
  rcases List.append_eq_append_iff.1 h.symm with ⟨tail, rfl, hback⟩ | ⟨further, hfront, hcs⟩
  · cases tail with
    | nil => exact .inr ⟨[], by simp, hback.symm⟩
    | cons e tail =>
        obtain rfl := (List.cons.inj hback).1
        exact .inl ⟨tail, rfl⟩
  · exact .inr ⟨further, hfront, hcs⟩

theorem byteLength_pos {cs : List Char} (h : cs ≠ []) : 0 < byteLength cs := by
  obtain ⟨c, cs, rfl⟩ := List.exists_cons_of_ne_nil h
  exact Nat.lt_add_right _ c.utf8Size_pos

namespace Span

/-- The bytes of `t` are among those of `s`. -/
def Covers (s t : Span) : Prop := s.start ≤ t.start ∧ t.stop ≤ s.stop

/-- One of the ranges ends before the other begins. -/
def Apart (s t : Span) : Prop := s.stop ≤ t.start ∨ t.stop ≤ s.start

/-- The bytes of the character `c` behind some others. -/
def behind (front : List Char) (c : Char) : Span := ⟨byteLength front, byteLength front + c.utf8Size⟩

/-- The same range in a text that begins at `pos`. -/
def shift (pos : Nat) (s : Span) : Span := ⟨pos + s.start, pos + s.stop⟩

theorem shift_behind_nil (pos : Nat) (c : Char) : (behind [] c).shift pos = ⟨pos, pos + c.utf8Size⟩ := by
  simp [behind, shift]

theorem shift_behind_cons (pos : Nat) (d : Char) (front : List Char) (c : Char) :
    (behind (d :: front) c).shift pos = (behind front c).shift (pos + d.utf8Size) := by
  simp [behind, shift, Nat.add_assoc]

theorem shift_behind_append (pos : Nat) (d front : List Char) (c : Char) :
    (behind (d ++ front) c).shift pos = (behind front c).shift (pos + byteLength d) := by
  simp [behind, shift, Nat.add_assoc]

end Span

namespace Token

/-! ## How a text is laid out -/

/-- Scanned on its own, the lexeme is this token and nothing else. -/
def Alone (k : Kind) (lexeme : List Char) : Prop :=
  let n := byteLength lexeme
  scan? 0 lexeme = some { tokens := [⟨k, ⟨0, n⟩⟩, ⟨.finish, ⟨n, n⟩⟩], faults := [] }

/-- A text that begins at `pos` consists of spaces, of strays that are reported, and of these tokens, whose faults
lie in them. -/
inductive Lays : Nat → List Char → List Token → List Fault → Prop where
  | done {pos : Nat} : Lays pos [] [] []
  | space {pos : Nat} {c : Char} {cs : List Char} {ts : List Token} {fs : List Fault} : isSpace c = true →
      Lays (pos + c.utf8Size) cs ts fs → Lays pos (c :: cs) ts fs
  | stray {pos : Nat} {c : Char} {cs : List Char} {ts : List Token} {fs : List Fault} : isSpace c = false →
      Lays (pos + c.utf8Size) cs ts fs →
      Lays pos (c :: cs) ts (⟨.unexpectedCharacter c, ⟨pos, pos + c.utf8Size⟩⟩ :: fs)
  | token {pos : Nat} {lexeme cs : List Char} {k : Kind} {ts : List Token} {own fs : List Fault} : lexeme ≠ [] →
      k.IsProper → (∀ f ∈ own, f.IsIn ⟨pos, pos + byteLength lexeme⟩) → (own = [] → Alone k lexeme) →
      Lays (pos + byteLength lexeme) cs ts fs →
      Lays pos (lexeme ++ cs) (⟨k, ⟨pos, pos + byteLength lexeme⟩⟩ :: ts) (own ++ fs)

theorem scan?_space {pos : Nat} {c : Char} {cs : List Char} (h : isSpace c = true) :
    scan? pos (c :: cs) = scan? (pos + 1) cs := by
  rw [scan?, if_pos h]

/-- Behind a piece the scan goes on with what is left, and its end is where the piece ends. -/
theorem scan?_piece {pos : Nat} {c : Char} {cs : List Char} {p : Piece} (h : isSpace c = false)
    (hp : piece? pos c cs = some p) : scan? pos (c :: cs) = (scan? p.stop p.rest).map (·.push pos p) := by
  rw [scan?, if_neg (by simp [h])]
  split
  · rename_i hnone
    rw [hp] at hnone
    cases hnone
  · rename_i q hq
    obtain rfl := Option.some.inj (hp.symm.trans hq)
    rfl

theorem utf8Size_of_isSpace {c : Char} (h : isSpace c = true) : c.utf8Size = 1 := by
  refine utf8Size_eq_one ?_
  simp only [isSpace, Bool.or_eq_true, beq_iff_eq] at h
  rcases h with (((rfl | rfl) | rfl) | rfl) | rfl <;> decide

theorem alone_of_spells {k : Kind} {c : Char} {cs : List Char} (hc : isSpace c = false) (h : Spells k (c :: cs)) :
    Alone k (c :: cs) := by
  obtain ⟨d, ds, hcons, hpiece⟩ := h
  obtain ⟨rfl, rfl⟩ := List.cons.inj hcons
  rw [Alone, scan?_piece hc (hpiece 0), scan?]
  simp [Scan.push]

/-- Behind a token the text is laid out as before. -/
theorem Piece.Takes.lays {p : Piece} {pos : Nat} {c : Char} {cs lexeme : List Char} {k : Kind} {ts : List Token}
    {fs : List Fault} (h : p.Takes pos (c :: cs) lexeme k) (hc : isSpace c = false) (hl : Lays p.stop p.rest ts fs) :
    Lays pos (c :: cs) (⟨k, ⟨pos, p.stop⟩⟩ :: ts) (p.faults ++ fs) := by
  obtain ⟨d, tail, hcons⟩ := List.exists_cons_of_ne_nil h.ne_nil
  have htext := h.text
  rw [hcons] at htext
  obtain rfl : c = d := (List.cons.inj htext).1
  have halone : p.faults = [] → Alone k lexeme := fun hf => hcons ▸ alone_of_spells hc (hcons ▸ h.alone hf)
  have hstop := h.stop
  have hfaults := h.faults
  rw [hstop] at hl hfaults ⊢
  rw [h.text]
  exact .token h.ne_nil h.proper hfaults halone hl

/-- A scan that comes to an end has laid out its text, and closes it with the end token. -/
theorem lays_of_scan? {pos : Nat} {cs : List Char} {s : Scan} (h : scan? pos cs = some s) :
    ∃ ts, Lays pos cs ts s.faults ∧
      s.tokens = ts ++ [⟨.finish, ⟨pos + byteLength cs, pos + byteLength cs⟩⟩] := by
  fun_induction scan? pos cs generalizing s with
  | case1 pos =>
      obtain rfl := Option.some.inj h
      exact ⟨[], .done, rfl⟩
  | case2 pos c cs hc ih =>
      obtain ⟨ts, hl, hts⟩ := ih h
      rw [← utf8Size_of_isSpace hc] at hl hts
      exact ⟨ts, .space hc hl, by rw [hts, Text.byteLength_cons, Nat.add_assoc]⟩
  | case3 pos c cs hc hp => cases h
  | case4 pos c cs hc p hp ih =>
      have hc : isSpace c = false := by simpa using hc
      obtain ⟨s, hs, rfl⟩ := Option.map_eq_some_iff.1 h
      obtain ⟨ts, hl, hts⟩ := ih hs
      -- A piece lays out its lexeme and gives a token, or it skips a character with a fault.
      rcases piece?_eq_some hp with ⟨lexeme, k, ht⟩ | ⟨-, rfl⟩
      · have hend : p.stop + byteLength p.rest = pos + byteLength (c :: cs) := by
          rw [ht.stop, ht.text, Text.byteLength_append, Nat.add_assoc]
        refine ⟨_, ht.lays hc hl, ?_⟩
        simp [Scan.push, ht.kind, hts, hend]
      · refine ⟨ts, .stray hc hl, ?_⟩
        simp [Scan.push, hts, Nat.add_assoc]

/-- A text has a scan unless an escape in it would split a character. -/
theorem scan?_eq_none_iff {pos : Nat} {cs : List Char} : scan? pos cs = none ↔ Mode.outside.Splits cs := by
  fun_induction scan? pos cs with
  | case1 pos => simp
  | case2 pos c cs hc ih =>
      have hq : c ≠ '\'' := by rintro rfl; exact absurd hc (by decide)
      simp [ih, Mode.next, hq]
  | case3 pos c cs hc hp => simp [piece?_eq_none hp]
  | case4 pos c cs hc p hp ih =>
      rw [Option.map_eq_none_iff, ih]
      rcases piece?_eq_some hp with ⟨lexeme, k, ht⟩ | ⟨hq, rfl⟩
      · exact ht.splits.symm
      · simp [Mode.next, hq]

/-! ## What the layout says of spans -/

/-- The character `c`, whose bytes are `s`, is in a token, or it is outside all of them, and then it is a space or
one fault reports it. -/
def Accounted (ts : List Token) (fs : List Fault) (c : Char) (s : Span) : Prop :=
  (∃ t ∈ ts, t.span.Covers s) ∨
    ((∀ t ∈ ts, t.span.Apart s) ∧ (isSpace c = true ∨ fs.count ⟨.unexpectedCharacter c, s⟩ = 1))

/-- The token takes some characters of a text that begins at `pos`, and if there are no faults, these are the token
also when they stand alone. -/
def TakenFrom (t : Token) (pos : Nat) (cs : List Char) (fs : List Fault) : Prop :=
  ∃ front lexeme back, cs = front ++ (lexeme ++ back) ∧ lexeme ≠ [] ∧
    t.span = ⟨pos + byteLength front, pos + byteLength front + byteLength lexeme⟩ ∧ t.kind.IsProper ∧
      (fs = [] → Alone t.kind lexeme)

/-- What is taken from the rest of a text is taken from all of it. -/
theorem TakenFrom.behind {t : Token} {pos : Nat} {d cs : List Char} {fs fs' : List Fault}
    (h : t.TakenFrom (pos + byteLength d) cs fs) (hfs : fs' = [] → fs = []) : t.TakenFrom pos (d ++ cs) fs' := by
  obtain ⟨front, lexeme, back, rfl, hne, hspan, hk, halone⟩ := h
  refine ⟨d ++ front, lexeme, back, by simp, hne, ?_, hk, fun h => halone (hfs h)⟩
  rw [hspan, Text.byteLength_append, Nat.add_assoc]

namespace Lays

variable {pos : Nat} {cs : List Char} {ts : List Token} {fs : List Fault}

/-- Each token was taken from a piece of the text of its own. -/
theorem lexeme (h : Lays pos cs ts fs) : ∀ t ∈ ts, t.TakenFrom pos cs fs := by
  induction h with
  | done => nofun
  | @space _ c _ _ _ hc hl ih => exact fun t ht => (ih t ht).behind (d := [c]) id
  | @stray _ c _ _ _ hc hl ih => exact fun t ht => (ih t ht).behind (d := [c]) nofun
  | @token pos lexeme cs k ts own fs hne hk hown halone hl ih =>
      intro t ht
      rcases List.mem_cons.1 ht with rfl | ht
      · exact ⟨[], lexeme, cs, rfl, hne, rfl, hk, fun hf => halone (List.append_eq_nil_iff.1 hf).1⟩
      · exact (ih t ht).behind fun hf => (List.append_eq_nil_iff.1 hf).2

theorem bounds (h : Lays pos cs ts fs) :
    ∀ t ∈ ts, pos ≤ t.span.start ∧ t.span.start < t.span.stop ∧ t.span.stop ≤ pos + byteLength cs := by
  intro t ht
  obtain ⟨front, lexeme, back, rfl, hne, hspan, -, -⟩ := h.lexeme t ht
  have hpos := byteLength_pos hne
  rw [hspan, Text.byteLength_append, Text.byteLength_append]
  dsimp only
  omega

/-- The tokens stand in the order of the text and share no byte. -/
theorem ordered (h : Lays pos cs ts fs) : ts.Pairwise fun t u => t.span.stop ≤ u.span.start := by
  induction h with
  | done => exact .nil
  | space _ _ ih => exact ih
  | stray _ _ ih => exact ih
  | token _ _ _ _ hl ih => exact .cons (fun u hu => (hl.bounds u hu).1) ih

theorem start_le (h : Lays pos cs ts fs) : ∀ f ∈ fs, pos ≤ f.span.start := by
  induction h with
  | done => nofun
  | space _ _ ih => exact fun f hf => Nat.le_of_add_right_le (ih f hf)
  | stray _ _ ih =>
      intro f hf
      rcases List.mem_cons.1 hf with rfl | hf
      · exact Nat.le_refl _
      · exact Nat.le_of_add_right_le (ih f hf)
  | token _ _ hown _ _ ih =>
      intro f hf
      rcases List.mem_append.1 hf with hf | hf
      · exact (hown f hf).start
      · exact Nat.le_of_add_right_le (ih f hf)

/-- A character is in a token, or it is apart from all of them, and then it is a space or reported, and not twice. -/
theorem characters (h : Lays pos cs ts fs) {front back : List Char} {c : Char} (hcs : cs = front ++ c :: back) :
    Accounted ts fs c ((Span.behind front c).shift pos) := by
  induction h generalizing front with
  | done => simp at hcs
  | @space pos d cs ts fs hd hl ih =>
      cases front with
      | nil =>
          obtain ⟨rfl, rfl⟩ := List.cons.inj hcs
          rw [Span.shift_behind_nil]
          exact .inr ⟨fun t ht => .inr (hl.bounds t ht).1, .inl hd⟩
      | cons e front =>
          obtain ⟨rfl, rfl⟩ := List.cons.inj hcs
          rw [Span.shift_behind_cons]
          exact ih rfl
  | @stray pos d cs ts fs hd hl ih =>
      cases front with
      | nil =>
          obtain ⟨rfl, rfl⟩ := List.cons.inj hcs
          rw [Span.shift_behind_nil]
          refine .inr ⟨fun t ht => .inr (hl.bounds t ht).1, .inr ?_⟩
          -- what is reported behind the stray begins behind it
          have hother : (⟨.unexpectedCharacter d, ⟨pos, pos + d.utf8Size⟩⟩ : Fault) ∉ fs := fun hf => by
            have hle := hl.start_le _ hf
            have hpos := d.utf8Size_pos
            dsimp only at hle
            omega
          rw [List.count_cons_self, List.count_eq_zero.2 hother]
      | cons e front =>
          obtain ⟨rfl, rfl⟩ := List.cons.inj hcs
          rw [Span.shift_behind_cons]
          have hne : (⟨.unexpectedCharacter d, ⟨pos, pos + d.utf8Size⟩⟩ : Fault) ≠
              ⟨.unexpectedCharacter c, (Span.behind front c).shift (pos + d.utf8Size)⟩ := by
            intro he
            have hstart := congrArg (fun f => f.span.start) he
            have hpos := d.utf8Size_pos
            simp only [Span.shift] at hstart
            omega
          rw [Accounted, List.count_cons_of_ne hne]
          exact ih rfl
  | @token pos lexeme cs k ts own fs hne hk hown halone hl ih =>
      rcases append_eq_append_cons hcs with ⟨tail, rfl⟩ | ⟨further, rfl, hrest⟩
      · refine .inl ⟨_, List.mem_cons_self, ?_, ?_⟩
        · exact Nat.le_add_right ..
        · simp only [Span.shift, Span.behind, Text.byteLength_append, Text.byteLength_cons]
          omega
      · rw [Span.shift_behind_append]
        rcases ih hrest with ⟨t, ht, hcovers⟩ | ⟨hapart, hreport⟩
        · exact .inl ⟨t, List.mem_cons_of_mem _ ht, hcovers⟩
        · refine .inr ⟨List.forall_mem_cons.2 ⟨.inl (Nat.le_add_right ..), hapart⟩, ?_⟩
          rw [List.count_append, List.count_eq_zero.2 fun hf => (hown _ hf).problem _ rfl, Nat.zero_add]
          exact hreport

/-- A fault is that of a token, or it reports a character that is in no token. -/
theorem faults (h : Lays pos cs ts fs) : ∀ f ∈ fs, (∃ t ∈ ts, f.IsIn t.span) ∨
    ∃ front c back, cs = front ++ c :: back ∧ isSpace c = false ∧
      f = ⟨.unexpectedCharacter c, (Span.behind front c).shift pos⟩ ∧ ∀ t ∈ ts, t.span.Apart f.span := by
  induction h with
  | done => nofun
  | @space pos d cs ts fs hd hl ih =>
      intro f hf
      rcases ih f hf with hin | ⟨front, c, back, rfl, hc, rfl, hapart⟩
      · exact .inl hin
      · exact .inr ⟨d :: front, c, back, rfl, hc, by rw [Span.shift_behind_cons], hapart⟩
  | @stray pos d cs ts fs hd hl ih =>
      intro f hf
      rcases List.mem_cons.1 hf with rfl | hf
      · -- The stray character itself. The tokens are all behind it.
        refine .inr ⟨[], d, cs, rfl, hd, by rw [Span.shift_behind_nil], fun t ht => .inr (hl.bounds t ht).1⟩
      · rcases ih f hf with hin | ⟨front, c, back, rfl, hc, rfl, hapart⟩
        · exact .inl hin
        · exact .inr ⟨d :: front, c, back, rfl, hc, by rw [Span.shift_behind_cons], hapart⟩
  | @token pos lexeme cs k ts own fs hne hk hown halone hl ih =>
      intro f hf
      rcases List.mem_append.1 hf with hf | hf
      · exact .inl ⟨_, List.mem_cons_self, hown f hf⟩
      · rcases ih f hf with ⟨t, ht, hin⟩ | ⟨front, c, back, rfl, hc, rfl, hapart⟩
        · exact .inl ⟨t, List.mem_cons_of_mem _ ht, hin⟩
        · refine .inr ⟨lexeme ++ front, c, back, by simp, hc, by rw [Span.shift_behind_append],
            List.forall_mem_cons.2 ⟨.inl (Nat.le_add_right ..), hapart⟩⟩

end Lays

/-! ## The account -/

/-- What a scan says of its text: the tokens that were found in front of the end token, and the faults. -/
structure Accounts (cs : List Char) (ts : List Token) (fs : List Fault) : Prop where
  tokens : ∀ t ∈ ts, t.kind ≠ .finish ∧ t.span.start < t.span.stop ∧ t.span.stop ≤ byteLength cs
  /-- The tokens stand in the order of the text and share no byte. -/
  ordered : ts.Pairwise fun t u => t.span.stop ≤ u.span.start
  /-- A character that is in no token is a space or is reported once. -/
  characters : ∀ front c back, cs = front ++ c :: back → Accounted ts fs c (Span.behind front c)
  /-- A fault either is inside a token, or reports a character that is in none, and it does not do both. -/
  faults : ∀ f ∈ fs, (∃ t ∈ ts, f.IsIn t.span) ∨
    ∃ front c back, cs = front ++ c :: back ∧ isSpace c = false ∧
      f = ⟨.unexpectedCharacter c, Span.behind front c⟩ ∧ ∀ t ∈ ts, t.span.Apart f.span
  /-- Without faults, what a token covers is that token also when nothing stands around it. -/
  alone : fs = [] → ∀ t ∈ ts, Alone t.kind (t.span.excerpt cs) ∧
    byteLength (t.span.excerpt cs) = t.span.stop - t.span.start

/-- What is laid out from the start of a text accounts for all of it. -/
theorem Lays.accounts {cs : List Char} {ts : List Token} {fs : List Fault} (h : Lays 0 cs ts fs) :
    Accounts cs ts fs where
  tokens := fun t ht => by
    obtain ⟨-, hlt, hle⟩ := h.bounds t ht
    obtain ⟨-, -, -, -, -, -, hk, -⟩ := h.lexeme t ht
    exact ⟨Kind.IsProper.ne_finish hk, hlt, by simpa using hle⟩
  ordered := h.ordered
  characters := fun front c back hcs => by simpa [Span.shift] using h.characters hcs
  faults := fun f hf => by simpa [Span.shift] using h.faults f hf
  alone := fun hfs t ht => by
    obtain ⟨front, lexeme, back, rfl, -, hspan, -, halone⟩ := h.lexeme t ht
    rw [hspan, Nat.zero_add, Span.excerpt_append]
    exact ⟨halone hfs, (Nat.add_sub_cancel_left ..).symm⟩

/-- A text has no scan exactly where a backslash inside a literal stands in front of a character that is not ASCII.
Any other text has one, which ends in one end token behind the text and accounts for all that is in front of it. -/
theorem scan_accounts (cs : List Char) :
    (scan? 0 cs = none ↔ Mode.outside.Splits cs) ∧
      (scan? 0 cs = none ∨ ∃ ts fs, Accounts cs ts fs ∧
        scan? 0 cs = some ⟨ts ++ [⟨.finish, ⟨byteLength cs, byteLength cs⟩⟩], fs⟩) := by
  refine ⟨scan?_eq_none_iff, ?_⟩
  cases h : scan? 0 cs with
  | none => exact .inl rfl
  | some s =>
      obtain ⟨ts, hl, hts⟩ := lays_of_scan? h
      refine .inr ⟨ts, s.faults, hl.accounts, ?_⟩
      rw [Nat.zero_add] at hts
      rw [← hts]

end Token

end BinaryFormat
