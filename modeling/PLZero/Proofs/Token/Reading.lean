import PLZero.Proofs.Token.Lexemes

/-!
# Texts put together from lexemes

The other direction: a text that is written lexeme by lexeme is scanned into just these.

* `Delimited` — what may follow any lexeme without making it longer.
* `Lexer.lexeme_eq` — a lexeme is found at the head of a text where something delimited follows.
* `Lexer.Reads` — a piece of text gives tokens of certain kinds, and the scan goes on after it.  One
  lemma for each kind of piece, and one for joining two.
-/

namespace PLZero

/-- The text is empty, or starts with a character that is part of no longer lexeme. -/
def Delimited (rest : List Char) : Prop :=
  ∀ c ∈ rest.head?, Text.isBlank c = true ∨ c ∈ ['.', ';', ')']

namespace Delimited

theorem nil : Delimited [] := by
  simp [Delimited]

theorem blank {c : Char} (h : Text.isBlank c = true) (cs : List Char) : Delimited (c :: cs) := by
  simp [Delimited, h]

theorem mark {c : Char} (h : c ∈ ['.', ';', ')']) (cs : List Char) : Delimited (c :: cs) := by
  simpa [Delimited] using Or.inr h

variable {rest : List Char}

theorem not_isIdentPart (h : Delimited rest) : ∀ c ∈ rest.head?, isIdentPart c = false := by
  intro c hc
  rcases h c hc with hblank | hmark
  · exact not_isIdentPart_of_isBlank hblank
  · simp only [List.mem_cons, List.not_mem_nil, or_false] at hmark
    rcases hmark with rfl | rfl | rfl <;> decide

theorem not_isDigit (h : Delimited rest) : ∀ c ∈ rest.head?, c.isDigit = false := by
  intro c hc
  rcases h c hc with hblank | hmark
  · exact Text.of_inRanges (P := fun c => c.isDigit = false) (by decide +kernel) hblank
  · simp only [List.mem_cons, List.not_mem_nil, or_false] at hmark
    rcases hmark with rfl | rfl | rfl <;> decide

/-- No character that makes a symbol longer follows. -/
theorem ne {c : Char} {cs : List Char} (h : Delimited (c :: cs)) :
    c ≠ '=' ∧ c ≠ '>' ∧ c ≠ '/' := by
  rcases h c rfl with hblank | hmark
  · refine ⟨?_, ?_, ?_⟩ <;> rintro rfl <;> exact absurd hblank (by decide)
  · refine ⟨?_, ?_, ?_⟩ <;> rintro rfl <;> exact absurd hmark (by decide)

end Delimited

/-- The longest start of a text in a class, where the character after it is not of the class. -/
theorem takeWhile_append_of_head {p : Char → Bool} {cs rest : List Char}
    (hcs : ∀ c ∈ cs, p c = true) (hrest : ∀ c ∈ rest.head?, p c = false) :
    (cs ++ rest).takeWhile p = cs := by
  rw [List.takeWhile_append_of_pos hcs]
  cases rest with
  | nil => simp
  | cons c rest => simp [hrest c rfl]

/-! ## Words and numbers -/

theorem Decimal.int32?_toInt (n : Int32) : Decimal.int32? n.toInt = some n := by
  have hrange : Int32.minValue.toInt ≤ n.toInt ∧ n.toInt ≤ Int32.maxValue.toInt :=
    ⟨n.minValue_le_toInt, Int.le_of_lt_add_one n.toInt_lt⟩
  rw [Decimal.int32?, if_pos hrange, Int32.ofInt_toInt]

theorem Decimal.read?_of_toInt {c : Char} {cs : List Char} {n : Int32}
    (hdigits : ∀ d ∈ c :: cs, d.isDigit = true) (h : n.toInt = Nat.ofDigitChars 10 (c :: cs) 0) :
    Decimal.read? (c :: cs) = some n := by
  have hc := hdigits c List.mem_cons_self
  have hminus : c ≠ '-' := by rintro rfl; exact absurd hc (by decide)
  have hplus : c ≠ '+' := by rintro rfl; exact absurd hc (by decide)
  have hnatural : Decimal.natural? (c :: cs) = some (Nat.ofDigitChars 10 (c :: cs) 0) := by
    rw [Decimal.natural?, if_pos ⟨List.cons_ne_nil c cs, List.all_eq_true.mpr hdigits⟩]
  rw [Decimal.read?.eq_3 _ (by simp [hminus]) (by simp [hplus]), hnatural]
  exact (congrArg Decimal.int32? h.symm).trans (Decimal.int32?_toInt n)

namespace Lexer

theorem wordKind_eq_ident {word : String} (h : ¬Reserved word) : wordKind word = .ident word := by
  have htrue : word ≠ "true" := fun heq => h (.inl ⟨true, heq⟩)
  have hfalse : word ≠ "false" := fun heq => h (.inl ⟨false, heq⟩)
  have hfind : (Keyword.all.find? fun k => k.spelling = word) = none := by
    rw [List.find?_eq_none]
    intro k _ hk
    exact h (.inr ⟨k, (of_decide_eq_true hk).symm⟩)
  simp only [wordKind, TokenKind.reserved?, htrue, hfalse, hfind, if_false, Option.map_none,
    Option.getD_none]

theorem wordKind_spelling (k : Keyword) : wordKind k.spelling = .keyword k := by
  cases k <;> decide

theorem wordKind_boolName (b : Bool) : wordKind (Value.boolName b) = .literal (.bool b) := by
  cases b <;> decide

section Lexemes

variable {p : Place} {c : Char} {cs rest : List Char} {kind : TokenKind}

theorem not_isBlank_of_isIdentStart (h : isIdentStart c = true) : Text.isBlank c = false := by
  cases hblank : Text.isBlank c with
  | false => rfl
  | true =>
    have hpart := not_isIdentPart_of_isBlank hblank
    rw [isIdentPart_of_isIdentStart h] at hpart
    cases hpart

theorem not_isBlank_of_isDigit (h : c.isDigit = true) : Text.isBlank c = false := by
  rw [Text.isDigit_eq_inRanges] at h
  exact Text.of_inRanges (P := fun c => Text.isBlank c = false) (by decide +kernel) h

theorem lexeme_word (hstart : isIdentStart c = true) (hpart : ∀ d ∈ cs, isIdentPart d = true)
    (hrest : Delimited rest) :
    lexeme p c (cs ++ rest) = .ok (token (wordKind (String.ofList (c :: cs))) (cs.length + 1)) := by
  have hblank := not_isBlank_of_isIdentStart hstart
  simp only [lexeme, hblank, hstart, if_true, Bool.false_eq_true, if_false,
    takeWhile_append_of_head hpart hrest.not_isIdentPart, List.length_cons]

theorem lexeme_numeral {n : Int32} (hdigits : ∀ d ∈ c :: cs, d.isDigit = true)
    (hn : n.toInt = Nat.ofDigitChars 10 (c :: cs) 0) (hrest : Delimited rest) :
    lexeme p c (cs ++ rest) = .ok (token (.literal (.int n)) (cs.length + 1)) := by
  have hread := Decimal.read?_of_toInt hdigits hn
  rw [List.forall_mem_cons] at hdigits
  have hblank := not_isBlank_of_isDigit hdigits.1
  have hstart := not_isIdentStart_of_isDigit hdigits.1
  simp only [lexeme, hblank, hstart, hdigits.1, if_true, Bool.false_eq_true, if_false,
    takeWhile_append_of_head hdigits.2 hrest.not_isDigit, hread, List.length_cons]

theorem stringBody_spells {start : Place} {written contents : List Char}
    (h : Quoted.Spells written contents) (p : Place) :
    stringBody start p (written ++ '"' :: rest) = .ok (contents, written.length + 1) := by
  induction h generalizing p with
  | nil =>
    unfold stringBody
    rfl
  | @plain c written contents hquote hslash hline _ ih =>
    unfold stringBody
    simp [hquote, hslash, hline, ih, bind, Except.bind, pure, Except.pure]
  | @escaped e d written contents he _ ih =>
    simp [stringBody, he, ih, bind, Except.bind, pure, Except.pure]

theorem lexeme_quoted {written contents : List Char} (h : Quoted.Spells written contents) :
    lexeme p '"' (written ++ '"' :: rest) =
      .ok (token (.literal (.str (String.ofList contents))) (written.length + 2)) := by
  have hblank : Text.isBlank '"' = false := by decide
  have hstart : isIdentStart '"' = false := by decide
  have hdigit : '"'.isDigit = false := by decide
  simp only [lexeme, hblank, hstart, hdigit, if_true, Bool.false_eq_true, if_false,
    stringBody_spells h, bind, Except.bind, pure, Except.pure]

theorem lexeme_symbol (h : c :: cs ∈ symbols) : lexeme p c rest = punctuation p c rest := by
  obtain ⟨hstart, hdigit, hquote, hblank⟩ := head_of_mem_symbols h
  simp only [lexeme, hblank, hstart, hdigit, hquote, Bool.false_eq_true, if_false]

theorem punctuation_single (hsingle : single? c = some kind) :
    punctuation p c rest = .ok (token kind 1) := by
  unfold punctuation
  split
  case h_10 => rw [hsingle]
  all_goals cases hsingle

/-- A symbol that starts a longer one is read as it is where something delimited follows. -/
theorem punctuation_short (hrest : Delimited rest) :
    punctuation p '<' rest = .ok (token (.op (.compare .lt)) 1) ∧
      punctuation p '>' rest = .ok (token (.op (.compare .gt)) 1) ∧
      punctuation p '/' rest = .ok (token (.op (.arith .div)) 1) := by
  cases rest with
  | nil => exact ⟨rfl, rfl, rfl⟩
  | cons c rest =>
    obtain ⟨hequal, hgreater, hslash⟩ := hrest.ne
    refine ⟨?_, ?_, ?_⟩
    · rw [punctuation.eq_5 _ _ (by simp [hequal]) (by simp [hgreater])]
    · rw [punctuation.eq_7 _ _ (by simp [hequal])]
    · rw [punctuation.eq_9 _ _ (by simp [hslash])]

theorem punctuation_op {o : Op} (ho : o.symbol.toList = c :: cs) (hrest : Delimited rest) :
    punctuation p c (cs ++ rest) = .ok (token (.op o) (cs.length + 1)) := by
  obtain ⟨hlt, hgt, hdiv⟩ := punctuation_short (p := p) hrest
  cases o with
  | arith a =>
    cases a
    case div =>
      cases ho
      exact hdiv
    all_goals
      cases ho
      exact punctuation_single rfl
  | compare cond =>
    cases cond
    case lt =>
      cases ho
      exact hlt
    case gt =>
      cases ho
      exact hgt
    case le | ge =>
      cases ho
      rfl
    case eq | ne =>
      cases ho
      exact punctuation_single rfl

theorem punctuation_mark {m : Mark} (hm : m.spelling.toList = c :: cs) :
    punctuation p c (cs ++ rest) = .ok (token (.mark m) (cs.length + 1)) := by
  cases m
  case assign =>
    cases hm
    rfl
  all_goals
    cases hm
    exact punctuation_single rfl

/-- A lexeme stands at the head of a text where something delimited follows it. -/
theorem lexeme_eq {text : List Char} (h : IsLexeme kind text) (htext : text = c :: cs)
    (hrest : Delimited rest) : lexeme p c (cs ++ rest) = .ok (token kind (cs.length + 1)) := by
  cases h with
  | ident hstart hpart hreserved =>
    cases htext
    rw [lexeme_word hstart hpart hrest, wordKind_eq_ident hreserved]
  | keyword k =>
    obtain ⟨c', cs', heq, hstart, hpart⟩ := k.exists_form
    cases htext.symm.trans heq
    rw [lexeme_word hstart hpart hrest, ← heq, String.ofList_toList, wordKind_spelling]
  | boolean b =>
    obtain ⟨c', cs', heq, hstart, hpart⟩ := Value.exists_form_boolName b
    cases htext.symm.trans heq
    rw [lexeme_word hstart hpart hrest, ← heq, String.ofList_toList, wordKind_boolName]
  | number _ hdigits hn =>
    subst htext
    exact lexeme_numeral hdigits hn hrest
  | @string written contents hspells =>
    cases htext
    have hl : lexeme p '"' (written ++ '"' :: rest) = _ := lexeme_quoted hspells
    simpa using hl
  | op o =>
    rw [lexeme_symbol (htext ▸ o.symbol_mem), punctuation_op htext hrest]
  | unequal =>
    cases htext
    rfl
  | mark m =>
    rw [lexeme_symbol (htext ▸ m.spelling_mem), punctuation_mark htext]

end Lexemes

/-! ## Pieces of text -/

/-- What has no kind is passed over. -/
theorem scanFrom_skip {p : Place} {c : Char} {cs rest : List Char} (text : List Char)
    (htext : c :: cs = text ++ rest) (hne : text ≠ [])
    (h : lexeme p c cs = .ok (skip text.length)) :
    scanFrom 0 p (c :: cs) = scanFrom 0 (p.advance text) rest := by
  rw [scanFrom_piece text htext hne rfl h]
  cases scanFrom 0 (p.advance text) rest <;> rfl

theorem scanFrom_blank {c : Char} (h : Text.isBlank c = true) (p : Place) (rest : List Char) :
    scanFrom 0 p (c :: rest) = scanFrom 0 (p.next c) rest := by
  have hl : lexeme p c rest = .ok (skip 1) := by simp only [lexeme, h, if_true]
  exact scanFrom_skip [c] rfl (by simp) hl

theorem scanFrom_lexeme {kind : TokenKind} {text rest : List Char} (h : IsLexeme kind text)
    (hrest : Delimited rest) (p : Place) :
    scanFrom 0 p (text ++ rest) =
      (scanFrom 0 (p.advance text) rest).map (⟨kind, p, String.ofList text⟩ :: ·) := by
  obtain ⟨c, cs, rfl⟩ := List.exists_cons_of_ne_nil h.ne_nil
  exact scanFrom_piece (c :: cs) rfl (by simp) rfl (lexeme_eq h rfl hrest)

/-- The piece gives tokens of these kinds where `rest` follows, and the scan goes on after it. -/
def Reads (piece : List Char) (kinds : List TokenKind) (rest : List Char) : Prop :=
  ∀ p, ∃ tokens : List Token, tokens.map Token.kind = kinds ∧
    scanFrom 0 p (piece ++ rest) = (scanFrom 0 (p.advance piece) rest).map (tokens ++ ·)

namespace Reads

variable {piece piece' rest : List Char} {kinds kinds' : List TokenKind}

theorem nil : Reads [] [] rest := by
  intro p
  refine ⟨[], rfl, ?_⟩
  simp only [List.nil_append, Place.advance, List.foldl_nil]
  cases scanFrom 0 p rest <;> rfl

theorem append (h : Reads piece kinds (piece' ++ rest)) (h' : Reads piece' kinds' rest) :
    Reads (piece ++ piece') (kinds ++ kinds') rest := by
  intro p
  obtain ⟨tokens, rfl, hscan⟩ := h p
  obtain ⟨tokens', rfl, hscan'⟩ := h' (p.advance piece)
  refine ⟨tokens ++ tokens', List.map_append, ?_⟩
  rw [List.append_assoc, hscan, hscan', Place.advance_append]
  cases scanFrom 0 ((p.advance piece).advance piece') rest with
  | error f => rfl
  | ok tokens'' => simp [Except.map]

theorem blank {c : Char} (h : Text.isBlank c = true) : Reads [c] [] rest := by
  intro p
  refine ⟨[], rfl, ?_⟩
  rw [List.singleton_append, scanFrom_blank h, Place.advance, List.foldl_cons, List.foldl_nil]
  cases scanFrom 0 (p.next c) rest <;> rfl

theorem lexeme {kind : TokenKind} (h : IsLexeme kind piece) (hrest : Delimited rest) :
    Reads piece [kind] rest :=
  fun p => ⟨[⟨kind, p, String.ofList piece⟩], rfl, scanFrom_lexeme h hrest p⟩

/-- An opening parenthesis is read as one whatever follows. -/
theorem leftParen : Reads ['('] [.mark .leftParen] rest := by
  intro p
  refine ⟨[⟨.mark .leftParen, p, "("⟩], rfl, ?_⟩
  have hl : Lexer.lexeme p '(' rest = .ok (token (.mark .leftParen) 1) := by
    rw [lexeme_symbol (show ['('] ∈ symbols by decide), punctuation_single rfl]
  exact scanFrom_piece ['('] rfl (by simp) rfl hl

end Reads

/-- What a whole text is scanned into. -/
theorem exists_scan_of_reads {source : String} {kinds : List TokenKind}
    (h : Reads source.toList kinds []) :
    ∃ tokens, scan source = .ok tokens ∧ tokens.map Token.kind = kinds ++ [.eof] := by
  obtain ⟨tokens, rfl, hscan⟩ := h Place.start
  rw [List.append_nil, scanFrom] at hscan
  have hok : scan source = .ok (tokens ++ [⟨.eof, Place.start.advance source.toList, ""⟩]) := hscan
  exact ⟨_, hok, List.map_append⟩

end Lexer

end PLZero
