import PLZero.Proofs.Token.Scan

/-!
# What a text is made of

What tokens look like, said without the lexer, and that the lexer finds just that.

* `IsLexeme` — the texts of each kind of token, with the payload they carry.
* `Gap` — what may stand between tokens: blanks, and comments to the end of their line.
* `Lexes` — a text is cut into gaps and lexemes, none of which could be one character longer, and
  each token stands where its first character does.
* `scan_correct` — every text that can be scanned is cut so by its tokens.
* `Lexes.pairwise` — the tokens stand one after the other, at different places.
-/

namespace PLZero

/-! ## Classes of characters -/

namespace Text

/-- A property of all code points of a class is one of its characters. -/
theorem of_inRanges {ranges : List (Nat × Nat)} {P : Char → Prop}
    (hall : ∀ r ∈ ranges, ∀ n ∈ List.range' r.1 (r.2 + 1 - r.1), P (Char.ofNat n)) {c : Char}
    (h : inRanges ranges c = true) : P c := by
  simp only [inRanges, List.any_eq_true, Bool.and_eq_true, decide_eq_true_eq] at h
  obtain ⟨r, hr, hlow, hhigh⟩ := h
  have hmem : c.toNat ∈ List.range' r.1 (r.2 + 1 - r.1) := by
    rw [List.mem_range'_1]
    omega
  simpa using hall r hr c.toNat hmem

theorem isDigit_eq_inRanges (c : Char) : c.isDigit = inRanges [(48, 57)] c := by
  simp [Char.isDigit, inRanges, UInt32.le_iff_toNat_le]

end Text

theorem not_isIdentPart_of_isBlank {c : Char} (h : Text.isBlank c = true) :
    isIdentPart c = false :=
  Text.of_inRanges (P := fun c => isIdentPart c = false) (by decide +kernel) h

theorem not_isIdentStart_of_isDigit {c : Char} (h : c.isDigit = true) : isIdentStart c = false := by
  rw [Text.isDigit_eq_inRanges] at h
  exact Text.of_inRanges (P := fun c => isIdentStart c = false) (by decide +kernel) h

theorem isIdentPart_of_isIdentStart {c : Char} (h : isIdentStart c = true) :
    isIdentPart c = true := by
  simp only [isIdentStart, isIdentPart, Bool.or_eq_true] at h ⊢
  rcases h with (h | h) | h
  · exact .inl (.inl (.inl h))
  · exact .inl (.inr h)
  · exact .inr h

/-! ## Lexemes -/

/-- What stands between the quotes of a string literal, and the contents it is written for. -/
inductive Quoted.Spells : List Char → List Char → Prop where
  | nil : Spells [] []
  | plain {c : Char} {written contents : List Char} :
      c ≠ '"' → c ≠ '\\' → c ≠ '\n' → Spells written contents →
      Spells (c :: written) (c :: contents)
  | escaped {e d : Char} {written contents : List Char} :
      Quoted.unescape? e = some d → Spells written contents →
      Spells ('\\' :: e :: written) (d :: contents)

/-- Words that are not identifiers. -/
def Reserved (word : String) : Prop :=
  (∃ b, word = Value.boolName b) ∨ ∃ k : Keyword, word = k.spelling

/-- The texts of the tokens of a kind. -/
inductive IsLexeme : TokenKind → List Char → Prop where
  | ident {c : Char} {cs : List Char} :
      isIdentStart c = true → (∀ d ∈ cs, isIdentPart d = true) →
      ¬Reserved (String.ofList (c :: cs)) →
      IsLexeme (.ident (String.ofList (c :: cs))) (c :: cs)
  | keyword (k : Keyword) : IsLexeme (.keyword k) k.spelling.toList
  | boolean (b : Bool) : IsLexeme (.literal (.bool b)) (Value.boolName b).toList
  | number {n : Int32} {cs : List Char} :
      cs ≠ [] → (∀ d ∈ cs, d.isDigit = true) → n.toInt = Nat.ofDigitChars 10 cs 0 →
      IsLexeme (.literal (.int n)) cs
  | string {written contents : List Char} :
      Quoted.Spells written contents →
      IsLexeme (.literal (.str (String.ofList contents))) ('"' :: written ++ ['"'])
  | op (o : Op) : IsLexeme (.op o) o.symbol.toList
  | unequal : IsLexeme (.op (.compare .ne)) ['<', '>']
  | mark (m : Mark) : IsLexeme (.mark m) m.spelling.toList

/-- The texts of operators and punctuation. -/
def symbols : List (List Char) :=
  [['+'], ['-'], ['*'], ['/'], ['%'], ['='], ['#'], ['<'], ['<', '='], ['<', '>'], ['>'],
    ['>', '='], ['.'], [','], [';'], ['('], [')'], ['?'], ['!'], [':', '=']]

/-- A lexeme is a word, a numeral, a quoted text or a symbol, and its first character says which. -/
inductive LexemeForm : Char → List Char → Prop where
  | word {c : Char} {cs : List Char} :
      isIdentStart c = true → (∀ d ∈ cs, isIdentPart d = true) → LexemeForm c cs
  | numeral {c : Char} {cs : List Char} :
      c.isDigit = true → (∀ d ∈ cs, d.isDigit = true) → LexemeForm c cs
  | quoted {written contents : List Char} :
      Quoted.Spells written contents → LexemeForm '"' (written ++ ['"'])
  | symbol {c : Char} {cs : List Char} : c :: cs ∈ symbols → LexemeForm c cs

theorem Keyword.exists_form (k : Keyword) : ∃ c cs, k.spelling.toList = c :: cs ∧
    isIdentStart c = true ∧ ∀ d ∈ cs, isIdentPart d = true := by
  cases k <;> exact ⟨_, _, rfl, by decide, List.all_eq_true.mp (by decide)⟩

theorem Value.exists_form_boolName (b : Bool) : ∃ c cs, (boolName b).toList = c :: cs ∧
    isIdentStart c = true ∧ ∀ d ∈ cs, isIdentPart d = true := by
  cases b <;> exact ⟨_, _, rfl, by decide, List.all_eq_true.mp (by decide)⟩

theorem Op.symbol_mem (o : Op) : o.symbol.toList ∈ symbols := by
  cases o with
  | arith op => cases op <;> decide
  | compare cond => cases cond <;> decide

theorem Mark.spelling_mem (m : Mark) : m.spelling.toList ∈ symbols := by
  cases m <;> decide

theorem exists_of_mem_symbols {text : List Char} (h : text ∈ symbols) :
    ∃ c cs, text = c :: cs ∧ LexemeForm c cs := by
  match text, h with
  | [], h => exact absurd h (by decide)
  | c :: cs, h => exact ⟨c, cs, rfl, .symbol h⟩

theorem IsLexeme.exists_form {kind : TokenKind} {text : List Char} (h : IsLexeme kind text) :
    ∃ c cs, text = c :: cs ∧ LexemeForm c cs := by
  cases h with
  | ident hstart hpart => exact ⟨_, _, rfl, .word hstart hpart⟩
  | keyword k =>
    obtain ⟨c, cs, heq, hstart, hpart⟩ := k.exists_form
    exact ⟨c, cs, heq, .word hstart hpart⟩
  | boolean b =>
    obtain ⟨c, cs, heq, hstart, hpart⟩ := Value.exists_form_boolName b
    exact ⟨c, cs, heq, .word hstart hpart⟩
  | number hne hdigit =>
    obtain ⟨c, cs, rfl⟩ := List.exists_cons_of_ne_nil hne
    rw [List.forall_mem_cons] at hdigit
    exact ⟨c, cs, rfl, .numeral hdigit.1 hdigit.2⟩
  | string hspells => exact ⟨_, _, rfl, .quoted hspells⟩
  | op o => exact exists_of_mem_symbols o.symbol_mem
  | unequal => exact ⟨_, _, rfl, .symbol (by decide)⟩
  | mark m => exact exists_of_mem_symbols m.spelling_mem

theorem IsLexeme.form {kind : TokenKind} {c : Char} {cs : List Char}
    (h : IsLexeme kind (c :: cs)) : LexemeForm c cs := by
  obtain ⟨_, _, heq, hform⟩ := h.exists_form
  cases heq
  exact hform

theorem IsLexeme.ne_nil {kind : TokenKind} {text : List Char} (h : IsLexeme kind text) :
    text ≠ [] := by
  obtain ⟨c, cs, rfl, -⟩ := h.exists_form
  exact List.cons_ne_nil c cs

/-- The first characters of symbols start nothing else. -/
theorem head_of_mem_symbols {c : Char} {cs : List Char} (h : c :: cs ∈ symbols) :
    isIdentStart c = false ∧ c.isDigit = false ∧ c ≠ '"' ∧ Text.isBlank c = false := by
  have hall : (symbols.all fun text => text.head?.all fun c =>
      !isIdentStart c && (!c.isDigit && (c != '"' && !Text.isBlank c))) = true := by decide
  simpa using List.all_eq_true.mp hall _ h

namespace LexemeForm

variable {c : Char} {cs : List Char}

theorem parts (h : LexemeForm c cs) (hstart : isIdentStart c = true) :
    ∀ d ∈ cs, isIdentPart d = true := by
  cases h with
  | word _ hpart => exact hpart
  | numeral hdigit =>
    rw [not_isIdentStart_of_isDigit hdigit] at hstart
    cases hstart
  | quoted => exact absurd hstart (by decide)
  | symbol hmem =>
    rw [(head_of_mem_symbols hmem).1] at hstart
    cases hstart

theorem digits (h : LexemeForm c cs) (hdigit : c.isDigit = true) : ∀ d ∈ cs, d.isDigit = true := by
  cases h with
  | word hstart =>
    rw [not_isIdentStart_of_isDigit hdigit] at hstart
    cases hstart
  | numeral _ hdigits => exact hdigits
  | quoted => exact absurd hdigit (by decide)
  | symbol hmem =>
    rw [(head_of_mem_symbols hmem).2.1] at hdigit
    cases hdigit

theorem exists_spells (h : LexemeForm '"' cs) :
    ∃ written contents, cs = written ++ ['"'] ∧ Quoted.Spells written contents := by
  cases h with
  | word hstart => exact absurd hstart (by decide)
  | numeral hdigit => exact absurd hdigit (by decide)
  | quoted hspells => exact ⟨_, _, rfl, hspells⟩
  | symbol hmem => exact absurd rfl (head_of_mem_symbols hmem).2.2.1

theorem mem_symbols {rest : List Char} (h : LexemeForm c cs) (hmem : c :: rest ∈ symbols) :
    c :: cs ∈ symbols := by
  obtain ⟨hstart, hdigit, hquote, -⟩ := head_of_mem_symbols hmem
  cases h with
  | word hstart' =>
    rw [hstart] at hstart'
    cases hstart'
  | numeral hdigit' =>
    rw [hdigit] at hdigit'
    cases hdigit'
  | quoted => exact absurd rfl hquote
  | symbol hmem' => exact hmem'

end LexemeForm

/-! ## Texts cut into lexemes -/

/-- What may stand between tokens where `rest` follows.  A comment runs up to a line feed or to the
end of the text. -/
inductive Gap (rest : List Char) : List Char → Prop where
  | nil : Gap rest []
  | blank {c : Char} {cs : List Char} : Text.isBlank c = true → Gap rest cs → Gap rest (c :: cs)
  | comment {body cs : List Char} :
      (∀ c ∈ body, c ≠ '\n') → (∀ c ∈ (cs ++ rest).head?, c = '\n') → Gap rest cs →
      Gap rest ('/' :: '/' :: body ++ cs)

/-- With the character that follows it in the text, `text` would be no lexeme of any kind. -/
def Longest (text rest : List Char) : Prop :=
  ∀ c ∈ rest.head?, ∀ kind, ¬IsLexeme kind (text ++ [c])

/-- The text `rest`, which stands after `before`, is cut into gaps and the lexemes of `tokens`, and
ends with the gap before the end of the input. -/
inductive Lexes : (before rest : List Char) → List Token → Prop where
  | eof {before gap : List Char} :
      Gap [] gap → Lexes before gap [⟨.eof, .after (before ++ gap), ""⟩]
  | token {before gap text rest : List Char} {kind : TokenKind} {tokens : List Token} :
      Gap (text ++ rest) gap → text ≠ [] → IsLexeme kind text → Longest text rest →
      Lexes (before ++ gap ++ text) rest tokens →
      Lexes before (gap ++ text ++ rest)
        (⟨kind, .after (before ++ gap), String.ofList text⟩ :: tokens)

/-- What can be skipped goes to the first gap. -/
theorem Lexes.skip {before rest : List Char} (piece : List Char) {tokens : List Token}
    (hpiece : ∀ gap rest', rest = gap ++ rest' → Gap rest' gap → Gap rest' (piece ++ gap))
    (h : Lexes (before ++ piece) rest tokens) : Lexes before (piece ++ rest) tokens := by
  cases h with
  | eof hgap =>
    rw [List.append_assoc]
    exact .eof (hpiece _ [] (List.append_nil _).symm hgap)
  | @token _ gap text rest kind tokens hgap hne hlexeme hlongest hrest =>
    have hgap' := hpiece gap (text ++ rest) (List.append_assoc gap text rest) hgap
    rw [List.append_assoc before] at hrest ⊢
    have h := Lexes.token hgap' hne hlexeme hlongest hrest
    simpa only [List.append_assoc] using h

/-! ## What the lexer finds -/

theorem Decimal.toInt_of_int32? {n : Int32} {i : Int} (h : Decimal.int32? i = some n) :
    n.toInt = i := by
  unfold Decimal.int32? at h
  split at h
  · rename_i hrange
    cases h
    exact Int32.toInt_ofInt_of_le hrange.1 (Int.lt_add_one_of_le hrange.2)
  · cases h

theorem Decimal.toInt_of_read? {c : Char} {cs : List Char} {n : Int32}
    (hdigits : ∀ d ∈ c :: cs, d.isDigit = true) (h : Decimal.read? (c :: cs) = some n) :
    n.toInt = Nat.ofDigitChars 10 (c :: cs) 0 := by
  have hc := hdigits c List.mem_cons_self
  have hminus : c ≠ '-' := by rintro rfl; exact absurd hc (by decide)
  have hplus : c ≠ '+' := by rintro rfl; exact absurd hc (by decide)
  have hnatural : Decimal.natural? (c :: cs) = some (Nat.ofDigitChars 10 (c :: cs) 0) := by
    rw [Decimal.natural?, if_pos ⟨List.cons_ne_nil c cs, List.all_eq_true.mpr hdigits⟩]
  rw [Decimal.read?.eq_3 _ (by simp [hminus]) (by simp [hplus]), hnatural] at h
  exact Decimal.toInt_of_int32? h

namespace Lexer

theorem isLexeme_wordKind {c : Char} {cs : List Char} (hstart : isIdentStart c = true)
    (hpart : ∀ d ∈ cs, isIdentPart d = true) :
    IsLexeme (wordKind (String.ofList (c :: cs))) (c :: cs) := by
  generalize hword : String.ofList (c :: cs) = word
  have htext : c :: cs = word.toList := by rw [← hword, String.toList_ofList]
  unfold wordKind TokenKind.reserved?
  split
  · rename_i htrue
    rw [htext, htrue]
    exact .boolean true
  split
  · rename_i hfalse
    rw [htext, hfalse]
    exact .boolean false
  rename_i htrue hfalse
  cases hfind : Keyword.all.find? fun k => k.spelling = word with
  | some k =>
    have hk : k.spelling = word := by simpa using List.find?_some hfind
    rw [htext, ← hk]
    exact .keyword k
  | none =>
    rw [← hword]
    refine .ident hstart hpart ?_
    rintro (⟨b, hb⟩ | ⟨k, hk⟩)
    · rw [hword] at hb
      cases b
      · exact hfalse hb
      · exact htrue hb
    · have hne := List.find?_eq_none.mp hfind k (by cases k <;> decide)
      exact hne (decide_eq_true (hk.symm.trans hword))

/-- A string literal is read up to the quote that closes it. -/
theorem stringBody_ok {start p : Place} {cs contents : List Char} {length : Nat}
    (h : stringBody start p cs = .ok (contents, length)) :
    ∃ written rest, cs = written ++ '"' :: rest ∧ length = written.length + 1 ∧
      Quoted.Spells written contents := by
  fun_induction stringBody start p cs generalizing contents length with
  | case1 | case3 | case4 | case6 => cases h
  | case2 p cs =>
    cases h
    exact ⟨[], cs, rfl, rfl, .nil⟩
  | case5 p e cs d he _ _ ih =>
    cases hbody : stringBody start ((p.next '\\').next e) cs with
    | error f =>
      rw [hbody] at h
      cases h
    | ok r =>
      rw [hbody] at h
      cases h
      obtain ⟨written, rest, rfl, hlength, hspells⟩ := ih hbody
      exact ⟨'\\' :: e :: written, rest, rfl, by simp [hlength], .escaped he hspells⟩
  | case7 p c cs hquote hline hslash ih =>
    cases hbody : stringBody start (p.next c) cs with
    | error f =>
      rw [hbody] at h
      cases h
    | ok r =>
      rw [hbody] at h
      cases h
      obtain ⟨written, rest, rfl, hlength, hspells⟩ := ih hbody
      exact ⟨c :: written, rest, rfl, by simp [hlength], .plain hquote hslash hline hspells⟩

/-- The closing quote cannot be part of what is quoted. -/
theorem not_spells_quote {written contents : List Char} (h : Quoted.Spells written contents) :
    ∀ contents', ¬Quoted.Spells (written ++ ['"']) contents' := by
  induction h with
  | nil =>
    intro contents' h'
    cases h' with
    | plain hquote => exact hquote rfl
  | @plain c written contents hquote hslash _ _ ih =>
    intro contents' h'
    rw [List.cons_append] at h'
    generalize htail : written ++ ['"'] = tail at h'
    cases h' with
    | plain _ _ _ hspells =>
      subst htail
      exact ih _ hspells
    | escaped => exact hslash rfl
  | escaped _ _ ih =>
    intro contents' h'
    rw [List.cons_append, List.cons_append] at h'
    cases h' with
    | plain _ hslash => exact hslash rfl
    | escaped _ hrest => exact ih _ hrest

/-! ### Nothing longer -/

theorem longest_word {c : Char} {cs rest : List Char} (hstart : isIdentStart c = true)
    (hrest : ∀ d ∈ rest.head?, isIdentPart d = false) : Longest (c :: cs) rest := by
  intro d hd kind hlexeme
  have hpart := hlexeme.form.parts hstart d (by simp)
  rw [hrest d hd] at hpart
  cases hpart

theorem longest_numeral {c : Char} {cs rest : List Char} (hdigit : c.isDigit = true)
    (hrest : ∀ d ∈ rest.head?, d.isDigit = false) : Longest (c :: cs) rest := by
  intro d hd kind hlexeme
  have hdigits := hlexeme.form.digits hdigit d (by simp)
  rw [hrest d hd] at hdigits
  cases hdigits

theorem longest_quoted {written contents : List Char} (h : Quoted.Spells written contents)
    (rest : List Char) : Longest ('"' :: written ++ ['"']) rest := by
  intro d _ kind hlexeme
  obtain ⟨written', contents', heq, hspells⟩ := hlexeme.form.exists_spells
  have hlast := List.append_inj' heq rfl
  rw [← hlast.1] at hspells
  exact not_spells_quote h contents' hspells

theorem longest_symbol {c : Char} {cs rest : List Char} (hmem : c :: cs ∈ symbols)
    (hrest : ∀ d ∈ rest.head?, c :: cs ++ [d] ∉ symbols) : Longest (c :: cs) rest := by
  intro d hd kind hlexeme
  exact hrest d hd (hlexeme.form.mem_symbols hmem)

theorem mem_takeWhile {p : Char → Bool} {cs : List Char} {d : Char} (h : d ∈ cs.takeWhile p) :
    p d = true :=
  List.all_eq_true.mp List.all_takeWhile d h

theorem head?_dropWhile {p : Char → Bool} {cs : List Char} :
    ∀ d ∈ (cs.dropWhile p).head?, p d = false := by
  intro d hd
  have h := List.head?_dropWhile_not p cs
  rw [Option.mem_def.mp hd] at h
  simpa using h

/-! ### One lexeme -/

/-- The text starts with a lexeme that could not be longer, or with something to skip. -/
inductive Found (cs : List Char) : Lexeme → Prop where
  | token (text rest : List Char) {kind : TokenKind} :
      cs = text ++ rest → IsLexeme kind text → Longest text rest →
      Found cs (token kind text.length)
  | blank {c : Char} {rest : List Char} :
      cs = c :: rest → Text.isBlank c = true → Found cs (skip 1)
  | comment (body rest : List Char) :
      cs = '/' :: '/' :: body ++ rest → (∀ c ∈ body, c ≠ '\n') →
      (∀ c ∈ rest.head?, c = '\n') → Found cs (skip (2 + body.length))

theorem found_symbol {c : Char} {cs : List Char} {kind : TokenKind} (hlexeme : IsLexeme kind [c])
    (hmem : [c] ∈ symbols) (hrest : ∀ d ∈ cs.head?, [c, d] ∉ symbols) :
    Found (c :: cs) (token kind 1) :=
  .token [c] cs rfl hlexeme (longest_symbol hmem hrest)

theorem found_symbol₂ {c d : Char} {cs : List Char} {kind : TokenKind}
    (hlexeme : IsLexeme kind [c, d]) (hmem : [c, d] ∈ symbols) :
    Found (c :: d :: cs) (token kind 2) := by
  refine .token [c, d] cs rfl hlexeme (longest_symbol hmem fun e _ hlong => ?_)
  have hall : ∀ text ∈ symbols, text.length ≤ 2 := by decide
  exact absurd (hall _ hlong) (by simp)

/-- Only these four symbols have two characters. -/
theorem pair_mem_symbols {c d : Char} (h : [c, d] ∈ symbols) :
    (c = '<' ∧ d = '=') ∨ (c = '<' ∧ d = '>') ∨ (c = '>' ∧ d = '=') ∨ (c = ':' ∧ d = '=') := by
  simpa [symbols] using h

theorem found_single {c : Char} {cs : List Char} {kind : TokenKind}
    (h : single? c = some kind) : Found (c :: cs) (token kind 1) := by
  have hpair : c ≠ '<' ∧ c ≠ '>' ∧ c ≠ ':' := by
    refine ⟨?_, ?_, ?_⟩ <;> rintro rfl <;> cases h
  have hrest : ∀ d ∈ cs.head?, [c, d] ∉ symbols := by
    intro d _ hmem
    rcases pair_mem_symbols hmem with ⟨rfl, -⟩ | ⟨rfl, -⟩ | ⟨rfl, -⟩ | ⟨rfl, -⟩
    · exact hpair.1 rfl
    · exact hpair.1 rfl
    · exact hpair.2.1 rfl
    · exact hpair.2.2 rfl
  unfold single? at h
  split at h <;> cases h
  · exact found_symbol (.mark .dot) (by decide) hrest
  · exact found_symbol (.mark .comma) (by decide) hrest
  · exact found_symbol (.mark .semicolon) (by decide) hrest
  · exact found_symbol (.mark .leftParen) (by decide) hrest
  · exact found_symbol (.mark .rightParen) (by decide) hrest
  · exact found_symbol (.op (.arith .add)) (by decide) hrest
  · exact found_symbol (.op (.arith .sub)) (by decide) hrest
  · exact found_symbol (.op (.arith .mul)) (by decide) hrest
  · exact found_symbol (.op (.arith .rem)) (by decide) hrest
  · exact found_symbol (.mark .question) (by decide) hrest
  · exact found_symbol (.mark .bang) (by decide) hrest
  · exact found_symbol (.op (.compare .eq)) (by decide) hrest
  · exact found_symbol (.op (.compare .ne)) (by decide) hrest

theorem found_punctuation {p : Place} {c : Char} {cs : List Char} {l : Lexeme}
    (h : punctuation p c cs = .ok l) : Found (c :: cs) l := by
  -- What follows a symbol of one character that starts a longer one.
  have hnot {d : Char} {cs : List Char} (hd : ∀ tail, cs ≠ d :: tail) : d ∉ cs.head? := by
    intro hmem
    obtain ⟨tail, htail⟩ := List.head?_eq_some_iff.mp hmem
    exact hd tail htail
  unfold punctuation at h
  split at h
  case h_1 =>
    cases h
    exact found_symbol₂ (.mark .assign) (by decide)
  case h_2 => cases h
  case h_3 =>
    cases h
    exact found_symbol₂ (.op (.compare .le)) (by decide)
  case h_4 =>
    cases h
    exact found_symbol₂ .unequal (by decide)
  case h_5 cs hle hne =>
    cases h
    refine found_symbol (.op (.compare .lt)) (by decide) fun d hd hmem => ?_
    rcases pair_mem_symbols hmem with ⟨-, rfl⟩ | ⟨-, rfl⟩ | ⟨hc, -⟩ | ⟨hc, -⟩
    · exact hnot (fun tail htail => hle tail htail) hd
    · exact hnot (fun tail htail => hne tail htail) hd
    · cases hc
    · cases hc
  case h_6 =>
    cases h
    exact found_symbol₂ (.op (.compare .ge)) (by decide)
  case h_7 cs hge =>
    cases h
    refine found_symbol (.op (.compare .gt)) (by decide) fun d hd hmem => ?_
    rcases pair_mem_symbols hmem with ⟨hc, -⟩ | ⟨hc, -⟩ | ⟨-, rfl⟩ | ⟨hc, -⟩
    · cases hc
    · cases hc
    · exact hnot (fun tail htail => hge tail htail) hd
    · cases hc
  case h_8 cs =>
    cases h
    refine .comment _ (cs.dropWhile (· ≠ '\n')) ?_ ?_ ?_
    · rw [List.cons_append, List.cons_append, List.takeWhile_append_dropWhile]
    · intro c hc
      simpa using mem_takeWhile hc
    · intro c hc
      simpa using head?_dropWhile c hc
  case h_9 cs hslash =>
    cases h
    refine found_symbol (.op (.arith .div)) (by decide) fun d hd hmem => ?_
    rcases pair_mem_symbols hmem with ⟨hc, -⟩ | ⟨hc, -⟩ | ⟨hc, -⟩ | ⟨hc, -⟩ <;> cases hc
  case h_10 =>
    split at h
    · rename_i kind hkind
      cases h
      exact found_single hkind
    · cases h

theorem found_lexeme {p : Place} {c : Char} {cs : List Char} {l : Lexeme}
    (h : lexeme p c cs = .ok l) : Found (c :: cs) l := by
  unfold lexeme at h
  split at h
  · rename_i hblank
    cases h
    exact .blank rfl hblank
  split at h
  · rename_i _ hstart
    cases h
    have hpart : ∀ d ∈ cs.takeWhile isIdentPart, isIdentPart d = true :=
      fun d hd => mem_takeWhile hd
    refine .token _ (cs.dropWhile isIdentPart) ?_ (isLexeme_wordKind hstart hpart)
      (longest_word hstart head?_dropWhile)
    rw [List.cons_append, List.takeWhile_append_dropWhile]
  split at h
  · rename_i _ _ hdigit
    dsimp only at h
    split at h
    · rename_i n hn
      cases h
      have hdigits : ∀ d ∈ c :: cs.takeWhile Char.isDigit, d.isDigit = true :=
        List.forall_mem_cons.mpr ⟨hdigit, fun d hd => mem_takeWhile hd⟩
      refine .token _ (cs.dropWhile Char.isDigit) ?_
        (.number (List.cons_ne_nil _ _) hdigits (Decimal.toInt_of_read? hdigits hn))
        (longest_numeral hdigit head?_dropWhile)
      rw [List.cons_append, List.takeWhile_append_dropWhile]
    · cases h
  split at h
  · rename_i _ _ _ hquote
    subst hquote
    cases hbody : stringBody p (p.next '"') cs with
    | error f =>
      rw [hbody] at h
      cases h
    | ok r =>
      rw [hbody] at h
      cases h
      obtain ⟨written, rest, rfl, hlength, hspells⟩ := stringBody_ok hbody
      have htext : '"' :: (written ++ '"' :: rest) = '"' :: (written ++ ['"']) ++ rest := by simp
      have hfound := Found.token _ rest htext (.string hspells) (longest_quoted hspells rest)
      simpa [hlength] using hfound
  · exact found_punctuation h

/-! ### The whole text -/

/-- Characters that belong to a lexeme that was read are passed over. -/
theorem scanFrom_pending (n : Nat) (p : Place) (cs : List Char) :
    scanFrom n p cs = scanFrom 0 (p.advance (cs.take n)) (cs.drop n) := by
  induction cs generalizing n p with
  | nil => simp [scanFrom, Place.advance]
  | cons c cs ih =>
    cases n with
    | zero => rfl
    | succ n =>
      rw [scanFrom, ih]
      rfl

end Lexer

theorem Place.advance_append (p : Place) (cs ds : List Char) :
    p.advance (cs ++ ds) = (p.advance cs).advance ds :=
  List.foldl_append

theorem Place.advance_after (before cs : List Char) :
    (after before).advance cs = after (before ++ cs) := by
  induction cs generalizing before with
  | nil => simp [advance]
  | cons c cs ih =>
    have hstep : (after before).advance (c :: cs) = ((after before).next c).advance cs := rfl
    rw [hstep, ← after_concat, ih, List.append_assoc, List.singleton_append]

namespace Lexer

/-- The token of a lexeme with the given text at `p`, if it has one. -/
def tokenOf (l : Lexeme) (p : Place) (text : List Char) : List Token :=
  (l.kind?.map fun kind => (⟨kind, p, String.ofList text⟩ : Token)).toList

/-- A piece of the text has been read, and the scan goes on after it. -/
theorem scanFrom_piece {p : Place} {c : Char} {cs rest : List Char} (text : List Char) {l : Lexeme}
    (htext : c :: cs = text ++ rest) (hne : text ≠ []) (hlength : l.length = text.length)
    (h : lexeme p c cs = .ok l) :
    scanFrom 0 p (c :: cs) = (scanFrom 0 (p.advance text) rest).map (tokenOf l p text ++ ·) := by
  obtain ⟨d, ds, rfl⟩ := List.exists_cons_of_ne_nil hne
  obtain ⟨rfl, rfl⟩ : c = d ∧ cs = ds ++ rest := List.cons.inj htext
  have hpending : scanFrom (l.length - 1) (p.next c) (ds ++ rest) =
      scanFrom 0 (p.advance (c :: ds)) rest := by
    rw [scanFrom_pending, hlength]
    simp [Place.advance]
  have htake : (c :: (ds ++ rest)).take l.length = c :: ds := by
    rw [hlength]
    simp
  rw [scanFrom, h]
  simp only [bind, Except.bind, hpending, htake, tokenOf]
  cases scanFrom 0 (p.advance (c :: ds)) rest with
  | error f => rfl
  | ok tokens => cases l.kind? <;> rfl

theorem exists_of_map_ok {ε α β : Type} {f : α → β} {x : Except ε α} {b : β}
    (h : x.map f = .ok b) : ∃ a, x = .ok a ∧ b = f a := by
  cases x with
  | error e => cases h
  | ok a =>
    cases h
    exact ⟨a, rfl, rfl⟩

/-- Every piece takes a character, so the rest of the text is shorter. -/
theorem lexes_scanFrom (n : Nat) : ∀ {before cs : List Char} {tokens : List Token}, cs.length ≤ n →
    scanFrom 0 (.after before) cs = .ok tokens → Lexes before cs tokens := by
  induction n with
  | zero =>
    intro before cs tokens hn h
    rw [List.length_eq_zero_iff.mp (Nat.le_zero.mp hn)] at h ⊢
    cases h
    simpa using (.eof .nil : Lexes before [] _)
  | succ n ih =>
    intro before cs tokens hn h
    cases cs with
    | nil =>
      cases h
      simpa using (.eof .nil : Lexes before [] _)
    | cons c cs =>
      cases hl : lexeme (.after before) c cs with
      | error f =>
        rw [scanFrom, hl] at h
        cases h
      | ok l =>
        have hfound := found_lexeme hl
        generalize htext : c :: cs = text at hfound hn
        cases hfound with
        | token text rest heq hlexeme hlongest =>
          subst heq
          rw [scanFrom_piece text htext hlexeme.ne_nil rfl hl, Place.advance_after] at h
          obtain ⟨tokens', hrest, rfl⟩ := exists_of_map_ok h
          have hpos := List.length_pos_iff.mpr hlexeme.ne_nil
          rw [List.length_append] at hn
          have hlexes := ih (by omega) hrest
          rw [← List.append_nil before] at hlexes
          simpa [tokenOf, token] using
            (Lexes.token .nil hlexeme.ne_nil hlexeme hlongest hlexes : Lexes before _ _)
        | @blank d rest heq hblank =>
          subst heq
          have hpiece : c :: cs = [d] ++ rest := htext
          rw [scanFrom_piece [d] hpiece (by simp) rfl hl, Place.advance_after] at h
          obtain ⟨tokens', hrest, rfl⟩ := exists_of_map_ok h
          exact Lexes.skip [d] (fun gap rest' _ hgap => .blank hblank hgap)
            (ih (Nat.le_of_succ_le_succ hn) hrest)
        | comment body rest heq hbody hend =>
          subst heq
          rw [scanFrom_piece _ htext (by simp) (by simp [skip]; omega) hl, Place.advance_after] at h
          obtain ⟨tokens', hrest, rfl⟩ := exists_of_map_ok h
          simp only [List.length_append, List.length_cons] at hn
          refine Lexes.skip ('/' :: '/' :: body) (fun gap rest' hsplit hgap => ?_)
            (ih (by omega) hrest)
          exact .comment hbody (by rw [← hsplit]; exact hend) hgap

end Lexer

/-! ## Scanning a text -/

/-- The tokens of a text come from its lexemes and the end of the input. -/
theorem lexes_scan {source : String} {tokens : List Token} (h : scan source = .ok tokens) :
    Lexes [] source.toList tokens :=
  Lexer.lexes_scanFrom source.toList.length (Nat.le_refl _) h

/-- **The lexer is correct.**  A text that can be scanned is cut into gaps and the lexemes of its
tokens; the last token, and no other, is the end of the input. -/
theorem scan_correct {source : String} {tokens : List Token} (h : scan source = .ok tokens) :
    Lexes [] source.toList tokens ∧ Stream (Token.In source.toList) tokens :=
  ⟨lexes_scan h, (scan_spec source).of_ok h⟩

/-- Comments at the end of a line and of the text, a slash that starts none, an escape, a symbol of
two characters, and a letter and a space beyond ASCII. -/
theorem scan_correct_comments :
    ∃ tokens, scan "é/7 // x\n\u3000<>\"\\n\"//" = .ok tokens ∧
      tokens.map Token.text = ["é", "/", "7", "<>", "\"\\n\"", ""] ∧
      Lexes [] "é/7 // x\n\u3000<>\"\\n\"//".toList tokens ∧
      Stream (Token.In "é/7 // x\n\u3000<>\"\\n\"//".toList) tokens := by
  have hcheck : (match scan "é/7 // x\n\u3000<>\"\\n\"//" with
      | .ok tokens => decide (tokens.map Token.text = ["é", "/", "7", "<>", "\"\\n\"", ""])
      | .error _ => false) = true := by decide +kernel
  cases htokens : scan "é/7 // x\n\u3000<>\"\\n\"//" with
  | error f =>
    rw [htokens] at hcheck
    cases hcheck
  | ok tokens =>
    rw [htokens] at hcheck
    exact ⟨tokens, rfl, of_decide_eq_true hcheck, scan_correct htokens⟩

/-! ## Places of tokens -/

/-- `p` comes before `q` in the text. -/
def Place.Before (p q : Place) : Prop :=
  p.line < q.line ∨ (p.line = q.line ∧ p.column < q.column)

namespace Place.Before

variable {p q r : Place}

theorem trans (h : p.Before q) (h' : q.Before r) : p.Before r := by
  unfold Place.Before at *
  omega

theorem ne (h : p.Before q) : p ≠ q := by
  rintro rfl
  unfold Place.Before at h
  omega

theorem next (p : Place) (c : Char) : p.Before (p.next c) := by
  unfold Place.Before Place.next
  split
  · exact .inl (Nat.lt_succ_self _)
  · exact .inr ⟨rfl, Nat.lt_succ_self _⟩

theorem advance (p : Place) {cs : List Char} (h : cs ≠ []) : p.Before (p.advance cs) := by
  induction cs generalizing p with
  | nil => exact absurd rfl h
  | cons c cs ih =>
    have hstep : p.advance (c :: cs) = (p.next c).advance cs := rfl
    rw [hstep]
    cases cs with
    | nil => exact next p c
    | cons d ds => exact (next p c).trans (ih (p.next c) (by simp))

end Place.Before

/-- The tokens stand one after the other in the text, none of them before the place where the text
begins. -/
theorem Lexes.pairwise {before rest : List Char} {tokens : List Token}
    (h : Lexes before rest tokens) :
    (∀ t ∈ tokens, ∃ piece, t.place = .after (before ++ piece)) ∧
      tokens.Pairwise fun t u => t.place.Before u.place := by
  induction h with
  | @eof before gap _ =>
    exact ⟨List.forall_mem_singleton.mpr ⟨gap, rfl⟩, List.pairwise_singleton ..⟩
  | @token before gap text rest kind tokens _ hne _ _ _ ih =>
    obtain ⟨hplaces, hpairwise⟩ := ih
    refine ⟨List.forall_mem_cons.mpr ⟨⟨gap, rfl⟩, fun t ht => ?_⟩,
      List.pairwise_cons.mpr ⟨fun t ht => ?_, hpairwise⟩⟩
    · obtain ⟨piece, hpiece⟩ := hplaces t ht
      exact ⟨gap ++ text ++ piece, by rw [hpiece]; simp⟩
    · obtain ⟨piece, hpiece⟩ := hplaces t ht
      have hsome : text ++ piece ≠ [] := by simp [hne]
      have hafter := Place.Before.advance (.after (before ++ gap)) hsome
      rw [Place.advance_after, ← List.append_assoc] at hafter
      rwa [hpiece]

/-- A place belongs to one token at most. -/
theorem eq_of_place_eq {source : String} {tokens : List Token} (h : scan source = .ok tokens)
    {i j : Nat} {t u : Token} (ht : tokens[i]? = some t) (hu : tokens[j]? = some u)
    (hplace : t.place = u.place) : i = j := by
  have hpairwise := List.pairwise_iff_getElem.mp (lexes_scan h).pairwise.2
  obtain ⟨hi, rfl⟩ := List.getElem?_eq_some_iff.mp ht
  obtain ⟨hj, rfl⟩ := List.getElem?_eq_some_iff.mp hu
  rcases Nat.lt_trichotomy i j with hlt | heq | hlt
  · exact absurd hplace (hpairwise i j hi hj hlt).ne
  · exact heq
  · exact absurd hplace.symm (hpairwise j i hj hi hlt).ne

theorem nodup_of_scan {source : String} {tokens : List Token} (h : scan source = .ok tokens) :
    tokens.Nodup := by
  refine (lexes_scan h).pairwise.2.imp fun hbefore heq => ?_
  exact hbefore.ne (congrArg Token.place heq)

end PLZero
