import PLZero.Proofs.Token.Reading

/-!
# Texts spaced anew

What stands between tokens does not matter as long as it keeps them apart.  The texts of the tokens
of a scan can be written down again with other separators between them, and are scanned into the
same tokens.

* `Filler` — blanks, and comments with the line feeds that end them.
* `Separator` — a filler that starts with a blank.
* `joined` — texts in a row with separators between them.
* `scan_joined` — the tokens of texts that are joined again.
-/

namespace PLZero

/-- Blanks, and comments with the line feeds that end them. -/
inductive Filler : List Char → Prop where
  | nil : Filler []
  | blank {c : Char} {cs : List Char} : Text.isBlank c = true → Filler cs → Filler (c :: cs)
  | comment (body : List Char) {cs : List Char} :
      (∀ c ∈ body, c ≠ '\n') → Filler cs → Filler ('/' :: '/' :: body ++ '\n' :: cs)

/-- A filler that starts with a blank, and so may follow any token. -/
structure Separator (text : String) : Prop where
  filler : Filler text.toList
  blank : ∃ c ∈ text.toList.head?, Text.isBlank c = true

/-- The texts in a row with the separators between them, as far as there are separators. -/
def joined : (texts separators : List String) → String
  | [], _ => ""
  | [text], _ => text
  | text :: texts, [] => text ++ joined texts []
  | text :: texts, separator :: separators => text ++ separator ++ joined texts separators

theorem joined_cons (text separator : String) {texts : List String} (h : texts ≠ [])
    (separators : List String) :
    joined (text :: texts) (separator :: separators) =
      text ++ separator ++ joined texts separators := by
  cases texts with
  | nil => exact absurd rfl h
  | cons => rw [joined]; simp

theorem Separator.delimited {text : String} (h : Separator text) (rest : List Char) :
    Delimited (text.toList ++ rest) := by
  obtain ⟨c, hc, hblank⟩ := h.blank
  obtain ⟨cs, hcs⟩ := List.head?_eq_some_iff.mp hc
  rw [hcs]
  exact .blank hblank (cs ++ rest)

namespace Lexer

theorem lexeme_comment {body rest : List Char} (hbody : ∀ c ∈ body, c ≠ '\n') (p : Place) :
    lexeme p '/' ('/' :: body ++ '\n' :: rest) = .ok (skip (body.length + 2)) := by
  have htake : (body ++ '\n' :: rest).takeWhile (· ≠ '\n') = body :=
    takeWhile_append_of_head (by simpa using hbody) (by simp)
  rw [lexeme_symbol (show ['/'] ∈ symbols by decide), List.cons_append, punctuation, htake,
    Nat.add_comm]

/-- A filler gives no tokens. -/
theorem scanFrom_filler {cs : List Char} (h : Filler cs) (p : Place) (rest : List Char) :
    scanFrom 0 p (cs ++ rest) = scanFrom 0 (p.advance cs) rest := by
  induction h generalizing p with
  | nil => rfl
  | @blank c cs hblank _ ih =>
    rw [List.cons_append, scanFrom_blank hblank, ih]
    rfl
  | @comment body cs hbody _ ih =>
    have hskip : scanFrom 0 p ('/' :: ('/' :: body ++ '\n' :: (cs ++ rest))) =
        scanFrom 0 (p.advance ('/' :: '/' :: body)) ('\n' :: (cs ++ rest)) :=
      scanFrom_skip ('/' :: '/' :: body) rfl (by simp) (lexeme_comment hbody p)
    rw [List.append_assoc, List.cons_append, List.cons_append]
    refine hskip.trans ?_
    rw [scanFrom_blank (by decide), ih, Place.advance_append]
    rfl

end Lexer

theorem Lexes.ne_nil {before rest : List Char} {tokens : List Token}
    (h : Lexes before rest tokens) : tokens ≠ [] := by
  cases h <;> simp

/-- What a token says, wherever it stands. -/
def Token.content (t : Token) : TokenKind × String := (t.kind, t.text)

/-- The lexemes that a text was cut into are found again where they are joined. -/
theorem Lexes.exists_scanFrom_joined {before rest : List Char} {tokens : List Token}
    (h : Lexes before rest tokens) : ∀ {separators : List String} (p : Place),
      (∀ separator ∈ separators, Separator separator) → tokens.length ≤ separators.length + 2 →
      ∃ tokens',
        Lexer.scanFrom 0 p (joined (tokens.map Token.text) separators).toList = .ok tokens' ∧
        tokens'.map Token.content = tokens.map Token.content := by
  induction h with
  | eof =>
    intro separators p _ _
    exact ⟨_, rfl, rfl⟩
  | @token before gap text rest kind tokens _ _ hlexeme _ htokens ih =>
    intro separators p hseparators hcount
    rw [List.map_cons]
    cases separators with
    | nil =>
      -- Only the end of the input may follow without a separator.
      cases htokens with
      | token _ _ _ _ hmore =>
        have hpos := List.length_pos_iff.mpr hmore.ne_nil
        simp only [List.length_cons, List.length_nil] at hcount
        omega
      | eof =>
        have hscan := Lexer.scanFrom_lexeme hlexeme .nil p
        refine ⟨[⟨kind, p, String.ofList text⟩, ⟨.eof, p.advance text, ""⟩], ?_, rfl⟩
        rw [List.append_nil] at hscan
        simp only [List.map_cons, List.map_nil, joined, String.append_empty, String.toList_ofList,
          hscan]
        rfl
    | cons separator separators =>
      rw [List.forall_mem_cons] at hseparators
      have hne : tokens.map Token.text ≠ [] := by simpa using htokens.ne_nil
      simp only [List.length_cons] at hcount
      obtain ⟨tokens', hscan, hcontent⟩ :=
        ih ((p.advance text).advance separator.toList) hseparators.2 (by omega)
      refine ⟨⟨kind, p, String.ofList text⟩ :: tokens', ?_, ?_⟩
      · rw [joined_cons _ _ hne, String.toList_append, String.toList_append, String.toList_ofList,
          List.append_assoc, Lexer.scanFrom_lexeme hlexeme (hseparators.1.delimited _),
          Lexer.scanFrom_filler hseparators.1.filler, hscan]
        rfl
      · rw [List.map_cons, List.map_cons, hcontent]
        rfl

/-- **Tokens can be spaced anew.**  The texts of the tokens of a scan, joined by any separators, are
scanned into tokens of the same kinds and texts in the same order, of which the last, and no other,
is the end of the input.  There is a separator between any two lexemes, and there may be one before
the end of the input. -/
theorem scan_joined {source : String} {tokens : List Token} (h : scan source = .ok tokens)
    {separators : List String} (hseparators : ∀ separator ∈ separators, Separator separator)
    (hcount : tokens.length ≤ separators.length + 2) :
    ∃ tokens', scan (joined (tokens.map Token.text) separators) = .ok tokens' ∧
      tokens'.map Token.content = tokens.map Token.content ∧
      Stream (Token.In (joined (tokens.map Token.text) separators).toList) tokens' := by
  obtain ⟨tokens', hscan, hcontent⟩ :=
    (lexes_scan h).exists_scanFrom_joined Place.start hseparators hcount
  exact ⟨tokens', hscan, hcontent, (scan_spec _).of_ok hscan⟩

/-- A slash before a comment, slashes in a string and a symbol of two characters; a blank beyond
ASCII and comments, of which one has slashes inside, as separators. -/
theorem scan_joined_slashes :
    ∃ tokens tokens', scan "if 2/<=\"//\"" = .ok tokens ∧
      joined (tokens.map Token.text) ["\u3000", " ", "\t//'\n", "\n\n////\n\r"] =
        "if\u30002 /\t//'\n<=\n\n////\n\r\"//\"" ∧
      scan "if\u30002 /\t//'\n<=\n\n////\n\r\"//\"" = .ok tokens' ∧
      tokens'.map Token.content =
        [(.keyword .if, "if"), (.literal (.int 2), "2"), (.op (.arith .div), "/"),
          (.op (.compare .le), "<="), (.literal (.str "//"), "\"//\""), (.eof, "")] := by
  have hseparators : ∀ separator ∈ ["\u3000", " ", "\t//'\n", "\n\n////\n\r"],
      Separator separator := by
    simp only [List.forall_mem_cons]
    refine ⟨⟨.blank (by decide) .nil, _, rfl, by decide⟩,
      ⟨.blank (by decide) .nil, _, rfl, by decide⟩,
      ⟨.blank (by decide) (.comment ['\''] (by simp) .nil), _, rfl, by decide⟩,
      ⟨.blank (by decide) (.blank (by decide) (.comment ['/', '/'] (by simp)
        (.blank (by decide) .nil))), _, rfl, by decide⟩, by simp⟩
  have hcheck : ∃ tokens, scan "if 2/<=\"//\"" = .ok tokens ∧ tokens.length ≤ 6 ∧
      tokens.map Token.content =
        [(.keyword .if, "if"), (.literal (.int 2), "2"), (.op (.arith .div), "/"),
          (.op (.compare .le), "<="), (.literal (.str "//"), "\"//\""), (.eof, "")] ∧
      joined (tokens.map Token.text) ["\u3000", " ", "\t//'\n", "\n\n////\n\r"] =
        "if\u30002 /\t//'\n<=\n\n////\n\r\"//\"" := by decide +kernel
  obtain ⟨tokens, htokens, hcount, hcontent, htext⟩ := hcheck
  obtain ⟨tokens', hscan, hsame, -⟩ := scan_joined htokens hseparators hcount
  rw [htext] at hscan
  exact ⟨tokens, tokens', htokens, htext, hscan, hsame.trans hcontent⟩

end PLZero
