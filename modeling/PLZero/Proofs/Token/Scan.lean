import PLZero.Token.Lexer

/-!
# Where tokens lie

* `Place.In` — places of a text: those of its characters, and the one just past the last.
* `Meets` — what holds of a result, and what of a fault.
* `Stream` — token lists in the form the parser is given them, with one end-of-input token, at the
  end.
* `scan_spec` — a scan gives such a list, with places of the text, or a fault at a place of the
  text.
-/

namespace PLZero

/-- The result has `P`, or the fault has `F`. -/
def Meets {ε α : Type} (x : Except ε α) (P : α → Prop) (F : ε → Prop) : Prop :=
  match x with
  | .ok a => P a
  | .error f => F f

section Meets

variable {ε α : Type} {x : Except ε α} {P : α → Prop} {F : ε → Prop}

instance decidableExistsOk [DecidablePred P] : Decidable (∃ a, x = .ok a ∧ P a) :=
  match x with
  | .ok a => decidable_of_iff (P a) (by simp)
  | .error _ => isFalse (by simp)

instance decidableExistsError [DecidablePred F] : Decidable (∃ f, x = .error f ∧ F f) :=
  match x with
  | .ok _ => isFalse (by simp)
  | .error f => decidable_of_iff (F f) (by simp)

theorem Meets.of_ok {a : α} (h : Meets x P F) (hx : x = .ok a) : P a := by
  subst hx
  exact h

theorem Meets.of_error {f : ε} (h : Meets x P F) (hx : x = .error f) : F f := by
  subst hx
  exact h

end Meets

/-! ## Places -/

namespace Place

/-- The place that comes after a text: on the line after as many line feeds, and as far in it as
there are characters since the last of them. -/
def after (before : List Char) : Place :=
  ⟨before.count '\n' + 1, (before.reverse.takeWhile (· ≠ '\n')).length + 1⟩

/-- The place of a character of the text, or the one just past its last character. -/
def In (text : List Char) (p : Place) : Prop := ∃ before, before <+: text ∧ p = after before

theorem next_of_ne {c : Char} (h : c ≠ '\n') (p : Place) : p.next c = ⟨p.line, p.column + 1⟩ :=
  if_neg h

theorem after_concat (before : List Char) (c : Char) :
    after (before ++ [c]) = (after before).next c := by
  by_cases hc : c = '\n'
  · simp [after, next, hc]
  · simp [after, next, hc]

theorem in_append (before rest : List Char) : (after before).In (before ++ rest) :=
  ⟨before, List.prefix_append before rest, rfl⟩

end Place

/-! ## Token lists -/

/-- Tokens that satisfy `T`, the last of which, and no other, is the end of the input. -/
inductive Stream (T : Token → Prop) : List Token → Prop where
  | eof {t : Token} : T t → t.kind = .eof → Stream T [t]
  | cons {t : Token} {ts : List Token} : T t → t.kind ≠ .eof → Stream T ts → Stream T (t :: ts)

theorem Stream.tail {T : Token → Prop} {t : Token} {ts : List Token} (h : Stream T (t :: ts))
    (hne : t.kind ≠ .eof) : Stream T ts := by
  cases h with
  | eof _ heof => exact absurd heof hne
  | cons _ _ hts => exact hts

/-- The token lies in the text. -/
def Token.In (text : List Char) (t : Token) : Prop := t.place.In text

/-! ## Lexemes -/

/-- The fault is reported at a place of the text. -/
def ScanFault.In (text : List Char) (f : ScanFault) : Prop :=
  ∃ p, f.diagnostic.place? = some p ∧ p.In text

namespace Lexer

/-- A string is refused where it starts, or at a character after a backslash. -/
theorem in_of_stringBody {text : List Char} {start : Place} (hstart : start.In text) {p : Place}
    {cs : List Char} : ∀ {before : List Char} {f : ScanFault}, stringBody start p cs = .error f →
      text = before ++ cs → p = .after before → f.In text := by
  fun_induction stringBody start p cs with
  | case1 | case3 | case4 =>
    rintro before f ⟨⟩ - -
    exact ⟨start, rfl, hstart⟩
  | case2 =>
    rintro before f ⟨⟩
  | case5 p e cs d he _ _ ih =>
    rintro before f h rfl rfl
    rw [← Place.after_concat, ← Place.after_concat] at ih
    cases hrest : stringBody start (.after (before ++ ['\\'] ++ [e])) cs with
    | error g =>
      rw [← Place.after_concat, ← Place.after_concat, hrest] at h
      cases h
      exact ih hrest (by simp) rfl
    | ok r =>
      rw [← Place.after_concat, ← Place.after_concat, hrest] at h
      cases h
  | case6 p e cs he =>
    rintro before f ⟨⟩ rfl rfl
    refine ⟨_, rfl, before ++ ['\\'], ⟨e :: cs, by simp⟩, (Place.after_concat ..).symm⟩
  | case7 p c cs _ _ _ ih =>
    rintro before f h rfl rfl
    rw [← Place.after_concat] at ih
    cases hrest : stringBody start (.after (before ++ [c])) cs with
    | error g =>
      rw [← Place.after_concat, hrest] at h
      cases h
      exact ih hrest (by simp) rfl
    | ok r =>
      rw [← Place.after_concat, hrest] at h
      cases h

theorem wordKind_ne_eof (word : String) : wordKind word ≠ .eof := by
  unfold wordKind TokenKind.reserved?
  split
  · simp
  split
  · simp
  cases Keyword.all.find? fun k => k.spelling = word <;> simp

theorem kind_single? {c : Char} {kind : TokenKind} (h : single? c = some kind) : kind ≠ .eof := by
  unfold single? at h
  split at h <;> cases h <;> simp

/-- The lexeme is no end of the input. -/
def NotEof (l : Lexeme) : Prop := l.kind? ≠ some .eof

theorem punctuation_spec {text : List Char} {p : Place} (hp : p.In text) (c : Char)
    (cs : List Char) : Meets (punctuation p c cs) NotEof (ScanFault.In text) := by
  unfold punctuation
  split
  case h_2 => exact ⟨p, rfl, hp⟩
  case h_10 =>
    split
    · rename_i kind hkind
      simpa [Meets, NotEof, token] using kind_single? hkind
    · exact ⟨p, rfl, hp⟩
  all_goals simp [Meets, NotEof, token, skip]

theorem lexeme_spec (before : List Char) (c : Char) (cs : List Char) :
    Meets (lexeme (.after before) c cs) NotEof (ScanFault.In (before ++ c :: cs)) := by
  have hp := Place.in_append before (c :: cs)
  unfold lexeme
  split
  · simp [Meets, NotEof, skip]
  split
  · simpa [Meets, NotEof, token] using wordKind_ne_eof _
  split
  · dsimp only
    split
    · simp [Meets, NotEof, token]
    · exact ⟨_, rfl, hp⟩
  split
  · rw [← Place.after_concat]
    cases hbody : stringBody (.after before) (.after (before ++ [c])) cs with
    | error g => exact in_of_stringBody hp hbody (by simp) rfl
    | ok r => simp [Meets, NotEof, token, bind, Except.bind, pure, Except.pure]
  · exact punctuation_spec hp c cs

/-! ## Scans -/

theorem scanFrom_spec {text cs : List Char} : ∀ (pending : Nat) (before : List Char),
    text = before ++ cs →
    Meets (scanFrom pending (.after before) cs) (Stream (Token.In text)) (ScanFault.In text) := by
  induction cs with
  | nil =>
    rintro pending before rfl
    rw [scanFrom]
    exact .eof (Place.in_append before []) rfl
  | cons c cs ih =>
    rintro pending before rfl
    cases pending with
    | succ pending =>
      rw [scanFrom, ← Place.after_concat]
      exact ih pending (before ++ [c]) (by simp)
    | zero =>
      rw [scanFrom, ← Place.after_concat]
      have hlexeme := lexeme_spec before c cs
      cases hl : lexeme (.after before) c cs with
      | error f => exact hlexeme.of_error hl
      | ok l =>
        have hrest := ih (l.length - 1) (before ++ [c]) (by simp)
        simp only [bind, Except.bind]
        cases hrun : scanFrom (l.length - 1) (.after (before ++ [c])) cs with
        | error f => exact hrest.of_error hrun
        | ok tokens =>
          dsimp only
          cases hkind : l.kind? with
          | none => exact hrest.of_ok hrun
          | some kind =>
            refine .cons (Place.in_append before (c :: cs)) ?_ (hrest.of_ok hrun)
            exact fun heq => hlexeme.of_ok hl (hkind.trans (congrArg some heq))

end Lexer

theorem scan_spec (source : String) :
    Meets (scan source) (Stream (Token.In source.toList)) (ScanFault.In source.toList) :=
  Lexer.scanFrom_spec 0 [] rfl

end PLZero
