import PLZero.Proofs.Token.Reading

/-!
# Texts joined by a line feed

A line feed ends every lexeme and every comment, and the lexer keeps nothing across it but the
number of the line.  So a text that is put together from two at a line feed is scanned part by part.

* `Place.down`, `Token.down`, `ScanFault.down` — the same, some lines further down.
* `Lexer.scanFrom_down` — a scan that starts further down gives the same, further down.
* `Lexer.lexeme_append_newline` — no lexeme gets longer when a line feed follows.
* `scan_line_feed` — the scan of two texts with a line feed between them.
-/

namespace PLZero

/-! ## Further down -/

/-- The place in the same column, `n` lines further down. -/
def Place.down (n : Nat) (p : Place) : Place := { p with line := p.line + n }

def Token.down (n : Nat) (t : Token) : Token := { t with place := t.place.down n }

namespace ScanFault

def down (n : Nat) : ScanFault → ScanFault
  | unknownCharacter c place => unknownCharacter c (place.down n)
  | unterminatedString place => unterminatedString (place.down n)
  | multilineString place => multilineString (place.down n)
  | numberTooLarge digits place => numberTooLarge digits (place.down n)
  | badEscape c place => badEscape c (place.down n)
  | loneColon place => loneColon (place.down n)

end ScanFault

theorem Place.down_next (n : Nat) (p : Place) (c : Char) :
    (p.down n).next c = (p.next c).down n := by
  unfold next down
  split
  · simp only [Nat.add_right_comm]
  · rfl

/-- The place after a line feed is the first one, moved down. -/
theorem Place.next_newline_after (before : List Char) :
    (after before).next '\n' = start.down (before.count '\n' + 1) := by
  simp only [after, next, start, down, if_true, Nat.add_comm 1]

namespace Lexer

/-- What a scan gives, `n` lines further down. -/
def down (n : Nat) : Except ScanFault (List Token) → Except ScanFault (List Token)
  | .ok tokens => .ok (tokens.map (Token.down n))
  | .error f => .error (f.down n)

theorem stringBody_down (n : Nat) {start p : Place} {cs : List Char} :
    stringBody (start.down n) (p.down n) cs =
      (stringBody start p cs).mapError (ScanFault.down n) := by
  fun_induction stringBody start p cs with
  | case1 | case2 | case3 | case4 =>
    unfold stringBody
    rfl
  | case5 p e cs d he _ _ ih =>
    simp only [stringBody, he, Place.down_next, ih]
    cases stringBody start ((p.next '\\').next e) cs <;> rfl
  | case6 p e cs he =>
    simp only [stringBody, he, Place.down_next]
    rfl
  | case7 p c cs hquote hline hslash ih =>
    conv => lhs; unfold stringBody
    simp only [hquote, hline, hslash, if_false, Place.down_next, ih]
    cases stringBody start (p.next c) cs <;> rfl

theorem punctuation_down (n : Nat) (p : Place) (c : Char) (cs : List Char) :
    punctuation (p.down n) c cs = (punctuation p c cs).mapError (ScanFault.down n) := by
  unfold punctuation
  split
  case h_10 => split <;> rfl
  all_goals rfl

theorem lexeme_down (n : Nat) (p : Place) (c : Char) (cs : List Char) :
    lexeme (p.down n) c cs = (lexeme p c cs).mapError (ScanFault.down n) := by
  unfold lexeme
  split
  · rfl
  split
  · rfl
  split
  · dsimp only
    split <;> rfl
  split
  · rw [Place.down_next, stringBody_down]
    cases stringBody p (p.next c) cs <;> rfl
  · exact punctuation_down n p c cs

theorem scanFrom_down (n pending : Nat) (p : Place) (cs : List Char) :
    scanFrom pending (p.down n) cs = down n (scanFrom pending p cs) := by
  induction cs generalizing pending p with
  | nil => rfl
  | cons c cs ih =>
    cases pending with
    | succ pending => rw [scanFrom, scanFrom, Place.down_next, ih]
    | zero =>
      rw [scanFrom, scanFrom, lexeme_down]
      cases lexeme p c cs with
      | error f => rfl
      | ok l =>
        have hsame : (Except.ok l : Except ScanFault Lexeme).mapError (ScanFault.down n) = .ok l := rfl
        simp only [hsame, bind, Except.bind, Place.down_next, ih]
        cases scanFrom (l.length - 1) (p.next c) cs with
        | error f => rfl
        | ok tokens => cases l.kind? <;> rfl

/-! ## Lexemes before a line feed -/

theorem takeWhile_append_cons {p : Char → Bool} {c : Char} (hc : p c = false)
    (cs rest : List Char) : (cs ++ c :: rest).takeWhile p = cs.takeWhile p := by
  induction cs with
  | nil => simp [hc]
  | cons d cs ih => rw [List.cons_append, List.takeWhile_cons, List.takeWhile_cons, ih]

theorem append_newline_ne {d : Char} {cs : List Char} (hd : '\n' ≠ d)
    (h : ∀ tail, cs = d :: tail → False) (rest : List Char) :
    ∀ tail, cs ++ '\n' :: rest = d :: tail → False := by
  cases cs with
  | nil => exact fun tail heq => hd (List.cons.inj heq).1
  | cons c cs => exact fun tail heq => h cs (by rw [(List.cons.inj heq).1])

/-- A string that is closed stays as it is whatever follows. -/
theorem stringBody_append {start p : Place} {cs contents : List Char} {length : Nat}
    (h : stringBody start p cs = .ok (contents, length)) (rest : List Char) :
    stringBody start p (cs ++ rest) = .ok (contents, length) := by
  obtain ⟨written, after, rfl, rfl, hspells⟩ := stringBody_ok h
  rw [List.append_assoc, List.cons_append]
  exact stringBody_spells hspells p

theorem punctuation_append_newline {p : Place} {c : Char} {cs : List Char} {l : Lexeme}
    (h : punctuation p c cs = .ok l) (rest : List Char) :
    punctuation p c (cs ++ '\n' :: rest) = .ok l := by
  unfold punctuation at h
  split at h
  case h_1 | h_3 | h_4 | h_6 => exact h
  case h_2 => cases h
  case h_5 hle hne =>
    rw [punctuation.eq_5 _ _ (append_newline_ne (by decide) hle rest)
      (append_newline_ne (by decide) hne rest), h]
  case h_7 hge => rw [punctuation.eq_7 _ _ (append_newline_ne (by decide) hge rest), h]
  case h_8 cs =>
    simp only [List.cons_append, punctuation]
    rw [takeWhile_append_cons (by decide), h]
  case h_9 hslash => rw [punctuation.eq_9 _ _ (append_newline_ne (by decide) hslash rest), h]
  case h_10 =>
    split at h
    · rename_i kind hkind
      rw [punctuation_single hkind, h]
    · cases h

theorem lexeme_append_newline {p : Place} {c : Char} {cs : List Char} {l : Lexeme}
    (h : lexeme p c cs = .ok l) (rest : List Char) :
    lexeme p c (cs ++ '\n' :: rest) = .ok l := by
  have hpart : isIdentPart '\n' = false := by decide
  have hdigit : '\n'.isDigit = false := by decide
  unfold lexeme at h ⊢
  rw [takeWhile_append_cons hpart, takeWhile_append_cons hdigit]
  -- Words and numbers now end at the same place in both texts.  Strings and punctuation are left.
  split at h
  · rename_i hblank
    rwa [if_pos hblank]
  rename_i hblank
  rw [if_neg hblank]
  split at h
  · rename_i hstart
    rwa [if_pos hstart]
  rename_i hstart
  rw [if_neg hstart]
  split at h
  · rename_i hdigit
    rwa [if_pos hdigit]
  rename_i hdigit
  rw [if_neg hdigit]
  split at h
  · rename_i hquote
    rw [if_pos hquote]
    cases hbody : stringBody p (p.next c) cs with
    | error f =>
      rw [hbody] at h
      cases h
    | ok r =>
      rw [hbody] at h
      rwa [stringBody_append hbody]
  · rename_i hquote
    rw [if_neg hquote]
    exact punctuation_append_newline h rest

/-! ## Whole texts -/

/-- What is found takes at least one character of the text. -/
theorem Found.exists_piece {cs : List Char} {l : Lexeme} (h : Found cs l) :
    ∃ text rest, cs = text ++ rest ∧ text ≠ [] ∧ l.length = text.length := by
  cases h with
  | token text rest htext hlexeme => exact ⟨text, rest, htext, hlexeme.ne_nil, rfl⟩
  | @blank c rest htext => exact ⟨[c], rest, htext, by simp, rfl⟩
  | comment body rest htext => exact ⟨_, rest, htext, by simp, by simp [skip]; omega⟩

/-- Where a line feed follows a text, the scan goes on after it from where the scan of the text
alone ends. -/
theorem scanFrom_append_newline {p : Place} {cs : List Char} {tokens : List Token}
    (h : scanFrom 0 p cs = .ok tokens) (rest : List Char) :
    ∃ body, tokens = body ++ [⟨.eof, p.advance cs, ""⟩] ∧
      scanFrom 0 p (cs ++ '\n' :: rest) =
        (scanFrom 0 ((p.advance cs).next '\n') rest).map (body ++ ·) := by
  -- Every piece takes a character, so the text after it is shorter.
  induction hn : cs.length using Nat.strongRecOn generalizing p cs tokens with
  | ind n ih =>
    cases cs with
    | nil =>
      cases h
      refine ⟨[], rfl, ?_⟩
      rw [List.nil_append, scanFrom_blank (by decide), Place.advance, List.foldl_nil]
      cases scanFrom 0 (p.next '\n') rest <;> rfl
    | cons c cs =>
      cases hl : lexeme p c cs with
      | error f =>
        rw [scanFrom, hl] at h
        cases h
      | ok l =>
        obtain ⟨text, after, htext, hne, hlength⟩ := (found_lexeme hl).exists_piece
        have hshorter : after.length < n := by
          have hpos := List.length_pos_iff.mpr hne
          rw [← hn, htext, List.length_append]
          omega
        have htext' : c :: (cs ++ '\n' :: rest) = text ++ (after ++ '\n' :: rest) := by
          rw [← List.cons_append, htext, List.append_assoc]
        rw [scanFrom_piece text htext hne hlength hl] at h
        obtain ⟨tokens', hafter, rfl⟩ := exists_of_map_ok h
        obtain ⟨body, rfl, hscan⟩ := ih _ hshorter hafter rfl
        have hl' := lexeme_append_newline hl rest
        refine ⟨tokenOf l p text ++ body, ?_, ?_⟩
        · rw [htext, Place.advance_append, List.append_assoc]
        · rw [List.cons_append, scanFrom_piece text htext' hne hlength hl', hscan, htext,
            Place.advance_append]
          cases scanFrom 0 (((p.advance text).advance after).next '\n') rest with
          | error f => rfl
          | ok tokens => simp [Except.map]

end Lexer

/-- **Lexing is compositional at line feeds.**  Where a text can be scanned, it may be followed by a
line feed and any other text: the scan gives its tokens, without the end of the input, and then what
the other text gives alone, tokens or a fault, moved down by one line for each line feed of the
first text and for the one between them. -/
theorem scan_line_feed {source : String} {tokens : List Token} (h : scan source = .ok tokens)
    (rest : String) :
    ∃ body eof, tokens = body ++ [eof] ∧ eof.kind = .eof ∧
      scan (source ++ "\n" ++ rest) =
        (Lexer.down (source.toList.count '\n' + 1) (scan rest)).map (body ++ ·) := by
  obtain ⟨body, rfl, hscan⟩ := Lexer.scanFrom_append_newline h rest.toList
  refine ⟨body, _, rfl, rfl, ?_⟩
  have hplace : (Place.start.advance source.toList).next '\n' =
      Place.start.down (source.toList.count '\n' + 1) := by
    rw [← Place.next_newline_after]
    exact congrArg (Place.next · '\n') (Place.advance_after [] source.toList)
  have htext : (source ++ "\n" ++ rest).toList = source.toList ++ '\n' :: rest.toList := by
    simp [String.toList_append]
  rw [scan, htext, hscan, hplace, Lexer.scanFrom_down]
  rfl

/-- A comment and a slash at the ends of lines, with another slash on the next line or a string with
an escape that has no meaning. -/
theorem scan_line_feed_slash :
    ∃ body eof, scan "x <//y\n:=/" = .ok (body ++ [eof]) ∧
      scan ("x <//y\n:=/" ++ "\n" ++ "/ 7") =
        .ok (body ++ [⟨.op (.arith .div), ⟨3, 1⟩, "/"⟩, ⟨.literal (.int 7), ⟨3, 3⟩, "7"⟩,
          ⟨.eof, ⟨3, 4⟩, ""⟩]) ∧
      scan ("x <//y\n:=/" ++ "\n" ++ "\n\"\\q\"") = .error (.badEscape 'q' ⟨4, 3⟩) := by
  have h : scan "x <//y\n:=/" = .ok [⟨.ident "x", ⟨1, 1⟩, "x"⟩, ⟨.op (.compare .lt), ⟨1, 3⟩, "<"⟩,
      ⟨.mark .assign, ⟨2, 1⟩, ":="⟩, ⟨.op (.arith .div), ⟨2, 3⟩, "/"⟩, ⟨.eof, ⟨2, 4⟩, ""⟩] := rfl
  obtain ⟨body, eof, htokens, -, hscan⟩ := scan_line_feed h "/ 7"
  obtain ⟨body', eof', -, -, hfault⟩ := scan_line_feed h "\n\"\\q\""
  exact ⟨body, eof, by rw [h, htokens], hscan, hfault⟩

end PLZero
