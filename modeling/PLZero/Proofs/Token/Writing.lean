import PLZero.Proofs.Token.Reading
import PLZero.Tree.Printer

/-!
# Printed text

Texts are put together from names, literals and fixed pieces.  Each is scanned into tokens of known
kinds, as long as what follows does not run into it.

* `Lexer.Writes` — a text that something delimited has to follow.
* `Lexer.Spaced` — a text that anything may follow, such as one that ends with a blank.
* `IsLexeme.eq_name`, `IsLexeme.source` — names and literals that were scanned once are scanned again
  from the form in which they are printed.
* `Decimal.read?_print` — a number, negative ones included, is read back from its numeral.
* `scan_quote` — any text at all is read back from its quoted form.
-/

namespace PLZero

/-! ## Names and literals -/

theorem IsLexeme.eq_name {name : String} {text : List Char} (h : IsLexeme (.ident name) text) :
    text = name.toList := by
  cases h with
  | ident => rw [String.toList_ofList]

theorem Quoted.spells_escape (c : Char) {written contents : List Char}
    (h : Quoted.Spells written contents) :
    Quoted.Spells (Quoted.escape c ++ written) (c :: contents) := by
  unfold Quoted.escape
  split
  · exact .escaped rfl h
  · exact .escaped rfl h
  · exact .escaped rfl h
  · exact .escaped rfl h
  · exact .escaped rfl h
  · exact .escaped rfl h
  · exact .escaped rfl h
  · exact .plain (by assumption) (by assumption) (by assumption) h

theorem Quoted.spells_flatMap_escape (cs : List Char) :
    Quoted.Spells (cs.flatMap Quoted.escape) cs := by
  induction cs with
  | nil => exact .nil
  | cons c cs ih => exact Quoted.spells_escape c ih

theorem Quoted.isLexeme_quote (s : String) :
    IsLexeme (.literal (.str s)) (Quoted.quote s).toList := by
  have h := IsLexeme.string (Quoted.spells_flatMap_escape s.toList)
  rw [String.ofList_toList] at h
  rw [Quoted.quote, String.toList_ofList]
  exact h

theorem Decimal.toList_print {n : Int32} {k : Nat} (h : n.toInt = k) :
    (Decimal.print n).toList = Nat.toDigits 10 k := by
  rw [Decimal.print, h]
  exact Nat.toList_repr

theorem Decimal.natural?_toDigits (k : Nat) : Decimal.natural? (Nat.toDigits 10 k) = some k := by
  have hdigits : (Nat.toDigits 10 k).all Char.isDigit = true :=
    List.all_eq_true.mpr fun d hd => Nat.isDigit_of_mem_toDigits (by decide) (by decide) hd
  rw [Decimal.natural?, if_pos ⟨Nat.toDigits_ne_nil, hdigits⟩, Nat.ofDigitChars_ten_toDigits]

theorem Decimal.toList_print_negSucc {n : Int32} {k : Nat} (h : n.toInt = .negSucc k) :
    (Decimal.print n).toList = '-' :: Nat.toDigits 10 (k + 1) := by
  have hprint : Decimal.print n = "-" ++ Nat.repr (k + 1) := by
    rw [Decimal.print, h]
    rfl
  rw [hprint, String.toList_append, Nat.toList_repr]
  rfl

theorem Decimal.read?_print (n : Int32) : Decimal.read? (Decimal.print n).toList = some n := by
  cases h : n.toInt with
  | ofNat k =>
    rw [Decimal.toList_print h]
    cases hdigits : Nat.toDigits 10 k with
    | nil => exact absurd hdigits Nat.toDigits_ne_nil
    | cons c cs =>
      refine Decimal.read?_of_toInt (fun d hd => ?_) ?_
      · rw [← hdigits] at hd
        exact Nat.isDigit_of_mem_toDigits (by decide) (by decide) hd
      · rw [← hdigits, Nat.ofDigitChars_ten_toDigits]
        exact h
  | negSucc k =>
    have hvalue : -Int.ofNat (k + 1) = n.toInt := by
      rw [h]
      rfl
    rw [Decimal.toList_print_negSucc h, Decimal.read?, Decimal.natural?_toDigits,
      Option.bind_eq_bind, Option.bind_some, hvalue, Decimal.int32?_toInt]

/-- A numeral is made of digits, but for its sign. -/
theorem Decimal.of_mem_print {n : Int32} {c : Char} (hc : c ∈ (Decimal.print n).toList) :
    c = '-' ∨ c.isDigit = true := by
  have hdigit {k : Nat} (h : c ∈ Nat.toDigits 10 k) : c.isDigit = true :=
    Nat.isDigit_of_mem_toDigits (by decide) (by decide) h
  cases h : n.toInt with
  | ofNat k =>
    rw [Decimal.toList_print h] at hc
    exact .inr (hdigit hc)
  | negSucc k =>
    rw [Decimal.toList_print_negSucc h, List.mem_cons] at hc
    exact hc.imp_right hdigit

theorem IsLexeme.source {value : Value} {text : List Char} (h : IsLexeme (.literal value) text) :
    IsLexeme (.literal value) value.source.toList := by
  cases h with
  | boolean b => exact .boolean b
  | @number n _ _ _ hn =>
    have hdigits : (Value.int n).source.toList = Nat.toDigits 10 (Nat.ofDigitChars 10 text 0) :=
      Decimal.toList_print hn
    rw [hdigits]
    refine .number Nat.toDigits_ne_nil ?_ ?_
    · intro d hd
      exact Nat.isDigit_of_mem_toDigits (by decide) (by decide) hd
    · rw [hn, Nat.ofDigitChars_ten_toDigits]
  | string => exact Quoted.isLexeme_quote _

/-! ### Quoted texts -/

theorem Quoted.not_mem_escape (c : Char) : '\n' ∉ Quoted.escape c := by
  unfold Quoted.escape
  split
  case h_8 hline _ _ _ _ => simpa using Ne.symm hline
  all_goals decide

/-- A text is quoted on one line, whatever it contains. -/
theorem Quoted.not_mem_quote (s : String) : '\n' ∉ (Quoted.quote s).toList := by
  simp [Quoted.quote, Quoted.not_mem_escape]

theorem Place.advance_of_not_mem {cs : List Char} (h : '\n' ∉ cs) (p : Place) :
    p.advance cs = ⟨p.line, p.column + cs.length⟩ := by
  induction cs generalizing p with
  | nil => rfl
  | cons c cs ih =>
    rw [List.mem_cons, not_or] at h
    rw [advance, List.foldl_cons, next_of_ne (Ne.symm h.1), ← advance, ih h.2, List.length_cons, Nat.add_assoc,
      Nat.add_comm 1]

/-- **The lexer reads back what is quoted.**  A quoted text is scanned into one literal, whose value
is the text and which takes the whole line, and the end of the input. -/
theorem scan_quote (s : String) :
    scan (Quoted.quote s) =
      .ok [⟨.literal (.str s), ⟨1, 1⟩, Quoted.quote s⟩,
        ⟨.eof, ⟨1, 1 + (Quoted.quote s).length⟩, ""⟩] := by
  have hscan := Lexer.scanFrom_lexeme (Quoted.isLexeme_quote s) .nil Place.start
  have hplace := Place.advance_of_not_mem (Quoted.not_mem_quote s) Place.start
  rw [List.append_nil, hplace, String.ofList_toList, String.length_toList] at hscan
  exact hscan

namespace Lexer

/-! ## Pieces that are put together -/

/-- The text is scanned into these kinds where something delimited follows. -/
def Writes (text : String) (kinds : List TokenKind) : Prop :=
  ∀ rest, Delimited rest → Reads text.toList kinds rest

/-- The text is scanned into these kinds whatever follows. -/
def Spaced (text : String) (kinds : List TokenKind) : Prop := ∀ rest, Reads text.toList kinds rest

/-- The text may follow any lexeme. -/
def Opens (text : String) : Prop := ∀ rest, Delimited (text.toList ++ rest)

variable {text text' : String} {kind : TokenKind} {kinds kinds' : List TokenKind}

theorem writes_lexeme (h : IsLexeme kind text.toList) : Writes text [kind] :=
  fun _ hrest => .lexeme h hrest

theorem writes_empty : Writes "" [] := fun _ _ => .nil

theorem spaced_empty : Spaced "" [] := fun _ => .nil

theorem spaced_leftParen : Spaced "(" [.mark .leftParen] := fun _ => .leftParen

theorem Spaced.writes (h : Spaced text kinds) (h' : Writes text' kinds') :
    Writes (text ++ text') (kinds ++ kinds') := by
  intro rest hrest
  rw [String.toList_append]
  exact (h _).append (h' rest hrest)

theorem Spaced.append (h : Spaced text kinds) (h' : Spaced text' kinds') :
    Spaced (text ++ text') (kinds ++ kinds') := by
  intro rest
  rw [String.toList_append]
  exact (h _).append (h' rest)

theorem Writes.append (h : Writes text kinds) (hopens : Opens text') (h' : Spaced text' kinds') :
    Spaced (text ++ text') (kinds ++ kinds') := by
  intro rest
  rw [String.toList_append]
  exact (h _ (hopens rest)).append (h' rest)

theorem Writes.rightParen (h : Writes text kinds) :
    Writes (text ++ ")") (kinds ++ [.mark .rightParen]) := by
  intro rest hrest
  rw [String.toList_append]
  exact (h _ (.mark (by decide) rest)).append (.lexeme (.mark .rightParen) hrest)

/-- A lexeme with a blank after it. -/
theorem spaced_lexeme {c : Char} {word : List Char} (h : IsLexeme kind word)
    (hblank : Text.isBlank c = true) (htext : text.toList = word ++ [c]) : Spaced text [kind] := by
  intro rest
  rw [htext]
  exact (Reads.lexeme h (.blank hblank rest)).append (.blank hblank)

/-- A lexeme between two blanks. -/
theorem spaced_infix {c d : Char} {word : List Char} (h : IsLexeme kind word)
    (hc : Text.isBlank c = true) (hd : Text.isBlank d = true)
    (htext : text.toList = c :: (word ++ [d])) : Spaced text [kind] := by
  intro rest
  rw [htext]
  exact (Reads.blank hc).append ((Reads.lexeme h (.blank hd rest)).append (.blank hd))

theorem spaced_space : Spaced " " [] := fun _ => .blank (by decide)

theorem opens_space : Opens " " := fun rest => .blank (by decide) rest

theorem spaced_newline : Spaced "\n" [] := fun _ => .blank (by decide)

theorem opens_newline : Opens "\n" := fun rest => .blank (by decide) rest

theorem spaced_semicolon : Spaced ";\n" [.mark .semicolon] :=
  spaced_lexeme (.mark .semicolon) (c := '\n') (by decide) rfl

theorem opens_semicolon : Opens ";\n" := fun rest => .mark (by decide) ('\n' :: rest)

theorem spaced_indentation (depth : Nat) : Spaced (indentation depth) [] := by
  intro rest
  rw [indentation, String.toList_ofList]
  induction 4 * depth with
  | zero => exact .nil
  | succ n ih => exact (Reads.blank (by decide)).append ih

end Lexer

end PLZero
