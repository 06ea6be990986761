import Mathlib.Data.List.DropRight
import PLZero.Machine.Console
import PLZero.Proofs.Text.Utf8
import PLZero.Proofs.Token.Writing

/-!
# Printed values are read back

Every value is printed on a line of its own, and one line is taken to read a value.  So values that
were printed one after the other can be read from the output.

* `Console.printAll`, `Console.readAll` — values one after the other.
* `Value.Readable` — the values whose line is read as it was printed.  Only texts can fail to be so:
  those of several lines, and those whose end would be taken for the end of the line.
* `Console.read_printed` — one value, with any bytes after its line.
* `Console.readAll_printed` — the values of a whole output.
-/

namespace PLZero

/-! ## Lines -/

namespace Console

theorem splitLine_append {line rest : List UInt8} (h : 10 ∉ line) :
    splitLine (line ++ 10 :: rest) = (line ++ [10], rest) := by
  induction line with
  | nil => rfl
  | cons b line ih =>
    rw [List.mem_cons, not_or] at h
    rw [List.cons_append, splitLine, if_neg (Ne.symm h.1), ih h.2]
    rfl

/-- Only the line feed is taken off where the text before it does not end in such a character. -/
theorem chomp_append_newline {text : List Char}
    (h : ∀ c ∈ text.getLast?, c ≠ '\n' ∧ c ≠ '\r') : chomp (text ++ ['\n']) = text := by
  have hdrop : chomp (text ++ ['\n']) = text.rdropWhile fun c => c == '\n' || c == '\r' :=
    List.rdropWhile_concat_pos _ text '\n' rfl
  rw [hdrop, List.rdropWhile_eq_self_iff]
  intro hne
  simpa using h _ (List.getLast?_eq_some_getLast hne)

end Console

theorem Text.trim_of_not_isBlank {cs : List Char} (h : ∀ c ∈ cs, Text.isBlank c = false) :
    Text.trim cs = cs := by
  have hstart : cs.dropWhile Text.isBlank = cs := by
    rw [List.dropWhile_eq_self_iff]
    intro hlength
    simpa using h _ (List.getElem_mem hlength)
  have hend : cs.rdropWhile Text.isBlank = cs := by
    rw [List.rdropWhile_eq_self_iff]
    intro hne
    simpa using h _ (List.getLast_mem hne)
  rw [Text.trim, hstart]
  exact hend

/-! ## Single values -/

namespace Value

/-- A text stands on one line, and its end is not taken for a part of the line's end. -/
def Readable : Value → Prop
  | str s => '\n' ∉ s.toList ∧ s.toList.getLast? ≠ some '\r'
  | _ => True

instance decidableReadable : (v : Value) → Decidable v.Readable
  | str s => inferInstanceAs (Decidable ('\n' ∉ s.toList ∧ s.toList.getLast? ≠ some '\r'))
  | int _ | bool _ => isTrue trivial

/-- The line on which the value is printed. -/
def line (v : Value) : String := v.text ++ "\n"

theorem print_ty (v : Value) : v.print v.ty = .ok v.line := by
  cases v <;> rfl

/-- Words and numerals have no blanks in them. -/
theorem not_isBlank_of_mem_text {v : Value} (hv : v.ty ≠ .string) :
    ∀ c ∈ v.text.toList, Text.isBlank c = false := by
  intro c hc
  cases v with
  | int n =>
    obtain rfl | hdigit := Decimal.of_mem_print hc
    · decide
    · exact Lexer.not_isBlank_of_isDigit hdigit
  | bool b =>
    have hword : ((boolName b).toList.all fun c => !Text.isBlank c) = true := by
      cases b <;> decide
    simpa using List.all_eq_true.mp hword c hc
  | str s => exact absurd rfl hv

theorem ne_of_not_isBlank {c : Char} (h : Text.isBlank c = false) : c ≠ '\n' ∧ c ≠ '\r' := by
  constructor <;> rintro rfl <;> exact absurd h (by decide)

theorem Readable.not_mem {v : Value} (h : v.Readable) : '\n' ∉ v.text.toList := by
  cases v with
  | str s => exact h.1
  | int | bool =>
    intro hmem
    exact (ne_of_not_isBlank (not_isBlank_of_mem_text (by simp [ty]) _ hmem)).1 rfl

theorem Readable.getLast {v : Value} (h : v.Readable) :
    ∀ c ∈ v.text.toList.getLast?, c ≠ '\n' ∧ c ≠ '\r' := by
  intro c hc
  have hmem := List.mem_of_getLast? hc
  cases v with
  | str s => exact ⟨fun heq => h.1 (heq ▸ hmem), fun heq => h.2 (heq ▸ hc)⟩
  | int | bool => exact ne_of_not_isBlank (not_isBlank_of_mem_text (by simp [ty]) _ hmem)

end Value

namespace Console

theorem parse_text {v : Value} (h : v.Readable) :
    parse v.ty (v.text.toList ++ ['\n']) = .ok v := by
  have hchomp := chomp_append_newline h.getLast
  cases v with
  | int n =>
    have htrim := Text.trim_of_not_isBlank
      (Value.not_isBlank_of_mem_text (v := .int n) (by simp [Value.ty]))
    have hread := Decimal.read?_print n
    simp only [parse, Value.ty, hchomp, htrim]
    simp only [Value.text, hread]
  | bool b =>
    have htrim := Text.trim_of_not_isBlank
      (Value.not_isBlank_of_mem_text (v := .bool b) (by simp [Value.ty]))
    simp only [parse, Value.ty, hchomp, htrim]
    cases b <;> rfl
  | str s =>
    simp only [parse, Value.ty, hchomp]
    rw [Value.text, String.ofList_toList]

/-- A value is read from its line, and just the bytes of the line are taken. -/
theorem read_printed {v : Value} (h : v.Readable) (rest : List UInt8) (output : String) :
    read v.ty ⟨Utf8.encode v.line.toList ++ rest, output⟩ = (.ok v, ⟨rest, output⟩) := by
  have hline : v.line.toList = v.text.toList ++ ['\n'] := by
    rw [Value.line, String.toList_append]
    rfl
  have hbytes : Utf8.encode v.line.toList = Utf8.encode v.text.toList ++ [10] := by
    rw [hline, Utf8.encode_append]
    rfl
  have hsplit : splitLine (Utf8.encode v.line.toList ++ rest) =
      (Utf8.encode v.line.toList, rest) := by
    rw [hbytes, List.append_assoc]
    exact splitLine_append (Utf8.newline_not_mem_encode h.not_mem)
  have hparse : parseLine v.ty (Utf8.encode v.line.toList) = .ok v := by
    rw [parseLine, Utf8.decode_encode, hline]
    exact parse_text h
  unfold read
  dsimp only
  split
  · rename_i hnil
    simp [hbytes] at hnil
  · rename_i b bs hcons
    rw [← hcons, hsplit]
    exact congrArg (·, _) hparse

/-! ## Whole outputs -/

/-- Prints the values one after the other, each as a value of its own type. -/
def printAll : List Value → Console → Except MachineFault Console
  | [], c => .ok c
  | v :: vs, c => do
    let line ← v.print v.ty
    printAll vs (c.write line)

/-- Reads values of these types one after the other, up to the first fault. -/
def readAll : List Ty → Console → Except MachineFault (List Value) × Console
  | [], c => (.ok [], c)
  | ty :: tys, c =>
    match c.read ty with
    | (.ok v, c) =>
      let (vs, c) := readAll tys c
      ((v :: ·) <$> vs, c)
    | (.error f, c) => (.error f, c)

theorem printAll_eq (vs : List Value) (c : Console) :
    printAll vs c = .ok (c.write (String.join (vs.map Value.line))) := by
  induction vs generalizing c with
  | nil => simp [printAll, write]
  | cons v vs ih =>
    rw [printAll, v.print_ty]
    refine (ih _).trans ?_
    simp [write, String.append_assoc]

/-- The first `k` values are read, and what is left are the bytes of the others. -/
theorem readAll_take {vs : List Value} (h : ∀ v ∈ vs, v.Readable) (output : String) (k : Nat) :
    readAll ((vs.take k).map Value.ty)
        ⟨Utf8.encode (String.join (vs.map Value.line)).toList, output⟩ =
      (.ok (vs.take k), ⟨Utf8.encode (String.join ((vs.map Value.line).drop k)).toList, output⟩) := by
  induction vs generalizing k with
  | nil => simp [readAll]
  | cons v vs ih =>
    cases k with
    | zero => simp [readAll]
    | succ k =>
      rw [List.forall_mem_cons] at h
      have hread := read_printed h.1 (Utf8.encode (String.join (vs.map Value.line)).toList) output
      simp only [List.map_cons, List.take_succ_cons, List.drop_succ_cons, String.join_cons,
        String.toList_append, Utf8.encode_append, readAll, hread, ih h.2]
      rfl

/-- **Printed values are read back.**  Values of which no text contains a line feed or ends with a
carriage return are printed, each by the routine of its type.  From the output, reading by the same
types gives the same values and uses it up.  The first `k` reads take just the bytes that the first
`k` prints have written. -/
theorem readAll_printed {vs : List Value} (h : ∀ v ∈ vs, v.Readable) (input : List UInt8)
    (output : String) :
    ∃ lines : List String, vs.map (fun v => v.print v.ty) = lines.map .ok ∧
      printAll vs ⟨input, ""⟩ = .ok ⟨input, String.join lines⟩ ∧
      readAll (vs.map Value.ty) ⟨Utf8.encode (String.join lines).toList, output⟩ =
        (.ok vs, ⟨[], output⟩) ∧
      ∀ k, readAll ((vs.take k).map Value.ty) ⟨Utf8.encode (String.join lines).toList, output⟩ =
        (.ok (vs.take k), ⟨Utf8.encode (String.join (lines.drop k)).toList, output⟩) := by
  refine ⟨vs.map Value.line, by simp [Value.print_ty], ?_, ?_, readAll_take h output⟩
  · rw [printAll_eq, write, String.empty_append]
  · have hall := readAll_take h output vs.length
    have hnone : (vs.map Value.line).drop vs.length = [] := by simp
    rw [List.take_length, hnone] at hall
    exact hall

/-- The least number, a text with blanks at its ends and a carriage return inside, an empty text. -/
def mixedValues : List Value :=
  [.int (-2147483648), .str "  a\r\x85é ", .bool false, .str "", .str "-1", .int 7]

/-- The output of these values. -/
def mixedOutput : String := "-2147483648\n  a\r\x85é \nfalse\n\n-1\n7\n"

theorem mixedValues_read :
    (∀ v ∈ mixedValues, v.Readable) ∧
      printAll mixedValues ⟨[], ""⟩ = .ok ⟨[], mixedOutput⟩ ∧
      readAll (mixedValues.map Value.ty) ⟨Utf8.encode mixedOutput.toList, ""⟩ =
        (.ok mixedValues, ⟨[], ""⟩) := by
  have hreadable : ∀ v ∈ mixedValues, v.Readable := by decide +kernel
  have hprint : printAll mixedValues ⟨[], ""⟩ = .ok ⟨[], mixedOutput⟩ := by decide +kernel
  obtain ⟨lines, -, hlines, hread, -⟩ := readAll_printed hreadable [] ""
  rw [hprint] at hlines
  have htext : mixedOutput = String.join lines := congrArg Console.output (Except.ok.inj hlines)
  rw [← htext] at hread
  exact ⟨hreadable, hprint, hread⟩

end Console

end PLZero
