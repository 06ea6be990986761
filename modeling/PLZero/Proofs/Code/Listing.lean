import PLZero.Code.Unit
import PLZero.Proofs.Token.Writing

/-!
# Listings are read back

A listing shows a unit to a reader, and it shows all of it: the unit can be got back from the text.

* `Listing.read?` — the unit of a listing.  The reader takes the text to be a listing and skips what
  it knows already, such as the numbers of the routines.
* `Listing.readInstr?_text` — an instruction is read from its text.  The first word tells the form,
  and the form tells how the operands are written.
* `Listing.readRoutine?_block` — a routine is read from its heading and the lines of its code.
* `CodeUnit.Listable` — the units whose names do not break a line, and which print no procedure.
* `CodeUnit.read?_listing`, `CodeUnit.eq_of_listing_eq` — such a unit is read from its listing, so
  that no other such unit has the same.

Lines are told apart since an empty one stands before each routine and nowhere else
(`Listing.nil_not_mem_block`), and no operand breaks a line (`Listing.newline_not_mem_text`).
-/

namespace PLZero

namespace Listing

/-! ## Reading a listing -/

/-- What stands before the first `c`, and what stands after it. -/
def cut (c : Char) (cs : List Char) : List Char × List Char :=
  (cs.takeWhile (· ≠ c), (cs.dropWhile (· ≠ c)).tail)

/-- Two numbers, as in `3 up-1`. -/
def readPair? (cs : List Char) : Option (Nat × Nat) := do
  let (first, second) := cut ' ' cs
  return (← Decimal.natural? first, ← Decimal.natural? (second.drop 3))

def readLabel? (cs : List Char) : Option Label := UInt32.ofNat <$> Decimal.natural? cs.tail

def readValue? (cs : List Char) : Option Value :=
  match Decimal.read? cs, cs with
  | some n, _ => some (.int n)
  | none, '"' :: cs =>
    match Lexer.stringBody .start .start cs with
    | .ok (s, _) => some (.str (String.ofList s))
    | .error _ => none
  | none, cs =>
    match String.ofList cs with
    | "true" => some (.bool true)
    | "false" => some (.bool false)
    | _ => none

def readTy? (cs : List Char) : Option Ty :=
  match String.ofList cs with
  | "NUMBER" => some .number
  | "BOOLEAN" => some .boolean
  | "STRING" => some .string
  | "PROCEDURE" => some .procedure
  | _ => none

/-- The instruction of a word with the text of its operands. -/
def readForm? (word : String) (operands : List Char) : Option Instr :=
  match word with
  | "push" => .push <$> readValue? operands
  | "load" => (fun p => .load p.2 p.1) <$> readPair? operands
  | "store" => (fun p => .store p.2 p.1) <$> readPair? operands
  | "add" => some (.arith .add)
  | "sub" => some (.arith .sub)
  | "mul" => some (.arith .mul)
  | "div" => some (.arith .div)
  | "rem" => some (.arith .rem)
  | "and" => some .and
  | "or" => some .or
  | "concat" => some .concat
  | "pop" => some .pop
  | "swap" => some .swap
  | "dup2" => some .dup2
  | "dup_x2" => some .dupX2
  | "str_equals" => some .strEquals
  | "starts_with" => some .startsWith
  | "ends_with" => some .endsWith
  | "if_cmpeq" => .ifCmp .eq <$> readLabel? operands
  | "if_cmpne" => .ifCmp .ne <$> readLabel? operands
  | "if_cmplt" => .ifCmp .lt <$> readLabel? operands
  | "if_cmple" => .ifCmp .le <$> readLabel? operands
  | "if_cmpgt" => .ifCmp .gt <$> readLabel? operands
  | "if_cmpge" => .ifCmp .ge <$> readLabel? operands
  | "if_str_eq" => .ifStr true <$> readLabel? operands
  | "if_str_ne" => .ifStr false <$> readLabel? operands
  | "if_false" => .ifBool false <$> readLabel? operands
  | "if_true" => .ifBool true <$> readLabel? operands
  | "goto" => .goto <$> readLabel? operands
  | "call" => (fun p => .call p.1 p.2) <$> readPair? operands
  | "read" => .read <$> readTy? operands
  | "return" => some .ret
  | "invoke" =>
    match String.ofList operands with
    | "boolean_not" => some .not
    | "print_number" => some (.print .number)
    | "print_boolean" => some (.print .boolean)
    | "print_string" => some (.print .string)
    | _ => none
  | _ => none

/-- An instruction without its indentation. -/
def readInstr? (text : List Char) : Option Instr :=
  let (word, operands) := cut ' ' text
  readForm? (String.ofList word) operands

def readLine? : List Char → Option Instr
  | ' ' :: ' ' :: ' ' :: ' ' :: text => readInstr? text
  | text => .label <$> readLabel? text.dropLast

/-- Types with commas between them. -/
def readTys? (cs : List Char) : Option (List Ty) :=
  if cs = [] then some [] else ((cs.filter (· ≠ ' ')).splitOn ',').mapM readTy?

/-- A routine from its heading and the lines of its code. -/
def readRoutine? : List (List Char) → Option Routine
  | [] => none
  | heading :: code => do
    let (_, rest) := cut ' ' (heading.drop "routine ".length)
    -- A name may have a bracket in it, a type has none: the last one opens the types.
    let (locals, name) := cut '[' rest.reverse
    return ⟨String.ofList name.tail.reverse, ← readTys? locals.tail.reverse, ← code.mapM readLine?⟩

/-- A unit from its listing.  An empty line stands before each routine and nowhere else. -/
def read? (text : String) : Option CodeUnit :=
  match text.toList.splitOn '\n' with
  | [] => none
  | first :: lines => do
    let blocks := (lines.dropLast.splitOn []).tail
    return ⟨String.ofList (first.drop "unit ".length), ← blocks.mapM readRoutine?⟩

/-! ## Lines -/

def lineOf (i : Instr) : String := if i.isLabel then i.text else "    " ++ i.text

def typeNames (tys : List Ty) : String := ", ".intercalate (tys.map Ty.name)

def heading (index : Nat) (r : Routine) : String :=
  s!"routine {index} {r.name} [{typeNames r.locals}]"

/-- The lines of a routine, without the empty one before them. -/
def block (index : Nat) (r : Routine) : List (List Char) :=
  (heading index r).toList :: r.code.map fun i => (lineOf i).toList

def blocks : (index : Nat) → List Routine → List (List (List Char))
  | _, [] => []
  | index, r :: rs => block index r :: blocks (index + 1) rs

theorem toList_line (listing text : String) :
    (line listing text).toList = listing.toList ++ (text.toList ++ ['\n']) := by
  simp [line]

theorem toList_foldl_instr (code : List Instr) (listing : String) :
    (code.foldl instr listing).toList =
      listing.toList ++ (code.map fun i => (lineOf i).toList).flatMap (· ++ ['\n']) := by
  induction code generalizing listing with
  | nil => simp
  | cons i code ih =>
    have hline : (instr listing i).toList = listing.toList ++ ((lineOf i).toList ++ ['\n']) :=
      toList_line ..
    rw [List.foldl_cons, ih, hline, List.map_cons, List.flatMap_cons, List.append_assoc]

theorem toList_routine (listing : String) (index : Nat) (r : Routine) :
    (routine listing index r).toList =
      listing.toList ++ ([] :: block index r).flatMap (· ++ ['\n']) := by
  -- The empty line is part of the text of the heading.
  have htext : (s!"\nroutine {index} {r.name} [{typeNames r.locals}]").toList =
      '\n' :: (heading index r).toList := by
    unfold heading
    simp only [String.toList_append, List.append_assoc]
    rfl
  have hroutine : routine listing index r = r.code.foldl instr
      (line listing s!"\nroutine {index} {r.name} [{typeNames r.locals}]") := rfl
  rw [hroutine, toList_foldl_instr, toList_line, htext]
  simp only [block, List.flatMap_cons, List.append_assoc, List.nil_append, List.cons_append]

theorem toList_routines (listing : String) (index : Nat) (rs : List Routine) :
    (routines listing index rs).toList =
      listing.toList ++ ((blocks index rs).flatMap ([] :: ·)).flatMap (· ++ ['\n']) := by
  induction rs generalizing listing index with
  | nil => simp [routines, blocks]
  | cons r rs ih =>
    rw [routines, ih, toList_routine, List.append_assoc, ← List.flatMap_append]
    rfl

theorem splitOn_lines {lines : List (List Char)} (h : ∀ l ∈ lines, '\n' ∉ l) :
    (lines.flatMap (· ++ ['\n'])).splitOn '\n' = lines ++ [[]] := by
  induction lines with
  | nil => rfl
  | cons l lines ih =>
    rw [List.forall_mem_cons] at h
    rw [List.flatMap_cons, List.append_assoc, List.singleton_append,
      List.splitOn_append_cons_self_of_not_mem h.1, ih h.2, List.cons_append]

theorem splitOn_blocks {first : List (List Char)} (hfirst : [] ∉ first)
    {bs : List (List (List Char))} (h : ∀ b ∈ bs, [] ∉ b) :
    (first ++ bs.flatMap ([] :: ·)).splitOn [] = first :: bs := by
  induction bs generalizing first with
  | nil =>
    rw [List.flatMap_nil, List.append_nil]
    exact List.splitOn_eq_singleton hfirst
  | cons b bs ih =>
    rw [List.forall_mem_cons] at h
    rw [List.flatMap_cons, List.cons_append, List.splitOn_append_cons_self_of_not_mem hfirst,
      ih h.1 h.2]

theorem mapM_map_eq_some {α β : Type} {f : α → β} {g : β → Option α} {xs : List α}
    (h : ∀ x ∈ xs, g (f x) = some x) : (xs.map f).mapM g = some xs := by
  induction xs with
  | nil => rfl
  | cons x xs ih =>
    rw [List.forall_mem_cons] at h
    rw [List.map_cons, List.mapM_cons, h.1, ih h.2]
    rfl

/-! ## Reading back -/

theorem cut_append {c : Char} {before : List Char} (h : c ∉ before) (after : List Char) :
    cut c (before ++ c :: after) = (before, after) := by
  have hbefore : ∀ d ∈ before, decide (d ≠ c) = true :=
    fun d hd => decide_eq_true (ne_of_mem_of_not_mem hd h)
  rw [cut, List.takeWhile_append_of_pos hbefore, List.dropWhile_append_of_pos hbefore]
  simp

theorem not_mem_toDigits {c : Char} (hc : c.isDigit = false) (k : Nat) :
    c ∉ Nat.toDigits 10 k := by
  intro hmem
  rw [Nat.isDigit_of_mem_toDigits (by decide) (by decide) hmem] at hc
  cases hc

/-! ### Operands -/

theorem readPair?_text (m n : Nat) :
    readPair? (Nat.toDigits 10 m ++ ' ' :: 'u' :: 'p' :: '-' :: Nat.toDigits 10 n) = some (m, n) := by
  have hcut := cut_append (not_mem_toDigits (c := ' ') (by decide) m)
    ('u' :: 'p' :: '-' :: Nat.toDigits 10 n)
  simp only [readPair?, hcut, List.drop_succ_cons, List.drop_zero, Decimal.natural?_toDigits]
  rfl

theorem readLabel?_text (l : Label) : readLabel? ('L' :: Nat.toDigits 10 l.toNat) = some l := by
  rw [readLabel?, List.tail_cons, Decimal.natural?_toDigits]
  exact congrArg some l.ofNat_toNat

theorem readTy?_name (ty : Ty) : readTy? ty.name.toList = some ty := by
  cases ty <;> decide

theorem readValue?_source (v : Value) : readValue? v.source.toList = some v := by
  cases v with
  | int n =>
    have hread : Decimal.read? (Value.int n).source.toList = some n := Decimal.read?_print n
    simp only [readValue?, hread]
  | bool b => cases b <;> decide
  | str s =>
    have hquote : (Value.str s).source.toList = '"' :: (s.toList.flatMap Quoted.escape ++ ['"']) :=
      String.toList_ofList
    have hnumber (cs : List Char) : Decimal.read? ('"' :: cs) = none := by
      rw [Decimal.read?.eq_3 _ (by simp) (by simp), Decimal.natural?, if_neg (by simp)]
      rfl
    have hspells := Quoted.spells_flatMap_escape s.toList
    have hbody : Lexer.stringBody .start .start (s.toList.flatMap Quoted.escape ++ ['"']) =
        .ok (s.toList, (s.toList.flatMap Quoted.escape).length + 1) :=
      Lexer.stringBody_spells hspells .start
    rw [hquote]
    simp only [readValue?, hnumber, hbody, String.ofList_toList]

/-! ### Instructions -/

/-- An instruction whose text is a word with operands is read by the form of the word. -/
theorem readInstr?_of_text {i : Instr} (word operands : String)
    (htext : i.text = word ++ " " ++ operands) (hword : ' ' ∉ word.toList) :
    readInstr? i.text.toList = readForm? word operands.toList := by
  have hchars : i.text.toList = word.toList ++ ' ' :: operands.toList := by
    rw [htext, String.toList_append, String.toList_append, List.append_assoc]
    rfl
  rw [hchars, readInstr?, cut_append hword]
  exact congrArg (readForm? · operands.toList) (String.ofList_toList ..)

theorem toList_numeral (n : Nat) : (toString n).toList = Nat.toDigits 10 n := Nat.toList_repr

theorem toList_pair (m n : Nat) : (toString m ++ (" up-" ++ toString n)).toList =
    Nat.toDigits 10 m ++ ' ' :: 'u' :: 'p' :: '-' :: Nat.toDigits 10 n := by
  rw [String.toList_append, String.toList_append, toList_numeral, toList_numeral]
  rfl

theorem toList_label (l : Label) : (Label.text l).toList = 'L' :: Nat.toDigits 10 l.toNat := by
  rw [Label.text, String.toList_append, toList_numeral]
  rfl

theorem readInstr?_pair (form : Nat × Nat → Instr) (word : String) {m n : Nat}
    (hform : ∀ operands, readForm? word operands = form <$> readPair? operands)
    (htext : (form (m, n)).text = word ++ " " ++ toString m ++ " up-" ++ toString n)
    (hword : ' ' ∉ word.toList) :
    readInstr? (form (m, n)).text.toList = some (form (m, n)) := by
  rw [String.append_assoc, String.append_assoc] at htext
  rw [readInstr?_of_text _ _ htext hword, hform, toList_pair, readPair?_text]
  rfl

theorem readInstr?_jump (form : Label → Instr) (word : String) {target : Label}
    (hform : ∀ operands, readForm? word operands = form <$> readLabel? operands)
    (htext : (form target).text = word ++ " " ++ Label.text target) (hword : ' ' ∉ word.toList) :
    readInstr? (form target).text.toList = some (form target) := by
  rw [readInstr?_of_text _ _ htext hword, hform, toList_label, readLabel?_text]
  rfl

/-- Procedures are printed like numbers, so printing one cannot be told apart. -/
theorem readInstr?_text {i : Instr} (hlabel : i.isLabel = false) (hprint : i ≠ .print .procedure) :
    readInstr? i.text.toList = some i := by
  cases i with
  | push value =>
    rw [readInstr?_of_text "push" value.source rfl (by decide)]
    exact congrArg (Instr.push <$> ·) (readValue?_source value)
  | load up slot =>
    exact readInstr?_pair (fun p => .load p.2 p.1) "load" (fun _ => rfl) rfl (by decide)
  | store up slot =>
    exact readInstr?_pair (fun p => .store p.2 p.1) "store" (fun _ => rfl) rfl (by decide)
  | call routine up =>
    exact readInstr?_pair (fun p => .call p.1 p.2) "call" (fun _ => rfl) rfl (by decide)
  | ifCmp cond target =>
    exact readInstr?_jump (.ifCmp cond) ("if_cmp" ++ cond.mnemonic)
      (fun _ => by cases cond <;> rfl) rfl (by cases cond <;> decide)
  | ifStr equal target =>
    cases equal with
    | true => exact readInstr?_jump (.ifStr true) "if_str_eq" (fun _ => rfl) rfl (by decide)
    | false => exact readInstr?_jump (.ifStr false) "if_str_ne" (fun _ => rfl) rfl (by decide)
  | ifBool value target =>
    cases value with
    | true => exact readInstr?_jump (.ifBool true) "if_true" (fun _ => rfl) rfl (by decide)
    | false => exact readInstr?_jump (.ifBool false) "if_false" (fun _ => rfl) rfl (by decide)
  | goto target => exact readInstr?_jump .goto "goto" (fun _ => rfl) rfl (by decide)
  | label l => cases hlabel
  | arith op => cases op <;> rfl
  | print ty =>
    cases ty with
    | procedure => exact absurd rfl hprint
    | _ => rfl
  | read ty => cases ty <;> rfl
  | _ => rfl

theorem exists_of_isLabel {i : Instr} (h : i.isLabel = true) : ∃ l, i = .label l := by
  cases i with
  | label l => exact ⟨l, rfl⟩
  | _ => cases h

theorem toList_lineOf {i : Instr} (h : i.isLabel = false) :
    (lineOf i).toList = ' ' :: ' ' :: ' ' :: ' ' :: i.text.toList := by
  rw [lineOf, h, if_neg Bool.false_ne_true, String.toList_append]
  rfl

theorem toList_lineOf_label (l : Label) :
    (lineOf (.label l)).toList = 'L' :: Nat.toDigits 10 l.toNat ++ [':'] := by
  have htext : lineOf (.label l) = Label.text l ++ ":" := rfl
  rw [htext, String.toList_append, toList_label]
  rfl

theorem readLine?_lineOf {i : Instr} (hprint : i ≠ .print .procedure) :
    readLine? (lineOf i).toList = some i := by
  cases hlabel : i.isLabel with
  | false =>
    have hread (cs : List Char) : readLine? (' ' :: ' ' :: ' ' :: ' ' :: cs) = readInstr? cs := rfl
    rw [toList_lineOf hlabel, hread, readInstr?_text hlabel hprint]
  | true =>
    obtain ⟨l, rfl⟩ := exists_of_isLabel hlabel
    have hread (cs : List Char) :
        readLine? ('L' :: cs) = .label <$> readLabel? ('L' :: cs).dropLast := rfl
    rw [toList_lineOf_label, List.cons_append, hread, ← List.cons_append, List.dropLast_concat,
      readLabel?_text]
    rfl

/-! ### Routines -/

theorem not_mem_name {c : Char} (hc : c.isUpper = false) (ty : Ty) : c ∉ ty.name.toList := by
  have hupper : ty.name.toList.all Char.isUpper = true := by cases ty <;> decide
  intro hmem
  rw [List.all_eq_true.mp hupper c hmem] at hc
  cases hc

theorem of_mem_intercalate {c : Char} {separator : List Char} {names : List (List Char)}
    (h : c ∈ separator.intercalate names) : c ∈ separator ∨ ∃ name ∈ names, c ∈ name := by
  induction names with
  | nil => cases h
  | cons name names ih =>
    cases names with
    | nil =>
      rw [List.intercalate_singleton] at h
      exact .inr ⟨name, List.mem_singleton_self _, h⟩
    | cons name' names =>
      rw [List.intercalate_cons_cons, List.mem_append, List.mem_append] at h
      obtain (h | h) | h := h
      · exact .inr ⟨name, List.mem_cons_self, h⟩
      · exact .inl h
      · obtain h | ⟨x, hx, hc⟩ := ih h
        · exact .inl h
        · exact .inr ⟨x, List.mem_cons_of_mem _ hx, hc⟩

theorem toList_types (tys : List Ty) : (typeNames tys).toList =
    [',', ' '].intercalate (tys.map fun ty => ty.name.toList) := by
  rw [typeNames, String.toList_intercalate, List.map_map]
  rfl

theorem not_mem_types {c : Char} (hc : c.isUpper = false) (hseparator : c ∉ [',', ' '])
    (tys : List Ty) : c ∉ (typeNames tys).toList := by
  intro hmem
  rw [toList_types] at hmem
  obtain hmem | ⟨name, hname, hmem⟩ := of_mem_intercalate hmem
  · exact hseparator hmem
  · obtain ⟨ty, -, rfl⟩ := List.mem_map.mp hname
    exact not_mem_name hc ty hmem

theorem filter_intercalate {names : List (List Char)} (h : ∀ name ∈ names, ' ' ∉ name) :
    ([',', ' '].intercalate names).filter (· ≠ ' ') = [','].intercalate names := by
  induction names with
  | nil => rfl
  | cons name names ih =>
    rw [List.forall_mem_cons] at h
    have hname : name.filter (· ≠ ' ') = name :=
      List.filter_eq_self.mpr fun c hc => decide_eq_true (ne_of_mem_of_not_mem hc h.1)
    cases names with
    | nil => rw [List.intercalate_singleton, List.intercalate_singleton, hname]
    | cons name' names =>
      rw [List.intercalate_cons_cons, List.intercalate_cons_cons, List.filter_append,
        List.filter_append, hname, ih h.2]
      rfl

theorem readTys?_text (tys : List Ty) : readTys? (typeNames tys).toList = some tys := by
  cases tys with
  | nil => rfl
  | cons ty tys =>
    have hnames {c : Char} (hc : c.isUpper = false) :
        ∀ name ∈ (ty :: tys).map fun ty => ty.name.toList, c ∉ name := by
      intro name hname
      obtain ⟨t, -, rfl⟩ := List.mem_map.mp hname
      exact not_mem_name hc t
    have hne : [',', ' '].intercalate ((ty :: tys).map fun ty => ty.name.toList) ≠ [] := by
      cases ty <;> cases tys <;> simp [Ty.name]
    rw [readTys?, toList_types, if_neg hne, filter_intercalate (hnames (by decide)),
      List.splitOn_intercalate ',' (hnames (by decide)) (by simp)]
    exact mapM_map_eq_some fun ty _ => readTy?_name ty

theorem toList_heading (index : Nat) (r : Routine) :
    (heading index r).toList = "routine ".toList ++ (Nat.toDigits 10 index ++ ' ' ::
      (r.name.toList ++ ' ' :: '[' :: ((typeNames r.locals).toList ++ [']']))) := by
  unfold heading
  simp only [String.toList_append, toList_numeral, List.append_assoc]
  rfl

theorem readRoutine?_block {index : Nat} {r : Routine} (h : .print .procedure ∉ r.code) :
    readRoutine? (block index r) = some r := by
  have hindex : cut ' ' ((heading index r).toList.drop "routine ".length) =
      (Nat.toDigits 10 index,
        r.name.toList ++ ' ' :: '[' :: ((typeNames r.locals).toList ++ [']'])) := by
    rw [toList_heading]
    exact cut_append (not_mem_toDigits (by decide) index) _
  have hname :
      cut '[' (r.name.toList ++ ' ' :: '[' :: ((typeNames r.locals).toList ++ [']'])).reverse =
        (']' :: (typeNames r.locals).toList.reverse, ' ' :: r.name.toList.reverse) := by
    have hbracket : '[' ∉ ']' :: (typeNames r.locals).toList.reverse := by
      simpa using not_mem_types (c := '[') (by decide) (by decide) r.locals
    simpa using cut_append hbracket (' ' :: r.name.toList.reverse)
  have hcode : (r.code.map fun i => (lineOf i).toList).mapM readLine? = some r.code :=
    mapM_map_eq_some fun i hi => readLine?_lineOf (ne_of_mem_of_not_mem hi h)
  simp only [readRoutine?, block, hindex, hname, hcode, List.tail_cons, List.reverse_reverse,
    readTys?_text, String.ofList_toList]
  rfl

theorem mapM_blocks {rs : List Routine} (h : ∀ r ∈ rs, .print .procedure ∉ r.code) (index : Nat) :
    (blocks index rs).mapM readRoutine? = some rs := by
  induction rs generalizing index with
  | nil => rfl
  | cons r rs ih =>
    rw [List.forall_mem_cons] at h
    rw [blocks, List.mapM_cons, readRoutine?_block h.1, ih h.2]
    rfl

/-! ### Lines of a unit -/

theorem newline_not_mem_append {s t : String} (hs : '\n' ∉ s.toList) (ht : '\n' ∉ t.toList) :
    '\n' ∉ (s ++ t).toList := by
  rw [String.toList_append, List.mem_append]
  exact not_or.mpr ⟨hs, ht⟩

theorem newline_not_mem_numeral (n : Nat) : '\n' ∉ (toString n).toList := by
  rw [toList_numeral]
  exact not_mem_toDigits (by decide) n

theorem newline_not_mem_label (l : Label) : '\n' ∉ (Label.text l).toList :=
  newline_not_mem_append (by decide) (newline_not_mem_numeral l.toNat)

theorem newline_not_mem_source (v : Value) : '\n' ∉ v.source.toList := by
  cases v with
  | int n =>
    intro hmem
    obtain hsign | hdigit := Decimal.of_mem_print hmem
    · exact absurd hsign (by decide)
    · exact absurd hdigit (by decide)
  | bool b => cases b <;> decide
  | str s => exact Quoted.not_mem_quote s

theorem newline_not_mem_text (i : Instr) : '\n' ∉ i.text.toList := by
  have hpair (word : String) (hword : '\n' ∉ word.toList) (m n : Nat) :
      '\n' ∉ (word ++ toString m ++ " up-" ++ toString n).toList :=
    newline_not_mem_append (newline_not_mem_append (newline_not_mem_append hword
      (newline_not_mem_numeral m)) (by decide)) (newline_not_mem_numeral n)
  have hjump (word : String) (hword : '\n' ∉ word.toList) (l : Label) :
      '\n' ∉ (word ++ Label.text l).toList :=
    newline_not_mem_append hword (newline_not_mem_label l)
  cases i with
  | push value => exact newline_not_mem_append (by decide) (newline_not_mem_source value)
  | load up slot => exact hpair "load " (by decide) slot up
  | store up slot => exact hpair "store " (by decide) slot up
  | call routine up => exact hpair "call " (by decide) routine up
  | ifCmp cond target => cases cond <;> exact hjump _ (by decide) target
  | ifStr equal target => cases equal <;> exact hjump _ (by decide) target
  | ifBool value target => cases value <;> exact hjump _ (by decide) target
  | goto target => exact hjump "goto " (by decide) target
  | label l => exact newline_not_mem_append (newline_not_mem_label l) (by decide)
  | arith op => cases op <;> decide
  | print ty => cases ty <;> decide
  | read ty => cases ty <;> decide
  | _ => decide

theorem newline_not_mem_block {r : Routine} (h : '\n' ∉ r.name.toList) (index : Nat) :
    ∀ line ∈ block index r, '\n' ∉ line := by
  refine List.forall_mem_cons.mpr ⟨?_, fun line hline => ?_⟩
  · have hindex := newline_not_mem_numeral index
    have htypes := not_mem_types (c := '\n') (by decide) (by decide) r.locals
    exact newline_not_mem_append (newline_not_mem_append (newline_not_mem_append
      (newline_not_mem_append (newline_not_mem_append (newline_not_mem_append (by decide) hindex)
        (by decide)) h) (by decide)) htypes) (by decide)
  · obtain ⟨i, -, rfl⟩ := List.mem_map.mp hline
    rw [lineOf]
    split
    · exact newline_not_mem_text i
    · exact newline_not_mem_append (by decide) (newline_not_mem_text i)

theorem nil_not_mem_block (index : Nat) (r : Routine) : [] ∉ block index r := by
  rw [block, List.mem_cons, not_or]
  refine ⟨?_, fun hmem => ?_⟩
  · rw [toList_heading]
    exact (List.cons_ne_nil _ _).symm
  · obtain ⟨i, -, hnil⟩ := List.mem_map.mp hmem
    cases hlabel : i.isLabel with
    | false =>
      rw [toList_lineOf hlabel] at hnil
      cases hnil
    | true =>
      obtain ⟨l, rfl⟩ := exists_of_isLabel hlabel
      rw [toList_lineOf_label] at hnil
      cases hnil

theorem forall_mem_blocks {rs : List Routine} {P : List (List Char) → Prop}
    (h : ∀ r ∈ rs, ∀ index, P (block index r)) (index : Nat) : ∀ b ∈ blocks index rs, P b := by
  induction rs generalizing index with
  | nil => simp [blocks]
  | cons r rs ih =>
    rw [List.forall_mem_cons] at h
    exact List.forall_mem_cons.mpr ⟨h.1 index, ih h.2 (index + 1)⟩

end Listing

/-! ## Units -/

namespace CodeUnit

/-- The names stand on one line each, and no procedure is printed. -/
structure Listable (u : CodeUnit) : Prop where
  name : '\n' ∉ u.name.toList
  names : ∀ r ∈ u.routines, '\n' ∉ r.name.toList
  code : ∀ r ∈ u.routines, .print .procedure ∉ r.code

instance decidableListable (u : CodeUnit) : Decidable u.Listable :=
  decidable_of_iff ('\n' ∉ u.name.toList ∧ (∀ r ∈ u.routines, '\n' ∉ r.name.toList) ∧
      ∀ r ∈ u.routines, .print .procedure ∉ r.code)
    ⟨fun h => ⟨h.1, h.2.1, h.2.2⟩, fun h => ⟨h.name, h.names, h.code⟩⟩

open Listing

/-- The lines of the listing. -/
def lines (u : CodeUnit) : List (List Char) :=
  ("unit " ++ u.name).toList :: (blocks 0 u.routines).flatMap ([] :: ·)

theorem toList_listing (u : CodeUnit) : u.listing.toList = u.lines.flatMap (· ++ ['\n']) := by
  have hfirst : (line "" s!"unit {u.name}").toList = ("unit " ++ u.name).toList ++ ['\n'] :=
    toList_line ..
  rw [listing, toList_routines, hfirst]
  rfl

theorem Listable.newline_not_mem {u : CodeUnit} (h : u.Listable) : ∀ l ∈ u.lines, '\n' ∉ l := by
  refine List.forall_mem_cons.mpr ⟨newline_not_mem_append (by decide) h.name, fun l hl => ?_⟩
  obtain ⟨b, hb, hl⟩ := List.mem_flatMap.mp hl
  have hblocks := forall_mem_blocks (P := fun b => ∀ line ∈ b, '\n' ∉ line)
    (fun r hr index => newline_not_mem_block (h.names r hr) index) 0 b hb
  obtain rfl | hl := List.mem_cons.mp hl
  · exact List.not_mem_nil
  · exact hblocks l hl

/-- A listing is read as the unit that it lists. -/
theorem read?_listing {u : CodeUnit} (h : u.Listable) : read? u.listing = some u := by
  have hlines : u.listing.toList.splitOn '\n' = u.lines ++ [[]] := by
    rw [toList_listing]
    exact splitOn_lines h.newline_not_mem
  have hblocks : ((blocks 0 u.routines).flatMap ([] :: ·)).splitOn [] = [] :: blocks 0 u.routines :=
    splitOn_blocks List.not_mem_nil
      (forall_mem_blocks (fun r _ index => nil_not_mem_block index r) 0)
  have hname : ("unit " ++ u.name).toList.drop "unit ".length = u.name.toList := by
    rw [String.toList_append]
    rfl
  rw [read?, hlines, lines, List.cons_append]
  dsimp only
  rw [List.dropLast_concat, hblocks, List.tail_cons, mapM_blocks h.code, hname, String.ofList_toList]
  rfl

/-- **A listing shows all of its unit.**  Where the names stand on one line each and no procedure is
printed, units with the same listing are the same. -/
theorem eq_of_listing_eq {u v : CodeUnit} (hu : u.Listable) (hv : v.Listable)
    (h : u.listing = v.listing) : u = v := by
  have hread := read?_listing hu
  rw [h, read?_listing hv] at hread
  exact (Option.some.inj hread).symm

/-- Names with blanks and brackets, and a text that looks like another line. -/
def bracketedUnit : CodeUnit :=
  ⟨"a [STRING]", [
    ⟨"0 p [NUMBER]", [], [.label 0, .push (.str "\nL0:"), .push (.int (-7)), .load 32 0]⟩,
    ⟨"", [.string, .procedure], []⟩]⟩

def bracketedListing : String :=
  "unit a [STRING]\n" ++
  "\nroutine 0 0 p [NUMBER] []\nL0:\n    push \"\\nL0:\"\n    push -7\n    load 0 up-32\n" ++
  "\nroutine 1  [STRING, PROCEDURE]\n"

/-- The unit that is read from the text of a listing, where the text is one. -/
def bracketedCopy : CodeUnit := (Listing.read? bracketedListing).getD ⟨"", []⟩

theorem bracketedCopy_eq :
    bracketedUnit.Listable ∧ bracketedCopy.Listable ∧ bracketedCopy.listing = bracketedListing ∧
      bracketedUnit.listing = bracketedListing ∧ bracketedCopy = bracketedUnit := by
  have hunit : bracketedUnit.Listable := by decide +kernel
  have hlisting : bracketedUnit.listing = bracketedListing := by decide +kernel
  have hcopy : bracketedCopy.Listable ∧ bracketedCopy.listing = bracketedListing := by
    decide +kernel
  exact ⟨hunit, hcopy.1, hcopy.2, hlisting,
    eq_of_listing_eq hcopy.1 hunit (hcopy.2.trans hlisting.symm)⟩

end CodeUnit

end PLZero
