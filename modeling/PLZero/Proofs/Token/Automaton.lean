import PLZero.Proofs.Token.Reading

/-!
# The lexer as an automaton

The text can also be read by a machine that looks at one character at a time, remembers what it is
in the middle of, and builds the token it is in.  It finds the same tokens and the same faults.

* `Phase` / `Automaton` — the states of the machine, and its registers.
* `step` — one turn of its loop: some turns take a character, some only close a token.
* `loop` — turns until the input has ended.  `yields` says why it ends: a turn that takes no
  character goes back to `start`.
* `underway` — the lexeme a state is in, as far as it is still to be read.
* `meaning_step` — what is left to be found is the same before and after a turn.
* `run_eq_scan` — the machine is `scan`.
-/

namespace PLZero

open Lexer

/-- What the machine is in the middle of. -/
inductive Phase where
  | start
  | inIdent
  | inNumber
  | inString
  | inEscape
  | haveColon
  | haveLess
  | haveGreater
  | haveSlash
  | inComment
  deriving DecidableEq, Repr

/-- The machine: the characters to come and the place of the first of them, and for the token under
way where it started, its text, and its contents if it is a string. -/
structure Automaton where
  chars : List Char
  state : Phase
  place : Place
  start : Place
  text : String
  value : String
  tokens : Array Token

namespace Automaton

/-! ## The machine -/

def init (source : String) : Automaton :=
  ⟨source.toList, .start, .start, .start, "", "", #[]⟩

/-- Consumes a character as part of the token. -/
def take (m : Automaton) : Automaton :=
  match m.chars with
  | [] => m
  | c :: cs =>
    { m with chars := cs, place := ⟨m.place.line, m.place.column + 1⟩, text := m.text.push c }

/-- Consumes a character that belongs to no token. -/
def skip (m : Automaton) : Automaton :=
  match m.chars with
  | [] => m
  | _ :: cs => { m with chars := cs, place := ⟨m.place.line, m.place.column + 1⟩ }

def emit (m : Automaton) (kind : TokenKind) : Automaton :=
  { m with tokens := m.tokens.push ⟨kind, m.start, m.text⟩, text := "", state := .start }

/-- The first character of a token decides what the machine is in from then on. -/
def startToken (m : Automaton) (c : Char) : Except ScanFault Automaton :=
  if c = '\n' then .ok { m with chars := m.chars.tail, place := ⟨m.place.line + 1, 1⟩ }
  else if Text.isBlank c then .ok m.skip
  else
    let m := { m with start := m.place, text := "" }.take
    if isIdentStart c then .ok { m with state := .inIdent }
    else if c.isDigit then .ok { m with state := .inNumber }
    else if c = '"' then .ok { m with value := "", state := .inString }
    else if c = ':' then .ok { m with state := .haveColon }
    else if c = '<' then .ok { m with state := .haveLess }
    else if c = '>' then .ok { m with state := .haveGreater }
    else if c = '/' then .ok { m with state := .haveSlash }
    else
      match single? c with
      | some kind => .ok (m.emit kind)
      | none => .error (.unknownCharacter c m.start)

/-- One turn of the loop.  The last one emits the end of the input. -/
def step (m : Automaton) : Except ScanFault (ForInStep Automaton) :=
  match m.state, m.chars with
  | .start, [] => .ok (.done ({ m with start := m.place }.emit .eof))
  | .start, c :: _ => .yield <$> m.startToken c
  | .inIdent, cs =>
    if cs.head?.any isIdentPart then .ok (.yield m.take)
    else .ok (.yield (m.emit (wordKind m.text)))
  | .inNumber, cs =>
    if cs.head?.any Char.isDigit then .ok (.yield m.take)
    else
      match Decimal.read? m.text.toList with
      | some n => .ok (.yield (m.emit (.literal (.int n))))
      | none => .error (.numberTooLarge m.text m.start)
  | .inString, [] => .error (.unterminatedString m.start)
  | .inString, c :: _ =>
    if c = '\n' then .error (.multilineString m.start)
    else if c = '\\' then .ok (.yield { m.take with state := .inEscape })
    else if c = '"' then
      .ok (.yield ({ m.take with value := "" }.emit (.literal (.str m.value))))
    else .ok (.yield { m.take with value := m.value.push c })
  | .inEscape, [] => .error (.unterminatedString m.start)
  | .inEscape, c :: _ =>
    match Quoted.unescape? c with
    | some d => .ok (.yield { m.take with value := m.value.push d, state := .inString })
    | none => .error (.badEscape c m.place)
  | .haveColon, '=' :: _ => .ok (.yield (m.take.emit (.mark .assign)))
  | .haveColon, _ => .error (.loneColon m.start)
  | .haveLess, '=' :: _ => .ok (.yield (m.take.emit (.op (.compare .le))))
  | .haveLess, '>' :: _ => .ok (.yield (m.take.emit (.op (.compare .ne))))
  | .haveLess, _ => .ok (.yield (m.emit (.op (.compare .lt))))
  | .haveGreater, '=' :: _ => .ok (.yield (m.take.emit (.op (.compare .ge))))
  | .haveGreater, _ => .ok (.yield (m.emit (.op (.compare .gt))))
  | .haveSlash, '/' :: _ => .ok (.yield { m.skip with text := "", state := .inComment })
  | .haveSlash, _ => .ok (.yield (m.emit (.op (.arith .div))))
  | .inComment, cs =>
    -- The line feed is left to `start`.
    if cs.head?.all (· = '\n') then .ok (.yield { m with state := .start })
    else .ok (.yield m.skip)

/-! ## Turns -/

/-- The characters to come count twice, so that a turn that only closes a token counts too. -/
def size (m : Automaton) : Nat := 2 * m.chars.length + if m.state = .start then 0 else 1

/-- Between tokens no text is left over. -/
def Clean (m : Automaton) : Prop := m.state = .start ∨ m.state = .inComment → m.text = ""

/-- The machine after the first character of a token. -/
def opened (m : Automaton) (c : Char) (cs : List Char) (state : Phase) (value : String) :
    Automaton :=
  ⟨cs, state, ⟨m.place.line, m.place.column + 1⟩, m.place, "".push c, value, m.tokens⟩

section Turns

variable {m m' : Automaton} {c : Char} {cs : List Char}

theorem take_eq (h : m.chars = c :: cs) : m.take =
    { m with chars := cs, place := ⟨m.place.line, m.place.column + 1⟩, text := m.text.push c } := by
  rw [take, h]

theorem skip_eq (h : m.chars = c :: cs) :
    m.skip = { m with chars := cs, place := ⟨m.place.line, m.place.column + 1⟩ } := by
  rw [skip, h]

theorem take_start_eq (h : m.chars = c :: cs) :
    { m with start := m.place, text := "" }.take = m.opened c cs m.state m.value :=
  take_eq (m := { m with start := m.place, text := "" }) h

theorem exists_of_any_head? {p : Char → Bool} (h : cs.head?.any p = true) :
    ∃ d ds, cs = d :: ds ∧ p d = true := by
  cases cs with
  | nil => cases h
  | cons d ds => exact ⟨d, ds, rfl, h⟩

theorem exists_of_not_all_head? {p : Char → Bool} (h : ¬cs.head?.all p = true) :
    ∃ d ds, cs = d :: ds ∧ ¬p d = true := by
  cases cs with
  | nil => exact absurd rfl h
  | cons d ds => exact ⟨d, ds, rfl, h⟩

theorem size_lt_of_tail (h : m.chars = c :: cs) (h' : m'.chars = cs) : m'.size < m.size := by
  rw [size, size, h, h', List.length_cons]
  split <;> split <;> omega

theorem size_lt_of_start (h : m.state ≠ .start) (hchars : m'.chars = m.chars)
    (hstate : m'.state = .start) : m'.size < m.size := by
  rw [size, size, hchars, if_pos hstate, if_neg h]
  omega

theorem clean_emit (m : Automaton) (kind : TokenKind) : (m.emit kind).Clean := fun _ => rfl

/-- Inside a token there may be text. -/
theorem yields_take {p : Char → Bool} (h : m.chars.head?.any p = true)
    (hstate : ¬(m.state = .start ∨ m.state = .inComment)) :
    m.take.size < m.size ∧ (m.Clean → m.take.Clean) := by
  obtain ⟨c, cs, hchars, -⟩ := exists_of_any_head? h
  rw [take_eq hchars]
  exact ⟨size_lt_of_tail hchars rfl, fun _ hin => absurd hin hstate⟩

theorem of_startToken (hstate : m.state = .start) (hchars : m.chars = c :: cs)
    (h : m.startToken c = .ok m') : m'.chars = cs ∧ (m.Clean → m'.Clean) := by
  have hclean (hm : m.Clean) : m.text = "" := hm (.inl hstate)
  by_cases hline : c = '\n'
  · rw [startToken, if_pos hline] at h
    cases h
    exact ⟨by simp [hchars], fun hm _ => hclean hm⟩
  by_cases hblank : Text.isBlank c = true
  · rw [startToken, if_neg hline, if_pos hblank, skip_eq hchars] at h
    cases h
    exact ⟨rfl, fun hm _ => hclean hm⟩
  rw [startToken, if_neg hline, if_neg hblank, take_start_eq hchars] at h
  have hcs : (m.opened c cs m.state m.value).chars = cs := rfl
  generalize m.opened c cs m.state m.value = t at h hcs
  dsimp only at h
  repeat' split at h
  all_goals cases h
  all_goals exact ⟨hcs, fun _ => by simp [Clean, emit]⟩

/-- **Every turn makes progress**, and leaves no text behind between tokens. -/
theorem yields (h : m.step = .ok (.yield m')) : m'.size < m.size ∧ (m.Clean → m'.Clean) := by
  have hemit (hne : m.state ≠ .start) (kind : TokenKind) :
      (m.emit kind).size < m.size ∧ (m.Clean → (m.emit kind).Clean) :=
    ⟨size_lt_of_start hne rfl rfl, fun _ => clean_emit m kind⟩
  unfold step at h
  split at h
  case h_1 | h_5 | h_7 | h_10 => cases h
  case h_2 hstate hchars =>
    obtain ⟨_, hstart, hm'⟩ := exists_of_map_ok h
    cases hm'
    obtain ⟨htail, hclean⟩ := of_startToken hstate hchars hstart
    exact ⟨size_lt_of_tail hchars htail, hclean⟩
  case h_3 hstate =>
    split at h
    · cases h
      exact yields_take ‹_› (by simp [hstate])
    · cases h
      exact hemit (by simp [hstate]) _
  case h_4 hstate =>
    split at h
    · cases h
      exact yields_take ‹_› (by simp [hstate])
    · split at h
      · cases h
        exact hemit (by simp [hstate]) _
      · cases h
  case h_6 hstate hchars =>
    rw [take_eq hchars] at h
    repeat' split at h
    all_goals cases h
    all_goals exact ⟨size_lt_of_tail hchars rfl, fun _ => by simp [Clean, emit, hstate]⟩
  case h_8 hstate hchars =>
    rw [take_eq hchars] at h
    split at h
    · cases h
      exact ⟨size_lt_of_tail hchars rfl, fun _ => by simp [Clean]⟩
    · cases h
  case h_9 hchars | h_11 hchars | h_12 hchars | h_14 hchars =>
    cases h
    rw [take_eq hchars]
    exact ⟨size_lt_of_tail hchars rfl, fun _ => clean_emit _ _⟩
  case h_13 hstate _ _ =>
    cases h
    exact hemit (by simp [hstate]) _
  case h_15 hstate _ | h_17 hstate _ =>
    cases h
    exact hemit (by simp [hstate]) _
  case h_16 hchars =>
    cases h
    rw [skip_eq hchars]
    exact ⟨size_lt_of_tail hchars rfl, fun _ _ => rfl⟩
  case h_18 hstate =>
    split at h
    · cases h
      exact ⟨size_lt_of_start (by simp [hstate]) rfl rfl, fun hm _ => hm (.inr hstate)⟩
    · rename_i hline
      obtain ⟨c, cs, hchars, -⟩ := exists_of_not_all_head? hline
      cases h
      rw [skip_eq hchars]
      exact ⟨size_lt_of_tail hchars rfl, fun hm _ => hm (.inr hstate)⟩

end Turns

/-- The loop. -/
def loop (m : Automaton) : Except ScanFault (List Token) :=
  match _ : m.step with
  | .error f => .error f
  | .ok (.done m') => .ok m'.tokens.toList
  | .ok (.yield m') => loop m'
termination_by m.size
decreasing_by exact (yields ‹_›).1

def run (source : String) : Except ScanFault (List Token) := (init source).loop

/-! ## What a state has still to find -/

/-- The lexeme when its first character has been taken. -/
def further (l : Lexeme) : Lexeme := { l with length := l.length - 1 }

/-- The lexeme when one more character is to come. -/
def longer (l : Lexeme) : Lexeme := { l with length := l.length + 1 }

/-- The contents of a string from just after a backslash on. -/
def escapeBody (start p : Place) : List Char → Except ScanFault (List Char × Nat)
  | [] => .error (.unterminatedString start)
  | e :: cs =>
    match Quoted.unescape? e with
    | some d => (stringBody start (p.next e) cs).map fun r => (d :: r.1, r.2 + 1)
    | none => .error (.badEscape e p)

/-- The lexeme under way.  Its length counts only the characters still to come. -/
def underway (m : Automaton) : Except ScanFault Lexeme :=
  match m.state with
  | .start => .ok (Lexer.skip 0)
  | .inIdent =>
    let part := m.chars.takeWhile isIdentPart
    .ok (token (wordKind (String.ofList (m.text.toList ++ part))) part.length)
  | .inNumber =>
    let part := m.chars.takeWhile Char.isDigit
    match Decimal.read? (m.text.toList ++ part) with
    | some n => .ok (token (.literal (.int n)) part.length)
    | none => .error (.numberTooLarge (String.ofList (m.text.toList ++ part)) m.start)
  | .inString => (stringBody m.start m.place m.chars).map quoted
  | .inEscape => (escapeBody m.start m.place m.chars).map quoted
  | .haveColon => (punctuation m.start ':' m.chars).map further
  | .haveLess => (punctuation m.start '<' m.chars).map further
  | .haveGreater => (punctuation m.start '>' m.chars).map further
  | .haveSlash => (punctuation m.start '/' m.chars).map further
  | .inComment => .ok (Lexer.skip (m.chars.takeWhile (· ≠ '\n')).length)
where
  /-- A string whose contents up to here are in the register. -/
  quoted (r : List Char × Nat) : Lexeme :=
    token (.literal (.str (String.ofList (m.value.toList ++ r.1)))) r.2

/-- The tokens found so far, the one under way, and those of the rest of the text. -/
def resume (m : Automaton) (x : Except ScanFault Lexeme) : Except ScanFault (List Token) := do
  let l ← x
  let rest ← scanFrom l.length m.place m.chars
  return m.tokens.toList ++ tokenOf l m.start (m.text.toList ++ m.chars.take l.length) ++ rest

def meaning (m : Automaton) : Except ScanFault (List Token) := m.resume m.underway

section Meaning

variable {m m' : Automaton} {c : Char} {cs : List Char} {kind : TokenKind}

theorem meaning_of_start (h : m.state = .start) :
    m.meaning = (scanFrom 0 m.place m.chars).map (m.tokens.toList ++ ·) := by
  simp only [meaning, underway, h, resume, bind, Except.bind]
  cases hrest : scanFrom 0 m.place m.chars with
  | error f => simp [Lexer.skip, hrest, Except.map]
  | ok rest => simp [Lexer.skip, hrest, Except.map, tokenOf, pure, Except.pure]

/-- A character of a lexeme moves from what is to come to the text of the token. -/
theorem resume_take (hchars : m.chars = c :: cs) (hc : c ≠ '\n') (x : Except ScanFault Lexeme) :
    m.take.resume x = m.resume (x.map longer) := by
  have hnext := Place.next_of_ne hc m.place
  cases x with
  | error f => rfl
  | ok l =>
    rw [take_eq hchars]
    simp [resume, Except.map, longer, hchars, scanFrom, hnext, tokenOf, bind, Except.bind]

/-- The same for a character that no token gets. -/
theorem resume_skip (hchars : m.chars = c :: cs) (hc : c ≠ '\n') (n : Nat) :
    m.skip.resume (.ok (Lexer.skip n)) = m.resume (.ok (Lexer.skip (n + 1))) := by
  have hnext := Place.next_of_ne hc m.place
  rw [skip_eq hchars]
  simp [resume, Lexer.skip, hchars, scanFrom, hnext, tokenOf, bind, Except.bind]

/-- A token is complete when none of its characters is to come. -/
theorem meaning_emit (m : Automaton) (kind : TokenKind) :
    (m.emit kind).meaning = m.resume (.ok (token kind 0)) := by
  rw [meaning_of_start rfl]
  simp only [emit, resume, token, tokenOf, bind, Except.bind]
  cases scanFrom 0 m.place m.chars with
  | error f => rfl
  | ok rest => simp [Except.map, pure, Except.pure]

theorem longer_further (p : Place) (c : Char) (cs : List Char) :
    ((punctuation p c cs).map further).map longer = punctuation p c cs := by
  unfold punctuation
  split
  case h_8 => simp [Except.map, further, longer, Lexer.skip]; omega
  case h_10 => split <;> rfl
  all_goals rfl

/-! ### The start of a token -/

theorem meaning_skip_start (hstate : m.state = .start) (hchars : m.chars = c :: cs)
    (hblank : Text.isBlank c = true) (hm' : m'.state = .start) (hcs : m'.chars = cs)
    (hplace : m'.place = m.place.next c) (htokens : m'.tokens = m.tokens) :
    m'.meaning = m.meaning := by
  rw [meaning_of_start hstate, meaning_of_start hm', hchars, scanFrom_blank hblank, hcs, hplace,
    htokens]

/-- The first character is taken from the lexeme that starts where the machine is. -/
theorem resume_opened (hstate : m.state = .start) (hchars : m.chars = c :: cs) (hc : c ≠ '\n')
    {x : Except ScanFault Lexeme} (hx : lexeme m.place c cs = x.map longer) (state : Phase)
    (value : String) : (m.opened c cs state value).resume x = m.meaning := by
  have hnext := Place.next_of_ne hc m.place
  rw [meaning_of_start hstate, hchars, scanFrom, hx]
  cases x with
  | error f => rfl
  | ok l =>
    simp only [opened, Except.map, longer, resume, tokenOf, bind, Except.bind, Nat.add_sub_cancel,
      hnext]
    cases scanFrom l.length ⟨m.place.line, m.place.column + 1⟩ cs with
    | error f => rfl
    | ok rest => cases l.kind? <;> simp [pure, Except.pure]

theorem lexeme_inIdent (hblank : ¬Text.isBlank c = true) (hident : isIdentStart c = true) :
    lexeme m.place c cs = (m.opened c cs .inIdent m.value).underway.map longer := by
  simp [lexeme, hblank, hident, opened, underway, Except.map, longer, token]

theorem lexeme_inNumber (hblank : ¬Text.isBlank c = true) (hident : ¬isIdentStart c = true)
    (hdigit : c.isDigit = true) :
    lexeme m.place c cs = (m.opened c cs .inNumber m.value).underway.map longer := by
  rw [lexeme, if_neg hblank, if_neg hident, if_pos hdigit]
  simp only [opened, underway, String.toList_push, String.toList_empty, List.nil_append,
    List.singleton_append]
  cases Decimal.read? (c :: cs.takeWhile Char.isDigit) <;> rfl

theorem lexeme_inString :
    lexeme m.place '"' cs = (m.opened '"' cs .inString "").underway.map longer := by
  have hnext := Place.next_of_ne (c := '"') (by decide) m.place
  rw [lexeme, if_neg (by decide), if_neg (by decide), if_neg (by decide), if_pos rfl, hnext]
  simp only [opened, underway]
  cases stringBody m.place ⟨m.place.line, m.place.column + 1⟩ cs <;> rfl

theorem punctuation_unknown {p : Place} (hcolon : c ≠ ':') (hless : c ≠ '<') (hgreater : c ≠ '>')
    (hslash : c ≠ '/') (hsingle : single? c = none) :
    punctuation p c cs = .error (.unknownCharacter c p) := by
  unfold punctuation
  split
  case h_10 => rw [hsingle]
  all_goals contradiction

theorem meaning_startToken (hstate : m.state = .start) (hchars : m.chars = c :: cs) :
    m.startToken c >>= meaning = m.meaning := by
  by_cases hline : c = '\n'
  · subst hline
    rw [startToken, if_pos rfl]
    exact meaning_skip_start hstate hchars (by decide) hstate (by simp [hchars]) rfl rfl
  by_cases hblank : Text.isBlank c = true
  · rw [startToken, if_neg hline, if_pos hblank, skip_eq hchars]
    exact meaning_skip_start hstate hchars hblank hstate rfl
      (Place.next_of_ne hline m.place).symm rfl
  rw [startToken, if_neg hline, if_neg hblank, take_start_eq hchars]
  dsimp only
  by_cases hident : isIdentStart c = true
  · rw [if_pos hident]
    exact resume_opened hstate hchars hline (lexeme_inIdent hblank hident) _ _
  rw [if_neg hident]
  by_cases hdigit : c.isDigit = true
  · rw [if_pos hdigit]
    exact resume_opened hstate hchars hline (lexeme_inNumber hblank hident hdigit) _ _
  rw [if_neg hdigit]
  by_cases hquote : c = '"'
  · subst hquote
    rw [if_pos rfl]
    exact resume_opened hstate hchars hline lexeme_inString _ _
  rw [if_neg hquote]
  have hlexeme : lexeme m.place c cs = ((punctuation m.place c cs).map further).map longer := by
    rw [longer_further, lexeme, if_neg hblank, if_neg hident, if_neg hdigit, if_neg hquote]
  have hfirst := resume_opened hstate hchars hline hlexeme
  by_cases hcolon : c = ':'
  · subst hcolon
    rw [if_pos rfl]
    exact hfirst .haveColon m.value
  rw [if_neg hcolon]
  by_cases hless : c = '<'
  · subst hless
    rw [if_pos rfl]
    exact hfirst .haveLess m.value
  rw [if_neg hless]
  by_cases hgreater : c = '>'
  · subst hgreater
    rw [if_pos rfl]
    exact hfirst .haveGreater m.value
  rw [if_neg hgreater]
  by_cases hslash : c = '/'
  · subst hslash
    rw [if_pos rfl]
    exact hfirst .haveSlash m.value
  rw [if_neg hslash]
  cases hsingle : single? c with
  | some kind =>
    rw [punctuation_single hsingle] at hfirst
    exact (meaning_emit _ kind).trans (hfirst .start m.value)
  | none =>
    rw [punctuation_unknown hcolon hless hgreater hslash hsingle] at hfirst
    exact hfirst .start m.value

/-! ### One turn -/

/-- What a turn leaves to be found. -/
def outlook : ForInStep Automaton → Except ScanFault (List Token)
  | .done m => .ok m.tokens.toList
  | .yield m => m.meaning

/-- A turn takes a character of the lexeme under way. -/
theorem meaning_of_take (hchars : m.chars = c :: cs) (hc : c ≠ '\n')
    (hm' : m'.resume = m.take.resume) (h : m.underway = m'.underway.map longer) :
    m'.meaning = m.meaning := by
  rw [meaning, hm', resume_take hchars hc, ← h]
  rfl

theorem meaning_of_emit (h : m.underway = .ok (token kind 0)) :
    (m.emit kind).meaning = m.meaning := by
  rw [meaning_emit, meaning, h]

theorem meaning_of_take_emit (hchars : m.chars = c :: cs) (hc : c ≠ '\n')
    (hm' : m'.resume = m.take.resume) (h : m.underway = .ok (token kind 1)) :
    (m'.emit kind).meaning = m.meaning := by
  rw [meaning_emit, hm', resume_take hchars hc, meaning, h]
  rfl

theorem meaning_of_error {f : ScanFault} (h : m.underway = .error f) : .error f = m.meaning := by
  rw [meaning, h]
  rfl

theorem takeWhile_eq_nil {p : Char → Bool} (h : ¬cs.head?.any p = true) : cs.takeWhile p = [] := by
  cases cs with
  | nil => rfl
  | cons d ds => exact List.takeWhile_cons_of_neg h

theorem step_inIdent (hstate : m.state = .inIdent) : m.step >>= outlook = m.meaning := by
  rw [step.eq_def, hstate]
  dsimp only
  split
  · rename_i hpart
    obtain ⟨c, cs, hchars, hc⟩ := exists_of_any_head? hpart
    refine meaning_of_take hchars ?_ rfl ?_
    · rintro rfl
      exact absurd hc (by decide)
    · simp [underway, hstate, take_eq hchars, hchars, hc, Except.map, longer, token]
  · rename_i hpart
    refine meaning_of_emit ?_
    simp [underway, hstate, takeWhile_eq_nil hpart]

theorem step_inNumber (hstate : m.state = .inNumber) : m.step >>= outlook = m.meaning := by
  rw [step.eq_def, hstate]
  dsimp only
  split
  · rename_i hdigit
    obtain ⟨c, cs, hchars, hc⟩ := exists_of_any_head? hdigit
    refine meaning_of_take hchars ?_ rfl ?_
    · rintro rfl
      exact absurd hc (by decide)
    · simp only [underway, hstate, take_eq hchars, hchars, List.takeWhile_cons_of_pos hc,
        String.toList_push, List.append_assoc, List.singleton_append]
      cases Decimal.read? (m.text.toList ++ c :: cs.takeWhile Char.isDigit) <;> rfl
  · rename_i hdigit
    cases hread : Decimal.read? m.text.toList with
    | some n =>
      refine meaning_of_emit ?_
      simp [underway, hstate, takeWhile_eq_nil hdigit, hread]
    | none =>
      refine meaning_of_error ?_
      simp [underway, hstate, takeWhile_eq_nil hdigit, hread]

theorem stringBody_backslash (start p : Place) (cs : List Char) :
    stringBody start p ('\\' :: cs) =
      (escapeBody start (p.next '\\') cs).map fun r => (r.1, r.2 + 1) := by
  rw [stringBody.eq_def]
  cases cs with
  | nil => rfl
  | cons e cs =>
    simp only [escapeBody]
    cases Quoted.unescape? e with
    | none => rfl
    | some d => cases stringBody start ((p.next '\\').next e) cs <;> rfl

theorem stringBody_plain {start p : Place} (hquote : c ≠ '"') (hline : c ≠ '\n')
    (hslash : c ≠ '\\') : stringBody start p (c :: cs) =
      (stringBody start (p.next c) cs).map fun r => (c :: r.1, r.2 + 1) := by
  rw [stringBody.eq_def]
  simp only [hquote, hline, hslash, if_false]
  cases stringBody start (p.next c) cs <;> rfl

theorem step_inString (hstate : m.state = .inString) : m.step >>= outlook = m.meaning := by
  cases hchars : m.chars with
  | nil =>
    simp only [step, hstate, hchars]
    refine meaning_of_error ?_
    simp only [underway, hstate, hchars]
    rfl
  | cons c cs =>
    simp only [step, hstate, hchars]
    split
    · rename_i hline
      subst hline
      refine meaning_of_error ?_
      rw [underway.eq_def, hstate, hchars, stringBody.eq_def]
      rfl
    rename_i hline
    have hnext := Place.next_of_ne hline m.place
    split
    · rename_i hslash
      subst hslash
      refine meaning_of_take hchars hline rfl ?_
      simp only [underway, hstate, hchars, take_eq hchars, stringBody_backslash, hnext]
      cases escapeBody m.start ⟨m.place.line, m.place.column + 1⟩ cs <;> rfl
    rename_i hslash
    split
    · rename_i hquote
      subst hquote
      refine meaning_of_take_emit hchars hline rfl ?_
      rw [underway.eq_def, hstate, hchars, stringBody.eq_def]
      simp [Except.map, underway.quoted]
    rename_i hquote
    refine meaning_of_take hchars hline rfl ?_
    simp only [underway, hstate, hchars, take_eq hchars, stringBody_plain hquote hline hslash,
      hnext]
    cases stringBody m.start ⟨m.place.line, m.place.column + 1⟩ cs with
    | error f => rfl
    | ok r => simp [Except.map, underway.quoted, longer, token]

theorem step_inEscape (hstate : m.state = .inEscape) : m.step >>= outlook = m.meaning := by
  cases hchars : m.chars with
  | nil =>
    simp only [step, hstate, hchars]
    refine meaning_of_error ?_
    simp only [underway, hstate, hchars]
    rfl
  | cons c cs =>
    cases hescape : Quoted.unescape? c with
    | none =>
      simp only [step, hstate, hchars, hescape]
      refine meaning_of_error ?_
      simp only [underway, hstate, hchars, escapeBody, hescape]
      rfl
    | some d =>
      have hline : c ≠ '\n' := by
        rintro rfl
        cases hescape
      have hnext := Place.next_of_ne hline m.place
      simp only [step, hstate, hchars, hescape]
      refine meaning_of_take hchars hline rfl ?_
      simp only [underway, hstate, hchars, take_eq hchars, escapeBody, hescape, hnext]
      cases stringBody m.start ⟨m.place.line, m.place.column + 1⟩ cs with
      | error f => rfl
      | ok r => simp [Except.map, underway.quoted, longer, token]

theorem step_haveColon (hstate : m.state = .haveColon) : m.step >>= outlook = m.meaning := by
  have hunderway : m.underway = (punctuation m.start ':' m.chars).map further := by
    simp only [underway, hstate]
  rw [step.eq_def, hstate]
  split
  case h_9 hchars =>
    refine meaning_of_take_emit hchars (by decide) rfl ?_
    rw [hunderway, hchars]
    rfl
  case h_10 hother =>
    refine meaning_of_error ?_
    rw [hunderway, punctuation.eq_2 _ _ hother]
    rfl
  all_goals contradiction

theorem step_haveLess (hstate : m.state = .haveLess) : m.step >>= outlook = m.meaning := by
  have hunderway : m.underway = (punctuation m.start '<' m.chars).map further := by
    simp only [underway, hstate]
  rw [step.eq_def, hstate]
  split
  case h_11 hchars | h_12 hchars =>
    refine meaning_of_take_emit hchars (by decide) rfl ?_
    rw [hunderway, hchars]
    rfl
  case h_13 hequal hgreater =>
    refine meaning_of_emit ?_
    rw [hunderway, punctuation.eq_5 _ _ hequal hgreater]
    rfl
  all_goals contradiction

theorem step_haveGreater (hstate : m.state = .haveGreater) : m.step >>= outlook = m.meaning := by
  have hunderway : m.underway = (punctuation m.start '>' m.chars).map further := by
    simp only [underway, hstate]
  rw [step.eq_def, hstate]
  split
  case h_14 hchars =>
    refine meaning_of_take_emit hchars (by decide) rfl ?_
    rw [hunderway, hchars]
    rfl
  case h_15 hequal =>
    refine meaning_of_emit ?_
    rw [hunderway, punctuation.eq_7 _ _ hequal]
    rfl
  all_goals contradiction

theorem step_haveSlash (hstate : m.state = .haveSlash) : m.step >>= outlook = m.meaning := by
  have hunderway : m.underway = (punctuation m.start '/' m.chars).map further := by
    simp only [underway, hstate]
  rw [step.eq_def, hstate]
  split
  case h_16 cs _ hchars =>
    -- What has no kind makes no token, so the text that is cleared here is not missed.
    have hskip := resume_skip hchars (by decide) (cs.takeWhile (· ≠ '\n')).length
    rw [skip_eq hchars] at hskip ⊢
    refine hskip.trans ?_
    rw [meaning, hunderway, hchars, punctuation.eq_8]
    simp only [Except.map, further, Lexer.skip]
    congr 3
    omega
  case h_17 hother =>
    refine meaning_of_emit ?_
    rw [hunderway, punctuation.eq_9 _ _ hother]
    rfl
  all_goals contradiction

theorem step_inComment (hstate : m.state = .inComment) : m.step >>= outlook = m.meaning := by
  rw [step.eq_def, hstate]
  dsimp only
  split
  · rename_i hline
    have hnil : m.chars.takeWhile (· ≠ '\n') = [] := by
      refine takeWhile_eq_nil ?_
      cases hchars : m.chars with
      | nil => simp
      | cons c cs => simpa [hchars] using hline
    have hunderway : m.underway = .ok (Lexer.skip 0) := by
      simp only [underway, hstate, hnil, List.length_nil]
    rw [meaning, hunderway]
    rfl
  · rename_i hline
    obtain ⟨c, cs, hchars, hc⟩ := exists_of_not_all_head? hline
    have hc : c ≠ '\n' := by simpa using hc
    have hskip := resume_skip hchars hc (cs.takeWhile (· ≠ '\n')).length
    have hunderway : m.underway = .ok (Lexer.skip ((cs.takeWhile (· ≠ '\n')).length + 1)) := by
      simp [underway, hstate, hchars, hc]
    rw [meaning, hunderway, ← hskip, skip_eq hchars]
    simp only [bind, Except.bind, outlook, meaning, underway, hstate]

/-- Between tokens the machine reads on, and at the end it emits the end of the input. -/
theorem step_start (hm : m.Clean) (hstate : m.state = .start) : m.step >>= outlook = m.meaning := by
  cases hchars : m.chars with
  | nil =>
    have htext : m.text = "" := hm (.inl hstate)
    rw [meaning_of_start hstate, hchars, scanFrom, step.eq_def, hstate, hchars]
    simp [emit, outlook, htext, bind, Except.bind, Except.map]
  | cons c cs =>
    rw [← meaning_startToken hstate hchars, step.eq_def, hstate, hchars]
    dsimp only
    cases m.startToken c <;> rfl

/-- **A turn changes nothing that is left to be found.** -/
theorem meaning_step (hm : m.Clean) : m.step >>= outlook = m.meaning := by
  cases hstate : m.state with
  | start => exact step_start hm hstate
  | inIdent => exact step_inIdent hstate
  | inNumber => exact step_inNumber hstate
  | inString => exact step_inString hstate
  | inEscape => exact step_inEscape hstate
  | haveColon => exact step_haveColon hstate
  | haveLess => exact step_haveLess hstate
  | haveGreater => exact step_haveGreater hstate
  | haveSlash => exact step_haveSlash hstate
  | inComment => exact step_inComment hstate

end Meaning

/-- The loop finds what is left to be found. -/
theorem loop_eq_meaning (m : Automaton) (hm : m.Clean) : m.loop = m.meaning := by
  have hstep := meaning_step hm
  fun_induction loop m with
  | case1 m f h =>
    rw [h] at hstep
    exact hstep
  | case2 m m' h =>
    rw [h] at hstep
    exact hstep
  | case3 m m' h ih =>
    have hm' := (yields h).2 hm
    rw [h] at hstep
    exact (ih hm' (meaning_step hm')).trans hstep

/-- **The machine is the lexer.**  On every text it gives the tokens of `scan`, or its fault. -/
theorem run_eq_scan (source : String) : run source = scan source := by
  rw [run, loop_eq_meaning (init source) (fun _ => rfl), meaning_of_start rfl, scan]
  cases hscan : scanFrom 0 .start source.toList <;> simp [init, hscan, Except.map]

end Automaton

end PLZero
