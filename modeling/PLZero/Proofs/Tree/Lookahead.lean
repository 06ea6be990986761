import Mathlib.Data.List.Basic
import PLZero.Proofs.Tree.Completeness

/-!
# One token of lookahead

A parser never looks beyond the token after those it has read.

* `Parser.Follows` — what one parser does, the other does as well, whatever stands after that token.
  The other may have a larger budget.  One lemma for each rule.
* `Parser.not_sentence_of_unexpected` — where the parser has found a token that it did not expect,
  no sentence begins with the tokens up to this one.
-/

namespace PLZero.Parser

variable {α β : Type}

/-- If `m` succeeds, `m'` reads the same tokens, gives the same result, and leaves what is there, as
long as the next token is the same; and if `m` finds a token that it does not expect, so does `m'`.
Other faults are left open. -/
structure Follows (m m' : Parser α) : Prop where
  ok : ∀ {ts rest : List Token} {a : α}, m ts = .ok (a, rest) → ∃ used, ts = used ++ rest ∧
    ∀ t tail tail', rest = t :: tail → m' (used ++ t :: tail') = .ok (a, t :: tail')
  unexpected : ∀ {ts : List Token} {e : Expected} {t : Token}, m ts = .error (.unexpected e t) →
    ∃ used tail, ts = used ++ t :: tail ∧
      ∀ tail', m' (used ++ t :: tail') = .error (.unexpected e t)

theorem error_of_bind {m : Parser α} {f : α → Parser β} {ts : List Token} {fault : ParseFault}
    (h : (m >>= f) ts = .error fault) :
    m ts = .error fault ∨ ∃ a rest, m ts = .ok (a, rest) ∧ f a rest = .error fault := by
  simp only [Bind.bind, StateT.bind, Except.bind] at h
  split at h
  · rename_i fault' hm
    cases h
    exact .inl hm
  · rename_i r hm
    exact .inr ⟨r.1, r.2, hm, h⟩

/-! ## Single tokens -/

namespace Follows

/-- What follows `m` goes on where `m` has stopped, since the next token is there still. -/
theorem run {m : Parser α} {f : α → Parser β} {used used' tail tail' : List Token} {t : Token}
    {a : α}
    (hm : ∀ u us us', used' ++ t :: tail = u :: us → m (used ++ u :: us') = .ok (a, u :: us')) :
    (m >>= f) (used ++ (used' ++ t :: tail')) = f a (used' ++ t :: tail') := by
  cases used' with
  | nil => exact bind_of_ok (hm t tail tail' rfl)
  | cons u us => exact bind_of_ok (hm u (us ++ t :: tail) (us ++ t :: tail') rfl)

theorem bind {m m' : Parser α} {f f' : α → Parser β} (hm : Follows m m')
    (hf : ∀ a, Follows (f a) (f' a)) : Follows (m >>= f) (m' >>= f') := by
  constructor
  · intro ts rest b h
    obtain ⟨a, mid, ha, hb⟩ := exists_of_bind h
    obtain ⟨used, rfl, hrun⟩ := hm.ok ha
    obtain ⟨used', rfl, hrun'⟩ := (hf a).ok hb
    refine ⟨used ++ used', (List.append_assoc ..).symm, fun t tail tail' hrest => ?_⟩
    subst hrest
    rw [List.append_assoc, run hrun]
    exact hrun' t tail tail' rfl
  · intro ts e t h
    rcases error_of_bind h with h | ⟨a, mid, ha, hb⟩
    · obtain ⟨used, tail, rfl, hrun⟩ := hm.unexpected h
      exact ⟨used, tail, rfl, fun tail' => bind_of_error (hrun tail')⟩
    · obtain ⟨used, rfl, hrun⟩ := hm.ok ha
      obtain ⟨used', tail, rfl, hrun'⟩ := (hf a).unexpected hb
      refine ⟨used ++ used', tail, (List.append_assoc ..).symm, fun tail' => ?_⟩
      rw [List.append_assoc, run hrun]
      exact hrun' tail'

theorem pure (a : α) : Follows (Pure.pure a) (Pure.pure a) := by
  constructor
  · intro ts rest b h
    cases h
    exact ⟨[], rfl, fun _ _ _ _ => rfl⟩
  · intro ts e t h
    cases h

theorem lift (x : Except ParseFault α) (h : ∀ e t, x ≠ .error (.unexpected e t)) :
    Follows (liftM x : Parser α) (liftM x) := by
  cases x with
  | ok a => exact pure a
  | error fault =>
    constructor
    · intro ts rest b hrun
      cases hrun
    · intro ts e t hrun
      cases hrun
      exact absurd rfl (h e t)

/-- A parser that is out of budget is followed by any other. -/
theorem spent (m' : Parser α) : Follows (throw .endOfTokens) m' := by
  constructor
  · intro ts rest a h
    cases h
  · intro ts e t h
    cases h

end Follows

theorem follows_peek : Follows peek peek := by
  constructor
  · intro ts rest a h
    cases ts with
    | nil => cases h
    | cons t ts =>
      cases h
      refine ⟨[], rfl, fun u tail tail' hrest => ?_⟩
      cases hrest
      rfl
  · intro ts e t h
    cases ts <;> cases h

theorem follows_next : Follows next next := by
  constructor
  · intro ts rest a h
    cases ts with
    | nil => cases h
    | cons =>
      cases h
      exact ⟨[a], rfl, fun _ _ _ _ => rfl⟩
  · intro ts e t h
    cases ts <;> cases h

theorem follows_unexpected (expected : Expected) :
    Follows (unexpected expected : Parser α) (unexpected expected) := by
  constructor
  · intro ts rest a h
    exact absurd h not_unexpected
  · intro ts e t h
    cases ts with
    | nil => cases h
    | cons u ts =>
      cases h
      exact ⟨[], ts, rfl, fun _ => rfl⟩

theorem follows_expect (kind : TokenKind) : Follows (expect kind) (expect kind) := by
  refine .bind follows_peek fun t => ?_
  split
  · exact follows_next
  · exact follows_unexpected _

theorem follows_ident : Follows ident ident := by
  refine .bind follows_peek fun t => ?_
  split
  · exact follows_next
  · exact follows_unexpected _

theorem follows_literal : Follows literal literal := by
  refine .bind follows_peek fun t => ?_
  split
  · exact .bind follows_next fun _ => .pure _
  · exact follows_unexpected _

/-! ## Repetition -/

theorem follows_sepBy1 {item item' : Parser α} (h : Follows item item') (separator : TokenKind)
    {budget budget' : Nat} (hle : budget ≤ budget') :
    Follows (sepBy1 item separator budget) (sepBy1 item' separator budget') := by
  induction budget generalizing budget' with
  | zero => exact .spent _
  | succ n ih =>
    obtain ⟨n', rfl⟩ := Nat.exists_eq_add_one_of_ne_zero (Nat.ne_zero_of_lt hle)
    refine .bind h fun a => .bind follows_peek fun t => ?_
    split
    · exact .bind follows_next fun _ => .bind (ih (Nat.le_of_succ_le_succ hle)) fun _ => .pure _
    · exact .pure _

theorem follows_chain (level : Op → Bool) {operand operand' : Parser Expr}
    (h : Follows operand operand') {budget budget' : Nat} (hle : budget ≤ budget') (lhs : Expr) :
    Follows (chain level operand budget lhs) (chain level operand' budget' lhs) := by
  induction budget generalizing budget' lhs with
  | zero => exact .spent _
  | succ n ih =>
    obtain ⟨n', rfl⟩ := Nat.exists_eq_add_one_of_ne_zero (Nat.ne_zero_of_lt hle)
    refine .bind follows_peek fun t => ?_
    split
    · exact .bind follows_next fun _ => .bind h fun _ => ih (Nat.le_of_succ_le_succ hle) _
    · exact .pure _

/-! ## Expressions -/

section Expressions

variable {sub sub' : Parser Expr} {budget budget' : Nat}

theorem follows_primary (h : Follows sub sub') : Follows (primary sub) (primary sub') := by
  refine .bind follows_peek fun t => ?_
  split
  · exact .bind follows_next fun _ => .pure _
  · exact .bind follows_next fun _ => .pure _
  · exact .bind follows_next fun _ => .bind h fun _ => .bind (follows_expect _) fun _ => .pure _
  · exact follows_unexpected _

theorem follows_term (h : Follows sub sub') (hle : budget ≤ budget') :
    Follows (term budget sub) (term budget' sub') :=
  .bind (follows_primary h) fun _ => follows_chain _ (follows_primary h) hle _

theorem follows_additive (h : Follows sub sub') (hle : budget ≤ budget') :
    Follows (additive budget sub) (additive budget' sub') :=
  .bind (follows_term h hle) fun _ => follows_chain _ (follows_term h hle) hle _

theorem follows_comparison (h : Follows sub sub') (hle : budget ≤ budget') :
    Follows (comparison budget sub) (comparison budget' sub') := by
  refine .bind (follows_additive h hle) fun lhs => .bind follows_peek fun t => ?_
  split
  · exact .pure _
  · refine .bind follows_next fun _ => .bind (follows_additive h hle) fun rhs => ?_
    refine .bind follows_peek fun u => ?_
    split
    · exact follows_unexpected _
    · exact .pure _

theorem follows_expression (hle : budget ≤ budget') :
    Follows (expression budget) (expression budget') := by
  induction budget generalizing budget' with
  | zero => exact .spent _
  | succ n ih =>
    obtain ⟨n', rfl⟩ := Nat.exists_eq_add_one_of_ne_zero (Nat.ne_zero_of_lt hle)
    exact follows_comparison (ih (Nat.le_of_succ_le_succ hle)) hle

end Expressions

/-! ## Statements -/

section Statements

variable {sub sub' : Parser Stmt} {budget budget' : Nat}

theorem follows_simpleStatement (h : Follows sub sub') (hle : budget ≤ budget') :
    Follows (simpleStatement budget sub) (simpleStatement budget' sub') := by
  have hexpr := follows_expression hle
  refine .bind follows_peek fun t => ?_
  split
  · exact .bind follows_next fun _ => .bind (follows_expect _) fun _ => .bind hexpr fun _ => .pure _
  · exact .bind follows_next fun _ => .bind follows_ident fun _ => .pure _
  · exact .bind follows_next fun _ => .bind follows_ident fun _ => .pure _
  · exact .bind follows_next fun _ => .bind hexpr fun _ => .pure _
  · exact .bind follows_next fun _ => .bind (follows_sepBy1 h _ hle) fun _ =>
      .bind (follows_expect _) fun _ => .pure _
  · exact .bind follows_next fun _ => .bind hexpr fun _ => .bind (follows_expect _) fun _ =>
      .bind h fun _ => .pure _
  · exact .bind follows_next fun _ => .bind hexpr fun _ => .bind (follows_expect _) fun _ =>
      .bind h fun _ => .pure _
  · exact .pure _

theorem follows_statement (hle : budget ≤ budget') :
    Follows (statement budget) (statement budget') := by
  induction budget generalizing budget' with
  | zero => exact .spent _
  | succ n ih =>
    obtain ⟨n', rfl⟩ := Nat.exists_eq_add_one_of_ne_zero (Nat.ne_zero_of_lt hle)
    exact follows_simpleStatement (ih (Nat.le_of_succ_le_succ hle)) hle

end Statements

/-! ## Declarations -/

section Declarations

variable {sub sub' : Parser Block} {budget budget' : Nat}

theorem follows_constantDecl : Follows constantDecl constantDecl :=
  .bind follows_ident fun _ => .bind (follows_expect _) fun _ =>
    .bind follows_literal fun _ => .pure _

theorem follows_variableDecl : Follows variableDecl variableDecl :=
  .bind follows_ident fun _ => .pure _

theorem follows_procedureDecl (h : Follows sub sub') :
    Follows (procedureDecl sub) (procedureDecl sub') :=
  .bind follows_ident fun _ => .bind (follows_expect _) fun _ => .bind h fun _ => .pure _

theorem follows_group (h : Follows sub sub') (hle : budget ≤ budget') :
    Follows (group budget sub) (group budget' sub') := by
  refine .bind follows_peek fun t => ?_
  split
  · exact .bind follows_next fun _ => .bind (follows_sepBy1 follows_constantDecl _ hle) fun _ =>
      .bind (follows_expect _) fun _ => .pure _
  · exact .bind follows_next fun _ => .bind (follows_sepBy1 follows_variableDecl _ hle) fun _ =>
      .bind (follows_expect _) fun _ => .pure _
  · exact .bind follows_next fun _ => .bind (follows_procedureDecl h) fun _ =>
      .bind (follows_expect _) fun _ => .pure _
  · exact .pure _

theorem distinct_ne_unexpected (seen : List String) (ds : List Decl) (e : Expected) (t : Token) :
    distinct seen ds ≠ .error (.unexpected e t) := by
  induction ds generalizing seen with
  | nil => simp [distinct]
  | cons d ds ih =>
    rw [distinct]
    split
    · simp
    · exact ih _

theorem follows_declarations (h : Follows sub sub') (hle : budget ≤ budget') (seen : List String) :
    Follows (declarations sub budget seen) (declarations sub' budget' seen) := by
  induction budget generalizing budget' seen with
  | zero => exact .spent _
  | succ n ih =>
    obtain ⟨n', rfl⟩ := Nat.exists_eq_add_one_of_ne_zero (Nat.ne_zero_of_lt hle)
    have hle := Nat.le_of_succ_le_succ hle
    refine .bind (follows_group h hle) fun ds => ?_
    split
    · exact .pure _
    · refine .bind (.lift _ (distinct_ne_unexpected seen _)) fun seen' => ?_
      exact .bind (ih hle seen') fun _ => .pure _

theorem follows_block (hle : budget ≤ budget') : Follows (block budget) (block budget') := by
  induction budget generalizing budget' with
  | zero => exact .spent _
  | succ n ih =>
    obtain ⟨n', rfl⟩ := Nat.exists_eq_add_one_of_ne_zero (Nat.ne_zero_of_lt hle)
    refine .bind (follows_declarations (ih (Nat.le_of_succ_le_succ hle)) hle []) fun ds => ?_
    exact .bind (follows_statement hle) fun _ => .pure _

end Declarations

/-! ## Programs -/

theorem follows_program {budget budget' : Nat} (hle : budget ≤ budget') :
    Follows (program budget) (program budget') := by
  refine .bind follows_peek fun first => ?_
  refine .bind (follows_declarations (follows_block hle) hle []) fun ds => ?_
  refine .bind (follows_sepBy1 (follows_statement hle) _ hle) fun ss => ?_
  exact .bind (follows_expect _) fun _ => .bind (follows_expect _) fun _ => .pure _

/-- No sentence begins with the tokens up to the one that was not expected: the parser would find it
there as well, but all it may find in a sentence is a name that is declared twice. -/
theorem not_sentence_of_unexpected {budget : Nat} {used tail : List Token} {e : Expected}
    {t : Token} (h : program budget (used ++ t :: tail) = .error (.unexpected e t))
    (hused : t ∉ used) (htail : t ∉ tail) (rest : List Token) (p : Program) :
    ¬Grammar.Program (used ++ t :: rest) p := by
  intro hsentence
  have hfollows : Follows (program budget) (program (budget + ((used ++ t :: rest).length + 1))) :=
    follows_program (Nat.le_add_right ..)
  obtain ⟨used', tail', heq, hrun⟩ := hfollows.unexpected h
  obtain ⟨rfl, -, -⟩ := (List.append_cons_inj_of_notMem hused htail).mp heq
  have hchecks := checks_program hsentence
    (show (used ++ t :: rest).length < budget + ((used ++ t :: rest).length + 1) by omega)
  by_cases hdistinct : p.Distinct
  · cases (hrun rest).symm.trans (hchecks.ok hdistinct)
  · obtain ⟨u, hu⟩ := hchecks.refused hdistinct
    cases (hrun rest).symm.trans hu

end PLZero.Parser
