import PLZero.Proofs.Scope.Table

/-!
# Handles of scopes

A push gives a handle to the scope that it opens, and the handle is asked for when a scope is
closed.  It holds the level of the scope and nothing else, so two scopes that are opened at the same
level, one after the other, have the same handle.

* `ScopeOp` — what can be done with a table.
* `History` — a table with what has happened to it: the handles that were given, one by each push,
  and the pushes whose scopes are still open.
* `History.Sound` — the scopes of the table are those of the open pushes, in order, and each push
  gave the level of its scope.  It holds after any operations.
* `History.Guards` — the handle of a push closes no scope but the one that this push opened.
* `History.handle_closes_level` — when that is so, and what a handle does close.
-/

namespace PLZero

/-! ## Depths -/

namespace Table

variable {t t' : Table} {h : ScopeHandle}

theorem exists_drop_iff : (∃ t', drop h t = .ok () t') ↔ 0 < t.depth ∧ h.level = t.depth := by
  have hdepth : 0 < t.depth ↔ 1 < t.scopes.length := by
    unfold depth
    omega
  simp only [drop_eq_ok_iff, hdepth]
  constructor
  · rintro ⟨t', hmany, hlevel, -⟩
    exact ⟨hmany, hlevel⟩
  · rintro ⟨hmany, hlevel⟩
    exact ⟨_, hmany, hlevel, rfl⟩

theorem depth_push (hopen : t.scopes ≠ []) : t.push.2.depth = t.depth + 1 := by
  have hlength : 0 < t.scopes.length := List.length_pos_iff.mpr hopen
  simp only [push, depth, List.length_cons]
  omega

theorem depth_of_drop (hdrop : drop h t = .ok () t') : t.depth = t'.depth + 1 := by
  obtain ⟨hmany, -, rfl⟩ := drop_eq_ok_iff.mp hdrop
  simp only [depth, List.length_tail]
  omega

theorem depth_of_insert {d : Decl} {symbol : Symbol} (hinsert : insert d t = .ok symbol t') :
    t'.depth = t.depth := by
  obtain ⟨scope, scopes, ht, -, -, rfl⟩ := insert_eq_ok_iff.mp hinsert
  simp [depth, ht]

/-- No operation leaves a table without a scope. -/
theorem open_of_drop (hdrop : drop h t = .ok () t') : t'.scopes ≠ [] := by
  obtain ⟨hmany, -, rfl⟩ := drop_eq_ok_iff.mp hdrop
  rw [← List.length_pos_iff, List.length_tail]
  omega

theorem open_of_insert {d : Decl} {symbol : Symbol} (hinsert : insert d t = .ok symbol t') :
    t'.scopes ≠ [] := by
  obtain ⟨scope, scopes, -, -, -, rfl⟩ := insert_eq_ok_iff.mp hinsert
  exact List.cons_ne_nil _ _

end Table

/-! ## Histories -/

inductive ScopeOp where
  | push
  | insert (d : Decl)
  | drop (h : ScopeHandle)

/-- A table with its past.  Scopes are known by the number of the push that opened them. -/
structure History where
  table : Table
  /-- The handle that each push gave. -/
  given : List ScopeHandle
  /-- The pushes whose scopes are open, innermost first. -/
  opened : List Nat

namespace History

def start : History := ⟨.empty, [], []⟩

/-- Goes on with the table that the operation leaves, be it accepted or refused. -/
def step (s : History) : ScopeOp → History
  | .push => ⟨s.table.push.2, s.given ++ [s.table.push.1], s.given.length :: s.opened⟩
  | .insert d =>
    match Table.insert d s.table with
    | .ok _ t => { s with table := t }
    | .error _ t => { s with table := t }
  | .drop h =>
    match Table.drop h s.table with
    | .ok _ t => { s with table := t, opened := s.opened.tail }
    | .error _ t => { s with table := t }

def after (ops : List ScopeOp) : History := ops.foldl step start

/-- The pushes were given the levels of a stack of scopes. -/
def Leveled (given : List ScopeHandle) : List Nat → Prop
  | [] => True
  | n :: ns => given[n]? = some ⟨ns.length + 1⟩ ∧ Leveled given ns

theorem Leveled.append {given : List ScopeHandle} {ns : List Nat} (h : Leveled given ns)
    (more : List ScopeHandle) : Leveled (given ++ more) ns := by
  induction ns with
  | nil => trivial
  | cons n ns ih =>
    obtain ⟨hn, hns⟩ := h
    obtain ⟨hlt, -⟩ := List.getElem?_eq_some_iff.mp hn
    exact ⟨by rw [List.getElem?_append_left hlt, hn], ih hns⟩

/-- No scope on the stack has a level above its height. -/
theorem Leveled.level_le {given : List ScopeHandle} {ns : List Nat} (h : Leveled given ns) :
    ∀ n ∈ ns, ∃ level ≤ ns.length, given[n]? = some ⟨level⟩ := by
  induction ns with
  | nil => simp
  | cons n ns ih =>
    intro m hm
    rcases List.mem_cons.mp hm with rfl | hm
    · exact ⟨ns.length + 1, Nat.le_refl _, h.1⟩
    · obtain ⟨level, hlevel, hgiven⟩ := ih h.2 m hm
      exact ⟨level, Nat.le_succ_of_le hlevel, hgiven⟩

structure Sound (s : History) : Prop where
  nonempty : s.table.scopes ≠ []
  depth : s.table.depth = s.opened.length
  leveled : Leveled s.given s.opened

theorem step_of_insert_error {s : History} {d : Decl} {f : ScopeFault} {t : Table}
    (hinsert : Table.insert d s.table = .error f t) : s.step (.insert d) = s := by
  simp only [step, hinsert, Table.eq_of_insert_error hinsert]

theorem step_of_drop_error {s : History} {h : ScopeHandle} {f : ScopeFault} {t : Table}
    (hdrop : Table.drop h s.table = .error f t) : s.step (.drop h) = s := by
  simp only [step, hdrop, Table.eq_of_drop_error hdrop]

theorem Sound.step {s : History} (hs : s.Sound) (op : ScopeOp) : (s.step op).Sound := by
  cases op with
  | push =>
    have hdepth := Table.depth_push hs.nonempty
    refine ⟨List.cons_ne_nil _ _, ?_, ?_, hs.leveled.append _⟩
    · simp only [History.step, hdepth, hs.depth, List.length_cons]
    · have hhandle : s.table.push.1 = ⟨s.opened.length + 1⟩ := by
        rw [← hs.depth, ← hdepth]
        rfl
      simp only [History.step, hhandle, List.getElem?_concat_length]
  | insert d =>
    cases hinsert : Table.insert d s.table with
    | ok symbol t =>
      simp only [History.step, hinsert]
      exact ⟨Table.open_of_insert hinsert, (Table.depth_of_insert hinsert).trans hs.depth,
        hs.leveled⟩
    | error f t =>
      rw [step_of_insert_error hinsert]
      exact hs
  | drop h =>
    cases hdrop : Table.drop h s.table with
    | ok _ t =>
      simp only [History.step, hdrop]
      have hdepth := Table.depth_of_drop hdrop
      have hlength := hs.depth
      have hleveled := hs.leveled
      cases hopened : s.opened with
      | nil => simp [hopened] at hlength; omega
      | cons n ns =>
        rw [hopened] at hleveled hlength
        exact ⟨Table.open_of_drop hdrop, by simp at hlength ⊢; omega, hleveled.2⟩
    | error f t =>
      rw [step_of_drop_error hdrop]
      exact hs

theorem Sound.foldl {s : History} (hs : s.Sound) (ops : List ScopeOp) :
    (ops.foldl History.step s).Sound := by
  induction ops generalizing s with
  | nil => exact hs
  | cons op ops ih => exact ih (hs.step op)

theorem sound_start : start.Sound := ⟨List.cons_ne_nil _ _, rfl, trivial⟩

theorem sound_after (ops : List ScopeOp) : (after ops).Sound := sound_start.foldl ops

/-! ## What a handle closes -/

/-- The handle that push `n` gave is refused, with a fault of scopes and without any change, unless
the innermost scope is the one that this push opened. -/
def Guards (s : History) (n : Nat) : Prop :=
  ∀ h, s.given[n]? = some h → s.opened.head? ≠ some n →
    ∃ f reason, Table.drop h s.table = .error f s.table ∧ f.diagnostic = .scope reason ∧
      s.step (.drop h) = s

variable {s : History} {h : ScopeHandle}

/-- A scope is closed by any handle of its level, whichever push gave it. -/
theorem Sound.exists_drop_iff (hs : s.Sound) :
    (∃ t, Table.drop h s.table = .ok () t) ↔ ∃ m ∈ s.opened.head?, s.given[m]? = some h := by
  rw [Table.exists_drop_iff, hs.depth]
  have hleveled := hs.leveled
  cases hopened : s.opened with
  | nil => simp
  | cons m ms =>
    rw [hopened] at hleveled
    obtain ⟨level⟩ := h
    simp [hleveled.1, eq_comm]

/-- Of the open scopes only the innermost has its level. -/
theorem Sound.eq_of_given (hs : s.Sound) {m n : Nat} (hm : m ∈ s.opened.head?) (hn : n ∈ s.opened)
    (heq : s.given[m]? = s.given[n]?) : m = n := by
  have hleveled := hs.leveled
  obtain ⟨ms, hopened⟩ := List.head?_eq_some_iff.mp hm
  rw [hopened] at hleveled hn
  rcases List.mem_cons.mp hn with rfl | hn
  · rfl
  · obtain ⟨level, hle, hgiven⟩ := hleveled.2.level_le n hn
    rw [hleveled.1, hgiven] at heq
    have hlevel : ms.length + 1 = level := congrArg ScopeHandle.level (Option.some.inj heq)
    omega

theorem Sound.guards_iff (hs : s.Sound) (n : Nat) :
    s.Guards n ↔ n ∈ s.opened ∨ ∀ m ∈ s.opened.head?, s.given[m]? ≠ s.given[n]? := by
  constructor
  · intro hguards
    by_cases hn : n ∈ s.opened
    · exact .inl hn
    · refine .inr fun m hm heq => ?_
      have hhead : s.opened.head? ≠ some n := fun h => hn (List.mem_of_head? h)
      obtain ⟨level, -, hgiven⟩ := hs.leveled.level_le m (List.mem_of_head? hm)
      obtain ⟨t, hdrop⟩ := hs.exists_drop_iff.mpr ⟨m, hm, hgiven⟩
      obtain ⟨f, -, hrefused, -⟩ := hguards _ (heq.symm.trans hgiven) hhead
      rw [hdrop] at hrefused
      cases hrefused
  · intro hcond h hgiven hhead
    cases hdrop : Table.drop h s.table with
    | ok _ t =>
      obtain ⟨m, hm, hsame⟩ := hs.exists_drop_iff.mp ⟨t, hdrop⟩
      have heq : s.given[m]? = s.given[n]? := hsame.trans hgiven.symm
      rcases hcond with hn | hother
      · rw [hs.eq_of_given hm hn heq] at hm
        exact absurd hm hhead
      · exact absurd heq (hother m hm)
    | error f t =>
      obtain ⟨reason, hreason⟩ := Table.diagnostic_of_drop hdrop
      rw [Table.eq_of_drop_error hdrop]
      exact ⟨f, reason, rfl, hreason, step_of_drop_error hdrop⟩

/-- **A handle stands for a level.**  After any operations a handle closes the innermost scope just
if the push that opened this scope gave an equal one; else it is refused with a fault of scopes, and
nothing changes.  So the handle of a push closes no other scope while its own scope is open, and
later it closes none but those that are opened at the same level. -/
theorem handle_closes_level (ops : List ScopeOp) :
    (∀ h, (∃ t, Table.drop h (after ops).table = .ok () t) ↔
      ∃ m ∈ (after ops).opened.head?, (after ops).given[m]? = some h) ∧
    (∀ h f t, Table.drop h (after ops).table = .error f t →
      (∃ reason, f.diagnostic = .scope reason) ∧ t = (after ops).table ∧
        (after ops).step (.drop h) = after ops) ∧
    ∀ n, (after ops).Guards n ↔ n ∈ (after ops).opened ∨
      ∀ m ∈ (after ops).opened.head?, (after ops).given[m]? ≠ (after ops).given[n]? := by
  have hsound := sound_after ops
  refine ⟨fun h => hsound.exists_drop_iff, fun h f t hdrop => ?_, hsound.guards_iff⟩
  exact ⟨Table.diagnostic_of_drop hdrop, Table.eq_of_drop_error hdrop, step_of_drop_error hdrop⟩

/-- A handle that has closed its scope closes the next one, which another push opened. -/
theorem not_guards_reopened :
    (after [.push, .drop ⟨1⟩, .push]).opened = [1] ∧
      (after [.push, .drop ⟨1⟩, .push]).given[0]? = some ⟨1⟩ ∧
      Table.drop ⟨1⟩ (after [.push, .drop ⟨1⟩, .push]).table = .ok () .empty ∧
      ¬(after [.push, .drop ⟨1⟩, .push]).Guards 0 := by
  refine ⟨rfl, rfl, rfl, fun hguards => ?_⟩
  obtain ⟨f, -, hrefused, -⟩ := hguards ⟨1⟩ rfl (by decide)
  cases hrefused

end History

end PLZero
