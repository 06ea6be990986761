import PLZero.Scope.Table

/-!
# Operations on scope tables

What one operation does to a table, whether it is accepted or refused.

* `Table.drop_eq_ok_iff`, `Table.insert_eq_ok_iff` — when it is accepted, and the table after it.
* `Table.eq_of_drop_error`, `Table.eq_of_insert_error` — a refused one has changed nothing.
* `Table.drop_covered` — a scope that was opened on a table can be dropped, whatever it holds, and
  that gives the table back.
-/

namespace PLZero.Table

variable {t t' : Table} {h : ScopeHandle} {d : Decl} {symbol : Symbol} {f : ScopeFault}

/-! ## Dropping -/

theorem drop_eq (h : ScopeHandle) (t : Table) :
    drop h t =
      if t.scopes.length ≤ 1 then .error .dropsProgramScope t
      else if h.level ≠ t.depth then .error (.notInnermost h.level t.depth) t
      else .ok () ⟨t.scopes.tail⟩ := by
  change (if t.scopes.length ≤ 1 then (throw .dropsProgramScope : TableOp Unit)
    else if h.level ≠ t.depth then throw (.notInnermost h.level t.depth)
    else set (⟨t.scopes.tail⟩ : Table)) t = _
  split
  · rfl
  · split <;> rfl

theorem drop_eq_ok_iff :
    drop h t = .ok () t' ↔
      1 < t.scopes.length ∧ h.level = t.depth ∧ t' = ⟨t.scopes.tail⟩ := by
  rw [drop_eq]
  split
  · simp
    omega
  · split
    · simp_all
    · rename_i hmany hlevel
      simp only [EStateM.Result.ok.injEq, true_and]
      constructor
      · intro heq
        exact ⟨by omega, Decidable.not_not.mp hlevel, heq.symm⟩
      · intro hall
        exact hall.2.2.symm

theorem eq_of_drop_error (hdrop : drop h t = .error f t') : t' = t := by
  rw [drop_eq] at hdrop
  split at hdrop
  · cases hdrop
    rfl
  · split at hdrop
    · cases hdrop
      rfl
    · cases hdrop

theorem diagnostic_of_drop (hdrop : drop h t = .error f t') :
    ∃ reason, f.diagnostic = .scope reason := by
  rw [drop_eq] at hdrop
  split at hdrop
  · cases hdrop
    exact ⟨_, rfl⟩
  · split at hdrop
    · cases hdrop
      exact ⟨_, rfl⟩
    · cases hdrop

/-- The handle of a push drops the scope on top of what the table was before. -/
theorem drop_covered (hopen : t.scopes ≠ []) (scope : Scope) :
    drop t.push.1 ⟨scope :: t.scopes⟩ = .ok () t := by
  have hlength : 0 < t.scopes.length := List.length_pos_iff.mpr hopen
  rw [drop_eq_ok_iff]
  refine ⟨?_, rfl, rfl⟩
  rw [List.length_cons]
  omega

/-! ## Inserting -/

theorem insert_cons (d : Decl) (scope : Scope) (scopes : List Scope) :
    insert d ⟨scope :: scopes⟩ =
      if (scope.lookup d.name).isSome then .error (.duplicate d.head.token) ⟨scope :: scopes⟩
      else .ok (symbolOf ⟨scope :: scopes⟩ d)
        ⟨((d.name, symbolOf ⟨scope :: scopes⟩ d) :: scope) :: scopes⟩ := by
  change (if (scope.lookup d.name).isSome then (throw (.duplicate d.head.token) : TableOp Symbol)
    else do
      set (⟨((d.name, symbolOf ⟨scope :: scopes⟩ d) :: scope) :: scopes⟩ : Table)
      return symbolOf ⟨scope :: scopes⟩ d) ⟨scope :: scopes⟩ = _
  split <;> rfl

theorem insert_of_new {scope : Scope} {scopes : List Scope} (ht : t.scopes = scope :: scopes)
    (hnew : scope.lookup d.name = none) :
    insert d t = .ok (t.symbolOf d) ⟨((d.name, t.symbolOf d) :: scope) :: scopes⟩ := by
  obtain ⟨_⟩ := t
  cases ht
  rw [insert_cons, hnew]
  rfl

theorem insert_eq_ok_iff :
    insert d t = .ok symbol t' ↔
      ∃ scope scopes, t.scopes = scope :: scopes ∧ scope.lookup d.name = none ∧
        symbol = t.symbolOf d ∧ t' = ⟨((d.name, t.symbolOf d) :: scope) :: scopes⟩ := by
  constructor
  · intro hinsert
    obtain ⟨_ | ⟨scope, scopes⟩⟩ := t
    · cases hinsert
    · rw [insert_cons] at hinsert
      split at hinsert
      · cases hinsert
      · rename_i hnew
        cases hinsert
        exact ⟨scope, scopes, rfl, Option.not_isSome_iff_eq_none.mp hnew, rfl, rfl⟩
  · rintro ⟨scope, scopes, ht, hnew, rfl, rfl⟩
    exact insert_of_new ht hnew

theorem eq_of_insert_error (hinsert : insert d t = .error f t') : t' = t := by
  obtain ⟨_ | ⟨scope, scopes⟩⟩ := t
  · cases hinsert
    rfl
  · rw [insert_cons] at hinsert
    split at hinsert
    · cases hinsert
      rfl
    · cases hinsert

end PLZero.Table
