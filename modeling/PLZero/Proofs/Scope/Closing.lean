import Mathlib.Data.List.Induction
import Mathlib.Data.List.Infix
import PLZero.Proofs.Scope.Handles

/-!
# What closing a scope undoes

A scope that is opened stands on the scopes that were there before.  Until it is closed nothing
reaches these: names are declared in the innermost scope only, and to close a scope below it, it has
to be closed first.

* `Table.Under` — the scopes of a table are untouched below those of another one.
* `Table.Under.insert`, `Table.Under.drop` — what one operation does to them.  A drop leaves them
  untouched, or uncovers them.
* `History.under_after` — the same for any operations that keep the opened scope open.
* `History.closing_undoes` — so the drop that closes the scope gives the table from before the push.
-/

namespace PLZero

/-! ## Scopes that are covered -/

namespace Table

/-- All scopes of `t` are the lowest ones of `t'`, and at least one scope covers them. -/
structure Under (t t' : Table) : Prop where
  nonempty : t.scopes ≠ []
  suffix : t.scopes <:+ t'.scopes.tail

variable {t t' t'' : Table}

theorem under_push (h : t.scopes ≠ []) : t.Under t.push.2 := ⟨h, List.suffix_refl _⟩

namespace Under

theorem depth_lt (h : t.Under t') : t.depth < t'.depth := by
  have hlength := h.suffix.length_le
  have hpos := List.length_pos_iff.mpr h.nonempty
  rw [List.length_tail] at hlength
  unfold Table.depth
  omega

theorem push (h : t.Under t') : t.Under t'.push.2 :=
  ⟨h.nonempty, h.suffix.trans (List.tail_suffix _)⟩

theorem insert {d : Decl} {symbol : Symbol} (h : t.Under t')
    (hinsert : Table.insert d t' = .ok symbol t'') : t.Under t'' := by
  obtain ⟨scope, scopes, ht', -, -, rfl⟩ := insert_eq_ok_iff.mp hinsert
  have hsuffix := h.suffix
  rw [ht'] at hsuffix
  exact ⟨h.nonempty, hsuffix⟩

theorem drop {handle : ScopeHandle} (h : t.Under t') (hdrop : Table.drop handle t' = .ok () t'') :
    t'' = t ∨ t.Under t'' := by
  obtain ⟨-, -, rfl⟩ := drop_eq_ok_iff.mp hdrop
  have hsuffix := h.suffix
  cases houter : t'.scopes.tail with
  | nil =>
    rw [houter] at hsuffix
    exact absurd (List.suffix_nil.mp hsuffix) h.nonempty
  | cons scope scopes =>
    rw [houter] at hsuffix
    -- The scope that is uncovered is the innermost one of `t`, or still covers it.
    obtain heq | hsuffix := List.suffix_cons_iff.mp hsuffix
    · left
      rw [← heq]
    · exact .inr ⟨h.nonempty, hsuffix⟩

end Under

end Table

/-! ## Operations in a row -/

namespace History

variable {t : Table} {s : History}

theorem after_append (past ops : List ScopeOp) : after (past ++ ops) = ops.foldl step (after past) :=
  List.foldl_append ..

theorem after_push (past : List ScopeOp) :
    (after (past ++ [.push])).table = (after past).table.push.2 := by
  rw [after_append]
  rfl

/-- An operation that does not close the last covering scope leaves all below untouched. -/
theorem under_step (h : t.Under s.table) (op : ScopeOp)
    (hdepth : t.depth < (s.step op).table.depth) : t.Under (s.step op).table := by
  cases op with
  | push => exact h.push
  | insert d =>
    cases hinsert : Table.insert d s.table with
    | ok symbol t' =>
      simp only [step, hinsert]
      exact h.insert hinsert
    | error f t' =>
      rw [step_of_insert_error hinsert]
      exact h
  | drop handle =>
    cases hdrop : Table.drop handle s.table with
    | ok _ t' =>
      simp only [step, hdrop] at hdepth ⊢
      obtain rfl | hunder := h.drop hdrop
      · exact absurd hdepth (Nat.lt_irrefl _)
      · exact hunder
    | error f t' =>
      rw [step_of_drop_error hdrop]
      exact h

/-- The depth after `past` is exceeded from the next push on, whatever part of `ops` has been
done. -/
def StaysInside (past ops : List ScopeOp) : Prop :=
  ∀ part, part <+: ops → (after past).table.depth < (after (past ++ .push :: part)).table.depth

instance decidableStaysInside (past ops : List ScopeOp) : Decidable (StaysInside past ops) :=
  decidable_of_iff (∀ part ∈ ops.inits,
    (after past).table.depth < (after (past ++ .push :: part)).table.depth)
    (by simp only [List.mem_inits, StaysInside])

theorem under_after {past ops : List ScopeOp} (h : StaysInside past ops) :
    (after past).table.Under (after (past ++ .push :: ops)).table := by
  induction ops using List.reverseRecOn with
  | nil =>
    rw [after_push]
    exact Table.under_push (sound_after past).nonempty
  | append_singleton ops op ih =>
    have hunder := ih fun part hpart => h part (hpart.trans (List.prefix_append ..))
    have hdepth := h _ (List.prefix_refl _)
    have hstep : after (past ++ .push :: (ops ++ [op])) = (after (past ++ .push :: ops)).step op := by
      rw [← List.cons_append, ← List.append_assoc, after_append]
      rfl
    rw [hstep] at hdepth ⊢
    exact under_step hunder op hdepth

/-- **Closing a scope undoes exactly what happened in it.**  After any operations a scope is opened;
then come any operations, accepted or refused, none of which closes it, and a drop that does.  The
table is then the one from before the scope was opened, so that every name means what it meant.  An
insertion or a drop that is refused at any time has left the table as it was. -/
theorem closing_undoes :
    (∀ (past ops : List ScopeOp) (h : ScopeHandle) (t : Table), StaysInside past ops →
      Table.drop h (after (past ++ .push :: ops)).table = .ok () t →
      t.depth < (after (past ++ [.push])).table.depth →
        t = (after past).table ∧ (after (past ++ .push :: ops ++ [.drop h])).table = t ∧
        ∀ name, t.get? name = (after past).table.get? name) ∧
    (∀ past d f t, Table.insert d (after past).table = .error f t →
      t = (after past).table ∧ after (past ++ [.insert d]) = after past) ∧
    ∀ past h f t, Table.drop h (after past).table = .error f t →
      t = (after past).table ∧ after (past ++ [.drop h]) = after past := by
  refine ⟨fun past ops h t hinside hdrop hdepth => ?_, fun past d f t hinsert => ?_,
    fun past h f t hdrop => ?_⟩
  · have hstep : (after (past ++ .push :: ops ++ [.drop h])).table = t := by
      rw [after_append, List.foldl_cons, List.foldl_nil]
      simp only [step, hdrop]
    have hrestored : t = (after past).table := by
      obtain heq | hunder := (under_after hinside).drop hdrop
      · exact heq
      · have hlt := hunder.depth_lt
        rw [after_push, Table.depth_push (sound_after past).nonempty] at hdepth
        omega
    exact ⟨hrestored, hstep, fun name => by rw [hrestored]⟩
  · refine ⟨Table.eq_of_insert_error hinsert, ?_⟩
    rw [after_append]
    exact step_of_insert_error hinsert
  · refine ⟨Table.eq_of_drop_error hdrop, ?_⟩
    rw [after_append]
    exact step_of_drop_error hdrop

/-- A variable with this number, declared on this line. -/
def variableAt (id line : Nat) (name : String) : Decl :=
  .var ⟨id, ⟨.ident name, ⟨line, 1⟩, name⟩, none, none⟩

/-- A name is declared again inside, a third time in vain, and inside once more; two drops are
refused on the way.  In the end it means what it meant. -/
theorem closing_undoes_shadowing :
    let past := [ScopeOp.insert (variableAt 0 1 "x")]
    let ops := [ScopeOp.insert (variableAt 1 2 "x"), .insert (variableAt 2 3 "x"), .push, .drop ⟨1⟩,
      .insert (variableAt 3 4 "x"), .drop ⟨2⟩, .drop ⟨0⟩]
    StaysInside past ops ∧
      (after (past ++ .push :: ops)).table.get? "x" = some ⟨1, .var, 2, 1⟩ ∧
      (after (past ++ .push :: ops ++ [.drop ⟨1⟩])).table = (after past).table ∧
      (after (past ++ .push :: ops ++ [.drop ⟨1⟩])).table.get? "x" = some ⟨0, .var, 1, 0⟩ := by
  intro past ops
  have hinside : StaysInside past ops := by decide +kernel
  obtain ⟨-, htable, -⟩ := closing_undoes.1 past ops ⟨1⟩ (after past).table hinside
    (Table.drop_eq_ok_iff.mpr (by decide +kernel)) (by decide +kernel)
  refine ⟨hinside, by decide +kernel, htable, ?_⟩
  rw [htable]
  decide +kernel

end History

end PLZero
