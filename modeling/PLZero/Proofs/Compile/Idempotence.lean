import PLZero.Proofs.Compile.Correctness
import PLZero.Proofs.Compile.LexicalScope
import PLZero.Proofs.Typing.Settled

/-!
# Analysis again

A program that the analysis has accepted is bound and typed.  Binding its names again finds what is
there: names look up the same declarations, and types have no part in it.  Its types obey the rules,
so inference has nothing to do.

* `Program.eq_of_slots` — two trees are one if they agree both without their types and without
  their bindings.
* `Program.resolve_again` — resolution leaves a resolved program as it is, whatever its types.
* `Program.analyze_idempotent` — so does the whole analysis.
-/

namespace PLZero

/-! ## The two kinds of slots -/

theorem Expr.unbound_untyped (e : Expr) : e.untyped.unbound = e.unbound.untyped := by
  induction e with
  | literal | use => rfl
  | binary token ty op lhs rhs ihl ihr => simp only [Expr.untyped, Expr.unbound, ihl, ihr]

mutual

theorem Stmt.unbound_untyped : (s : Stmt) → s.untyped.unbound = s.unbound.untyped
  | .assign _ e | .output _ e => by simp only [Stmt.untyped, Stmt.unbound, e.unbound_untyped]
  | .call .. | .input .. | .empty _ => rfl
  | .begin _ ss => by simp only [Stmt.untyped, Stmt.unbound, Stmt.unboundList_untyped ss]
  | .if _ g b | .while _ g b => by
    simp only [Stmt.untyped, Stmt.unbound, g.unbound_untyped, Stmt.unbound_untyped b]

theorem Stmt.unboundList_untyped : (ss : List Stmt) →
    Stmt.unboundList (Stmt.untypedList ss) = Stmt.untypedList (Stmt.unboundList ss)
  | [] => rfl
  | s :: ss => by
    simp only [Stmt.untypedList, Stmt.unboundList, Stmt.unbound_untyped s,
      Stmt.unboundList_untyped ss]

end

mutual

theorem Decl.unbound_untyped : (d : Decl) → d.untyped.unbound = d.unbound.untyped
  | .const .. | .var _ => rfl
  | .procedure _ ds s => by
    simp only [Decl.untyped, Decl.unbound, Decl.unboundList_untyped ds, s.unbound_untyped]
    rfl

theorem Decl.unboundList_untyped : (ds : List Decl) →
    Decl.unboundList (Decl.untypedList ds) = Decl.untypedList (Decl.unboundList ds)
  | [] => rfl
  | d :: ds => by
    simp only [Decl.untypedList, Decl.unboundList, Decl.unbound_untyped d,
      Decl.unboundList_untyped ds]

end

/-- Types have no part in what is left of a tree without its slots. -/
theorem Program.bare_of_untyped_eq {p q : Program} (h : p.untyped = q.untyped) :
    p.bare = q.bare := by
  have hcomm (p : Program) : p.bare = p.untyped.unbound := by
    simp only [bare, unbound, untyped, Block.unbound, Block.untyped, Decl.unboundList_untyped,
      Stmt.unbound_untyped]
  rw [hcomm, hcomm, h]

/-! A tree is known by what it is without its types and what it is without its bindings. -/

theorem Expr.eq_of_slots {e e' : Expr} (ht : e.untyped = e'.untyped)
    (hb : e.unbound = e'.unbound) : e = e' := by
  induction e generalizing e' with
  | literal => cases e' <;> simp_all [Expr.untyped, Expr.unbound]
  | use => cases e' <;> simp_all [Expr.untyped, Expr.unbound]
  | binary token ty op lhs rhs ihl ihr =>
    cases e' with
    | literal | use => cases ht
    | binary =>
      simp only [Expr.untyped, Expr.unbound, Expr.binary.injEq] at ht hb ⊢
      exact ⟨ht.1, hb.2.1, ht.2.2.1, ihl ht.2.2.2.1 hb.2.2.2.1, ihr ht.2.2.2.2 hb.2.2.2.2⟩

mutual

theorem Stmt.eq_of_slots : (s s' : Stmt) → s.untyped = s'.untyped → s.unbound = s'.unbound → s = s'
  | .assign .., s', ht, hb => by
    cases s' <;> simp only [Stmt.untyped, Stmt.unbound, Stmt.assign.injEq, reduceCtorEq] at ht hb ⊢
    exact ⟨ht.1, Expr.eq_of_slots ht.2 hb.2⟩
  | .call .., s', ht, _ | .input .., s', ht, _ | .empty _, s', ht, _ => by
    cases s' <;> first | exact ht | cases ht
  | .output .., s', ht, hb => by
    cases s' <;> simp only [Stmt.untyped, Stmt.unbound, Stmt.output.injEq, reduceCtorEq] at ht hb ⊢
    exact ⟨ht.1, Expr.eq_of_slots ht.2 hb.2⟩
  | .begin _ ss, s', ht, hb => by
    cases s' <;> simp only [Stmt.untyped, Stmt.unbound, Stmt.begin.injEq, reduceCtorEq] at ht hb ⊢
    exact ⟨ht.1, Stmt.eq_of_slotsList ss _ ht.2 hb.2⟩
  | .if _ _ b, s', ht, hb => by
    cases s' <;> simp only [Stmt.untyped, Stmt.unbound, Stmt.if.injEq, reduceCtorEq] at ht hb ⊢
    exact ⟨ht.1, Expr.eq_of_slots ht.2.1 hb.2.1, Stmt.eq_of_slots b _ ht.2.2 hb.2.2⟩
  | .while _ _ b, s', ht, hb => by
    cases s' <;> simp only [Stmt.untyped, Stmt.unbound, Stmt.while.injEq, reduceCtorEq] at ht hb ⊢
    exact ⟨ht.1, Expr.eq_of_slots ht.2.1 hb.2.1, Stmt.eq_of_slots b _ ht.2.2 hb.2.2⟩

theorem Stmt.eq_of_slotsList : (ss ss' : List Stmt) → Stmt.untypedList ss = Stmt.untypedList ss' →
    Stmt.unboundList ss = Stmt.unboundList ss' → ss = ss'
  | [], ss', ht, _ => by
    cases ss' with
    | nil => rfl
    | cons => cases ht
  | s :: ss, ss', ht, hb => by
    cases ss' with
    | nil => cases ht
    | cons =>
      simp only [Stmt.untypedList, Stmt.unboundList, List.cons.injEq] at ht hb ⊢
      exact ⟨Stmt.eq_of_slots s _ ht.1 hb.1, Stmt.eq_of_slotsList ss _ ht.2 hb.2⟩

end

theorem DeclHead.eq_of_slots {head head' : DeclHead} (ht : head.untyped = head'.untyped)
    (hb : head.unbound = head'.unbound) : head = head' := by
  cases head
  cases head'
  simp_all [DeclHead.untyped, DeclHead.unbound]

mutual

theorem Decl.eq_of_slots : (d d' : Decl) → d.untyped = d'.untyped → d.unbound = d'.unbound → d = d'
  | .const .., d', ht, hb => by
    cases d' <;> simp only [Decl.untyped, Decl.unbound, Decl.const.injEq, reduceCtorEq] at ht hb ⊢
    exact ⟨DeclHead.eq_of_slots ht.1 hb.1, ht.2⟩
  | .var _, d', ht, hb => by
    cases d' <;> simp only [Decl.untyped, Decl.unbound, Decl.var.injEq, reduceCtorEq] at ht hb ⊢
    exact DeclHead.eq_of_slots ht hb
  | .procedure _ ds s, d', ht, hb => by
    cases d' <;>
      simp only [Decl.untyped, Decl.unbound, Decl.procedure.injEq, reduceCtorEq] at ht hb ⊢
    exact ⟨DeclHead.eq_of_slots ht.1 hb.1, Decl.eq_of_slotsList ds _ ht.2.1 hb.2.1,
      Stmt.eq_of_slots s _ ht.2.2 hb.2.2⟩

theorem Decl.eq_of_slotsList : (ds ds' : List Decl) → Decl.untypedList ds = Decl.untypedList ds' →
    Decl.unboundList ds = Decl.unboundList ds' → ds = ds'
  | [], ds', ht, _ => by
    cases ds' with
    | nil => rfl
    | cons => cases ht
  | d :: ds, ds', ht, hb => by
    cases ds' with
    | nil => cases ht
    | cons =>
      simp only [Decl.untypedList, Decl.unboundList, List.cons.injEq] at ht hb ⊢
      exact ⟨Decl.eq_of_slots d _ ht.1 hb.1, Decl.eq_of_slotsList ds _ ht.2 hb.2⟩

end

theorem Program.eq_of_slots {p q : Program} (ht : p.untyped = q.untyped)
    (hb : p.unbound = q.unbound) : p = q := by
  obtain ⟨⟨ds, s⟩, token, count⟩ := p
  obtain ⟨⟨ds', s'⟩, token', count'⟩ := q
  simp only [untyped, unbound, Block.untyped, Block.unbound, mk.injEq, Block.mk.injEq] at ht hb ⊢
  exact ⟨⟨Decl.eq_of_slotsList ds ds' ht.1.1 hb.1.1, Stmt.eq_of_slots s s' ht.1.2 hb.1.2⟩, ht.2⟩

/-! ## Resolution -/

/-- **Resolving a resolved program changes nothing**, with whatever types it has been given since. -/
theorem Program.resolve_again {source : String} {p₀ p q : Program}
    (hsource : Program.ofSource source = .ok p₀) (hresolve : p₀.resolve = .done p ())
    (hq : q.untyped = p.untyped) : q.resolve = .done q () := by
  have hdistinct : p₀.Distinct := ((Program.ofSource_spec source).of_ok hsource).2.1
  have hbare : q.bare = p₀.bare := by
    have hsame := ((Program.scans_resolve hdistinct).tree (by rw [hresolve]; rfl)).1
    rw [hresolve, Walk.done_tree] at hsame
    exact (Program.bare_of_untyped_eq hq).trans (congrArg Program.untyped hsame)
  obtain ⟨hfault, htree⟩ := Program.resolve_of_bare_eq hbare
  rw [hresolve] at hfault htree
  replace hfault : q.resolve.fault = none := hfault
  have htypes := (Program.scans_resolve (Program.distinct_of_bare_eq hbare hdistinct)).tree hfault
  calc q.resolve = .done q.resolve.tree () := by rw [Walk.done, ← hfault]
    _ = .done q () := by rw [Program.eq_of_slots ((htree hfault).trans hq.symm) htypes.1]

/-! ## Analysis -/

/-- **Analysis is idempotent.**  Over a program that it has accepted no pass of a new engine fails
or fills a slot, and a second analysis makes two passes and leaves the program as it is. -/
theorem Program.analyze_idempotent {source : String} {p₀ q : Program} {n : Nat}
    (hsource : Program.ofSource source = .ok p₀) (h : p₀.analyze = (q, .ok n)) :
    (∀ flags strict, ∃ s, (Engine.ofProgram q).afterPasses q flags = (s, q) ∧
      s.pass strict q = .done q s ∧ s.changed = false) ∧
    q.analyze = (q, .ok 2) := by
  obtain ⟨p, hresolve, hfresh, htyping⟩ :=
    Program.typing_of_analyze hsource (congrArg Prod.snd h)
  rw [h] at htyping
  have hnumbered := hfresh.numbered.of_untyped htyping.same
  constructor
  · exact fun flags strict => ⟨_, Engine.afterPasses_of_wellTyped hnumbered htyping.wellTyped flags,
      Engine.pass_of_wellTyped hnumbered htyping.wellTyped strict, Engine.changed_ofProgram q⟩
  · rw [Program.analyze, Program.resolve_again hsource hresolve htyping.same]
    simp only [Walk.done, Program.inferTypes_of_wellTyped hnumbered htyping.wellTyped]
    rfl

/-- Inside `copy` the name `x` is a constant; the type of `y` is that of the variable `x`, and known
only in the third pass. -/
def copiedInside : String :=
  "var x, y, z;
   procedure copy; const x = true; if x then y := z;
   begin z := x; call copy; ! x - 1 end."

theorem copiedInside_idempotent :
    ∃ p₀ q, Program.ofSource copiedInside = .ok p₀ ∧ p₀.analyze = (q, .ok 4) ∧
      q.analyze = (q, .ok 2) ∧
      ∃ s, (Engine.ofProgram q).afterPasses q [false, true] = (s, q) ∧
        s.pass false q = .done q s ∧ s.changed = false := by
  have hcheck : (match Program.ofSource copiedInside with
      | .ok p₀ => decide (p₀.analyze.2 = .ok 4)
      | .error _ => false) = true := by decide +kernel
  split at hcheck
  · rename_i p₀ hsource
    have hanalyze : p₀.analyze = (p₀.analyze.1, .ok 4) := Prod.ext rfl (of_decide_eq_true hcheck)
    obtain ⟨hpasses, hagain⟩ := Program.analyze_idempotent hsource hanalyze
    exact ⟨p₀, _, hsource, hanalyze, hagain, hpasses [false, true] false⟩
  · cases hcheck

end PLZero
