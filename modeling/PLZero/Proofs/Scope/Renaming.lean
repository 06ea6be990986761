import PLZero.Proofs.Tree.Renaming
import PLZero.Proofs.Tree.Walk
import PLZero.Proofs.Scope.Nested

/-!
# Resolving renamed programs

Two programs that match up to a renaming of their names, no two of which become one, are resolved
alike: into programs that still match, or into faults of one class.

* `Table.Alike` — the tables know names that are related by the same declarations.
* `Program.agree_resolve` — the result for programs.
-/

namespace PLZero

variable {r : String → String → Prop}

/-- The faults are of one class. -/
def ScopeFault.Same (f f' : ScopeFault) : Prop := f.diagnostic.SameVariant f'.diagnostic

/-! ## Tables -/

/-- Names that are related have the same declarations. -/
def Scope.Alike (r : String → String → Prop) (s s' : Scope) : Prop :=
  ∀ ⦃name name'⦄, r name name' → (s'.lookup name').map Symbol.decl = (s.lookup name).map Symbol.decl

def Table.Alike (r : String → String → Prop) (t t' : Table) : Prop :=
  List.Forall₂ (Scope.Alike r) t.scopes t'.scopes

namespace Table

variable {t t' : Table}

theorem alike_empty : Alike r Table.empty Table.empty := .cons (fun _ _ _ => rfl) .nil

theorem Alike.depth_eq (h : t.Alike r t') : t'.depth = t.depth := by
  rw [depth, depth, h.length_eq]

theorem Alike.push (h : t.Alike r t') : t.push.2.Alike r t'.push.2 := .cons (fun _ _ _ => rfl) h

theorem findSome?_alike {ss ss' : List Scope} (h : List.Forall₂ (Scope.Alike r) ss ss')
    {name name' : String} (hr : r name name') :
    (ss'.findSome? fun s => s.lookup name').map Symbol.decl =
      (ss.findSome? fun s => s.lookup name).map Symbol.decl := by
  induction h with
  | nil => rfl
  | @cons s s' ss ss' hs _ ih =>
    have hname := hs hr
    simp only [List.findSome?_cons]
    cases hx : s.lookup name with
    | none =>
      rw [hx, Option.map_none, Option.map_eq_none_iff] at hname
      rw [hname]
      exact ih
    | some symbol =>
      rw [hx, Option.map_some, Option.map_eq_some_iff] at hname
      obtain ⟨symbol', hy, hdecl⟩ := hname
      rw [hy]
      exact congrArg some hdecl

theorem Alike.get? (h : t.Alike r t') {name name' : String} (hr : r name name') :
    (t'.get? name').map Symbol.decl = (t.get? name).map Symbol.decl :=
  findSome?_alike h hr

theorem Alike.insert (hr : Relator.BiUnique r) (h : t.Alike r t') {d d' : Decl}
    (hd : d.Renames r d') :
    (∃ symbol symbol' u u', Table.insert d t = .ok symbol u ∧ Table.insert d' t' = .ok symbol' u' ∧
      u.Alike r u') ∨
    ∃ f f', Table.insert d t = .error f t ∧ Table.insert d' t' = .error f' t' ∧ f.Same f' := by
  have hname : r d.name d'.name := hd.head.token
  have hdepth := h.depth_eq
  obtain ⟨scopes⟩ := t
  obtain ⟨scopes'⟩ := t'
  cases h with
  | nil => exact .inr ⟨_, _, rfl, rfl, rfl⟩
  | @cons scope scope' scopes scopes' hscope hscopes =>
    have hlookup := hscope hname
    rw [insert_cons, insert_cons]
    cases hx : scope.lookup d.name with
    | some symbol =>
      rw [hx, Option.map_some, Option.map_eq_some_iff] at hlookup
      obtain ⟨symbol', hy, -⟩ := hlookup
      rw [hy]
      exact .inr ⟨_, _, rfl, rfl, rfl⟩
    | none =>
      rw [hx, Option.map_none, Option.map_eq_none_iff] at hlookup
      rw [hlookup]
      refine .inl ⟨_, _, _, _, rfl, rfl, .cons (fun name name' hrel => ?_) hscopes⟩
      have hiff : name = d.name ↔ name' = d'.name := Relator.rel_eq hr hrel hname
      by_cases heq : name = d.name
      · simp [heq, hiff.mp heq, Table.symbolOf, hd.head.id]
      · simp only [List.lookup_cons, beq_false_of_ne heq, beq_false_of_ne (mt hiff.mpr heq)]
        exact hscope hrel

end Table

/-! ## Uses -/

/-- The walks give results with `R`, or stop at faults of one class. -/
abbrev Walk.AgreeBinding {α : Type} (R : α → α → Prop) (w w' : Binding α) : Prop :=
  Walk.Agree ScopeFault.Same (fun _ _ => True) R w w'

section Uses

variable {t t' : Table}

theorem Ident.agree_resolve (h : t.Alike r t') {ident ident' : Ident}
    (hident : ident.Matches (Token.NameRenames r) ident') :
    Walk.AgreeBinding (Ident.Matches (Token.NameRenames r)) (ident.resolve t)
      (ident'.resolve t') := by
  have hname : r ident.name ident'.name := hident.token
  have hget := h.get? hname
  unfold Ident.resolve
  rw [h.depth_eq]
  cases hx : t.get? ident.name with
  | none =>
    rw [hx, Option.map_none, Option.map_eq_none_iff] at hget
    rw [hget]
    exact .stop rfl
  | some symbol =>
    rw [hx, Option.map_some, Option.map_eq_some_iff] at hget
    obtain ⟨symbol', hy, hdecl⟩ := hget
    rw [hy]
    exact .done ⟨hident.token, congrArg some hdecl, rfl⟩ trivial

theorem Expr.agree_resolve (h : t.Alike r t') {e e' : Expr} (he : e.Renames r e') :
    Walk.AgreeBinding (Expr.Renames r) (e.resolve t) (e'.resolve t') := by
  induction he with
  | literal => exact .done (.literal trivial) trivial
  | use hident => exact (Ident.agree_resolve h hident).map fun _ _ hi => .use hi
  | binary _ _ _ ihl ihr =>
    exact ihl.andThen (fun _ _ _ => ihr) fun _ _ _ _ hl hr => .binary trivial hl hr

mutual

theorem Stmt.agree_resolve (h : t.Alike r t') {s s' : Stmt} : s.Renames r s' →
    Walk.AgreeBinding (Stmt.Renames r) (s.resolve t) (s'.resolve t')
  | .assign htarget he =>
    (Ident.agree_resolve h htarget).andThen (fun _ _ _ => Expr.agree_resolve h he)
      fun _ _ _ _ hi he => .assign hi he
  | .call _ htarget => (Ident.agree_resolve h htarget).map fun _ _ hi => .call trivial hi
  | .input _ htarget => (Ident.agree_resolve h htarget).map fun _ _ hi => .input trivial hi
  | .output _ he => (Expr.agree_resolve h he).map fun _ _ he => .output trivial he
  | .begin _ hss => (Stmt.agree_resolveList h hss).map fun _ _ hss => .begin trivial hss
  | .if _ hg hb =>
    (Expr.agree_resolve h hg).andThen (fun _ _ _ => Stmt.agree_resolve h hb)
      fun _ _ _ _ hg hb => .if trivial hg hb
  | .while _ hg hb =>
    (Expr.agree_resolve h hg).andThen (fun _ _ _ => Stmt.agree_resolve h hb)
      fun _ _ _ _ hg hb => .while trivial hg hb
  | .empty _ => .done (.empty trivial) trivial

theorem Stmt.agree_resolveList (h : t.Alike r t') {ss ss' : List Stmt} : Stmt.RenamesList r ss ss' →
    Walk.AgreeBinding (Stmt.RenamesList r) (Stmt.resolveList t ss) (Stmt.resolveList t' ss')
  | .nil => .done .nil trivial
  | .cons hs hss =>
    (Stmt.agree_resolve h hs).andThen (fun _ _ _ => Stmt.agree_resolveList h hss)
      fun _ _ _ _ hs hss => .cons hs hss

end

end Uses

/-! ## Declarations -/

theorem Decl.Matches.atDepth {N T : Token → Token → Prop} {d d' : Decl} (depth : Nat)
    (h : d.Matches N T d') : (d.atDepth depth).Matches N T (d'.atDepth depth) := by
  cases h with
  | const h => exact .const ⟨h.id, h.token, h.ty, rfl⟩
  | var h => exact .var ⟨h.id, h.token, h.ty, rfl⟩
  | procedure h hds hs => exact .procedure ⟨h.id, h.token, h.ty, rfl⟩ hds hs

namespace Table

theorem agree_enter (hr : Relator.BiUnique r) {t t' : Table} (h : t.Alike r t')
    {ds ds' : List Decl} (hds : Decl.RenamesList r ds ds') :
    Walk.Agree ScopeFault.Same (Alike r) (Decl.RenamesList r)
      (t.enter ds) (t'.enter ds') := by
  induction ds generalizing t t' ds' with
  | nil =>
    cases hds
    exact .done .nil h
  | cons d ds ih =>
    cases hds with
    | @cons _ d' _ ds' hd hds =>
      rw [enter, enter]
      obtain ⟨symbol, symbol', u, u', hinsert, hinsert', hu⟩ | ⟨f, f', hinsert, hinsert', hfault⟩ :=
        h.insert hr hd
      · rw [hinsert, hinsert']
        simp only [hu.depth_eq]
        exact (ih hu hds).map fun _ _ hes => .cons (hd.atDepth _) hes
      · rw [hinsert, hinsert']
        exact .stop hfault

theorem agree_resolveBlock (hr : Relator.BiUnique r) {t t' : Table} (h : t.Alike r t')
    {ds ds' : List Decl} {s s' : Stmt} {bodies bodies' : Table → Binding (List Decl)}
    (hds : Decl.RenamesList r ds ds') (hs : s.Renames r s')
    (hbodies : ∀ t t', t.Alike r t' →
      Walk.AgreeBinding (Decl.RenamesList r) (bodies t) (bodies' t')) :
    Walk.AgreeBinding (Block.Renames r) (t.resolveBlockIn ds s bodies)
      (t'.resolveBlockIn ds' s' bodies') := by
  have henter := agree_enter hr h hds
  unfold resolveBlockIn
  generalize t.enter ds = w at henter
  generalize t'.enter ds' = w' at henter
  cases henter with
  | done _ hentered =>
    exact (hbodies _ _ hentered).andThen (fun _ _ _ => Stmt.agree_resolve hentered hs)
      fun _ _ _ _ hds hs => ⟨hds, hs⟩
  | stop hfault => exact .stop hfault

end Table

mutual

theorem Decl.agree_resolve (hr : Relator.BiUnique r) {t t' : Table} (h : t.Alike r t')
    {d d' : Decl} : d.Renames r d' →
    Walk.AgreeBinding (Decl.Renames r) (d.resolveIn t) (d'.resolveIn t')
  | .const hhead => by
    rw [Decl.resolveIn, Decl.resolveIn, h.depth_eq]
    · exact .done (Decl.Matches.atDepth _ (.const hhead)) trivial
    all_goals simp
  | .var hhead => by
    rw [Decl.resolveIn, Decl.resolveIn, h.depth_eq]
    · exact .done (Decl.Matches.atDepth _ (.var hhead)) trivial
    all_goals simp
  | .procedure hhead hds hs => by
    rw [Decl.resolveIn, Decl.resolveIn, h.depth_eq]
    refine (Table.agree_resolveBlock hr h.push hds hs fun u u' hu =>
      Decl.agree_resolveList hr hu hds).map fun b b' hb => ?_
    exact Decl.Matches.atDepth _ (.procedure hhead hb.decls hb.stmt)

theorem Decl.agree_resolveList (hr : Relator.BiUnique r) {t t' : Table} (h : t.Alike r t')
    {ds ds' : List Decl} : Decl.RenamesList r ds ds' →
    Walk.AgreeBinding (Decl.RenamesList r) (Decl.resolveInList t ds) (Decl.resolveInList t' ds')
  | .nil => .done .nil trivial
  | .cons hd hds =>
    (Decl.agree_resolve hr h hd).andThen (fun _ _ _ => Decl.agree_resolveList hr h hds)
      fun _ _ _ _ hd hds => .cons hd hds

end

theorem Program.agree_resolve (hr : Relator.BiUnique r) {p p' : Program} (h : p.Renames r p') :
    Walk.AgreeBinding (Program.Renames r) p.resolve p'.resolve := by
  rw [p.resolve_eq, p'.resolve_eq]
  exact (Table.agree_resolveBlock hr Table.alike_empty h.block.decls h.block.stmt fun _ _ ht =>
    Decl.agree_resolveList hr ht h.block.decls).map fun _ _ hb => ⟨hb, trivial, h.declCount⟩

end PLZero
