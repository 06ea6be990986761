import PLZero.Proofs.Tree.Tokens
import PLZero.Proofs.Tree.Walk
import PLZero.Proofs.Typing.Rules
import PLZero.Proofs.Scope.Nested

/-!
# Uses of names and the blocks around them

* `Program.sites` — the blocks of a program, each with what the blocks around it declare, in the
  order in which names are resolved: procedure bodies in source order, then the block itself.
* `Program.uses` — the uses of names, in that order, each with the blocks around it.
* `Program.unbound` — the tree with the slots emptied that resolution fills.
* `Program.agree_bare` — what resolution does depends neither on these slots nor on types.
-/

namespace PLZero

/-! ## Uses -/

/-- The uses of names in an expression. -/
def Expr.idents : Expr → List Ident
  | .literal .. => []
  | .use ident _ => [ident]
  | .binary _ _ _ lhs rhs => lhs.idents ++ rhs.idents

mutual

/-- The uses of names in a statement, the target before the expression. -/
def Stmt.idents : Stmt → List Ident
  | .assign target expr => [target] ++ expr.idents
  | .call _ target => [target]
  | .input _ target => [target]
  | .output _ expr => expr.idents
  | .begin _ stmts => Stmt.identsList stmts
  | .if _ guard body => guard.idents ++ body.idents
  | .while _ guard body => guard.idents ++ body.idents
  | .empty _ => []

def Stmt.identsList : List Stmt → List Ident
  | [] => []
  | s :: ss => s.idents ++ Stmt.identsList ss

end

/-- What the blocks around a place declare, the innermost block first. -/
abbrev Chain := List (List Decl)

/-- The declaration of a name in the innermost block that has one. -/
def Chain.find? (chain : Chain) (name : String) : Option Decl :=
  chain.findSome? fun ds => ds.find? fun d => d.name == name

/-- A block inside others. -/
structure Site where
  decls : List Decl
  /-- The blocks around it: one for each procedure that it is inside, and last the program's. -/
  outer : Chain
  stmt : Stmt

def Site.chain (site : Site) : Chain := site.decls :: site.outer

/-- A use of a name, with the blocks around it. -/
structure Use where
  ident : Ident
  chain : Chain

namespace Use

def declared (u : Use) : Bool := (u.chain.find? u.ident.name).isSome

/-- The first use of a name that no block around it declares. -/
def firstUndeclared (uses : List Use) : Option Use := uses.find? fun u => !u.declared

end Use

def Site.uses (site : Site) : List Use := site.stmt.idents.map fun ident => ⟨ident, site.chain⟩

mutual

/-- The blocks inside a declaration. -/
def Decl.sites (outer : Chain) : Decl → List Site
  | .procedure _ decls stmt => Decl.sitesList (decls :: outer) decls ++ [⟨decls, outer, stmt⟩]
  | _ => []

def Decl.sitesList (outer : Chain) : List Decl → List Site
  | [] => []
  | d :: ds => d.sites outer ++ Decl.sitesList outer ds

end

/-- A block and the blocks inside it, which come first. -/
def Block.sites (outer : Chain) (b : Block) : List Site :=
  Decl.sitesList (b.decls :: outer) b.decls ++ [⟨b.decls, outer, b.stmt⟩]

namespace Program

def sites (p : Program) : List Site := p.block.sites []

def uses (p : Program) : List Use := p.sites.flatMap Site.uses

end Program

mutual

theorem Decl.flatMap_sites (outer : Chain) :
    (d : Decl) → (d.sites outer).flatMap (fun site => site.stmt.exprs) = d.exprs
  | .const .. | .var _ => rfl
  | .procedure _ decls stmt => by
    rw [Decl.sites, List.flatMap_append, List.flatMap_singleton,
      Decl.flatMap_sitesList (decls :: outer) decls, Decl.exprs]

theorem Decl.flatMap_sitesList (outer : Chain) : (ds : List Decl) →
    (Decl.sitesList outer ds).flatMap (fun site => site.stmt.exprs) = Decl.exprsList ds
  | [] => rfl
  | d :: ds => by
    rw [Decl.sitesList, List.flatMap_append, Decl.flatMap_sites outer d,
      Decl.flatMap_sitesList outer ds, Decl.exprsList]

end

/-- Every expression of a program stands in one of its blocks. -/
theorem Program.flatMap_sites (p : Program) :
    p.sites.flatMap (fun site => site.stmt.exprs) = p.expressions := by
  rw [Program.sites, Block.sites, List.flatMap_append, List.flatMap_singleton,
    Decl.flatMap_sitesList, Program.expressions]

/-! ## Trees before resolution -/

def Ident.unbound (ident : Ident) : Ident := { ident with decl := none, nest := none }

def Expr.unbound : Expr → Expr
  | .literal token ty value => .literal token ty value
  | .use ident ty => .use ident.unbound ty
  | .binary token ty op lhs rhs => .binary token ty op lhs.unbound rhs.unbound

mutual

def Stmt.unbound : Stmt → Stmt
  | .assign target expr => .assign target.unbound expr.unbound
  | .call token target => .call token target.unbound
  | .input token target => .input token target.unbound
  | .output token expr => .output token expr.unbound
  | .begin token stmts => .begin token (Stmt.unboundList stmts)
  | .if token guard body => .if token guard.unbound body.unbound
  | .while token guard body => .while token guard.unbound body.unbound
  | .empty token => .empty token

def Stmt.unboundList : List Stmt → List Stmt
  | [] => []
  | s :: ss => s.unbound :: Stmt.unboundList ss

end

def DeclHead.unbound (head : DeclHead) : DeclHead := { head with nest := none }

mutual

def Decl.unbound : Decl → Decl
  | .const head value => .const head.unbound value
  | .var head => .var head.unbound
  | .procedure head decls stmt => .procedure head.unbound (Decl.unboundList decls) stmt.unbound

def Decl.unboundList : List Decl → List Decl
  | [] => []
  | d :: ds => d.unbound :: Decl.unboundList ds

end

def Block.unbound (b : Block) : Block := ⟨Decl.unboundList b.decls, b.stmt.unbound⟩

def Program.unbound (p : Program) : Program := { p with block := p.block.unbound }

/-- The tree with all slots emptied. -/
def Program.bare (p : Program) : Program := p.unbound.untyped

theorem Decl.unboundList_eq_map (ds : List Decl) : Decl.unboundList ds = ds.map Decl.unbound := by
  induction ds with
  | nil => rfl
  | cons d ds ih => rw [Decl.unboundList, ih, List.map_cons]

/-! ## Slots have no part in resolution -/

/-- Both walks stop at the same fault, or the trees are the same but for their types. -/
abbrev Walk.AgreeBare {α : Type} (untyped : α → α) (w w' : Binding α) : Prop :=
  Walk.Agree Eq (fun _ _ => True) (fun a a' => a = untyped a') w w'

section Slots

variable (t : Table)

theorem Ident.agree_bare (ident : Ident) :
    Walk.AgreeBare id (ident.unbound.resolve t) (ident.resolve t) := by
  unfold Ident.resolve
  rw [show ident.unbound.name = ident.name from rfl]
  cases t.get? ident.name with
  | none => exact .stop rfl
  | some symbol => exact .done rfl trivial

theorem Expr.agree_bare (e : Expr) :
    Walk.AgreeBare Expr.untyped (e.unbound.untyped.resolve t) (e.resolve t) := by
  induction e with
  | literal => exact .done rfl trivial
  | use ident ty =>
    refine (ident.agree_bare t).map fun i i' hi => ?_
    rw [hi]
    rfl
  | binary token ty op lhs rhs ihl ihr =>
    refine ihl.andThen (fun _ _ _ => ihr) fun a a' b b' ha hb => ?_
    rw [ha, hb, Expr.untyped]

mutual

theorem Stmt.agree_bare : (s : Stmt) →
    Walk.AgreeBare Stmt.untyped (s.unbound.untyped.resolve t) (s.resolve t)
  | .assign target expr =>
    (target.agree_bare t).andThen (fun _ _ _ => expr.agree_bare t) fun a a' b b' ha hb => by
      rw [ha, hb, Stmt.untyped, id]
  | .call token target => (target.agree_bare t).map fun a a' ha => by rw [ha, Stmt.untyped, id]
  | .input token target => (target.agree_bare t).map fun a a' ha => by rw [ha, Stmt.untyped, id]
  | .output token expr => (expr.agree_bare t).map fun a a' ha => by rw [ha, Stmt.untyped]
  | .begin token stmts => (Stmt.agree_bareList stmts).map fun a a' ha => by rw [ha, Stmt.untyped]
  | .if token guard body | .while token guard body =>
    (guard.agree_bare t).andThen (fun _ _ _ => body.agree_bare) fun a a' b b' ha hb => by
      rw [ha, hb, Stmt.untyped]
  | .empty token => .done rfl trivial

theorem Stmt.agree_bareList : (ss : List Stmt) →
    Walk.AgreeBare Stmt.untypedList (Stmt.resolveList t (Stmt.untypedList (Stmt.unboundList ss)))
      (Stmt.resolveList t ss)
  | [] => .done rfl trivial
  | s :: ss =>
    s.agree_bare.andThen (fun _ _ _ => Stmt.agree_bareList ss) fun a a' b b' ha hb => by
      rw [ha, hb, Stmt.untypedList]

end

end Slots

/-- A declaration is entered under its name, number, kind and line. -/
theorem Table.insert_bare (d : Decl) : Table.insert d.unbound.untyped = Table.insert d := by
  cases d <;> rfl

theorem Table.agree_enter_bare (t : Table) (ds : List Decl) :
    Walk.Agree Eq Eq (fun _ _ => True) (t.enter (Decl.untypedList (Decl.unboundList ds)))
      (t.enter ds) := by
  induction ds generalizing t with
  | nil => exact .done trivial rfl
  | cons d ds ih =>
    rw [Decl.unboundList, Decl.untypedList, Table.enter, Table.enter, Table.insert_bare]
    cases Table.insert d t with
    | ok _ t' => exact (ih t').map fun _ _ _ => trivial
    | error f t' => exact .stop rfl

theorem Table.agree_resolveBlock_bare (t : Table) {ds : List Decl} {s : Stmt}
    {bodies bodies' : Table → Binding (List Decl)}
    (hbodies : ∀ t, Walk.AgreeBare Decl.untypedList (bodies t) (bodies' t)) :
    Walk.AgreeBare Block.untyped
      (t.resolveBlockIn (Decl.untypedList (Decl.unboundList ds)) s.unbound.untyped bodies)
      (t.resolveBlockIn ds s bodies') := by
  have henter := t.agree_enter_bare ds
  unfold Table.resolveBlockIn
  generalize t.enter (Decl.untypedList (Decl.unboundList ds)) = w at henter
  generalize t.enter ds = w' at henter
  cases henter with
  | @done _ _ u u' _ hu =>
    subst hu
    refine (hbodies u).andThen (fun _ _ _ => s.agree_bare u) fun a a' b b' ha hb => ?_
    rw [ha, hb, Block.untyped]
  | stop hfault => exact .stop hfault

mutual

theorem Decl.agree_bare (t : Table) : (d : Decl) →
    Walk.AgreeBare Decl.untyped (d.unbound.untyped.resolveIn t) (d.resolveIn t)
  | .const .. | .var _ => .done rfl trivial
  | .procedure head decls stmt => by
    rw [Decl.unbound, Decl.untyped, Decl.resolveIn, Decl.resolveIn]
    refine (t.push.2.agree_resolveBlock_bare fun u => Decl.agree_bareList u decls).map
      fun b b' hb => ?_
    rw [hb]
    rfl

theorem Decl.agree_bareList (t : Table) : (ds : List Decl) →
    Walk.AgreeBare Decl.untypedList (Decl.resolveInList t (Decl.untypedList (Decl.unboundList ds)))
      (Decl.resolveInList t ds)
  | [] => .done rfl trivial
  | d :: ds =>
    (Decl.agree_bare t d).andThen (fun _ _ _ => Decl.agree_bareList t ds) fun a a' b b' ha hb => by
      rw [ha, hb, Decl.untypedList]

end

/-- **Resolution depends on no slot**: emptying them first leads to the same fault, or to the same
tree without its types. -/
theorem Program.agree_bare (p : Program) :
    Walk.AgreeBare Program.untyped p.bare.resolve p.resolve := by
  rw [p.resolve_eq, p.bare.resolve_eq]
  refine (Table.empty.agree_resolveBlock_bare fun t => Decl.agree_bareList t p.block.decls).map
    fun b b' hb => ?_
  rw [hb]
  rfl

/-- Trees that are the same but for their slots are resolved alike. -/
theorem Program.resolve_of_bare_eq {p q : Program} (h : p.bare = q.bare) :
    p.resolve.fault = q.resolve.fault ∧
      (p.resolve.fault = none → p.resolve.tree.untyped = q.resolve.tree.untyped) := by
  have hp := p.agree_bare
  have hq := q.agree_bare
  rw [← h] at hq
  generalize p.bare.resolve = w at hp hq
  generalize p.resolve = wp at hp
  generalize q.resolve = wq at hq
  cases hp with
  | done hp _ =>
    cases hq with
    | done hq _ => exact ⟨rfl, fun _ => hp.symm.trans hq⟩
  | stop hp =>
    cases hq with
    | stop hq =>
      refine ⟨congrArg some (hp.symm.trans hq), fun hnone => ?_⟩
      cases hnone

/-! ## Names declared twice -/

theorem Decl.name_bare (d : Decl) : d.unbound.untyped.name = d.name := by
  cases d <;> rfl

theorem Decl.names_bare (ds : List Decl) :
    (Decl.untypedList (Decl.unboundList ds)).map Decl.name = ds.map Decl.name := by
  induction ds with
  | nil => rfl
  | cons d ds ih =>
    rw [Decl.unboundList, Decl.untypedList, List.map_cons, List.map_cons, Decl.name_bare, ih]

mutual

theorem Decl.distinct_bare : (d : Decl) → (d.unbound.untyped.Distinct ↔ d.Distinct)
  | .const .. | .var _ => Iff.rfl
  | .procedure head decls stmt => by
    simp only [Decl.unbound, Decl.untyped, Decl.Distinct, Decl.names_bare, Decl.distinct_bareList]

theorem Decl.distinct_bareList : (ds : List Decl) →
    (Decl.DistinctList (Decl.untypedList (Decl.unboundList ds)) ↔ Decl.DistinctList ds)
  | [] => Iff.rfl
  | d :: ds => by
    simp only [Decl.unboundList, Decl.untypedList, Decl.DistinctList, Decl.distinct_bare d,
      Decl.distinct_bareList ds]

end

theorem Program.distinct_of_bare_eq {p q : Program} (h : p.bare = q.bare) (hq : q.Distinct) :
    p.Distinct := by
  have hiff (p : Program) : p.bare.Distinct ↔ p.Distinct := by
    constructor
    · intro hbare
      exact ⟨Decl.names_bare p.block.decls ▸ hbare.nodup, (Decl.distinct_bareList _).mp hbare.decls⟩
    · intro hp
      refine ⟨?_, (Decl.distinct_bareList _).mpr hp.decls⟩
      rw [show p.bare.block.decls = Decl.untypedList (Decl.unboundList p.block.decls) from rfl,
        Decl.names_bare]
      exact hp.nodup
  rw [← hiff p, h, hiff q]
  exact hq

end PLZero
