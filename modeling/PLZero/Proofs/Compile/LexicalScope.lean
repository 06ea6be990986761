import PLZero.Proofs.Compile.Faults
import PLZero.Proofs.Scope.Uses

/-!
# Lexical scoping

Resolution binds each use of a name to the declaration of that name in the innermost block around
it.

* `Table.Reflects` — the scopes of a table hold what the blocks around a place declare.
* `Walk.Scans` — a walk that meets uses of names in a given order: it stops at the first without a
  declaration, and if there is none, its tree has a given property.
* `Use.Lexical` — a use that is bound as lexical scoping has it.
* `Program.resolve_lexical` — the result for parsed programs, whatever their slots hold.
-/

namespace PLZero

/-! ## Blocks and scopes -/

/-- The scope holds the declarations of the block. -/
def Scope.Reflects (scope : Scope) (ds : List Decl) : Prop :=
  ∀ name, (scope.lookup name).map Symbol.decl =
    (ds.find? fun d => d.name == name).map fun d => d.head.id

/-- The scopes of the table hold the declarations of the blocks. -/
def Table.Reflects (t : Table) (chain : Chain) : Prop :=
  List.Forall₂ Scope.Reflects t.scopes chain

namespace Table

variable {t : Table} {chain : Chain}

theorem Reflects.depth_eq (h : t.Reflects chain) : t.depth = chain.length - 1 := by
  rw [Table.depth, h.length_eq]

theorem Reflects.get? (h : t.Reflects chain) (name : String) :
    (t.get? name).map Symbol.decl = (chain.find? name).map fun d => d.head.id := by
  unfold Reflects at h
  unfold Table.get? Chain.find?
  generalize t.scopes = scopes at h
  induction h with
  | nil => rfl
  | @cons scope ds scopes chain hscope _ ih =>
    have hname := hscope name
    rw [List.findSome?_cons, List.findSome?_cons]
    cases hfind : ds.find? fun d => d.name == name with
    | none =>
      rw [hfind, Option.map_none, Option.map_eq_none_iff] at hname
      rw [hname]
      exact ih
    | some d =>
      rw [hfind, Option.map_some, Option.map_eq_some_iff] at hname
      obtain ⟨symbol, hlookup, hdecl⟩ := hname
      rw [hlookup]
      exact congrArg some hdecl

/-- A new name is entered behind those that a scope holds. -/
theorem reflects_cons {scope : Scope} {ds : List Decl} {d : Decl} {symbol : Symbol}
    (h : scope.Reflects ds) (hnew : scope.lookup d.name = none)
    (hsymbol : symbol.decl = d.head.id) :
    Scope.Reflects ((d.name, symbol) :: scope) (ds ++ [d]) := by
  intro name
  rw [List.lookup_cons, List.find?_append, List.find?_singleton]
  have hname := h name
  by_cases heq : name = d.name
  · subst heq
    rw [hnew, Option.map_none, eq_comm, Option.map_eq_none_iff] at hname
    simp [hname, hsymbol]
  · have hne : (d.name == name) = false := beq_false_of_ne (Ne.symm heq)
    rw [beq_false_of_ne heq, hne]
    simpa using hname

/-- All declarations of a block, with names of their own, are entered. -/
theorem reflects_enter {scope : Scope} {scopes : List Scope} {ds entered : List Decl}
    (ht : t.scopes = scope :: scopes) (hinner : scope.Reflects entered)
    (houter : List.Forall₂ Scope.Reflects scopes chain) (hnodup : (ds.map Decl.name).Nodup)
    (hnew : ∀ d ∈ ds, scope.lookup d.name = none) :
    (t.enter ds).state.Reflects ((entered ++ ds) :: chain) := by
  induction ds generalizing t scope entered with
  | nil =>
    rw [List.append_nil, Table.Reflects, Table.enter, Walk.done, ht]
    exact .cons hinner houter
  | cons d ds ih =>
    rw [List.map_cons, List.nodup_cons] at hnodup
    rw [List.forall_mem_cons] at hnew
    rw [Table.enter, Table.insert_of_new ht hnew.1, List.append_cons]
    refine ih rfl (reflects_cons hinner hnew.1 rfl) hnodup.2 fun d' hd' => ?_
    have hne : d'.name ≠ d.name := fun heq => hnodup.1 (heq ▸ List.mem_map_of_mem hd')
    rw [List.lookup_cons, beq_false_of_ne hne]
    exact hnew.2 d' hd'

end Table

/-! ## Chains -/

/-- What uses of names depend on: the name of a declaration and its number. -/
def Decl.key (d : Decl) : String × Nat := (d.name, d.head.id)

/-- The blocks declare the same names with the same numbers. -/
def Chain.Similar (chain chain' : Chain) : Prop :=
  List.Forall₂ (fun ds ds' => ds.map Decl.key = ds'.map Decl.key) chain chain'

/-- The declarations of each block carry the number of blocks around it. -/
def Chain.Placed : Chain → Prop
  | [] => True
  | ds :: outer => (∀ d ∈ ds, d.head.nest = some outer.length) ∧ Placed outer

/-- The use has the number of the innermost declaration of its name, and the depth of its place. -/
def Ident.BindsIn (chain : Chain) (ident : Ident) : Prop :=
  ∃ d, chain.find? ident.name = some d ∧ ident.decl = some d.head.id ∧
    ident.nest = some (chain.length - 1)

namespace Chain

variable {chain chain' : Chain}

theorem Similar.find? (h : chain.Similar chain') (name : String) :
    (chain'.find? name).map Decl.key = (chain.find? name).map Decl.key := by
  have hkeys (ds : List Decl) : (ds.find? fun d => d.name == name).map Decl.key =
      (ds.map Decl.key).find? fun k => k.1 == name := by
    rw [List.find?_map]
    rfl
  unfold Chain.find?
  induction h with
  | nil => rfl
  | @cons ds ds' chain chain' hds _ ih =>
    have hhead := hkeys ds
    rw [hds, ← hkeys ds'] at hhead
    rw [List.findSome?_cons, List.findSome?_cons]
    cases hfind : ds.find? fun d => d.name == name with
    | none =>
      rw [hfind, Option.map_none, eq_comm, Option.map_eq_none_iff] at hhead
      rw [hhead]
      exact ih
    | some d =>
      rw [hfind, Option.map_some, eq_comm, Option.map_eq_some_iff] at hhead
      obtain ⟨d', hd', hkey⟩ := hhead
      rw [hd']
      exact congrArg some hkey

theorem Similar.bindsIn {ident : Ident} (h : chain.Similar chain') (hident : ident.BindsIn chain) :
    ident.BindsIn chain' := by
  obtain ⟨d, hfind, hdecl, hnest⟩ := hident
  have hkey := h.find? ident.name
  rw [hfind, Option.map_some, Option.map_eq_some_iff] at hkey
  obtain ⟨d', hfind', heq⟩ := hkey
  refine ⟨d', hfind', ?_, ?_⟩
  · rw [hdecl, (Prod.mk.inj heq).2]
  · rw [hnest, h.length_eq]

theorem Placed.of_append {inner outer : Chain} {ds : List Decl}
    (h : Placed (inner ++ ds :: outer)) : ∀ d ∈ ds, d.head.nest = some outer.length := by
  induction inner with
  | nil => exact h.1
  | cons _ inner ih => exact ih h.2

end Chain

theorem Decl.keys_of_unboundList {ds ds' : List Decl}
    (h : Decl.unboundList ds' = Decl.unboundList ds) : ds.map Decl.key = ds'.map Decl.key := by
  have hkey (ds : List Decl) : ds.map Decl.key = (Decl.unboundList ds).map Decl.key := by
    rw [Decl.unboundList_eq_map, List.map_map]
    refine List.map_congr_left fun d _ => ?_
    cases d <;> rfl
  rw [hkey ds, hkey ds', h]

/-- All blocks around the statement are at their depths, and its uses are bound in them. -/
structure Site.Lexical (site : Site) : Prop where
  placed : site.chain.Placed
  bindsIn : ∀ ident ∈ site.stmt.idents, ident.BindsIn site.chain

/-! ## Walks over uses -/

theorem Use.firstUndeclared_eq_none_iff {uses : List Use} :
    Use.firstUndeclared uses = none ↔
      ∀ u ∈ uses, ∃ ds ∈ u.chain, ∃ d ∈ ds, d.name = u.ident.name := by
  simp [Use.firstUndeclared, Use.declared, Chain.find?]

/-- The fault of a use that no block declares. -/
def Use.fault (u : Use) : ScopeFault := .undefined u.ident.token

/-- The walk comes to the uses in this order and stops at the first that is not declared.  If it
does not stop, its tree has `P`. -/
structure Walk.Scans {α : Type} (w : Binding α) (uses : List Use) (P : α → Prop) : Prop where
  fault : w.fault = (Use.firstUndeclared uses).map Use.fault
  tree : w.fault = none → P w.tree

namespace Walk.Scans

variable {α β γ : Type} {P : α → Prop} {Q : β → Prop} {R : γ → Prop} {w : Binding α}
  {uses uses' : List Use}

theorem done {a : α} (ha : P a) : (Walk.done a () : Binding α).Scans [] P := ⟨rfl, fun _ => ha⟩

theorem map {f : α → β} (hw : w.Scans uses P) (hf : ∀ a, P a → Q (f a)) : (w.map f).Scans uses Q :=
  ⟨hw.fault, fun hnone => hf _ (hw.tree hnone)⟩

theorem andThen {b : β} {next : Unit → Binding β} {join : α → β → γ} (hw : w.Scans uses P)
    (hnext : (next ()).Scans uses' Q) (hjoin : ∀ a b, P a → Q b → R (join a b)) :
    (w.andThen b next join).Scans (uses ++ uses') R := by
  have happend : Use.firstUndeclared (uses ++ uses') =
      (Use.firstUndeclared uses).or (Use.firstUndeclared uses') := List.find?_append
  have hfault := hw.fault
  cases hfirst : Use.firstUndeclared uses with
  | some u =>
    rw [hfirst, Option.map_some] at hfault
    have hstop : w.andThen b next join = .stop (join w.tree b) w.state u.fault := by
      simp only [Walk.andThen, hfault, Walk.stop]
    rw [hstop]
    refine ⟨by rw [happend, hfirst]; rfl, fun hnone => ?_⟩
    cases hnone
  | none =>
    rw [hfirst, Option.map_none] at hfault
    have hrest : w.andThen b next join = (next ()).map (join w.tree) := by
      simp only [Walk.andThen, hfault]
    have hjoined := hnext.map fun b hb => hjoin _ b (hw.tree hfault) hb
    rw [hrest]
    refine ⟨?_, hjoined.tree⟩
    rw [hjoined.fault, happend, hfirst, Option.none_or]

end Walk.Scans

section Uses

variable {t : Table} {chain : Chain}

/-- The result of a walk is the same tree but for slots, and its uses are bound in the chain. -/
theorem Ident.scans_resolve (ht : t.Reflects chain) (ident : Ident) :
    (ident.resolve t).Scans [⟨ident, chain⟩] fun i =>
      i.unbound = ident.unbound ∧ i.BindsIn chain := by
  have hget := ht.get? ident.name
  unfold Ident.resolve
  cases hfind : chain.find? ident.name with
  | none =>
    rw [hfind, Option.map_none, Option.map_eq_none_iff] at hget
    rw [hget]
    refine ⟨?_, fun hnone => ?_⟩
    · simp [Use.firstUndeclared, Use.declared, hfind, Use.fault, Walk.stop]
    · cases hnone
  | some d =>
    rw [hfind, Option.map_some, Option.map_eq_some_iff] at hget
    obtain ⟨symbol, hsymbol, hdecl⟩ := hget
    rw [hsymbol]
    refine ⟨?_, fun _ => ⟨rfl, d, hfind, congrArg some hdecl, congrArg some ht.depth_eq⟩⟩
    simp [Use.firstUndeclared, Use.declared, hfind, Walk.done]

theorem Expr.scans_resolve (ht : t.Reflects chain) (e : Expr) :
    (e.resolve t).Scans (e.idents.map (⟨·, chain⟩)) fun e' =>
      e'.unbound = e.unbound ∧ ∀ ident ∈ e'.idents, ident.BindsIn chain := by
  induction e with
  | literal => exact .done ⟨rfl, by simp [Expr.idents]⟩
  | use ident ty =>
    refine (Ident.scans_resolve ht ident).map fun i hi => ⟨?_, ?_⟩
    · rw [Expr.unbound, hi.1, Expr.unbound]
    · simpa [Expr.idents] using hi.2
  | binary token ty op lhs rhs ihl ihr =>
    rw [Expr.idents, List.map_append]
    refine ihl.andThen ihr fun a b ha hb => ⟨?_, ?_⟩
    · rw [Expr.unbound, ha.1, hb.1, Expr.unbound]
    · rw [Expr.idents, List.forall_mem_append]
      exact ⟨ha.2, hb.2⟩

mutual

theorem Stmt.scans_resolve (ht : t.Reflects chain) : (s : Stmt) →
    (s.resolve t).Scans (s.idents.map (⟨·, chain⟩)) fun s' =>
      s'.unbound = s.unbound ∧ ∀ ident ∈ s'.idents, ident.BindsIn chain
  | .assign target expr => by
    rw [Stmt.idents, List.map_append]
    refine (Ident.scans_resolve ht target).andThen (Expr.scans_resolve ht expr)
      fun a b ha hb => ⟨?_, ?_⟩
    · rw [Stmt.unbound, ha.1, hb.1, Stmt.unbound]
    · simpa [Stmt.idents] using ⟨ha.2, hb.2⟩
  | .call token target | .input token target => by
    refine (Ident.scans_resolve ht target).map fun i hi => ⟨?_, ?_⟩
    · rw [Stmt.unbound, hi.1, Stmt.unbound]
    · simpa [Stmt.idents] using hi.2
  | .output token expr => by
    refine (Expr.scans_resolve ht expr).map fun e he => ⟨?_, he.2⟩
    rw [Stmt.unbound, he.1, Stmt.unbound]
  | .begin token stmts => by
    refine (Stmt.scans_resolveList ht stmts).map fun ss hss => ⟨?_, hss.2⟩
    rw [Stmt.unbound, hss.1, Stmt.unbound]
  | .if token guard body | .while token guard body => by
    rw [Stmt.idents, List.map_append]
    refine (Expr.scans_resolve ht guard).andThen (Stmt.scans_resolve ht body)
      fun a b ha hb => ⟨?_, ?_⟩
    · rw [Stmt.unbound, ha.1, hb.1, Stmt.unbound]
    · rw [Stmt.idents, List.forall_mem_append]
      exact ⟨ha.2, hb.2⟩
  | .empty token => .done ⟨rfl, by simp [Stmt.idents]⟩

theorem Stmt.scans_resolveList (ht : t.Reflects chain) : (ss : List Stmt) →
    (Stmt.resolveList t ss).Scans ((Stmt.identsList ss).map (⟨·, chain⟩)) fun ss' =>
      Stmt.unboundList ss' = Stmt.unboundList ss ∧
        ∀ ident ∈ Stmt.identsList ss', ident.BindsIn chain
  | [] => .done ⟨rfl, by simp [Stmt.identsList]⟩
  | s :: ss => by
    rw [Stmt.identsList, List.map_append]
    refine (Stmt.scans_resolve ht s).andThen (Stmt.scans_resolveList ht ss)
      fun a b ha hb => ⟨?_, ?_⟩
    · rw [Stmt.unboundList, ha.1, hb.1, Stmt.unboundList]
    · rw [Stmt.identsList, List.forall_mem_append]
      exact ⟨ha.2, hb.2⟩

end

end Uses

/-! ## Blocks -/

/-- What resolution makes of the declarations `ds` of a block: the same but for slots, at the depth
of the block, and with all blocks inside them bound as they should be, whatever blocks are around.
-/
structure Decl.Resolved (chain : Chain) (ds ds' : List Decl) : Prop where
  same : Decl.unboundList ds' = Decl.unboundList ds
  nest : ∀ d ∈ ds', d.head.nest = some (chain.length - 1)
  sites : ∀ outer, chain.Similar outer → outer.Placed → ∀ site ∈ Decl.sitesList outer ds',
    site.Lexical

structure Block.Resolved (chain : Chain) (b b' : Block) : Prop where
  same : b'.unbound = b.unbound
  sites : ∀ outer, chain.Similar outer → outer.Placed → ∀ site ∈ b'.sites outer, site.Lexical

theorem Table.scans_resolveBlock {t : Table} {chain : Chain} {ds : List Decl} (stmt : Stmt)
    {scopes : List Scope} {bodies : Table → Binding (List Decl)} (ht : t.scopes = [] :: scopes)
    (houter : List.Forall₂ Scope.Reflects scopes chain) (hnodup : (ds.map Decl.name).Nodup)
    (hbodies : ∀ t : Table, t.Reflects (ds :: chain) →
      (bodies t).Scans ((Decl.sitesList (ds :: chain) ds).flatMap Site.uses)
        (Decl.Resolved (ds :: chain) ds)) :
    (t.resolveBlockIn ds stmt bodies).Scans ((Block.sites chain ⟨ds, stmt⟩).flatMap Site.uses)
      (Block.Resolved chain ⟨ds, stmt⟩) := by
  have hnew : ∀ d ∈ ds, List.lookup d.name ([] : Scope) = none := fun _ _ => rfl
  have henter : (t.enter ds).fault = none := Table.enter_fault ht hnodup hnew
  have hempty : Scope.Reflects [] [] := fun _ => rfl
  have hreflects : (t.enter ds).state.Reflects (ds :: chain) :=
    Table.reflects_enter ht hempty houter hnodup hnew
  unfold Table.resolveBlockIn
  simp only [henter, Block.sites, List.flatMap_append, List.flatMap_singleton]
  refine (hbodies _ hreflects).andThen (Stmt.scans_resolve hreflects stmt) fun ds' s' hds hs => ?_
  refine ⟨?_, fun outer hsimilar hplaced site hsite => ?_⟩
  · rw [Block.unbound, hds.same, hs.1, Block.unbound]
  -- Around the parts of the new block stand its own declarations, which are new as well.
  have hsimilar' : Chain.Similar (ds :: chain) (ds' :: outer) :=
    .cons (Decl.keys_of_unboundList hds.same) hsimilar
  have hplaced' : Chain.Placed (ds' :: outer) := by
    refine ⟨fun d hd => ?_, hplaced⟩
    rw [hds.nest d hd, ← hsimilar.length_eq]
    rfl
  rcases List.mem_append.mp hsite with hsite | hsite
  · exact hds.sites _ hsimilar' hplaced' site hsite
  · cases List.mem_singleton.mp hsite
    exact ⟨hplaced', fun ident hident => hsimilar'.bindsIn (hs.2 ident hident)⟩

mutual

theorem Decl.scans_resolve {t : Table} {chain : Chain} (ht : t.Reflects chain) : (d : Decl) →
    d.Distinct → (d.resolveIn t).Scans ((d.sites chain).flatMap Site.uses) fun d' =>
      Decl.Resolved chain [d] [d']
  | .const .., _ | .var _, _ => by
    refine .done ⟨rfl, ?_, by simp [Decl.sitesList, Decl.sites, Decl.atDepth, Decl.setHead]⟩
    rw [List.forall_mem_singleton, ← ht.depth_eq]
    rfl
  | .procedure head decls stmt, hd => by
    have hblock := Table.scans_resolveBlock (t := t.push.2) stmt rfl ht hd.1 fun u hu =>
      Decl.scans_resolveList hu decls hd.2
    rw [Decl.resolveIn]
    refine hblock.map fun b hb => ⟨?_, ?_, fun outer hsimilar hplaced site hsite => ?_⟩
    · obtain ⟨hdecls, hstmt⟩ := Block.mk.inj hb.same
      simp only [Decl.atDepth, Decl.setHead, Decl.head, Decl.unboundList, Decl.unbound,
        DeclHead.unbound, hdecls, hstmt]
    · rw [List.forall_mem_singleton, ← ht.depth_eq]
      rfl
    · rw [Decl.sitesList, Decl.sitesList, List.append_nil] at hsite
      exact hb.sites outer hsimilar hplaced site hsite

theorem Decl.scans_resolveList {t : Table} {chain : Chain} (ht : t.Reflects chain) :
    (ds : List Decl) → Decl.DistinctList ds →
    (Decl.resolveInList t ds).Scans ((Decl.sitesList chain ds).flatMap Site.uses)
      (Decl.Resolved chain ds)
  | [], _ => .done ⟨rfl, by simp, by simp [Decl.sitesList]⟩
  | d :: ds, hd => by
    rw [Decl.sitesList, List.flatMap_append]
    refine (Decl.scans_resolve ht d hd.1).andThen (Decl.scans_resolveList ht ds hd.2)
      fun d' ds' hd' hds' => ?_
    obtain ⟨hsame, -⟩ := List.cons.inj hd'.same
    refine ⟨?_, ?_, fun outer hsimilar hplaced => ?_⟩
    · rw [Decl.unboundList, hsame, hds'.same, Decl.unboundList]
    · exact List.forall_mem_cons.mpr ⟨hd'.nest d' (List.mem_singleton_self d'), hds'.nest⟩
    · rw [Decl.sitesList, List.forall_mem_append]
      have hfirst := hd'.sites outer hsimilar hplaced
      rw [Decl.sitesList, Decl.sitesList, List.append_nil] at hfirst
      exact ⟨hfirst, hds'.sites outer hsimilar hplaced⟩

end

/-! ## Programs -/

/-- The use is bound to the declaration of its name in the innermost block around it that has one.
Both carry the number of procedures that they are inside, so these differ by the number of blocks
between them. -/
def Use.Lexical (u : Use) : Prop :=
  ∃ inner ds d outer, u.chain = inner ++ ds :: outer ∧ d ∈ ds ∧ d.name = u.ident.name ∧
    (∀ ds' ∈ inner, ∀ d' ∈ ds', d'.name ≠ u.ident.name) ∧
    u.ident.decl = some d.head.id ∧ d.head.nest = some outer.length ∧
    u.ident.nest = some (inner.length + outer.length)

theorem Use.Lexical.of_bindsIn {u : Use} (hplaced : u.chain.Placed)
    (h : u.ident.BindsIn u.chain) : u.Lexical := by
  obtain ⟨d, hfind, hdecl, hnest⟩ := h
  obtain ⟨inner, ds, outer, hchain, hd, hinner⟩ := List.findSome?_eq_some_iff.mp hfind
  rw [hchain] at hplaced
  refine ⟨inner, ds, d, outer, hchain, List.mem_of_find?_eq_some hd, ?_, fun ds' hds' d' hd' => ?_,
    hdecl, hplaced.of_append d (List.mem_of_find?_eq_some hd), ?_⟩
  · simpa using List.find?_some hd
  · simpa using List.find?_eq_none.mp (hinner ds' hds') d' hd'
  · rw [hnest, hchain, List.length_append, List.length_cons]
    rfl

/-- Every declaration carries the number of procedures that it is inside, and every use of a name is
bound as lexical scoping has it. -/
structure Program.Lexical (p : Program) : Prop where
  decls : ∀ site ∈ p.sites, ∀ d ∈ site.decls, d.head.nest = some site.outer.length
  uses : ∀ u ∈ p.uses, u.Lexical

theorem Program.scans_resolve {p : Program} (h : p.Distinct) :
    p.resolve.Scans p.uses fun q => q.unbound = p.unbound ∧ q.Lexical := by
  have hblock := Table.scans_resolveBlock (t := Table.empty) p.block.stmt rfl .nil h.nodup
    fun t ht => Decl.scans_resolveList ht p.block.decls h.decls
  rw [p.resolve_eq]
  refine hblock.map fun b hb => ⟨?_, fun site hsite d hd => ?_, fun u hu => ?_⟩
  · rw [Program.unbound, hb.same]
    rfl
  · exact (hb.sites [] .nil trivial site hsite).placed.1 d hd
  · obtain ⟨site, hsite, hu⟩ := List.mem_flatMap.mp hu
    obtain ⟨ident, hident, rfl⟩ := List.mem_map.mp hu
    have hlexical := hb.sites [] .nil trivial site hsite
    exact .of_bindsIn hlexical.placed (hlexical.bindsIn ident hident)

/-- **Resolution is lexical scoping.**  Take a parsed program, with anything in the slots of its
tree.  Resolution stops at the first use of a name that no block around it declares.  If there is
none, it fills the slots for names as lexical scoping has it and changes nothing else.  What the
slots held before has no part in this. -/
theorem Program.resolve_lexical {source : String} {p₀ p : Program}
    (hsource : Program.ofSource source = .ok p₀) (hslots : p.bare = p₀.bare) :
    p.resolve.fault =
        (Use.firstUndeclared p.uses).map (fun u => .undefined u.ident.token) ∧
      (p.resolve.fault = none ↔ ∀ u ∈ p.uses, ∃ ds ∈ u.chain, ∃ d ∈ ds, d.name = u.ident.name) ∧
      (p.resolve.fault = none → p.resolve.tree.unbound = p.unbound ∧ p.resolve.tree.Lexical) ∧
      p.resolve.fault = p₀.resolve.fault ∧
      (p.resolve.fault = none → p.resolve.tree.untyped = p₀.resolve.tree.untyped) := by
  have hdistinct : p.Distinct :=
    Program.distinct_of_bare_eq hslots ((Program.ofSource_spec source).of_ok hsource).2.1
  have hscans := Program.scans_resolve hdistinct
  obtain ⟨hfault, htree⟩ := Program.resolve_of_bare_eq hslots
  refine ⟨hscans.fault, ?_, hscans.tree, hfault, htree⟩
  rw [hscans.fault, Option.map_eq_none_iff]
  exact Use.firstUndeclared_eq_none_iff

/-- Inside `a` the name `x` is a procedure, elsewhere a variable; `a` calls a procedure that comes
later, and both procedures have a `y`. -/
def shadowedNames : String :=
  "var x, n;
   procedure a; var y;
     procedure x; y := n;
   begin call x; call b end;
   procedure b; var y; begin y := 1; x := y end;
   call a."

/-- Resolved twice: the second time the slots are full. -/
theorem shadowedNames_lexical :
    ∃ p₀ p, Program.ofSource shadowedNames = .ok p₀ ∧ p = p₀.resolve.tree ∧ p.bare = p₀.bare ∧
      p.resolve.fault = none ∧ p.resolve.tree.Lexical ∧ p.resolve.tree.unbound = p.unbound ∧
      p.resolve.tree.untyped = p₀.resolve.tree.untyped ∧
      (p.resolve.tree.uses.map fun u => (u.ident.name, u.ident.decl, u.ident.nest)) =
        [("y", some 3, some 2), ("n", some 1, some 2), ("x", some 4, some 1), ("b", some 5, some 1),
         ("y", some 6, some 1), ("x", some 0, some 1), ("y", some 6, some 1),
         ("a", some 2, some 0)] := by
  have hcheck : (match Program.ofSource shadowedNames with
      | .ok p₀ => decide (p₀.resolve.fault = none ∧
          (p₀.resolve.tree.resolve.tree.uses.map fun u =>
            (u.ident.name, u.ident.decl, u.ident.nest)) =
          [("y", some 3, some 2), ("n", some 1, some 2), ("x", some 4, some 1),
           ("b", some 5, some 1), ("y", some 6, some 1), ("x", some 0, some 1),
           ("y", some 6, some 1), ("a", some 2, some 0)])
      | .error _ => false) = true := by decide +kernel
  split at hcheck
  · rename_i p₀ hsource
    obtain ⟨hfault, huses⟩ := of_decide_eq_true hcheck
    obtain ⟨-, -, hlexical, -, -⟩ := Program.resolve_lexical hsource rfl
    have hbare : p₀.resolve.tree.bare = p₀.bare := congrArg Program.untyped (hlexical hfault).1
    obtain ⟨-, -, hlexical', hfault', htree⟩ := Program.resolve_lexical hsource hbare
    rw [hfault] at hfault'
    obtain ⟨hunbound, hresult⟩ := hlexical' hfault'
    exact ⟨p₀, _, hsource, rfl, hbare, hfault', hresult, hunbound, htree hfault', huses⟩
  · cases hcheck

end PLZero
