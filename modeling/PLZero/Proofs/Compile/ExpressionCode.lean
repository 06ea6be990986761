import PLZero.Proofs.Code.Totality
import PLZero.Proofs.Compile.Correctness
import PLZero.Proofs.Scope.Uses
import PLZero.Proofs.Token.Scan

/-!
# The code of an expression, wherever it stands

The code of an expression does what the expression says in any routine that holds it, on any
operand stack with enough room, and with any activations that have the shape of the blocks around
the expression.

* `Activation.HasSlots`, `Chained` — that shape: the static links lead through one activation for
  each block, and each activation has slots of the types of the block's variables.
* `Env.ofChain` — the environment that such activations hold.
* `Expr.Computes` — a run of a piece of code, from its first instruction to just past its last one,
  does nothing but push the value of the expression, or fails as its evaluation does.
* `Expr.code_computes` — the code of every expression of an analyzed program does this.
-/

namespace PLZero

open Machine

/-! ## The shape of activations -/

/-- The activation has a slot for each variable of the block, in order, with a value of its type. -/
def Activation.HasSlots (a : Activation) (ds : List Decl) : Prop :=
  a.locals.toList.map (fun v => some v.ty) = (Decl.varHeads ds).map DeclHead.ty

/-- From `link` on, the static links lead to ever older activations, one for each block of the
chain, and end there. -/
inductive Chained (fs : Array Activation) : (link : Option Nat) → Chain → Prop where
  | nil : Chained fs none []
  | cons {i : Nat} {a : Activation} {ds : List Decl} {outer : Chain} : fs[i]? = some a →
      a.HasSlots ds → (∀ j, a.link = some j → j < i) → Chained fs a.link outer →
      Chained fs (some i) (ds :: outer)

/-- The current activation runs `R`, and its static chain is one of the blocks. -/
structure Activated (image : Image) (R : LoadedRoutine) (fs : Array Activation) (chain : Chain) :
    Prop where
  routine : (fs.back?.bind fun a => image[a.routine]?) = some R
  chained : Chained fs (some (fs.size - 1)) chain

/-- The layer of a block, the variables of which have the values `locals`, in order. -/
def Layer.ofLocals (ds : List Decl) (locals : Array Value) : Layer :=
  ⟨ds, fun id => locals.getD (((Decl.varHeads ds).map DeclHead.id).idxOf id) (.int 0)⟩

/-- The layers that the activations hold from `link` on. -/
def Env.ofChain (fs : Array Activation) : (link : Option Nat) → Chain → Env
  | some i, ds :: outer =>
    match fs[i]? with
    | some a => .ofLocals ds a.locals :: Env.ofChain fs a.link outer
    | none => []
  | _, _ => []

section Shape

variable {fs : Array Activation} {ds : List Decl}

theorem Layer.vars_ofLocals {locals : Array Value} {k : Nat} {head : DeclHead} {v : Value}
    (hnodup : ((Decl.varHeads ds).map DeclHead.id).Nodup) (hk : (Decl.varHeads ds)[k]? = some head)
    (hv : locals[k]? = some v) : (Layer.ofLocals ds locals).vars head.id = v := by
  obtain ⟨hlt, rfl⟩ := List.getElem?_eq_some_iff.mp hk
  have hidx := hnodup.idxOf_getElem k (by rwa [List.length_map])
  rw [List.getElem_map] at hidx
  simp [ofLocals, hidx, hv]

namespace Activation.HasSlots

variable {a : Activation}

theorem length_eq (h : a.HasSlots ds) : a.locals.size = (Decl.varHeads ds).length := by
  simpa using congrArg List.length h

theorem exists_slot {k : Nat} {head : DeclHead} (h : a.HasSlots ds)
    (hk : (Decl.varHeads ds)[k]? = some head) :
    ∃ v, a.locals[k]? = some v ∧ some v.ty = head.ty := by
  have hslot : a.locals[k]?.map (fun v => some v.ty) = some head.ty := by
    have hget := congrArg (fun tys => tys[k]?) h
    simpa [hk] using hget
  exact Option.map_eq_some_iff.mp hslot

/-- An activation with slots for the variables stores the layer of their values. -/
theorem stores (h : a.HasSlots ds) (hnodup : (Decl.ids ds).Nodup) :
    a.Stores (.ofLocals ds a.locals) := by
  have hids := hnodup.sublist (Decl.varHeads_sublist ds)
  have hvar {k : Nat} {head : DeclHead} (hk : (Decl.varHeads ds)[k]? = some head) :
      a.locals[k]? = some ((Layer.ofLocals ds a.locals).vars head.id) ∧
        head.ty = some ((Layer.ofLocals ds a.locals).vars head.id).ty := by
    obtain ⟨v, hv, hty⟩ := h.exists_slot hk
    rw [Layer.vars_ofLocals hids hk hv]
    exact ⟨hv, hty.symm⟩
  constructor
  · apply List.ext_getElem?
    intro k
    rw [Array.getElem?_toList, List.getElem?_map]
    cases hk : (Decl.varHeads (Layer.ofLocals ds a.locals).decls)[k]? with
    | none =>
      rw [List.getElem?_eq_none_iff] at hk
      exact Array.getElem?_eq_none (h.length_eq ▸ hk)
    | some head => exact (hvar hk).1
  · intro head hmem
    obtain ⟨k, hk⟩ := List.mem_iff_getElem?.mp hmem
    exact (hvar hk).2

end Activation.HasSlots

theorem Represents.lt_head {i : Nat} {is : List Nat} {env : Env} (h : Represents fs (i :: is) env) :
    ∀ j ∈ is, j < i := by
  cases h with
  | cons _ _ _ hlt _ => exact hlt

/-- Activations of the right shape hold the environment that is read off from them. -/
theorem Chained.exists_represents {link : Option Nat} {chain : Chain} (h : Chained fs link chain)
    (hnodup : ∀ ds ∈ chain, (Decl.ids ds).Nodup) :
    ∃ is, is.head? = link ∧ Represents fs is (.ofChain fs link chain) ∧
      (Env.ofChain fs link chain).map Layer.decls = chain := by
  induction h with
  | nil => exact ⟨[], rfl, .nil, rfl⟩
  | @cons i a ds outer ha hslots hlt _ ih =>
    rw [List.forall_mem_cons] at hnodup
    obtain ⟨is, hhead, hrep, hdecls⟩ := ih hnodup.2
    have hbelow : ∀ j ∈ is, j < i := by
      cases is with
      | nil => simp
      | cons j is =>
        have hj := hlt j hhead.symm
        rw [List.forall_mem_cons]
        exact ⟨hj, fun k hk => Nat.lt_trans (hrep.lt_head k hk) hj⟩
    simp only [Env.ofChain, ha, List.map_cons, hdecls]
    exact ⟨i :: is, rfl, .cons ha hhead.symm (hslots.stores hnodup.1) hbelow hrep, rfl⟩

end Shape

theorem Nested.nodup {p : Program} {l : Layout} {chain : Chain} (h : Nested p l chain) :
    ∀ ds ∈ chain, (Decl.ids ds).Nodup := by
  induction chain with
  | nil => simp
  | cons ds outer ih =>
    rw [List.forall_mem_cons]
    exact ⟨h.1.nodup, ih h.2⟩

theorem Activated.exists_live {p : Program} {l : Layout} {image : Image} {R : LoadedRoutine}
    {fs : Array Activation} {chain : Chain} (h : Activated image R fs chain)
    (hnested : Nested p l chain) (hlabelled : R.Labelled) :
    ∃ is r, Live image chain is r R fs (.ofChain fs (some (fs.size - 1)) chain) := by
  obtain ⟨a, ha, hR⟩ := Option.bind_eq_some_iff.mp h.routine
  obtain ⟨is, hhead, hrep, hdecls⟩ := h.chained.exists_represents hnested.nodup
  exact ⟨is, a.routine, ⟨by rw [ha]; rfl, hR, hlabelled⟩, hhead, hrep, hdecls⟩

/-! ## Pieces of code -/

theorem Op.eval_fault {op : Op} {a b : Value} {f : MachineFault}
    (h : op.eval a b = .error (.fault f)) : f = .divisionByZero := by
  cases op with
  | arith op =>
    simp only [eval, Arith.eval] at h
    split at h
    · split at h <;> cases h
      rfl
    all_goals cases h
  | compare cond =>
    simp only [eval, Cond.eval] at h
    split at h <;> cases h

namespace Expr

/-- With the code between `pc` and `pc'`, a run from `pc` on puts the value of the expression on
the stack and comes to `pc'`, or fails with the division by zero that its evaluation fails with.
But for cells above those of `st` nothing else changes. -/
def Computes (e : Expr) (ty : Ty) (chain : Chain) (R : LoadedRoutine) (pc pc' : Nat) : Prop :=
  ∀ ⦃image fs⦄, Activated image R fs chain →
    ∀ (st : Array Value) (con : Console), st.size + e.need ≤ maxOperandStack →
      match e.eval (.ofChain fs (some (fs.size - 1)) chain) with
      | .ok v => v.ty = ty ∧
          ∃ k, Takes image k ⟨st, withPc fs pc, con⟩ ⟨st.push v, withPc fs pc', con⟩
      | .error halt => halt = .fault .divisionByZero ∧
          ∃ u, Fails image ⟨st, withPc fs pc, con⟩ .divisionByZero u ∧ Undisturbed st fs con u

/-- Division by zero is the only fault of an evaluation. -/
theorem eval_fault {env : Env} {e : Expr} {f : MachineFault} (h : e.eval env = .error (.fault f)) :
    f = .divisionByZero := by
  induction e with
  | literal => cases h
  | use ident ty =>
    rw [eval] at h
    split at h <;> cases h
  | binary token ty op lhs rhs ihl ihr =>
    rw [eval] at h
    cases hl : lhs.eval env with
    | error halt =>
      rw [hl] at h
      cases h
      exact ihl hl
    | ok a =>
      rw [hl] at h
      cases hr : rhs.eval env with
      | error halt =>
        rw [hr] at h
        cases h
        exact ihr hr
      | ok b =>
        rw [hr] at h
        exact Op.eval_fault h

variable {p : Program} {l : Layout} {chain : Chain} {e : Expr} {ty : Ty} {R : LoadedRoutine}
  {seg : List Instr} {pc c c' : Nat}

/-- Code that is somewhere in a routine computes its expression. -/
theorem computes (hp : p.Annotated) (hnested : Nested p l chain)
    (hty : e.HasTy Op.resultTy? p.signature ty) (hbound : e.Bound (chain.map Decl.ids))
    (hcode : e.code l c = .ok (seg, c')) (hlabelled : R.Labelled) (hhas : R.Has pc seg) :
    e.Computes ty chain R pc (pc + seg.length) := by
  intro image fs hactive st con hroom
  obtain ⟨is, r, hlive⟩ := hactive.exists_live hnested hlabelled
  have hleads : Leads image False 0 ⟨st, withPc fs pc, con⟩
      (.ofExcept con (e.eval (.ofChain fs (some (fs.size - 1)) chain)))
      (Pushed st fs (pc + seg.length) con ty) (Undisturbed st fs con) :=
    leads_expr hp hnested hlive e hty hbound hcode hhas fun _ => hroom
  rcases hleads with ⟨hfalse, -⟩ | hleads
  · exact hfalse.elim
  · cases heval : e.eval (.ofChain fs (some (fs.size - 1)) chain) with
    | ok v =>
      rw [heval] at hleads
      obtain ⟨k, _, hk, hv, rfl⟩ := hleads
      exact ⟨hv, k, hk⟩
    | error halt =>
      rw [heval] at hleads
      cases halt with
      | stuck => exact hleads.elim
      | fault f =>
        obtain ⟨-, u, hfails, -, hu⟩ := hleads
        obtain rfl := eval_fault heval
        exact ⟨rfl, u, hfails, hu⟩

end Expr

/-! ## Blocks of a program -/

/-- The statement of the block can be compiled and run where it stands. -/
structure Site.Legal (p : Program) (l : Layout) (site : Site) : Prop where
  nested : Nested p l site.chain
  bound : site.stmt.Bound (site.chain.map Decl.ids)
  typed : site.stmt.WellTyped Op.resultTy? p.signature

section Sites

variable {p : Program} {l : Layout}

mutual

theorem Decl.legal_sites (hp : p.Annotated) (hl : p.Placed l) : (d : Decl) → {ds : List Decl} →
    {outer : Chain} → Nested p l (ds :: outer) → d ∈ ds → ∀ site ∈ d.sites (ds :: outer),
    site.Legal p l
  | .const .., _, _, _, _ | .var _, _, _, _, _ => nofun
  | .procedure head decls stmt, ds, outer, h, hd => by
    obtain ⟨r, nest, -, hfits⟩ := hl.procedures _ (h.1.mem _ hd) _ _ _ rfl
    obtain ⟨hlegal, hbound⟩ := h.1.procedure hp.numbered hd ⟨r, hfits⟩
    have hnested : Nested p l (decls :: ds :: outer) := ⟨hlegal, h⟩
    cases hp.typed.declarations _ (h.1.mem _ hd) with
    | procedure _ _ hstmt =>
      rw [Decl.sites, List.forall_mem_append]
      refine ⟨Decl.legal_sitesList hp hl decls hnested fun _ hd => hd, ?_⟩
      rw [List.forall_mem_singleton]
      exact ⟨hnested, hbound, hstmt⟩

theorem Decl.legal_sitesList (hp : p.Annotated) (hl : p.Placed l) : (ds' : List Decl) →
    {ds : List Decl} → {outer : Chain} → Nested p l (ds :: outer) → (∀ d ∈ ds', d ∈ ds) →
    ∀ site ∈ Decl.sitesList (ds :: outer) ds', site.Legal p l
  | [], _, _, _, _ => nofun
  | d :: ds', _, _, h, hds => by
    rw [List.forall_mem_cons] at hds
    rw [Decl.sitesList, List.forall_mem_append]
    exact ⟨Decl.legal_sites hp hl d h hds.1, Decl.legal_sitesList hp hl ds' h hds.2⟩

end

theorem Program.Analyzed.legal_sites (hp : p.Analyzed) (hl : p.Placed l) :
    ∀ site ∈ p.sites, site.Legal p l := by
  have hnested : Nested p l [p.block.decls] := ⟨hp.bound.legal hp.numbered hl.main, trivial⟩
  rw [Program.sites, Block.sites, List.forall_mem_append, List.forall_mem_singleton]
  exact ⟨Decl.legal_sitesList ⟨hp.typed, hp.numbered⟩ hl _ hnested fun _ hd => hd,
    hnested, hp.bound.stmt, hp.typed.stmt⟩

end Sites

/-- **The code of every expression computes it.**  Every expression of an analyzed program stands in
one of its blocks and has a type and code, and wherever that code is put in a routine the labels of
which are unique, the routine can be loaded and the code computes the expression. -/
theorem Expr.code_computes (source : String) {p : Program} {n : Nat}
    (hsource : Program.ofSource source = .ok p) (hanalyze : p.analyze.2 = .ok n) :
    p.analyze.1.sites.flatMap (fun site => site.stmt.exprs) = p.analyze.1.expressions ∧
    ∃ l, p.analyze.1.layout = .ok l ∧
      ∀ site ∈ p.analyze.1.sites, ∀ e ∈ site.stmt.exprs, ∃ ty, e.ty = some ty ∧
        ∀ c, ∃ seg c', e.code l c = .ok (seg, c') ∧
          ∀ (routine : Routine) (before rest : List Instr), routine.code = before ++ seg ++ rest →
            (labels routine.code).Nodup →
            ∃ R, routine.load = .ok R ∧
              e.Computes ty site.chain R before.length (before.length + seg.length) := by
  have hp := Program.analyzed_of_analyze hsource hanalyze
  have hannotated : p.analyze.1.Annotated := ⟨hp.typed, hp.numbered⟩
  obtain ⟨l, hl⟩ := Program.exists_layout hp.bound hp.typed
  have hplaced := Program.placed_layout hl hp.numbered.nodup
  refine ⟨Program.flatMap_sites _, l, hl, fun site hsite e he => ?_⟩
  have hsite := hp.legal_sites hplaced site hsite
  obtain ⟨ty, hty⟩ := hsite.typed.exprs he
  have hbound := hsite.bound.exprs he
  refine ⟨ty, hty.ty_eq, fun c => ?_⟩
  obtain ⟨seg, c', hcode⟩ := Expr.total_code hp.typed hp.numbered hty hsite.nested hbound c
  refine ⟨seg, c', hcode, fun routine before rest hroutine hlabels => ?_⟩
  obtain ⟨R, hload, hloaded⟩ := Routine.load_ok hlabels
  have hhas := LoadedRoutine.has_of_code before rest (hloaded.code.trans (congrArg _ hroutine))
  exact ⟨R, hload, Expr.computes hannotated hsite.nested hty hbound hcode hloaded.labelled hhas⟩

/-- A procedure that divides by a variable of the block around it. -/
def comparedQuotient : String :=
  "var n; procedure test; var k; ! 12 / n > k; begin n := 4; call test end."

/-- The code of the comparison, with other code before and after it. -/
def comparedQuotientRoutine : Routine :=
  ⟨"test", [.number], [.pop] ++
    [.push (.int 12), .load 1 0, .arith .div, .load 0 0, .ifCmp .le 0, .push (.bool true), .goto 1,
      .label 0, .push (.bool false), .label 1] ++ [.print .boolean, .ret]⟩

/-- An activation of the procedure, with `k = 2`, inside one of the program. -/
def comparedQuotientFrames (n : Int32) : Array Activation :=
  #[⟨0, 0, #[.int n], none⟩, ⟨0, 0, #[.int 2], some 0⟩]

theorem comparedQuotient_computes :
    ∃ p n l site e R, Program.ofSource comparedQuotient = .ok p ∧ p.analyze.2 = .ok n ∧
      p.analyze.1.layout = .ok l ∧ site ∈ p.analyze.1.sites ∧ e ∈ site.stmt.exprs ∧
      comparedQuotientRoutine.load = .ok R ∧
      (∀ n, Activated #[R] R (comparedQuotientFrames n) site.chain) ∧
      (∃ k, Takes #[R] k ⟨#[.str "x"], withPc (comparedQuotientFrames 4) 1, ⟨[], ""⟩⟩
        ⟨#[.str "x", .bool true], withPc (comparedQuotientFrames 4) 11, ⟨[], ""⟩⟩) ∧
      ∃ u, Fails #[R] ⟨#[.str "x"], withPc (comparedQuotientFrames 0) 1, ⟨[], ""⟩⟩
          .divisionByZero u ∧
        Undisturbed #[.str "x"] (comparedQuotientFrames 0) ⟨[], ""⟩ u := by
  have hcheck : ∃ p, Program.ofSource comparedQuotient = .ok p ∧ ∃ n, p.analyze.2 = .ok n ∧
      ∃ l, p.analyze.1.layout = .ok l ∧ ∃ site ∈ p.analyze.1.sites, ∃ e ∈ site.stmt.exprs,
        decide (e.code l 0 = .ok ((comparedQuotientRoutine.code.drop 1).take 10, 2) ∧
          site.chain.map (fun ds => (Decl.varHeads ds).map DeclHead.ty) =
            [[some .number], [some .number]] ∧ e.need = 2 ∧
          e.eval (.ofChain (comparedQuotientFrames 4) (some 1) site.chain) = .ok (.bool true) ∧
          e.eval (.ofChain (comparedQuotientFrames 0) (some 1) site.chain) =
            .error (.fault .divisionByZero)) := by decide +kernel
  obtain ⟨p, hsource, n, hanalyze, l, hlayout, site, hsite, e, he, hcheck⟩ := hcheck
  obtain ⟨hcode, htypes, hneed, htrue, hzero⟩ := of_decide_eq_true hcheck
  obtain ⟨inner, _, hchain, hinner, htypes⟩ := List.map_eq_cons_iff.mp htypes
  obtain ⟨outer, rfl, houter⟩ := List.map_eq_singleton_iff.mp htypes
  obtain ⟨-, l', hl', hall⟩ := Expr.code_computes comparedQuotient hsource hanalyze
  cases hlayout.symm.trans hl'
  obtain ⟨ty, -, hcomputes⟩ := hall _ hsite e he
  obtain ⟨seg, c, hseg, hplaced⟩ := hcomputes 0
  cases hcode.symm.trans hseg
  obtain ⟨R, hload, hrun⟩ := hplaced comparedQuotientRoutine [.pop] [.print .boolean, .ret]
    rfl (by decide)
  have hactive (n : Int32) : Activated #[R] R (comparedQuotientFrames n) site.chain := by
    rw [hchain]
    exact ⟨rfl, .cons rfl hinner.symm (by rintro j ⟨⟩; exact Nat.zero_lt_one)
      (.cons rfl houter.symm (by rintro j ⟨⟩) .nil)⟩
  have hroom : (#[.str "x"] : Array Value).size + e.need ≤ maxOperandStack := by
    rw [hneed]
    decide
  have hfour := hrun (hactive 4) #[.str "x"] ⟨[], ""⟩ hroom
  have hfault := hrun (hactive 0) #[.str "x"] ⟨[], ""⟩ hroom
  rw [show (comparedQuotientFrames 4).size - 1 = 1 from rfl, htrue] at hfour
  rw [show (comparedQuotientFrames 0).size - 1 = 1 from rfl, hzero] at hfault
  exact ⟨p, n, l, site, e, R, hsource, hanalyze, hlayout, hsite, he, hload, hactive, hfour.2,
    hfault.2⟩

end PLZero
