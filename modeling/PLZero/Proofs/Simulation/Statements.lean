import PLZero.Proofs.Simulation.Expressions

/-!
# The code of statements

* `Stmt.Sited`, `Expr.Sited` — a bound and typed tree for which code was made, and where that code
  stands in a routine.
* `Simulates` — the code of any statement does what `run` does with the statement, for all
  environments.  If `run` is spent, the machine is not done after `n` steps.
* `Repeats` — the same for loops that are at their test.
* `Machine.simulates_eval` — the code of statements does what evaluation with `n` units of fuel
  does.

The proof is an induction on the fuel.  Calls and further rounds of a loop take a unit of fuel and
at least one step; within one unit it is an induction on the statement.
-/

namespace PLZero

open Machine

/-- The code of the expression stands at `pc`, and the operand stack is large enough for it unless
`o` holds. -/
structure Expr.Sited (p : Program) (l : Layout) (o : Prop) (bs : List (List Decl))
    (R : LoadedRoutine) (e : Expr) (ty : Ty) (pc : Nat) (seg : List Instr) : Prop where
  typed : e.HasTy Op.resultTy? p.signature ty
  bound : e.Bound (bs.map Decl.ids)
  emitted : ∃ c c', e.code l c = .ok (seg, c')
  has : R.Has pc seg
  room : ¬o → e.need ≤ maxOperandStack

structure Stmt.Sited (p : Program) (l : Layout) (o : Prop) (bs : List (List Decl))
    (R : LoadedRoutine) (stmt : Stmt) (pc : Nat) (seg : List Instr) : Prop where
  typed : stmt.WellTyped Op.resultTy? p.signature
  bound : stmt.Bound (bs.map Decl.ids)
  emitted : ∃ c c', stmt.code l c = .ok (seg, c')
  has : R.Has pc seg
  room : ∀ e ∈ stmt.exprs, ¬o → e.need ≤ maxOperandStack

structure Stmt.SitedList (p : Program) (l : Layout) (o : Prop) (bs : List (List Decl))
    (R : LoadedRoutine) (stmts : List Stmt) (pc : Nat) (seg : List Instr) : Prop where
  typed : ∀ s ∈ stmts, s.WellTyped Op.resultTy? p.signature
  bound : Stmt.BoundList (bs.map Decl.ids) stmts
  emitted : ∃ c c', Stmt.codeList l stmts c = .ok (seg, c')
  has : R.Has pc seg
  room : ∀ e ∈ Stmt.exprsList stmts, ¬o → e.need ≤ maxOperandStack

/-- The code of a loop stands at `pc`. -/
structure LoopSited (p : Program) (l : Layout) (o : Prop) (bs : List (List Decl))
    (R : LoadedRoutine) (guard : Expr) (body : Stmt) (pc : Nat) (run test : List Instr)
    (start check : Label) : Prop where
  atGoto : R.code[pc]? = some (.goto check)
  atStart : R.code[pc + 1]? = some (.label start)
  atBody : body.Sited p l o bs R (pc + 1 + 1) run
  atCheck : R.code[pc + 1 + 1 + run.length]? = some (.label check)
  atGuard : guard.Sited p l o bs R .boolean (pc + 1 + 1 + run.length + 1) test
  atBranch : R.code[pc + 1 + 1 + run.length + 1 + test.length]? = some (.ifBool true start)

section Sites

variable {p : Program} {l : Layout} {o : Prop} {bs : List (List Decl)} {R : LoadedRoutine}
  {pc : Nat} {seg : List Instr} {token : Token} {target : Ident} {guard expr : Expr}
  {body stmt : Stmt} {stmts : List Stmt}

theorem Stmt.Sited.of_assign (h : (Stmt.assign target expr).Sited p l o bs R pc seg) :
    ∃ ty id value i, target.decl = some id ∧ p.signature id = some (.var, ty) ∧
      target.Bound (bs.map Decl.ids) ∧ expr.Sited p l o bs R ty pc value ∧
      l.storeInstr target = .ok i ∧ R.code[pc + value.length]? = some i ∧
      pc + seg.length = pc + value.length + 1 := by
  obtain ⟨c, c', hcode⟩ := h.emitted
  obtain ⟨value, i, he, hi, rfl⟩ := Stmt.code_assign hcode
  obtain ⟨hhas, hhas'⟩ := LoadedRoutine.has_append.mp h.has
  cases h.typed with
  | @assign _ _ id ty hdecl hsig hty =>
    exact ⟨ty, id, value, i, hdecl, hsig, h.bound.1,
      ⟨hty, h.bound.2, ⟨c, c', he⟩, hhas, h.room _ expr.mem_subexprs_self⟩, hi,
      (LoadedRoutine.has_cons.mp hhas').1, by rw [List.length_append, ← Nat.add_assoc]; rfl⟩

theorem Stmt.Sited.of_output (h : (Stmt.output token expr).Sited p l o bs R pc seg) :
    ∃ ty value, expr.Sited p l o bs R ty pc value ∧ R.code[pc + value.length]? = some (.print ty) ∧
      pc + seg.length = pc + value.length + 1 := by
  obtain ⟨c, c', hcode⟩ := h.emitted
  obtain ⟨value, ty, he, hty, rfl⟩ := Stmt.code_output hcode
  obtain ⟨hhas, hhas'⟩ := LoadedRoutine.has_append.mp h.has
  cases h.typed with
  | @output _ _ ty' hty' =>
    obtain rfl : ty' = ty := Option.some.inj (hty'.ty_eq.symm.trans hty)
    exact ⟨ty', value, ⟨hty', h.bound, ⟨c, c', he⟩, hhas, h.room _ expr.mem_subexprs_self⟩,
      (LoadedRoutine.has_cons.mp hhas').1, by rw [List.length_append, ← Nat.add_assoc]; rfl⟩

theorem Stmt.Sited.of_if (h : (Stmt.if token guard body).Sited p l o bs R pc seg) :
    ∃ test run join, guard.Sited p l o bs R .boolean pc test ∧
      R.code[pc + test.length]? = some (.ifBool false join) ∧
      body.Sited p l o bs R (pc + test.length + 1) run ∧
      R.code[pc + test.length + 1 + run.length]? = some (.label join) ∧
      pc + seg.length = pc + test.length + 1 + run.length + 1 := by
  obtain ⟨c, c', hcode⟩ := h.emitted
  obtain ⟨test, run, c₁, htest, hrun, rfl⟩ := Stmt.code_if hcode
  have hhas := h.has
  simp only [List.append_assoc, List.cons_append, List.nil_append, LoadedRoutine.has_append,
    LoadedRoutine.has_cons] at hhas
  obtain ⟨hhasTest, hbranch, hhasRun, hjoin, -⟩ := hhas
  have hroom := h.room
  simp only [Stmt.exprs, List.forall_mem_append] at hroom
  cases h.typed with
  | «if» hguard hbody =>
    refine ⟨test, run, _, ⟨hguard, h.bound.1, ⟨_, _, htest⟩, hhasTest, ?_⟩, hbranch,
      ⟨hbody, h.bound.2, ⟨_, _, hrun⟩, hhasRun, hroom.2⟩, hjoin, ?_⟩
    · exact hroom.1 _ guard.mem_subexprs_self
    · simp only [List.length_append, List.length_cons, List.length_nil]
      omega

theorem Stmt.Sited.of_while (h : (Stmt.while token guard body).Sited p l o bs R pc seg) :
    ∃ run test start check, LoopSited p l o bs R guard body pc run test start check ∧
      pc + seg.length = pc + 1 + 1 + run.length + 1 + test.length + 1 := by
  obtain ⟨c, c', hcode⟩ := h.emitted
  obtain ⟨run, test, c₁, hrun, htest, rfl⟩ := Stmt.code_while hcode
  have hhas := h.has
  simp only [List.append_assoc, List.cons_append, List.nil_append, LoadedRoutine.has_append,
    LoadedRoutine.has_cons] at hhas
  obtain ⟨hgoto, hstart, hhasRun, hcheck, hhasTest, hbranch, -⟩ := hhas
  have hroom := h.room
  simp only [Stmt.exprs, List.forall_mem_append] at hroom
  cases h.typed with
  | «while» hguard hbody =>
    refine ⟨run, test, _, _, ⟨hgoto, hstart, ⟨hbody, h.bound.2, ⟨_, _, hrun⟩, hhasRun, hroom.2⟩,
      hcheck, ⟨hguard, h.bound.1, ⟨_, _, htest⟩, hhasTest, ?_⟩, hbranch⟩, ?_⟩
    · exact hroom.1 _ guard.mem_subexprs_self
    · simp only [List.length_append, List.length_cons, List.length_nil]
      omega

theorem Stmt.SitedList.of_cons (h : Stmt.SitedList p l o bs R (stmt :: stmts) pc seg) :
    ∃ first rest, stmt.Sited p l o bs R pc first ∧
      Stmt.SitedList p l o bs R stmts (pc + first.length) rest ∧
      pc + seg.length = pc + first.length + rest.length := by
  obtain ⟨c, c', hcode⟩ := h.emitted
  obtain ⟨first, rest, c₁, hfirst, hrest, rfl⟩ := Stmt.codeList_cons hcode
  obtain ⟨hhas, hhas'⟩ := LoadedRoutine.has_append.mp h.has
  have htyped := List.forall_mem_cons.mp h.typed
  have hroom := h.room
  simp only [Stmt.exprsList, List.forall_mem_append] at hroom
  exact ⟨first, rest, ⟨htyped.1, h.bound.1, ⟨_, _, hfirst⟩, hhas, hroom.1⟩,
    ⟨htyped.2, h.bound.2, ⟨_, _, hrest⟩, hhas', hroom.2⟩, by rw [List.length_append, Nat.add_assoc]⟩

end Sites

/-! ## Statements without parts -/

/-- A statement is over: the stack is empty again, the activation is at `pc`, and the activations
hold the environment. -/
def After (image : Image) (bs : List (List Decl)) (is : List Nat) (r : Nat) (R : LoadedRoutine)
    (fs : Array Activation) (pc : Nat) (w : World) (t : State) : Prop :=
  ∃ fs', t = ⟨#[], withPc fs' pc, w.console⟩ ∧ Moved is fs fs' ∧ Live image bs is r R fs' w.env

section Simple

variable {p : Program} {l : Layout} {image : Image} {o : Prop} {bs : List (List Decl)}
  {is : List Nat} {r : Nat} {R : LoadedRoutine} {fs : Array Activation} {pc n : Nat}
  {seg : List Instr} {w : World} {ty : Ty} {id : Nat} {token : Token} {target : Ident}
  {expr : Expr} {i : Instr}

theorem After.of_moved {fs' : Array Activation} (hmoved : Moved is fs fs') {t : State}
    (h : After image bs is r R fs' pc w t) : After image bs is r R fs pc w t := by
  obtain ⟨fs'', rfl, hmoved', hlive⟩ := h
  exact ⟨fs'', rfl, hmoved.trans hmoved', hlive⟩

theorem Expr.Sited.leads {con : Console} {env : Env} (h : expr.Sited p l o bs R ty pc seg)
    (hset : Setting p l image) (hnested : Nested p l bs) (hlive : Live image bs is r R fs env) :
    Leads image o n ⟨#[], withPc fs pc, con⟩ (.ofExcept con (expr.eval env))
      (Pushed #[] fs (pc + seg.length) con ty) := by
  obtain ⟨c, c', hcode⟩ := h.emitted
  refine (leads_expr hset.toAnnotated hnested hlive expr h.typed h.bound hcode h.has
    fun ho => ?_).imp_broken fun _ _ => trivial
  rw [show (#[] : Array Value).size = 0 from rfl, Nat.zero_add]
  exact h.room ho

theorem Expr.Sited.leads_guard {con : Console} {env : Env}
    (h : expr.Sited p l o bs R .boolean pc seg)
    (hset : Setting p l image) (hnested : Nested p l bs) (hlive : Live image bs is r R fs env) :
    Leads image o n ⟨#[], withPc fs pc, con⟩ (.ofExcept con (expr.evalGuard env))
      fun b t => t = ⟨#[].push (.bool b), withPc fs (pc + seg.length), con⟩ := by
  rw [Expr.evalGuard, Outcome.ofExcept_bind]
  refine (h.leads hset hnested hlive).bind ?_
  rintro v _ ⟨hv, rfl⟩
  obtain ⟨b, rfl⟩ := Value.exists_bool hv
  exact .done rfl

/-- Storing a value into the variable that the name means. -/
theorem leads_store {v : Value} (hset : Setting p l image) (hnested : Nested p l bs)
    (hlive : Live image bs is r R fs w.env) (hbound : target.Bound (bs.map Decl.ids))
    (hdecl : target.decl = some id) (hsig : p.signature id = some (.var, ty))
    (hstore : l.storeInstr target = .ok i) (hi : R.code[pc]? = some i) (hv : v.ty = ty) :
    Leads image o n ⟨#[].push v, withPc fs pc, w.console⟩ (w.assign target v)
      (After image bs is r R fs (pc + 1)) := by
  obtain ⟨env, con⟩ := w
  obtain rfl := hlive.blocks
  obtain ⟨inner, layer, outer, head, k, declNest, hmeans, hty, -, hk, hnodup, hplace⟩ :=
    hset.exists_variable hnested hbound hdecl hsig
  obtain ⟨slot, declNest', ty', nest, hfinds, rfl⟩ := Layout.storeInstr_cases hstore
  obtain ⟨heq, hdistance⟩ := hplace _ _ hfinds
  cases heq
  rw [World.assign, hmeans.lookup]
  obtain rfl := hmeans.eq
  rw [hdistance] at hi
  rw [← hv] at hty
  obtain ⟨fs', hexec, hmoved, hlive'⟩ := hlive.exec_store hnodup hk hty
  exact .after (takes_of_exec hlive.running hi hexec) (.done ⟨fs', rfl, hmoved, hlive'⟩)

theorem leads_assign {again : Nat → Stmt → World → Outcome World} (hset : Setting p l image)
    (hnested : Nested p l bs) (hlive : Live image bs is r R fs w.env)
    (h : (Stmt.assign target expr).Sited p l o bs R pc seg) :
    Leads image o n ⟨#[], withPc fs pc, w.console⟩
      ((Stmt.assign target expr).evalWith again fs.size w)
      (After image bs is r R fs (pc + seg.length)) := by
  obtain ⟨ty, id, value, i, hdecl, hsig, hbound, hexpr, hstore, hi, hlength⟩ := h.of_assign
  rw [Stmt.evalWith, hlength]
  refine (hexpr.leads hset hnested hlive).bind ?_
  rintro v _ ⟨hv, rfl⟩
  exact leads_store hset hnested hlive hbound hdecl hsig hstore hi hv

theorem leads_output {again : Nat → Stmt → World → Outcome World} (hset : Setting p l image)
    (hnested : Nested p l bs) (hlive : Live image bs is r R fs w.env)
    (h : (Stmt.output token expr).Sited p l o bs R pc seg) :
    Leads image o n ⟨#[], withPc fs pc, w.console⟩
      ((Stmt.output token expr).evalWith again fs.size w)
      (After image bs is r R fs (pc + seg.length)) := by
  obtain ⟨ty, value, hexpr, hi, hlength⟩ := h.of_output
  rw [Stmt.evalWith, hlength]
  refine (hexpr.leads hset hnested hlive).bind ?_
  rintro v _ ⟨hv, rfl⟩
  exact .after (takes_of_exec hlive.running hi (exec_print hv)) (.done ⟨fs, rfl, .refl _ _, hlive⟩)

theorem leads_input {again : Nat → Stmt → World → Outcome World} (hset : Setting p l image)
    (hnested : Nested p l bs) (hlive : Live image bs is r R fs w.env)
    (h : (Stmt.input token target).Sited p l o bs R pc seg) :
    Leads image o n ⟨#[], withPc fs pc, w.console⟩
      ((Stmt.input token target).evalWith again fs.size w)
      (After image bs is r R fs (pc + seg.length)) := by
  obtain ⟨env, con⟩ := w
  obtain rfl := hlive.blocks
  obtain ⟨c, c', hcode⟩ := h.emitted
  obtain ⟨ty, i, hread, hstore, rfl, rfl⟩ := Stmt.code_input hcode
  have hhas := h.has
  simp only [LoadedRoutine.has_cons] at hhas
  cases h.typed with
  | @input _ _ id ty' hdecl hsig =>
    obtain ⟨inner, layer, outer, head, k, declNest, hmeans, hty, hvalue, -, -, hplace⟩ :=
      hset.exists_variable hnested h.bound hdecl hsig
    obtain ⟨slot, declNest', nest, hfinds⟩ := Layout.readTy_cases hread
    cases (hplace _ _ hfinds).1
    rcases con.read_cases hvalue with ⟨v, con', hcon, hv⟩ | ⟨f, con', hcon, hf⟩
    · have heval : (Stmt.input token target).evalWith again fs.size ⟨env, con⟩ =
          World.assign ⟨env, con'⟩ target v := by
        simp only [Stmt.evalWith, World.input, hmeans.lookup, hty, hcon]
      rw [heval]
      refine (Leads.gives hlive.running hhas.1 (gives_read hcon fun _ => by decide) ?_).of_le
        (Nat.le_succ n)
      exact leads_store (w := ⟨env, con'⟩) hset hnested hlive h.bound hdecl hsig hstore hhas.2.1 hv
    · have heval : (Stmt.input token target).evalWith again fs.size ⟨env, con⟩ =
          .failed f con' := by
        simp only [Stmt.evalWith, World.input, hmeans.lookup, hty, hcon]
      rw [heval]
      exact .fail hlive.running hhas.1 (exec_read_error hcon) hf trivial

end Simple

/-! ## Calls, branches and loops -/

/-- The code of statements does what `run` does; `n` steps are not enough where `run` is spent. -/
def Simulates (p : Program) (l : Layout) (image : Image) (o : Prop) (n : Nat)
    (run : Nat → Stmt → World → Outcome World) : Prop :=
  ∀ ⦃bs is r R fs pc seg stmt w⦄, Nested p l bs → Stmt.Sited p l o bs R stmt pc seg →
    Live image bs is r R fs w.env →
    Leads image o n ⟨#[], withPc fs pc, w.console⟩ (run fs.size stmt w)
      (After image bs is r R fs (pc + seg.length))

/-- The same for a loop that is about to test its guard. -/
def Repeats (p : Program) (l : Layout) (image : Image) (o : Prop) (n : Nat)
    (run : Nat → Stmt → World → Outcome World) : Prop :=
  ∀ ⦃bs is r R fs pc code test start check guard body w⦄ (token : Token), Nested p l bs →
    LoopSited p l o bs R guard body pc code test start check → Live image bs is r R fs w.env →
    Leads image o n ⟨#[], withPc fs (pc + 1 + 1 + code.length), w.console⟩
      (run fs.size (.while token guard body) w)
      (After image bs is r R fs (pc + 1 + 1 + code.length + 1 + test.length + 1))

/-- The block `⟨decls, stmt⟩`, inside the blocks `bs`, can be run as routine `r`. -/
structure Runnable (p : Program) (l : Layout) (image : Image) (o : Prop) (bs : List (List Decl))
    (r : Nat) (decls : List Decl) (stmt : Stmt) : Prop where
  nested : Nested p l (decls :: bs)
  vars : ValueVars decls
  typed : stmt.WellTyped Op.resultTy? p.signature
  bound : stmt.Bound ((decls :: bs).map Decl.ids)
  holds : image.Holds l r decls stmt
  room : ∀ e ∈ stmt.exprs, ¬o → e.need ≤ maxOperandStack

section Steps

variable {p : Program} {l : Layout} {image : Image} {o : Prop} {bs : List (List Decl)}
  {is : List Nat} {r : Nat} {R : LoadedRoutine} {fs : Array Activation} {pc n : Nat}
  {seg : List Instr} {w : World} {token : Token} {target : Ident} {guard : Expr} {body : Stmt}
  {decls : List Decl} {env : Env} {again : Nat → Stmt → World → Outcome World}

theorem withPc_push (fs : Array Activation) (a : Activation) :
    withPc (fs.push a) a.pc = fs.push a := by
  apply Array.ext_getElem?
  intro i
  rw [getElem?_withPc, Array.size_push]
  split
  · rename_i h
    rw [Nat.succ.inj h]
    simp
  · rfl

/-- A body runs from its beginning to its return. -/
theorem leads_body {link : Option Nat} (con : Console) (hsim : Simulates p l image o n again)
    (hbody : Runnable p l image o (env.map Layer.decls) r decls body) (hR : image[r]? = some R)
    (hchain : Represents fs is env) (hlink : link = is.head?) :
    Leads image o n ⟨#[], fs.push ⟨r, 0, (R.locals.map Ty.default).toArray, link⟩, con⟩
      (again (fs.size + 1) body ⟨.fresh decls :: env, con⟩)
      fun w t => ∃ fs', t = ⟨#[], fs'.pop, w.console⟩ ∧
        Moved (fs.size :: is) (fs.push ⟨r, 0, (R.locals.map Ty.default).toArray, link⟩) fs' ∧
        Live image (decls :: env.map Layer.decls) (fs.size :: is) r R fs' w.env := by
  obtain ⟨R', seg, c, c', hR', hlabelled, hlocals, hcode, hemit⟩ := hbody.holds.routine
  obtain rfl : R' = R := Option.some.inj (hR'.symm.trans hR)
  have hhas : R'.Has 0 (seg ++ [.ret]) := by
    intro k i hi
    simp [hcode, ← hi]
  rw [LoadedRoutine.has_append, LoadedRoutine.has_cons, Nat.zero_add] at hhas
  generalize hfs : fs.push ⟨r, 0, (R'.locals.map Ty.default).toArray, link⟩ = fs₁
  have hsize : fs₁.size = fs.size + 1 := by rw [← hfs, Array.size_push]
  have hlive : Live image (decls :: env.map Layer.decls) (fs.size :: is) r R' fs₁
      (.fresh decls :: env) := by
    rw [← hfs]
    exact Live.fresh (a := ⟨r, 0, (R'.locals.map Ty.default).toArray, link⟩) hchain hlink
      (stores_fresh rfl hlocals hbody.nested.1.nodup hbody.vars) hR hlabelled
  have hstart : fs₁ = withPc fs₁ 0 := by
    rw [← hfs]
    exact (withPc_push fs ⟨r, 0, (R'.locals.map Ty.default).toArray, link⟩).symm
  have hrun := hsim (w := ⟨.fresh decls :: env, con⟩) hbody.nested
    ⟨hbody.typed, hbody.bound, ⟨c, c', hemit⟩, hhas.1, hbody.room⟩ hlive
  rw [← hstart, hsize] at hrun
  refine hrun.extend ?_
  rintro w _ ⟨fs₂, rfl, hmoved, hlive₂⟩
  rw [Nat.zero_add]
  exact ⟨1, _, takes_of_exec hlive₂.running hhas.2.1 exec_ret, fs₂, rfl, hmoved, hlive₂⟩

theorem Setting.runnable_procedure {ds : List Decl} {head : DeclHead} (hset : Setting p l image)
    (hneed : ∀ e ∈ p.expressions, ¬o → e.need ≤ maxOperandStack) (hnested : Nested p l (ds :: bs))
    (hmem : .procedure head decls body ∈ ds) (hholds : image.Holds l r decls body) :
    Runnable p l image o (ds :: bs) r decls body := by
  obtain ⟨hlegal, hbound⟩ := hnested.1.procedure hset.numbered hmem ⟨r, hholds.fits⟩
  have hdecl := hnested.1.mem _ hmem
  cases hset.typed.declarations _ hdecl with
  | procedure _ hdecls hbody =>
    refine ⟨⟨hlegal, hnested⟩, valueVars_of_wellTyped hdecls, hbody, hbound, hholds, fun e he => ?_⟩
    exact hneed e (List.mem_append_left _ (Decl.exprsList_subset _ hdecl e he))

theorem leads_call (hset : Setting p l image)
    (hneed : ∀ e ∈ p.expressions, ¬o → e.need ≤ maxOperandStack)
    (hsim : Simulates p l image o n again) (hnested : Nested p l bs)
    (h : (Stmt.call token target).Sited p l o bs R pc seg) (hlive : Live image bs is r R fs w.env) :
    Leads image o (n + 1) ⟨#[], withPc fs pc, w.console⟩
      ((Stmt.call token target).evalWith again fs.size w)
      (After image bs is r R fs (pc + seg.length)) := by
  obtain ⟨env, con⟩ := w
  obtain rfl := hlive.blocks
  obtain ⟨c, c', hcode⟩ := h.emitted
  obtain ⟨i, hcall, rfl, rfl⟩ := Stmt.code_call hcode
  have hi := (LoadedRoutine.has_cons.mp h.has).1
  cases h.typed with
  | @call _ _ id ty hdecl hsig =>
    obtain ⟨inner, layer, outer, head, decls, stmt, callee, declNest, hmeans, hlegal,
      hholds, hplace⟩ := hset.exists_procedure hnested h.bound hdecl hsig
    obtain ⟨index, declNest', nest, hfinds, rfl⟩ := Layout.callInstr_cases hcall
    obtain ⟨heq, hdistance⟩ := hplace _ _ hfinds
    cases heq
    obtain rfl := hmeans.eq
    obtain ⟨R', -, -, -, hR', -⟩ := hholds.routine
    obtain ⟨is₁, j, is₂, hreach, hexec⟩ := hlive.exec_call hR'
    rw [hdistance] at hi
    rw [Stmt.evalWith, World.call, hmeans.lookup]
    have hstep := hexec #[] (pc + 1) con
    simp only
    split
    · rename_i hdepth
      rw [if_pos hdepth] at hstep
      exact .fail hlive.running hi hstep trivial trivial
    · rename_i hdepth
      rw [if_neg hdepth] at hstep
      refine Leads.gives hlive.running hi (.inl hstep) ?_
      -- The body runs in the layers around the declaration, not in those of the caller.
      have hinner : Nested p l (layer.decls :: outer.map Layer.decls) := by
        rw [List.map_append] at hnested
        exact hnested.of_append
      have hbody : Runnable p l image o ((layer :: outer).map Layer.decls) callee decls stmt :=
        hset.runnable_procedure hneed hinner hmeans.mem hholds
      have hrun := leads_body con hsim hbody hR' (hreach.chain.withPc (pc + 1)) rfl
      rw [size_withPc] at hrun
      refine hrun.bind ?_
      rintro ⟨env', con'⟩ _ ⟨fs', rfl, hmoved, hlive'⟩
      obtain ⟨hpc, hleft, hback⟩ := hlive.leave hreach hmoved hlive'
      exact .done ⟨fs'.pop, by rw [List.length_singleton, hpc], hleft, hback⟩

theorem leads_if (hset : Setting p l image) (hnested : Nested p l bs)
    (hbody : ∀ ⦃pc seg⦄, body.Sited p l o bs R pc seg →
      Leads image o n ⟨#[], withPc fs pc, w.console⟩ (body.evalWith again fs.size w)
        (After image bs is r R fs (pc + seg.length)))
    (h : (Stmt.if token guard body).Sited p l o bs R pc seg)
    (hlive : Live image bs is r R fs w.env) :
    Leads image o n ⟨#[], withPc fs pc, w.console⟩
      ((Stmt.if token guard body).evalWith again fs.size w)
      (After image bs is r R fs (pc + seg.length)) := by
  obtain ⟨test, run, join, hguard, hbranch, hsited, hjoin, hlength⟩ := h.of_if
  rw [Stmt.evalWith, hlength]
  refine (hguard.leads_guard hset hnested hlive).bind ?_
  rintro b _ rfl
  refine .after (takes_of_exec hlive.running hbranch (exec_ifBool hlive.running hjoin)) ?_
  have hend {fs' : Array Activation} {w' : World} (hmoved : Moved is fs fs')
      (hlive' : Live image bs is r R fs' w'.env) :
      ∃ k t, Takes image k
          ⟨#[], withPc fs' (pc + test.length + 1 + run.length), w'.console⟩ t ∧
        After image bs is r R fs (pc + test.length + 1 + run.length + 1) w' t :=
    ⟨1, _, takes_of_exec hlive'.running hjoin rfl, fs', rfl, hmoved, hlive'⟩
  cases b with
  | true =>
    refine (hbody hsited).extend ?_
    rintro w' _ ⟨fs', rfl, hmoved, hlive'⟩
    exact hend hmoved hlive'
  | false =>
    obtain ⟨k, t, hk, hafter⟩ := hend (.refl is fs) hlive
    exact .after hk (.done hafter)

/-- One round of a loop, from its test back to its test or to its end. -/
theorem leads_round {code test : List Instr} {start check : Label} (hset : Setting p l image)
    (hnested : Nested p l bs) (hloop : Repeats p l image o n again)
    (hbody : ∀ ⦃pc seg⦄, body.Sited p l o bs R pc seg →
      Leads image o n ⟨#[], withPc fs pc, w.console⟩ (body.evalWith again fs.size w)
        (After image bs is r R fs (pc + seg.length)))
    (h : LoopSited p l o bs R guard body pc code test start check)
    (hlive : Live image bs is r R fs w.env) :
    Leads image o (n + 1) ⟨#[], withPc fs (pc + 1 + 1 + code.length), w.console⟩
      ((Stmt.while token guard body).evalWith again fs.size w)
      (After image bs is r R fs (pc + 1 + 1 + code.length + 1 + test.length + 1)) := by
  rw [Stmt.evalWith]
  refine Leads.gives hlive.running h.atCheck (advances_label check _ _) ?_
  refine (h.atGuard.leads_guard hset hnested hlive).bind ?_
  rintro b _ rfl
  refine .after (takes_of_exec hlive.running h.atBranch (exec_ifBool hlive.running h.atStart)) ?_
  cases b with
  | true =>
    refine .advance hlive.running h.atStart (advances_label start) ?_
    refine (hbody h.atBody).bind ?_
    rintro w' _ ⟨fs', rfl, hmoved, hlive'⟩
    -- The next round is one of less fuel, and the label at the test is the step that pays for it.
    have hrest := hloop token hnested h hlive'
    rw [hmoved.size] at hrest
    exact hrest.extend fun w'' t ht => ⟨0, t, .refl t, ht.of_moved hmoved⟩
  | false => exact .done ⟨fs, rfl, .refl _ _, hlive⟩

end Steps

/-! ## All statements -/

section All

variable {p : Program} {l : Layout} {image : Image} {o : Prop} {n : Nat}
  {again : Nat → Stmt → World → Outcome World}

mutual

/-- A statement, when calls and further rounds are known to be simulated. -/
theorem leads_stmt (hset : Setting p l image)
    (hneed : ∀ e ∈ p.expressions, ¬o → e.need ≤ maxOperandStack)
    (hsim : Simulates p l image o n again) (hloop : Repeats p l image o n again) :
    (stmt : Stmt) → ∀ {bs : List (List Decl)} {is : List Nat} {r : Nat} {R : LoadedRoutine}
    {fs : Array Activation} {pc : Nat} {seg : List Instr} {w : World}, Nested p l bs →
    stmt.Sited p l o bs R pc seg → Live image bs is r R fs w.env →
    Leads image o (n + 1) ⟨#[], withPc fs pc, w.console⟩ (stmt.evalWith again fs.size w)
      (After image bs is r R fs (pc + seg.length))
  | .assign .., _, _, _, _, _, _, _, _, hnested, h, hlive => leads_assign hset hnested hlive h
  | .call .., _, _, _, _, _, _, _, _, hnested, h, hlive =>
    leads_call hset hneed hsim hnested h hlive
  | .input .., _, _, _, _, _, _, _, _, hnested, h, hlive => leads_input hset hnested hlive h
  | .output .., _, _, _, _, _, _, _, _, hnested, h, hlive => leads_output hset hnested hlive h
  | .begin token stmts, bs, is, r, R, fs, pc, seg, w, hnested, h, hlive => by
    rw [Stmt.evalWith]
    obtain ⟨c, c', hcode⟩ := h.emitted
    rw [Stmt.code] at hcode
    cases h.typed with
    | begin htyped =>
      exact leads_stmts hset hneed hsim hloop stmts hnested
        ⟨htyped, h.bound, ⟨c, c', hcode⟩, h.has, h.room⟩ hlive
  | .if token guard body, bs, is, r, R, fs, pc, seg, w, hnested, h, hlive =>
    leads_if hset hnested
      (fun _ _ hsited => leads_stmt hset hneed hsim hloop body hnested hsited hlive) h hlive
  | .while token guard body, bs, is, r, R, fs, pc, seg, w, hnested, h, hlive => by
    obtain ⟨code, test, start, check, hsited, hlength⟩ := h.of_while
    rw [hlength]
    refine .after (takes_of_exec hlive.running hsited.atGoto
      (jump_eq hlive.running hsited.atCheck)) ?_
    exact leads_round hset hnested hloop (fun _ _ hbody =>
      (leads_stmt hset hneed hsim hloop body hnested hbody hlive).of_le (Nat.le_succ n))
      hsited hlive
  | .empty token, bs, is, r, R, fs, pc, seg, w, hnested, h, hlive => by
    obtain ⟨c, c', hcode⟩ := h.emitted
    rw [Stmt.code] at hcode
    obtain ⟨rfl, rfl⟩ := Emit.of_pure hcode
    rw [Stmt.evalWith]
    exact .done ⟨fs, rfl, .refl _ _, hlive⟩

theorem leads_stmts (hset : Setting p l image)
    (hneed : ∀ e ∈ p.expressions, ¬o → e.need ≤ maxOperandStack)
    (hsim : Simulates p l image o n again) (hloop : Repeats p l image o n again) :
    (stmts : List Stmt) → ∀ {bs : List (List Decl)} {is : List Nat} {r : Nat} {R : LoadedRoutine}
    {fs : Array Activation} {pc : Nat} {seg : List Instr} {w : World}, Nested p l bs →
    Stmt.SitedList p l o bs R stmts pc seg → Live image bs is r R fs w.env →
    Leads image o (n + 1) ⟨#[], withPc fs pc, w.console⟩ (Stmt.evalListWith again fs.size stmts w)
      (After image bs is r R fs (pc + seg.length))
  | [], bs, is, r, R, fs, pc, seg, w, hnested, h, hlive => by
    obtain ⟨c, c', hcode⟩ := h.emitted
    rw [Stmt.codeList] at hcode
    obtain ⟨rfl, rfl⟩ := Emit.of_pure hcode
    rw [Stmt.evalListWith]
    exact .done ⟨fs, rfl, .refl _ _, hlive⟩
  | stmt :: stmts, bs, is, r, R, fs, pc, seg, w, hnested, h, hlive => by
    obtain ⟨first, rest, hfirst, hrest, hlength⟩ := h.of_cons
    rw [Stmt.evalListWith, hlength]
    refine (leads_stmt hset hneed hsim hloop stmt hnested hfirst hlive).bind ?_
    rintro w' _ ⟨fs', rfl, hmoved, hlive'⟩
    have hnext := leads_stmts hset hneed hsim hloop stmts hnested hrest hlive'
    rw [hmoved.size] at hnext
    exact hnext.extend fun w'' t ht => ⟨0, t, .refl t, ht.of_moved hmoved⟩

end

/-- **The code of statements does what evaluation does**, with `n` units of fuel and at least `n`
steps. -/
theorem simulates_eval (hset : Setting p l image)
    (hneed : ∀ e ∈ p.expressions, ¬o → e.need ≤ maxOperandStack) (n : Nat) :
    Simulates p l image o n (Stmt.eval n) ∧ Repeats p l image o n (Stmt.eval n) := by
  induction n with
  | zero =>
    have hspent {bs : List (List Decl)} {is : List Nat} {r : Nat} {R : LoadedRoutine}
        {fs : Array Activation} {env : Env} (hlive : Live image bs is r R fs env) (pc : Nat)
        (con : Console) : runFrom image 0 ⟨#[], withPc fs pc, con⟩ = none := by
      rw [runFrom, if_neg (by simp [hlive.running.live])]
    exact ⟨fun _ _ _ _ _ _ _ _ _ _ _ hlive => .inr (hspent hlive _ _),
      fun _ _ _ _ _ _ _ _ _ _ _ _ _ _ _ _ hlive => .inr (hspent hlive _ _)⟩
  | succ n ih =>
    obtain ⟨hsim, hloop⟩ := ih
    refine ⟨fun _ _ _ _ _ _ _ stmt _ => leads_stmt hset hneed hsim hloop stmt, ?_⟩
    intro bs is r R fs pc code test start check guard body w token hnested h hlive
    exact leads_round hset hnested hloop (fun _ _ hbody =>
      (leads_stmt hset hneed hsim hloop body hnested hbody hlive).of_le (Nat.le_succ n)) h hlive

end All

end PLZero
