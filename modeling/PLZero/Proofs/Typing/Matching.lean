import PLZero.Proofs.Tree.Renaming
import PLZero.Proofs.Tree.Walk
import PLZero.Typing.Inference

/-!
# Inference on trees that match

Inference looks at declarations by their numbers, and at tokens only to report a fault.  Programs that
differ in nothing but their tokens get the same types, or faults of one class, after the same passes.

* `Engine.Alike` — the engines know the same of every declaration, but for its name.
* `Program.agrees_inferTypes` — the result for programs.
-/

namespace PLZero

variable {N T : Token → Token → Prop}

/-- The faults are of one class. -/
def TypeFault.Same (f f' : TypeFault) : Prop := f.diagnostic.SameVariant f'.diagnostic

/-! ## Engines -/

/-- What is known of a declaration, without its name. -/
def EngineEntry.slot (entry : EngineEntry) : DeclKind × Option Ty := (entry.kind, entry.ty)

structure Engine.Alike (s s' : Engine) : Prop where
  slots : s'.entries.map EngineEntry.slot = s.entries.map EngineEntry.slot
  changed : s'.changed = s.changed

/-- The walks give results with `R`, and engines that are alike, or stop at faults of one class. -/
abbrev Walk.AgreeInferring {α : Type} (R : α → α → Prop) (w w' : Inferring α) : Prop :=
  Walk.Agree TypeFault.Same Engine.Alike R w w'

namespace Engine

variable {s s' : Engine}

theorem Alike.getElem? (h : s.Alike s') (id : Nat) :
    s'.entries[id]?.map EngineEntry.slot = s.entries[id]?.map EngineEntry.slot := by
  rw [← Array.getElem?_map, h.slots, Array.getElem?_map]

theorem Alike.typeOf (h : s.Alike s') (id : Nat) : s'.typeOf id = s.typeOf id := by
  have hslot : ∀ t : Engine, t.typeOf id = (t.entries[id]?.map EngineEntry.slot).bind Prod.snd := by
    intro t
    rw [Engine.typeOf, Option.bind_map]
    rfl
  rw [hslot, hslot, h.getElem?]

theorem Alike.mark (h : s.Alike s') (filled : Bool) : (s.mark filled).Alike (s'.mark filled) :=
  ⟨h.slots, congrArg (· || filled) h.changed⟩

theorem Alike.set (h : s.Alike s') (id : Nat) {entry entry' : EngineEntry}
    (hentry : entry'.slot = entry.slot) :
    Engine.Alike { s with entries := s.entries.setIfInBounds id entry }
      { s' with entries := s'.entries.setIfInBounds id entry' } := by
  refine ⟨?_, h.changed⟩
  simp only [Array.map_setIfInBounds, h.slots, hentry]

/-- A declaration is known to both engines, with the same kind and type, or to neither. -/
theorem Alike.cases (h : s.Alike s') (id : Nat) :
    (s.entries[id]? = none ∧ s'.entries[id]? = none) ∨
      ∃ entry entry', s.entries[id]? = some entry ∧ s'.entries[id]? = some entry' ∧
        entry'.kind = entry.kind ∧ entry'.ty = entry.ty := by
  have hslot := h.getElem? id
  cases hx : s.entries[id]? with
  | none =>
    rw [hx, Option.map_none, Option.map_eq_none_iff] at hslot
    exact .inl ⟨rfl, hslot⟩
  | some entry =>
    rw [hx, Option.map_some, Option.map_eq_some_iff] at hslot
    obtain ⟨entry', hy, heq⟩ := hslot
    exact .inr ⟨entry, entry', rfl, hy, congrArg Prod.fst heq, congrArg Prod.snd heq⟩

theorem agrees_settleDecl (h : s.Alike s') (id : Nat) (ty : Ty) (cause cause' : Token) :
    Agrees TypeFault.Same Engine.Alike (s.settleDecl id ty cause) (s'.settleDecl id ty cause') := by
  unfold settleDecl
  obtain ⟨hx, hy⟩ | ⟨entry, entry', hx, hy, hkind, hty⟩ := h.cases id
  · rw [hx, hy]
    exact .error rfl
  · rw [hx, hy]
    simp only [hty]
    cases settle entry.ty ty with
    | error current => exact .error rfl
    | ok filled =>
      refine .ok (Alike.mark (h.set id ?_) filled)
      rw [EngineEntry.slot, EngineEntry.slot, hkind]

theorem agrees_entryOf (h : s.Alike s') {ident ident' : Ident} (hident : ident.Matches N ident') :
    Agrees TypeFault.Same Eq (s.entryOf ident) (s'.entryOf ident') := by
  unfold entryOf
  rw [hident.decl]
  cases ident.decl with
  | none => exact .error rfl
  | some id =>
    obtain ⟨hx, hy⟩ | ⟨entry, entry', hx, hy, hkind, -⟩ := h.cases id
    · simp only [hx, hy]
      exact .error rfl
    · simp only [hx, hy, hkind]
      exact .ok rfl

theorem agrees_target (h : s.Alike s') {ident ident' : Ident} (hident : ident.Matches N ident')
    (use : TargetUse) :
    Agrees TypeFault.Same Eq (s.target ident use) (s'.target ident' use) := by
  refine (agrees_entryOf h hident).bind_eq fun x => ?_
  dsimp only
  split
  · exact .ok rfl
  · exact .error rfl

theorem agrees_valueDecl (h : s.Alike s') {ident ident' : Ident}
    (hident : ident.Matches N ident') :
    Agrees TypeFault.Same Eq (s.valueDecl ident) (s'.valueDecl ident') := by
  refine (agrees_entryOf h hident).bind_eq fun x => ?_
  dsimp only
  split
  · exact .error rfl
  · exact .ok rfl

end Engine

/-- Walks that stop at a name without a proper declaration, and else go on with it. -/
theorem Walk.agree_of_decl {α : Type} {R : α → α → Prop} {a a' : α} {s s' : Engine}
    {w w' : Nat → Inferring α} (hw : ∀ id, Walk.AgreeInferring R (w id) (w' id))
    {x x' : Except TypeFault Nat} : Agrees TypeFault.Same Eq x x' →
    Walk.AgreeInferring R
      (match x with
        | .error fault => .stop a s fault
        | .ok id => w id)
      (match x' with
        | .error fault => .stop a' s' fault
        | .ok id => w' id)
  | .error hfault => .stop hfault
  | @Agrees.ok _ _ _ _ _ _ id _ hid => by
    cases hid
    exact hw id

/-! ## Expressions -/

section Expressions

variable {s s' : Engine} {e e' : Expr}

theorem Expr.Matches.setTy (h : e.Matches N T e') (ty : Option Ty) :
    (e.setTy ty).Matches N T (e'.setTy ty) := by
  cases h with
  | literal ht => exact .literal ht
  | use hident => exact .use hident
  | binary ht hl hr => exact .binary ht hl hr

namespace Expr

theorem agree_afterDecl {x x' : Except TypeFault Engine} (he : e.Matches N T e')
    (hx : Agrees TypeFault.Same Engine.Alike x x') :
    Walk.AgreeInferring (Expr.Matches N T) (e.afterDecl s x) (e'.afterDecl s' x') := by
  cases hx with
  | ok hs => exact .done he hs
  | error hfault => exact .stop hfault

theorem agree_settleTy (he : e.Matches N T e') (hs : s.Alike s') (ty : Ty) :
    Walk.AgreeInferring (Expr.Matches N T) (e.settleTy ty s) (e'.settleTy ty s') := by
  unfold settleTy
  rw [he.ty_eq]
  cases settle e.ty ty with
  | error current => exact .stop rfl
  | ok filled => exact .done (he.setTy (some ty)) (hs.mark filled)

theorem agree_push (ty : Ty) (he : e.Matches N T e') (hs : s.Alike s') :
    Walk.AgreeInferring (Expr.Matches N T) (e.push ty s) (e'.push ty s') := by
  induction he generalizing s s' with
  | literal ht => exact agree_settleTy (.literal ht) hs ty
  | @use ident ident' slot hident =>
    refine (agree_settleTy (.use hident) hs ty).onward fun e e' s s' he hs => ?_
    have hdecl := Engine.agrees_valueDecl hs hident
    generalize s.valueDecl ident = x at hdecl
    generalize s'.valueDecl ident' = x' at hdecl
    cases hdecl with
    | error hfault => exact .stop hfault
    | @ok id _ hid =>
      cases hid
      exact agree_afterDecl he (Engine.agrees_settleDecl hs id ty _ _)
  | @binary token token' slot op lhs lhs' rhs rhs' ht hl hr ihl ihr =>
    rw [push, push]
    cases settle slot ty with
    | error current => exact .stop rfl
    | ok filled =>
      have hmark := hs.mark filled
      dsimp only
      split
      · exact .done (.binary ht hl hr) hmark
      · -- an operand is visited if it has no type, which both operands have or both have not
        rw [hl.ty_eq, hr.ty_eq]
        refine Walk.Agree.andThen (R := Expr.Matches N T) ?_ (Q := Expr.Matches N T) ?_
          fun _ _ _ _ hl hr => .binary ht hl hr
        · split
          · exact ihl hmark
          · exact .done hl hmark
        · intro s s' hs
          split
          · exact ihr hs
          · exact .done hr hs

theorem agree_balance {token token' : Token} (ht : T token token') (ty : Option Ty) (op : Op)
    {lhs lhs' rhs rhs' : Expr} (hl : lhs.Matches N T lhs') (hr : rhs.Matches N T rhs')
    (hs : s.Alike s') :
    Walk.AgreeInferring (Expr.Matches N T) (balance token ty op lhs rhs s)
      (balance token' ty op lhs' rhs' s') := by
  unfold balance
  rw [hl.ty_eq, hr.ty_eq]
  split
  · exact (agree_push _ hr hs).map fun _ _ hr => .binary ht hl hr
  · exact (agree_push _ hl hs).map fun _ _ hl => .binary ht hl hr
  · exact (agree_push _ hl hs).andThen (fun _ _ hs => agree_push _ hr hs)
      fun _ _ _ _ hl hr => .binary ht hl hr
  · exact .done (.binary ht hl hr) hs

theorem agree_combine (op : Op) (left right : Option Ty) (he : e.Matches N T e')
    (hs : s.Alike s') :
    Walk.AgreeInferring (Expr.Matches N T) (combine op left right e s)
      (combine op left right e' s') := by
  unfold combine
  refine Walk.Agree.onward ?_ fun e e' s s' he hs => ?_
  · split
    · exact agree_settleTy he hs .boolean
    · exact .done he hs
  · split
    · split
      · split
        · exact agree_settleTy he hs _
        · exact .stop rfl
      · exact .stop rfl
    · exact .done he hs

theorem agree_demand (strict : Bool) (he : e.Matches N T e') (hs : s.Alike s') :
    Walk.AgreeInferring (Expr.Matches N T) (demand strict e s) (demand strict e' s') := by
  unfold demand
  rw [he.ty_eq]
  split
  · exact .stop rfl
  · exact .done he hs

theorem agree_meetDecl {ident ident' : Ident} (hident : ident.Matches N ident') (slot : Option Ty)
    (hs : s.Alike s') :
    Walk.AgreeInferring (Expr.Matches N T) (meetDecl ident slot s) (meetDecl ident' slot s') := by
  unfold meetDecl
  refine Walk.agree_of_decl (fun id => ?_) (Engine.agrees_valueDecl hs hident)
  rw [hs.typeOf]
  split
  · exact agree_settleTy (.use hident) hs _
  · exact agree_afterDecl (.use hident) (Engine.agrees_settleDecl hs id _ _ _)
  · exact .done (.use hident) hs

theorem operandTys_eq (he : e.Matches N T e') : e'.operandTys = e.operandTys := by
  cases he with
  | literal => rfl
  | use => rfl
  | binary _ hl hr => simp only [operandTys, hl.ty_eq, hr.ty_eq]

theorem agree_meetOperands (he : e.Matches N T e') (hs : s.Alike s') :
    Walk.AgreeInferring (Expr.Matches N T) (meetOperands e s) (meetOperands e' s') := by
  cases he with
  | literal ht => exact .done (.literal ht) hs
  | use hident => exact .done (.use hident) hs
  | binary ht hl hr =>
    rw [meetOperands, meetOperands]
    refine (agree_balance ht _ _ hl hr hs).onward fun e e' s s' he hs => ?_
    rw [operandTys_eq he]
    exact agree_combine _ _ _ he hs

theorem agree_infer (strict : Bool) (he : e.Matches N T e') (hs : s.Alike s') :
    Walk.AgreeInferring (Expr.Matches N T) (e.infer strict s) (e'.infer strict s') := by
  have hdemand : ∀ (e e' : Expr) (s s' : Engine), e.Matches N T e' → s.Alike s' →
      Walk.AgreeInferring (Expr.Matches N T) (demand strict e s) (demand strict e' s') :=
    fun _ _ _ _ => agree_demand strict
  induction he generalizing s s' with
  | literal ht => exact (agree_settleTy (.literal ht) hs _).onward hdemand
  | use hident => exact (agree_meetDecl hident _ hs).onward hdemand
  | binary ht _ _ ihl ihr =>
    refine Walk.Agree.onward ?_ hdemand
    refine Walk.Agree.onward ?_ fun _ _ _ _ => agree_meetOperands
    exact (ihl hs).andThen (fun _ _ => ihr) fun _ _ _ _ hl hr => .binary ht hl hr

theorem agree_inferGuard (strict : Bool) (he : e.Matches N T e') (hs : s.Alike s') :
    Walk.AgreeInferring (Expr.Matches N T) (e.inferGuard strict s) (e'.inferGuard strict s') := by
  refine (agree_infer strict he hs).onward fun e e' s s' he hs => ?_
  rw [he.ty_eq]
  split
  · exact agree_push .boolean he hs
  · exact .done he hs
  · exact .stop rfl

end Expr

end Expressions

/-! ## Statements -/

theorem Stmt.agree_infer_assign (strict : Bool) {s s' : Engine} {target target' : Ident}
    {e e' : Expr} (htarget : target.Matches N target') (he : e.Matches N T e') (hs : s.Alike s') :
    Walk.AgreeInferring (Stmt.Matches N T) (Stmt.infer strict (.assign target e) s)
      (Stmt.infer strict (.assign target' e') s') := by
  rw [Stmt.infer, Stmt.infer]
  refine Walk.agree_of_decl (fun id => ?_) (Engine.agrees_target hs htarget .assign)
  refine Walk.Agree.map (R := Expr.Matches N T) ?_ fun _ _ he => .assign htarget he
  refine (Expr.agree_infer strict he hs).onward fun e e' s s' he hs => ?_
  rw [he.ty_eq, hs.typeOf]
  split
  · exact Expr.agree_push _ he hs
  · exact Expr.agree_afterDecl he (Engine.agrees_settleDecl hs id _ _ _)
  · exact .done he hs

mutual

theorem Stmt.agree_infer (strict : Bool) {s s' : Engine} (hs : s.Alike s') {stmt stmt' : Stmt} :
    stmt.Matches N T stmt' →
    Walk.AgreeInferring (Stmt.Matches N T) (stmt.infer strict s) (stmt'.infer strict s')
  | .assign htarget he => Stmt.agree_infer_assign strict htarget he hs
  | .call ht htarget => by
    rw [Stmt.infer, Stmt.infer]
    exact Walk.agree_of_decl (fun _ => .done (.call ht htarget) hs)
      (Engine.agrees_target hs htarget .call)
  | .input ht htarget => by
    rw [Stmt.infer, Stmt.infer]
    refine Walk.agree_of_decl (fun id => ?_) (Engine.agrees_target hs htarget .read)
    rw [hs.typeOf]
    split
    · exact .stop rfl
    · exact .done (.input ht htarget) hs
  | .output ht he => by
    rw [Stmt.infer, Stmt.infer]
    refine Walk.Agree.map (R := Expr.Matches N T) ?_ fun _ _ he => .output ht he
    refine (Expr.agree_infer strict he hs).onward fun e e' s s' he hs => ?_
    rw [he.ty_eq]
    split
    · split
      · exact .done he hs
      · exact .stop rfl
    · exact .done he hs
  | .begin ht hss => by
    rw [Stmt.infer, Stmt.infer]
    exact (Stmt.agree_inferList strict hs hss).map fun _ _ hss => .begin ht hss
  | .if ht hg hb => by
    rw [Stmt.infer, Stmt.infer]
    exact (Expr.agree_inferGuard strict hg hs).andThen
      (fun _ _ hs => Stmt.agree_infer strict hs hb) fun _ _ _ _ hg hb => .if ht hg hb
  | .while ht hg hb => by
    rw [Stmt.infer, Stmt.infer]
    exact (Expr.agree_inferGuard strict hg hs).andThen
      (fun _ _ hs => Stmt.agree_infer strict hs hb) fun _ _ _ _ hg hb => .while ht hg hb
  | .empty ht => by
    rw [Stmt.infer, Stmt.infer]
    exact .done (.empty ht) hs

theorem Stmt.agree_inferList (strict : Bool) {s s' : Engine} (hs : s.Alike s')
    {ss ss' : List Stmt} : Stmt.MatchesList N T ss ss' →
    Walk.AgreeInferring (Stmt.MatchesList N T) (Stmt.inferList strict ss s)
      (Stmt.inferList strict ss' s')
  | .nil => .done .nil hs
  | .cons hstmt hss => by
    rw [Stmt.inferList, Stmt.inferList]
    exact (Stmt.agree_infer strict hs hstmt).andThen
      (fun _ _ hs => Stmt.agree_inferList strict hs hss) fun _ _ _ _ => .cons

end

/-! ## Blocks -/

theorem Decl.Matches.formTy?_eq {d d' : Decl} (h : d.Matches N T d') : d'.formTy? = d.formTy? := by
  cases h <;> rfl

namespace Engine

/-- Both lists are declared, or for both a fault of one class is found. -/
theorem declare_cases (strict : Bool) {s s' : Engine} (hs : s.Alike s') {ds ds' : List Decl}
    (hds : Decl.MatchesList N T ds ds') :
    (∃ t t', s.declare strict ds = (t, none) ∧ s'.declare strict ds' = (t', none) ∧ t.Alike t') ∨
      ∃ t t' f f', s.declare strict ds = (t, some f) ∧ s'.declare strict ds' = (t', some f') ∧
        TypeFault.Same f f' := by
  induction ds generalizing s s' ds' with
  | nil =>
    cases hds
    exact .inl ⟨s, s', rfl, rfl, hs⟩
  | cons d ds ih =>
    cases hds with
    | @cons _ d' _ ds' hd hds =>
      rw [declare, declare, hd.formTy?_eq, hd.head.id]
      cases d.formTy? with
      | some ty =>
        have hsettle := agrees_settleDecl hs d.head.id ty d.head.token d'.head.token
        dsimp only
        generalize s.settleDecl d.head.id ty d.head.token = x at hsettle
        generalize s'.settleDecl d.head.id ty d'.head.token = x' at hsettle
        cases hsettle with
        | error hfault => exact .inr ⟨_, _, _, _, rfl, rfl, hfault⟩
        | ok ht => exact ih ht hds
      | none =>
        dsimp only
        rw [hs.typeOf]
        split
        · exact .inr ⟨_, _, _, _, rfl, rfl, rfl⟩
        · exact ih hs hds

theorem agree_inferBlock (strict : Bool) {s s' : Engine} (hs : s.Alike s') {ds ds' : List Decl}
    (hds : Decl.MatchesList N T ds ds') {stmt stmt' : Stmt} (hstmt : stmt.Matches N T stmt')
    {bodies bodies' : Engine → Inferring (List Decl)}
    (hbodies : ∀ s s', s.Alike s' →
      Walk.AgreeInferring (Decl.MatchesList N T) (bodies s) (bodies' s')) :
    Walk.AgreeInferring (Block.Matches N T) (s.inferBlock strict ds stmt bodies)
      (s'.inferBlock strict ds' stmt' bodies') := by
  unfold inferBlock
  obtain ⟨t, t', hx, hy, ht⟩ | ⟨t, t', f, f', hx, hy, hfault⟩ := declare_cases strict hs hds
  · rw [hx, hy]
    exact (hbodies t t' ht).andThen (fun _ _ hs => Stmt.agree_infer strict hs hstmt)
      fun _ _ _ _ hds hstmt => ⟨hds, hstmt⟩
  · rw [hx, hy]
    exact .stop hfault

end Engine

mutual

theorem Decl.agree_infer (strict : Bool) {s s' : Engine} (hs : s.Alike s') {d d' : Decl} :
    d.Matches N T d' →
    Walk.AgreeInferring (Decl.Matches N T) (d.infer strict s) (d'.infer strict s')
  | .const hhead => by
    rw [Decl.infer, Decl.infer]
    · exact .done (.const hhead) hs
    all_goals simp
  | .var hhead => by
    rw [Decl.infer, Decl.infer]
    · exact .done (.var hhead) hs
    all_goals simp
  | .procedure hhead hds hstmt => by
    rw [Decl.infer, Decl.infer]
    exact (Engine.agree_inferBlock strict hs hds hstmt
      fun _ _ hs => Decl.agree_inferList strict hs hds).map
        fun _ _ hb => .procedure hhead hb.decls hb.stmt

theorem Decl.agree_inferList (strict : Bool) {s s' : Engine} (hs : s.Alike s')
    {ds ds' : List Decl} : Decl.MatchesList N T ds ds' →
    Walk.AgreeInferring (Decl.MatchesList N T) (Decl.inferList strict ds s)
      (Decl.inferList strict ds' s')
  | .nil => .done .nil hs
  | .cons hd hds => by
    rw [Decl.inferList, Decl.inferList]
    exact (Decl.agree_infer strict hs hd).andThen
      (fun _ _ hs => Decl.agree_inferList strict hs hds) fun _ _ _ _ => .cons

end

theorem DeclHead.Matches.setTy {s s' : Engine} (hs : s.Alike s') {head head' : DeclHead}
    (h : head.Matches N head') :
    DeclHead.Matches N { head with ty := s.typeOf head.id }
      { head' with ty := s'.typeOf head'.id } :=
  ⟨h.id, h.token, by simp only [hs.typeOf, h.id], h.nest⟩

mutual

theorem Decl.Matches.writeBack {s s' : Engine} (hs : s.Alike s') {d d' : Decl} :
    d.Matches N T d' → (d.writeBack s).Matches N T (d'.writeBack s')
  | .const hhead => .const (hhead.setTy hs)
  | .var hhead => .var (hhead.setTy hs)
  | .procedure hhead hds hstmt =>
    .procedure (hhead.setTy hs) (Decl.MatchesList.writeBack hs hds) hstmt

theorem Decl.MatchesList.writeBack {s s' : Engine} (hs : s.Alike s') {ds ds' : List Decl} :
    Decl.MatchesList N T ds ds' →
    Decl.MatchesList N T (Decl.writeBackList s ds) (Decl.writeBackList s' ds')
  | .nil => .nil
  | .cons hd hds => .cons (Decl.Matches.writeBack hs hd) (Decl.MatchesList.writeBack hs hds)

end

/-! ## Whole programs -/

theorem Expr.Matches.subexprs_length {e e' : Expr} (h : e.Matches N T e') :
    e'.subexprs.length = e.subexprs.length := by
  induction h with
  | literal => rfl
  | use => rfl
  | binary _ _ _ ihl ihr => simp only [Expr.subexprs, List.cons_append, List.length_cons,
      List.length_append, ihl, ihr]

mutual

theorem Stmt.Matches.exprs_length {stmt stmt' : Stmt} : stmt.Matches N T stmt' →
    stmt'.exprs.length = stmt.exprs.length
  | .assign _ he | .output _ he => by simp only [Stmt.exprs, he.subexprs_length]
  | .begin _ hss => by simp only [Stmt.exprs, Stmt.MatchesList.exprs_length hss]
  | .if _ hg hb | .while _ hg hb => by
    simp only [Stmt.exprs, List.length_append, hg.subexprs_length, Stmt.Matches.exprs_length hb]
  | .call .. | .input .. | .empty _ => by simp only [Stmt.exprs]

theorem Stmt.MatchesList.exprs_length {ss ss' : List Stmt} : Stmt.MatchesList N T ss ss' →
    (Stmt.exprsList ss').length = (Stmt.exprsList ss).length
  | .nil => rfl
  | .cons hstmt hss => by
    simp only [Stmt.exprsList, List.length_append, Stmt.Matches.exprs_length hstmt,
      Stmt.MatchesList.exprs_length hss]

end

mutual

theorem Decl.Matches.exprs_length {d d' : Decl} : d.Matches N T d' →
    d'.exprs.length = d.exprs.length
  | .const _ | .var _ => by simp only [Decl.exprs]
  | .procedure _ hds hstmt => by
    simp only [Decl.exprs, List.length_append, Decl.MatchesList.exprs_length hds,
      hstmt.exprs_length]

theorem Decl.MatchesList.exprs_length {ds ds' : List Decl} : Decl.MatchesList N T ds ds' →
    (Decl.exprsList ds').length = (Decl.exprsList ds).length
  | .nil => rfl
  | .cons hd hds => by
    simp only [Decl.exprsList, List.length_append, Decl.Matches.exprs_length hd,
      Decl.MatchesList.exprs_length hds]

end

theorem Program.Matches.expressions_length {p p' : Program} (h : p.Matches N T p') :
    p'.expressions.length = p.expressions.length := by
  simp only [Program.expressions, List.length_append, h.block.decls.exprs_length,
    h.block.stmt.exprs_length]

namespace Engine

variable {s s' : Engine}

theorem Alike.note (hs : s.Alike s') {d d' : Decl} (h : d.Matches N T d') :
    (s.note d).Alike (s'.note d') := by
  unfold Engine.note
  rw [h.head.id]
  refine hs.set d.head.id ?_
  rw [EngineEntry.slot, EngineEntry.slot, h.kind_eq, h.head.ty]

mutual

/-- Declarations are noted in one order. -/
theorem Alike.note_subtree {s s' : Engine} (hs : s.Alike s') {d d' : Decl} : d.Matches N T d' →
    (d.subtree.foldl Engine.note s).Alike (d'.subtree.foldl Engine.note s')
  | .const hhead => hs.note (T := T) (.const hhead)
  | .var hhead => hs.note (T := T) (.var hhead)
  | .procedure hhead hds hstmt => by
    rw [Decl.subtree, Decl.subtree, List.foldl_cons, List.foldl_cons]
    exact Alike.note_subtrees (hs.note (.procedure hhead hds hstmt)) hds

theorem Alike.note_subtrees {s s' : Engine} (hs : s.Alike s') {ds ds' : List Decl} :
    Decl.MatchesList N T ds ds' →
    ((Decl.subtrees ds).foldl Engine.note s).Alike ((Decl.subtrees ds').foldl Engine.note s')
  | .nil => hs
  | .cons hd hds => by
    rw [Decl.subtrees, Decl.subtrees, List.foldl_append, List.foldl_append]
    exact Alike.note_subtrees (Alike.note_subtree hs hd) hds

end

theorem alike_ofProgram {p p' : Program} (h : p.Matches N T p') :
    (Engine.ofProgram p).Alike (Engine.ofProgram p') := by
  unfold Engine.ofProgram Program.declarations
  rw [h.declCount]
  exact Alike.note_subtrees ⟨rfl, rfl⟩ h.block.decls

theorem agree_pass (strict : Bool) (hs : s.Alike s') {p p' : Program} (h : p.Matches N T p') :
    Walk.AgreeInferring (Program.Matches N T) (s.pass strict p) (s'.pass strict p') := by
  unfold pass
  have hstart : Engine.Alike { s with changed := false } { s' with changed := false } :=
    ⟨hs.slots, rfl⟩
  have hvisited := agree_inferBlock strict hstart h.block.decls h.block.stmt
    fun _ _ hs => Decl.agree_inferList strict hs h.block.decls
  refine Walk.Agree.onward (R := Program.Matches N T) ?_ fun q q' s s' hq hs => ?_
  · exact hvisited.map fun _ _ hb => ⟨hb, h.token, h.declCount⟩
  · exact .done ⟨⟨hq.block.decls.writeBack hs, hq.block.stmt⟩, hq.token, hq.declCount⟩ hs

theorem fixpoint_of_done {n done : Nat} {p q : Program} {t : Engine}
    (h : s.pass false p = .done q t) :
    fixpoint (n + 1) done s p =
      if minPasses ≤ done + 1 ∧ ¬t.changed then (.done q t, done + 1)
      else fixpoint n (done + 1) t q := by
  rw [fixpoint, h]
  rfl

/-- The passes come to their end together. -/
theorem agree_fixpoint (budget done : Nat) (hs : s.Alike s') {p p' : Program}
    (h : p.Matches N T p') :
    Walk.AgreeInferring (Program.Matches N T) (fixpoint budget done s p).1
        (fixpoint budget done s' p').1 ∧
      (fixpoint budget done s' p').2 = (fixpoint budget done s p).2 := by
  induction budget generalizing done s s' p p' with
  | zero => exact ⟨.done h hs, rfl⟩
  | succ n ih =>
    have hpass := agree_pass false hs h
    generalize hw : s.pass false p = w at hpass
    generalize hw' : s'.pass false p' = w' at hpass
    cases hpass with
    | stop hfault =>
      rw [fixpoint, fixpoint, hw, hw']
      exact ⟨.stop hfault, rfl⟩
    | @done q q' t t' hq ht =>
      -- both have filled a slot or neither has, so both go on or neither does
      rw [fixpoint_of_done hw, fixpoint_of_done hw', ht.changed]
      split
      · exact ⟨.done hq ht, rfl⟩
      · exact ih (done + 1) ht hq

theorem agrees_infer (hs : s.Alike s') {p p' : Program} (h : p.Matches N T p') :
    Agrees TypeFault.Same (fun n n' => n' = n ∧ (s.infer p).1.Matches N T (s'.infer p').1)
      (s.infer p).2 (s'.infer p').2 := by
  obtain ⟨hfix, hpasses⟩ := agree_fixpoint (p.declCount + p.expressions.length + minPasses) 0 hs h
  simp only [infer, h.declCount, h.expressions_length, hpasses]
  have hstrict := hfix.onward fun _ _ _ _ hq hs => agree_pass true hs hq
  generalize Walk.onward _ (fun p s => pass true s p) = w at hstrict ⊢
  generalize Walk.onward _ (fun p s => pass true s p) = w' at hstrict ⊢
  cases hstrict with
  | stop hfault => exact .error hfault
  | done hq _ => exact .ok ⟨rfl, hq⟩

end Engine

/-- Inference looks at no token: trees that match get the same types after as many passes, or faults
of one class. -/
theorem Program.agrees_inferTypes {p p' : Program} (h : p.Matches N T p') :
    Agrees TypeFault.Same (fun n n' => n' = n ∧ p.inferTypes.1.Matches N T p'.inferTypes.1)
      p.inferTypes.2 p'.inferTypes.2 :=
  Engine.agrees_infer (Engine.alike_ofProgram h) h

end PLZero
