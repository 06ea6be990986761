import PLZero.Proofs.Typing.Filling
import PLZero.Proofs.Typing.Signature

/-!
# Passes agree with every typing

A typing obeys the rules with every slot full; a tree on the way to it has only some of its types.
`Expr.Below`, `Stmt.Below` and `Decl.Below` say that of two trees, and `Engine.Under` of an engine
and a signature.  What a pass fills in is forced: if the tree and the engine are below a typing
when the pass begins, they still are when it ends, whether it fails or not.

A pass can fail below a typing for two reasons only (`TypeFault.Tolerated`): it is strict and
something is not known yet, or the typing uses an operator table that is wider than that of the
language.  So below a typing of the language a pass that is not strict never fails.
-/

namespace PLZero

/-! ## Trees below a typing -/

/-- The slot is empty, or holds what the other one holds. -/
abbrev SlotBelow (a b : Option Ty) : Prop := a = none ∨ a = b

theorem SlotBelow.eq_of_some {a : Option Ty} {t ty : Ty} (h : SlotBelow a (some ty))
    (ha : a = some t) : t = ty := by
  simpa [SlotBelow, ha] using h

inductive Expr.Below : Expr → Expr → Prop where
  | literal {token : Token} {a b : Option Ty} {value : Value} :
      SlotBelow a b → Below (.literal token a value) (.literal token b value)
  | use {ident : Ident} {a b : Option Ty} : SlotBelow a b → Below (.use ident a) (.use ident b)
  | binary {token : Token} {a b : Option Ty} {op : Op} {lhs lhs' rhs rhs' : Expr} :
      SlotBelow a b → Below lhs lhs' → Below rhs rhs' →
      Below (.binary token a op lhs rhs) (.binary token b op lhs' rhs')

mutual

inductive Stmt.Below : Stmt → Stmt → Prop where
  | assign {target : Ident} {e e' : Expr} :
      e.Below e' → Below (.assign target e) (.assign target e')
  | call (token : Token) (target : Ident) : Below (.call token target) (.call token target)
  | input (token : Token) (target : Ident) : Below (.input token target) (.input token target)
  | output {token : Token} {e e' : Expr} : e.Below e' → Below (.output token e) (.output token e')
  | begin {token : Token} {ss ss' : List Stmt} :
      Stmt.BelowList ss ss' → Below (.begin token ss) (.begin token ss')
  | «if» {token : Token} {g g' : Expr} {b b' : Stmt} :
      g.Below g' → Below b b' → Below (.if token g b) (.if token g' b')
  | «while» {token : Token} {g g' : Expr} {b b' : Stmt} :
      g.Below g' → Below b b' → Below (.while token g b) (.while token g' b')
  | empty (token : Token) : Below (.empty token) (.empty token)

inductive Stmt.BelowList : List Stmt → List Stmt → Prop where
  | nil : BelowList [] []
  | cons {s s' : Stmt} {ss ss' : List Stmt} :
      Stmt.Below s s' → BelowList ss ss' → BelowList (s :: ss) (s' :: ss')

end

mutual

/-- Below in its expressions; the slots of declarations are left to the engine. -/
inductive Decl.Below : Decl → Decl → Prop where
  | const {head head' : DeclHead} {value : Value} :
      head.untyped = head'.untyped → Below (.const head value) (.const head' value)
  | var {head head' : DeclHead} : head.untyped = head'.untyped → Below (.var head) (.var head')
  | procedure {head head' : DeclHead} {ds ds' : List Decl} {s s' : Stmt} :
      head.untyped = head'.untyped → Decl.BelowList ds ds' → s.Below s' →
      Below (.procedure head ds s) (.procedure head' ds' s')

inductive Decl.BelowList : List Decl → List Decl → Prop where
  | nil : BelowList [] []
  | cons {d d' : Decl} {ds ds' : List Decl} :
      Decl.Below d d' → BelowList ds ds' → BelowList (d :: ds) (d' :: ds')

end

structure Block.Below (b b' : Block) : Prop where
  decls : Decl.BelowList b.decls b'.decls
  stmt : b.stmt.Below b'.stmt

theorem Expr.Below.refl (e : Expr) : e.Below e := by
  induction e with
  | literal => exact .literal (.inr rfl)
  | use => exact .use (.inr rfl)
  | binary _ _ _ _ _ ihl ihr => exact .binary (.inr rfl) ihl ihr

mutual

theorem Stmt.Below.refl : (stmt : Stmt) → stmt.Below stmt
  | .assign _ expr => .assign (.refl expr)
  | .call token target => .call token target
  | .input token target => .input token target
  | .output _ expr => .output (.refl expr)
  | .begin _ stmts => .begin (Stmt.BelowList.refl stmts)
  | .if _ guard body => .if (.refl guard) (Stmt.Below.refl body)
  | .while _ guard body => .while (.refl guard) (Stmt.Below.refl body)
  | .empty token => .empty token

theorem Stmt.BelowList.refl : (stmts : List Stmt) → Stmt.BelowList stmts stmts
  | [] => .nil
  | stmt :: stmts => .cons (Stmt.Below.refl stmt) (Stmt.BelowList.refl stmts)

end

mutual

theorem Decl.Below.refl : (d : Decl) → d.Below d
  | .const .. => .const rfl
  | .var _ => .var rfl
  | .procedure _ decls stmt => .procedure rfl (Decl.BelowList.refl decls) (.refl stmt)

theorem Decl.BelowList.refl : (ds : List Decl) → Decl.BelowList ds ds
  | [] => .nil
  | d :: ds => .cons (Decl.Below.refl d) (Decl.BelowList.refl ds)

end

theorem Block.Below.refl (b : Block) : b.Below b := ⟨.refl b.decls, .refl b.stmt⟩

/-- What the engine holds of the declarations in the signature is right. -/
def Engine.Under (s : Engine) (Γ : Signature) : Prop :=
  ∀ (id : Nat) (kind : DeclKind) (ty : Ty), Γ id = some (kind, ty) →
    ∃ entry, s.entries[id]? = some entry ∧ entry.kind = kind ∧ SlotBelow entry.ty (some ty)

/-- The faults that a pass can end with below a typing over the table `T`. -/
def TypeFault.Tolerated (T : OpTable) (strict : Bool) : TypeFault → Prop
  | .inapplicable op operand _ => T op operand ≠ op.resultTy? operand
  | .unknownVariable _ | .unknownInput _ | .unknownExpr _ _ => strict = true
  | _ => False

/-! ## Walks that stay below -/

/-- The walk has stayed below: its tree satisfies `P`, and its engine and fault are as expected. -/
structure Walk.Within {α : Type} (T : OpTable) (strict : Bool) (Γ : Signature) (P : α → Prop)
    (w : Inferring α) : Prop where
  tree : P w.tree
  state : w.state.Under Γ
  fault : ∀ f, w.fault = some f → f.Tolerated T strict

namespace Walk.Within

variable {T : OpTable} {strict : Bool} {Γ : Signature} {α β γ : Type} {P : α → Prop} {Q : β → Prop}
  {R : γ → Prop} {a : α} {s : Engine}

theorem done (ha : P a) (hs : s.Under Γ) : Walk.Within T strict Γ P (.done a s) :=
  ⟨ha, hs, by simp [Walk.done]⟩

theorem stop {f : TypeFault} (ha : P a) (hs : s.Under Γ) (hf : f.Tolerated T strict) :
    Walk.Within T strict Γ P (.stop a s f) :=
  ⟨ha, hs, by simp [Walk.stop, hf]⟩

theorem map {w : Inferring α} {f : α → β} (hw : w.Within T strict Γ P) (hf : ∀ a, P a → Q (f a)) :
    (w.map f).Within T strict Γ Q :=
  ⟨hf _ hw.tree, hw.state, hw.fault⟩

theorem onward {w : Inferring α} {next : α → Engine → Inferring α} (hw : w.Within T strict Γ P)
    (hnext : ∀ a s, P a → s.Under Γ → (next a s).Within T strict Γ P) :
    (w.onward next).Within T strict Γ P := by
  unfold Walk.onward
  split
  · exact hw
  · exact hnext _ _ hw.tree hw.state

theorem andThen {w : Inferring α} {b : β} {next : Engine → Inferring β} {join : α → β → γ}
    (hw : w.Within T strict Γ P) (hb : Q b) (hnext : ∀ s, s.Under Γ → (next s).Within T strict Γ Q)
    (hjoin : ∀ a b, P a → Q b → R (join a b)) : (w.andThen b next join).Within T strict Γ R := by
  unfold Walk.andThen
  split
  · rename_i fault hf
    exact ⟨hjoin _ _ hw.tree hb, hw.state, by simpa [hf] using hw.fault⟩
  · exact (hnext _ hw.state).map fun b hb => hjoin _ _ hw.tree hb

end Walk.Within

/-! ## Expressions -/

namespace Engine

variable {s : Engine} {Γ : Signature}

theorem Under.mark (h : s.Under Γ) (b : Bool) : (s.mark b).Under Γ := h

theorem Under.fillDecl {id : Nat} {entry : EngineEntry} {kind : DeclKind} {ty : Ty} (h : s.Under Γ)
    (hentry : s.entries[id]? = some entry) (hsig : Γ id = some (kind, ty)) :
    (s.fillDecl id entry ty).Under Γ := by
  intro i k t hi
  obtain ⟨e, he, hk, ht⟩ := h i k t hi
  rw [getElem?_fillDecl hentry]
  split
  · rename_i hid
    subst hid
    rw [hsig] at hi
    cases hi
    rw [hentry] at he
    cases he
    exact ⟨{ entry with ty := some ty }, rfl, hk, .inr rfl⟩
  · exact ⟨e, he, hk, ht⟩

/-- Below a typing the type of a declaration is settled without fault. -/
theorem Under.settleDecl {id : Nat} {kind : DeclKind} {ty : Ty} (h : s.Under Γ)
    (hsig : Γ id = some (kind, ty)) (cause : Token) :
    ∃ s', s.settleDecl id ty cause = .ok s' ∧ s'.Under Γ := by
  obtain ⟨entry, hentry, _, hbelow⟩ := h id kind ty hsig
  rcases s.settleDecl_cases id ty cause with
    ⟨hn, _⟩ | ⟨entry', hentry', ⟨_, hd⟩ | ⟨_, hd⟩ | ⟨c, hc, hne, _⟩⟩
  · simp [hentry] at hn
  · exact ⟨_, hd, h.fillDecl hentry' hsig⟩
  · exact ⟨s, hd, h⟩
  · rw [hentry] at hentry'
    cases hentry'
    exact absurd (hbelow.eq_of_some hc) hne

theorem Under.typeOf {id : Nat} {kind : DeclKind} {ty : Ty} (h : s.Under Γ)
    (hsig : Γ id = some (kind, ty)) : SlotBelow (s.typeOf id) (some ty) := by
  obtain ⟨entry, hentry, _, hty⟩ := h id kind ty hsig
  simpa [Engine.typeOf, hentry] using hty

theorem Under.valueDecl {ident : Ident} {id : Nat} {kind : DeclKind} {ty : Ty} (h : s.Under Γ)
    (hdecl : ident.decl = some id) (hsig : Γ id = some (kind, ty)) (hkind : kind ≠ .procedure) :
    s.valueDecl ident = .ok id := by
  obtain ⟨entry, hentry, rfl, _⟩ := h id kind ty hsig
  simp [Engine.valueDecl, Engine.entryOf, hdecl, hentry, bind, Except.bind, hkind, pure,
    Except.pure]

theorem Under.target {ident : Ident} {id : Nat} {ty : Ty} (h : s.Under Γ) (use : TargetUse)
    (hdecl : ident.decl = some id) (hsig : Γ id = some (use.kind, ty)) :
    s.target ident use = .ok id := by
  obtain ⟨entry, hentry, hkind, _⟩ := h id _ ty hsig
  simp [Engine.target, Engine.entryOf, hdecl, hentry, bind, Except.bind, hkind, pure, Except.pure]

end Engine

section Expressions

variable {T : OpTable} (hT : T.Regular) {strict : Bool} {Γ : Signature} {s : Engine}

namespace Expr

variable {e e' : Expr} {ty : Ty}

theorem Below.ty_below (h : e.Below e') (ht : e'.HasTy T Γ ty) : SlotBelow e.ty (some ty) := by
  rw [← ht.ty_eq]
  cases h <;> assumption

theorem Below.setTy (h : e.Below e') (ht : e'.HasTy T Γ ty) : (e.setTy (some ty)).Below e' := by
  have hty := ht.ty_eq
  cases h with
  | literal => exact .literal (.inr hty.symm)
  | use => exact .use (.inr hty.symm)
  | binary _ hl hr => exact .binary (.inr hty.symm) hl hr

theorem within_settleTy (h : e.Below e') (ht : e'.HasTy T Γ ty) (hs : s.Under Γ) :
    (e.settleTy ty s).Within T strict Γ (Below · e') := by
  rcases e.settleTy_cases ty s with ⟨_, hd⟩ | ⟨_, hd⟩ | ⟨c, hc, hne, _⟩
  · rw [hd]; exact .done (h.setTy ht) (hs.mark true)
  · rw [hd]; exact .done h hs
  · exact absurd ((h.ty_below ht).eq_of_some hc) hne

theorem within_afterDecl {id : Nat} {kind : DeclKind} {cause : Token} (h : e.Below e')
    (hsig : Γ id = some (kind, ty)) (hs : s.Under Γ) :
    (e.afterDecl s (s.settleDecl id ty cause)).Within T strict Γ (Below · e') := by
  obtain ⟨s', hd, hs'⟩ := hs.settleDecl hsig cause
  rw [hd]
  exact .done h hs'

include hT in
theorem within_push (ty : Ty) (h : e.Below e') (ht : e'.HasTy T Γ ty) (hs : s.Under Γ) :
    (e.push ty s).Within T strict Γ (Below · e') := by
  induction h generalizing ty s with
  | literal hslot => exact within_settleTy (.literal hslot) ht hs
  | use hslot =>
    refine (within_settleTy (.use hslot) ht hs).onward fun e s he hs => ?_
    cases ht with
    | use hdecl hsig hkind _ =>
      simp only [hs.valueDecl hdecl hsig hkind]
      exact within_afterDecl he hsig hs
  | @binary token a b op lhs lhs' rhs rhs' hslot hl hr ihl ihr =>
    cases ht with
    | @binary _ _ _ _ operand _ htl htr hop =>
      simp only [push]
      cases hsettle : settle a ty with
      | error c =>
        rcases hslot with rfl | rfl
        · simp [settle] at hsettle
        · simp [settle] at hsettle
      | ok filled =>
        simp only
        split
        · exact .done (.binary (.inr rfl) hl hr) (hs.mark _)
        · -- Arithmetic has the type of its operands, so the same type may go down to them.
          have hoperand : operand = ty := by
            cases op with
            | arith a => exact (hT.arith hop).symm
            | compare c => simp [Op.isRelational] at *
          subst hoperand
          refine Walk.Within.andThen (P := (Below · lhs')) (Q := (Below · rhs')) ?_ hr
            (fun s hs => ?_) fun _ _ hl hr => .binary (.inr rfl) hl hr
          · split
            · exact ihl _ htl (hs.mark _)
            · exact .done hl (hs.mark _)
          · split
            · exact ihr _ htr hs
            · exact .done hr hs

include hT in
theorem within_balance {token : Token} {slot : Option Ty} {op : Op} {lhs rhs : Expr}
    (h : (Expr.binary token slot op lhs rhs).Below e') (ht : e'.HasTy T Γ ty) (hs : s.Under Γ) :
    (balance token slot op lhs rhs s).Within T strict Γ (Below · e') := by
  cases h with
  | @binary _ _ b _ _ lhs' _ rhs' hslot hl hr =>
    cases ht with
    | @binary _ _ _ _ operand _ htl htr hop =>
      have hlty := hl.ty_below htl
      have hrty := hr.ty_below htr
      unfold balance
      split
      · rename_i t hlt _
        cases hlty.eq_of_some hlt
        exact (within_push hT _ hr htr hs).map fun _ hr => .binary hslot hl hr
      · rename_i t _ hrt
        cases hrty.eq_of_some hrt
        exact (within_push hT _ hl htl hs).map fun _ hl => .binary hslot hl hr
      · cases hslot.eq_of_some rfl
        cases hT.arith hop
        exact (within_push hT _ hl htl hs).andThen hr (fun s hs => within_push hT _ hr htr hs)
          fun _ _ hl hr => .binary hslot hl hr
      · exact .done (.binary hslot hl hr) hs

include hT in
theorem within_combine {op : Op} {operand : Ty} {left right : Option Ty} (h : e.Below e')
    (ht : e'.HasTy T Γ ty) (hop : T op operand = some ty) (hleft : SlotBelow left (some operand))
    (hright : SlotBelow right (some operand)) (hs : s.Under Γ) :
    (combine op left right e s).Within T strict Γ (Below · e') := by
  unfold combine
  refine Walk.Within.onward ?_ fun e s h hs => ?_
  · rcases op with a | c
    · exact .done h hs
    · cases hT.compare hop
      exact within_settleTy h ht hs
  · rcases hleft with rfl | rfl
    · exact .done h hs
    · rcases hright with rfl | rfl
      · exact .done h hs
      · simp only [if_true]
        split
        · rename_i ty' hres
          have hagree := hT.agrees hres
          rw [hop] at hagree
          cases hagree
          exact within_settleTy h ht hs
        · rename_i hres
          refine .stop h hs ?_
          simp [TypeFault.Tolerated, hres, hop]

include hT in
theorem within_meetOperands (h : e.Below e') (ht : e'.HasTy T Γ ty) (hs : s.Under Γ) :
    (e.meetOperands s).Within T strict Γ (Below · e') := by
  cases h with
  | literal hslot => exact .done (.literal hslot) hs
  | use hslot => exact .done (.use hslot) hs
  | binary hslot hl hr =>
    rw [meetOperands]
    refine (within_balance hT (.binary hslot hl hr) ht hs).onward fun e s he hs => ?_
    cases ht with
    | binary htl htr hop =>
      cases he with
      | binary hslot hl hr =>
        exact within_combine hT (.binary hslot hl hr) (.binary htl htr hop) hop (hl.ty_below htl)
          (hr.ty_below htr) hs

theorem within_meetDecl {ident : Ident} {slot : Option Ty} (h : (Expr.use ident slot).Below e')
    (ht : e'.HasTy T Γ ty) (hs : s.Under Γ) :
    (meetDecl ident slot s).Within T strict Γ (Below · e') := by
  have hslot := h.ty_below ht
  cases h with
  | use hbelow =>
    cases ht with
    | use hdecl hsig hkind hval =>
      simp only [meetDecl, hs.valueDecl hdecl hsig hkind]
      split
      · rename_i hty
        cases (hs.typeOf hsig).eq_of_some hty
        exact within_settleTy (.use hbelow) (.use hdecl hsig hkind hval) hs
      · cases hslot.eq_of_some rfl
        exact within_afterDecl (.use hbelow) hsig hs
      · exact .done (.use hbelow) hs

theorem within_demand (h : e.Below e') (hs : s.Under Γ) :
    (e.demand strict s).Within T strict Γ (Below · e') := by
  unfold demand
  split
  · rename_i hstrict
    simp only [Bool.and_eq_true] at hstrict
    exact .stop h hs hstrict.1
  · exact .done h hs

include hT in
theorem within_infer (h : e.Below e') (ht : e'.HasTy T Γ ty) (hs : s.Under Γ) :
    (e.infer strict s).Within T strict Γ (Below · e') := by
  induction h generalizing ty s with
  | literal hslot =>
    cases ht with
    | literal =>
      exact (within_settleTy (.literal hslot) (.literal ..) hs).onward fun _ _ => within_demand
  | use hslot => exact (within_meetDecl (.use hslot) ht hs).onward fun _ _ => within_demand
  | binary hslot hl hr ihl ihr =>
    cases ht with
    | binary htl htr hop =>
      refine Walk.Within.onward (Walk.Within.onward ?_ fun _ _ he hs => ?_) fun _ _ => within_demand
      · exact (ihl htl hs).andThen hr (fun s hs => ihr htr hs) fun _ _ hl hr => .binary hslot hl hr
      · exact within_meetOperands hT he (.binary htl htr hop) hs

include hT in
theorem within_inferGuard (h : e.Below e') (ht : e'.HasTy T Γ .boolean) (hs : s.Under Γ) :
    (e.inferGuard strict s).Within T strict Γ (Below · e') := by
  refine (within_infer hT h ht hs).onward fun e s h hs => ?_
  rcases h.ty_below ht with hty | hty
  · simp only [hty]
    exact within_push hT _ h ht hs
  · simp only [hty]
    exact .done h hs

end Expr

/-! ## Statements -/

include hT in
theorem Stmt.within_infer_output {token : Token} {e e' : Expr} {ty : Ty} (h : e.Below e')
    (ht : e'.HasTy T Γ ty) (hs : s.Under Γ) :
    ((Stmt.output token e).infer strict s).Within T strict Γ (Stmt.Below · (.output token e')) := by
  rw [Stmt.infer]
  refine Walk.Within.map (P := (Expr.Below · e')) ?_ fun _ he => .output he
  refine (Expr.within_infer hT h ht hs).onward fun e s h hs => ?_
  rcases h.ty_below ht with hty | hty
  · simp only [hty]
    exact .done h hs
  · simp only [hty, ht.isValue hT, if_true]
    exact .done h hs

include hT in
theorem Stmt.within_infer_assign {target : Ident} {e e' : Expr} {id : Nat} {ty : Ty}
    (h : e.Below e') (hdecl : target.decl = some id) (hsig : Γ id = some (.var, ty))
    (ht : e'.HasTy T Γ ty) (hs : s.Under Γ) :
    ((Stmt.assign target e).infer strict s).Within T strict Γ
      (Stmt.Below · (.assign target e')) := by
  rw [Stmt.infer]
  simp only [hs.target .assign hdecl hsig]
  refine Walk.Within.map (P := (Expr.Below · e')) ?_ fun _ he => .assign he
  refine (Expr.within_infer hT h ht hs).onward fun e s h hs => ?_
  rcases h.ty_below ht with hty | hty <;> rcases hs.typeOf hsig with hid | hid <;>
    simp only [hty, hid]
  · exact .done h hs
  · exact Expr.within_push hT _ h ht hs
  · exact Expr.within_afterDecl h hsig hs
  · exact Expr.within_afterDecl h hsig hs

end Expressions

section Statements

variable {T : OpTable} {strict : Bool} {Γ : Signature}

mutual

theorem Stmt.within_infer (hT : T.Regular) {stmt stmt' : Stmt} (h : stmt.Below stmt')
    (ht : stmt'.WellTyped T Γ) {s : Engine} (hs : s.Under Γ) :
    (stmt.infer strict s).Within T strict Γ (Stmt.Below · stmt') := by
  cases h with
  | assign he =>
    cases ht with
    | assign hdecl hsig hte => exact Stmt.within_infer_assign hT he hdecl hsig hte hs
  | call token target =>
    cases ht with
    | call hdecl hsig =>
      rw [Stmt.infer]
      simp only [hs.target .call hdecl hsig]
      exact .done (.call token target) hs
  | input token target =>
    cases ht with
    | input hdecl hsig =>
      rw [Stmt.infer]
      simp only [hs.target .read hdecl hsig]
      split
      · rename_i hstrict
        simp only [Bool.and_eq_true] at hstrict
        exact .stop (.input token target) hs hstrict.1
      · exact .done (.input token target) hs
  | output he =>
    cases ht with
    | output hte => exact Stmt.within_infer_output hT he hte hs
  | begin hss =>
    cases ht with
    | begin htss =>
      rw [Stmt.infer]
      exact (Stmt.within_inferList hT hss htss hs).map fun _ h => .begin h
  | «if» hg hb =>
    cases ht with
    | «if» htg htb =>
      rw [Stmt.infer]
      exact (Expr.within_inferGuard hT hg htg hs).andThen hb
        (fun s hs => Stmt.within_infer hT hb htb hs) fun _ _ hg hb => .if hg hb
  | «while» hg hb =>
    cases ht with
    | «while» htg htb =>
      rw [Stmt.infer]
      exact (Expr.within_inferGuard hT hg htg hs).andThen hb
        (fun s hs => Stmt.within_infer hT hb htb hs) fun _ _ hg hb => .while hg hb
  | empty token => exact .done (.empty token) hs

theorem Stmt.within_inferList (hT : T.Regular) {ss ss' : List Stmt} (h : Stmt.BelowList ss ss')
    (ht : ∀ stmt ∈ ss', stmt.WellTyped T Γ) {s : Engine} (hs : s.Under Γ) :
    (Stmt.inferList strict ss s).Within T strict Γ (Stmt.BelowList · ss') := by
  cases h with
  | nil => exact .done .nil hs
  | cons hd htl =>
    rw [List.forall_mem_cons] at ht
    rw [Stmt.inferList]
    exact (Stmt.within_infer hT hd ht.1 hs).andThen htl
      (fun s hs => Stmt.within_inferList hT htl ht.2 hs) fun _ _ h hs => .cons h hs

end

/-! ## Blocks -/

theorem Decl.Below.head_eq {d d' : Decl} (h : d.Below d') : d.head.untyped = d'.head.untyped := by
  cases h <;> assumption

theorem Decl.Below.formTy_eq {d d' : Decl} (h : d.Below d') (ht : d'.WellTyped T Γ) {ty : Ty}
    (hty : d'.head.ty = some ty) : SlotBelow d.formTy? (some ty) := by
  cases h with
  | const _ =>
    cases ht with
    | const hval =>
      right
      rw [← hty]
      exact hval.symm
  | var _ => exact .inl rfl
  | procedure _ _ _ =>
    cases ht with
    | procedure hval _ _ =>
      right
      rw [← hty]
      exact hval.symm

theorem Engine.within_declare (strict : Bool) {ds ds' : List Decl} (h : Decl.BelowList ds ds')
    (ht : ∀ d ∈ ds', d.WellTyped T Γ) (hrec : Γ.Records ds') {s : Engine} (hs : s.Under Γ) :
    (s.declare strict ds).1.Under Γ ∧
      ∀ f, (s.declare strict ds).2 = some f → f.Tolerated T strict := by
  induction ds generalizing ds' s with
  | nil => exact ⟨hs, by simp [Engine.declare]⟩
  | cons d ds ih =>
    cases h with
    | @cons _ d' _ ds' hd hds =>
      rw [List.forall_mem_cons] at ht
      have hrest := (Signature.records_cons.mp hrec).2
      obtain ⟨ty, hty, hsig⟩ := hrec d' (Decl.mem_subtrees (List.mem_cons_self ..))
      have hid : d.head.untyped.id = d'.head.untyped.id := by rw [hd.head_eq]
      replace hsig : Γ d.head.id = some (d'.kind, ty) := by rw [← hsig]; exact congrArg Γ hid
      rcases hd.formTy_eq ht.1 hty with hform | hform <;> simp only [Engine.declare, hform]
      · split
        · rename_i hstrict
          simp only [Bool.and_eq_true] at hstrict
          exact ⟨hs, fun f hf => by cases hf; exact hstrict.1⟩
        · exact ih hds ht.2 hrest hs
      · obtain ⟨s', hset, hs'⟩ := hs.settleDecl hsig d.head.token
        simp only [hset]
        exact ih hds ht.2 hrest hs'

theorem Engine.within_inferBlock (hT : T.Regular) {b b' : Block} (h : b.Below b')
    (hdecls : ∀ d ∈ b'.decls, d.WellTyped T Γ) (hstmt : b'.stmt.WellTyped T Γ)
    (hrec : Γ.Records b'.decls) {bodies : Engine → Inferring (List Decl)}
    (hbodies : ∀ s, s.Under Γ → (bodies s).Within T strict Γ (Decl.BelowList · b'.decls))
    {s : Engine} (hs : s.Under Γ) :
    (s.inferBlock strict b.decls b.stmt bodies).Within T strict Γ (Block.Below · b') := by
  have hdeclare := Engine.within_declare strict h.decls hdecls hrec hs
  unfold Engine.inferBlock
  split
  · rename_i s' f hf
    rw [hf] at hdeclare
    exact .stop h hdeclare.1 (hdeclare.2 f rfl)
  · rename_i s' hf
    rw [hf] at hdeclare
    exact (hbodies s' hdeclare.1).andThen h.stmt
      (fun s hs => Stmt.within_infer hT h.stmt hstmt hs) fun _ _ hd hs => ⟨hd, hs⟩

mutual

theorem Decl.within_infer (hT : T.Regular) {d d' : Decl} (h : d.Below d') (ht : d'.WellTyped T Γ)
    (hrec : Γ.Records [d']) {s : Engine} (hs : s.Under Γ) :
    (d.infer strict s).Within T strict Γ (Decl.Below · d') := by
  cases h with
  | const hhead => exact .done (.const hhead) hs
  | var hhead => exact .done (.var hhead) hs
  | @procedure _ _ ds ds' stmt stmt' hhead hds hstmt =>
    cases ht with
    | procedure _ htds htstmt =>
      have hblock : Block.Below ⟨ds, stmt⟩ ⟨ds', stmt'⟩ := ⟨hds, hstmt⟩
      rw [Decl.infer]
      refine (Engine.within_inferBlock hT hblock htds htstmt hrec.inside (fun s hs => ?_) hs).map
        fun _ hb => .procedure hhead hb.decls hb.stmt
      exact Decl.within_inferList hT hds htds hrec.inside hs

theorem Decl.within_inferList (hT : T.Regular) {ds ds' : List Decl} (h : Decl.BelowList ds ds')
    (ht : ∀ d ∈ ds', d.WellTyped T Γ) (hrec : Γ.Records ds') {s : Engine} (hs : s.Under Γ) :
    (Decl.inferList strict ds s).Within T strict Γ (Decl.BelowList · ds') := by
  cases h with
  | nil => exact .done .nil hs
  | cons hd htl =>
    rw [List.forall_mem_cons] at ht
    rw [Signature.records_cons] at hrec
    rw [Decl.inferList]
    exact (Decl.within_infer hT hd ht.1 hrec.1 hs).andThen htl
      (fun s hs => Decl.within_inferList hT htl ht.2 hrec.2 hs) fun _ _ h hs => .cons h hs

end

end Statements

/-! ## Passes -/

mutual

theorem Decl.below_writeBack {s : Engine} {d d' : Decl} (h : d.Below d') :
    (d.writeBack s).Below d' := by
  cases h with
  | const hhead => exact .const hhead
  | var hhead => exact .var hhead
  | procedure hhead hds hstmt => exact .procedure hhead (Decl.belowList_writeBack hds) hstmt

theorem Decl.belowList_writeBack {s : Engine} {ds ds' : List Decl} (h : Decl.BelowList ds ds') :
    Decl.BelowList (Decl.writeBackList s ds) ds' := by
  cases h with
  | nil => exact .nil
  | cons hd hds => exact .cons (Decl.below_writeBack hd) (Decl.belowList_writeBack hds)

end

namespace Engine

variable {T : OpTable} {p q : Program} {s : Engine}

theorem within_visit (hT : T.Regular) (strict : Bool) (hq : q.WellTyped T)
    (hrec : q.signature.Records q.block.decls) (h : p.block.Below q.block)
    (hs : s.Under q.signature) :
    (s.visit strict p).Within T strict q.signature (Block.Below · q.block) :=
  within_inferBlock hT h hq.decls hq.stmt hrec
    (fun _ hs => Decl.within_inferList hT h.decls hq.decls hrec hs) hs

/-- **A pass that begins below a typing ends below it**, and fails only for tolerated reasons. -/
theorem within_pass (hT : T.Regular) (strict : Bool) (hq : q.WellTyped T)
    (hrec : q.signature.Records q.block.decls) (h : p.block.Below q.block)
    (hs : s.Under q.signature) :
    (s.pass strict p).Within T strict q.signature fun p => p.block.Below q.block := by
  have hvisit := within_visit hT strict hq hrec h hs
  rw [pass_eq]
  split
  · rename_i f hf
    exact .stop hvisit.tree hvisit.state (hvisit.fault f hf)
  · exact .done ⟨Decl.belowList_writeBack hvisit.tree.decls, hvisit.tree.stmt⟩ hvisit.state

end Engine

end PLZero
