import PLZero.Proofs.Tree.Declarations
import PLZero.Proofs.Tree.Walk
import PLZero.Proofs.Typing.Filling

/-!
# Programs on which a pass finds nothing new

`Expr.Stable`, `Stmt.Stable` and `Decl.Stable` say of a tree whose slots may be empty that no rule
is broken and none has anything left to say: what it relates is known on both sides, and then
equal, or on neither.

* `Engine.stable_of_quiet_visit` — a pass that neither fails nor fills a slot has visited a stable
  program, and leaves it as it was.
* `Engine.visit_of_stable` — a pass over a stable program changes nothing, and a strict one fails
  on it unless every slot is full.
-/

namespace PLZero

open Slotted (untyped slots)

/-! ## Stable trees -/

namespace Op

/-- The slot of an operation fits the slot that both of its operands have. -/
def Settled (op : Op) (ty operand : Option Ty) : Prop :=
  match operand with
  | some t => ∃ r, op.resultTy? t = some r ∧ ty = some r
  | none => ty = if op.isRelational then some .boolean else none

end Op

namespace Expr

def Stable (s : Engine) : Expr → Prop
  | .literal _ ty value => ty = some value.ty
  | .use ident ty => ∃ id, s.valueDecl ident = .ok id ∧ ty = s.typeOf id
  | .binary _ ty op lhs rhs =>
    lhs.Stable s ∧ rhs.Stable s ∧ lhs.ty = rhs.ty ∧ op.Settled ty lhs.ty

end Expr

mutual

def Stmt.Stable (s : Engine) : Stmt → Prop
  | .assign target expr =>
    ∃ id, s.target target .assign = .ok id ∧ expr.Stable s ∧ expr.ty = s.typeOf id
  | .call _ target => ∃ id, s.target target .call = .ok id
  | .input _ target => ∃ id, s.target target .read = .ok id
  | .output _ expr => expr.Stable s ∧ expr.ty ≠ some .procedure
  | .begin _ stmts => Stmt.StableList s stmts
  | .if _ guard body => guard.Stable s ∧ guard.ty = some .boolean ∧ body.Stable s
  | .while _ guard body => guard.Stable s ∧ guard.ty = some .boolean ∧ body.Stable s
  | .empty _ => True

def Stmt.StableList (s : Engine) : List Stmt → Prop
  | [] => True
  | stmt :: stmts => stmt.Stable s ∧ Stmt.StableList s stmts

end

/-- The engine holds the type that the declaration has by its form. -/
def Decl.Declared (s : Engine) (d : Decl) : Prop :=
  ∀ ty, d.formTy? = some ty → s.typeOf d.head.id = some ty

mutual

def Decl.Stable (s : Engine) : Decl → Prop
  | .procedure _ decls stmt =>
    (∀ d ∈ decls, d.Declared s) ∧ Decl.StableList s decls ∧ stmt.Stable s
  | _ => True

def Decl.StableList (s : Engine) : List Decl → Prop
  | [] => True
  | d :: ds => d.Stable s ∧ Decl.StableList s ds

end

structure Block.Stable (s : Engine) (b : Block) : Prop where
  declared : ∀ d ∈ b.decls, d.Declared s
  decls : Decl.StableList s b.decls
  stmt : b.stmt.Stable s

/-! ## Quiet walks -/

/-- The walk has not failed, and the engine is not marked at its end. -/
def Walk.Quiet {α : Type} (w : Inferring α) : Prop := w.fault = none ∧ w.state.changed = false

namespace Walk

variable {α β γ : Type} {a : α} {s : Engine}

theorem Quiet.done_iff : Quiet (.done a s : Inferring α) ↔ s.changed = false := by
  simp [Quiet, Walk.done]

theorem Quiet.not_stop {fault : TypeFault} : ¬Quiet (.stop a s fault : Inferring α) := by
  simp [Quiet, Walk.stop]

theorem Quiet.before [Slotted α] {w : Inferring α} (h : Quiet w) (hw : w.Fills a s) :
    s.changed = false := by
  have := hw.filling.changed_mono
  have hc := h.2
  cases hs : s.changed <;> simp_all

theorem Quiet.map_iff {w : Inferring α} {f : α → β} : Quiet (w.map f) ↔ Quiet w := Iff.rfl

theorem Quiet.onward [Slotted α] {w : Inferring α} {next : α → Engine → Inferring α}
    (h : Quiet (w.onward next)) (hnext : ∀ a s, (next a s).Fills a s) :
    Quiet w ∧ Quiet (next w.tree w.state) := by
  unfold Walk.onward at h
  cases hf : w.fault with
  | some fault => simp [Quiet, hf] at h
  | none =>
    simp only [hf] at h
    exact ⟨⟨hf, h.before (hnext _ _)⟩, h⟩

theorem Quiet.andThen [Slotted β] {w : Inferring α} {b : β} {next : Engine → Inferring β}
    {join : α → β → γ} (h : Quiet (w.andThen b next join)) (hnext : ∀ s, (next s).Fills b s) :
    Quiet w ∧ Quiet (next w.state) := by
  unfold Walk.andThen at h
  cases hf : w.fault with
  | some fault => simp [Quiet, hf] at h
  | none =>
    simp only [hf, Quiet.map_iff] at h
    exact ⟨⟨hf, h.before (hnext _)⟩, h⟩

end Walk

/-! ## Quiet walks over expressions -/

open Walk (Quiet)

theorem Engine.settleDecl_of_typeOf {s : Engine} {id : Nat} {ty : Ty} (h : s.typeOf id = some ty)
    (cause : Token) : s.settleDecl id ty cause = .ok s := by
  rcases s.settleDecl_cases id ty cause with
    ⟨hentry, _⟩ | ⟨entry, hentry, ⟨hty, _⟩ | ⟨_, hs⟩ | ⟨c, hty, hc, _⟩⟩
  · simp [typeOf, hentry] at h
  · simp [typeOf, hentry, hty] at h
  · exact hs
  · simp only [typeOf, hentry, Option.bind_some, hty, Option.some.injEq] at h
    exact absurd h hc

namespace Expr

variable {s : Engine} {e : Expr} {ty : Ty}

theorem settleTy_of_quiet (h : Quiet (e.settleTy ty s)) :
    e.ty = some ty ∧ e.settleTy ty s = .done e s := by
  rcases e.settleTy_cases ty s with ⟨_, hs⟩ | hs | ⟨c, _, _, hs⟩
  · rw [hs] at h; simp [Quiet.done_iff, Engine.mark] at h
  · exact hs
  · rw [hs] at h; exact absurd h Quiet.not_stop

theorem settleTy_of_ty (h : e.ty = some ty) : e.settleTy ty s = .done e s := by
  rcases e.settleTy_cases ty s with ⟨hty, _⟩ | ⟨_, hs⟩ | ⟨c, hty, hc, _⟩
  · simp [h] at hty
  · exact hs
  · simp only [h, Option.some.injEq] at hty
    exact absurd hty.symm hc

theorem afterDecl_of_quiet {id : Nat} {cause : Token}
    (h : Quiet (e.afterDecl s (s.settleDecl id ty cause))) :
    s.typeOf id = some ty ∧ e.afterDecl s (s.settleDecl id ty cause) = .done e s := by
  rcases s.settleDecl_cases id ty cause with
    ⟨_, hs⟩ | ⟨entry, hentry, ⟨_, hs⟩ | ⟨hty, hs⟩ | ⟨c, _, _, hs⟩⟩ <;> rw [hs] at h ⊢
  · exact absurd h Quiet.not_stop
  · simp [afterDecl, Quiet.done_iff, Engine.fillDecl, Engine.mark] at h
  · exact ⟨by simp [Engine.typeOf, hentry, hty], rfl⟩
  · exact absurd h Quiet.not_stop

theorem afterDecl_of_typeOf {id : Nat} {cause : Token} (h : s.typeOf id = some ty) :
    e.afterDecl s (s.settleDecl id ty cause) = .done e s := by
  rw [Engine.settleDecl_of_typeOf h]
  rfl

/-- Pushing a type into an expression that has none fills a slot. -/
theorem not_quiet_push (h : e.ty = none) : ¬Quiet (e.push ty s) := by
  intro hq
  cases e with
  | literal token slot value =>
    have := (settleTy_of_quiet (e := .literal token slot value) hq).1
    simp [h] at this
  | use ident slot =>
    have hfirst := (hq.onward fun e s => ?_).1
    · have := (settleTy_of_quiet hfirst).1
      simp [h] at this
    · split
      · exact fills_afterDecl e s _ ty _
      · exact .stop e s _
  | binary token slot op lhs rhs =>
    simp only [Expr.ty] at h
    subst h
    have hmark : (s.mark true).changed = true := by simp [Engine.mark]
    simp only [push, settle] at hq
    split at hq
    · simp [Quiet.done_iff, hmark] at hq
    · obtain ⟨hl, -⟩ := hq.andThen fun s => by
        split
        · exact fills_push ty rhs s
        · exact .done rhs s
      split at hl
      · simp [hl.before (fills_push ty lhs _)] at hmark
      · simp [Quiet.done_iff, hmark] at hl

/-- The four cases of `balance`, told apart by the slots of the operands. -/
theorem balance_of_quiet {token : Token} {slot : Option Ty} {op : Op} {lhs rhs : Expr}
    (h : Quiet (balance token slot op lhs rhs s)) :
    balance token slot op lhs rhs s = .done (.binary token slot op lhs rhs) s ∧
      (lhs.ty = none ↔ rhs.ty = none) ∧
      (lhs.ty = none → op.isRelational = false → slot = none) := by
  cases hl : lhs.ty with
  | some l =>
    cases hr : rhs.ty with
    | some r => exact ⟨by simp [balance, hl, hr], by simp⟩
    | none =>
      simp only [balance, hl, hr, Quiet.map_iff] at h
      exact absurd h (not_quiet_push hr)
  | none =>
    cases hr : rhs.ty with
    | some r =>
      simp only [balance, hl, hr, Quiet.map_iff] at h
      exact absurd h (not_quiet_push hl)
    | none =>
      cases op with
      | compare c => exact ⟨by simp [balance, hl, hr], by simp,
        fun _ hrel => by simp [Op.isRelational] at hrel⟩
      | arith a =>
        cases slot with
        | none => exact ⟨by simp [balance, hl, hr], by simp⟩
        | some t =>
          simp only [balance, hl, hr] at h
          exact absurd (h.andThen fun s => fills_push t rhs s).1 (not_quiet_push hl)

/-- What the settling of an operation leaves known, when its operands have the slots given. -/
theorem combine_of_quiet {op : Op} {left right : Option Ty}
    (h : Quiet (combine op left right e s)) :
    combine op left right e s = .done e s ∧ (op.isRelational = true → e.ty = some .boolean) ∧
      ∀ l r, left = some l → right = some r →
        l = r ∧ ∃ t, op.resultTy? l = some t ∧ e.ty = some t := by
  have hsettle : ∀ {t}, Quiet (e.settleTy t s) → e.settleTy t s = .done e s ∧ e.ty = some t :=
    fun hq => ⟨(settleTy_of_quiet hq).2, (settleTy_of_quiet hq).1⟩
  unfold combine at h ⊢
  obtain ⟨hrel, hargs⟩ := h.onward fun e s => by
    split
    · split
      · split
        · exact fills_settleTy e _ s
        · exact .stop e s _
      · exact .stop e s _
    · exact .done e s
  -- The settling of a comparison comes first, and is itself quiet.
  have hdone : (if op.isRelational then e.settleTy .boolean s else .done e s) = .done e s ∧
      (op.isRelational = true → e.ty = some .boolean) := by
    split at hrel
    · rename_i hop
      exact ⟨by rw [if_pos hop, (hsettle hrel).1], fun _ => (hsettle hrel).2⟩
    · rename_i hop
      exact ⟨if_neg hop, fun h => absurd h hop⟩
  simp only [hdone.1, Walk.onward_done, Walk.done_tree, Walk.done_state] at hargs ⊢
  cases left with
  | none => exact ⟨rfl, hdone.2, by simp⟩
  | some l =>
    cases right with
    | none => exact ⟨rfl, hdone.2, by simp⟩
    | some r =>
      simp only at hargs ⊢
      split at hargs
      · rename_i hlr
        cases ht : op.resultTy? l with
        | none => simp only [ht] at hargs; exact absurd hargs Quiet.not_stop
        | some t =>
          simp only [ht] at hargs ⊢
          refine ⟨by rw [if_pos hlr, (hsettle hargs).1], hdone.2, ?_⟩
          rintro l' r' ⟨⟩ ⟨⟩
          exact ⟨hlr, t, ht, (hsettle hargs).2⟩
      · exact absurd hargs Quiet.not_stop

theorem meetOperands_of_quiet {token : Token} {slot : Option Ty} {op : Op} {lhs rhs : Expr}
    (h : Quiet (meetOperands (.binary token slot op lhs rhs) s)) :
    meetOperands (.binary token slot op lhs rhs) s = .done (.binary token slot op lhs rhs) s ∧
      lhs.ty = rhs.ty ∧ op.Settled slot lhs.ty := by
  simp only [meetOperands] at h ⊢
  obtain ⟨hb, hc⟩ := h.onward fun e s => fills_combine op _ _ e s
  obtain ⟨hb, hboth, hnone⟩ := balance_of_quiet hb
  simp only [hb, Walk.onward_done, Walk.done_tree, Walk.done_state, operandTys] at hc ⊢
  obtain ⟨hc, hrel, hknown⟩ := combine_of_quiet hc
  refine ⟨hc, ?_⟩
  cases hl : lhs.ty with
  | none =>
    refine ⟨(hboth.mp hl).symm, ?_⟩
    cases hop : op.isRelational with
    | true => simpa [Op.Settled, hop, Expr.ty] using hrel hop
    | false => simpa [Op.Settled, hop] using hnone hl hop
  | some l =>
    cases hr : rhs.ty with
    | none => simp [hboth.mpr hr] at hl
    | some r =>
      obtain ⟨rfl, t, ht, hslot⟩ := hknown l r hl hr
      exact ⟨rfl, t, ht, hslot⟩

theorem meetDecl_of_quiet {ident : Ident} {slot : Option Ty} (h : Quiet (meetDecl ident slot s)) :
    meetDecl ident slot s = .done (.use ident slot) s ∧ (Expr.use ident slot).Stable s := by
  unfold meetDecl at h ⊢
  simp only [Stable]
  cases hid : s.valueDecl ident with
  | error fault => simp only [hid] at h; exact absurd h Quiet.not_stop
  | ok id =>
    simp only [hid] at h ⊢
    cases hty : s.typeOf id with
    | some ty =>
      simp only [hty] at h ⊢
      obtain ⟨hslot, hs⟩ := settleTy_of_quiet h
      exact ⟨hs, id, rfl, by rw [hty]; exact hslot⟩
    | none =>
      cases slot with
      | some ty =>
        simp only [hty] at h
        have := (afterDecl_of_quiet h).1
        simp [hty] at this
      | none => exact ⟨by simp, id, rfl, hty.symm⟩

theorem demand_of_quiet {strict : Bool} (h : Quiet (demand strict e s)) :
    demand strict e s = .done e s := by
  unfold demand at h ⊢
  split at h
  · exact absurd h Quiet.not_stop
  · rename_i hd
    rw [if_neg hd]

/-- **An expression that inference leaves alone is stable.** -/
theorem stable_of_quiet {strict : Bool} (h : Quiet (e.infer strict s)) :
    e.infer strict s = .done e s ∧ e.Stable s := by
  induction e generalizing s with
  | literal token slot value =>
    obtain ⟨hs, hd⟩ := h.onward fun e s => fills_demand strict e s
    obtain ⟨hty, hs⟩ := settleTy_of_quiet hs
    simp only [infer, hs, Walk.onward_done, Walk.done_tree, Walk.done_state] at hd ⊢
    exact ⟨demand_of_quiet hd, hty⟩
  | use ident slot =>
    obtain ⟨hs, hd⟩ := h.onward fun e s => fills_demand strict e s
    obtain ⟨hs, hstable⟩ := meetDecl_of_quiet hs
    simp only [infer, hs, Walk.onward_done, Walk.done_tree, Walk.done_state] at hd ⊢
    exact ⟨demand_of_quiet hd, hstable⟩
  | binary token slot op lhs rhs ihl ihr =>
    obtain ⟨hmet, hd⟩ := h.onward fun e s => fills_demand strict e s
    obtain ⟨hoperands, hm⟩ := hmet.onward fun e s => fills_meetOperands e s
    obtain ⟨hl, hr⟩ := hoperands.andThen fun s => fills_infer strict rhs s
    -- Each stage leaves the operation as it is, so the next one starts from it.
    obtain ⟨hl, hls⟩ := ihl hl
    simp only [hl, Walk.done_state] at hr
    obtain ⟨hr, hrs⟩ := ihr hr
    simp only [hl, hr, Walk.andThen_done, Walk.map_done, Walk.done_tree, Walk.done_state] at hm
    obtain ⟨hm, heq, hsettled⟩ := meetOperands_of_quiet hm
    simp only [infer, hl, hr, hm, Walk.andThen_done, Walk.map_done, Walk.onward_done,
      Walk.done_tree, Walk.done_state] at hd ⊢
    exact ⟨demand_of_quiet hd, hls, hrs, heq, hsettled⟩

theorem stable_of_quiet_guard {strict : Bool} (h : Quiet (e.inferGuard strict s)) :
    e.inferGuard strict s = .done e s ∧ e.Stable s ∧ e.ty = some .boolean := by
  obtain ⟨he, hg⟩ := h.onward fun e s => by
    split
    · exact fills_push .boolean e s
    · exact .done e s
    · exact .stop e s _
  obtain ⟨he, hstable⟩ := stable_of_quiet he
  simp only [inferGuard, he, Walk.onward_done, Walk.done_tree, Walk.done_state] at hg ⊢
  cases hty : e.ty with
  | none =>
    simp only [hty] at hg
    exact absurd hg (not_quiet_push hty)
  | some ty =>
    cases ty with
    | boolean => exact ⟨rfl, hstable, rfl⟩
    | number | string | procedure => simp only [hty] at hg; exact absurd hg Quiet.not_stop

end Expr

/-! ## Quiet walks over statements and blocks -/

/-- Both statements with a guard visit it first and then the body. -/
theorem Stmt.stable_of_quiet_guarded {strict : Bool} {s : Engine} {guard : Expr} {body : Stmt}
    {join : Expr → Stmt → Stmt}
    (hbody : Quiet (body.infer strict s) → body.infer strict s = .done body s ∧ body.Stable s)
    (h : Quiet ((guard.inferGuard strict s).andThen body (fun s => body.infer strict s) join)) :
    (guard.inferGuard strict s).andThen body (fun s => body.infer strict s) join =
        .done (join guard body) s ∧
      guard.Stable s ∧ guard.ty = some .boolean ∧ body.Stable s := by
  obtain ⟨hg, hb⟩ := h.andThen fun s => body.fills_infer strict s
  obtain ⟨hg, hguard, hty⟩ := Expr.stable_of_quiet_guard hg
  simp only [hg, Walk.andThen_done, Walk.done_state] at hb ⊢
  obtain ⟨hb, hstable⟩ := hbody hb
  exact ⟨by rw [hb, Walk.map_done], hguard, hty, hstable⟩

mutual

theorem Stmt.stable_of_quiet {strict : Bool} {s : Engine} :
    (stmt : Stmt) → Quiet (stmt.infer strict s) → stmt.infer strict s = .done stmt s ∧ stmt.Stable s
  | .assign target expr, h => by
    simp only [Stmt.infer] at h ⊢
    simp only [Stmt.Stable]
    cases hid : s.target target .assign with
    | error fault => simp only [hid] at h; exact absurd h Quiet.not_stop
    | ok id =>
      simp only [hid, Quiet.map_iff] at h ⊢
      obtain ⟨he, ht⟩ := h.onward fun e s => by
        split
        · exact e.fills_push _ s
        · exact e.fills_afterDecl s _ _ _
        · exact .done e s
      obtain ⟨he, hstable⟩ := Expr.stable_of_quiet he
      simp only [he, Walk.onward_done, Walk.done_tree, Walk.done_state] at ht ⊢
      cases hety : expr.ty with
      | some ty =>
        have hdecl : Quiet (expr.afterDecl s (s.settleDecl id ty target.token)) := by
          cases hdty : s.typeOf id <;> simpa only [hety, hdty] using ht
        obtain ⟨hknown, hdone⟩ := Expr.afterDecl_of_quiet hdecl
        refine ⟨?_, id, rfl, hstable, hknown.symm⟩
        simp only [hknown, hdone, Walk.map_done]
      | none =>
        cases hdty : s.typeOf id with
        | some ty =>
          simp only [hety, hdty] at ht
          exact absurd ht (Expr.not_quiet_push hety)
        | none => exact ⟨rfl, id, rfl, hstable, hdty.symm⟩
  | .call token target, h => by
    simp only [Stmt.infer] at h ⊢
    simp only [Stmt.Stable]
    cases hid : s.target target .call with
    | error fault => simp only [hid] at h; exact absurd h Quiet.not_stop
    | ok id => exact ⟨rfl, id, rfl⟩
  | .input token target, h => by
    simp only [Stmt.infer] at h ⊢
    simp only [Stmt.Stable]
    cases hid : s.target target .read with
    | error fault => simp only [hid] at h; exact absurd h Quiet.not_stop
    | ok id =>
      simp only [hid] at h ⊢
      split at h
      · exact absurd h Quiet.not_stop
      · rename_i hstrict
        exact ⟨if_neg hstrict, id, rfl⟩
  | .output token expr, h => by
    simp only [Stmt.infer, Quiet.map_iff] at h ⊢
    obtain ⟨he, ho⟩ := h.onward fun e s => by
      split
      · split
        · exact .done e s
        · exact .stop e s _
      · exact .done e s
    obtain ⟨he, hstable⟩ := Expr.stable_of_quiet he
    simp only [he, Walk.onward_done, Walk.done_tree, Walk.done_state] at ho ⊢
    cases hty : expr.ty with
    | none => exact ⟨rfl, hstable, by simp [hty]⟩
    | some ty =>
      cases ty with
      | procedure => simp only [hty] at ho; exact absurd ho Quiet.not_stop
      | number | boolean | string => exact ⟨rfl, hstable, by simp [hty]⟩
  | .begin token stmts, h => by
    simp only [Stmt.infer, Quiet.map_iff] at h ⊢
    obtain ⟨hdone, hstable⟩ := Stmt.stableList_of_quiet stmts h
    exact ⟨by rw [hdone, Walk.map_done], hstable⟩
  | .if token guard body, h => by
    simp only [Stmt.infer] at h ⊢
    exact Stmt.stable_of_quiet_guarded (Stmt.stable_of_quiet body) h
  | .while token guard body, h => by
    simp only [Stmt.infer] at h ⊢
    exact Stmt.stable_of_quiet_guarded (Stmt.stable_of_quiet body) h
  | .empty token, _ => ⟨rfl, trivial⟩

theorem Stmt.stableList_of_quiet {strict : Bool} {s : Engine} :
    (stmts : List Stmt) → Quiet (Stmt.inferList strict stmts s) →
      Stmt.inferList strict stmts s = .done stmts s ∧ Stmt.StableList s stmts
  | [], _ => ⟨rfl, trivial⟩
  | stmt :: stmts, h => by
    simp only [Stmt.inferList] at h ⊢
    obtain ⟨hs, hss⟩ := h.andThen fun s => Stmt.fills_inferList strict stmts s
    obtain ⟨hs, hstable⟩ := Stmt.stable_of_quiet stmt hs
    simp only [hs, Walk.andThen_done, Walk.done_state] at hss ⊢
    obtain ⟨hss, hstables⟩ := Stmt.stableList_of_quiet stmts hss
    exact ⟨by rw [hss, Walk.map_done], hstable, hstables⟩

end

namespace Engine

variable {strict : Bool} {s : Engine}

theorem declare_of_quiet {decls : List Decl} (hfault : (s.declare strict decls).2 = none)
    (hc : (s.declare strict decls).1.changed = false) :
    (s.declare strict decls).1 = s ∧ ∀ d ∈ decls, d.Declared s := by
  have hsame := ((s.filling_declare strict [] decls).eq_of_quiet hc).2
  refine ⟨hsame, ?_⟩
  induction decls with
  | nil => simp
  | cons d ds ih =>
    simp only [declare] at hfault hc
    split at hfault
    · rename_i ty hform
      simp only [hform] at hc
      rcases s.settleDecl_cases d.head.id ty d.head.token with
        ⟨_, h⟩ | ⟨entry, hentry, ⟨hty, h⟩ | ⟨hty, h⟩ | ⟨c, _, _, h⟩⟩ <;>
        simp only [h] at hfault hc
      · simp at hfault
      · -- A filled declaration marks the engine, and the mark stays.
        have := (filling_declare strict [] ds (s.fillDecl d.head.id entry ty)).changed_mono
          (by simp [fillDecl, mark])
        simp [this] at hc
      · have hds := ih hfault hc ((s.filling_declare strict [] ds).eq_of_quiet hc).2
        rintro d' (_ | ⟨_, hd'⟩)
        · intro ty' hform'
          rw [hform] at hform'
          cases hform'
          simp [typeOf, hentry, hty]
        · exact hds d' hd'
      · simp at hfault
    · rename_i hform
      simp only [hform] at hc
      split at hfault
      · simp at hfault
      · rename_i hstrict
        rw [if_neg hstrict] at hc
        have hds := ih hfault hc ((s.filling_declare strict [] ds).eq_of_quiet hc).2
        rintro d' (_ | ⟨_, hd'⟩)
        · intro ty' hform'
          simp [hform] at hform'
        · exact hds d' hd'

theorem stable_of_quiet_block {decls : List Decl} {stmt : Stmt}
    {bodies : Engine → Inferring (List Decl)} (hfills : ∀ s, (bodies s).Fills decls s)
    (hbodies : Quiet (bodies s) → bodies s = .done decls s ∧ Decl.StableList s decls)
    (h : Quiet (s.inferBlock strict decls stmt bodies)) :
    s.inferBlock strict decls stmt bodies = .done ⟨decls, stmt⟩ s ∧
      Block.Stable s ⟨decls, stmt⟩ := by
  unfold inferBlock at h ⊢
  cases hdeclare : s.declare strict decls with
  | mk s' fault =>
    cases fault with
    | some fault => simp only [hdeclare] at h; exact absurd h Quiet.not_stop
    | none =>
      simp only [hdeclare] at h ⊢
      obtain ⟨hb, hs⟩ := h.andThen fun s => stmt.fills_infer strict s
      have hquiet := hb.before (hfills s')
      have hdecl : (s.declare strict decls).1 = s ∧ ∀ d ∈ decls, d.Declared s :=
        declare_of_quiet (by rw [hdeclare]) (by rw [hdeclare]; exact hquiet)
      rw [hdeclare] at hdecl
      obtain ⟨rfl, hdeclared⟩ := hdecl
      obtain ⟨hb, hdecls⟩ := hbodies hb
      simp only [hb, Walk.andThen_done, Walk.done_state] at hs ⊢
      obtain ⟨hs, hstmt⟩ := Stmt.stable_of_quiet stmt hs
      exact ⟨by rw [hs, Walk.map_done], hdeclared, hdecls, hstmt⟩

end Engine

mutual

theorem Decl.stable_of_quiet {strict : Bool} {s : Engine} :
    (d : Decl) → Quiet (d.infer strict s) → d.infer strict s = .done d s ∧ d.Stable s
  | .const head value, _ => ⟨rfl, by simp [Decl.Stable]⟩
  | .var head, _ => ⟨rfl, by simp [Decl.Stable]⟩
  | .procedure head decls stmt, h => by
    simp only [Decl.infer, Quiet.map_iff] at h ⊢
    obtain ⟨hdone, hstable⟩ := Engine.stable_of_quiet_block
      (fun s => Decl.fills_inferList strict decls s) (Decl.stableList_of_quiet decls) h
    refine ⟨by rw [hdone, Walk.map_done], ?_⟩
    simp only [Decl.Stable]
    exact ⟨hstable.declared, hstable.decls, hstable.stmt⟩

theorem Decl.stableList_of_quiet {strict : Bool} {s : Engine} :
    (decls : List Decl) → Quiet (Decl.inferList strict decls s) →
      Decl.inferList strict decls s = .done decls s ∧ Decl.StableList s decls
  | [], _ => ⟨rfl, trivial⟩
  | d :: ds, h => by
    simp only [Decl.inferList] at h ⊢
    obtain ⟨hd, hds⟩ := h.andThen fun s => Decl.fills_inferList strict ds s
    obtain ⟨hd, hstable⟩ := Decl.stable_of_quiet d hd
    simp only [hd, Walk.andThen_done, Walk.done_state] at hds ⊢
    obtain ⟨hds, hstables⟩ := Decl.stableList_of_quiet ds hds
    exact ⟨by rw [hds, Walk.map_done], hstable, hstables⟩

end

/-- **A pass that neither fails nor fills a slot has visited a stable program.** -/
theorem Engine.stable_of_quiet_visit {strict : Bool} {s : Engine} {p : Program}
    (h : Quiet (s.visit strict p)) :
    s.visit strict p = .done p.block s.unmark ∧ p.block.Stable s.unmark :=
  stable_of_quiet_block (fun s => Decl.fills_inferList strict p.block.decls s)
    (Decl.stableList_of_quiet p.block.decls) h

/-! ## Passes over stable programs -/

/-- No slot of an expression in the tree is empty. -/
def Filled {α : Type} [Slotted α] (a : α) : Prop := none ∉ slots a

theorem filled_append {α β γ : Type} [Slotted α] [Slotted β] [Slotted γ] {a : α} {b : β} {c : γ}
    (h : slots c = slots a ++ slots b) : Filled c ↔ Filled a ∧ Filled b := by
  simp only [Filled, h, List.mem_append, not_or]

theorem Stmt.filled_if {token : Token} {guard : Expr} {body : Stmt} :
    Filled (Stmt.if token guard body) ↔ Filled guard ∧ Filled body :=
  filled_append List.map_append

theorem Stmt.filled_while {token : Token} {guard : Expr} {body : Stmt} :
    Filled (Stmt.while token guard body) ↔ Filled guard ∧ Filled body :=
  filled_append List.map_append

theorem Stmt.filled_cons {stmt : Stmt} {stmts : List Stmt} :
    Filled (stmt :: stmts) ↔ Filled stmt ∧ Filled stmts :=
  filled_append List.map_append

theorem Decl.filled_procedure {head : DeclHead} {decls : List Decl} {stmt : Stmt} :
    Filled (Decl.procedure head decls stmt) ↔ Filled decls ∧ Filled stmt :=
  filled_append List.map_append

theorem Decl.filled_cons {d : Decl} {ds : List Decl} : Filled (d :: ds) ↔ Filled d ∧ Filled ds :=
  filled_append List.map_append

theorem Block.filled_iff {b : Block} : Filled b ↔ Filled b.decls ∧ Filled b.stmt :=
  filled_append List.map_append

namespace Expr

variable {s : Engine}

theorem filled_binary {token : Token} {ty : Option Ty} {op : Op} {lhs rhs : Expr} :
    Filled (Expr.binary token ty op lhs rhs) ↔ ty ≠ none ∧ Filled lhs ∧ Filled rhs := by
  simp only [Filled, slots_binary, List.mem_append, List.mem_singleton, not_or, ne_eq, and_assoc]
  rw [eq_comm]

theorem filled_literal {token : Token} {ty : Option Ty} {value : Value} :
    Filled (Expr.literal token ty value) ↔ ty ≠ none := by
  simp [Filled, slots, subexprs, Expr.ty, eq_comm]

theorem filled_use {ident : Ident} {ty : Option Ty} :
    Filled (Expr.use ident ty) ↔ ty ≠ none := by
  simp [Filled, slots, subexprs, Expr.ty, eq_comm]

theorem Filled.ty_ne_none {e : Expr} (h : Filled e) : e.ty ≠ none := by
  cases e with
  | literal => exact filled_literal.mp h
  | use => exact filled_use.mp h
  | binary => exact (filled_binary.mp h).1

theorem meetDecl_of_stable {ident : Ident} {slot : Option Ty} (h : (Expr.use ident slot).Stable s) :
    meetDecl ident slot s = .done (.use ident slot) s := by
  obtain ⟨id, hid, hslot⟩ := h
  simp only [meetDecl, hid]
  cases hty : s.typeOf id with
  | some ty => exact settleTy_of_ty (hslot.trans hty)
  | none =>
    rw [hty] at hslot
    subst hslot
    rfl

theorem meetOperands_of_stable {token : Token} {slot : Option Ty} {op : Op} {lhs rhs : Expr}
    (heq : lhs.ty = rhs.ty) (hsettled : op.Settled slot lhs.ty) :
    meetOperands (.binary token slot op lhs rhs) s = .done (.binary token slot op lhs rhs) s := by
  simp only [meetOperands]
  cases hl : lhs.ty with
  | some l =>
    have hr : rhs.ty = some l := by rw [← heq, hl]
    rw [hl] at hsettled
    obtain ⟨t, ht, hslot⟩ := hsettled
    have hbalance : balance token slot op lhs rhs s = .done (.binary token slot op lhs rhs) s := by
      simp [balance, hl, hr]
    have hboolean : op.isRelational = true → slot = some .boolean := by
      cases op with
      | arith a => simp [Op.isRelational]
      | compare c => intro _; rw [hslot, OpTable.regular_resultTy.compare ht]
    have hrelational : (if op.isRelational then
        (Expr.binary token slot op lhs rhs).settleTy .boolean s
        else .done (.binary token slot op lhs rhs) s) =
          .done (.binary token slot op lhs rhs) s := by
      split
      · rename_i hop
        exact settleTy_of_ty (hboolean hop)
      · rfl
    rw [hbalance, Walk.onward_done]
    simp only [operandTys, hl, hr, combine, hrelational, Walk.onward_done, if_true, ht]
    exact settleTy_of_ty hslot
  | none =>
    have hr : rhs.ty = none := by rw [← heq, hl]
    rw [hl] at hsettled
    simp only [Op.Settled] at hsettled
    cases op with
    | arith a =>
      simp only [Op.isRelational, Bool.false_eq_true, if_false] at hsettled
      subst hsettled
      simp [balance, hl, hr, operandTys, combine, Op.isRelational]
    | compare c =>
      simp only [Op.isRelational, if_true] at hsettled
      subst hsettled
      have hsettle : (Expr.binary token (some .boolean) (.compare c) lhs rhs).settleTy .boolean s =
          .done _ s := settleTy_of_ty rfl
      simp [balance, hl, hr, operandTys, combine, Op.isRelational, hsettle]

/-- A pass over a stable expression comes down to the last demand of a strict one. -/
theorem infer_of_stable (strict : Bool) {e : Expr} (h : e.Stable s)
    (hfull : strict = true → Filled e) :
    e.infer strict s = .done e s := by
  have hdemand : ∀ {e : Expr}, (strict = true → Filled e) → demand strict e s = .done e s := by
    intro e hfull
    unfold demand
    split
    · rename_i hd
      simp only [Bool.and_eq_true, Option.isNone_iff_eq_none] at hd
      exact absurd hd.2 (Filled.ty_ne_none (hfull hd.1))
    · rfl
  induction e with
  | literal token slot value =>
    have hs : (Expr.literal token slot value).settleTy value.ty s = .done _ s := settleTy_of_ty h
    rw [infer, hs, Walk.onward_done, hdemand hfull]
  | use ident slot =>
    rw [infer, meetDecl_of_stable h, Walk.onward_done, hdemand hfull]
  | binary token slot op lhs rhs ihl ihr =>
    obtain ⟨hl, hr, heq, hsettled⟩ := h
    have hl := ihl hl fun hstrict => (filled_binary.mp (hfull hstrict)).2.1
    have hr := ihr hr fun hstrict => (filled_binary.mp (hfull hstrict)).2.2
    simp only [infer, hl, hr, Walk.andThen_done, Walk.map_done, Walk.onward_done,
      meetOperands_of_stable heq hsettled, hdemand hfull]

theorem filled_of_strict {e : Expr} (h : e.Stable s) (hfault : (e.infer true s).fault = none) :
    Filled e := by
  have hdemand : ∀ {e : Expr}, (demand true e s).fault = none → e.ty ≠ none := by
    intro e hd hty
    simp [demand, hty, Walk.stop] at hd
  induction e with
  | literal token slot value =>
    have hs : (Expr.literal token slot value).settleTy value.ty s = .done _ s := settleTy_of_ty h
    rw [infer, hs, Walk.onward_done] at hfault
    exact filled_literal.mpr (hdemand hfault)
  | use ident slot =>
    rw [infer, meetDecl_of_stable h, Walk.onward_done] at hfault
    exact filled_use.mpr (hdemand hfault)
  | binary token slot op lhs rhs ihl ihr =>
    obtain ⟨hl, hr, heq, hsettled⟩ := h
    have hfl : Filled lhs := by
      refine ihl hl ?_
      cases hlf : (lhs.infer true s).fault with
      | none => rfl
      | some fault => simp [infer, Walk.andThen, Walk.onward, hlf] at hfault
    have hl := infer_of_stable true hl fun _ => hfl
    simp only [infer, hl, Walk.andThen_done] at hfault
    have hfr : Filled rhs := by
      refine ihr hr ?_
      cases hrf : (rhs.infer true s).fault with
      | none => rfl
      | some fault => simp [Walk.map, Walk.onward, hrf] at hfault
    have hr := infer_of_stable true hr fun _ => hfr
    simp only [hr, Walk.map_done, Walk.onward_done, meetOperands_of_stable heq hsettled] at hfault
    exact filled_binary.mpr ⟨hdemand hfault, hfl, hfr⟩

theorem inferGuard_of_stable (strict : Bool) {e : Expr} (h : e.Stable s)
    (hty : e.ty = some .boolean) (hfull : strict = true → Filled e) :
    e.inferGuard strict s = .done e s := by
  simp only [inferGuard, infer_of_stable strict h hfull, Walk.onward_done, hty]

theorem filled_of_strict_guard {e : Expr} (h : e.Stable s)
    (hfault : (e.inferGuard true s).fault = none) : Filled e := by
  refine filled_of_strict h ?_
  cases he : (e.infer true s).fault with
  | none => rfl
  | some fault => simp [inferGuard, Walk.onward, he] at hfault

end Expr

/-- Every declaration that the engine knows has a type. -/
def Engine.Full (s : Engine) : Prop :=
  ∀ (id : Nat) (entry : EngineEntry), s.entries[id]? = some entry → entry.ty ≠ none

theorem Engine.Full.typeOf {s : Engine} (h : s.Full) {id : Nat} {entry : EngineEntry}
    (hentry : s.entries[id]? = some entry) : ∃ ty, s.typeOf id = some ty := by
  cases hty : entry.ty with
  | none => exact absurd hty (h id entry hentry)
  | some ty => exact ⟨ty, by simp [Engine.typeOf, hentry, hty]⟩

theorem Engine.target_ok {s : Engine} {ident : Ident} {use : TargetUse} {id : Nat}
    (h : s.target ident use = .ok id) :
    ident.decl = some id ∧ ∃ entry, s.entries[id]? = some entry ∧ entry.kind = use.kind := by
  unfold target entryOf at h
  cases hdecl : ident.decl with
  | none => simp [hdecl, bind, Except.bind] at h
  | some i =>
    cases hentry : s.entries[i]? with
    | none => simp [hdecl, hentry, bind, Except.bind] at h
    | some entry =>
      simp only [hdecl, hentry, bind, Except.bind] at h
      split at h
      · rename_i hkind
        cases h
        exact ⟨rfl, entry, hentry, hkind⟩
      · cases h

theorem Engine.valueDecl_ok {s : Engine} {ident : Ident} {id : Nat}
    (h : s.valueDecl ident = .ok id) :
    ident.decl = some id ∧ ∃ entry, s.entries[id]? = some entry ∧ entry.kind ≠ .procedure := by
  unfold valueDecl entryOf at h
  cases hdecl : ident.decl with
  | none => simp [hdecl, bind, Except.bind] at h
  | some i =>
    cases hentry : s.entries[i]? with
    | none => simp [hdecl, hentry, bind, Except.bind] at h
    | some entry =>
      simp only [hdecl, hentry, bind, Except.bind] at h
      split at h
      · cases h
      · rename_i hkind
        cases h
        exact ⟨rfl, entry, hentry, hkind⟩

mutual

theorem Stmt.infer_of_stable (strict : Bool) {s : Engine} :
    (stmt : Stmt) → stmt.Stable s → (strict = true → Filled stmt ∧ s.Full) →
      stmt.infer strict s = .done stmt s
  | .assign target expr, h, hfull => by
    obtain ⟨id, hid, hstable, hty⟩ := h
    have he := Expr.infer_of_stable strict hstable fun hs => (hfull hs).1
    simp only [Stmt.infer, hid, he, Walk.onward_done]
    cases hety : expr.ty with
    | some ty =>
      rw [hety] at hty
      simp only [← hty, Expr.afterDecl_of_typeOf hty.symm, Walk.map_done]
    | none =>
      rw [hety] at hty
      simp only [← hty, Walk.map_done]
  | .call token target, h, _ => by
    obtain ⟨id, hid⟩ := h
    simp only [Stmt.infer, hid]
  | .input token target, h, hfull => by
    obtain ⟨id, hid⟩ := h
    simp only [Stmt.infer, hid]
    split
    · rename_i hd
      simp only [Bool.and_eq_true, Option.isNone_iff_eq_none] at hd
      obtain ⟨_, entry, hentry, _⟩ := Engine.target_ok hid
      obtain ⟨ty, hty⟩ := (hfull hd.1).2.typeOf hentry
      simp [hty] at hd
    · rfl
  | .output token expr, h, hfull => by
    obtain ⟨hstable, hty⟩ := h
    have he := Expr.infer_of_stable strict hstable fun hs => (hfull hs).1
    simp only [Stmt.infer, he, Walk.onward_done]
    cases hety : expr.ty with
    | none => rfl
    | some ty =>
      cases ty with
      | procedure => exact absurd hety hty
      | number | boolean | string => rfl
  | .begin token stmts, h, hfull => by
    simp only [Stmt.infer, Stmt.inferList_of_stable strict stmts h hfull, Walk.map_done]
  | .if token guard body, h, hfull => by
    obtain ⟨hg, hty, hb⟩ := h
    have hparts : strict = true → Filled guard ∧ Filled body :=
      fun hs => Stmt.filled_if.mp (hfull hs).1
    have hgd := Expr.inferGuard_of_stable strict hg hty fun hs => (hparts hs).1
    have hbd := Stmt.infer_of_stable strict body hb fun hs => ⟨(hparts hs).2, (hfull hs).2⟩
    simp only [Stmt.infer, hgd, Walk.andThen_done, hbd, Walk.map_done]
  | .while token guard body, h, hfull => by
    obtain ⟨hg, hty, hb⟩ := h
    have hparts : strict = true → Filled guard ∧ Filled body :=
      fun hs => Stmt.filled_while.mp (hfull hs).1
    have hgd := Expr.inferGuard_of_stable strict hg hty fun hs => (hparts hs).1
    have hbd := Stmt.infer_of_stable strict body hb fun hs => ⟨(hparts hs).2, (hfull hs).2⟩
    simp only [Stmt.infer, hgd, Walk.andThen_done, hbd, Walk.map_done]
  | .empty token, _, _ => rfl

theorem Stmt.inferList_of_stable (strict : Bool) {s : Engine} :
    (stmts : List Stmt) → Stmt.StableList s stmts → (strict = true → Filled stmts ∧ s.Full) →
      Stmt.inferList strict stmts s = .done stmts s
  | [], _, _ => rfl
  | stmt :: stmts, h, hfull => by
    have hparts : strict = true → Filled stmt ∧ Filled stmts := fun hs =>
      Stmt.filled_cons.mp (hfull hs).1
    have hsd := Stmt.infer_of_stable strict stmt h.1 fun hs => ⟨(hparts hs).1, (hfull hs).2⟩
    have hssd := Stmt.inferList_of_stable strict stmts h.2 fun hs => ⟨(hparts hs).2, (hfull hs).2⟩
    simp only [Stmt.inferList, hsd, Walk.andThen_done, hssd, Walk.map_done]

end

theorem Stmt.filled_of_strict_guarded {s : Engine} {guard : Expr} {body : Stmt}
    {join : Expr → Stmt → Stmt} (hguard : guard.Stable s) (hty : guard.ty = some .boolean)
    (hbody : (body.infer true s).fault = none → body.infer true s = .done body s ∧ Filled body)
    (hfault : ((guard.inferGuard true s).andThen body (fun s => body.infer true s) join).fault =
      none) :
    (guard.inferGuard true s).andThen body (fun s => body.infer true s) join =
      .done (join guard body) s ∧ Filled guard ∧ Filled body := by
  rw [Walk.fault_andThen] at hfault
  have hfg := Expr.filled_of_strict_guard hguard hfault.1
  have hgd := Expr.inferGuard_of_stable true hguard hty fun _ => hfg
  simp only [hgd, Walk.done_state] at hfault
  obtain ⟨hbd, hfb⟩ := hbody hfault.2
  exact ⟨by rw [hgd, Walk.andThen_done, hbd, Walk.map_done], hfg, hfb⟩

mutual

theorem Stmt.filled_of_strict {s : Engine} :
    (stmt : Stmt) → stmt.Stable s → (stmt.infer true s).fault = none →
      stmt.infer true s = .done stmt s ∧ Filled stmt
  | .assign target expr, h, hfault => by
    obtain ⟨id, hid, hstable, hty⟩ := h
    simp only [Stmt.infer, hid, Walk.fault_map, Walk.fault_onward] at hfault ⊢
    have hfilled := Expr.filled_of_strict hstable hfault.1
    obtain ⟨ty, hety⟩ := Option.ne_none_iff_exists'.mp (Expr.Filled.ty_ne_none hfilled)
    rw [hety] at hty
    refine ⟨?_, hfilled⟩
    simp only [Expr.infer_of_stable true hstable fun _ => hfilled, Walk.onward_done, ← hty, hety,
      Expr.afterDecl_of_typeOf hty.symm, Walk.map_done]
  | .call token target, h, _ => by
    obtain ⟨id, hid⟩ := h
    exact ⟨by simp only [Stmt.infer, hid], by simp [Filled, slots, Stmt.exprs]⟩
  | .input token target, h, hfault => by
    obtain ⟨id, hid⟩ := h
    simp only [Stmt.infer, hid] at hfault ⊢
    split at hfault
    · cases hfault
    · rename_i hd
      exact ⟨if_neg hd, by simp [Filled, slots, Stmt.exprs]⟩
  | .output token expr, h, hfault => by
    simp only [Stmt.infer, Walk.fault_map, Walk.fault_onward] at hfault
    have hfilled := Expr.filled_of_strict h.1 hfault.1
    obtain ⟨ty, hety⟩ := Option.ne_none_iff_exists'.mp (Expr.Filled.ty_ne_none hfilled)
    refine ⟨?_, hfilled⟩
    simp only [Stmt.infer, Expr.infer_of_stable true h.1 fun _ => hfilled, Walk.onward_done, hety]
    cases ty with
    | procedure => exact absurd hety h.2
    | number | boolean | string => rfl
  | .begin token stmts, h, hfault => by
    obtain ⟨hdone, hfilled⟩ := Stmt.filledList_of_strict stmts h hfault
    exact ⟨by simp only [Stmt.infer, hdone, Walk.map_done], hfilled⟩
  | .if token guard body, h, hfault => by
    obtain ⟨hg, hty, hb⟩ := h
    obtain ⟨hdone, hfilled⟩ :=
      Stmt.filled_of_strict_guarded hg hty (Stmt.filled_of_strict body hb) hfault
    exact ⟨hdone, Stmt.filled_if.mpr hfilled⟩
  | .while token guard body, h, hfault => by
    obtain ⟨hg, hty, hb⟩ := h
    obtain ⟨hdone, hfilled⟩ :=
      Stmt.filled_of_strict_guarded hg hty (Stmt.filled_of_strict body hb) hfault
    exact ⟨hdone, Stmt.filled_while.mpr hfilled⟩
  | .empty token, _, _ => ⟨rfl, by simp [Filled, slots, Stmt.exprs]⟩

theorem Stmt.filledList_of_strict {s : Engine} :
    (stmts : List Stmt) → Stmt.StableList s stmts → (Stmt.inferList true stmts s).fault = none →
      Stmt.inferList true stmts s = .done stmts s ∧ Filled stmts
  | [], _, _ => ⟨rfl, by simp [Filled, slots, Stmt.exprsList]⟩
  | stmt :: stmts, h, hfault => by
    simp only [Stmt.inferList, Walk.fault_andThen] at hfault ⊢
    obtain ⟨hs, hfs⟩ := Stmt.filled_of_strict stmt h.1 hfault.1
    simp only [hs, Walk.done_state] at hfault
    obtain ⟨hss, hfss⟩ := Stmt.filledList_of_strict stmts h.2 hfault.2
    exact ⟨by rw [hs, Walk.andThen_done, hss, Walk.map_done], Stmt.filled_cons.mpr ⟨hfs, hfss⟩⟩

end

namespace Engine

variable {s : Engine}

/-- The engine knows the type of the declaration, unless its form gives it. -/
def Knows (s : Engine) (d : Decl) : Prop := d.formTy? = none → s.typeOf d.head.id ≠ none

theorem declare_of_declared {strict : Bool} {decls : List Decl} (h : ∀ d ∈ decls, d.Declared s)
    (hknown : strict = true → ∀ d ∈ decls, s.Knows d) : s.declare strict decls = (s, none) := by
  induction decls with
  | nil => rfl
  | cons d ds ih =>
    have hrest := ih (fun d hd => h d (.tail _ hd)) (fun hs d hd => hknown hs d (.tail _ hd))
    simp only [declare]
    cases hform : d.formTy? with
    | some ty =>
      simp only [settleDecl_of_typeOf (h d (.head _) ty hform), hrest]
    | none =>
      simp only
      split
      · rename_i hd
        simp only [Bool.and_eq_true, Option.isNone_iff_eq_none] at hd
        exact absurd hd.2 (hknown hd.1 d (.head _) hform)
      · exact hrest

theorem knows_of_declare {decls : List Decl} (h : ∀ d ∈ decls, d.Declared s)
    (hfault : (s.declare true decls).2 = none) : ∀ d ∈ decls, s.Knows d := by
  induction decls with
  | nil => simp
  | cons d ds ih =>
    have hds : ∀ d ∈ ds, d.Declared s := fun d hd => h d (.tail _ hd)
    simp only [declare] at hfault
    cases hform : d.formTy? with
    | some ty =>
      simp only [hform, settleDecl_of_typeOf (h d (.head _) ty hform)] at hfault
      rintro d' (_ | ⟨_, hd'⟩)
      · intro hnone; simp [hform] at hnone
      · exact ih hds hfault d' hd'
    | none =>
      simp only [hform] at hfault
      split at hfault
      · cases hfault
      · rename_i hd
        simp only [Bool.true_and, Option.isNone_iff_eq_none] at hd
        rintro d' (_ | ⟨_, hd'⟩)
        · exact fun _ => hd
        · exact ih hds hfault d' hd'

theorem knows_of_strict_block {decls : List Decl} {stmt : Stmt}
    {bodies : Engine → Inferring (List Decl)} (h : ∀ d ∈ decls, d.Declared s)
    (hfault : (s.inferBlock true decls stmt bodies).fault = none) : ∀ d ∈ decls, s.Knows d := by
  refine knows_of_declare h ?_
  cases hd : s.declare true decls with
  | mk s' fault =>
    cases fault with
    | none => rfl
    | some fault => simp only [inferBlock, hd, Walk.stop] at hfault; cases hfault

theorem inferBlock_of_stable {strict : Bool} {decls : List Decl} {stmt : Stmt}
    {bodies : Engine → Inferring (List Decl)} (h : Block.Stable s ⟨decls, stmt⟩)
    (hknown : strict = true → ∀ d ∈ decls, s.Knows d) (hbodies : bodies s = .done decls s)
    (hfull : strict = true → Filled stmt ∧ s.Full) :
    s.inferBlock strict decls stmt bodies = .done ⟨decls, stmt⟩ s := by
  simp only [inferBlock, declare_of_declared h.declared hknown, hbodies, Walk.andThen_done,
    stmt.infer_of_stable strict h.stmt hfull, Walk.map_done]

theorem filled_of_strict_block {decls : List Decl} {stmt : Stmt}
    {bodies : Engine → Inferring (List Decl)} (h : Block.Stable s ⟨decls, stmt⟩)
    (hfault : (s.inferBlock true decls stmt bodies).fault = none)
    (hbodies : (bodies s).fault = none → bodies s = .done decls s ∧ Filled decls) :
    s.inferBlock true decls stmt bodies = .done ⟨decls, stmt⟩ s ∧ Filled (Block.mk decls stmt) ∧
      (bodies s).fault = none := by
  have hknows := knows_of_strict_block h.declared hfault
  have hdeclare : s.declare true decls = (s, none) := declare_of_declared h.declared fun _ => hknows
  simp only [inferBlock, hdeclare, Walk.fault_andThen] at hfault ⊢
  obtain ⟨hbd, hfb⟩ := hbodies hfault.1
  simp only [hbd, Walk.done_state] at hfault ⊢
  obtain ⟨hsd, hfs⟩ := stmt.filled_of_strict h.stmt hfault.2
  exact ⟨by rw [Walk.andThen_done, hsd, Walk.map_done], Block.filled_iff.mpr ⟨hfb, hfs⟩, rfl⟩

end Engine

mutual

theorem Decl.infer_of_stable {s : Engine} (strict : Bool) :
    (d : Decl) → d.Stable s → (strict = true → Filled d ∧ s.Full ∧ ∀ x ∈ d.subtree, s.Knows x) →
      d.infer strict s = .done d s
  | .const head value, _, _ => rfl
  | .var head, _, _ => rfl
  | .procedure head decls stmt, h, hfull => by
    have hparts : strict = true → (Filled decls ∧ s.Full ∧ ∀ x ∈ Decl.subtrees decls, s.Knows x) ∧
        Filled stmt := fun hs => by
      obtain ⟨hf, hfull, hknown⟩ := hfull hs
      rw [Decl.filled_procedure] at hf
      exact ⟨⟨hf.1, hfull, fun x hx => hknown x (.tail _ hx)⟩, hf.2⟩
    have hblock : s.inferBlock strict decls stmt (fun s => Decl.inferList strict decls s) = _ :=
      Engine.inferBlock_of_stable ⟨h.1, h.2.1, h.2.2⟩
        (fun hs d hd => (hparts hs).1.2.2 d (Decl.mem_subtrees hd))
        (Decl.inferList_of_stable strict decls h.2.1 fun hs => (hparts hs).1)
        (fun hs => ⟨(hparts hs).2, (hparts hs).1.2.1⟩)
    simp only [Decl.infer, hblock, Walk.map_done]

theorem Decl.inferList_of_stable {s : Engine} (strict : Bool) :
    (ds : List Decl) → Decl.StableList s ds →
      (strict = true → Filled ds ∧ s.Full ∧ ∀ x ∈ Decl.subtrees ds, s.Knows x) →
      Decl.inferList strict ds s = .done ds s
  | [], _, _ => rfl
  | d :: ds, h, hfull => by
    have hparts : strict = true → (Filled d ∧ s.Full ∧ ∀ x ∈ d.subtree, s.Knows x) ∧
        Filled ds ∧ s.Full ∧ ∀ x ∈ Decl.subtrees ds, s.Knows x := fun hs => by
      obtain ⟨hf, hfull, hknown⟩ := hfull hs
      rw [Decl.filled_cons] at hf
      simp only [Decl.subtrees, List.mem_append] at hknown
      exact ⟨⟨hf.1, hfull, fun x hx => hknown x (.inl hx)⟩, hf.2, hfull,
        fun x hx => hknown x (.inr hx)⟩
    simp only [Decl.inferList, Decl.infer_of_stable strict d h.1 fun hs => (hparts hs).1,
      Walk.andThen_done, Decl.inferList_of_stable strict ds h.2 fun hs => (hparts hs).2,
      Walk.map_done]

end

mutual

theorem Decl.filled_of_strict {s : Engine} :
    (d : Decl) → d.Stable s → s.Knows d → (d.infer true s).fault = none →
      d.infer true s = .done d s ∧ Filled d ∧ ∀ x ∈ d.subtree, s.Knows x
  | .const head value, _, hk, _ =>
    ⟨rfl, by simp [Filled, slots, Decl.exprs], by simpa [Decl.subtree]⟩
  | .var head, _, hk, _ => ⟨rfl, by simp [Filled, slots, Decl.exprs], by simpa [Decl.subtree]⟩
  | .procedure head decls stmt, h, hk, hfault => by
    simp only [Decl.infer, Walk.fault_map] at hfault ⊢
    have hbodies := Decl.filledList_of_strict decls h.2.1 (Engine.knows_of_strict_block h.1 hfault)
    obtain ⟨hdone, hfilled, hb⟩ := Engine.filled_of_strict_block ⟨h.1, h.2.1, h.2.2⟩ hfault
      fun hf => ⟨(hbodies hf).1, (hbodies hf).2.1⟩
    refine ⟨by rw [hdone, Walk.map_done], hfilled, ?_⟩
    rintro x (_ | ⟨_, hx⟩)
    · exact hk
    · exact (hbodies hb).2.2 x hx

theorem Decl.filledList_of_strict {s : Engine} :
    (ds : List Decl) → Decl.StableList s ds → (∀ d ∈ ds, s.Knows d) →
      (Decl.inferList true ds s).fault = none →
      Decl.inferList true ds s = .done ds s ∧ Filled ds ∧ ∀ x ∈ Decl.subtrees ds, s.Knows x
  | [], _, _, _ => ⟨rfl, by simp [Filled, slots, Decl.exprsList], by simp [Decl.subtrees]⟩
  | d :: ds, h, hk, hfault => by
    simp only [Decl.inferList, Walk.fault_andThen] at hfault ⊢
    obtain ⟨hd, hfd, hkd⟩ := Decl.filled_of_strict d h.1 (hk d (.head _)) hfault.1
    simp only [hd, Walk.done_state] at hfault
    obtain ⟨hds, hfds, hkds⟩ :=
      Decl.filledList_of_strict ds h.2 (fun d hd => hk d (.tail _ hd)) hfault.2
    refine ⟨by rw [hd, Walk.andThen_done, hds, Walk.map_done], Decl.filled_cons.mpr ⟨hfd, hfds⟩, ?_⟩
    intro x hx
    simp only [Decl.subtrees, List.mem_append] at hx
    exact hx.elim (hkd x) (hkds x)

end

namespace Engine

variable {s : Engine} {p : Program}

/-- **A pass over a stable program changes nothing**; a strict one asks that all slots be full. -/
theorem visit_of_stable (strict : Bool) (h : p.block.Stable s.unmark)
    (hfull : strict = true → Filled p.block ∧ s.unmark.Full ∧
      ∀ d ∈ p.declarations, s.unmark.Knows d) :
    s.visit strict p = .done p.block s.unmark := by
  have hparts : strict = true → (Filled p.block.decls ∧ s.unmark.Full ∧
      ∀ d ∈ p.declarations, s.unmark.Knows d) ∧ Filled p.block.stmt := fun hs => by
    obtain ⟨hf, hfull, hknown⟩ := hfull hs
    rw [Block.filled_iff] at hf
    exact ⟨⟨hf.1, hfull, hknown⟩, hf.2⟩
  exact inferBlock_of_stable h (fun hs d hd => (hparts hs).1.2.2 d (Decl.mem_subtrees hd))
    (Decl.inferList_of_stable strict _ h.decls fun hs => (hparts hs).1)
    (fun hs => ⟨(hparts hs).2, (hparts hs).1.2.1⟩)

theorem filled_of_strict_visit (h : p.block.Stable s.unmark)
    (hfault : (s.visit true p).fault = none) :
    s.visit true p = .done p.block s.unmark ∧ Filled p.block ∧
      ∀ d ∈ p.declarations, s.unmark.Knows d := by
  have hbodies :=
    Decl.filledList_of_strict p.block.decls h.decls (knows_of_strict_block h.declared hfault)
  obtain ⟨hdone, hfilled, hb⟩ := filled_of_strict_block h hfault
    fun hf => ⟨(hbodies hf).1, (hbodies hf).2.1⟩
  exact ⟨hdone, hfilled, (hbodies hb).2.2⟩

end Engine

end PLZero
