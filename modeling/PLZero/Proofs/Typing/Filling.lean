import PLZero.Proofs.Typing.Rules

/-!
# What a pass can do

A pass does one thing over and over: it fills an empty slot and marks the engine as changed.
`Filling` says so of the slots of a tree, taken in order, and of an engine, and `Walk.Fills` of a
walk.  Every part of a pass fills in this sense, whatever the tree, whether it fails or not.

Principal results, each an induction over single fillings:

* `Filling.eq_of_quiet` — if the engine is not marked, nothing was filled.
* `Filling.potential_le` — every mark is paid for by an empty slot, so a marked pass leaves fewer.
* `Engine.fills_pass` — every pass fills.
-/

namespace PLZero

/-! ## Settling one slot -/

namespace Engine

@[simp] theorem mark_false (s : Engine) : s.mark false = s := by
  simp [mark]

/-- The engine after the empty slot of declaration `id` was filled. -/
def fillDecl (s : Engine) (id : Nat) (entry : EngineEntry) (ty : Ty) : Engine :=
  ({ s with entries := s.entries.setIfInBounds id { entry with ty := some ty } }).mark true

theorem getElem?_fillDecl {s : Engine} {id : Nat} {entry : EngineEntry}
    (hentry : s.entries[id]? = some entry) (ty : Ty) (i : Nat) :
    (s.fillDecl id entry ty).entries[i]? =
      if id = i then some { entry with ty := some ty } else s.entries[i]? := by
  have hlt : id < s.entries.size := (Array.getElem?_eq_some_iff.mp hentry).1
  simp [fillDecl, mark, Array.getElem?_setIfInBounds, hlt]

/-- The four ways in which the type of a declaration is settled. -/
theorem settleDecl_cases (s : Engine) (id : Nat) (ty : Ty) (cause : Token) :
    (s.entries[id]? = none ∧ s.settleDecl id ty cause = .error (.unbound cause)) ∨
    ∃ entry, s.entries[id]? = some entry ∧
      ((entry.ty = none ∧ s.settleDecl id ty cause = .ok (s.fillDecl id entry ty)) ∨
       (entry.ty = some ty ∧ s.settleDecl id ty cause = .ok s) ∨
       ∃ current, entry.ty = some current ∧ current ≠ ty ∧
         s.settleDecl id ty cause = .error (.mismatch current ty entry.name cause.place)) := by
  cases hentry : s.entries[id]? with
  | none => exact .inl ⟨rfl, by simp [settleDecl, hentry]⟩
  | some entry =>
    refine .inr ⟨entry, rfl, ?_⟩
    cases hty : entry.ty with
    | none => exact .inl ⟨rfl, by simp [settleDecl, hentry, hty, settle, fillDecl]⟩
    | some current =>
      by_cases hc : current = ty
      · subst hc
        refine .inr (.inl ⟨rfl, ?_⟩)
        have hsame : s.entries.setIfInBounds id { entry with ty := some current } = s.entries := by
          apply Array.ext_getElem?
          intro i
          refine (s.getElem?_fillDecl hentry current i).trans ?_
          split
          · rename_i hi
            rw [← hi, hentry, ← hty]
          · rfl
        simp [settleDecl, hentry, hty, settle, hsame]
      · exact .inr (.inr ⟨current, rfl, hc, by simp [settleDecl, hentry, hty, settle, hc]⟩)

end Engine

namespace Expr

@[simp] theorem untyped_setTy (e : Expr) (slot : Option Ty) :
    (e.setTy slot).untyped = e.untyped := by
  cases e <;> rfl

theorem setTy_self {e : Expr} {slot : Option Ty} (h : e.ty = slot) : e.setTy slot = e := by
  subst h
  cases e <;> rfl

/-- The three ways in which the type of an expression is settled. -/
theorem settleTy_cases (e : Expr) (ty : Ty) (s : Engine) :
    (e.ty = none ∧ e.settleTy ty s = .done (e.setTy (some ty)) (s.mark true)) ∨
    (e.ty = some ty ∧ e.settleTy ty s = .done e s) ∨
    ∃ current, e.ty = some current ∧ current ≠ ty ∧
      e.settleTy ty s = .stop e s (.mismatch current ty e.token.name e.token.place) := by
  cases hty : e.ty with
  | none => exact .inl ⟨rfl, by simp [settleTy, hty, settle]⟩
  | some current =>
    by_cases hc : current = ty
    · subst hc
      exact .inr (.inl ⟨rfl, by simp [settleTy, hty, settle, setTy_self hty]⟩)
    · exact .inr (.inr ⟨current, rfl, hc, by simp [settleTy, hty, settle, hc]⟩)

end Expr

/-! ## Fillings -/

/-- The slots `L` and the engine `s` become `L'` and `s'` by filling empty slots one at a time. -/
inductive Filling (L : List (Option Ty)) (s : Engine) : List (Option Ty) → Engine → Prop where
  | refl : Filling L s L s
  | slot {A B : List (Option Ty)} {s' : Engine} (ty : Ty) :
      Filling L s (A ++ none :: B) s' → Filling L s (A ++ some ty :: B) (s'.mark true)
  | decl {L' : List (Option Ty)} {s' : Engine} {id : Nat} {entry : EngineEntry} (ty : Ty) :
      Filling L s L' s' → s'.entries[id]? = some entry → entry.ty = none →
      Filling L s L' (s'.fillDecl id entry ty)

namespace Filling

variable {L L' L'' : List (Option Ty)} {s s' s'' : Engine}

theorem trans (h : Filling L s L' s') (h' : Filling L' s' L'' s'') : Filling L s L'' s'' := by
  induction h' with
  | refl => exact h
  | slot ty _ ih => exact .slot ty ih
  | decl ty _ hentry hty ih => exact .decl ty ih hentry hty

/-- A filling of some slots is one of all slots among which they stand. -/
theorem within (h : Filling L s L' s') (A B : List (Option Ty)) :
    Filling (A ++ L ++ B) s (A ++ L' ++ B) s' := by
  induction h with
  | refl => exact .refl
  | @slot C D s' ty _ ih =>
    have hempty : Filling (A ++ L ++ B) s ((A ++ C) ++ none :: (D ++ B)) s' := by simpa using ih
    simpa using hempty.slot ty
  | decl ty _ hentry hty ih => exact .decl ty ih hentry hty

theorem changed_mono (h : Filling L s L' s') (hc : s.changed = true) : s'.changed = true := by
  induction h with
  | refl => exact hc
  | slot | decl => simp [Engine.mark, Engine.fillDecl]

/-- **An engine that is not marked has seen nothing filled.** -/
theorem eq_of_quiet (h : Filling L s L' s') (hc : s'.changed = false) : L' = L ∧ s' = s := by
  cases h with
  | refl => exact ⟨rfl, rfl⟩
  | slot | decl => simp [Engine.mark, Engine.fillDecl] at hc

theorem kind_eq (h : Filling L s L' s') (id : Nat) :
    (s'.entries[id]?).map EngineEntry.kind = (s.entries[id]?).map EngineEntry.kind := by
  induction h with
  | refl => rfl
  | slot _ _ ih => exact ih
  | @decl _ s' i entry _ _ hentry _ ih =>
    rw [← ih, Engine.getElem?_fillDecl hentry]
    split
    · rename_i hi
      rw [← hi, hentry]
      rfl
    · rfl

end Filling

/-! ## Empty slots -/

namespace Engine

/-- The number of declarations without a type. -/
def blanks (s : Engine) : Nat := s.entries.countP fun entry => entry.ty.isNone

theorem blanks_fillDecl {s : Engine} {id : Nat} {entry : EngineEntry} (ty : Ty)
    (hentry : s.entries[id]? = some entry) (hty : entry.ty = none) :
    (s.fillDecl id entry ty).blanks + 1 = s.blanks := by
  obtain ⟨hlt, hget⟩ := Array.getElem?_eq_some_iff.mp hentry
  have hpos : 0 < s.entries.countP fun entry => entry.ty.isNone := by
    rw [Array.countP_pos_iff]
    exact ⟨entry, hget ▸ Array.getElem_mem hlt, by simp [hty]⟩
  simp only [blanks, fillDecl, mark, Array.setIfInBounds, hlt, dite_true]
  rw [Array.countP_set hlt]
  simp [hget, hty]
  omega

end Engine

theorem Filling.potential_le {L L' : List (Option Ty)} {s s' : Engine} (h : Filling L s L' s') :
    L'.count none + s'.blanks + s'.changed.toNat ≤ L.count none + s.blanks + s.changed.toNat := by
  induction h with
  | refl => exact Nat.le_refl _
  | @slot A B s' ty _ ih =>
    have hblanks : (s'.mark true).blanks = s'.blanks := rfl
    have hmark : (s'.mark true).changed.toNat = 1 := by simp [Engine.mark]
    simp only [List.count_append, List.count_cons_self, hblanks, hmark,
      List.count_cons_of_ne (a := (none : Option Ty)) (b := some ty) (by simp)] at ih ⊢
    omega
  | @decl L' s' id entry ty _ hentry hty ih =>
    have hblanks := Engine.blanks_fillDecl ty hentry hty
    have hmark : (s'.fillDecl id entry ty).changed.toNat = 1 := by
      simp [Engine.fillDecl, Engine.mark]
    omega

/-! ## Trees with slots -/

/-- Trees that carry type slots: the tree without its types, and the slots of its expressions in
order. -/
class Slotted (α : Type) where
  untyped : α → α
  slots : α → List (Option Ty)

namespace Slotted

instance : Slotted Expr := ⟨Expr.untyped, fun e => e.subexprs.map Expr.ty⟩

instance : Slotted Stmt := ⟨Stmt.untyped, fun s => s.exprs.map Expr.ty⟩

instance : Slotted (List Stmt) := ⟨Stmt.untypedList, fun ss => (Stmt.exprsList ss).map Expr.ty⟩

instance : Slotted Decl := ⟨Decl.untyped, fun d => d.exprs.map Expr.ty⟩

instance : Slotted (List Decl) := ⟨Decl.untypedList, fun ds => (Decl.exprsList ds).map Expr.ty⟩

instance : Slotted Block :=
  ⟨Block.untyped, fun b => (Decl.exprsList b.decls ++ b.stmt.exprs).map Expr.ty⟩

instance : Slotted Program := ⟨Program.untyped, fun p => p.expressions.map Expr.ty⟩

end Slotted

open Slotted (untyped slots)

/-- The walk over `a` from `s` has done nothing but fill slots. -/
structure Walk.Fills {α : Type} [Slotted α] (a : α) (s : Engine) (w : Inferring α) : Prop where
  same : untyped w.tree = untyped a
  filling : Filling (slots a) s (slots w.tree) w.state

namespace Walk.Fills

variable {α β γ : Type} [Slotted α] [Slotted β] [Slotted γ] {a : α} {b : β} {s : Engine}

theorem done (a : α) (s : Engine) : Walk.Fills a s (.done a s) := ⟨rfl, .refl⟩

theorem stop (a : α) (s : Engine) (fault : TypeFault) : Walk.Fills a s (.stop a s fault) :=
  ⟨rfl, .refl⟩

theorem trans {a' : α} {s' : Engine} {w : Inferring α} (hu : untyped a' = untyped a)
    (hf : Filling (slots a) s (slots a') s') (hw : w.Fills a' s') : w.Fills a s :=
  ⟨hw.same.trans hu, hf.trans hw.filling⟩

theorem onward {w : Inferring α} {next : α → Engine → Inferring α} (hw : w.Fills a s)
    (hnext : ∀ a' s', untyped a' = untyped a → (next a' s').Fills a' s') :
    (w.onward next).Fills a s := by
  unfold Walk.onward
  split
  · exact hw
  · exact .trans hw.same hw.filling (hnext _ _ hw.same)

theorem map {w : Inferring α} {f : α → β} {A B : List (Option Ty)} (hw : w.Fills a s)
    (hu : ∀ a', untyped a' = untyped a → untyped (f a') = untyped (f a))
    (hs : ∀ a', slots (f a') = A ++ slots a' ++ B) : (w.map f).Fills (f a) s := by
  refine ⟨hu _ hw.same, ?_⟩
  rw [hs, Walk.map, hs]
  exact hw.filling.within A B

theorem andThen {w : Inferring α} {next : Engine → Inferring β} {join : α → β → γ}
    {A : List (Option Ty)} (hw : w.Fills a s) (hnext : ∀ s', (next s').Fills b s')
    (hu : ∀ a' b', untyped a' = untyped a → untyped b' = untyped b →
      untyped (join a' b') = untyped (join a b))
    (hs : ∀ a' b', slots (join a' b') = A ++ slots a' ++ slots b') :
    (w.andThen b next join).Fills (join a b) s := by
  have hfirst : Filling (slots (join a b)) s (slots (join w.tree b)) w.state := by
    rw [hs, hs]
    exact hw.filling.within A (slots b)
  unfold Walk.andThen
  split
  · exact ⟨hu _ _ hw.same rfl, hfirst⟩
  · refine ⟨hu _ _ hw.same (hnext _).same, hfirst.trans ?_⟩
    simp only [Walk.map]
    rw [hs, hs]
    simpa using (hnext w.state).filling.within (A ++ slots w.tree) []

end Walk.Fills

/-! ## Expressions -/

namespace Expr

theorem slots_eq_cons (e : Expr) :
    ∃ rest, ∀ slot, slots (e.setTy slot) = slot :: rest := by
  cases e with
  | literal => exact ⟨[], fun _ => rfl⟩
  | use => exact ⟨[], fun _ => rfl⟩
  | binary token ty op lhs rhs =>
    exact ⟨(lhs.subexprs ++ rhs.subexprs).map Expr.ty, fun _ => rfl⟩

theorem slots_binary (token : Token) (ty : Option Ty) (op : Op) (lhs rhs : Expr) :
    slots (Expr.binary token ty op lhs rhs) = [ty] ++ slots lhs ++ slots rhs := by
  simp [slots, subexprs, Expr.ty]

theorem untyped_binary {token : Token} {ty ty' : Option Ty} {op : Op} {lhs lhs' rhs rhs' : Expr}
    (hl : untyped lhs' = untyped lhs) (hr : untyped rhs' = untyped rhs) :
    untyped (Expr.binary token ty' op lhs' rhs') = untyped (Expr.binary token ty op lhs rhs) := by
  change Expr.binary token none op (untyped lhs') (untyped rhs') = .binary token none op _ _
  rw [hl, hr]

theorem fills_settleTy (e : Expr) (ty : Ty) (s : Engine) : (e.settleTy ty s).Fills e s := by
  rcases e.settleTy_cases ty s with ⟨hty, h⟩ | ⟨_, h⟩ | ⟨c, _, _, h⟩ <;> rw [h]
  · obtain ⟨rest, hrest⟩ := e.slots_eq_cons
    refine ⟨e.untyped_setTy _, ?_⟩
    have hold : slots e = none :: rest := by rw [← hrest none, setTy_self hty]
    simp only [Walk.done]
    rw [hrest, hold]
    exact Filling.slot (A := []) ty .refl
  · exact .done e s
  · exact .stop e s _

theorem fills_afterDecl (e : Expr) (s : Engine) (id : Nat) (ty : Ty) (cause : Token) :
    (e.afterDecl s (s.settleDecl id ty cause)).Fills e s := by
  rcases s.settleDecl_cases id ty cause with ⟨_, h⟩ |
    ⟨entry, hentry, ⟨hty, h⟩ | ⟨_, h⟩ | ⟨c, _, _, h⟩⟩ <;>
    rw [h]
  · exact .stop e s _
  · exact ⟨rfl, Filling.decl ty .refl hentry hty⟩
  · exact .done e s
  · exact .stop e s _

theorem fills_push (ty : Ty) (e : Expr) (s : Engine) : (e.push ty s).Fills e s := by
  induction e generalizing s with
  | literal token slot value => exact fills_settleTy _ ty s
  | use ident slot =>
    refine (fills_settleTy _ ty s).onward fun e s _ => ?_
    split
    · exact fills_afterDecl e s _ ty _
    · exact .stop e s _
  | binary token slot op lhs rhs ihl ihr =>
    have hfilled : ∀ {filled}, settle slot ty = .ok filled →
        Filling (slots (Expr.binary token slot op lhs rhs)) s
          (slots (Expr.binary token (some ty) op lhs rhs)) (s.mark filled) := by
      intro filled hs
      have := (fills_settleTy (.binary token slot op lhs rhs) ty s).filling
      simpa only [settleTy, Expr.ty, hs, Walk.done, setTy] using this
    simp only [push]
    split
    · exact .stop _ s _
    · rename_i filled hsettle
      have hsame : untyped (Expr.binary token (some ty) op lhs rhs) =
          untyped (Expr.binary token slot op lhs rhs) := untyped_binary rfl rfl
      refine Walk.Fills.trans hsame (hfilled hsettle) ?_
      split
      · exact .done _ _
      · refine Walk.Fills.andThen (a := lhs) (b := rhs) (A := [some ty]) ?_ (fun s' => ?_)
          (fun _ _ hl hr => untyped_binary hl hr) (fun _ _ => slots_binary ..)
        · split
          · exact ihl _
          · exact .done _ _
        · split
          · exact ihr _
          · exact .done _ _

theorem fills_balance (token : Token) (ty : Option Ty) (op : Op) (lhs rhs : Expr) (s : Engine) :
    (balance token ty op lhs rhs s).Fills (.binary token ty op lhs rhs) s := by
  unfold balance
  split
  · exact Walk.Fills.map (A := [_] ++ slots lhs) (B := []) (fills_push _ rhs s)
      (fun _ hr => untyped_binary rfl hr)
      (fun _ => (slots_binary ..).trans (List.append_nil _).symm)
  · exact Walk.Fills.map (f := (Expr.binary token _ _ · rhs)) (A := [_]) (B := slots rhs)
      (fills_push _ lhs s) (fun _ hl => untyped_binary hl rfl) (fun _ => slots_binary ..)
  · exact Walk.Fills.andThen (A := [_]) (fills_push _ lhs s) (fun s' => fills_push _ rhs s')
      (fun _ _ hl hr => untyped_binary hl hr) (fun _ _ => slots_binary ..)
  · exact .done _ _

theorem fills_combine (op : Op) (left right : Option Ty) (e : Expr) (s : Engine) :
    (combine op left right e s).Fills e s := by
  unfold combine
  refine Walk.Fills.onward (a := e) (s := s) ?_ fun e s _ => ?_
  · split
    · exact fills_settleTy e .boolean s
    · exact .done e s
  · split
    · split
      · split
        · exact fills_settleTy e _ s
        · exact .stop e s _
      · exact .stop e s _
    · exact .done e s

theorem fills_demand (strict : Bool) (e : Expr) (s : Engine) : (demand strict e s).Fills e s := by
  unfold demand
  split
  · exact .stop e s _
  · exact .done e s

theorem fills_meetDecl (ident : Ident) (slot : Option Ty) (s : Engine) :
    (meetDecl ident slot s).Fills (.use ident slot) s := by
  unfold meetDecl
  split
  · exact .stop _ s _
  · split
    · exact fills_settleTy _ _ s
    · exact fills_afterDecl _ s _ _ _
    · exact .done _ s

theorem fills_meetOperands (e : Expr) (s : Engine) : (meetOperands e s).Fills e s := by
  unfold meetOperands
  split
  · exact (fills_balance ..).onward fun e s _ => fills_combine _ _ _ e s
  · exact .done _ s

theorem fills_infer (strict : Bool) (e : Expr) (s : Engine) : (e.infer strict s).Fills e s := by
  induction e generalizing s with
  | literal token slot value =>
    exact (fills_settleTy _ _ s).onward fun e s _ => fills_demand strict e s
  | use ident slot =>
    exact (fills_meetDecl ident slot s).onward fun e s _ => fills_demand strict e s
  | binary token ty op lhs rhs ihl ihr =>
    have hoperands := Walk.Fills.andThen (A := [ty]) (ihl s) (fun s' => ihr s')
      (fun _ _ hl hr => untyped_binary hl hr) (fun _ _ => slots_binary token ty op _ _)
    exact (hoperands.onward fun e s _ => fills_meetOperands e s).onward fun e s _ =>
      fills_demand strict e s

theorem fills_inferGuard (strict : Bool) (e : Expr) (s : Engine) :
    (e.inferGuard strict s).Fills e s := by
  refine (fills_infer strict e s).onward fun e s _ => ?_
  split
  · exact fills_push .boolean e s
  · exact .done e s
  · exact .stop e s _

end Expr

/-! ## Statements -/

section Statements

open Stmt

mutual

theorem Stmt.fills_infer (strict : Bool) :
    (stmt : Stmt) → (s : Engine) → (stmt.infer strict s).Fills stmt s
  | .assign target expr, s => by
    simp only [Stmt.infer]
    split
    · exact .stop _ s _
    · refine Walk.Fills.map (f := Stmt.assign target) (A := []) (B := [])
        ((expr.fills_infer strict s).onward fun e s _ => ?_)
        (fun _ he => congrArg (Stmt.assign target) he) (fun _ => (List.append_nil _).symm)
      split
      · exact e.fills_push _ s
      · exact e.fills_afterDecl s _ _ _
      · exact .done e s
  | .call token target, s => by
    simp only [Stmt.infer]
    split
    · exact .stop _ s _
    · exact .done _ s
  | .input token target, s => by
    simp only [Stmt.infer]
    split
    · exact .stop _ s _
    · split
      · exact .stop _ s _
      · exact .done _ s
  | .output token expr, s => by
    simp only [Stmt.infer]
    refine Walk.Fills.map (f := Stmt.output token) (A := []) (B := [])
      ((expr.fills_infer strict s).onward fun e s _ => ?_)
      (fun _ he => congrArg (Stmt.output token) he) (fun _ => (List.append_nil _).symm)
    split
    · split
      · exact .done e s
      · exact .stop e s _
    · exact .done e s
  | .begin token stmts, s => by
    simp only [Stmt.infer]
    exact Walk.Fills.map (f := Stmt.begin token) (A := []) (B := [])
      (Stmt.fills_inferList strict stmts s)
      (fun _ hs => congrArg (Stmt.begin token) hs) (fun _ => (List.append_nil _).symm)
  | .if token guard body, s => by
    simp only [Stmt.infer]
    exact Walk.Fills.andThen (A := []) (guard.fills_inferGuard strict s)
      (fun s' => body.fills_infer strict s')
      (fun _ _ hg hb => (congr (congrArg (Stmt.if token) hg) hb :)) (fun _ _ => List.map_append)
  | .while token guard body, s => by
    simp only [Stmt.infer]
    exact Walk.Fills.andThen (A := []) (guard.fills_inferGuard strict s)
      (fun s' => body.fills_infer strict s')
      (fun _ _ hg hb => (congr (congrArg (Stmt.while token) hg) hb :)) (fun _ _ => List.map_append)
  | .empty token, s => .done _ s

theorem Stmt.fills_inferList (strict : Bool) :
    (stmts : List Stmt) → (s : Engine) → (Stmt.inferList strict stmts s).Fills stmts s
  | [], s => .done _ s
  | stmt :: stmts, s => by
    simp only [Stmt.inferList]
    exact Walk.Fills.andThen (A := []) (stmt.fills_infer strict s)
      (fun s' => Stmt.fills_inferList strict stmts s')
      (fun _ _ hs hss => (congr (congrArg List.cons hs) hss :)) (fun _ _ => List.map_append)

end

end Statements

/-! ## Blocks and passes -/

theorem Engine.filling_declare (strict : Bool) (L : List (Option Ty)) (decls : List Decl) :
    ∀ s : Engine, Filling L s L (s.declare strict decls).1 := by
  induction decls with
  | nil => intro s; exact .refl
  | cons d ds ih =>
    intro s
    simp only [declare]
    split
    · rename_i ty _
      rcases s.settleDecl_cases d.head.id ty d.head.token with
        ⟨_, h⟩ | ⟨entry, hentry, ⟨hty, h⟩ | ⟨_, h⟩ | ⟨c, _, _, h⟩⟩ <;> rw [h]
      · exact .refl
      · exact (Filling.decl ty .refl hentry hty).trans (ih _)
      · exact ih s
      · exact .refl
    · split
      · exact .refl
      · exact ih s

theorem Engine.fills_inferBlock (strict : Bool) (s : Engine) (decls : List Decl) (stmt : Stmt)
    {bodies : Engine → Inferring (List Decl)} (hbodies : ∀ s', (bodies s').Fills decls s') :
    (s.inferBlock strict decls stmt bodies).Fills ⟨decls, stmt⟩ s := by
  have hdeclare := s.filling_declare strict (slots (Block.mk decls stmt)) decls
  unfold inferBlock
  split
  · rename_i s' fault h
    rw [h] at hdeclare
    exact ⟨rfl, hdeclare⟩
  · rename_i s' h
    rw [h] at hdeclare
    refine Walk.Fills.trans (rfl : untyped (Block.mk decls stmt) = _) hdeclare ?_
    exact Walk.Fills.andThen (A := []) (hbodies s') (fun s => stmt.fills_infer strict s)
      (fun _ _ hd hs => (congr (congrArg Block.mk hd) hs :)) (fun _ _ => List.map_append)

mutual

theorem Decl.fills_infer (strict : Bool) :
    (d : Decl) → (s : Engine) → (d.infer strict s).Fills d s
  | .const head value, s => .done _ s
  | .var head, s => .done _ s
  | .procedure head decls stmt, s => by
    simp only [Decl.infer]
    refine Walk.Fills.map (a := Block.mk decls stmt)
      (f := fun b => Decl.procedure head b.decls b.stmt)
      (A := []) (B := []) (s.fills_inferBlock strict decls stmt fun s' => ?_)
      (fun b hb => ?_) (fun _ => (List.append_nil _).symm)
    · exact Decl.fills_inferList strict decls s'
    · obtain ⟨hdecls, hstmt⟩ := Block.mk.inj hb
      exact (congr (congrArg (Decl.procedure head.untyped) hdecls) hstmt :)

theorem Decl.fills_inferList (strict : Bool) :
    (decls : List Decl) → (s : Engine) → (Decl.inferList strict decls s).Fills decls s
  | [], s => .done _ s
  | d :: ds, s => by
    simp only [Decl.inferList]
    exact Walk.Fills.andThen (A := []) (d.fills_infer strict s)
      (fun s' => Decl.fills_inferList strict ds s')
      (fun _ _ hd hds => (congr (congrArg List.cons hd) hds :)) (fun _ _ => List.map_append)

end

mutual

theorem Decl.untyped_writeBack (s : Engine) : (d : Decl) → (d.writeBack s).untyped = d.untyped
  | .const head value => rfl
  | .var head => rfl
  | .procedure head decls stmt => by
    simp [Decl.writeBack, Decl.untyped, DeclHead.untyped, Decl.untypedList_writeBack s decls]

theorem Decl.untypedList_writeBack (s : Engine) :
    (ds : List Decl) → Decl.untypedList (Decl.writeBackList s ds) = Decl.untypedList ds
  | [] => rfl
  | d :: ds => by
    simp [Decl.writeBackList, Decl.untypedList, d.untyped_writeBack s,
      Decl.untypedList_writeBack s ds]

end

mutual

theorem Decl.exprs_writeBack (s : Engine) : (d : Decl) → (d.writeBack s).exprs = d.exprs
  | .const head value => rfl
  | .var head => rfl
  | .procedure head decls stmt => by
    simp [Decl.writeBack, Decl.exprs, Decl.exprsList_writeBack s decls]

theorem Decl.exprsList_writeBack (s : Engine) :
    (ds : List Decl) → Decl.exprsList (Decl.writeBackList s ds) = Decl.exprsList ds
  | [] => rfl
  | d :: ds => by
    simp [Decl.writeBackList, Decl.exprsList, d.exprs_writeBack s, Decl.exprsList_writeBack s ds]

end

namespace Engine

/-- Begins a pass: the engine is not marked. -/
def unmark (s : Engine) : Engine := { s with changed := false }

/-- What a pass does before it writes types back. -/
def visit (strict : Bool) (s : Engine) (p : Program) : Inferring Block :=
  s.unmark.inferBlock strict p.block.decls p.block.stmt fun s =>
    Decl.inferList strict p.block.decls s

theorem fills_visit (strict : Bool) (s : Engine) (p : Program) :
    (s.visit strict p).Fills p.block s.unmark :=
  s.unmark.fills_inferBlock strict p.block.decls p.block.stmt fun s' =>
    Decl.fills_inferList strict p.block.decls s'

/-- The program as a pass leaves it when it succeeds. -/
def written (s : Engine) (p : Program) (b : Block) : Program :=
  { p with block := ⟨Decl.writeBackList s b.decls, b.stmt⟩ }

theorem pass_eq (strict : Bool) (s : Engine) (p : Program) :
    s.pass strict p =
      match (s.visit strict p).fault with
      | some fault =>
        .stop { p with block := (s.visit strict p).tree } (s.visit strict p).state fault
      | none =>
        .done (written (s.visit strict p).state p (s.visit strict p).tree)
          (s.visit strict p).state := by
  have hpass : s.pass strict p =
      ((s.visit strict p).map fun b => { p with block := b }).onward fun p s =>
        .done { p with block.decls := Decl.writeBackList s p.block.decls } s := rfl
  rw [hpass]
  unfold Walk.onward Walk.map
  cases h : (s.visit strict p).fault with
  | some fault => simp [Walk.stop]
  | none => rfl

/-- **Every pass fills**, from the engine it begins with, unmarked. -/
theorem fills_pass (strict : Bool) (s : Engine) (p : Program) :
    (s.pass strict p).Fills p s.unmark := by
  have hvisit := s.fills_visit strict p
  obtain ⟨hdecls, hstmt⟩ := Block.mk.inj hvisit.same
  rw [pass_eq]
  split
  · refine ⟨?_, hvisit.filling⟩
    exact congrArg (fun b => { p with block := b }) hvisit.same
  · refine ⟨?_, ?_⟩
    · simp only [Walk.done, written, Slotted.untyped, Program.untyped, Block.untyped,
        Decl.untypedList_writeBack]
      rw [hdecls, hstmt]
    · have hslots : slots (written (s.visit strict p).state p (s.visit strict p).tree) =
          slots (s.visit strict p).tree := by
        simp only [slots, written, Program.expressions, Decl.exprsList_writeBack]
      simp only [Walk.done]
      rw [hslots]
      exact hvisit.filling

end Engine

end PLZero
