import Mathlib.Logic.Equiv.Defs
import PLZero.Proofs.Typing.Signature

/-!
# Programs in another order

`Program.Reordered` relates two programs that differ in the order of the statements inside
`begin … end` and of the declarations in a block, and so also in the numbers of declarations.  Types
must be the same at places that correspond; tokens need not be.

* `Program.exists_isTyping_reordered` — a typing of one program is a typing of the other, reordered.
* `Program.eq_of_signature` — two typings of a program that agree on declarations are equal.
-/

namespace PLZero

/-! ## The relation

`ρ` takes the number of a declaration in the first program to its number in the second. -/

inductive Expr.Reordered (ρ : Equiv.Perm Nat) : Expr → Expr → Prop where
  | literal {token token' : Token} {ty : Option Ty} {value : Value} :
      Reordered ρ (.literal token ty value) (.literal token' ty value)
  | use {ident ident' : Ident} {ty : Option Ty} :
      ident'.decl = ident.decl.map ρ → Reordered ρ (.use ident ty) (.use ident' ty)
  | binary {token token' : Token} {ty : Option Ty} {op : Op} {lhs lhs' rhs rhs' : Expr} :
      Reordered ρ lhs lhs' → Reordered ρ rhs rhs' →
      Reordered ρ (.binary token ty op lhs rhs) (.binary token' ty op lhs' rhs')

mutual

inductive Stmt.Reordered (ρ : Equiv.Perm Nat) : Stmt → Stmt → Prop where
  | assign {target target' : Ident} {e e' : Expr} :
      target'.decl = target.decl.map ρ → e.Reordered ρ e' →
      Reordered ρ (.assign target e) (.assign target' e')
  | call {token token' : Token} {target target' : Ident} :
      target'.decl = target.decl.map ρ → Reordered ρ (.call token target) (.call token' target')
  | input {token token' : Token} {target target' : Ident} :
      target'.decl = target.decl.map ρ → Reordered ρ (.input token target) (.input token' target')
  | output {token token' : Token} {e e' : Expr} :
      e.Reordered ρ e' → Reordered ρ (.output token e) (.output token' e')
  | begin {token token' : Token} {ss ss' : List Stmt} :
      Stmt.ReorderedList ρ ss ss' → Reordered ρ (.begin token ss) (.begin token' ss')
  | «if» {token token' : Token} {g g' : Expr} {b b' : Stmt} :
      g.Reordered ρ g' → Reordered ρ b b' → Reordered ρ (.if token g b) (.if token' g' b')
  | «while» {token token' : Token} {g g' : Expr} {b b' : Stmt} :
      g.Reordered ρ g' → Reordered ρ b b' → Reordered ρ (.while token g b) (.while token' g' b')
  | empty (token token' : Token) : Reordered ρ (.empty token) (.empty token')

/-- The first statement of the one list may stand anywhere in the other. -/
inductive Stmt.ReorderedList (ρ : Equiv.Perm Nat) : List Stmt → List Stmt → Prop where
  | nil : ReorderedList ρ [] []
  | cons {s s' : Stmt} {ss A B : List Stmt} :
      Stmt.Reordered ρ s s' → ReorderedList ρ ss (A ++ B) → ReorderedList ρ (s :: ss) (A ++ s' :: B)

end

/-- The two declarations have the same type, and numbers that correspond. -/
structure DeclHead.Reordered (ρ : Equiv.Perm Nat) (head head' : DeclHead) : Prop where
  id : head'.id = ρ head.id
  ty : head'.ty = head.ty

theorem DeclHead.Reordered.untyped_setTy {ρ : Equiv.Perm Nat} {head head' : DeclHead}
    (h : head.untyped.Reordered ρ head') (slot : Option Ty) :
    DeclHead.untyped { head' with ty := slot } = head' := by
  have hty : head'.ty = none := h.ty
  rw [DeclHead.untyped, ← hty]

mutual

inductive Decl.Reordered (ρ : Equiv.Perm Nat) : Decl → Decl → Prop where
  | const {head head' : DeclHead} {value : Value} :
      head.Reordered ρ head' → Reordered ρ (.const head value) (.const head' value)
  | var {head head' : DeclHead} : head.Reordered ρ head' → Reordered ρ (.var head) (.var head')
  | procedure {head head' : DeclHead} {ds ds' : List Decl} {s s' : Stmt} :
      head.Reordered ρ head' → Decl.ReorderedList ρ ds ds' → s.Reordered ρ s' →
      Reordered ρ (.procedure head ds s) (.procedure head' ds' s')

inductive Decl.ReorderedList (ρ : Equiv.Perm Nat) : List Decl → List Decl → Prop where
  | nil : ReorderedList ρ [] []
  | cons {d d' : Decl} {ds A B : List Decl} :
      Decl.Reordered ρ d d' → ReorderedList ρ ds (A ++ B) → ReorderedList ρ (d :: ds) (A ++ d' :: B)

end

structure Program.Reordered (ρ : Equiv.Perm Nat) (p p' : Program) : Prop where
  decls : Decl.ReorderedList ρ p.block.decls p'.block.decls
  stmt : p.block.stmt.Reordered ρ p'.block.stmt

/-! ## Carrying types across -/

/-- The signature with its numbers changed by `ρ`. -/
def Signature.renumber (ρ : Equiv.Perm Nat) (Γ : Signature) : Signature := fun id => Γ (ρ.symm id)

section Transport

variable {T : OpTable} {Γ : Signature} {ρ : Equiv.Perm Nat}

theorem Signature.renumber_eq {id : Nat} {kind : DeclKind} {ty : Ty} (h : Γ id = some (kind, ty)) :
    Γ.renumber ρ (ρ id) = some (kind, ty) := by
  simpa [renumber] using h

theorem Expr.HasTy.reorder {e e' f : Expr} {ty : Ty} (h : e.Reordered ρ e') (hf : f.untyped = e)
    (ht : f.HasTy T Γ ty) :
    ∃ f', f'.untyped = e' ∧ f'.HasTy T (Γ.renumber ρ) ty ∧ f.Reordered ρ f' := by
  induction h generalizing f ty with
  | @literal token token' slot value =>
    cases ht <;> cases hf
    exact ⟨_, rfl, .literal token' _, .literal⟩
  | @use ident ident' slot hdecl =>
    cases ht with
    | literal | binary => cases hf
    | use hid hsig hkind hval =>
      cases hf
      rw [hid] at hdecl
      exact ⟨_, rfl, .use hdecl (Signature.renumber_eq hsig) hkind hval, .use (by rw [hid, hdecl])⟩
  | @binary token token' slot op lhs lhs' rhs rhs' _ _ ihl ihr =>
    cases ht with
    | literal | use => cases hf
    | binary hl hr hop =>
      obtain ⟨-, rfl, rfl, hlf, hrf⟩ := Expr.binary.inj hf
      obtain ⟨l', hlu, hlt, hlr⟩ := ihl hlf hl
      obtain ⟨r', hru, hrt, hrr⟩ := ihr hrf hr
      refine ⟨.binary token' _ _ l' r', ?_, .binary hlt hrt hop, .binary hlr hrr⟩
      rw [Expr.untyped, hlu, hru]

theorem Stmt.untypedList_eq_map (ss : List Stmt) : Stmt.untypedList ss = ss.map Stmt.untyped := by
  induction ss with
  | nil => rfl
  | cons s ss ih => rw [Stmt.untypedList, ih, List.map_cons]

theorem Decl.untypedList_eq_map (ds : List Decl) : Decl.untypedList ds = ds.map Decl.untyped := by
  induction ds with
  | nil => rfl
  | cons d ds ih => rw [Decl.untypedList, ih, List.map_cons]

/-- Where a list maps to `A ++ B`, a further member can be put between the two parts. -/
theorem exists_insert {α : Type} {u : α → α} {P : α → Prop} {A B fs : List α} {f : α}
    (hmap : fs.map u = A ++ B) (hf : P f) (hfs : ∀ x ∈ fs, P x) :
    ∃ A' B', fs = A' ++ B' ∧ (A' ++ f :: B').map u = A ++ u f :: B ∧ ∀ x ∈ A' ++ f :: B', P x := by
  obtain ⟨A', B', rfl, rfl, rfl⟩ := List.map_eq_append_iff.mp hmap
  rw [List.forall_mem_append] at hfs
  refine ⟨A', B', rfl, by rw [List.map_append, List.map_cons], ?_⟩
  rw [List.forall_mem_append, List.forall_mem_cons]
  exact ⟨hfs.1, hf, hfs.2⟩

mutual

theorem Stmt.WellTyped.reorder {s s' f : Stmt} (h : s.Reordered ρ s') (hf : f.untyped = s)
    (ht : f.WellTyped T Γ) :
    ∃ f', f'.untyped = s' ∧ f'.WellTyped T (Γ.renumber ρ) ∧ f.Reordered ρ f' := by
  cases h with
  | @assign target target' e e' hdecl he =>
    cases ht with
    | assign hid hsig hte =>
      obtain ⟨rfl, hfe⟩ := Stmt.assign.inj hf
      obtain ⟨e₂, hu, hty, hr⟩ := hte.reorder he hfe
      refine ⟨.assign target' e₂, by rw [Stmt.untyped, hu], ?_, .assign hdecl hr⟩
      exact .assign (by rw [hdecl, hid]; rfl) (Signature.renumber_eq hsig) hty
    | _ => cases hf
  | @call token token' target target' hdecl =>
    cases ht with
    | call hid hsig =>
      obtain ⟨-, rfl⟩ := Stmt.call.inj hf
      refine ⟨.call token' target', rfl, ?_, .call hdecl⟩
      exact .call (by rw [hdecl, hid]; rfl) (Signature.renumber_eq hsig)
    | _ => cases hf
  | @input token token' target target' hdecl =>
    cases ht with
    | input hid hsig =>
      obtain ⟨-, rfl⟩ := Stmt.input.inj hf
      refine ⟨.input token' target', rfl, ?_, .input hdecl⟩
      exact .input (by rw [hdecl, hid]; rfl) (Signature.renumber_eq hsig)
    | _ => cases hf
  | @output token token' e e' he =>
    cases ht with
    | output hte =>
      obtain ⟨e₂, hu, hty, hr⟩ := hte.reorder he (Stmt.output.inj hf).2
      exact ⟨.output token' e₂, by rw [Stmt.untyped, hu], .output hty, .output hr⟩
    | _ => cases hf
  | @begin token token' ss ss' hss =>
    cases ht with
    | begin htss =>
      obtain ⟨ss₂, hu, hty, hr⟩ := Stmt.WellTyped.reorderList hss (Stmt.begin.inj hf).2 htss
      exact ⟨.begin token' ss₂, by rw [Stmt.untyped, hu], .begin hty, .begin hr⟩
    | _ => cases hf
  | @«if» token token' g g' b b' hg hb =>
    cases ht with
    | «if» htg htb =>
      obtain ⟨-, hfg, hfb⟩ := Stmt.if.inj hf
      obtain ⟨g₂, hgu, hgt, hgr⟩ := htg.reorder hg hfg
      obtain ⟨b₂, hbu, hbt, hbr⟩ := Stmt.WellTyped.reorder hb hfb htb
      exact ⟨.if token' g₂ b₂, by rw [Stmt.untyped, hgu, hbu], .if hgt hbt, .if hgr hbr⟩
    | _ => cases hf
  | @«while» token token' g g' b b' hg hb =>
    cases ht with
    | «while» htg htb =>
      obtain ⟨-, hfg, hfb⟩ := Stmt.while.inj hf
      obtain ⟨g₂, hgu, hgt, hgr⟩ := htg.reorder hg hfg
      obtain ⟨b₂, hbu, hbt, hbr⟩ := Stmt.WellTyped.reorder hb hfb htb
      exact ⟨.while token' g₂ b₂, by rw [Stmt.untyped, hgu, hbu], .while hgt hbt, .while hgr hbr⟩
    | _ => cases hf
  | empty token token' =>
    cases ht with
    | empty => exact ⟨.empty token', rfl, .empty token', .empty ..⟩
    | _ => cases hf

theorem Stmt.WellTyped.reorderList {ss ss' fs : List Stmt} (h : Stmt.ReorderedList ρ ss ss')
    (hf : Stmt.untypedList fs = ss) (ht : ∀ f ∈ fs, f.WellTyped T Γ) :
    ∃ fs', Stmt.untypedList fs' = ss' ∧ (∀ f ∈ fs', f.WellTyped T (Γ.renumber ρ)) ∧
      Stmt.ReorderedList ρ fs fs' := by
  cases h with
  | nil =>
    cases fs with
    | nil => exact ⟨[], rfl, by simp, .nil⟩
    | cons => cases hf
  | @cons s s' ss A B hs hss =>
    cases fs with
    | nil => cases hf
    | cons f fs =>
      obtain ⟨hfs, hfss⟩ := List.cons.inj hf
      rw [List.forall_mem_cons] at ht
      obtain ⟨f', hu, hty, hr⟩ := Stmt.WellTyped.reorder hs hfs ht.1
      obtain ⟨fs', hus, htys, hrs⟩ := Stmt.WellTyped.reorderList hss hfss ht.2
      rw [Stmt.untypedList_eq_map] at hus
      obtain ⟨A', B', rfl, hmap, hall⟩ := exists_insert hus hty htys
      exact ⟨A' ++ f' :: B', by rw [Stmt.untypedList_eq_map, hmap, hu], hall, .cons hr hrs⟩

end

mutual

theorem Decl.WellTyped.reorder {d d' f : Decl} (h : d.Reordered ρ d') (hf : f.untyped = d)
    (ht : f.WellTyped T Γ) :
    ∃ f', f'.untyped = d' ∧ f'.WellTyped T (Γ.renumber ρ) ∧ f.Reordered ρ f' := by
  cases h with
  | @const head head' value hhead =>
    cases ht with
    | const hty =>
      obtain ⟨rfl, rfl⟩ := Decl.const.inj hf
      exact ⟨.const { head' with ty := some _ } _, by rw [Decl.untyped, hhead.untyped_setTy],
        .const rfl, .const ⟨hhead.id, hty.symm⟩⟩
    | _ => cases hf
  | @var head head' hhead =>
    cases ht with
    | @var _ ty hty hval =>
      cases Decl.var.inj hf
      exact ⟨.var { head' with ty := some ty }, by rw [Decl.untyped, hhead.untyped_setTy],
        .var rfl hval, .var ⟨hhead.id, hty.symm⟩⟩
    | _ => cases hf
  | @procedure head head' ds ds' s s' hhead hds hs =>
    cases ht with
    | procedure hty htds hts =>
      obtain ⟨rfl, hfds, hfs⟩ := Decl.procedure.inj hf
      obtain ⟨ds₂, hdu, hdt, hdr⟩ := Decl.WellTyped.reorderList hds hfds htds
      obtain ⟨s₂, hsu, hst, hsr⟩ := hts.reorder hs hfs
      exact ⟨.procedure { head' with ty := some .procedure } ds₂ s₂,
        by rw [Decl.untyped, hhead.untyped_setTy, hdu, hsu], .procedure rfl hdt hst,
        .procedure ⟨hhead.id, hty.symm⟩ hdr hsr⟩
    | _ => cases hf

theorem Decl.WellTyped.reorderList {ds ds' fs : List Decl} (h : Decl.ReorderedList ρ ds ds')
    (hf : Decl.untypedList fs = ds) (ht : ∀ f ∈ fs, f.WellTyped T Γ) :
    ∃ fs', Decl.untypedList fs' = ds' ∧ (∀ f ∈ fs', f.WellTyped T (Γ.renumber ρ)) ∧
      Decl.ReorderedList ρ fs fs' := by
  cases h with
  | nil =>
    cases fs with
    | nil => exact ⟨[], rfl, by simp, .nil⟩
    | cons => cases hf
  | @cons d d' ds A B hd hds =>
    cases fs with
    | nil => cases hf
    | cons f fs =>
      obtain ⟨hfd, hfds⟩ := List.cons.inj hf
      rw [List.forall_mem_cons] at ht
      obtain ⟨f', hu, hty, hr⟩ := Decl.WellTyped.reorder hd hfd ht.1
      obtain ⟨fs', hus, htys, hrs⟩ := Decl.WellTyped.reorderList hds hfds ht.2
      rw [Decl.untypedList_eq_map] at hus
      obtain ⟨A', B', rfl, hmap, hall⟩ := exists_insert hus hty htys
      exact ⟨A' ++ f' :: B', by rw [Decl.untypedList_eq_map, hmap, hu], hall, .cons hr hrs⟩

end

end Transport

/-! ## The other way round -/

/-- Relations on lists that let the first member of one list stand anywhere in the other are as free
in the other list. -/
theorem insert_anywhere {α : Type} {R : α → α → Prop} {L : List α → List α → Prop}
    (hcons : ∀ {a a' : α} {as A B : List α}, R a a' → L as (A ++ B) → L (a :: as) (A ++ a' :: B))
    (hinv : ∀ {a : α} {as as' : List α}, L (a :: as) as' →
      ∃ a' A B, as' = A ++ a' :: B ∧ R a a' ∧ L as (A ++ B))
    {a a' : α} {as A B : List α} (h : L (A ++ B) as) (ha : R a a') :
    L (A ++ a :: B) (a' :: as) := by
  induction A generalizing as with
  | nil => exact hcons (A := []) ha h
  | cons b A ih =>
    -- Take the partner of `b` out, put `a'` in front of what is left, and put the partner back.
    obtain ⟨b', C, D, rfl, hb, hrest⟩ := hinv h
    exact hcons (A := a' :: C) hb (ih hrest)

section Symmetry

variable {ρ : Equiv.Perm Nat}

theorem map_symm {ident ident' : Ident} (h : ident'.decl = ident.decl.map ρ) :
    ident.decl = ident'.decl.map ρ.symm := by
  rw [h, Option.map_map]
  simp

theorem Expr.Reordered.symm {e e' : Expr} (h : e.Reordered ρ e') : e'.Reordered ρ.symm e := by
  induction h with
  | literal => exact .literal
  | use hdecl => exact .use (map_symm hdecl)
  | binary _ _ ihl ihr => exact .binary ihl ihr

mutual

theorem Stmt.Reordered.symm {s s' : Stmt} (h : s.Reordered ρ s') : s'.Reordered ρ.symm s := by
  cases h with
  | assign hdecl he => exact .assign (map_symm hdecl) he.symm
  | call hdecl => exact .call (map_symm hdecl)
  | input hdecl => exact .input (map_symm hdecl)
  | output he => exact .output he.symm
  | begin hss => exact .begin (Stmt.ReorderedList.symm hss)
  | «if» hg hb => exact .if hg.symm (Stmt.Reordered.symm hb)
  | «while» hg hb => exact .while hg.symm (Stmt.Reordered.symm hb)
  | empty => exact .empty ..

theorem Stmt.ReorderedList.symm {ss ss' : List Stmt} (h : Stmt.ReorderedList ρ ss ss') :
    Stmt.ReorderedList ρ.symm ss' ss := by
  cases h with
  | nil => exact .nil
  | cons hs hss =>
    refine insert_anywhere .cons (fun h => ?_) (Stmt.ReorderedList.symm hss)
      (Stmt.Reordered.symm hs)
    cases h with
    | cons hs hss => exact ⟨_, _, _, rfl, hs, hss⟩

end

theorem DeclHead.Reordered.symm {head head' : DeclHead} (h : head.Reordered ρ head') :
    head'.Reordered ρ.symm head :=
  ⟨by rw [h.id, Equiv.symm_apply_apply], h.ty.symm⟩

mutual

theorem Decl.Reordered.symm {d d' : Decl} (h : d.Reordered ρ d') : d'.Reordered ρ.symm d := by
  cases h with
  | const hhead => exact .const hhead.symm
  | var hhead => exact .var hhead.symm
  | procedure hhead hds hs => exact .procedure hhead.symm (Decl.ReorderedList.symm hds) hs.symm

theorem Decl.ReorderedList.symm {ds ds' : List Decl} (h : Decl.ReorderedList ρ ds ds') :
    Decl.ReorderedList ρ.symm ds' ds := by
  cases h with
  | nil => exact .nil
  | cons hd hds =>
    refine insert_anywhere .cons (fun h => ?_) (Decl.ReorderedList.symm hds)
      (Decl.Reordered.symm hd)
    cases h with
    | cons hd hds => exact ⟨_, _, _, rfl, hd, hds⟩

end

theorem Program.Reordered.symm {p p' : Program} (h : p.Reordered ρ p') : p'.Reordered ρ.symm p :=
  ⟨h.decls.symm, h.stmt.symm⟩

end Symmetry

/-! ## Signatures -/

section Signatures

variable {ρ : Equiv.Perm Nat}

mutual

theorem Decl.Reordered.exists_mem {d d' : Decl} (h : d.Reordered ρ d') :
    ∀ x ∈ d.subtree, ∃ x' ∈ d'.subtree, x.head.Reordered ρ x'.head ∧ x'.kind = x.kind := by
  cases h with
  | const hhead =>
    intro x hx
    rw [List.mem_singleton.mp hx]
    exact ⟨_, List.mem_singleton_self _, hhead, rfl⟩
  | var hhead =>
    intro x hx
    rw [List.mem_singleton.mp hx]
    exact ⟨_, List.mem_singleton_self _, hhead, rfl⟩
  | procedure hhead hds _ =>
    intro x hx
    rcases List.mem_cons.mp hx with rfl | hx
    · exact ⟨_, List.mem_cons_self .., hhead, rfl⟩
    · obtain ⟨x', hx', hr⟩ := Decl.ReorderedList.exists_mem hds x hx
      exact ⟨x', List.mem_cons_of_mem _ hx', hr⟩

theorem Decl.ReorderedList.exists_mem {ds ds' : List Decl} (h : Decl.ReorderedList ρ ds ds') :
    ∀ x ∈ Decl.subtrees ds, ∃ x' ∈ Decl.subtrees ds', x.head.Reordered ρ x'.head ∧
      x'.kind = x.kind := by
  cases h with
  | nil => simp [Decl.subtrees]
  | cons hd hds =>
    intro x hx
    rw [Decl.subtrees, List.mem_append] at hx
    simp only [Decl.subtrees_append, Decl.subtrees, List.mem_append]
    rcases hx with hx | hx
    · obtain ⟨x', hx', hr⟩ := Decl.Reordered.exists_mem hd x hx
      exact ⟨x', .inr (.inl hx'), hr⟩
    · obtain ⟨x', hx', hr⟩ := Decl.ReorderedList.exists_mem hds x hx
      rw [Decl.subtrees_append, List.mem_append] at hx'
      exact ⟨x', hx'.imp_right .inr, hr⟩

end

namespace Program

variable {p q p' q' : Program}

theorem Numbered.signature_eq_some_iff (hp : p.Numbered) {id : Nat} {kind : DeclKind} {ty : Ty} :
    p.signature id = some (kind, ty) ↔
      ∃ d ∈ p.declarations, d.head.id = id ∧ d.kind = kind ∧ d.head.ty = some ty := by
  rw [hp.signature_eq]
  constructor
  · intro h
    obtain ⟨d, hd, hty⟩ := Option.bind_eq_some_iff.mp h
    obtain ⟨ty', hty', hpair⟩ := Option.map_eq_some_iff.mp hty
    cases hpair
    exact ⟨d, List.mem_of_getElem? hd, hp.getElem?_id hd, rfl, hty'⟩
  · rintro ⟨d, hd, rfl, rfl, hty⟩
    rw [hp.getElem?_of_mem hd]
    simp [hty]

theorem Reordered.signature_le (h : q.Reordered ρ q') (hq : q.Numbered) (hq' : q'.Numbered)
    {id : Nat} {x : DeclKind × Ty} (hx : q.signature id = some x) :
    q'.signature (ρ id) = some x := by
  obtain ⟨kind, ty⟩ := x
  obtain ⟨d, hd, rfl, rfl, hty⟩ := hq.signature_eq_some_iff.mp hx
  obtain ⟨d', hd', hhead, hkind⟩ := h.decls.exists_mem d hd
  exact hq'.signature_eq_some_iff.mpr ⟨d', hd', hhead.id, hkind, hhead.ty.trans hty⟩

theorem Reordered.signature_eq (h : q.Reordered ρ q') (hq : q.Numbered) (hq' : q'.Numbered) :
    q'.signature = q.signature.renumber ρ := by
  funext id
  apply Option.ext
  intro x
  constructor
  · exact h.symm.signature_le hq' hq
  · intro hx
    have := h.signature_le hq hq' hx
    rwa [Equiv.apply_symm_apply] at this

/-- A typing of a program is one of the program reordered. -/
theorem exists_isTyping_reordered {T : OpTable} (h : p.Reordered ρ p') (hp : p.Fresh)
    (hp' : p'.Fresh) (hq : IsTyping T p q) : ∃ q', IsTyping T p' q' ∧ q.Reordered ρ q' := by
  obtain ⟨hdecls, hstmt⟩ := Block.mk.inj (congrArg block (hq.same.trans hp.untyped))
  obtain ⟨ds, hdu, hdt, hdr⟩ := Decl.WellTyped.reorderList h.decls hdecls hq.wellTyped.decls
  obtain ⟨s, hsu, hst, hsr⟩ := hq.wellTyped.stmt.reorder h.stmt hstmt
  have hsame : untyped { p' with block := ⟨ds, s⟩ } = p'.untyped := by
    rw [hp'.untyped, untyped, Block.untyped]
    simp only [hdu, hsu]
  have hr : q.Reordered ρ { p' with block := ⟨ds, s⟩ } := ⟨hdr, hsr⟩
  have hsig := hr.signature_eq (hp.numbered.of_untyped hq.same) (hp'.numbered.of_untyped hsame)
  exact ⟨_, ⟨hsame, by rw [hsig]; exact hdt, by rw [hsig]; exact hst⟩, hr⟩

end Program

end Signatures

/-! ## Typings that agree on declarations -/

section Determined

variable {T : OpTable} {Γ : Signature}

theorem Expr.HasTy.determined {e e' : Expr} {ty ty' : Ty} (h : e.HasTy T Γ ty)
    (h' : e'.HasTy T Γ ty') (hu : e.untyped = e'.untyped) : e = e' ∧ ty = ty' := by
  induction h generalizing e' ty' with
  | literal =>
    cases h' with
    | literal =>
      cases hu
      exact ⟨rfl, rfl⟩
    | _ => cases hu
  | use hid hsig _ _ =>
    cases h' with
    | use hid' hsig' _ _ =>
      cases hu
      cases hid.symm.trans hid'
      cases hsig.symm.trans hsig'
      exact ⟨rfl, rfl⟩
    | _ => cases hu
  | binary _ _ hop ihl ihr =>
    cases h' with
    | binary hl' hr' hop' =>
      obtain ⟨rfl, -, rfl, hul, hur⟩ := Expr.binary.inj hu
      obtain ⟨rfl, rfl⟩ := ihl hl' hul
      obtain ⟨rfl, -⟩ := ihr hr' hur
      cases hop.symm.trans hop'
      exact ⟨rfl, rfl⟩
    | _ => cases hu

mutual

theorem Stmt.WellTyped.determined : (s s' : Stmt) → s.WellTyped T Γ → s'.WellTyped T Γ →
    s.untyped = s'.untyped → s = s'
  | .assign target e, s', .assign _ _ he, h', hu => by
    cases h' with
    | assign _ _ he' =>
      obtain ⟨rfl, hue⟩ := Stmt.assign.inj hu
      rw [(he.determined he' hue).1]
    | _ => cases hu
  | .call token target, s', _, h', hu => by
    cases h' with
    | call => exact hu
    | _ => cases hu
  | .input token target, s', _, h', hu => by
    cases h' with
    | input => exact hu
    | _ => cases hu
  | .output token e, s', .output he, h', hu => by
    cases h' with
    | output he' =>
      obtain ⟨rfl, hue⟩ := Stmt.output.inj hu
      rw [(he.determined he' hue).1]
    | _ => cases hu
  | .begin token ss, s', .begin hss, h', hu => by
    cases h' with
    | begin hss' =>
      obtain ⟨rfl, huss⟩ := Stmt.begin.inj hu
      rw [Stmt.WellTyped.determinedList ss _ hss hss' huss]
    | _ => cases hu
  | .if token g b, s', .if hg hb, h', hu => by
    cases h' with
    | «if» hg' hb' =>
      obtain ⟨rfl, hug, hub⟩ := Stmt.if.inj hu
      rw [(hg.determined hg' hug).1, Stmt.WellTyped.determined b _ hb hb' hub]
    | _ => cases hu
  | .while token g b, s', .while hg hb, h', hu => by
    cases h' with
    | «while» hg' hb' =>
      obtain ⟨rfl, hug, hub⟩ := Stmt.while.inj hu
      rw [(hg.determined hg' hug).1, Stmt.WellTyped.determined b _ hb hb' hub]
    | _ => cases hu
  | .empty token, s', _, h', hu => by
    cases h' with
    | empty => exact hu
    | _ => cases hu

theorem Stmt.WellTyped.determinedList : (ss ss' : List Stmt) → (∀ s ∈ ss, s.WellTyped T Γ) →
    (∀ s ∈ ss', s.WellTyped T Γ) → Stmt.untypedList ss = Stmt.untypedList ss' → ss = ss'
  | [], [], _, _, _ => rfl
  | s :: ss, s' :: ss', h, h', hu => by
    rw [List.forall_mem_cons] at h h'
    obtain ⟨hus, huss⟩ := List.cons.inj hu
    rw [Stmt.WellTyped.determined s s' h.1 h'.1 hus,
      Stmt.WellTyped.determinedList ss ss' h.2 h'.2 huss]

end

theorem DeclHead.eq_of_untyped {head head' : DeclHead} (hu : head.untyped = head'.untyped)
    (hty : head.ty = head'.ty) : head = head' := by
  cases head
  cases head'
  simp_all [DeclHead.untyped]

/-- Declarations that the signature records have the same types if they have the same numbers. -/
theorem Signature.Records.ty_eq {d d' : Decl} (h : Γ.Records [d]) (h' : Γ.Records [d'])
    (hu : d.head.untyped = d'.head.untyped) : d.head = d'.head := by
  refine DeclHead.eq_of_untyped hu ?_
  obtain ⟨ty, hty, hsig⟩ := h d (Decl.mem_subtrees (List.mem_singleton_self d))
  obtain ⟨ty', hty', hsig'⟩ := h' d' (Decl.mem_subtrees (List.mem_singleton_self d'))
  have hid : d.head.untyped.id = d'.head.untyped.id := by rw [hu]
  rw [show d.head.id = d'.head.id from hid, hsig', Option.some.injEq, Prod.mk.injEq] at hsig
  rw [hty, hty', hsig.2]

mutual

theorem Decl.WellTyped.determined : (d d' : Decl) → d.WellTyped T Γ → d'.WellTyped T Γ →
    Γ.Records [d] → Γ.Records [d'] → d.untyped = d'.untyped → d = d'
  | .const head value, d', _, h', hr, hr', hu => by
    cases h' with
    | const =>
      obtain ⟨huh, rfl⟩ := Decl.const.inj hu
      exact congrArg (Decl.const · value) (hr.ty_eq hr' huh)
    | _ => cases hu
  | .var head, d', _, h', hr, hr', hu => by
    cases h' with
    | var => exact congrArg Decl.var (hr.ty_eq hr' (Decl.var.inj hu))
    | _ => cases hu
  | .procedure head ds s, d', .procedure _ hds hs, h', hr, hr', hu => by
    cases h' with
    | @procedure head' ds' s' _ hds' hs' =>
      obtain ⟨huh, huds, hus⟩ := Decl.procedure.inj hu
      have hhead : head = head' := hr.ty_eq hr' huh
      rw [hhead, Stmt.WellTyped.determined s s' hs hs' hus,
        Decl.WellTyped.determinedList ds ds' hds hds' hr.inside hr'.inside huds]
    | _ => cases hu

theorem Decl.WellTyped.determinedList : (ds ds' : List Decl) → (∀ d ∈ ds, d.WellTyped T Γ) →
    (∀ d ∈ ds', d.WellTyped T Γ) → Γ.Records ds → Γ.Records ds' →
    Decl.untypedList ds = Decl.untypedList ds' → ds = ds'
  | [], [], _, _, _, _, _ => rfl
  | d :: ds, d' :: ds', h, h', hr, hr', hu => by
    rw [List.forall_mem_cons] at h h'
    obtain ⟨hud, huds⟩ := List.cons.inj hu
    rw [Signature.records_cons] at hr hr'
    rw [Decl.WellTyped.determined d d' h.1 h'.1 hr.1 hr'.1 hud,
      Decl.WellTyped.determinedList ds ds' h.2 h'.2 hr.2 hr'.2 huds]

end

/-- **Typings that agree on declarations are equal.** -/
theorem Program.eq_of_signature {p q q' : Program} (hp : p.Numbered) (hq : IsTyping T p q)
    (hq' : IsTyping T p q') (h : q.signature = q'.signature) : q = q' := by
  have hrec := hq.wellTyped.records (hp.of_untyped hq.same)
  have hrec' := hq'.wellTyped.records (hp.of_untyped hq'.same)
  obtain ⟨hdecls, hstmt⟩ := hq.wellTyped
  rw [h] at hdecls hstmt hrec
  have hsame := hq.same.trans hq'.same.symm
  obtain ⟨hblock, htoken, hcount⟩ := Program.mk.inj hsame
  obtain ⟨huds, hus⟩ := Block.mk.inj hblock
  have hds := Decl.WellTyped.determinedList _ _ hdecls hq'.wellTyped.decls hrec hrec' huds
  have hs := Stmt.WellTyped.determined _ _ hstmt hq'.wellTyped.stmt hus
  obtain ⟨⟨ds, s⟩, token, count⟩ := q
  obtain ⟨⟨ds', s'⟩, token', count'⟩ := q'
  cases hds
  cases hs
  cases htoken
  cases hcount
  rfl

end Determined

end PLZero
