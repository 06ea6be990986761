import PLZero.Proofs.Tree.Declarations
import PLZero.Proofs.Typing.Rules

/-!
# The signature of a numbered program

In a numbered program the declaration with number `n` is the `n`-th one, so the signature can be
read off the list of declarations, and it has every declaration of a well-typed program.  Emptying
the type slots of a program changes neither the numbers nor the kinds of its declarations.
-/

namespace PLZero

/-! ## Declarations without their types -/

namespace Decl

@[simp] theorem id_untyped (d : Decl) : d.untyped.head.id = d.head.id := by
  cases d <;> rfl

@[simp] theorem kind_untyped (d : Decl) : d.untyped.kind = d.kind := by
  cases d <;> rfl

mutual

theorem subtree_untyped : (d : Decl) → d.untyped.subtree = d.subtree.map untyped
  | .const head value => rfl
  | .var head => rfl
  | .procedure head decls stmt => by simp [subtree, untyped, subtrees_untyped decls]

theorem subtrees_untyped : (ds : List Decl) → subtrees (untypedList ds) = (subtrees ds).map untyped
  | [] => rfl
  | d :: ds => by simp [subtrees, untypedList, subtree_untyped d, subtrees_untyped ds]

end

mutual

theorem WellTyped.subtree {T : OpTable} {Γ : Signature} :
    (d : Decl) → d.WellTyped T Γ → ∀ x ∈ d.subtree, x.WellTyped T Γ
  | .const head value, h, x, hx => by
    rw [List.mem_singleton.mp hx]
    exact h
  | .var head, h, x, hx => by
    rw [List.mem_singleton.mp hx]
    exact h
  | .procedure head decls stmt, h, x, hx => by
    rw [Decl.subtree, List.mem_cons] at hx
    rcases hx with rfl | hx
    · exact h
    · cases h with
      | procedure _ hdecls _ => exact WellTyped.subtrees decls hdecls x hx

theorem WellTyped.subtrees {T : OpTable} {Γ : Signature} :
    (ds : List Decl) → (∀ d ∈ ds, d.WellTyped T Γ) → ∀ x ∈ Decl.subtrees ds, x.WellTyped T Γ
  | [], _, x, hx => by simp [Decl.subtrees] at hx
  | d :: ds, h, x, hx => by
    rw [List.forall_mem_cons] at h
    rw [Decl.subtrees, List.mem_append] at hx
    rcases hx with hx | hx
    · exact WellTyped.subtree d h.1 x hx
    · exact WellTyped.subtrees ds h.2 x hx

end

theorem WellTyped.exists_ty {T : OpTable} {Γ : Signature} {d : Decl} (h : d.WellTyped T Γ) :
    ∃ ty, d.head.ty = some ty := by
  cases h with
  | const hty => exact ⟨_, hty⟩
  | var hty _ => exact ⟨_, hty⟩
  | procedure hty _ _ => exact ⟨_, hty⟩

end Decl

/-- The signature has the declarations and those inside them as they are. -/
def Signature.Records (Γ : Signature) (ds : List Decl) : Prop :=
  ∀ d ∈ Decl.subtrees ds, ∃ ty, d.head.ty = some ty ∧ Γ d.head.id = some (d.kind, ty)

theorem Signature.records_cons {Γ : Signature} {d : Decl} {ds : List Decl} :
    Γ.Records (d :: ds) ↔ Γ.Records [d] ∧ Γ.Records ds := by
  simp only [Records, Decl.subtrees, List.append_nil, List.forall_mem_append]

theorem Signature.Records.inside {Γ : Signature} {head : DeclHead} {ds : List Decl} {stmt : Stmt}
    (h : Γ.Records [.procedure head ds stmt]) : Γ.Records ds := by
  intro d hd
  exact h d (by simp [Decl.subtrees, Decl.subtree, hd])

namespace Program

variable {T : OpTable} {p q : Program}

theorem declarations_untyped (p : Program) :
    p.untyped.declarations = p.declarations.map Decl.untyped :=
  Decl.subtrees_untyped p.block.decls

theorem kinds_eq_of_untyped (h : q.untyped = p.untyped) :
    q.declarations.map Decl.kind = p.declarations.map Decl.kind := by
  have hd := congrArg (fun p => p.declarations.map Decl.kind) h
  simpa [declarations_untyped, Function.comp_def] using hd

theorem Numbered.of_untyped (hp : p.Numbered) (h : q.untyped = p.untyped) : q.Numbered := by
  have hids := congrArg (fun p => p.declarations.map fun d => d.head.id) h
  have hcount : q.untyped.declCount = p.untyped.declCount := by rw [h]
  simp only [declarations_untyped, List.map_map, Function.comp_def, Decl.id_untyped] at hids
  rw [Numbered, hids, hp]
  exact congrArg List.range hcount.symm

/-- The declarations are numbered, and all type slots are empty. -/
structure Fresh (p : Program) : Prop where
  numbered : p.Numbered
  untyped : p.untyped = p

/-! ## Signatures -/

theorem Numbered.signature_eq (hp : p.Numbered) (id : Nat) :
    p.signature id = p.declarations[id]?.bind fun d => d.head.ty.map (d.kind, ·) := by
  unfold signature
  congr 1
  cases hd : p.declarations[id]? with
  | none =>
    rw [List.find?_eq_none]
    intro d hmem hid
    have := hp.getElem?_of_mem hmem
    simp only [beq_iff_eq] at hid
    rw [hid, hd] at this
    cases this
  | some d =>
    have hid := hp.getElem?_id hd
    cases hfind : p.declarations.find? fun d => d.head.id == id with
    | none =>
      rw [List.find?_eq_none] at hfind
      exact absurd (by simpa using hid) (hfind d (List.mem_of_getElem? hd))
    | some d' =>
      have hid' : d'.head.id = id := by simpa using List.find?_some hfind
      have hd' := hp.getElem?_of_mem (List.mem_of_find?_eq_some hfind)
      rw [hid', hd] at hd'
      exact hd'.symm

theorem WellTyped.declarations (h : p.WellTyped T) :
    ∀ d ∈ p.declarations, d.WellTyped T p.signature :=
  Decl.WellTyped.subtrees p.block.decls h.decls

theorem WellTyped.records (h : p.WellTyped T) (hp : p.Numbered) :
    p.signature.Records p.block.decls := by
  intro d hd
  obtain ⟨ty, hty⟩ := (h.declarations d hd).exists_ty
  refine ⟨ty, hty, ?_⟩
  rw [hp.signature_eq, hp.getElem?_of_mem hd]
  simp [hty]

end Program

end PLZero
