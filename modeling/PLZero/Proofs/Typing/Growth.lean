import PLZero.Proofs.Typing.Inference

/-!
# Types are never lost

Passes are made one after another, each with the engine and over the tree that the one before has
left, whether it has failed or not (`Engine.afterPasses`).  There are three lists of slots: those of
the engine, of the expressions and of the declarations.

* `Keeps` — every slot that holds a type holds it still; `Gains` — an empty slot has been filled.
* `Filling.changed_iff` — an engine is marked exactly if a slot has been filled.
* `Engine.declTypes_pass_of_fault`, `Engine.declTypes_pass` — what becomes of the declarations in a
  pass that fails, and in one that does not.
* `Engine.Covers.grows_pass`, `Engine.Covers.grows_afterPasses` — one pass, and any number of them.
* `Program.passes_monotone` — all this of any passes over a program from the parser and the
  resolver, whatever types it has been given before.
-/

namespace PLZero

/-! ## Lists of slots -/

/-- Every slot of `L` that holds a type holds it in `L'` too. -/
structure Keeps (L L' : List (Option Ty)) : Prop where
  length_eq : L'.length = L.length
  getElem? {i : Nat} {ty : Ty} : L[i]? = some (some ty) → L'[i]? = some (some ty)

/-- A slot that is empty in `L` holds a type in `L'`. -/
def Gains (L L' : List (Option Ty)) : Prop :=
  ∃ (i : Nat) (ty : Ty), L[i]? = some none ∧ L'[i]? = some (some ty)

namespace Keeps

variable {L L' L'' : List (Option Ty)} {i : Nat}

theorem refl (L : List (Option Ty)) : Keeps L L := ⟨rfl, id⟩

theorem trans (h : Keeps L L') (h' : Keeps L' L'') : Keeps L L'' :=
  ⟨h'.length_eq.trans h.length_eq, fun hi => h'.getElem? (h.getElem? hi)⟩

/-- What is empty now was empty before. -/
theorem empty_before (h : Keeps L L') (hi : L'[i]? = some none) : L[i]? = some none := by
  have hlt : i < L.length := by
    rw [← h.length_eq]
    exact (List.getElem?_eq_some_iff.mp hi).1
  have hget := List.getElem?_eq_getElem hlt
  cases hslot : L[i] with
  | none => rw [hget, hslot]
  | some ty =>
    rw [hslot] at hget
    rw [h.getElem? hget] at hi
    cases hi

/-- Filling an empty slot keeps all the others. -/
theorem set (h : Keeps L L') (hi : L'[i]? = some none) (ty : Ty) :
    Keeps L (L'.set i (some ty)) := by
  refine ⟨by rw [List.length_set, h.length_eq], fun {j t} hj => ?_⟩
  have hne : i ≠ j := by
    rintro rfl
    rw [h.getElem? hj] at hi
    cases hi
  rw [List.getElem?_set_ne hne, h.getElem? hj]

theorem gains_set (h : Keeps L L') (hi : L'[i]? = some none) (ty : Ty) :
    Gains L (L'.set i (some ty)) := by
  refine ⟨i, ty, h.empty_before hi, ?_⟩
  rw [List.getElem?_set_self (List.getElem?_eq_some_iff.mp hi).1]

end Keeps

theorem Gains.ne {L L' : List (Option Ty)} (h : Gains L L') : L' ≠ L := by
  rintro rfl
  obtain ⟨i, ty, hempty, hfull⟩ := h
  rw [hempty] at hfull
  cases hfull

/-! ## Fillings -/

/-- What the engine knows of each declaration, by its number. -/
def Engine.types (s : Engine) : List (Option Ty) := s.entries.toList.map EngineEntry.ty

namespace Engine

variable {s : Engine} {id : Nat} {entry : EngineEntry}

theorem typeOf_eq (s : Engine) (id : Nat) : s.typeOf id = s.types[id]?.join := by
  simp only [typeOf, types, List.getElem?_map, Array.getElem?_toList]
  cases s.entries[id]? <;> rfl

theorem types_fillDecl (s : Engine) (id : Nat) (entry : EngineEntry) (ty : Ty) :
    (s.fillDecl id entry ty).types = s.types.set id (some ty) := by
  simp only [types, fillDecl, mark, Array.toList_setIfInBounds, List.map_set]

theorem getElem?_types (hentry : s.entries[id]? = some entry) : s.types[id]? = some entry.ty := by
  simp [types, hentry]

end Engine

namespace Filling

variable {L L' : List (Option Ty)} {s s' : Engine}

/-- The slot that a filling has come to, as a change at its place in the list. -/
theorem set_append (A B : List (Option Ty)) (ty : Ty) :
    A ++ some ty :: B = (A ++ none :: B).set A.length (some ty) := by
  simp

theorem keeps (h : Filling L s L' s') : Keeps L L' ∧ Keeps s.types s'.types := by
  induction h with
  | refl => exact ⟨.refl L, .refl _⟩
  | @slot A B _ ty _ ih =>
    rw [set_append]
    exact ⟨ih.1.set (by simp) ty, ih.2⟩
  | decl ty _ hentry hty ih =>
    rw [Engine.types_fillDecl]
    exact ⟨ih.1, ih.2.set (by rw [Engine.getElem?_types hentry, hty]) ty⟩

/-- **The engine is marked exactly if a slot has been filled**, of a tree or of its own. -/
theorem changed_iff (h : Filling L s L' s') (hs : s.changed = false) :
    s'.changed = true ↔ Gains s.types s'.types ∨ Gains L L' := by
  constructor
  · intro hchanged
    cases h with
    | refl => simp [hs] at hchanged
    | @slot A B _ ty hrest =>
      rw [set_append]
      exact .inr (hrest.keeps.1.gains_set (by simp) ty)
    | decl ty hrest hentry hty =>
      rw [Engine.types_fillDecl]
      exact .inl (hrest.keeps.2.gains_set (by rw [Engine.getElem?_types hentry, hty]) ty)
  · intro hgains
    cases hchanged : s'.changed with
    | true => rfl
    | false =>
      obtain ⟨rfl, rfl⟩ := h.eq_of_quiet hchanged
      rcases hgains with hgains | hgains
      · exact absurd rfl hgains.ne
      · exact absurd rfl hgains.ne

end Filling

/-! ## Declarations -/

namespace Engine

/-- A visit changes no declaration. -/
theorem heads_inferBlock (strict : Bool) (s : Engine) (decls : List Decl) (stmt : Stmt)
    {bodies : Engine → Inferring (List Decl)}
    (hbodies : ∀ s, (Decl.subtrees (bodies s).tree).map Decl.head =
      (Decl.subtrees decls).map Decl.head) :
    (Decl.subtrees (s.inferBlock strict decls stmt bodies).tree.decls).map Decl.head =
      (Decl.subtrees decls).map Decl.head := by
  unfold inferBlock
  split
  · rfl
  · exact Walk.tree_andThen (Q := fun _ => True)
      (P := fun ds => (Decl.subtrees ds).map Decl.head = (Decl.subtrees decls).map Decl.head)
      (R := fun b : Block => (Decl.subtrees b.decls).map Decl.head = (Decl.subtrees decls).map Decl.head)
      (hbodies _) trivial (fun _ => trivial) fun _ _ hds _ => hds

end Engine

mutual

theorem Decl.heads_infer (strict : Bool) : (d : Decl) → (s : Engine) →
    (d.infer strict s).tree.subtree.map Decl.head = d.subtree.map Decl.head
  | .const .., _ => rfl
  | .var _, _ => rfl
  | .procedure head decls stmt, s => by
    have hblock := s.heads_inferBlock strict decls stmt (Decl.heads_inferList strict decls)
    simp only [Decl.infer, Walk.map, Decl.subtree, List.map_cons, Decl.head, hblock]

theorem Decl.heads_inferList (strict : Bool) : (ds : List Decl) → (s : Engine) →
    (Decl.subtrees (Decl.inferList strict ds s).tree).map Decl.head =
      (Decl.subtrees ds).map Decl.head
  | [], _ => rfl
  | d :: ds, s => by
    simp only [Decl.inferList]
    refine Walk.tree_andThen (P := fun d' => d'.subtree.map Decl.head = d.subtree.map Decl.head)
      (Q := fun ds' => (Decl.subtrees ds').map Decl.head = (Decl.subtrees ds).map Decl.head)
      (R := fun ds' => (Decl.subtrees ds').map Decl.head = (Decl.subtrees (d :: ds)).map Decl.head)
      (Decl.heads_infer strict d s) rfl (Decl.heads_inferList strict ds) fun d' ds' hd hds => ?_
    simp only [Decl.subtrees, List.map_append, hd, hds]

end

mutual

theorem Decl.heads_writeBack (s : Engine) : (d : Decl) →
    (d.writeBack s).subtree.map Decl.head =
      d.subtree.map fun x => { x.head with ty := s.typeOf x.head.id }
  | .const .. => rfl
  | .var _ => rfl
  | .procedure _ decls _ => by
    simp only [Decl.writeBack, Decl.subtree, List.map_cons, Decl.head,
      Decl.heads_writeBackList s decls]

theorem Decl.heads_writeBackList (s : Engine) : (ds : List Decl) →
    (Decl.subtrees (Decl.writeBackList s ds)).map Decl.head =
      (Decl.subtrees ds).map fun x => { x.head with ty := s.typeOf x.head.id }
  | [] => rfl
  | d :: ds => by
    simp only [Decl.writeBackList, Decl.subtrees, List.map_append, Decl.heads_writeBack s d,
      Decl.heads_writeBackList s ds]

end

/-- The type slots of the declarations, in source order. -/
def Program.declTypes (p : Program) : List (Option Ty) := p.declarations.map fun d => d.head.ty

/-- The type slots of the expressions, in order. -/
def Program.exprTypes (p : Program) : List (Option Ty) := p.expressions.map Expr.ty

namespace Engine

variable {s : Engine} {p : Program} {strict : Bool}

theorem heads_visit (strict : Bool) (s : Engine) (p : Program) :
    (Decl.subtrees (s.visit strict p).tree.decls).map Decl.head = p.declarations.map Decl.head :=
  s.unmark.heads_inferBlock strict _ _ (Decl.heads_inferList strict _)

/-- A pass that fails leaves the declarations as they were. -/
theorem declTypes_pass_of_fault (h : (s.pass strict p).fault ≠ none) :
    (s.pass strict p).tree.declTypes = p.declTypes := by
  have hheads := congrArg (List.map DeclHead.ty) (s.heads_visit strict p)
  rw [pass_eq] at h ⊢
  cases hf : (s.visit strict p).fault with
  | none =>
    rw [hf] at h
    exact absurd rfl h
  | some f =>
    rw [List.map_map, List.map_map] at hheads
    exact hheads

/-- A pass that succeeds gives each declaration the type that the engine has for it. -/
theorem declTypes_pass (h : (s.pass strict p).fault = none) :
    (s.pass strict p).tree.declTypes =
      p.declarations.map fun d => (s.pass strict p).state.typeOf d.head.id := by
  have hheads := s.heads_visit strict p
  rw [pass_eq] at h ⊢
  cases hf : (s.visit strict p).fault with
  | some f =>
    rw [hf] at h
    cases h
  | none =>
    have hids := congrArg
      (List.map fun head => (s.visit strict p).state.typeOf (DeclHead.id head)) hheads
    have hback := congrArg (List.map DeclHead.ty)
      (Decl.heads_writeBackList (s.visit strict p).state (s.visit strict p).tree.decls)
    simp only [List.map_map, Function.comp_def] at hids hback
    simp only [Program.declTypes, Program.declarations, Walk.done, written]
    exact hback.trans hids

/-- In a numbered program the engine has its types in the order of the declarations. -/
theorem types_eq_map (hp : p.Numbered) (hsize : s.types.length = p.declCount) :
    (p.declarations.map fun d => s.typeOf d.head.id) = s.types := by
  have hids := congrArg (List.map s.typeOf) hp
  rw [List.map_map] at hids
  refine hids.trans (List.ext_getElem (by simp [hsize]) fun i _ hi => ?_)
  rw [List.getElem_map, List.getElem_range, typeOf_eq, List.getElem?_eq_getElem hi]
  rfl

theorem length_types_pass (strict : Bool) (s : Engine) (p : Program) :
    (s.pass strict p).state.types.length = s.types.length :=
  (s.fills_pass strict p).filling.keeps.2.length_eq

end Engine

/-! ## Passes one after another -/

/-- The engine and the tree after passes that are strict or not as the flags say, each made with what
the one before it has left, whether that one has failed or not. -/
def Engine.afterPasses (s : Engine) (p : Program) : List Bool → Engine × Program
  | [] => (s, p)
  | strict :: flags => (s.pass strict p).state.afterPasses (s.pass strict p).tree flags

/-- It is still the same program, and no slot has lost its type. -/
structure Grows (a b : Engine × Program) : Prop where
  same : b.2.untyped = a.2.untyped
  entries : Keeps a.1.types b.1.types
  exprs : Keeps a.2.exprTypes b.2.exprTypes
  decls : Keeps a.2.declTypes b.2.declTypes

namespace Grows

variable {a b c : Engine × Program}

theorem refl (a : Engine × Program) : Grows a a := ⟨rfl, .refl _, .refl _, .refl _⟩

theorem trans (h : Grows a b) (h' : Grows b c) : Grows a c :=
  ⟨h'.same.trans h.same, h.entries.trans h'.entries, h.exprs.trans h'.exprs,
    h.decls.trans h'.decls⟩

end Grows

namespace Engine

variable {s : Engine} {p : Program} {strict : Bool}

/-- The engine knows every type that a declaration of the program carries. -/
structure Covers (s : Engine) (p : Program) : Prop where
  numbered : p.Numbered
  decls : Keeps p.declTypes s.types

namespace Covers

theorem size (h : s.Covers p) : s.types.length = p.declCount := by
  rw [h.decls.length_eq, Program.declTypes, List.length_map, h.numbered.length_eq]

theorem numbered_pass (h : s.Covers p) (strict : Bool) : (s.pass strict p).tree.Numbered :=
  h.numbered.of_untyped (s.fills_pass strict p).same

/-- After a pass that succeeds the declarations carry what the engine knows. -/
theorem declTypes_eq (h : s.Covers p) (hok : (s.pass strict p).fault = none) :
    (s.pass strict p).tree.declTypes = (s.pass strict p).state.types :=
  (declTypes_pass hok).trans
    (types_eq_map h.numbered ((length_types_pass strict s p).trans h.size))

theorem pass (h : s.Covers p) (strict : Bool) :
    (s.pass strict p).state.Covers (s.pass strict p).tree := by
  refine ⟨h.numbered_pass strict, ?_⟩
  cases hf : (s.pass strict p).fault with
  | none =>
    rw [h.declTypes_eq hf]
    exact .refl _
  | some f =>
    rw [declTypes_pass_of_fault (by simp [hf])]
    exact h.decls.trans (s.fills_pass strict p).filling.keeps.2

/-- One pass. -/
theorem grows_pass (h : s.Covers p) (strict : Bool) :
    Grows (s, p) ((s.pass strict p).state, (s.pass strict p).tree) := by
  obtain ⟨hexprs, hentries⟩ := (s.fills_pass strict p).filling.keeps
  refine ⟨(s.fills_pass strict p).same, hentries, hexprs, ?_⟩
  cases hf : (s.pass strict p).fault with
  | none =>
    rw [h.declTypes_eq hf]
    exact h.decls.trans hentries
  | some f =>
    rw [declTypes_pass_of_fault (by simp [hf])]
    exact .refl _

/-- Any number of passes. -/
theorem grows_afterPasses (flags : List Bool) (h : s.Covers p) :
    Grows (s, p) (s.afterPasses p flags) ∧
      (s.afterPasses p flags).1.Covers (s.afterPasses p flags).2 := by
  induction flags generalizing s p with
  | nil => exact ⟨.refl _, h⟩
  | cons strict flags ih =>
    obtain ⟨hgrows, hcovers⟩ := ih (h.pass strict)
    exact ⟨(h.grows_pass strict).trans hgrows, hcovers⟩

/-- The engine has an entry with the type of each declaration. -/
theorem exists_entry (h : s.Covers p) (heq : p.declTypes = s.types) {d : Decl}
    (hd : d ∈ p.declarations) :
    ∃ entry, s.entries[d.head.id]? = some entry ∧ entry.ty = d.head.ty := by
  have hslot : p.declTypes[d.head.id]? = some d.head.ty := by
    rw [Program.declTypes, List.getElem?_map, h.numbered.getElem?_of_mem hd, Option.map_some]
  rw [heq, types, List.getElem?_map, Array.getElem?_toList] at hslot
  exact Option.map_eq_some_iff.mp hslot

end Covers

theorem covers_ofProgram (hp : p.Numbered) : (ofProgram p).Covers p := by
  refine ⟨hp, ?_⟩
  have heq : (ofProgram p).types = p.declTypes := by
    apply List.ext_getElem?
    intro id
    simp only [types, Program.declTypes, List.getElem?_map, Array.getElem?_toList,
      ofProgram_entry hp, Option.map_map]
    rfl
  rw [heq]
  exact .refl _

end Engine

namespace Program

/-- **No pass loses a type.**  Over a program from the parser and the resolver, whatever types it has
been given before, let any passes be made, failing ones among them.  Passes made after that keep
every type that the engine, an expression or a declaration then has.  One that succeeds marks the
engine exactly if it has filled a slot of the engine or of an expression, and leaves on every
declaration the type that the engine has for it; one that fails leaves the declarations alone. -/
theorem passes_monotone (tokens : List Token) {p₀ p₁ p : Program} {s : Engine} {q : Program}
    (hparse : ofTokens tokens = .ok p₀) (hbound : p₀.resolve = .done p₁ ())
    (hstamped : p.untyped = p₁.untyped) (flags : List Bool)
    (hpasses : (Engine.ofProgram p).afterPasses p flags = (s, q)) :
    (∀ more, Grows (s, q) (s.afterPasses q more)) ∧
    ∀ strict w, s.pass strict q = w →
      (w.fault = none →
        (w.state.changed = true ↔
          Gains s.types w.state.types ∨ Gains q.exprTypes w.tree.exprTypes) ∧
        ∀ d ∈ w.tree.declarations,
          ∃ entry, w.state.entries[d.head.id]? = some entry ∧ entry.ty = d.head.ty) ∧
      (w.fault ≠ none → w.tree.declTypes = q.declTypes) := by
  have hnumbered := (fresh_of_resolve hparse hbound).numbered.of_untyped hstamped
  have hcovers := ((Engine.covers_ofProgram hnumbered).grows_afterPasses flags).2
  rw [hpasses] at hcovers
  refine ⟨fun more => (hcovers.grows_afterPasses more).1, ?_⟩
  rintro strict w rfl
  refine ⟨fun hok => ⟨?_, ?_⟩, Engine.declTypes_pass_of_fault⟩
  · exact (s.fills_pass strict q).filling.changed_iff rfl
  · exact fun d => (hcovers.pass strict).exists_entry (hcovers.declTypes_eq hok)

/-- The program with the type of its first declaration given. -/
def stampFirst (ty : Ty) (p : Program) : Program :=
  (p.modifyDecl 0 fun d => d.setHead { d.head with ty := some ty }).1

/-- In `var x, y; x := y; ! x - 1.` let `x` be a string.  The first pass finds that `y` is one too
before it fails at the subtraction: the engine and the use of `y` keep that, and the declaration of
`y` does not get it. -/
theorem subtraction_monotone :
    ∃ p₀ p₁ s q w, ofTokens subtraction = .ok p₀ ∧ p₀.resolve = .done p₁ () ∧
      (p₁.stampFirst .string).untyped = p₁.untyped ∧
      (Engine.ofProgram (p₁.stampFirst .string)).afterPasses (p₁.stampFirst .string) [false] =
        (s, q) ∧
      s.types = [some .string, some .string] ∧ q.exprTypes.head? = some (some .string) ∧
      q.declTypes = [some .string, none] ∧ s.pass false q = w ∧ w.fault ≠ none ∧
      w.tree.declTypes = q.declTypes ∧ Grows (s, q) (s.afterPasses q [true, false]) := by
  have hrun : ∃ p₀ p₁ s q w, ofTokens subtraction = .ok p₀ ∧ p₀.resolve = .done p₁ () ∧
      (p₁.stampFirst .string).untyped = p₁.untyped ∧
      (Engine.ofProgram (p₁.stampFirst .string)).afterPasses (p₁.stampFirst .string) [false] =
        (s, q) ∧
      s.types = [some .string, some .string] ∧ q.exprTypes.head? = some (some .string) ∧
      q.declTypes = [some .string, none] ∧ s.pass false q = w ∧ w.fault ≠ none :=
    ⟨_, _, _, _, _, rfl, rfl, rfl, rfl, rfl, rfl, rfl, rfl, nofun⟩
  obtain ⟨p₀, p₁, s, q, w, hparse, hbound, hsame, hpasses, htypes, hexpr, hdecls, hw, hfault⟩ :=
    hrun
  have h := passes_monotone subtraction hparse hbound hsame [false] hpasses
  exact ⟨p₀, p₁, s, q, w, hparse, hbound, hsame, hpasses, htypes, hexpr, hdecls, hw, hfault,
    (h.2 false w hw).2 hfault, h.1 [true, false]⟩

end Program

end PLZero
