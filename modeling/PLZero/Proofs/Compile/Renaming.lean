import Mathlib.Logic.Equiv.Basic
import PLZero.Compile
import PLZero.Proofs.Code.Renaming
import PLZero.Proofs.Scope.Renaming
import PLZero.Proofs.Typing.Matching

/-!
# Compiling renamed programs

What is compiled depends on the kinds of the tokens, in order, and on which identifiers are the same.
Places and texts have no part in it, and the spelling of names is seen in the names of routines only.

* `compileTokens` — all that comes after the scanner; `compile_eq` ties it to `compile`.
* `compileTokens_rename` — two token lists that are the same up to a renaming, compiled.
-/

namespace PLZero

/-! ## From tokens on -/

def compileTokens (tokens : List Token) (unitName : String) : Except CompileFault CodeUnit := do
  let (program, passes) := (← (Program.ofTokens tokens).mapError .parse).analyze
  let _ ← passes
  (program.generate unitName).mapError .code

theorem compile_eq (source unitName : String) :
    compile source unitName =
      (scan source).mapError .scan >>= fun tokens => compileTokens tokens unitName := by
  unfold compile Program.ofSource compileTokens
  rw [bind_assoc]

/-- The faults are of one class. -/
def CompileFault.Same (f f' : CompileFault) : Prop := f.diagnostic.SameVariant f'.diagnostic

theorem Agrees.mapError {ε ε' φ φ' α α' : Type} {F : ε → ε' → Prop} {G : φ → φ' → Prop}
    {R : α → α' → Prop} {x : Except ε α} {x' : Except ε' α'} {g : ε → φ} {g' : ε' → φ'}
    (h : Agrees F R x x') (hg : ∀ f f', F f f' → G (g f) (g' f')) :
    Agrees G R (x.mapError g) (x'.mapError g') := by
  cases h with
  | ok ha => exact .ok ha
  | error hfault => exact .error (hg _ _ hfault)

section Stages

variable {r : String → String → Prop}

theorem Program.agrees_analyze (hr : Relator.BiUnique r) {p p' : Program} (h : p.Renames r p') :
    Agrees CompileFault.Same (fun _ _ => p.analyze.1.Renames r p'.analyze.1)
      p.analyze.2 p'.analyze.2 := by
  have hbound := agree_resolve hr h
  unfold analyze
  generalize p.resolve = w at hbound
  generalize p'.resolve = w' at hbound
  cases hbound with
  | stop hfault => exact .error hfault
  | @done q q' _ _ hq _ =>
    have htyped := agrees_inferTypes hq
    dsimp only [Walk.done]
    generalize q.inferTypes.2 = passes at htyped
    generalize q'.inferTypes.2 = passes' at htyped
    cases htyped with
    | ok hsame => exact .ok hsame.2
    | error hfault => exact .error hfault

/-- The stages one after the other. -/
theorem agrees_compileTokens (hr : Relator.BiUnique r) {ts us : List Token}
    (h : List.Forall₂ (Token.Renames r) ts us) (unitName : String) :
    Agrees CompileFault.Same (CodeUnit.Renames r) (compileTokens ts unitName)
      (compileTokens us unitName) := by
  have hparse : Agrees CompileFault.Same (Program.Renames r)
      ((Program.ofTokens ts).mapError .parse) ((Program.ofTokens us).mapError .parse) :=
    (Program.agrees_ofTokens hr h).mapError fun _ _ hfault => hfault
  refine hparse.bind fun p p' hp => (Program.agrees_analyze hr hp).bind fun _ _ htyped => ?_
  exact (Program.agrees_generate htyped unitName).mapError fun _ _ hfault => hfault

end Stages

/-! ## Renaming by a function -/

/-- The kind with the name of an identifier changed. -/
def TokenKind.rename (r : String → String) : TokenKind → TokenKind
  | ident name => ident (r name)
  | kind => kind

/-- The first is the name of an identifier of the list, and the second is that name renamed. -/
def RenamedBy (r : String → String) (ts : List Token) (name name' : String) : Prop :=
  (∃ t ∈ ts, t.kind = .ident name) ∧ name' = r name

theorem biUnique_renamedBy {r : String → String} (hr : Function.Injective r) (ts : List Token) :
    Relator.BiUnique (RenamedBy r ts) := by
  constructor
  · rintro a b _ ⟨-, rfl⟩ ⟨-, heq⟩
    exact hr heq
  · rintro a _ _ ⟨-, rfl⟩ ⟨-, rfl⟩
    rfl

theorem renames_of_rename {r : String → String} {ts us : List Token}
    (h : us.map Token.kind = ts.map fun t => t.kind.rename r) :
    List.Forall₂ (Token.Renames (RenamedBy r ts)) ts us := by
  have hkinds : List.Forall₂ Eq (ts.map fun t => t.kind.rename r) (us.map Token.kind) := by
    rw [h, List.forall₂_eq_eq_eq]
  rw [List.forall₂_map_left_iff, List.forall₂_map_right_iff] at hkinds
  -- that a token stands in the list is carried along, for the parts of names of routines
  have hmem : ∀ t ∈ ts, t ∈ ts := fun _ => id
  refine ((List.forall₂_and_left ts us).mpr ⟨hmem, hkinds⟩).imp fun t u htu => ?_
  obtain ⟨ht, hkind⟩ := htu
  unfold Token.Renames
  rw [← hkind]
  cases hk : t.kind with
  | ident name => exact .ident ⟨⟨t, ht, hk⟩, rfl⟩
  | _ => exact .other (by simp)

/-- **Places, texts and spelling do not matter.**  Two token lists with the same kinds, up to a
renaming under which no two identifiers become one, are compiled to units with the same routines, whose
names are renamed part by part; or both have faults of one class. -/
theorem compileTokens_rename {r : String → String} (hr : Function.Injective r) {ts us : List Token}
    (h : us.map Token.kind = ts.map fun t => t.kind.rename r) (unitName : String) :
    Agrees CompileFault.Same (CodeUnit.Renames (RenamedBy r ts)) (compileTokens ts unitName)
      (compileTokens us unitName) :=
  agrees_compileTokens (biUnique_renamedBy hr ts) (renames_of_rename h) unitName

/-- Two procedures, one inside the other, that change their names, in a text laid out otherwise. -/
theorem compileTokens_rename_nested :
    ∃ ts us, scan "procedure p; var x; procedure q; ! x; begin x := 1; call q end; call p." = .ok ts ∧
      scan "procedure q;var x;procedure p;// inner\n!x;begin\nx:=1;call p end;\ncall q." = .ok us ∧
      (us.map Token.kind = ts.map fun t => t.kind.rename (Equiv.swap "p" "q")) ∧
      (compileTokens ts "Demo").toOption.map (fun u => u.routines.map Routine.name) =
        some ["main", "p", "p.q"] ∧
      (compileTokens us "Demo").toOption.map (fun u => u.routines.map Routine.name) =
        some ["main", "q", "q.p"] ∧
      Agrees CompileFault.Same (CodeUnit.Renames (RenamedBy (Equiv.swap "p" "q") ts))
        (compileTokens ts "Demo") (compileTokens us "Demo") := by
  have hcheck : (match scan
        "procedure p; var x; procedure q; ! x; begin x := 1; call q end; call p.", scan
        "procedure q;var x;procedure p;// inner\n!x;begin\nx:=1;call p end;\ncall q." with
      | .ok ts, .ok us =>
        decide ((us.map Token.kind = ts.map fun t => t.kind.rename (Equiv.swap "p" "q")) ∧
          (compileTokens ts "Demo").toOption.map (fun u => u.routines.map Routine.name) =
            some ["main", "p", "p.q"] ∧
          (compileTokens us "Demo").toOption.map (fun u => u.routines.map Routine.name) =
            some ["main", "q", "q.p"])
      | _, _ => false) = true := by decide +kernel
  cases hts : scan "procedure p; var x; procedure q; ! x; begin x := 1; call q end; call p." with
  | error f =>
    rw [hts] at hcheck
    cases hcheck
  | ok ts =>
    cases hus : scan
        "procedure q;var x;procedure p;// inner\n!x;begin\nx:=1;call p end;\ncall q." with
    | error f =>
      rw [hts, hus] at hcheck
      cases hcheck
    | ok us =>
      rw [hts, hus] at hcheck
      obtain ⟨hkinds, hnames, hnames'⟩ := of_decide_eq_true hcheck
      exact ⟨ts, us, rfl, rfl, hkinds, hnames, hnames',
        compileTokens_rename (Equiv.swap "p" "q").injective hkinds "Demo"⟩

end PLZero
