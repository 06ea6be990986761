import PLZero.Proofs.Code.Totality
import PLZero.Proofs.Compile.Correctness
import PLZero.Proofs.Scope.Undefined
import PLZero.Proofs.Tree.Parsing
import PLZero.Proofs.Typing.Faults

/-!
# What compilation can refuse

Under a valid unit name a text is compiled, or something in the text is refused: every fault is of a
class that says what is wrong with a program, and lies at a place of the text.

* `CompileFault.InText` — the faults that a text can have.
* `Program.ofSource_spec`, `Program.analyze_spec` — what the stages give, or where they stop.
* `compile_total` — the result.

The tokens of a text lie in it, every tree that is made holds only such tokens, and every stage
refuses a token that it has found in the tree.  Making code refuses nothing.
-/

namespace PLZero

/-- The classes of diagnostics that say what is wrong with a source text. -/
def Diagnostic.IsSourceFault : Diagnostic → Prop
  | .lexical .. | .unknownToken .. | .unterminatedString .. | .multilineString ..
  | .invalidNumber .. | .unexpected .. | .duplicateSymbol .. | .undefinedSymbol ..
  | .typeMismatch .. | .type .. => True
  | _ => False

/-- The fault is one of the text.  A name that is declared twice is found by the parser, one that is
not declared by resolution, and no other stage reports either. -/
structure CompileFault.InText (text : List Char) (f : CompileFault) : Prop where
  isSourceFault : f.diagnostic.IsSourceFault
  duplicate : ∀ name place, f.diagnostic = .duplicateSymbol name place → ∃ g, f = .parse g
  undefined : ∀ name place, f.diagnostic = .undefinedSymbol name place → ∃ g, f = .scope g
  place : ∃ place, f.diagnostic.place? = some place ∧ place.In text

section Faults

variable {text : List Char}

theorem ScanFault.In.inText {f : ScanFault} (h : f.In text) :
    (CompileFault.scan f).InText text := by
  refine ⟨?_, fun name place heq => ?_, fun name place heq => ?_, h⟩
  · cases f <;> trivial
  · cases f <;> cases heq
  · cases f <;> cases heq

theorem ParseFault.In.inText {f : ParseFault} (h : f.In (Token.In text)) :
    (CompileFault.parse f).InText text := by
  cases f with
  | endOfTokens => exact h.elim
  | unexpected expected found =>
    exact ⟨trivial, fun _ _ _ => ⟨_, rfl⟩, fun _ _ heq => (nomatch heq), found.place, rfl, h⟩
  | duplicate token =>
    exact ⟨trivial, fun _ _ _ => ⟨_, rfl⟩, fun _ _ heq => (nomatch heq), token.place, rfl, h⟩

theorem ScopeFault.In.inText {f : ScopeFault} (h : f.In (Token.In text)) :
    (CompileFault.scope f).InText text := by
  cases f with
  | undefined token =>
    exact ⟨trivial, fun _ _ heq => (nomatch heq), fun _ _ _ => ⟨_, rfl⟩, token.place, rfl, h⟩
  | dropsProgramScope | noOpenScope | notInnermost | duplicate => exact h.elim

theorem TypeFault.In.inText {f : TypeFault} (h : f.In (Token.In text)) :
    (CompileFault.type f).InText text := by
  have hplace : ∃ place, f.diagnostic.place? = some place ∧ place.In text := by
    cases f with
    | unbound => exact h.elim
    | mismatch | operands | inapplicable | outputOf | unknownExpr =>
      obtain ⟨t, ht, rfl⟩ := h
      exact ⟨_, rfl, ht⟩
    | badTarget | procedureAsValue | unknownVariable | unknownInput => exact ⟨_, rfl, h⟩
  refine ⟨?_, fun name place heq => ?_, fun name place heq => ?_, hplace⟩
  · cases f <;> trivial
  · cases f <;> cases heq
  · cases f with
    | unbound => exact h.elim
    | _ => cases heq

end Faults

/-! ## The stages -/

namespace Program

theorem ofSource_spec (source : String) :
    Meets (ofSource source)
      (fun p => p.From (Token.In source.toList) ∧ p.Distinct ∧ p.Fresh)
      (CompileFault.InText source.toList) := by
  have hscan := scan_spec source
  unfold ofSource
  cases htokens : scan source with
  | error f => exact (hscan.of_error htokens).inText
  | ok tokens =>
    have hparse := ofTokens_spec (hscan.of_ok htokens)
    change Meets ((ofTokens tokens).mapError CompileFault.parse) _ _
    cases hp : ofTokens tokens with
    | error f => exact (hparse.of_error hp).inText
    | ok p => exact ⟨(hparse.of_ok hp).1, (hparse.of_ok hp).2, fresh_ofTokens hp⟩

theorem analyze_spec {text : List Char} {p : Program} (h : p.From (Token.In text))
    (hdistinct : p.Distinct) (hfresh : p.Fresh) :
    Meets p.analyze.2 (fun _ => True) (CompileFault.InText text) := by
  have hresolve := binds_resolve h hdistinct
  unfold analyze
  cases hfault : p.resolve.fault with
  | some fault =>
    simp only [hfault]
    exact (hresolve.fault fault hfault).inText
  | none =>
    simp only [hfault]
    have hdone : p.resolve = .done p.resolve.tree () := by rw [Walk.done, ← hfault]
    have hready : p.resolve.tree.Ready (Token.In text) :=
      ⟨hresolve.tree, bound_resolve hdone, (fresh_resolve hfresh).numbered⟩
    cases htypes : p.resolve.tree.inferTypes.2 with
    | ok n => trivial
    | error fault => exact (inferTypes_fault hready htypes).inText

end Program

/-- **Compilation succeeds, or refuses something in the text.** -/
theorem compile_total (source unitName : String) (hname : UnitName.isValid unitName = true) :
    (∃ u, compile source unitName = .ok u) ∨
      ∃ f, compile source unitName = .error f ∧ f.InText source.toList := by
  have hsource := Program.ofSource_spec source
  unfold compile
  cases hp : Program.ofSource source with
  | error f => exact .inr ⟨f, rfl, hsource.of_error hp⟩
  | ok p =>
    obtain ⟨hfrom, hdistinct, hfresh⟩ := hsource.of_ok hp
    have hanalyze := Program.analyze_spec hfrom hdistinct hfresh
    cases hn : p.analyze.2 with
    | error f =>
      refine .inr ⟨f, ?_, hanalyze.of_error hn⟩
      simp only [bind, Except.bind, hn]
    | ok n =>
      obtain ⟨hbound, htyped, hnumbered⟩ := Program.analyzed_of_analyze hp hn
      obtain ⟨u, hu⟩ := Program.exists_generate hbound htyped hnumbered hname
      refine .inl ⟨u, ?_⟩
      simp only [bind, Except.bind, hn, hu, Except.mapError]

/-- A use without a declaration, on the second line. -/
theorem compile_total_undeclared :
    UnitName.isValid "main" = true ∧
      ∃ f, compile "var n;\nn := m + 1." "main" = .error f ∧
        f.diagnostic = .undefinedSymbol "m" ⟨2, 6⟩ ∧ f.InText "var n;\nn := m + 1.".toList := by
  have hcheck : (match compile "var n;\nn := m + 1." "main" with
      | .error f => decide (f.diagnostic = .undefinedSymbol "m" ⟨2, 6⟩)
      | .ok _ => false) = true := by decide +kernel
  refine ⟨by decide, ?_⟩
  obtain ⟨u, hu⟩ | ⟨f, hf, htext⟩ := compile_total "var n;\nn := m + 1." "main" (by decide)
  · rw [hu] at hcheck
    cases hcheck
  · rw [hf] at hcheck
    exact ⟨f, hf, of_decide_eq_true hcheck, htext⟩

end PLZero
