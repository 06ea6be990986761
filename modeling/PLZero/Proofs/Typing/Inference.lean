import Mathlib.Logic.Equiv.Basic
import PLZero.Proofs.Typing.Fresh
import PLZero.Proofs.Typing.Principal
import PLZero.Proofs.Typing.Reordering

/-!
# What inference finds

The results on programs as they come from the parser and the resolver.

* `Program.inferTypes_only_typing` — where inference succeeds, the types it leaves on the tree are a
  typing, and there is no other.
* `Program.inferTypes_succeeds_iff` — a pass fails exactly if there is no typing; inference succeeds
  exactly if there is one and the weaker rules of the loose table have only one; and the order of
  statements and declarations has no part in it.
-/

namespace PLZero

namespace Program

variable {p p' : Program} {ρ : Equiv.Perm Nat}

theorem fresh_of_resolve {tokens : List Token} {p₀ : Program} (hparse : ofTokens tokens = .ok p₀)
    (hbound : p₀.resolve = .done p ()) :
    p.Fresh := by
  have h := fresh_resolve (fresh_ofTokens hparse)
  rwa [hbound] at h

/-! ## Soundness -/

/-- **Inference that succeeds leaves a typing on the tree, and the program has no other.** -/
theorem inferTypes_only_typing (tokens : List Token) {p₀ p q : Program} {n : Nat}
    (hparse : ofTokens tokens = .ok p₀) (hbound : p₀.resolve = .done p ())
    (hinfer : p.inferTypes = (q, .ok n)) :
    IsTyping Op.resultTy? p q ∧ ∀ q', IsTyping Op.resultTy? p q' → q' = q := by
  have hfresh := fresh_of_resolve hparse hbound
  obtain ⟨htyping, honly⟩ := isTyping_inferTypes hfresh (congrArg Prod.snd hinfer)
  rw [hinfer] at htyping honly
  exact ⟨htyping, fun q' hq' => honly OpTable.regular_resultTy hq'⟩

/-- `var x, y; x := y; ! x - 1.` — the type of `y` is known only in the second pass. -/
def subtraction : List Token :=
  [.keyword .var, .ident "x", .mark .comma, .ident "y", .mark .semicolon,
    .ident "x", .mark .assign, .ident "y", .mark .semicolon,
    .mark .bang, .ident "x", .op (.arith .sub), .literal (.int 1), .mark .dot, .eof].map
    (⟨·, .start, ""⟩)

theorem subtraction_only_typing :
    ∃ p₀ p q, ofTokens subtraction = .ok p₀ ∧ p₀.resolve = .done p () ∧ p.inferTypes = (q, .ok 3) ∧
      q.signature 1 = some (.var, .number) ∧ IsTyping Op.resultTy? p q ∧
      ∀ q', IsTyping Op.resultTy? p q' → q' = q :=
  ⟨_, _, _, rfl, rfl, rfl, rfl, inferTypes_only_typing subtraction rfl rfl rfl⟩

/-! ## Completeness -/

theorem inferTypes_ok_iff (hp : p.Fresh) :
    (∃ n, p.inferTypes.2 = .ok n) ↔
      (∃ q, IsTyping Op.resultTy? p q) ∧ ∃! q, IsTyping Op.looseTy? p q := by
  constructor
  · rintro ⟨n, hn⟩
    obtain ⟨htyping, honly⟩ := isTyping_inferTypes hp hn
    refine ⟨⟨_, htyping⟩, _, htyping.mono OpTable.regular_looseTy.agrees, fun q hq => ?_⟩
    exact honly OpTable.regular_looseTy hq
  · rintro ⟨htyping, q, -, honly⟩
    exact inferTypes_ok_of_unique hp htyping fun q₁ q₂ h₁ h₂ =>
      (honly q₁ h₁).trans (honly q₂ h₂).symm

theorem inferTypes_ok_of_reordered (h : p.Reordered ρ p') (hp : p.Fresh) (hp' : p'.Fresh)
    (hok : ∃ n, p.inferTypes.2 = .ok n) : ∃ n, p'.inferTypes.2 = .ok n := by
  obtain ⟨⟨q, hq⟩, r, hr, honly⟩ := (inferTypes_ok_iff hp).mp hok
  obtain ⟨q', hq', -⟩ := exists_isTyping_reordered h hp hp' hq
  refine inferTypes_ok_of_unique hp' ⟨q', hq'⟩ fun r₁ r₂ h₁ h₂ => ?_
  -- Both typings go back to the only one of `p`, and that fixes their declarations.
  obtain ⟨s₁, hs₁, hr₁⟩ := exists_isTyping_reordered h.symm hp' hp h₁
  obtain ⟨s₂, hs₂, hr₂⟩ := exists_isTyping_reordered h.symm hp' hp h₂
  obtain rfl : s₁ = s₂ := (honly s₁ hs₁).trans (honly s₂ hs₂).symm
  refine eq_of_signature hp'.numbered h₁ h₂ ?_
  have hs := hp.numbered.of_untyped hs₁.same
  rw [hr₁.symm.signature_eq hs (hp'.numbered.of_untyped h₁.same),
    hr₂.symm.signature_eq hs (hp'.numbered.of_untyped h₂.same)]

theorem reordered_inferTypes {n : Nat} (h : p.Reordered ρ p') (hp : p.Fresh) (hp' : p'.Fresh)
    (hok : p.inferTypes.2 = .ok n) : p.inferTypes.1.Reordered ρ p'.inferTypes.1 := by
  obtain ⟨n', hok'⟩ := inferTypes_ok_of_reordered h hp hp' ⟨n, hok⟩
  obtain ⟨q', hq', hr⟩ := exists_isTyping_reordered h hp hp' (isTyping_inferTypes hp hok).1
  rwa [(isTyping_inferTypes hp' hok').2 OpTable.regular_resultTy hq'] at hr

/-- **When inference succeeds**, and that it does so, and with the same types, in whatever order the
statements and declarations stand. -/
theorem inferTypes_succeeds_iff (tokens : List Token) {p₀ p : Program}
    (hparse : ofTokens tokens = .ok p₀) (hbound : p₀.resolve = .done p ()) :
    (p.passes.fault ≠ none ↔ ¬∃ q, IsTyping Op.resultTy? p q) ∧
    ((∃ n, p.inferTypes.2 = .ok n) ↔
      (∃ q, IsTyping Op.resultTy? p q) ∧ ∃! q, IsTyping Op.looseTy? p q) ∧
    ∀ (tokens' : List Token) (p₀' p' : Program) (ρ : Equiv.Perm Nat), ofTokens tokens' = .ok p₀' →
      p₀'.resolve = .done p' () → p.Reordered ρ p' →
      ((∃ n, p.inferTypes.2 = .ok n) ↔ ∃ n, p'.inferTypes.2 = .ok n) ∧
      ∀ n, p.inferTypes.2 = .ok n → p.inferTypes.1.Reordered ρ p'.inferTypes.1 := by
  have hp := fresh_of_resolve hparse hbound
  refine ⟨not_congr (passes_fault_iff hp), inferTypes_ok_iff hp, ?_⟩
  intro tokens' p₀' p' ρ hparse' hbound' h
  have hp' := fresh_of_resolve hparse' hbound'
  refine ⟨⟨inferTypes_ok_of_reordered h hp hp', inferTypes_ok_of_reordered h.symm hp' hp⟩, ?_⟩
  exact fun n hok => reordered_inferTypes h hp hp' hok

/-- `var y, x; ! x - 1; x := y.` — the declarations and the statements of `subtraction` turned
round. -/
def subtractionTurned : List Token :=
  [.keyword .var, .ident "y", .mark .comma, .ident "x", .mark .semicolon,
    .mark .bang, .ident "x", .op (.arith .sub), .literal (.int 1), .mark .semicolon,
    .ident "x", .mark .assign, .ident "y", .mark .dot, .eof].map (⟨·, .start, ""⟩)

theorem subtraction_succeeds :
    ∃ p₀ p p₀' p', ofTokens subtraction = .ok p₀ ∧ p₀.resolve = .done p () ∧
      ofTokens subtractionTurned = .ok p₀' ∧ p₀'.resolve = .done p' () ∧
      p.Reordered (Equiv.swap 0 1) p' ∧ (∃! q, IsTyping Op.looseTy? p q) ∧
      p.inferTypes.1.Reordered (Equiv.swap 0 1) p'.inferTypes.1 := by
  have hpair : ∃ p₀ p p₀' p', ofTokens subtraction = .ok p₀ ∧ p₀.resolve = .done p () ∧
      ofTokens subtractionTurned = .ok p₀' ∧ p₀'.resolve = .done p' () ∧
      p.Reordered (Equiv.swap 0 1) p' ∧ ∃ n, p.inferTypes.2 = .ok n := by
    refine ⟨_, _, _, _, rfl, rfl, rfl, rfl, ⟨?_, .begin ?_⟩, _, rfl⟩
    · exact .cons (A := [_]) (B := []) (.var ⟨by decide, rfl⟩)
        (.cons (A := []) (B := []) (.var ⟨by decide, rfl⟩) .nil)
    · exact .cons (A := [_]) (B := []) (.assign (by decide) (.use (by decide)))
        (.cons (A := []) (B := []) (.output (.binary (.use (by decide)) .literal)) .nil)
  obtain ⟨p₀, p, p₀', p', hparse, hbound, hparse', hbound', hr, n, hn⟩ := hpair
  have h := inferTypes_succeeds_iff subtraction hparse hbound
  exact ⟨p₀, p, p₀', p', hparse, hbound, hparse', hbound', hr, (h.2.1.mp ⟨n, hn⟩).2,
    (h.2.2 _ _ _ _ hparse' hbound' hr).2 n hn⟩

end Program

end PLZero
