import PLZero.Proofs.Token.Lexemes
import PLZero.Proofs.Tree.Viability

/-!
# Where syntax errors are reported

A syntax error is reported at the first token that no sentence has there: the tokens before it begin
some sentence, and those up to it begin none (`Program.unexpected_at_first`).

The tokens of a text stand at different places (`Lexes.pairwise`), so the place of a report belongs
to one token.
-/

namespace PLZero

namespace Program

theorem program_of_ofTokens_error {tokens : List Token} {f : ParseFault}
    (h : ofTokens tokens = .error f) :
    Parser.program (tokens.length + 1) tokens = .error f := by
  rw [ofTokens_eq, StateT.run'] at h
  cases hrun : Parser.program (tokens.length + 1) tokens with
  | ok r =>
    rw [hrun] at h
    cases h
  | error f' =>
    rw [hrun] at h
    cases h
    rfl

/-- **A syntax error is at the first token that does not fit.**  Where the parser reports a token of
a text, it is the only token at the place of the report; the tokens before it are the beginning of a
sentence, if names may be declared twice; and no sentence begins with the tokens up to it. -/
theorem unexpected_at_first {source : String} {tokens : List Token} {f : ParseFault}
    {expected found : String} {place : Place} (hscan : scan source = .ok tokens)
    (hparse : ofTokens tokens = .error f) (hf : f.diagnostic = .unexpected expected found place) :
    ∃ k t, tokens[k]? = some t ∧ t.place = place ∧ t.kind.describe = found ∧
      (∀ j u, tokens[j]? = some u → u.place = place → j = k) ∧
      (∃ rest, Grammar.IsSentence (tokens.take k ++ rest)) ∧
      ∀ rest, ¬Grammar.IsSentence (tokens.take (k + 1) ++ rest) := by
  have hrun := program_of_ofTokens_error hparse
  cases f with
  | endOfTokens => cases hf
  | duplicate t => cases hf
  | unexpected e t =>
    cases hf
    obtain ⟨used, tail, more, htokens, hsentence⟩ :=
      (Parser.viable_program _).unexpected trivial hrun
    have hk : tokens[used.length]? = some t := by simp [htokens]
    refine ⟨used.length, t, hk, rfl, rfl, fun j u hu hplace => ?_, ⟨more, ?_⟩, fun rest => ?_⟩
    · exact eq_of_place_eq hscan hu hk hplace
    · rwa [htokens, List.take_left]
    · -- The fault names the token but not where the parser stood; only one position holds it.
      have hnodup := nodup_of_scan hscan
      rw [htokens, List.nodup_append, List.nodup_cons] at hnodup
      obtain ⟨-, ⟨htail, -⟩, hdisjoint⟩ := hnodup
      have hused : t ∉ used := fun hmem => hdisjoint t hmem t (List.mem_cons_self ..) rfl
      have htake : tokens.take (used.length + 1) ++ rest = used ++ t :: rest := by
        simp [htokens, List.take_append, List.take_of_length_le]
      rw [htokens] at hrun
      rintro ⟨p, hp⟩
      rw [htake] at hp
      exact Parser.not_sentence_of_unexpected hrun hused htail rest p hp

end Program

/-- A declaration among statements. -/
def lateDeclaration : String :=
  "procedure p;\n  begin ! a; var b end;\ncall p."

theorem lateDeclaration_unexpected :
    ∃ tokens f, scan lateDeclaration = .ok tokens ∧ Program.ofTokens tokens = .error f ∧
      f.diagnostic = .unexpected "end" "var" ⟨2, 14⟩ ∧
      (∃ rest, Grammar.IsSentence (tokens.take 7 ++ rest)) ∧
      ∀ rest, ¬Grammar.IsSentence (tokens.take 8 ++ rest) := by
  have hcheck : ∃ tokens, scan lateDeclaration = .ok tokens ∧
      ∃ f, Program.ofTokens tokens = .error f ∧ f.diagnostic = .unexpected "end" "var" ⟨2, 14⟩ ∧
        tokens[7]?.map Token.place = some ⟨2, 14⟩ := by decide +kernel
  obtain ⟨tokens, hscan, f, hparse, hf, hseventh⟩ := hcheck
  obtain ⟨u, hu, hplace⟩ := Option.map_eq_some_iff.mp hseventh
  obtain ⟨k, -, -, -, -, honly, hbefore, hupto⟩ := Program.unexpected_at_first hscan hparse hf
  obtain rfl : 7 = k := honly 7 u hu hplace
  exact ⟨tokens, f, hscan, hparse, hf, hbefore, hupto⟩

end PLZero
