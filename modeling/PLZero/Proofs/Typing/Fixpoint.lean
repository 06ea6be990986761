import PLZero.Proofs.Typing.Agreement
import PLZero.Proofs.Typing.Completion
import PLZero.Proofs.Typing.Loop

/-!
# The passes together

A program is fresh when all its type slots are empty.  From a fresh program on, the passes stay
below every typing at once (`Engine.Reached`), and so does the last one of the loop, which fails or
fills nothing.

* `Program.passes_settled` — passes of which none has failed end at a stable program.
* `Program.passes_fault_iff` — some pass fails exactly if there is no typing.
-/

namespace PLZero

open Slotted (slots)

/-! ## Fresh programs -/

namespace Expr

theorem untyped_below (e : Expr) : e.untyped.Below e := by
  induction e with
  | literal => exact .literal (.inl rfl)
  | use => exact .use (.inl rfl)
  | binary _ _ _ _ _ ihl ihr => exact .binary (.inl rfl) ihl ihr

end Expr

mutual

theorem Stmt.untyped_below : (stmt : Stmt) → stmt.untyped.Below stmt
  | .assign _ expr => .assign expr.untyped_below
  | .call token target => .call token target
  | .input token target => .input token target
  | .output _ expr => .output expr.untyped_below
  | .begin _ stmts => .begin (Stmt.untyped_belowList stmts)
  | .if _ guard body => .if guard.untyped_below (Stmt.untyped_below body)
  | .while _ guard body => .while guard.untyped_below (Stmt.untyped_below body)
  | .empty token => .empty token

theorem Stmt.untyped_belowList : (stmts : List Stmt) → Stmt.BelowList (Stmt.untypedList stmts) stmts
  | [] => .nil
  | stmt :: stmts => .cons (Stmt.untyped_below stmt) (Stmt.untyped_belowList stmts)

end

mutual

theorem Decl.untyped_below : (d : Decl) → d.untyped.Below d
  | .const .. => .const rfl
  | .var _ => .var rfl
  | .procedure _ decls stmt => .procedure rfl (Decl.untyped_belowList decls) stmt.untyped_below

theorem Decl.untyped_belowList : (ds : List Decl) → Decl.BelowList (Decl.untypedList ds) ds
  | [] => .nil
  | d :: ds => .cons (Decl.untyped_below d) (Decl.untyped_belowList ds)

end

namespace Engine

theorem getElem?_foldl_note_of_notMem {ds : List Decl} {id : Nat}
    (h : id ∉ ds.map fun d => d.head.id) (s : Engine) :
    (ds.foldl note s).entries[id]? = s.entries[id]? := by
  induction ds generalizing s with
  | nil => rfl
  | cons d ds ih =>
    simp only [List.map_cons, List.mem_cons, not_or] at h
    rw [List.foldl_cons, ih h.2, note, Array.getElem?_setIfInBounds_ne fun he => h.1 he.symm]

theorem getElem?_foldl_note {ds : List Decl} (hnodup : (ds.map fun d => d.head.id).Nodup) {d : Decl}
    (hd : d ∈ ds) (s : Engine) (hlt : d.head.id < s.entries.size) :
    (ds.foldl note s).entries[d.head.id]? = some ⟨d.kind, d.name, d.head.ty⟩ := by
  induction ds generalizing s with
  | nil => cases hd
  | cons d' ds ih =>
    rw [List.map_cons, List.nodup_cons] at hnodup
    rw [List.foldl_cons]
    rcases List.mem_cons.mp hd with rfl | hd
    · rw [getElem?_foldl_note_of_notMem hnodup.1, note]
      simp [hlt]
    · exact ih hnodup.2 hd _ (by simpa [note] using hlt)

variable {p : Program}

theorem ofProgram_entry (hp : p.Numbered) (id : Nat) :
    (ofProgram p).entries[id]? =
      p.declarations[id]?.map fun d => ⟨d.kind, d.name, d.head.ty⟩ := by
  have hsize : (ofProgram p).entries.size = p.declarations.length := by
    rw [size_ofProgram, hp.length_eq]
  cases hd : p.declarations[id]? with
  | none =>
    rw [List.getElem?_eq_none_iff] at hd
    simp [hsize, hd]
  | some d =>
    have hid := hp.getElem?_id hd
    subst hid
    refine getElem?_foldl_note ?_ (List.mem_of_getElem? hd) _ ?_
    · rw [hp]
      exact List.nodup_range
    · have hlt := (List.getElem?_eq_some_iff.mp hd).1
      rw [hp.length_eq] at hlt
      simpa using hlt

theorem ofProgram_matches (hp : p.Numbered) : (ofProgram p).Matches p := by
  apply List.ext_getElem?
  intro id
  simp only [List.getElem?_map, Array.getElem?_toList, ofProgram_entry hp, Option.map_map]
  rfl

theorem Matches.of_filling {L L' : List (Option Ty)} {s s' : Engine} (hs : s.Matches p)
    (h : Filling L s L' s') : s'.Matches p := by
  rw [Matches, ← hs]
  apply List.ext_getElem?
  intro id
  simpa only [List.getElem?_map, Array.getElem?_toList] using h.kind_eq id

/-! ## Below every typing -/

/-- The passes over `p` may come to the engine `s` and the tree `p'`: so far they have only filled
slots, and only as every typing has them. -/
structure Reached (p : Program) (s : Engine) (p' : Program) : Prop where
  same : p'.untyped = p.untyped
  matching : s.Matches p
  below : ∀ {T : OpTable} {q : Program}, T.Regular → IsTyping T p q →
    p'.block.Below q.block ∧ s.Under q.signature

theorem Reached.matches_tree {s : Engine} {p' : Program} (h : Reached p s p') : s.Matches p' :=
  h.matching.trans (Program.kinds_eq_of_untyped h.same).symm

theorem reached_start (hp : p.Fresh) : Reached p (ofProgram p) p := by
  refine ⟨rfl, ofProgram_matches hp.numbered, fun {T q} hT hq => ⟨?_, ?_⟩⟩
  · have hblock : p.block = q.block.untyped := by
      have h := congrArg Program.block (hq.same.trans hp.untyped)
      exact h.symm
    rw [hblock]
    exact ⟨Decl.untyped_belowList _, Stmt.untyped_below _⟩
  · intro id kind ty hsig
    have hdecls : p.declarations = q.declarations.map Decl.untyped := by
      rw [← Program.declarations_untyped, hq.same, hp.untyped]
    rw [(hp.numbered.of_untyped hq.same).signature_eq, Option.bind_eq_some_iff] at hsig
    obtain ⟨d, hd, hty⟩ := hsig
    obtain ⟨ty', _, hpair⟩ := Option.map_eq_some_iff.mp hty
    cases hpair
    rw [ofProgram_entry hp.numbered, hdecls, List.getElem?_map, hd]
    refine ⟨_, rfl, d.kind_untyped, .inl ?_⟩
    cases d <;> rfl

theorem Reached.pass {s : Engine} {p' : Program} (hp : p.Numbered) (h : Reached p s p')
    (strict : Bool) :
    Reached p (s.pass strict p').state (s.pass strict p').tree := by
  have hfills := s.fills_pass strict p'
  have hmatch : s.unmark.Matches p := h.matching
  refine ⟨hfills.same.trans h.same, hmatch.of_filling hfills.filling, fun {T q} hT hq => ?_⟩
  obtain ⟨hbelow, hunder⟩ := h.below hT hq
  have hrec := hq.wellTyped.records (hp.of_untyped hq.same)
  have hwithin := within_pass hT strict hq.wellTyped hrec hbelow hunder
  exact ⟨hwithin.tree, hwithin.state⟩

end Engine

/-! ## What the passes come to -/

namespace Program

variable {p : Program}

theorem passes_last (hp : p.Fresh) :
    ∃ s p', Engine.Reached p s p' ∧ p.passes = s.pass false p' ∧
      ((s.pass false p').fault = none → Walk.Quiet (s.pass false p')) := by
  obtain ⟨n, hloops, -⟩ := p.inferTypes_loops
  exact hloops.last (fun s p' h => h.pass hp.numbered false) (Engine.reached_start hp)

/-- Passes of which none has failed end at a stable program. -/
theorem passes_settled (hp : p.Fresh) (h : p.passes.fault = none) :
    ∃ s p', Engine.Reached p s p' ∧ p.passes = .done p' s ∧ p'.block.Stable s ∧ s.unmark = s := by
  obtain ⟨s, p', hreached, hlast, hquiet⟩ := passes_last hp
  rw [hlast] at h ⊢
  obtain ⟨hpass, hstable⟩ := Engine.pass_of_quiet (hquiet h)
  have hnext := hreached.pass hp.numbered false
  rw [hpass] at hnext ⊢
  exact ⟨s.unmark, _, hnext, rfl, hstable, rfl⟩

theorem isTyping_of_settled {T : OpTable} {t : Ty} {s : Engine} {p' : Program} (hT : T.Regular)
    (ht : t.isValue = true) (hop : T.TotalAt t) (hp : p.Numbered) (hreached : Engine.Reached p s p')
    (hstable : p'.block.Stable s) : IsTyping T p (p'.complete t s) := by
  have hq := isTyping_complete hT ht hop (hp.of_untyped hreached.same) hreached.matches_tree hstable
  exact ⟨hq.same.trans hreached.same, hq.wellTyped⟩

theorem not_tolerated (f : TypeFault) : ¬f.Tolerated Op.resultTy? false := by
  cases f <;> simp [TypeFault.Tolerated]

/-- **Some pass that is not strict fails exactly if the program has no typing.** -/
theorem passes_fault_iff (hp : p.Fresh) :
    p.passes.fault = none ↔ ∃ q, IsTyping Op.resultTy? p q := by
  constructor
  · intro h
    obtain ⟨s, p', hreached, -, hstable, -⟩ := passes_settled hp h
    exact ⟨_, isTyping_of_settled OpTable.regular_resultTy rfl OpTable.totalAt_number hp.numbered
      hreached hstable⟩
  · rintro ⟨q, hq⟩
    obtain ⟨s, p', hreached, hlast, -⟩ := passes_last hp
    obtain ⟨hbelow, hunder⟩ := hreached.below OpTable.regular_resultTy hq
    have hwithin := Engine.within_pass OpTable.regular_resultTy false hq.wellTyped
      (hq.wellTyped.records (hp.numbered.of_untyped hq.same)) hbelow hunder
    rw [hlast]
    cases hf : (s.pass false p').fault with
    | none => rfl
    | some f => exact absurd (hwithin.fault f hf) (not_tolerated f)

end Program

end PLZero
