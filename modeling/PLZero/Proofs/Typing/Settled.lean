import PLZero.Proofs.Typing.Growth

/-!
# Well-typed programs are settled

A program whose types obey the rules has no empty slot and is below itself, so a pass over it
neither fails nor fills anything.  Inference leaves such a program as it is after the two passes that
are always made.

* `Engine.pass_of_wellTyped` — every pass, strict or not, gives the program and the engine back.
* `Program.inferTypes_of_wellTyped` — inference takes two passes and changes nothing.
-/

namespace PLZero

open Slotted (slots)

variable {T : OpTable} {q : Program}

/-! ## A new engine -/

theorem Program.WellTyped.filled (h : q.WellTyped T) : Filled q.block := by
  intro hempty
  obtain ⟨e, he, hty⟩ := List.mem_map.mp hempty
  obtain ⟨ty, ht⟩ := h.expressions he
  rw [ht.ty_eq] at hty
  cases hty

namespace Engine

theorem changed_ofProgram (p : Program) : (ofProgram p).changed = false := by
  have hkeep (ds : List Decl) (s : Engine) : (ds.foldl note s).changed = s.changed := by
    induction ds generalizing s with
    | nil => rfl
    | cons d ds ih => exact ih (s.note d)
  exact hkeep p.declarations _

theorem unmark_ofProgram (p : Program) : (ofProgram p).unmark = ofProgram p := by
  rw [unmark, ← changed_ofProgram p]

theorem typeOf_ofProgram (hq : q.Numbered) {d : Decl} (hd : d ∈ q.declarations) :
    (ofProgram q).typeOf d.head.id = d.head.ty := by
  rw [typeOf, ofProgram_entry hq, hq.getElem?_of_mem hd]
  rfl

theorem under_ofProgram (hq : q.Numbered) : (ofProgram q).Under q.signature := by
  intro id kind ty hsig
  rw [hq.signature_eq, Option.bind_eq_some_iff] at hsig
  obtain ⟨d, hd, hty⟩ := hsig
  obtain ⟨ty', hslot, hpair⟩ := Option.map_eq_some_iff.mp hty
  cases hpair
  exact ⟨_, by rw [ofProgram_entry hq, hd, Option.map_some], rfl, .inr hslot⟩

theorem full_ofProgram (hq : q.Numbered) (h : q.WellTyped T) : (ofProgram q).Full := by
  intro id entry hentry
  rw [ofProgram_entry hq] at hentry
  obtain ⟨d, hd, rfl⟩ := Option.map_eq_some_iff.mp hentry
  obtain ⟨ty, hty⟩ := (h.declarations d (List.mem_of_getElem? hd)).exists_ty
  simp [hty]

theorem potential_of_full {s : Engine} (hfilled : Filled q.block) (hfull : s.Full) :
    s.potential q = 0 := by
  have hslots : (slots q).count none = 0 := List.count_eq_zero.mpr hfilled
  have hblanks : s.blanks = 0 := by
    rw [blanks, Array.countP_eq_zero]
    intro entry hentry
    obtain ⟨id, hid⟩ := Array.mem_iff_getElem?.mp hentry
    simpa using hfull id entry hid
  rw [potential, hslots, hblanks]

/-! ## Passes -/

/-- There is nothing to fill, and below a typing a pass that is not strict does not fail. -/
theorem quiet_pass_of_wellTyped (hq : q.Numbered) (h : q.WellTyped Op.resultTy?) :
    Walk.Quiet ((ofProgram q).pass false q) := by
  have hwithin := within_pass OpTable.regular_resultTy false h (h.records hq) (.refl q.block)
    (under_ofProgram hq)
  have hpotential := potential_pass false (ofProgram q) q
  rw [potential_of_full h.filled (full_ofProgram hq h)] at hpotential
  constructor
  · cases hf : ((ofProgram q).pass false q).fault with
    | none => rfl
    | some f => exact absurd (hwithin.fault f hf) (Program.not_tolerated f)
  · cases hc : ((ofProgram q).pass false q).state.changed with
    | false => rfl
    | true =>
      rw [hc, Bool.toNat_true] at hpotential
      omega

theorem written_of_wellTyped (hq : q.Numbered) (h : q.WellTyped T) :
    written (ofProgram q) q q.block = q := by
  have hdecls : Decl.writeBackList (ofProgram q) q.block.decls = q.block.decls :=
    (Decl.BelowList.refl _).writeBack_eq (Block.filled_iff.mp h.filled).1
      fun d hd => (typeOf_ofProgram hq hd).symm
  rw [written, hdecls]

/-- **A pass over a well-typed program changes nothing.** -/
theorem pass_of_wellTyped (hq : q.Numbered) (h : q.WellTyped Op.resultTy?) (strict : Bool) :
    (ofProgram q).pass strict q = .done q (ofProgram q) := by
  obtain ⟨-, hstable⟩ := pass_of_quiet (quiet_pass_of_wellTyped hq h)
  rw [unmark_ofProgram, written_of_wellTyped hq h] at hstable
  have hvisit : (ofProgram q).visit strict q = .done q.block (ofProgram q) := by
    have hvisit := visit_of_stable (s := ofProgram q) (p := q) strict
    rw [unmark_ofProgram] at hvisit
    refine hvisit hstable fun _ => ⟨h.filled, full_ofProgram hq h, fun d hd _ => ?_⟩
    obtain ⟨ty, hty⟩ := (h.declarations d hd).exists_ty
    simp [typeOf_ofProgram hq hd, hty]
  rw [pass_eq, hvisit]
  exact congrArg (Walk.done · (ofProgram q)) (written_of_wellTyped hq h)

theorem afterPasses_of_wellTyped (hq : q.Numbered) (h : q.WellTyped Op.resultTy?)
    (flags : List Bool) : (ofProgram q).afterPasses q flags = (ofProgram q, q) := by
  induction flags with
  | nil => rfl
  | cons strict flags ih => rw [afterPasses, pass_of_wellTyped hq h, Walk.done_state,
      Walk.done_tree, ih]

/-- Where passes change nothing the loop makes two. -/
theorem Loops.eq_of_pass {s : Engine} {p : Program} {w : Inferring Program} {n : Nat}
    (h : Loops 0 s p w n) (hpass : s.pass false p = .done p s) (hs : s.changed = false) :
    w = .done p s ∧ n = 2 := by
  cases h with
  | fails hfault =>
    rw [hpass] at hfault
    cases hfault
  | rests _ hmin => simp [minPasses] at hmin
  | again _ _ hrest =>
    rw [hpass, Walk.done_state, Walk.done_tree] at hrest
    cases hrest with
    | fails hfault =>
      rw [hpass] at hfault
      cases hfault
    | rests => exact ⟨hpass, rfl⟩
    | again _ hgo _ => simp [hpass, minPasses, hs] at hgo

end Engine

/-- **Inference over a well-typed program changes nothing**, in two passes. -/
theorem Program.inferTypes_of_wellTyped (hq : q.Numbered) (h : q.WellTyped Op.resultTy?) :
    q.inferTypes = (q, .ok 2) := by
  obtain ⟨n, hloops, heq⟩ := q.inferTypes_loops
  obtain ⟨hlast, rfl⟩ :=
    hloops.eq_of_pass (Engine.pass_of_wellTyped hq h false) (Engine.changed_ofProgram q)
  rw [heq, hlast, Engine.conclude, Walk.onward_done, Engine.pass_of_wellTyped hq h true]
  rfl

end PLZero
