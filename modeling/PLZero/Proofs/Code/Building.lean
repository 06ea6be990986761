import PLZero.Proofs.Code.Placement

/-!
# Routines in their places

A routine is put in its place as soon as its code is made, if there is a frame for its index and a
place for it.  There always are: the layout gives no index without a frame.

* `Program.sound_layout` — so it is for every layout of a program.
* `Layout.put` — what is put in place for a piece of code.
* `Decl.run_build` — building puts the code in place as it is listed, and refuses none of it.
* `getElem?_foldl_put` — in each place is the code that was last made for it.
* `Program.generate_eq_assemble` — so a unit is its frames and the listed code put together.
-/

namespace PLZero

/-! ## Indices have frames -/

mutual

theorem Decl.sound_layOut : (d : Decl) → {l l' : Layout} → d.layOut l = .ok l' → l.Sound → l'.Sound
  | .const .., _, _, h, hl | .var _, _, _, h, hl => by
    cases h
    exact hl
  | .procedure head decls stmt, l, l', h, hl => by
    rw [Decl.layOut] at h
    split at h
    · obtain ⟨l₁, hfold, hlist⟩ := exists_of_bind_ok h
      exact Decl.sound_layOutList decls hlist ((Layout.extends_foldlM hfold).sound hl)
    · cases h
      exact hl

theorem Decl.sound_layOutList : (ds : List Decl) → {l l' : Layout} →
    Decl.layOutList l ds = .ok l' → l.Sound → l'.Sound
  | [], _, _, h, hl => by
    cases h
    exact hl
  | d :: ds, l, l', h, hl => by
    obtain ⟨l₁, hd, hds⟩ := Decl.layOutList_cons h
    exact Decl.sound_layOutList ds hds (Decl.sound_layOut d hd hl)

end

theorem Program.sound_layout {p : Program} {l : Layout} (h : p.layout = .ok l) : l.Sound := by
  obtain ⟨l₁, hfold, hlist⟩ := exists_of_bind_ok h
  exact Decl.sound_layOutList _ hlist ((Layout.extends_foldlM hfold).sound Layout.sound_empty)

/-! ## Building -/

/-- Puts a piece of code in place. -/
def Layout.put (l : Layout) (built : Array (Option Routine)) (piece : Nat × List Instr) :
    Array (Option Routine) :=
  built.set! piece.1 (l.frames[piece.1]?.map fun frame => ⟨frame.name, frame.locals, piece.2⟩)

variable {l : Layout} {built : Array (Option Routine)}

theorem size_foldl_put (l : Layout) (built : Array (Option Routine))
    (es : List (Nat × List Instr)) : (es.foldl l.put built).size = built.size := by
  induction es generalizing built with
  | nil => rfl
  | cons e es ih => rw [List.foldl_cons, ih, Layout.put, Array.size_set!]

/-- Both checks are passed by an index that has a frame. -/
theorem run_place {index : Nat} (h : index < l.frames.size) (hsize : built.size = l.frames.size)
    (code : List Instr) : (place l index code).run built = pure ((), l.put built (index, code)) := by
  have hframe : l.frames[index]? = some l.frames[index] := Array.getElem?_eq_getElem h
  have hplace : index < built.size := hsize ▸ h
  simp only [place, hframe, StateT.run_bind, StateT.run_get, pure_bind, if_pos hplace,
    StateT.run_set, Layout.put, Option.map_some]

/-- A routine is put in place after those that are nested in it. -/
theorem run_build_place {nested : Build Unit} {codes : Emit (List (Nat × List Instr))} {index : Nat}
    (hnested : nested.run built = (fun es => ((), es.foldl l.put built)) <$> codes)
    (hsize : built.size = l.frames.size) (hindex : index < l.frames.size)
    (body : Emit (List Instr)) :
    (do nested; place l index ((← body) ++ [.ret]) : Build Unit).run built =
      (fun es => ((), es.foldl l.put built)) <$>
        (do return (← codes) ++ [(index, (← body) ++ [.ret])] : Emit (List (Nat × List Instr))) := by
  rw [StateT.run_bind, hnested, bind_map_left, map_bind]
  refine bind_congr fun es => ?_
  have hlift (built : Array (Option Routine)) :
      (liftM body : Build (List Instr)).run built = (·, built) <$> body := by
    rw [map_eq_pure_bind]
    rfl
  rw [StateT.run_bind, hlift, bind_map_left, map_bind]
  refine bind_congr fun seg => ?_
  rw [run_place hindex ((size_foldl_put l built es).trans hsize), map_pure, List.foldl_append]
  rfl

mutual

/-- Building puts in place what is listed. -/
theorem Decl.run_build (hl : l.Sound) : (d : Decl) → ∀ {built : Array (Option Routine)},
    built.size = l.frames.size →
      (d.build l).run built = (fun es => ((), es.foldl l.put built)) <$> d.codes l
  | .const .., _, _ | .var _, _, _ => rfl
  | .procedure head decls stmt, built, hsize => by
    rw [Decl.build, Decl.codes]
    cases hget : l.get? head.id with
    | none => rfl
    | some storage =>
      cases storage with
      | constant | «variable» => rfl
      | routine index nest =>
        exact run_build_place (Decl.run_buildList hl decls hsize) hsize (hl.lt_of_get? hget).2 _

theorem Decl.run_buildList (hl : l.Sound) : (ds : List Decl) → ∀ {built : Array (Option Routine)},
    built.size = l.frames.size →
      (Decl.buildList l ds).run built = (fun es => ((), es.foldl l.put built)) <$> Decl.codesList l ds
  | [], _, _ => rfl
  | d :: ds, built, hsize => by
    rw [Decl.buildList, Decl.codesList, StateT.run_bind, Decl.run_build hl d hsize, bind_map_left,
      map_bind]
    refine bind_congr fun es => ?_
    rw [Decl.run_buildList hl ds ((size_foldl_put l built es).trans hsize), map_bind,
      map_eq_pure_bind]
    simp only [map_pure, List.foldl_append]

end

theorem Program.routines_eq (p : Program) (hl : l.Sound) :
    p.routines l =
      (fun es => es.foldl l.put (Array.replicate l.routineCount none)) <$> p.codes l := by
  have hsize : (Array.replicate l.routineCount (none : Option Routine)).size = l.frames.size := by
    rw [Array.size_replicate, Layout.routineCount]
  have hrun := run_build_place (Decl.run_buildList hl p.block.decls hsize) hsize hl.pos
    (p.block.stmt.code l)
  change (p.build l).run _ = _ <$> p.codes l at hrun
  rw [Program.routines, hrun, bind_map_left, map_eq_pure_bind]

theorem Program.routines_of_codes {p : Program} {es : List (Nat × List Instr)} {c c' : Nat}
    (hl : p.layout = .ok l) (h : p.codes l c = .ok (es, c')) :
    p.routines l c = .ok (es.foldl l.put (Array.replicate l.routineCount none), c') := by
  rw [p.routines_eq (Program.sound_layout hl)]
  change (p.codes l c >>= fun x => .ok (_, x.2)) = _
  rw [h]
  rfl

/-! ## Collecting -/

/-- In its place is the code that was last made for an index. -/
theorem getElem?_foldl_put (es : List (Nat × List Instr)) {index : Nat} {frame : Frame}
    {before : Option Routine} (hframe : l.frames[index]? = some frame)
    (hbefore : built[index]? = some before) :
    (es.foldl l.put built)[index]? =
      some (((es.reverse.lookup index).map (⟨frame.name, frame.locals, ·⟩)).or before) := by
  induction es generalizing built before with
  | nil => exact hbefore
  | cons e es ih =>
    obtain ⟨i, code⟩ := e
    rw [List.foldl_cons, List.reverse_cons, List.lookup_append]
    by_cases hi : i = index
    · subst hi
      have hlt : i < built.size := (Array.getElem?_eq_some_iff.mp hbefore).1
      have hput : (l.put built (i, code))[i]? = some (some ⟨frame.name, frame.locals, code⟩) := by
        rw [Layout.put, Array.set!_eq_setIfInBounds, Array.getElem?_setIfInBounds_self_of_lt hlt, hframe]
        rfl
      rw [ih hput]
      cases es.reverse.lookup i <;> simp
    · have hput : (l.put built (i, code))[index]? = some before := by
        rw [Layout.put, Array.set!_eq_setIfInBounds, Array.getElem?_setIfInBounds_ne hi, hbefore]
      have hne : (index == i) = false := beq_false_of_ne (Ne.symm hi)
      rw [ih hput]
      cases es.reverse.lookup index <;> simp [List.lookup_cons, hne]

/-- Collecting the places is putting code and frames together. -/
theorem collect_eq_assemble (es : List (Nat × List Instr)) {index : Nat} {frames : List Frame}
    {places : List (Option Routine)} (hlength : places.length = frames.length)
    (h : ∀ (k : Nat) (frame : Frame), frames[k]? = some frame → places[k]? =
      some ((es.reverse.lookup (index + k)).map (⟨frame.name, frame.locals, ·⟩))) :
    collect index places = assemble es index frames := by
  induction frames generalizing index places with
  | nil =>
    rw [List.length_nil, List.length_eq_zero_iff] at hlength
    rw [hlength]
    rfl
  | cons frame frames ih =>
    obtain ⟨place, places, rfl⟩ := List.exists_cons_of_length_eq_add_one hlength
    have hplace := h 0 frame rfl
    have hrest : collect (index + 1) places = assemble es (index + 1) frames := by
      refine ih (Nat.succ.inj hlength) fun k frame' hk => ?_
      rw [show index + 1 + k = index + (k + 1) from by omega]
      exact h (k + 1) frame' hk
    cases Option.some.inj hplace
    rw [assemble, Nat.add_zero]
    cases es.reverse.lookup index with
    | none => rfl
    | some code => rw [Option.map_some, collect, hrest]

theorem collect_foldl_put (l : Layout) (es : List (Nat × List Instr)) :
    collect 0 (es.foldl l.put (Array.replicate l.routineCount none)).toList =
      assemble es 0 l.frames.toList := by
  refine collect_eq_assemble es ?_ fun k frame hk => ?_
  · rw [Array.length_toList, size_foldl_put, Array.size_replicate, Array.length_toList,
      Layout.routineCount]
  · rw [Array.getElem?_toList] at hk ⊢
    have hlt : k < l.routineCount := (Array.getElem?_eq_some_iff.mp hk).1
    have hnone : (Array.replicate l.routineCount (none : Option Routine))[k]? = some none := by
      rw [Array.getElem?_replicate, if_pos hlt]
    rw [getElem?_foldl_put es hk hnone, Option.or_none, Nat.zero_add]

/-- **A unit is its frames and the code that was listed.** -/
theorem Program.generate_eq_assemble (p : Program) (name : String) :
    p.generate name = do
      if !UnitName.isValid name then throw (.invalidUnitName name)
      let l ← p.layout
      let emitted ← (p.codes l).run' 0
      return ⟨name, ← assemble emitted 0 l.frames.toList⟩ := by
  unfold Program.generate
  cases UnitName.isValid name with
  | false => rfl
  | true =>
    cases hl : p.layout with
    | error f => rfl
    | ok l =>
      have hbuilt : (p.routines l).run' 0 = (fun es => es.foldl l.put
          (Array.replicate l.routineCount none)) <$> (p.codes l).run' 0 := by
        rw [p.routines_eq (Program.sound_layout hl)]
        simp only [StateT.run'_eq, StateT.run_map, Functor.map_map]
      change ((p.routines l).run' 0 >>= fun built =>
          collect 0 built.toList >>= fun rs => pure (CodeUnit.mk name rs)) =
        ((p.codes l).run' 0 >>= fun es =>
          assemble es 0 l.frames.toList >>= fun rs => pure (CodeUnit.mk name rs))
      rw [hbuilt, bind_map_left]
      refine bind_congr fun es => ?_
      rw [collect_foldl_put]

/-- What a unit is made of. -/
theorem Program.exists_of_generate {p : Program} {name : String} {u : CodeUnit}
    (h : p.generate name = .ok u) :
    ∃ l es c rs, p.layout = .ok l ∧ p.codes l 0 = .ok (es, c) ∧
      assemble es 0 l.frames.toList = .ok rs ∧ u = ⟨name, rs⟩ := by
  rw [Program.generate_eq_assemble] at h
  cases hname : UnitName.isValid name with
  | false =>
    rw [hname] at h
    cases h
  | true =>
    rw [hname] at h
    obtain ⟨l, hl, hrest⟩ := exists_of_bind_ok h
    obtain ⟨es, hrun, hassemble⟩ := exists_of_bind_ok hrest
    obtain ⟨x, hx, hes⟩ := exists_of_bind_ok hrun
    obtain ⟨rs, hrs, hu⟩ := exists_of_bind_ok hassemble
    cases hes
    cases hu
    exact ⟨l, x.1, x.2, rs, hl, hx, hrs, rfl⟩

theorem Program.generate_eq {p : Program} {name : String} {u : CodeUnit}
    (h : p.generate name = .ok u) :
    ∃ l es c, p.layout = .ok l ∧ p.codes l 0 = .ok (es, c) ∧
      assemble es 0 l.frames.toList = .ok u.routines := by
  obtain ⟨l, es, c, rs, hl, hes, hrs, rfl⟩ := Program.exists_of_generate h
  exact ⟨l, es, c, hl, hes, hrs⟩

theorem Program.name_of_generate {p : Program} {name : String} {u : CodeUnit}
    (h : p.generate name = .ok u) : u.name = name := by
  obtain ⟨l, es, c, rs, -, -, -, rfl⟩ := Program.exists_of_generate h
  rfl

end PLZero
