import Mathlib.Algebra.Ring.Nat
import Mathlib.Data.List.Perm.Basic
import PLZero.Proofs.Code.Building
import PLZero.Proofs.Code.Labels

/-!
# The routines of a unit

* `Image.Holds` — the routine of a block is in the image: its slots are for the variables of the
  block, its code is that of the statement of the block, with a return at the end.
* `Program.Installed` — the same for all blocks of a program.
* `Program.installed_generate` — the unit made for a program, if its labels fit into 32 bits, can be
  made ready to run, and the program is installed in its image.

The code of a routine is looked up by index among all code that was made, so it is the right one
only because no two procedures have one index.
-/

namespace PLZero

/-- The block `⟨decls, stmt⟩` is ready to run as routine `r`. -/
structure Image.Holds (image : Image) (l : Layout) (r : Nat) (decls : List Decl) (stmt : Stmt) :
    Prop where
  fits : l.Fits r [] decls
  routine : ∃ R seg c c', image[r]? = some R ∧ R.Labelled ∧
    R.locals.map some = (Decl.varHeads decls).map DeclHead.ty ∧
    R.code = (seg ++ [.ret]).toArray ∧ stmt.code l c = .ok (seg, c')

/-- All blocks of the program are ready to run. -/
structure Program.Installed (p : Program) (l : Layout) (image : Image) : Prop where
  main : image.Holds l 0 p.block.decls p.block.stmt
  procedures : ∀ head decls stmt, .procedure head decls stmt ∈ p.declarations →
    ∃ r nest, l.get? head.id = some (.routine r nest) ∧ image.Holds l r decls stmt

/-! ## Code of procedures -/

/-- What was made for the declarations: code for each procedure, under the index of its routine. -/
structure Emitted (l : Layout) (ds : List Decl) (emitted : List (Nat × List Instr)) (c c' : Nat) :
    Prop where
  nodup : (emitted.map Prod.fst).Nodup
  owner : ∀ x ∈ emitted, ∃ id ∈ Decl.ids ds, ∃ nest, l.get? id = some (.routine x.1 nest)
  code : ∀ head decls stmt, .procedure head decls stmt ∈ ds →
    ∃ index nest seg c₁ c₂, l.get? head.id = some (.routine index nest) ∧
      stmt.code l c₁ = .ok (seg, c₂) ∧ (index, seg ++ [.ret]) ∈ emitted
  numbers : Numbers (emitted.flatMap Prod.snd) c c'

namespace Emitted

variable {l : Layout} {ds ds' : List Decl} {es es' : List (Nat × List Instr)} {c c' c'' : Nat}

theorem none (h : ∀ head decls stmt, .procedure head decls stmt ∉ ds) (c : Nat) :
    Emitted l ds [] c c :=
  ⟨.nil, by simp, fun head decls stmt hmem => absurd hmem (h head decls stmt), .of_nil rfl c⟩

theorem append (h : Emitted l ds es c c') (h' : Emitted l ds' es' c' c'') (hsound : l.Sound)
    (hdisjoint : ∀ a ∈ Decl.ids ds, ∀ b ∈ Decl.ids ds', a ≠ b) :
    Emitted l (ds ++ ds') (es ++ es') c c'' := by
  refine ⟨?_, ?_, ?_, ?_⟩
  · rw [List.map_append, List.nodup_append]
    refine ⟨h.nodup, h'.nodup, fun a ha b hb hab => ?_⟩
    obtain ⟨x, hx, rfl⟩ := List.mem_map.mp ha
    obtain ⟨y, hy, rfl⟩ := List.mem_map.mp hb
    obtain ⟨i, hi, nest, hget⟩ := h.owner x hx
    obtain ⟨j, hj, nest', hget'⟩ := h'.owner y hy
    rw [hab] at hget
    exact hdisjoint i hi j hj (hsound.id_eq hget hget')
  · intro x hx
    rw [Decl.ids, List.map_append]
    rcases List.mem_append.mp hx with hx | hx
    · obtain ⟨id, hid, hget⟩ := h.owner x hx
      exact ⟨id, List.mem_append_left _ hid, hget⟩
    · obtain ⟨id, hid, hget⟩ := h'.owner x hx
      exact ⟨id, List.mem_append_right _ hid, hget⟩
  · intro head decls stmt hmem
    rcases List.mem_append.mp hmem with hmem | hmem
    · obtain ⟨index, nest, seg, c₁, c₂, hget, hcode, hin⟩ := h.code head decls stmt hmem
      exact ⟨index, nest, seg, c₁, c₂, hget, hcode, List.mem_append_left _ hin⟩
    · obtain ⟨index, nest, seg, c₁, c₂, hget, hcode, hin⟩ := h'.code head decls stmt hmem
      exact ⟨index, nest, seg, c₁, c₂, hget, hcode, List.mem_append_right _ hin⟩
  · rw [List.flatMap_append]
    exact h.numbers.append h'.numbers

theorem procedure {head : DeclHead} {decls : List Decl} {stmt : Stmt} {index nest : Nat}
    {seg : List Instr} (hget : l.get? head.id = some (.routine index nest))
    (hcode : stmt.code l c = .ok (seg, c')) :
    Emitted l [.procedure head decls stmt] [(index, seg ++ [.ret])] c c' := by
  refine ⟨List.pairwise_singleton .., ?_, ?_, ?_⟩
  · intro x hx
    rw [List.mem_singleton.mp hx]
    exact ⟨head.id, List.mem_singleton_self _, nest, hget⟩
  · intro head' decls' stmt' hmem
    cases List.mem_singleton.mp hmem
    exact ⟨index, nest, seg, c, c', hget, hcode, List.mem_singleton_self _⟩
  · refine (stmt.numbers_code hcode).congr ?_
    simp [labels_cons (show Instr.ret.label? = .none from rfl)]

theorem perm (h : Emitted l ds es c c') (hperm : ds.Perm ds') : Emitted l ds' es c c' := by
  refine ⟨h.nodup, fun x hx => ?_, fun head decls stmt hmem => ?_, h.numbers⟩
  · obtain ⟨id, hid, hget⟩ := h.owner x hx
    exact ⟨id, (hperm.map _).mem_iff.mp hid, hget⟩
  · exact h.code head decls stmt (hperm.mem_iff.mpr hmem)

end Emitted

mutual

theorem Decl.emitted_codes {l : Layout} (hsound : l.Sound) :
    (d : Decl) → ∀ {c c' : Nat} {es : List (Nat × List Instr)},
    d.codes l c = .ok (es, c') → (ids d.subtree).Nodup → Emitted l d.subtree es c c'
  | .const head value, c, c', es, h, _ => by
    obtain ⟨rfl, rfl⟩ := Emit.of_pure h
    exact .none (by simp [subtree]) c
  | .var head, c, c', es, h, _ => by
    obtain ⟨rfl, rfl⟩ := Emit.of_pure h
    exact .none (by simp [subtree]) c
  | .procedure head decls stmt, c, c', es, h, hnodup => by
    obtain ⟨index, nest, nested, seg, c₁, hget, hnested, hcode, rfl⟩ := codes_procedure h
    rw [ids_subtree, List.nodup_cons] at hnodup
    -- The routine of the procedure comes after those inside it.
    refine ((Decl.emitted_codesList hsound decls hnested hnodup.2).append (.procedure hget hcode)
      hsound fun a ha b hb heq => hnodup.1 ?_).perm List.perm_append_comm
    obtain rfl : a = head.id := heq.trans (List.mem_singleton.mp hb)
    exact ha

theorem Decl.emitted_codesList {l : Layout} (hsound : l.Sound) :
    (ds : List Decl) → ∀ {c c' : Nat} {es : List (Nat × List Instr)},
    Decl.codesList l ds c = .ok (es, c') → (ids (subtrees ds)).Nodup →
    Emitted l (subtrees ds) es c c'
  | [], c, c', es, h, _ => by
    rw [Decl.codesList] at h
    obtain ⟨rfl, rfl⟩ := Emit.of_pure h
    exact .none (by simp [subtrees]) c
  | d :: ds, c, c', es, h, hnodup => by
    obtain ⟨first, rest, c₁, hd, hds, rfl⟩ := codesList_cons h
    rw [ids_subtrees_cons, ← ids_subtree] at hnodup
    obtain ⟨hnd, hnds, hdisjoint⟩ := List.nodup_append.mp hnodup
    exact (Decl.emitted_codes hsound d hd hnd).append
      (Decl.emitted_codesList hsound ds hds hnds) hsound hdisjoint

end

/-! ## Putting routines together -/

theorem lookup_of_mem {es : List (Nat × List Instr)} {i : Nat} {code : List Instr}
    (hnodup : (es.map Prod.fst).Nodup) (hmem : (i, code) ∈ es) :
    es.reverse.lookup i = some code := by
  obtain ⟨before, after, hes⟩ := List.append_of_mem (List.mem_reverse.mpr hmem)
  have hrev : (es.reverse.map Prod.fst).Nodup := by
    rwa [((List.reverse_perm es).map Prod.fst).nodup_iff]
  rw [List.lookup_eq_some_iff]
  refine ⟨before, after, hes, fun x hx => ?_⟩
  rw [hes, List.map_append, List.nodup_append] at hrev
  rw [bne_iff_ne]
  exact fun heq => hrev.2.2 x.1 (List.mem_map_of_mem hx) i (by simp) heq.symm

/-- As the indices are different and every frame has code, the routines have just the code that was
made. -/
theorem perm_of_assemble {es : List (Nat × List Instr)} {frames : List Frame} {rs : List Routine}
    (h : assemble es 0 frames = .ok rs) (hnodup : (es.map Prod.fst).Nodup)
    (hlt : ∀ x ∈ es, x.1 < frames.length) : (es.map Prod.snd).Perm (rs.map Routine.code) := by
  obtain ⟨hlength, hget⟩ := getElem?_assemble h
  simp only [Nat.zero_add] at hget
  -- The code of a routine, by its index.
  let code (i : Nat) : List Instr := (es.reverse.lookup i).getD []
  have hmade : es.map Prod.snd = (es.map Prod.fst).map code := by
    rw [List.map_map]
    refine List.map_congr_left fun x hx => ?_
    simp [code, lookup_of_mem hnodup hx]
  have hunit : rs.map Routine.code = (List.range frames.length).map code := by
    refine List.ext_getElem? fun k => ?_
    rw [List.getElem?_map, List.getElem?_map]
    cases hk : frames[k]? with
    | none =>
      rw [List.getElem?_eq_none_iff] at hk
      rw [List.getElem?_eq_none (by omega), List.getElem?_eq_none (by simpa using hk)]
      rfl
    | some frame =>
      obtain ⟨code', hlookup, hr⟩ := hget k frame hk
      have hk' := (List.getElem?_eq_some_iff.mp hk).1
      simp [hr, List.getElem?_range hk', code, hlookup]
  have hperm : (es.map Prod.fst).Perm (List.range frames.length) := by
    refine (List.perm_ext_iff_of_nodup hnodup List.nodup_range).mpr fun i => ?_
    rw [List.mem_range]
    constructor
    · intro hi
      obtain ⟨x, hx, rfl⟩ := List.mem_map.mp hi
      exact hlt x hx
    · intro hi
      obtain ⟨code', hlookup, -⟩ := hget i _ (List.getElem?_eq_getElem hi)
      obtain ⟨before, after, hsplit, -⟩ := List.lookup_eq_some_iff.mp hlookup
      rw [← List.mem_reverse, ← List.map_reverse, hsplit]
      simp
  rw [hmade, hunit]
  exact hperm.map code

/-- All code made for a program, with different indices that have frames. -/
structure Program.Assembled (p : Program) (l : Layout) (es : List (Nat × List Instr)) (c : Nat) :
    Prop where
  nodup : (es.map Prod.fst).Nodup
  lt : ∀ x ∈ es, x.1 < l.frames.size
  numbers : Numbers (es.flatMap Prod.snd) 0 c
  main : ∃ seg c₁ c₂, p.block.stmt.code l c₁ = .ok (seg, c₂) ∧ (0, seg ++ [.ret]) ∈ es
  procedures : ∀ head decls stmt, .procedure head decls stmt ∈ p.declarations →
    ∃ index nest seg c₁ c₂, l.get? head.id = some (.routine index nest) ∧
      stmt.code l c₁ = .ok (seg, c₂) ∧ (index, seg ++ [.ret]) ∈ es

theorem Program.assembled_codes {p : Program} {l : Layout} {es : List (Nat × List Instr)}
    {c : Nat} (h : p.codes l 0 = .ok (es, c)) (hsound : l.Sound)
    (hnodup : (Decl.ids p.declarations).Nodup) : p.Assembled l es c := by
  obtain ⟨nested, seg, c₁, hnested, hmain, rfl⟩ := Program.codes_eq h
  have hem := Decl.emitted_codesList hsound p.block.decls hnested hnodup
  have hindex : ∀ x ∈ nested, 0 < x.1 ∧ x.1 < l.frames.size := by
    intro x hx
    obtain ⟨id, -, nest, hget⟩ := hem.owner x hx
    exact hsound.lt_of_get? hget
  refine ⟨?_, ?_, ?_, ⟨seg, c₁, c, hmain, by simp⟩, fun head decls stmt hmem => ?_⟩
  · rw [List.map_append, List.nodup_append]
    refine ⟨hem.nodup, List.pairwise_singleton .., fun a ha b hb hab => ?_⟩
    obtain ⟨x, hx, rfl⟩ := List.mem_map.mp ha
    have := (hindex x hx).1
    simp only [List.map_cons, List.map_nil, List.mem_singleton] at hb
    omega
  · rw [List.forall_mem_append]
    refine ⟨fun x hx => (hindex x hx).2, fun x hx => ?_⟩
    rw [List.mem_singleton.mp hx]
    exact hsound.pos
  · rw [List.flatMap_append]
    refine hem.numbers.append ((p.block.stmt.numbers_code hmain).congr ?_)
    simp [labels_cons (show Instr.ret.label? = none from rfl)]
  · obtain ⟨index, nest, seg', c₁, c₂, hget, hcode, hin⟩ := hem.code head decls stmt hmem
    exact ⟨index, nest, seg', c₁, c₂, hget, hcode, List.mem_append_left _ hin⟩

namespace Program.Assembled

variable {p : Program} {l : Layout} {es : List (Nat × List Instr)} {c : Nat} {u : CodeUnit}

theorem perm (hall : p.Assembled l es c) (h : assemble es 0 l.frames.toList = .ok u.routines) :
    (es.flatMap Prod.snd).Perm (u.routines.flatMap Routine.code) :=
  (perm_of_assemble h hall.nodup (by simpa using hall.lt)).flatten

/-- The labels of the unit are all that were numbered. -/
theorem numbers_unit (hall : p.Assembled l es c)
    (h : assemble es 0 l.frames.toList = .ok u.routines) :
    Numbers (u.routines.flatMap Routine.code) 0 c :=
  hall.numbers.congr ((hall.perm h).symm.filterMap _)

theorem labelCount_eq (hall : p.Assembled l es c)
    (h : assemble es 0 l.frames.toList = .ok u.routines) : u.labelCount = c := by
  rw [← (hall.numbers_unit h).countP_eq, Nat.zero_add, CodeUnit.labelCount]

/-- The code of each routine of the unit is a part of all code, in which no label stands twice. -/
theorem nodup_labels (hall : p.Assembled l es c)
    (h : assemble es 0 l.frames.toList = .ok u.routines)
    (hcount : u.labelCount < 2 ^ 32) : ∀ r ∈ u.routines, (labels r.code).Nodup := by
  intro r hr
  rw [hall.labelCount_eq h] at hcount
  have hnodup := (hall.numbers_unit h).nodup (Nat.le_of_lt hcount)
  exact hnodup.sublist ((List.sublist_flatten_of_mem (List.mem_map_of_mem hr)).filterMap _)

theorem holds {image : Image} {r c₁ c₂ : Nat} {decls : List Decl} {stmt : Stmt} {seg : List Instr}
    (hall : p.Assembled l es c) (h : assemble es 0 l.frames.toList = .ok u.routines)
    (himage : ∀ (i : Nat) (r : Routine), u.routines[i]? = some r →
      ∃ R, image[i]? = some R ∧ r.LoadedAs R)
    (hfits : l.Fits r [] decls) (hcode : stmt.code l c₁ = .ok (seg, c₂))
    (hmem : (r, seg ++ [.ret]) ∈ es) : image.Holds l r decls stmt := by
  obtain ⟨frame, hframe, hlocals⟩ := hfits.locals
  obtain ⟨code, hlookup, hr⟩ := (getElem?_assemble h).2 r frame (by simpa using hframe)
  rw [Nat.zero_add, lookup_of_mem hall.nodup hmem] at hlookup
  cases hlookup
  obtain ⟨R, hR, hloaded⟩ := himage r _ hr
  refine ⟨hfits, R, seg, c₁, c₂, hR, hloaded.labelled, ?_, hloaded.code, hcode⟩
  rw [hloaded.locals, hlocals]
  rfl

end Program.Assembled

/-- How the unit of a program came about. -/
theorem Program.assembled_of_generate {p : Program} {name : String} {u : CodeUnit}
    (h : p.generate name = .ok u) (hnodup : (Decl.ids p.declarations).Nodup) :
    ∃ l es c, p.layout = .ok l ∧ p.codes l 0 = .ok (es, c) ∧ p.Placed l ∧ p.Assembled l es c ∧
      assemble es 0 l.frames.toList = .ok u.routines := by
  obtain ⟨l, es, c, hl, hes, hassemble⟩ := Program.generate_eq h
  have hplaced := Program.placed_layout hl hnodup
  exact ⟨l, es, c, hl, hes, hplaced, Program.assembled_codes hes hplaced.sound hnodup, hassemble⟩

/-- **A unit made for a program can be made ready to run**, and holds all blocks of the program. -/
theorem Program.installed_generate {p : Program} {name : String} {u : CodeUnit}
    (h : p.generate name = .ok u) (hnodup : (Decl.ids p.declarations).Nodup)
    (hcount : u.labelCount < 2 ^ 32) :
    ∃ l image, u.load = .ok image ∧ u.entry?.isSome ∧ p.Installed l image := by
  obtain ⟨l, es, c, hl, hes, hplaced, hall, hassemble⟩ := Program.assembled_of_generate h hnodup
  obtain ⟨image, hload, himage⟩ := CodeUnit.load_ok (hall.nodup_labels hassemble hcount)
  refine ⟨l, image, hload, ?_, ?_, fun head decls stmt hmem => ?_⟩
  · rw [CodeUnit.entry?, List.isSome_head?, ← List.length_pos_iff, (getElem?_assemble hassemble).1]
    exact hplaced.sound.pos
  · obtain ⟨seg, c₁, c₂, hcode, hin⟩ := hall.main
    exact hall.holds hassemble himage hplaced.main hcode hin
  · obtain ⟨index, nest, seg, c₁, c₂, hplace, hcode, hin⟩ := hall.procedures head decls stmt hmem
    obtain ⟨r, nest', hplace', hfits⟩ := hplaced.procedures _ hmem _ _ _ rfl
    rw [hplace] at hplace'
    cases hplace'
    exact ⟨index, nest, hplace, hall.holds hassemble himage hfits hcode hin⟩

end PLZero
