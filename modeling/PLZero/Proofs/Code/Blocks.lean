import PLZero.Proofs.Code.Calls
import PLZero.Proofs.Code.Numbering

/-!
# Blocks and their routines

* `Program.HasBlock` — the blocks of a program, each with its path and its routine.
* `Program.LaidOut` — what a layout has to be: every declaration has one entry, every routine one
  block, the numbers and slots follow the source, and the names of procedures are their paths.
* `Program.laidOut_layout` — the layout of a program is such a layout, if no block declares a name
  twice and no name has a dot in it.

A block stands in the list of all declarations without a gap, and what is inside it comes later
(`HasBlock.located_eq`); a declaration has one path, as it has one number.
-/

namespace PLZero

/-- The blocks of a program, each with the names of the procedures that lead to it and with its
routine. -/
inductive Program.HasBlock (p : Program) (l : Layout) : List String → Nat → Block → Prop where
  | main : p.HasBlock l [] 0 p.block
  | procedure {path : List String} {r index nest : Nat} {b : Block} {head : DeclHead}
      {decls : List Decl} {stmt : Stmt} :
      p.HasBlock l path r b → .procedure head decls stmt ∈ b.decls →
      l.get? head.id = some (.routine index nest) →
      p.HasBlock l (path ++ [head.name]) index ⟨decls, stmt⟩

/-- What the layout says of one block.  The variables have the slots `0, 1, 2, …` of the routine,
which has no others; the procedures are numbered in source order, and before all that are nested in
them. -/
structure Layout.Arranges (l : Layout) (path : List String) (r : Nat) (b : Block) : Prop where
  fits : l.Fits r [] b.decls
  name : l.frames[r]?.map Frame.name = some (if path = [] then "main" else ".".intercalate path)
  order : (b.decls.filterMap l.routine?).Pairwise (· < ·)
  nested : ∀ i ∈ b.decls.filterMap l.routine?,
    ∀ {head : DeclHead} {decls : List Decl} {stmt : Stmt},
    .procedure head decls stmt ∈ b.decls → ∀ d ∈ Decl.subtrees decls, ∀ j,
    l.routine? d = some j → i < j

/-- The layout gives every declaration a place of its own. -/
structure Program.LaidOut (p : Program) (l : Layout) : Prop where
  entries : (l.entries.map Prod.fst).Perm (Decl.ids p.declarations)
  nodup : (Decl.ids p.declarations).Nodup
  count : l.routineCount = 1 + Decl.procedureCount p.declarations
  procedures : (p.declarations.filterMap l.routine?).Perm (List.range' 1 (l.routineCount - 1))
  routines : ∀ r < l.routineCount, ∃! x : List String × Block, p.HasBlock l x.1 r x.2
  blocks : ∀ d ∈ p.declarations, ∃ path r b, p.HasBlock l path r b ∧ d ∈ b.decls
  arranges : ∀ {path : List String} {r : Nat} {b : Block}, p.HasBlock l path r b →
    l.Arranges path r b
  slots : ∀ {path path' : List String} {r : Nat} {b b' : Block} {head head' : DeclHead}
    {slot nest nest' : Nat} {ty ty' : Ty}, p.HasBlock l path r b → p.HasBlock l path' r b' →
    .var head ∈ b.decls → .var head' ∈ b'.decls →
    l.get? head.id = some (.variable slot nest ty) →
    l.get? head'.id = some (.variable slot nest' ty') → head = head'
  names : (l.names.drop 1).Nodup

namespace Program.HasBlock

variable {p : Program} {l : Layout} {path path' : List String} {r r' : Nat} {b b' : Block}

/-! ## Where a block stands in the list of declarations -/

/-- The declarations of a block follow one another, and what is inside them comes later. -/
theorem located_eq (h : p.HasBlock l path r b) : ∃ before between after, p.located =
    before ++ Located.block path b.decls ++
      (between ++ Decl.nestedList path b.decls ++ after) := by
  induction h with
  | main => exact ⟨[], [], [], by simp [Program.located]⟩
  | @procedure path r index nest b head decls stmt hb hmem hget ih =>
    obtain ⟨before, between, after, heq⟩ := ih
    obtain ⟨before', after', hnested⟩ := Decl.nested_subset path hmem
    refine ⟨before ++ Located.block path b.decls ++ (between ++ before'), [], after' ++ after, ?_⟩
    rw [heq, hnested, Decl.nested]
    simp only [List.append_assoc, List.nil_append]

theorem mem_located (h : p.HasBlock l path r b) {d : Decl} (hd : d ∈ b.decls) :
    ⟨path ++ [d.name], d⟩ ∈ p.located := by
  obtain ⟨before, between, after, heq⟩ := h.located_eq
  rw [heq]
  exact List.mem_append_left _ (List.mem_append_right _ (Located.mem_block hd))

theorem mem_declarations (h : p.HasBlock l path r b) {d : Decl} (hd : d ∈ b.decls) :
    d ∈ p.declarations :=
  p.perm_located.mem_iff.mp (List.mem_map_of_mem (f := Located.decl) (h.mem_located hd))

/-- A block is that of the program or that of a procedure. -/
theorem main_or_procedure (h : p.HasBlock l path r b) : (path = [] ∧ r = 0 ∧ b = p.block) ∨
    ∃ head nest, ⟨path, .procedure head b.decls b.stmt⟩ ∈ p.located ∧ path ≠ [] ∧
      l.get? head.id = some (.routine r nest) := by
  cases h with
  | main => exact .inl ⟨rfl, rfl, rfl⟩
  | procedure hb hmem hget => exact .inr ⟨_, _, hb.mem_located hmem, by simp, hget⟩

theorem fits (h : p.HasBlock l path r b) (hl : p.Placed l) : l.Fits r [] b.decls := by
  cases h with
  | main => exact hl.main
  | procedure hb hmem hget =>
    obtain ⟨index, nest, hget', hfits⟩ := hl.procedures _ (hb.mem_declarations hmem) _ _ _ rfl
    rw [hget] at hget'
    cases hget'
    exact hfits

/-- The block is the one that the routine is made for. -/
theorem block?_eq (h : p.HasBlock l path r b) (hsound : l.Sound)
    (hnodup : (Decl.ids p.declarations).Nodup) : p.block? l r = some b := by
  cases h with
  | main => rfl
  | procedure hb hmem hget =>
    exact Program.block?_procedure hsound hnodup (hb.mem_declarations hmem) hget

/-- A routine has one block, at one path. -/
theorem unique (h : p.HasBlock l path r b) (h' : p.HasBlock l path' r b') (hsound : l.Sound)
    (hnodup : (Decl.ids p.declarations).Nodup) : path = path' ∧ b = b' := by
  refine ⟨?_, Option.some.inj ((h.block?_eq hsound hnodup).symm.trans (h'.block?_eq hsound hnodup))⟩
  rcases h.main_or_procedure with ⟨rfl, rfl, -⟩ | ⟨head, nest, hmem, -, hget⟩
  · rcases h'.main_or_procedure with ⟨rfl, -, -⟩ | ⟨head', nest', -, -, hget'⟩
    · rfl
    · exact absurd (hsound.lt_of_get? hget').1 (Nat.lt_irrefl 0)
  · rcases h'.main_or_procedure with ⟨-, rfl, -⟩ | ⟨head', nest', hmem', -, hget'⟩
    · exact absurd (hsound.lt_of_get? hget).1 (Nat.lt_irrefl 0)
    · have hids : (p.located.map Located.id).Nodup := p.map_id_located.nodup_iff.mpr hnodup
      have hsame := List.inj_on_of_nodup_map hids hmem hmem' (hsound.id_eq hget hget')
      exact congrArg Located.path hsame

end Program.HasBlock

/-! ## Every declaration is in a block -/

mutual

theorem Decl.exists_block {p : Program} {l : Layout} (hl : p.Placed l) : (d : Decl) →
    {path : List String} → {r : Nat} → {b : Block} → p.HasBlock l path r b → d ∈ b.decls →
    ∀ x ∈ d.nested path, ∃ path' r' b', p.HasBlock l path' r' b' ∧ x.decl ∈ b'.decls ∧
      x.path = path' ++ [x.decl.name]
  | .const .., _, _, _, _, _, x, hx | .var _, _, _, _, _, _, x, hx => by
    simp [Decl.nested] at hx
  | .procedure head decls stmt, path, r, b, hb, hd, x, hx => by
    obtain ⟨index, nest, hget, -⟩ := hl.procedures _ (hb.mem_declarations hd) _ _ _ rfl
    have hblock := Program.HasBlock.procedure hb hd hget
    rw [Decl.nested, List.mem_append] at hx
    rcases hx with hx | hx
    · obtain ⟨d, hmem, rfl⟩ := List.mem_map.mp hx
      exact ⟨_, index, _, hblock, hmem, rfl⟩
    · exact Decl.exists_blockList hl decls hblock (fun _ hmem => hmem) x hx

theorem Decl.exists_blockList {p : Program} {l : Layout} (hl : p.Placed l) : (ds : List Decl) →
    {path : List String} → {r : Nat} → {b : Block} → p.HasBlock l path r b →
    (∀ d ∈ ds, d ∈ b.decls) → ∀ x ∈ Decl.nestedList path ds,
    ∃ path' r' b', p.HasBlock l path' r' b' ∧ x.decl ∈ b'.decls ∧ x.path = path' ++ [x.decl.name]
  | [], _, _, _, _, _, x, hx => by
    rw [Decl.nestedList] at hx
    cases hx
  | d :: ds, path, r, b, hb, hds, x, hx => by
    rw [List.forall_mem_cons] at hds
    rw [Decl.nestedList, List.mem_append] at hx
    rcases hx with hx | hx
    · exact Decl.exists_block hl d hb hds.1 x hx
    · exact Decl.exists_blockList hl ds hb hds.2 x hx

end

namespace Program

variable {p : Program} {l : Layout}

theorem Placed.exists_block (hl : p.Placed l) {x : Located} (hx : x ∈ p.located) :
    ∃ path r b, p.HasBlock l path r b ∧ x.decl ∈ b.decls ∧ x.path = path ++ [x.decl.name] := by
  rw [Program.located, List.mem_append] at hx
  rcases hx with hx | hx
  · obtain ⟨d, hmem, rfl⟩ := List.mem_map.mp hx
    exact ⟨[], 0, p.block, .main, hmem, rfl⟩
  · exact Decl.exists_blockList hl p.block.decls .main (fun _ hmem => hmem) x hx

theorem exists_located {d : Decl} (hd : d ∈ p.declarations) : ∃ x ∈ p.located, x.decl = d :=
  List.mem_map.mp (p.perm_located.mem_iff.mpr hd)

/-- The slot of a variable is its position in the block. -/
theorem HasBlock.slot_unique {path path' : List String} {r : Nat} {b b' : Block}
    {head head' : DeclHead} {slot nest nest' : Nat} {ty ty' : Ty} (hl : p.Placed l)
    (hnodup : (Decl.ids p.declarations).Nodup) (hb : p.HasBlock l path r b)
    (hb' : p.HasBlock l path' r b') (hmem : .var head ∈ b.decls) (hmem' : .var head' ∈ b'.decls)
    (hget : l.get? head.id = some (.variable slot nest ty))
    (hget' : l.get? head'.id = some (.variable slot nest' ty')) : head = head' := by
  obtain ⟨rfl, rfl⟩ := hb.unique hb' hl.sound hnodup
  have hslot {head : DeclHead} {nest : Nat} {ty : Ty} (hmem : .var head ∈ b.decls)
      (hget : l.get? head.id = some (.variable slot nest ty)) :
      (Decl.varHeads b.decls)[slot]? = some head := by
    obtain ⟨k, hk⟩ := List.mem_iff_getElem?.mp (Decl.mem_varHeads.mpr hmem)
    obtain ⟨_, _, -, -, hplace⟩ := (hb.fits hl).var hk
    rw [hget] at hplace
    cases hplace
    simpa using hk
  exact Option.some.inj ((hslot hmem hget).symm.trans (hslot hmem' hget'))

/-! ## Paths -/

/-- A block of a program that declares no name twice does not do so either. -/
theorem HasBlock.distinct {path : List String} {r : Nat} {b : Block} (h : p.HasBlock l path r b)
    (hp : p.Distinct) : (b.decls.map Decl.name).Nodup ∧ Decl.DistinctList b.decls := by
  induction h with
  | main => exact ⟨hp.nodup, hp.decls⟩
  | procedure _ hmem _ ih => exact Decl.distinctList_iff.mp ih.2 _ hmem

/-- A path leads to one block. -/
theorem HasBlock.eq_of_path {path : List String} {r r' : Nat} {b b' : Block}
    (h : p.HasBlock l path r b) (h' : p.HasBlock l path r' b') (hp : p.Distinct) : b = b' := by
  induction h generalizing r' b' with
  | main =>
    rcases h'.main_or_procedure with ⟨-, -, rfl⟩ | ⟨-, -, -, hne, -⟩
    · rfl
    · exact absurd rfl hne
  | @procedure path r index nest b head decls stmt hb hmem hget ih =>
    generalize hpath : path ++ [head.name] = whole at h'
    cases h' with
    | main => simp at hpath
    | @procedure path' _ _ _ b' head' decls' stmt' hb' hmem' hget' =>
      obtain ⟨rfl, hname⟩ := List.append_inj' hpath rfl
      obtain rfl := ih hb'
      have hsame :=
        List.inj_on_of_nodup_map (hb.distinct hp).1 hmem hmem' (List.singleton_inj.mp hname)
      cases hsame
      rfl

/-- A path leads to one declaration. -/
theorem Placed.eq_of_path (hl : p.Placed l) (hp : p.Distinct) {x y : Located}
    (hx : x ∈ p.located) (hy : y ∈ p.located) (h : x.path = y.path) : x = y := by
  obtain ⟨path, r, b, hb, hmem, hpath⟩ := hl.exists_block hx
  obtain ⟨path', r', b', hb', hmem', hpath'⟩ := hl.exists_block hy
  rw [hpath, hpath'] at h
  obtain ⟨rfl, hname⟩ := List.append_inj' h rfl
  obtain rfl := hb.eq_of_path hb' hp
  have hdecl := List.inj_on_of_nodup_map (hb.distinct hp).1 hmem hmem' (List.singleton_inj.mp hname)
  cases x
  cases y
  simp_all

/-- The names in the path of a declaration are names of declarations. -/
theorem HasBlock.mem_names {path : List String} {r : Nat} {b : Block} (h : p.HasBlock l path r b) :
    ∀ name ∈ path, name ∈ p.declarations.map Decl.name := by
  induction h with
  | main => simp
  | procedure hb hmem _ ih =>
    rw [List.forall_mem_append]
    refine ⟨ih, List.forall_mem_singleton.mpr ?_⟩
    exact List.mem_map_of_mem (f := Decl.name) (hb.mem_declarations hmem)

end Program

/-- Paths of names without dots can be read off from the names they give. -/
theorem eq_of_intercalate_eq {path path' : List String} (hne : path ≠ []) (hne' : path' ≠ [])
    (hdots : ∀ name ∈ path, '.' ∉ name.toList) (hdots' : ∀ name ∈ path', '.' ∉ name.toList)
    (h : ".".intercalate path = ".".intercalate path') : path = path' := by
  have hsplit {path : List String} (hne : path ≠ []) (hdots : ∀ name ∈ path, '.' ∉ name.toList) :
      (".".intercalate path).toList.splitOn '.' = path.map String.toList := by
    rw [String.toList_intercalate]
    exact List.splitOn_intercalate '.' (by simpa using hdots) (by simpa using hne)
  have hlists : path.map String.toList = path'.map String.toList := by
    rw [← hsplit hne hdots, h, hsplit hne' hdots']
  exact List.map_injective_iff.mpr (fun _ _ => String.toList_injective) hlists

/-! ## The layout of a program -/

namespace Program

section LaidOut

variable {p : Program} {l : Layout} (hlists : l.Lists p.located) (hl : p.Placed l)
  (hnodup : (Decl.ids p.declarations).Nodup)

include hlists

theorem count_of_lists : l.routineCount = 1 + Decl.procedureCount p.declarations := by
  rw [Layout.routineCount, hlists.size, Located.countP_eq]
  exact congrArg (1 + ·) (p.perm_located.countP_eq _)

include hnodup

/-- The procedures have the numbers `1, 2, …`. -/
theorem procedures_of_lists :
    (p.declarations.filterMap l.routine?).Perm (List.range' 1 (l.routineCount - 1)) := by
  have hids : (p.located.map Located.id).Nodup := p.map_id_located.nodup_iff.mpr hnodup
  have hall : p.located = [] ++ p.located ++ [] := by simp
  have hsize := hlists.size
  have hperm := p.perm_located.filterMap l.routine?
  rw [hlists.routines_eq hids hall] at hperm
  rw [Layout.routineCount, hsize, Nat.add_sub_cancel_left]
  exact hperm.symm

/-- The numbers of the procedures of a block follow one another, and those of procedures inside them
come later. -/
theorem HasBlock.routines_eq {path : List String} {r : Nat} {b : Block}
    (hb : p.HasBlock l path r b) : ∃ first, b.decls.filterMap l.routine? =
      List.range' first (Decl.procedureCount b.decls) ∧
    ∀ x ∈ Decl.nestedList path b.decls, ∀ j, l.routine? x.decl = some j →
      first + Decl.procedureCount b.decls ≤ j := by
  have hids : (p.located.map Located.id).Nodup := p.map_id_located.nodup_iff.mpr hnodup
  obtain ⟨before, between, after, heq⟩ := hb.located_eq
  have hblock := hlists.routines_eq hids heq
  rw [Located.countP_eq (Located.block _ _), Located.map_decl_block] at hblock
  refine ⟨_, hblock, fun x hx j hj => ?_⟩
  obtain ⟨front, back, hsplit⟩ := List.append_of_mem hx
  have hx' : p.located =
      (before ++ Located.block path b.decls ++ (between ++ front)) ++ x :: (back ++ after) := by
    rw [heq, hsplit]
    simp
  rw [hlists.routine?_eq hids hx'] at hj
  split at hj
  · cases hj
    rw [List.countP_append, List.countP_append, Located.countP_eq (Located.block _ _),
      Located.map_decl_block]
    omega
  · cases hj

theorem HasBlock.name_eq {path : List String} {r : Nat} {b : Block} (hb : p.HasBlock l path r b) :
    l.frames[r]?.map Frame.name = some (if path = [] then "main" else ".".intercalate path) := by
  rw [← Array.getElem?_toList, ← List.getElem?_map]
  change l.names[r]? = _
  rcases hb.main_or_procedure with ⟨rfl, rfl, -⟩ | ⟨head, nest, hmem, hne, hget⟩
  · rw [hlists.names]
    rfl
  · have hids : (p.located.map Located.id).Nodup := p.map_id_located.nodup_iff.mpr hnodup
    obtain ⟨before, after, hx⟩ := List.append_of_mem hmem
    obtain ⟨nest', hget'⟩ := hlists.routine hids hx rfl
    have hsame := hget.symm.trans hget'
    cases hsame
    rw [if_neg hne, hlists.names_getElem? hx rfl]

include hl

/-- Every routine has a block. -/
theorem exists_hasBlock {r : Nat} (hr : r < l.routineCount) : ∃ path b, p.HasBlock l path r b := by
  rcases Nat.eq_zero_or_pos r with rfl | hpos
  · exact ⟨[], p.block, .main⟩
  · have hmem : r ∈ p.declarations.filterMap l.routine? :=
      (procedures_of_lists hlists hnodup).mem_iff.mpr (List.mem_range'_1.mpr ⟨hpos, by omega⟩)
    obtain ⟨d, hd, hroutine⟩ := List.mem_filterMap.mp hmem
    obtain ⟨x, hx, rfl⟩ := exists_located hd
    obtain ⟨path, r', b, hb, hin, -⟩ := hl.exists_block hx
    obtain ⟨storage, hget, hindex⟩ := Option.bind_eq_some_iff.mp hroutine
    obtain ⟨storage', hget', hkind, -⟩ := (hb.fits hl).exists_storage hin
    rw [hget] at hget'
    cases hget'
    cases storage with
    | routine index nest =>
      cases hindex
      generalize x.decl = d at hkind hin hget
      cases d with
      | procedure head decls stmt => exact ⟨_, _, .procedure hb hin hget⟩
      | _ => cases hkind
    | _ => cases hindex

theorem exists_unique_hasBlock {r : Nat} (hr : r < l.routineCount) :
    ∃! x : List String × Block, p.HasBlock l x.1 r x.2 := by
  obtain ⟨path, b, hb⟩ := exists_hasBlock hlists hl hnodup hr
  refine ⟨(path, b), hb, fun x hx => ?_⟩
  obtain ⟨hpath, hblock⟩ := hx.unique hb hl.sound hnodup
  exact Prod.ext hpath hblock

theorem HasBlock.arranges {path : List String} {r : Nat} {b : Block} (hb : p.HasBlock l path r b) :
    l.Arranges path r b := by
  obtain ⟨first, hroutines, hnested⟩ := HasBlock.routines_eq hlists hnodup hb
  refine ⟨hb.fits hl, HasBlock.name_eq hlists hnodup hb, ?_, ?_⟩
  · rw [hroutines]
    exact List.pairwise_lt_range'
  · intro i hi head decls stmt hmem d hd j hj
    obtain ⟨x, hx, rfl⟩ := Decl.exists_nested path hmem hd
    have hle := hnested x hx j hj
    rw [hroutines, List.mem_range'_1] at hi
    omega

theorem nodup_names (hp : p.Distinct)
    (hdots : ∀ name ∈ p.declarations.map Decl.name, '.' ∉ name.toList) :
    (l.names.drop 1).Nodup := by
  have hpath {x : Located} (hx : x ∈ p.located) :
      x.path ≠ [] ∧ ∀ name ∈ x.path, '.' ∉ name.toList := by
    obtain ⟨path, r, b, hb, hmem, hpath⟩ := hl.exists_block hx
    rw [hpath, List.forall_mem_append, List.forall_mem_singleton]
    exact ⟨by simp, fun name hname => hdots name (hb.mem_names name hname),
      hdots _ (List.mem_map_of_mem (hb.mem_declarations hmem))⟩
  rw [hlists.names, List.drop_one, List.tail_cons]
  refine List.Nodup.map_on (fun x hx y hy hname => ?_) ?_
  · have hx := List.mem_of_mem_filter hx
    have hy := List.mem_of_mem_filter hy
    refine hl.eq_of_path hp hx hy (eq_of_intercalate_eq ?_ ?_ ?_ ?_ hname)
    · exact (hpath hx).1
    · exact (hpath hy).1
    · exact (hpath hx).2
    · exact (hpath hy).2
  · exact ((p.map_id_located.nodup_iff.mpr hnodup).of_map _).filter _

end LaidOut

/-- **The layout of a program gives every declaration a place of its own.** -/
theorem laidOut_layout {p : Program} {l : Layout} (h : p.layout = .ok l)
    (hnodup : (Decl.ids p.declarations).Nodup) (hp : p.Distinct)
    (hdots : ∀ name ∈ p.declarations.map Decl.name, '.' ∉ name.toList) : p.LaidOut l := by
  have hlists := lists_layout h hnodup
  have hl := placed_layout h hnodup
  refine ⟨?_, hnodup, count_of_lists hlists, procedures_of_lists hlists hnodup,
    fun r hr => exists_unique_hasBlock hlists hl hnodup hr, fun d hd => ?_,
    HasBlock.arranges hlists hl hnodup, HasBlock.slot_unique hl hnodup,
    nodup_names hlists hl hnodup hp hdots⟩
  · rw [hlists.entries]
    exact (List.reverse_perm _).trans p.map_id_located
  · obtain ⟨x, hx, rfl⟩ := exists_located hd
    obtain ⟨path, r, b, hb, hmem, -⟩ := hl.exists_block hx
    exact ⟨path, r, b, hb, hmem⟩

/-- **Routine `r` of a unit is the block of routine `r`**, with its frame and its code. -/
theorem routines_of_generate {p : Program} {l : Layout} {name : String} {u : CodeUnit}
    (h : p.generate name = .ok u) (hlayout : p.layout = .ok l)
    (hnodup : (Decl.ids p.declarations).Nodup) : u.routines.length = l.routineCount ∧
    ∀ {path : List String} {r : Nat} {b : Block}, p.HasBlock l path r b →
      ∃ frame seg c c', l.frames[r]? = some frame ∧ b.stmt.code l c = .ok (seg, c') ∧
        u.routines[r]? = some ⟨frame.name, frame.locals, seg ++ [.ret]⟩ := by
  obtain ⟨l', es, c, hl', -, hl, hall, hassemble⟩ := assembled_of_generate h hnodup
  obtain rfl : l = l' := Except.ok.inj (hlayout.symm.trans hl')
  obtain ⟨hlength, hget⟩ := getElem?_assemble hassemble
  refine ⟨by simpa [Layout.routineCount] using hlength, fun {path r b} hb => ?_⟩
  obtain ⟨frame, hframe, -⟩ := (hb.fits hl).locals
  obtain ⟨code, -, hroutine⟩ := hget r frame (by simpa using hframe)
  obtain ⟨seg, c₁, c₂, hcode, hsame⟩ :=
    hall.exists_code hassemble (hb.block?_eq hl.sound hnodup) hroutine
  cases hsame
  exact ⟨frame, seg, c₁, c₂, hframe, hcode, hroutine⟩

end Program

end PLZero
