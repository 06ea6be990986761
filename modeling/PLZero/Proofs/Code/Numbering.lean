import PLZero.Proofs.Code.Renaming
import PLZero.Proofs.Code.Totality

/-!
# The order in which the layout is made

* `Program.located` — the declarations of a program in the order in which they get their places: a
  block first, then what is inside its procedures, one after the other.
* `Layout.Lists` — the layout has been made from these declarations, in this order.  The number of a
  procedure is one more than the number of procedures before it.
* `Program.lists_layout` — the layout of a program is made from all its declarations.
* `Layout.Lists.routines_eq` — declarations that follow one another have numbers that do.

What the layout says of the order of numbers is then a matter of lists: which declarations stand
before which.
-/

namespace PLZero

/-- A declaration with its path, the names of the procedures around it and its own, from the outside
in. -/
structure Located where
  path : List String
  decl : Decl

namespace Located

def id (x : Located) : Nat := x.decl.head.id

def isProcedure (x : Located) : Bool := x.decl.kind = .procedure

/-- The declarations of a block, where `path` is that of the procedure with the block. -/
def block (path : List String) (ds : List Decl) : List Located :=
  ds.map fun d => ⟨path ++ [d.name], d⟩

theorem map_decl_block (path : List String) (ds : List Decl) :
    (block path ds).map decl = ds := by
  rw [block, List.map_map]
  exact List.map_id ds

theorem mem_block {path : List String} {ds : List Decl} {d : Decl} (h : d ∈ ds) :
    ⟨path ++ [d.name], d⟩ ∈ block path ds :=
  List.mem_map_of_mem h

theorem countP_eq (xs : List Located) :
    xs.countP isProcedure = Decl.procedureCount (xs.map decl) := by
  rw [Decl.procedureCount, List.countP_map]
  rfl

end Located

mutual

/-- What is declared inside a declaration. -/
def Decl.nested (outer : List String) : Decl → List Located
  | .procedure head decls _ =>
    Located.block (outer ++ [head.name]) decls ++ Decl.nestedList (outer ++ [head.name]) decls
  | _ => []

def Decl.nestedList (outer : List String) : List Decl → List Located
  | [] => []
  | d :: ds => d.nested outer ++ Decl.nestedList outer ds

end

/-- All declarations, in the order in which the layout places them. -/
def Program.located (p : Program) : List Located :=
  Located.block [] p.block.decls ++ Decl.nestedList [] p.block.decls

/-! ## The declarations in order -/

theorem Decl.map_decl_nested (outer : List String) (head : DeclHead) (decls : List Decl)
    (stmt : Stmt) : ((Decl.procedure head decls stmt).nested outer).map Located.decl =
      decls ++ (nestedList (outer ++ [head.name]) decls).map Located.decl := by
  rw [Decl.nested, List.map_append, Located.map_decl_block]

mutual

theorem Decl.perm_nested (outer : List String) : (d : Decl) →
    (d :: (d.nested outer).map Located.decl).Perm d.subtree
  | .const .. | .var _ => .refl _
  | .procedure head decls stmt => by
    rw [Decl.map_decl_nested]
    exact (Decl.perm_nestedList (outer ++ [head.name]) decls).cons _

theorem Decl.perm_nestedList (outer : List String) : (ds : List Decl) →
    (ds ++ (Decl.nestedList outer ds).map Located.decl).Perm (subtrees ds)
  | [] => .refl _
  | d :: ds => by
    rw [Decl.nestedList, List.map_append, subtrees]
    calc d :: ds ++ ((d.nested outer).map Located.decl ++ (nestedList outer ds).map Located.decl)
      _ |>.Perm (d :: (d.nested outer).map Located.decl ++
          (ds ++ (nestedList outer ds).map Located.decl)) := by
        rw [List.cons_append, List.cons_append]
        refine .cons _ ?_
        rw [← List.append_assoc, ← List.append_assoc]
        exact List.perm_append_comm.append_right _
      _ |>.Perm (d.subtree ++ subtrees ds) :=
        (Decl.perm_nested outer d).append (Decl.perm_nestedList outer ds)

end

theorem Program.perm_located (p : Program) : (p.located.map Located.decl).Perm p.declarations := by
  rw [Program.located, List.map_append, Located.map_decl_block]
  exact Decl.perm_nestedList [] p.block.decls

theorem Program.map_id_located (p : Program) :
    (p.located.map Located.id).Perm (Decl.ids p.declarations) := by
  have hperm := p.perm_located.map fun d => d.head.id
  rwa [List.map_map] at hperm

theorem Decl.nested_subset (outer : List String) {d : Decl} {ds : List Decl} (h : d ∈ ds) :
    ∃ before after, nestedList outer ds = before ++ d.nested outer ++ after := by
  induction ds with
  | nil => cases h
  | cons d' ds ih =>
    rcases List.mem_cons.mp h with rfl | h
    · exact ⟨[], _, rfl⟩
    · obtain ⟨before, after, hsplit⟩ := ih h
      refine ⟨d'.nested outer ++ before, after, ?_⟩
      rw [Decl.nestedList, hsplit]
      simp only [List.append_assoc]

/-- What is declared inside a procedure comes after the block with the procedure. -/
theorem Decl.exists_nested (outer : List String) {ds decls : List Decl} {head : DeclHead}
    {stmt : Stmt} {d : Decl} (h : .procedure head decls stmt ∈ ds) (hd : d ∈ subtrees decls) :
    ∃ x ∈ nestedList outer ds, x.decl = d := by
  obtain ⟨before, after, hsplit⟩ := nested_subset outer h
  have hmem := (perm_nestedList (outer ++ [head.name]) decls).mem_iff.mpr hd
  rw [← map_decl_nested outer head decls stmt] at hmem
  obtain ⟨x, hx, rfl⟩ := List.mem_map.mp hmem
  refine ⟨x, ?_, rfl⟩
  rw [hsplit]
  exact List.mem_append_left _ (List.mem_append_right _ hx)

namespace Layout

/-! ## Adding declarations -/

/-- The layout has been made from the declarations `xs`, in this order. -/
structure Lists (l : Layout) (xs : List Located) : Prop where
  entries : l.entries.map Prod.fst = (xs.map Located.id).reverse
  names : l.names = "main" :: (xs.filter Located.isProcedure).map fun x => ".".intercalate x.path
  place : ∀ {before after : List Located} {x : Located}, xs = before ++ x :: after →
    ∃ storage, (x.id, storage) ∈ l.entries ∧ storage.index? =
      if x.isProcedure then some (1 + before.countP Located.isProcedure) else none

/-- Routine `r` belongs to the block with the given path. -/
def Belongs (l : Layout) (r : Nat) (path : List String) : Prop :=
  (r = 0 ∧ path = []) ∨ (r ≠ 0 ∧ path ≠ [] ∧ l.names[r]? = some (".".intercalate path))

variable {l l' : Layout} {r : Nat} {path : List String} {d : Decl} {xs : List Located}

theorem lists_empty : Layout.empty.Lists [] := ⟨rfl, rfl, fun h => by simp at h⟩

theorem size_eq_length_names (l : Layout) : l.frames.size = l.names.length := by
  simp [Layout.names]

theorem Lists.size (h : l.Lists xs) : l.frames.size = 1 + xs.countP Located.isProcedure := by
  rw [size_eq_length_names, h.names, List.length_cons, List.length_map,
    ← List.countP_eq_length_filter, Nat.add_comm]

theorem get?_of_mem {id : Nat} {storage : Storage} (hnodup : (l.entries.map Prod.fst).Nodup)
    (h : (id, storage) ∈ l.entries) : l.get? id = some storage := by
  obtain ⟨before, after, hsplit⟩ := List.append_of_mem h
  refine List.lookup_eq_some_iff.mpr ⟨before, after, hsplit, fun e he => ?_⟩
  rw [hsplit, List.map_append, List.nodup_append] at hnodup
  rw [bne_iff_ne]
  exact fun heq => hnodup.2.2 e.1 (List.mem_map_of_mem he) id (by simp) heq.symm

/-- The place of a declaration that is looked up. -/
theorem Lists.get? (h : l.Lists xs) (hnodup : (xs.map Located.id).Nodup)
    {before after : List Located} {x : Located} (hx : xs = before ++ x :: after) :
    ∃ storage, l.get? x.id = some storage ∧ storage.index? =
      if x.isProcedure then some (1 + before.countP Located.isProcedure) else none := by
  obtain ⟨storage, hmem, hindex⟩ := h.place hx
  refine ⟨storage, get?_of_mem ?_ hmem, hindex⟩
  rw [h.entries]
  exact List.nodup_reverse.mpr hnodup

/-- The routine of a procedure that has been listed. -/
theorem Lists.routine (h : l.Lists xs) (hnodup : (xs.map Located.id).Nodup)
    {before after : List Located} {x : Located} (hx : xs = before ++ x :: after)
    (hprocedure : x.isProcedure = true) :
    ∃ nest, l.get? x.id = some (.routine (1 + before.countP Located.isProcedure) nest) := by
  obtain ⟨storage, hget, hindex⟩ := h.get? hnodup hx
  rw [if_pos hprocedure] at hindex
  cases storage with
  | routine index nest =>
    cases hindex
    exact ⟨nest, hget⟩
  | _ => cases hindex

theorem Lists.names_getElem? (h : l.Lists xs) {before after : List Located} {x : Located}
    (hx : xs = before ++ x :: after) (hprocedure : x.isProcedure = true) :
    l.names[1 + before.countP Located.isProcedure]? = some (".".intercalate x.path) := by
  rw [h.names, Nat.add_comm, List.getElem?_cons_succ, hx, List.filter_append,
    List.filter_cons_of_pos hprocedure, List.map_append, List.countP_eq_length_filter,
    List.getElem?_append_right (by simp)]
  simp

theorem names_add (h : add r l d = .ok l') :
    l'.names = l.names ++ if d.kind = .procedure then [l.routineName r d.name] else [] := by
  obtain ⟨storage, frames, hadded, rfl⟩ := added_of_add h
  cases hadded with
  | const => exact (List.append_nil _).symm
  | @var head nest ty =>
    exact (names_addVariable l r head.id nest ty).trans (List.append_nil _).symm
  | @procedure head =>
    simp only [Layout.names, Array.toList_push, List.map_append, List.map_cons, List.map_nil]
    rfl

theorem Belongs.routineName (h : l.Belongs r path) (name : String) :
    l.routineName r name = ".".intercalate (path ++ [name]) := by
  rw [routineName_eq]
  rcases h with ⟨rfl, rfl⟩ | ⟨hr, hpath, hname⟩
  · simp
  · rw [if_neg hr, hname, String.intercalate_append_of_ne_nil hpath (by simp),
      String.intercalate_singleton]
    rfl

theorem Belongs.add (h : l.Belongs r path) (hadd : add r l d = .ok l') : l'.Belongs r path := by
  refine h.imp_right fun ⟨hr, hpath, hname⟩ => ⟨hr, hpath, ?_⟩
  rw [names_add hadd, List.getElem?_append_left (List.getElem?_eq_some_iff.mp hname).1, hname]

theorem index?_of_added {storage : Storage} {frames : Array Frame}
    (h : Added l r d storage frames) :
    storage.index? = if d.kind = .procedure then some l.frames.size else none := by
  cases h <;> simp [Storage.index?, Decl.kind]

/-- **One declaration more.**  A procedure gets the next number, which is one more than the number
of procedures so far, and the name of its path. -/
theorem Lists.add (h : l.Lists xs) (hbelongs : l.Belongs r path) (hadd : add r l d = .ok l') :
    l'.Lists (xs ++ [⟨path ++ [d.name], d⟩]) := by
  have hnames := names_add hadd
  obtain ⟨storage, frames, hadded, rfl⟩ := added_of_add hadd
  refine ⟨?_, ?_, fun {before after x} hx => ?_⟩
  · rw [List.map_cons, h.entries, List.map_append, List.reverse_append]
    rfl
  · rw [hnames, h.names, hbelongs.routineName, List.filter_append, List.map_append]
    by_cases hkind : d.kind = .procedure <;> simp [Located.isProcedure, hkind]
  · rcases List.eq_nil_or_concat after with rfl | ⟨after, y, rfl⟩
    · obtain ⟨rfl, heq⟩ := List.append_inj' hx rfl
      cases heq
      refine ⟨storage, List.mem_cons_self .., ?_⟩
      rw [index?_of_added hadded, h.size]
      simp [Located.isProcedure]
    · rw [List.concat_eq_append, ← List.cons_append, ← List.append_assoc] at hx
      obtain ⟨storage', hmem, hindex⟩ := h.place (List.append_inj' hx rfl).1
      exact ⟨storage', List.mem_cons_of_mem _ hmem, hindex⟩

theorem Lists.foldlM {ds : List Decl} (h : l.Lists xs) (hbelongs : l.Belongs r path)
    (hfold : ds.foldlM (Layout.add r) l = .ok l') : l'.Lists (xs ++ Located.block path ds) := by
  induction ds generalizing l xs with
  | nil =>
    cases hfold
    simpa [Located.block] using h
  | cons d ds ih =>
    obtain ⟨l₁, hadd, hrest⟩ := foldlM_cons hfold
    have hlists := ih (h.add hbelongs hadd) (hbelongs.add hadd) hrest
    rwa [List.append_assoc] at hlists

/-- The routine of a procedure that has been listed belongs to its block. -/
theorem Lists.belongs (h : l.Lists xs) {before after : List Located} {x : Located}
    (hx : xs = before ++ x :: after) (hprocedure : x.isProcedure = true) (hpath : x.path ≠ []) :
    l.Belongs (1 + before.countP Located.isProcedure) x.path :=
  .inr ⟨by omega, hpath, h.names_getElem? hx hprocedure⟩

end Layout

/-! ## Blocks inside blocks -/

mutual

theorem Decl.lists_layOut : (d : Decl) → {outer : List String} → {l l' : Layout} →
    {xs : List Located} → d.layOut l = .ok l' → l.Lists xs → ⟨outer ++ [d.name], d⟩ ∈ xs →
    ((xs ++ d.nested outer).map Located.id).Nodup → l'.Lists (xs ++ d.nested outer)
  | .const .., _, l, l', xs, h, hlists, _, _ | .var _, _, l, l', xs, h, hlists, _, _ => by
    cases h
    simpa [Decl.nested] using hlists
  | .procedure head decls stmt, outer, l, l', xs, h, hlists, hmem, hnodup => by
    obtain ⟨before, after, hx⟩ := List.append_of_mem hmem
    have hids : (xs.map Located.id).Nodup := by
      rw [List.map_append, List.nodup_append] at hnodup
      exact hnodup.1
    obtain ⟨nest, hget⟩ := hlists.routine hids hx rfl
    obtain ⟨l₁, hfold, hlist⟩ := layOut_procedure h hget
    have hblock := hlists.foldlM (hlists.belongs hx rfl (by simp)) hfold
    rw [Decl.nested, ← List.append_assoc] at hnodup ⊢
    exact Decl.lists_layOutList decls hlist hblock
      (fun d hd => List.mem_append_right _ (Located.mem_block hd)) hnodup

theorem Decl.lists_layOutList : (ds : List Decl) → {outer : List String} → {l l' : Layout} →
    {xs : List Located} → Decl.layOutList l ds = .ok l' → l.Lists xs →
    (∀ d ∈ ds, ⟨outer ++ [d.name], d⟩ ∈ xs) →
    ((xs ++ Decl.nestedList outer ds).map Located.id).Nodup →
    l'.Lists (xs ++ Decl.nestedList outer ds)
  | [], _, l, l', xs, h, hlists, _, _ => by
    cases h
    simpa [Decl.nestedList] using hlists
  | d :: ds, outer, l, l', xs, h, hlists, hmem, hnodup => by
    obtain ⟨l₁, hd, hds⟩ := layOutList_cons h
    rw [List.forall_mem_cons] at hmem
    rw [Decl.nestedList, ← List.append_assoc] at hnodup ⊢
    have hnodup₁ : ((xs ++ d.nested outer).map Located.id).Nodup := by
      rw [List.map_append, List.nodup_append] at hnodup
      exact hnodup.1
    refine Decl.lists_layOutList ds hds (Decl.lists_layOut d hd hlists hmem.1 hnodup₁) ?_ hnodup
    exact fun x hx => List.mem_append_left _ (hmem.2 x hx)

end

/-- **The layout of a program lists its declarations**, a block before what is inside it. -/
theorem Program.lists_layout {p : Program} {l : Layout} (h : p.layout = .ok l)
    (hnodup : (Decl.ids p.declarations).Nodup) : l.Lists p.located := by
  obtain ⟨l₁, hfold, hlist⟩ := exists_of_bind_ok h
  have hblock := Layout.lists_empty.foldlM (.inl ⟨rfl, rfl⟩) hfold
  refine Decl.lists_layOutList p.block.decls hlist hblock (fun d hd => Located.mem_block hd) ?_
  exact p.map_id_located.nodup_iff.mpr hnodup

/-! ## Numbers of procedures -/

/-- The routine of a procedure. -/
def Layout.routine? (l : Layout) (d : Decl) : Option Nat := (l.get? d.head.id).bind Storage.index?

namespace Layout.Lists

variable {l : Layout} {xs : List Located} (h : l.Lists xs) (hnodup : (xs.map Located.id).Nodup)

include h hnodup

theorem routine?_eq {before after : List Located} {x : Located} (hx : xs = before ++ x :: after) :
    l.routine? x.decl =
      if x.isProcedure then some (1 + before.countP Located.isProcedure) else none := by
  obtain ⟨storage, hget, hindex⟩ := h.get? hnodup hx
  rw [Layout.routine?, show x.decl.head.id = x.id from rfl, hget]
  exact hindex

/-- Procedures that follow one another have numbers that follow one another. -/
theorem routines_eq {before ys after : List Located} (hxs : xs = before ++ ys ++ after) :
    (ys.map Located.decl).filterMap l.routine? =
      List.range' (1 + before.countP Located.isProcedure) (ys.countP Located.isProcedure) := by
  induction ys generalizing before with
  | nil => rfl
  | cons y ys ih =>
    have hy : xs = before ++ y :: (ys ++ after) := by
      rw [hxs, List.append_assoc]
      rfl
    have hys : xs = before ++ [y] ++ ys ++ after := by
      rw [hxs]
      simp
    have hrest := ih hys
    rw [List.countP_append, List.countP_singleton] at hrest
    rw [List.map_cons, List.filterMap_cons, routine?_eq h hnodup hy, hrest, List.countP_cons]
    by_cases hp : y.isProcedure = true
    · simp [hp, List.range'_succ, Nat.add_assoc]
    · simp [hp]

end Layout.Lists

end PLZero
