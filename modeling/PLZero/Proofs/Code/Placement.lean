import PLZero.Proofs.Code.Emission
import PLZero.Proofs.Scope.Bound
import PLZero.Proofs.Tree.Declarations

/-!
# Where the layout puts declarations

* `Layout.Fits` — the declarations of a block have the places that code for the block relies on: a
  constant its value, the `k`-th variable slot `k` of the routine of the block, a procedure a
  routine.
* `Program.placed_layout` — the layout of a program whose declarations have different numbers fits
  all its blocks, and no two procedures have one routine.

Adding a declaration puts one entry in front and changes one frame or adds one (`Layout.Added`);
everything else is an account of which numbers and which frames a part of the layout may touch
(`Layout.Extends`).
-/

namespace PLZero

/-- The head of a variable. -/
def Decl.varHead? : Decl → Option DeclHead
  | .var head => some head
  | _ => none

/-- The variables of a block, in order. -/
def Decl.varHeads (ds : List Decl) : List DeclHead := ds.filterMap Decl.varHead?

def Storage.index? : Storage → Option Nat
  | .routine index _ => some index
  | _ => none

namespace Layout

/-- The block `ds` of routine `r` is laid out, when the variables before it have the types
`before`. -/
structure Fits (l : Layout) (r : Nat) (before : List Ty) (ds : List Decl) : Prop where
  const : ∀ {head : DeclHead} {value : Value}, .const head value ∈ ds →
    l.get? head.id = some (.constant value)
  var : ∀ {k : Nat} {head : DeclHead}, (Decl.varHeads ds)[k]? = some head →
    ∃ nest ty, head.nest = some nest ∧ head.ty = some ty ∧
      l.get? head.id = some (.variable (before.length + k) nest ty)
  procedure : ∀ {head : DeclHead} {decls : List Decl} {stmt : Stmt},
    .procedure head decls stmt ∈ ds →
    ∃ index nest, head.nest = some nest ∧ l.get? head.id = some (.routine index nest)
  locals : ∃ frame, l.frames[r]? = some frame ∧
    frame.locals.map some = before.map some ++ (Decl.varHeads ds).map DeclHead.ty

/-- Each routine but that of the program belongs to one procedure. -/
structure Sound (l : Layout) : Prop where
  pos : 0 < l.frames.size
  bounds : ∀ index ∈ l.entries.filterMap (fun e => e.2.index?), 0 < index ∧ index < l.frames.size
  nodup : (l.entries.filterMap fun e => e.2.index?).Nodup

/-- From `l` to `l'` only the numbers in `ids` got places, and of the frames there were only those
in `rs` changed. -/
structure Extends (l : Layout) (ids rs : List Nat) (l' : Layout) : Prop where
  sound : l.Sound → l'.Sound
  get? : ∀ id ∉ ids, l'.get? id = l.get? id
  size : l.frames.size ≤ l'.frames.size
  frame : ∀ i < l.frames.size, i ∉ rs → l'.frames[i]? = l.frames[i]?

variable {l l' l'' : Layout} {r : Nat} {d : Decl}

/-! ## One declaration -/

/-- What a declaration of the block of routine `r` gets: its place, and the frames with it. -/
inductive Added (l : Layout) (r : Nat) : Decl → Storage → Array Frame → Prop where
  | const (head : DeclHead) (value : Value) :
      Added l r (.const head value) (.constant value) l.frames
  | var {head : DeclHead} {nest : Nat} {ty : Ty} : head.nest = some nest → head.ty = some ty →
      Added l r (.var head)
        (.variable ((l.frames[r]?.map fun f => f.locals.length).getD 0) nest ty)
        (l.frames.modify r fun f => { f with locals := f.locals ++ [ty] })
  | procedure {head : DeclHead} {nest : Nat} (decls : List Decl) (stmt : Stmt) :
      head.nest = some nest →
      Added l r (.procedure head decls stmt) (.routine l.frames.size nest)
        (l.frames.push ⟨l.routineName r head.name, []⟩)

theorem added_of_add (h : add r l d = .ok l') :
    ∃ storage frames, Added l r d storage frames ∧
      l' = ⟨(d.head.id, storage) :: l.entries, frames⟩ := by
  unfold add at h
  cases hnest : d.head.nest with
  | none => simp [hnest] at h
  | some nest =>
    simp only [hnest] at h
    cases d with
    | const head value => exact ⟨_, _, .const head value, (Except.ok.inj h).symm⟩
    | var head =>
      cases hty : head.ty with
      | none => simp [hty] at h
      | some ty =>
        simp only [hty] at h
        exact ⟨_, _, .var hnest hty, (Except.ok.inj h).symm⟩
    | procedure head decls stmt => exact ⟨_, _, .procedure decls stmt hnest, (Except.ok.inj h).symm⟩

theorem get?_cons (entry : Nat × Storage) (entries : List (Nat × Storage)) (frames : Array Frame)
    (id : Nat) :
    (⟨entry :: entries, frames⟩ : Layout).get? id =
      if id = entry.1 then some entry.2 else (⟨entries, frames⟩ : Layout).get? id := by
  obtain ⟨id', storage⟩ := entry
  simp only [get?, List.lookup_cons]
  cases h : id == id' with
  | true => simp [beq_iff_eq.mp h]
  | false => simp [beq_eq_false_iff_ne.mp h]

theorem mem_of_get? {id : Nat} {storage : Storage} (h : l.get? id = some storage) :
    (id, storage) ∈ l.entries := by
  obtain ⟨l₁, l₂, hl, -⟩ := List.lookup_eq_some_iff.mp h
  rw [hl]
  exact List.mem_append_right _ (List.mem_cons_self ..)

theorem Sound.lt_of_get? (h : l.Sound) {id index nest : Nat}
    (hid : l.get? id = some (.routine index nest)) : 0 < index ∧ index < l.frames.size :=
  h.bounds index (List.mem_filterMap.mpr ⟨_, mem_of_get? hid, rfl⟩)

/-- A routine has one entry. -/
theorem Sound.entry_eq (h : l.Sound) {e e' : Nat × Storage} {i : Nat} (he : e ∈ l.entries)
    (he' : e' ∈ l.entries) (hi : e.2.index? = some i) (hi' : e'.2.index? = some i) : e = e' := by
  obtain ⟨-, -, hnodup⟩ := h
  generalize l.entries = entries at he he' hnodup
  induction entries with
  | nil => cases he
  | cons entry entries ih =>
    have hindex {x : Nat × Storage} (hx : x ∈ entries) (hxi : x.2.index? = some i) :
        i ∈ entries.filterMap fun e => e.2.index? := List.mem_filterMap.mpr ⟨x, hx, hxi⟩
    rcases List.mem_cons.mp he with rfl | hin <;> rcases List.mem_cons.mp he' with heq | hin'
    · exact heq.symm
    · simp only [List.filterMap_cons, hi, List.nodup_cons] at hnodup
      exact absurd (hindex hin' hi') hnodup.1
    · subst heq
      simp only [List.filterMap_cons, hi', List.nodup_cons] at hnodup
      exact absurd (hindex hin hi) hnodup.1
    · refine ih hin hin' (hnodup.sublist ?_)
      exact (List.sublist_cons_self entry entries).filterMap _

/-- A routine belongs to one declaration. -/
theorem Sound.id_eq (h : l.Sound) {id id' index nest nest' : Nat}
    (hid : l.get? id = some (.routine index nest))
    (hid' : l.get? id' = some (.routine index nest')) :
    id = id' :=
  congrArg Prod.fst (h.entry_eq (mem_of_get? hid) (mem_of_get? hid') rfl rfl)

/-! ## The declarations of a block -/

theorem sound_add (hsound : l.Sound) (h : add r l d = .ok l') : l'.Sound := by
  obtain ⟨hpos, hbounds, hnodup⟩ := hsound
  obtain ⟨storage, frames, hadded, rfl⟩ := added_of_add h
  cases hadded with
  | const => exact ⟨hpos, hbounds, hnodup⟩
  | var =>
    refine ⟨by simpa using hpos, fun index hindex => ?_, hnodup⟩
    simpa using hbounds index hindex
  | procedure =>
    refine ⟨by simp, ?_, ?_⟩
    · simp only [List.filterMap_cons, Storage.index?, List.forall_mem_cons, Array.size_push]
      refine ⟨⟨hpos, Nat.lt_succ_self _⟩, fun index hindex => ?_⟩
      have := hbounds index hindex
      omega
    · simp only [List.filterMap_cons, Storage.index?, List.nodup_cons]
      refine ⟨fun hmem => ?_, hnodup⟩
      have := hbounds _ hmem
      omega

theorem Extends.refl (ids rs : List Nat) (l : Layout) : l.Extends ids rs l :=
  ⟨id, fun _ _ => rfl, Nat.le_refl _, fun _ _ _ => rfl⟩

theorem Extends.trans {ids ids' rs rs' : List Nat} (h : l.Extends ids rs l')
    (h' : l'.Extends ids' rs' l'') : l.Extends (ids ++ ids') (rs ++ rs') l'' := by
  refine ⟨h'.sound ∘ h.sound, fun id hid => ?_, Nat.le_trans h.size h'.size, fun i hi hrs => ?_⟩
  · rw [List.mem_append, not_or] at hid
    rw [h'.get? id hid.2, h.get? id hid.1]
  · rw [List.mem_append, not_or] at hrs
    rw [h'.frame i (Nat.lt_of_lt_of_le hi h.size) hrs.2, h.frame i hi hrs.1]

theorem Extends.mono {ids ids' rs rs' : List Nat} (h : l.Extends ids rs l')
    (hids : ∀ id ∈ ids, id ∈ ids') (hrs : ∀ i ∈ rs, i < l.frames.size → i ∈ rs') :
    l.Extends ids' rs' l' :=
  ⟨h.sound, fun id hid => h.get? id fun hmem => hid (hids id hmem), h.size,
    fun i hi hmem => h.frame i hi fun hrs' => hmem (hrs i hrs' hi)⟩

theorem extends_add (h : add r l d = .ok l') : l.Extends [d.head.id] [r] l' := by
  refine ⟨fun hsound => sound_add hsound h, ?_, ?_, ?_⟩ <;>
    obtain ⟨storage, frames, hadded, rfl⟩ := added_of_add h
  · intro id hid
    rw [get?_cons, if_neg (by simpa using hid)]
    rfl
  · cases hadded <;> simp
  · intro i hi hne
    rw [List.mem_singleton] at hne
    cases hadded with
    | const => rfl
    | var => simp [Array.getElem?_modify, Ne.symm hne]
    | procedure => simp [Array.getElem?_push, Nat.ne_of_lt hi]

theorem foldlM_cons {ds : List Decl} (h : (d :: ds).foldlM (add r) l = .ok l') :
    ∃ l₁, add r l d = .ok l₁ ∧ ds.foldlM (add r) l₁ = .ok l' := by
  rw [List.foldlM_cons] at h
  exact exists_of_bind_ok h

theorem extends_foldlM {ds : List Decl} (h : ds.foldlM (add r) l = .ok l') :
    l.Extends (Decl.ids ds) [r] l' := by
  induction ds generalizing l with
  | nil =>
    cases h
    exact .refl _ _ _
  | cons d ds ih =>
    obtain ⟨l₁, hadd, hrest⟩ := foldlM_cons h
    exact ((extends_add hadd).trans (ih hrest)).mono (fun id hid => hid) (by simp)

/-- A layout that agrees on the declarations of a block and on its frame fits the block as well. -/
theorem Fits.congr {before : List Ty} {ds : List Decl} (h : l.Fits r before ds)
    (hget : ∀ d ∈ ds, l'.get? d.head.id = l.get? d.head.id)
    (hframe : l'.frames[r]? = l.frames[r]?) :
    l'.Fits r before ds := by
  refine ⟨fun hmem => ?_, fun hk => ?_, fun hmem => ?_, ?_⟩
  · exact (hget _ hmem).trans (h.const hmem)
  · obtain ⟨nest, ty, hnest, hty, hplace⟩ := h.var hk
    obtain ⟨d, hd, hhead⟩ := List.mem_filterMap.mp (List.mem_of_getElem? hk)
    cases d with
    | var head =>
      cases hhead
      exact ⟨nest, ty, hnest, hty, (hget _ hd).trans hplace⟩
    | _ => cases hhead
  · obtain ⟨index, nest, hnest, hplace⟩ := h.procedure hmem
    exact ⟨index, nest, hnest, (hget _ hmem).trans hplace⟩
  · rw [hframe]
    exact h.locals

/-- Adding all declarations of a block places them one after the other. -/
theorem fits_foldlM {ds : List Decl} {frame : Frame} (h : ds.foldlM (add r) l = .ok l')
    (hnodup : (Decl.ids ds).Nodup) (hframe : l.frames[r]? = some frame) :
    l'.Fits r frame.locals ds := by
  induction ds generalizing l frame with
  | nil =>
    cases h
    exact ⟨by simp, by simp [Decl.varHeads], by simp, frame, hframe, by simp [Decl.varHeads]⟩
  | cons d ds ih =>
    obtain ⟨l₁, hadd, hrest⟩ := foldlM_cons h
    simp only [Decl.ids, List.map_cons, List.nodup_cons] at hnodup
    have hlt : r < l.frames.size := (Array.getElem?_eq_some_iff.mp hframe).1
    -- The places that the first declaration got stay, as no other one has its number.
    have hplace {storage : Storage} (hs : l₁.get? d.head.id = some storage) :
        l'.get? d.head.id = some storage :=
      ((extends_foldlM hrest).get? _ hnodup.1).trans hs
    obtain ⟨storage, frames, hadded, rfl⟩ := added_of_add hadd
    have hself := hplace (by rw [get?_cons, if_pos rfl])
    cases hadded with
    | const head value =>
      obtain ⟨hconst, hvar, hproc, hlocals⟩ := ih hrest hnodup.2 hframe
      refine ⟨fun hmem => ?_, hvar, fun hmem => ?_, hlocals⟩
      · rcases List.mem_cons.mp hmem with heq | hmem
        · cases heq
          exact hself
        · exact hconst hmem
      · exact hproc ((List.mem_cons.mp hmem).resolve_left (by simp))
    | @var head nest ty hnest hty =>
      have hframe₁ : (l.frames.modify r fun f => { f with locals := f.locals ++ [ty] })[r]? =
          some { frame with locals := frame.locals ++ [ty] } := by
        simp [Array.getElem?_modify, hframe]
      obtain ⟨hconst, hvar, hproc, frame', hframe', hlocals⟩ := ih hrest hnodup.2 hframe₁
      refine ⟨fun hmem => ?_, fun {k} _ hk => ?_, fun hmem => ?_, frame', hframe', ?_⟩
      · exact hconst ((List.mem_cons.mp hmem).resolve_left (by simp))
      · cases k with
        | zero =>
          cases hk
          refine ⟨nest, ty, hnest, hty, ?_⟩
          simp only [hframe, Option.map_some, Option.getD_some] at hself
          exact hself
        | succ k =>
          obtain ⟨nest, ty, hnest, hty, hplace⟩ := hvar hk
          refine ⟨nest, ty, hnest, hty, hplace.trans ?_⟩
          rw [List.length_append, List.length_singleton, Nat.add_assoc, Nat.add_comm 1 k]
      · exact hproc ((List.mem_cons.mp hmem).resolve_left (by simp))
      · rw [hlocals]
        simp [Decl.varHeads, Decl.varHead?, hty]
    | @procedure head nest decls stmt hnest =>
      have hframe₁ : (l.frames.push ⟨l.routineName r head.name, []⟩)[r]? = some frame := by
        simp [Array.getElem?_push, Nat.ne_of_lt hlt, hframe]
      obtain ⟨hconst, hvar, hproc, hlocals⟩ := ih hrest hnodup.2 hframe₁
      refine ⟨fun hmem => ?_, hvar, fun hmem => ?_, hlocals⟩
      · exact hconst ((List.mem_cons.mp hmem).resolve_left (by simp))
      · rcases List.mem_cons.mp hmem with heq | hmem
        · cases heq
          exact ⟨_, nest, hnest, hself⟩
        · exact hproc hmem

/-- The routine of a procedure is number `n` or later, and has no slots yet. -/
def Ready (l : Layout) (n : Nat) (d : Decl) : Prop :=
  ∀ head decls stmt, d = .procedure head decls stmt →
    ∃ index nest frame, l.get? head.id = some (.routine index nest) ∧ n ≤ index ∧
      l.frames[index]? = some frame ∧ frame.locals = []

theorem ready_foldlM {ds : List Decl} {n : Nat} (h : ds.foldlM (add r) l = .ok l')
    (hnodup : (Decl.ids ds).Nodup) (hlt : r < l.frames.size) (hn : n ≤ l.frames.size) :
    ∀ d ∈ ds, l'.Ready n d := by
  induction ds generalizing l with
  | nil => simp
  | cons d ds ih =>
    obtain ⟨l₁, hadd, hrest⟩ := foldlM_cons h
    simp only [Decl.ids, List.map_cons, List.nodup_cons] at hnodup
    have hextends := extends_foldlM hrest
    have hsize := (extends_add hadd).size
    rw [List.forall_mem_cons]
    refine ⟨?_, ih hrest hnodup.2 (Nat.lt_of_lt_of_le hlt hsize) (Nat.le_trans hn hsize)⟩
    rintro head decls stmt rfl
    have hget := hextends.get? _ hnodup.1
    obtain ⟨storage, frames, hadded, rfl⟩ := added_of_add hadd
    cases hadded with
    | @procedure _ nest _ _ hnest =>
      refine ⟨l.frames.size, nest, ⟨l.routineName r head.name, []⟩, ?_, hn, ?_, rfl⟩
      · rw [show head.id = (Decl.procedure head decls stmt).head.id from rfl, hget, get?_cons,
          if_pos rfl]
      · rw [hextends.frame l.frames.size (by simp) (by simpa using Nat.ne_of_gt hlt)]
        simp

end Layout

/-! ## Nested blocks -/

namespace Decl

/-- The numbers of what is declared inside a declaration. -/
def inside : Decl → List Nat
  | .procedure _ decls _ => ids (subtrees decls)
  | _ => []

theorem ids_subtree (d : Decl) : ids d.subtree = d.head.id :: d.inside := by
  cases d <;> rfl

theorem ids_subtrees_cons (d : Decl) (ds : List Decl) :
    ids (subtrees (d :: ds)) = d.head.id :: d.inside ++ ids (subtrees ds) := by
  rw [← ids_subtree, subtrees, ids, List.map_append]
  rfl

theorem ids_subtrees_perm (ds : List Decl) :
    (ids (subtrees ds)).Perm (ids ds ++ ds.flatMap inside) := by
  induction ds with
  | nil => exact .refl _
  | cons d ds ih =>
    rw [ids_subtrees_cons, List.flatMap_cons]
    refine .cons _ ?_
    calc d.inside ++ ids (subtrees ds)
      _ |>.Perm (d.inside ++ (ids ds ++ ds.flatMap inside)) := ih.append_left _
      _ |>.Perm (ids ds ++ (d.inside ++ ds.flatMap inside)) := by
        rw [← List.append_assoc, ← List.append_assoc]
        exact List.perm_append_comm.append_right _

/-- The declarations of a block have different numbers, and none that is used inside them. -/
theorem nodup_ids {ds : List Decl} (h : (ids (subtrees ds)).Nodup) :
    (ids ds).Nodup ∧ ∀ id ∈ ids ds, id ∉ ds.flatMap inside := by
  obtain ⟨hids, -, hdisjoint⟩ := List.nodup_append.mp ((ids_subtrees_perm ds).nodup_iff.mp h)
  exact ⟨hids, fun id hid hmem => hdisjoint id hid id hmem rfl⟩

end Decl

/-- If the declaration is a procedure, its block is laid out for its routine. -/
def Layout.Places (l : Layout) (d : Decl) : Prop :=
  ∀ head decls stmt, d = .procedure head decls stmt →
    ∃ r nest, l.get? head.id = some (.routine r nest) ∧ l.Fits r [] decls

/-- A block stays laid out when other declarations are added. -/
theorem Layout.Places.extend {l l' : Layout} {ids rs : List Nat} {d : Decl} (h : l.Places d)
    (hext : l.Extends ids rs l') (hids : ∀ id ∈ Decl.ids d.subtree, id ∉ ids)
    (hrs : ∀ r nest, l.get? d.head.id = some (.routine r nest) → r ∉ rs) : l'.Places d := by
  rintro head decls stmt rfl
  obtain ⟨r, nest, hget, hfits⟩ := h _ _ _ rfl
  obtain ⟨frame, hframe, _⟩ := hfits.locals
  refine ⟨r, nest, (hext.get? _ (hids _ ?_)).trans hget, hfits.congr (fun d hd => ?_) ?_⟩
  · exact List.mem_cons_self ..
  · refine hext.get? _ (hids _ (List.mem_cons_of_mem _ ?_))
    exact List.mem_map_of_mem (Decl.mem_subtrees hd)
  · exact hext.frame r (Array.getElem?_eq_some_iff.mp hframe).1 (hrs r nest hget)

namespace Decl

theorem ids_subtree_subset : (d : Decl) → ∀ x ∈ d.subtree, ∀ id ∈ ids x.subtree, id ∈ ids d.subtree
  | .const .., x, hx, id, hid | .var _, x, hx, id, hid => by
    rwa [List.mem_singleton.mp hx] at hid
  | .procedure head decls stmt, x, hx, id, hid => by
    rw [ids_subtree, List.mem_cons] at hid
    rcases hid with rfl | hid
    · exact List.mem_map_of_mem hx
    · cases x with
      | procedure => exact ((subtree_sublist _ hx).map _).subset hid
      | _ => cases hid

theorem layOutList_cons {l l' : Layout} {d : Decl} {ds : List Decl}
    (h : layOutList l (d :: ds) = .ok l') :
    ∃ l₁, d.layOut l = .ok l₁ ∧ layOutList l₁ ds = .ok l' := by
  rw [layOutList] at h
  exact exists_of_bind_ok h

theorem layOut_procedure {l l' : Layout} {head : DeclHead} {decls : List Decl} {stmt : Stmt}
    {index nest : Nat} (h : (Decl.procedure head decls stmt).layOut l = .ok l')
    (hget : l.get? head.id = some (.routine index nest)) :
    ∃ l₁, decls.foldlM (Layout.add index) l = .ok l₁ ∧ layOutList l₁ decls = .ok l' := by
  simp only [layOut, hget] at h
  exact exists_of_bind_ok h

/-- A block that has been laid out is still so when its procedures have been. -/
theorem fits_block {l l₁ l' : Layout} {ds : List Decl} {r : Nat} {frame : Frame} {rs : List Nat}
    (hnodup : (ids (subtrees ds)).Nodup) (hframe : l.frames[r]? = some frame)
    (h : ds.foldlM (Layout.add r) l = .ok l₁) (hext : l₁.Extends (ds.flatMap inside) rs l')
    (hr : r ∉ rs) : l'.Fits r frame.locals ds := by
  obtain ⟨hids, hinside⟩ := nodup_ids hnodup
  have hlt : r < l₁.frames.size :=
    Nat.lt_of_lt_of_le (Array.getElem?_eq_some_iff.mp hframe).1 (Layout.extends_foldlM h).size
  refine (Layout.fits_foldlM h hids hframe).congr (fun d hd => ?_) (hext.frame r hlt hr)
  exact hext.get? _ (hinside _ (List.mem_map_of_mem hd))

/-- `r` is the routine of a procedure among the declarations. -/
def HasRoutine (l : Layout) (ds : List Decl) (r : Nat) : Prop :=
  ∃ head decls stmt nest, .procedure head decls stmt ∈ ds ∧ l.get? head.id = some (.routine r nest)

mutual

theorem placed_layOut {n : Nat} : (d : Decl) → {l l' : Layout} → d.layOut l = .ok l' → l.Sound →
    (ids d.subtree).Nodup → l.Ready n d →
    (∀ x ∈ d.subtree, l'.Places x) ∧ ∃ rs, (∀ r ∈ rs, HasRoutine l [d] r) ∧ l.Extends d.inside rs l'
  | .const .., l, l', h, _, _, _ | .var _, l, l', h, _, _, _ => by
    cases h
    refine ⟨fun x hx => ?_, [], by simp, .refl _ _ l⟩
    rw [List.mem_singleton.mp hx]
    exact fun _ _ _ heq => nomatch heq
  | .procedure head decls stmt, l, l', h, hsound, hnodup, hready => by
    obtain ⟨index, nest, frame, hget, -, hframe, hlocals⟩ := hready _ _ _ rfl
    obtain ⟨l₁, hfold, hlist⟩ := layOut_procedure h hget
    rw [ids_subtree, List.nodup_cons] at hnodup
    obtain ⟨hfresh, hnodup⟩ := hnodup
    have hids := (nodup_ids hnodup).1
    have hsub : ∀ id ∈ ids decls ++ decls.flatMap inside, id ∈ ids (subtrees decls) :=
      fun id hid => (ids_subtrees_perm decls).mem_iff.mpr hid
    have hext₁ := Layout.extends_foldlM hfold
    have hsound₁ := hext₁.sound hsound
    have hlt : index < l.frames.size := (Array.getElem?_eq_some_iff.mp hframe).1
    obtain ⟨hplaced, rs, hrs, hext₂⟩ := placedList_layOut decls hlist hsound₁ hnodup
      (Layout.ready_foldlM hfold hids hlt (Nat.le_refl _))
    have hget₁ : l₁.get? head.id = some (.routine index nest) :=
      (hext₁.get? _ fun hmem => hfresh (hsub _ (List.mem_append_left _ hmem))).trans hget
    have hget' : l'.get? head.id = some (.routine index nest) :=
      (hext₂.get? _ fun hmem => hfresh (hsub _ (List.mem_append_right _ hmem))).trans hget₁
    -- The routines that come later are not that of the block: they belong to other declarations.
    have hother : index ∉ rs := by
      intro hmem
      obtain ⟨head', decls', stmt', nest', hmem', hrout⟩ := hrs index hmem
      refine hfresh (hsub _ (List.mem_append_left _ ?_))
      rw [show (Decl.procedure head decls stmt).head.id = head'.id from hsound₁.id_eq hget₁ hrout]
      exact List.mem_map_of_mem hmem'
    have hfits := fits_block hnodup hframe hfold hext₂ hother
    rw [hlocals] at hfits
    refine ⟨List.forall_mem_cons.mpr ⟨?_, hplaced⟩, [index], ?_, ?_⟩
    · rintro _ _ _ ⟨⟩
      exact ⟨index, nest, hget', hfits⟩
    · intro r hr
      rw [List.mem_singleton.mp hr]
      exact ⟨head, decls, stmt, nest, List.mem_singleton_self _, hget⟩
    · refine (hext₁.trans hext₂).mono hsub fun r hr hlt' => ?_
      rcases List.mem_append.mp hr with hr | hr
      · exact hr
      · obtain ⟨head', decls', stmt', nest', hmem', hrout⟩ := hrs r hr
        obtain ⟨index', nest'', -, hget'', hle, -⟩ :=
          Layout.ready_foldlM hfold hids hlt (Nat.le_refl _) _ hmem' _ _ _ rfl
        rw [hrout] at hget''
        cases hget''
        omega

theorem placedList_layOut {n : Nat} :
    (ds : List Decl) → {l l' : Layout} → layOutList l ds = .ok l' →
    l.Sound → (ids (subtrees ds)).Nodup → (∀ d ∈ ds, l.Ready n d) →
    (∀ x ∈ subtrees ds, l'.Places x) ∧
      ∃ rs, (∀ r ∈ rs, HasRoutine l ds r) ∧ l.Extends (ds.flatMap inside) rs l'
  | [], l, l', h, _, _, _ => by
    cases h
    exact ⟨by simp [subtrees], [], by simp, .refl _ _ l⟩
  | d :: ds, l, l', h, hsound, hnodup, hready => by
    obtain ⟨l₁, hd, hds⟩ := layOutList_cons h
    rw [ids_subtrees_cons, ← ids_subtree] at hnodup
    obtain ⟨hnd, hnds, hdisjoint⟩ := List.nodup_append.mp hnodup
    rw [List.forall_mem_cons] at hready
    obtain ⟨hplaced, rs, hrs, hext₁⟩ := placed_layOut d hd hsound hnd hready.1
    have hinside : ∀ id ∈ d.inside, id ∈ ids d.subtree := fun id hid => by
      rw [ids_subtree]
      exact List.mem_cons_of_mem _ hid
    have hself : d.head.id ∈ ids d.subtree := List.mem_map_of_mem d.mem_subtree_self
    have hmem {x : Decl} (hx : x ∈ ds) : x.head.id ∈ ids (subtrees ds) :=
      List.mem_map_of_mem (mem_subtrees hx)
    have hget {x : Decl} (hx : x ∈ ds) : l₁.get? x.head.id = l.get? x.head.id :=
      hext₁.get? _ fun hid => hdisjoint _ (hinside _ hid) _ (hmem hx) rfl
    have hready₁ : ∀ x ∈ ds, l₁.Ready n x := by
      rintro x hx head decls stmt rfl
      obtain ⟨index, nest, frame, hplace, hle, hframe, hlocals⟩ := hready.2 _ hx _ _ _ rfl
      refine ⟨index, nest, frame, (hget hx).trans hplace, hle, ?_, hlocals⟩
      rw [hext₁.frame index (Array.getElem?_eq_some_iff.mp hframe).1 fun hr => ?_, hframe]
      obtain ⟨head', decls', stmt', nest', hd', hrout⟩ := hrs index hr
      obtain rfl := List.mem_singleton.mp hd'
      exact hdisjoint _ hself _ (hmem hx) (hsound.id_eq hrout hplace)
    obtain ⟨hplaceds, rs', hrs', hext₂⟩ :=
      placedList_layOut ds hds (hext₁.sound hsound) hnds hready₁
    have hsub : ∀ id ∈ ds.flatMap inside, id ∈ ids (subtrees ds) := fun id hid =>
      (ids_subtrees_perm ds).mem_iff.mpr (List.mem_append_right _ hid)
    refine ⟨List.forall_mem_append.mpr ⟨fun x hx => ?_, hplaceds⟩, rs ++ rs', ?_, hext₁.trans hext₂⟩
    · refine (hplaced x hx).extend hext₂ (fun id hid hid' => ?_) fun r nest hr hmem' => ?_
      · exact hdisjoint _ (ids_subtree_subset d x hx id hid) _ (hsub _ hid') rfl
      · obtain ⟨head', decls', stmt', nest', hd', hrout⟩ := hrs' r hmem'
        exact hdisjoint _ (List.mem_map_of_mem hx) _ (hmem hd')
          ((hext₁.sound hsound).id_eq hr hrout)
    · intro r hr
      rcases List.mem_append.mp hr with hr | hr
      · obtain ⟨head', decls', stmt', nest', hd', hrout⟩ := hrs r hr
        exact ⟨head', decls', stmt', nest', List.mem_singleton.mp hd' ▸ List.mem_cons_self ..,
          hrout⟩
      · obtain ⟨head', decls', stmt', nest', hd', hrout⟩ := hrs' r hr
        exact ⟨head', decls', stmt', nest', List.mem_cons_of_mem _ hd', (hget hd').symm.trans hrout⟩

end

end Decl

theorem Layout.sound_empty : Layout.empty.Sound := ⟨by decide, by simp [empty], by simp [empty]⟩

/-- The layout of a program fits all its blocks. -/
structure Program.Placed (p : Program) (l : Layout) : Prop where
  sound : l.Sound
  main : l.Fits 0 [] p.block.decls
  procedures : ∀ d ∈ p.declarations, l.Places d

/-- **The layout puts every declaration where the code for it looks.** -/
theorem Program.placed_layout {p : Program} {l : Layout} (h : p.layout = .ok l)
    (hnodup : (Decl.ids p.declarations).Nodup) : p.Placed l := by
  obtain ⟨l₁, hfold, hlist⟩ := exists_of_bind_ok h
  have hids := (Decl.nodup_ids hnodup).1
  have hsound₁ := (Layout.extends_foldlM hfold).sound Layout.sound_empty
  obtain ⟨hplaced, rs, hrs, hext₂⟩ := Decl.placedList_layOut p.block.decls hlist hsound₁ hnodup
    (Layout.ready_foldlM hfold hids (Nat.zero_lt_one) (Nat.le_refl _))
  refine ⟨hext₂.sound hsound₁, Decl.fits_block hnodup rfl hfold hext₂ fun hr => ?_, hplaced⟩
  obtain ⟨head, decls, stmt, nest, -, hget⟩ := hrs 0 hr
  exact absurd (hsound₁.lt_of_get? hget).1 (Nat.lt_irrefl 0)

end PLZero
