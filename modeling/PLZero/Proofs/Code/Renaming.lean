import PLZero.Proofs.Code.Building
import PLZero.Proofs.Tree.Renaming

/-!
# Code for renamed programs

Code is made from places of declarations, which are known by number.  The name of a declaration is
used once: procedures give their names to routines.

* `Dotted` — two names of routines whose parts are related.
* `Layout.Alike` — the layouts have the same places, and frames that differ in their names only.
* `Emit.Agree` — the same code is made, or none.
* `Program.agrees_generate` — the result for programs.
-/

namespace PLZero

variable {r : String → String → Prop}

/-- The faults are of one class. -/
def CodeFault.Same (f f' : CodeFault) : Prop := f.diagnostic.SameVariant f'.diagnostic

/-! ## Names of routines -/

/-- The two names have as many parts, joined by dots, and the parts are related by `r`. -/
def Dotted (r : String → String → Prop) (name name' : String) : Prop :=
  ∃ path path', path ≠ [] ∧ List.Forall₂ r path path' ∧
    name = ".".intercalate path ∧ name' = ".".intercalate path'

theorem Dotted.single {name name' : String} (h : r name name') : Dotted r name name' :=
  ⟨[name], [name'], by simp, .cons h .nil, by simp, by simp⟩

theorem Dotted.extend {outer other name renamed : String} (houter : Dotted r outer other)
    (h : r name renamed) : Dotted r s!"{outer}.{name}" s!"{other}.{renamed}" := by
  obtain ⟨path, path', hne, hpath, rfl, rfl⟩ := houter
  have hne' : path' ≠ [] := by
    intro hnil
    rw [hnil, List.forall₂_nil_right_iff] at hpath
    exact hne hpath
  refine ⟨path ++ [name], path' ++ [renamed], by simp, ?_, ?_, ?_⟩
  · exact List.rel_append hpath (.cons h .nil)
  · rw [String.intercalate_append_of_ne_nil hne (by simp), String.intercalate_singleton]
    rfl
  · rw [String.intercalate_append_of_ne_nil hne' (by simp), String.intercalate_singleton]
    rfl

theorem rel_getElem? {names names' : List String} (h : List.Forall₂ (Dotted r) names names')
    (k : Nat) : Option.Rel (Dotted r) names[k]? names'[k]? := by
  induction h generalizing k with
  | nil => exact .none
  | cons hname _ ih =>
    cases k with
    | zero => exact .some hname
    | succ k => exact ih k

/-- The names of the routines: the first is that of the program, the others have related parts. -/
inductive RoutineNames (r : String → String → Prop) : List String → List String → Prop where
  | main {names names' : List String} : List.Forall₂ (Dotted r) names names' →
      RoutineNames r ("main" :: names) ("main" :: names')

theorem RoutineNames.push {names names' : List String} {name name' : String}
    (h : RoutineNames r names names') (hname : Dotted r name name') :
    RoutineNames r (names ++ [name]) (names' ++ [name']) := by
  cases h with
  | main h => exact .main (List.rel_append h (.cons hname .nil))

/-! ## Layouts -/

namespace Layout

def names (l : Layout) : List String := l.frames.toList.map Frame.name

def locals (l : Layout) : List (List Ty) := l.frames.toList.map Frame.locals

structure Alike (r : String → String → Prop) (l l' : Layout) : Prop where
  entries : l'.entries = l.entries
  locals : l'.locals = l.locals
  names : RoutineNames r l.names l'.names

variable {l l' : Layout}

theorem alike_empty : Alike r Layout.empty Layout.empty := ⟨rfl, rfl, .main .nil⟩

theorem Alike.get? (h : l.Alike r l') (id : Nat) : l'.get? id = l.get? id := by
  rw [Layout.get?, Layout.get?, h.entries]

theorem Alike.size (h : l.Alike r l') : l'.frames.size = l.frames.size := by
  simpa [Layout.locals] using congrArg List.length h.locals

theorem routineName_eq (l : Layout) (index : Nat) (name : String) :
    l.routineName index name =
      if index = 0 then name
      else match l.names[index]? with
        | some outer => s!"{outer}.{name}"
        | none => name := by
  unfold routineName Layout.names
  rw [List.getElem?_map, Array.getElem?_toList]
  cases l.frames[index]? <;> rfl

theorem Alike.routineName (h : l.Alike r l') (index : Nat) {name name' : String}
    (hname : r name name') : Dotted r (l.routineName index name) (l'.routineName index name') := by
  rw [routineName_eq, routineName_eq]
  have hnames := h.names
  generalize l.names = names at hnames
  generalize l'.names = names' at hnames
  cases hnames with
  | @main rest rest' hrest =>
    cases index with
    | zero => exact .single hname -- a procedure of the program itself: `main` is no part of its name
    | succ k =>
      have houter := rel_getElem? hrest k
      rw [if_neg (Nat.succ_ne_zero k), if_neg (Nat.succ_ne_zero k), List.getElem?_cons_succ,
        List.getElem?_cons_succ]
      generalize rest[k]? = outer at houter
      generalize rest'[k]? = outer' at houter
      cases houter with
      | none => exact .single hname
      | some houter => exact houter.extend hname

/-- What is read off the frames changes with the frame that is changed. -/
theorem map_toList_modify {α : Type} (frames : Array Frame) (index : Nat) {g : Frame → α}
    {f : Frame → Frame} (f' : α → α) (h : ∀ frame, g (f frame) = f' (g frame)) :
    (frames.modify index f).toList.map g = (frames.toList.map g).modify index f' := by
  refine List.ext_getElem? fun i => ?_
  simp only [List.getElem?_map, Array.getElem?_toList, Array.getElem?_modify, List.getElem?_modify]
  by_cases hi : index = i
  · cases frames[i]? <;> simp [hi, h]
  · cases frames[i]? <;> simp [hi]

theorem names_addVariable (l : Layout) (index id nest : Nat) (ty : Ty) :
    (l.addVariable index id nest ty).names = l.names := by
  have hnames := map_toList_modify (g := Frame.name) l.frames index (fun name => name)
    (f := fun f => { f with locals := f.locals ++ [ty] }) fun _ => rfl
  rw [Layout.names, addVariable, hnames]
  exact List.modify_id ..

theorem locals_addVariable (l : Layout) (index id nest : Nat) (ty : Ty) :
    (l.addVariable index id nest ty).locals = l.locals.modify index (· ++ [ty]) :=
  map_toList_modify l.frames index (· ++ [ty]) fun _ => rfl

theorem entries_addVariable (l : Layout) (index id nest : Nat) (ty : Ty) :
    (l.addVariable index id nest ty).entries =
      (id, .variable ((l.locals[index]?.map List.length).getD 0) nest ty) :: l.entries := by
  simp only [addVariable, Layout.locals, List.getElem?_map, Array.getElem?_toList, Option.map_map]
  rfl

theorem Alike.addVariable (h : l.Alike r l') (index id nest : Nat) (ty : Ty) :
    (l.addVariable index id nest ty).Alike r (l'.addVariable index id nest ty) where
  entries := by rw [entries_addVariable, entries_addVariable, h.locals, h.entries]
  locals := by rw [locals_addVariable, locals_addVariable, h.locals]
  names := by
    rw [names_addVariable, names_addVariable]
    exact h.names

theorem Alike.addProcedure (h : l.Alike r l') (index id nest : Nat) {name name' : String}
    (hname : r name name') :
    (l.addProcedure index id nest name).Alike r (l'.addProcedure index id nest name') where
  entries := by simp only [Layout.addProcedure, h.entries, h.size]
  locals := by
    have hlocals := h.locals
    unfold Layout.locals at hlocals
    simp only [Layout.locals, Layout.addProcedure, Array.toList_push, List.map_append, hlocals,
      List.map_cons, List.map_nil]
  names := by
    simp only [Layout.names, Layout.addProcedure, Array.toList_push, List.map_append, List.map_cons,
      List.map_nil]
    exact h.names.push (h.routineName index hname)

theorem agrees_add (index : Nat) (h : l.Alike r l') {d d' : Decl} (hd : d.Renames r d') :
    Agrees CodeFault.Same (Alike r) (add index l d) (add index l' d') := by
  unfold add
  rw [hd.head.nest]
  cases d.head.nest with
  | none => exact .error rfl
  | some nest =>
    cases hd with
    | @const head head' value hhead =>
      refine .ok ⟨?_, h.locals, h.names⟩
      simp only [hhead.id, h.entries]
    | @var head head' hhead =>
      simp only [hhead.ty]
      cases head.ty with
      | none => exact .error rfl
      | some ty =>
        rw [hhead.id]
        exact .ok (h.addVariable index head.id nest ty)
    | @procedure head head' ds ds' s s' hhead _ _ =>
      dsimp only
      rw [hhead.id]
      exact .ok (h.addProcedure index head.id nest hhead.token)

theorem agrees_addAll (index : Nat) (h : l.Alike r l') {ds ds' : List Decl}
    (hds : Decl.RenamesList r ds ds') :
    Agrees CodeFault.Same (Alike r) (ds.foldlM (add index) l) (ds'.foldlM (add index) l') := by
  induction ds generalizing l l' ds' with
  | nil =>
    cases hds
    exact .ok h
  | cons d ds ih =>
    cases hds with
    | cons hd hds =>
      rw [List.foldlM_cons, List.foldlM_cons]
      exact (agrees_add index h hd).bind fun _ _ h => ih h hds

end Layout

mutual

theorem Decl.agrees_layOut {l l' : Layout} (h : l.Alike r l') {d d' : Decl} : d.Renames r d' →
    Agrees CodeFault.Same (Layout.Alike r) (d.layOut l) (d'.layOut l')
  | .const _ => .ok h
  | .var _ => .ok h
  | @Decl.Matches.procedure _ _ head _ _ _ _ _ hhead hds _ => by
    rw [Decl.layOut, Decl.layOut, hhead.id, h.get?]
    cases l.get? head.id with
    | none => exact .ok h
    | some storage =>
      cases storage with
      | constant => exact .ok h
      | «variable» => exact .ok h
      | routine index nest =>
        exact (Layout.agrees_addAll index h hds).bind fun _ _ h => Decl.agrees_layOutList h hds

theorem Decl.agrees_layOutList {l l' : Layout} (h : l.Alike r l') {ds ds' : List Decl} :
    Decl.RenamesList r ds ds' →
    Agrees CodeFault.Same (Layout.Alike r) (Decl.layOutList l ds) (Decl.layOutList l' ds')
  | .nil => .ok h
  | .cons hd hds => by
    rw [Decl.layOutList, Decl.layOutList]
    exact (Decl.agrees_layOut h hd).bind fun _ _ h => Decl.agrees_layOutList h hds

end

theorem Program.agrees_layout {p p' : Program} (h : p.Renames r p') :
    Agrees CodeFault.Same (Layout.Alike r) p.layout p'.layout :=
  (Layout.agrees_addAll 0 Layout.alike_empty h.block.decls).bind fun _ _ hl =>
    Decl.agrees_layOutList hl h.block.decls

/-! ## Making code -/

/-- With the same next label the two make the same, or neither makes anything. -/
def Emit.Agree {α : Type} (m m' : Emit α) : Prop := ∀ n, Agrees CodeFault.Same Eq (m n) (m' n)

namespace Emit

variable {α β : Type}

theorem Agree.refl (m : Emit α) : Agree m m := by
  intro n
  cases m n with
  | ok => exact .ok rfl
  | error => exact .error rfl

theorem Agree.bind {m m' : Emit α} {f f' : α → Emit β} (hm : Agree m m')
    (hf : ∀ a, Agree (f a) (f' a)) : Agree (m >>= f) (m' >>= f') := by
  refine fun n => (hm n).bind ?_
  rintro ⟨a, k⟩ _ rfl
  exact hf a k

theorem Agree.lift {x x' : Except CodeFault α} (h : Agrees CodeFault.Same Eq x x') :
    Agree (liftM x : Emit α) (liftM x') := by
  intro n
  cases h with
  | ok ha =>
    cases ha
    exact .ok rfl
  | error hfault => exact .error hfault

theorem Agree.throw (f f' : CodeFault) : Agree (throw f : Emit α) (throw f') :=
  fun _ => .error rfl

end Emit

section Names

variable {N T : Token → Token → Prop} {l l' : Layout} {ident ident' : Ident}

namespace Layout

theorem agrees_find (hl : l'.entries = l.entries) (h : ident.Matches N ident') :
    Agrees CodeFault.Same Eq (l.find ident) (l'.find ident') := by
  unfold find get?
  rw [h.decl, h.nest, hl]
  cases ident.decl with
  | none => exact .error rfl
  | some decl =>
    cases ident.nest with
    | none => exact .error rfl
    | some nest =>
      dsimp only
      cases l.entries.lookup decl with
      | none => exact .error rfl
      | some storage => exact .ok rfl

theorem agrees_distance (useNest declNest : Nat) :
    Agrees CodeFault.Same Eq (distance ident useNest declNest)
      (distance ident' useNest declNest) := by
  unfold distance
  split
  · exact .ok rfl
  · exact .error rfl

theorem agrees_loadInstr (hl : l'.entries = l.entries) (h : ident.Matches N ident') :
    Agrees CodeFault.Same Eq (l.loadInstr ident) (l'.loadInstr ident') := by
  refine (agrees_find hl h).bind_eq fun (storage, nest) => ?_
  cases storage with
  | constant value => exact .ok rfl
  | «variable» slot declNest _ =>
    exact (agrees_distance nest declNest).bind_eq fun _ => .ok rfl
  | routine => exact .error rfl

theorem agrees_storeInstr (hl : l'.entries = l.entries) (h : ident.Matches N ident') :
    Agrees CodeFault.Same Eq (l.storeInstr ident) (l'.storeInstr ident') := by
  refine (agrees_find hl h).bind_eq fun (storage, nest) => ?_
  cases storage with
  | «variable» slot declNest _ =>
    exact (agrees_distance nest declNest).bind_eq fun _ => .ok rfl
  | _ => exact .error rfl

theorem agrees_callInstr (hl : l'.entries = l.entries) (h : ident.Matches N ident') :
    Agrees CodeFault.Same Eq (l.callInstr ident) (l'.callInstr ident') := by
  refine (agrees_find hl h).bind_eq fun (storage, nest) => ?_
  cases storage with
  | routine index declNest =>
    exact (agrees_distance nest declNest).bind_eq fun _ => .ok rfl
  | _ => exact .error rfl

theorem agrees_readTy (hl : l'.entries = l.entries) (h : ident.Matches N ident')
    (stmt stmt' : Token) :
    Agrees CodeFault.Same Eq (l.readTy ident stmt) (l'.readTy ident' stmt') := by
  refine (agrees_find hl h).bind_eq fun (storage, nest) => ?_
  cases storage with
  | «variable» => exact .ok rfl
  | _ => exact .error rfl

end Layout

/-! ## Expressions -/

theorem Op.agree_code (op : Op) (operand : Ty) (line line' : Nat) :
    Emit.Agree (op.code operand line) (op.code operand line') := by
  unfold Op.code
  split
  · exact .throw _ _
  · exact .refl _
  · exact .refl _
  · split
    · exact .refl _
    · exact .throw _ _

namespace Expr

variable {e e' : Expr}

theorem agrees_demandTy (h : e.Matches N T e') :
    Agrees CodeFault.Same Eq e.demandTy e'.demandTy := by
  unfold demandTy
  rw [h.ty_eq]
  cases e.ty with
  | none => exact .error rfl
  | some ty => exact .ok rfl

theorem agree_code (hl : l'.entries = l.entries) (h : e.Matches N T e') :
    Emit.Agree (e.code l) (e'.code l') := by
  induction h with
  | literal ht =>
    exact (Emit.Agree.lift (agrees_demandTy (N := N) (.literal ht))).bind fun _ => .refl _
  | use hident =>
    refine (Emit.Agree.lift (agrees_demandTy (T := T) (.use hident))).bind fun _ => ?_
    exact (Emit.Agree.lift (Layout.agrees_loadInstr hl hident)).bind fun _ => .refl _
  | binary ht hlhs hrhs ihl ihr =>
    refine (Emit.Agree.lift (agrees_demandTy (.binary ht hlhs hrhs))).bind fun _ => ?_
    refine ihl.bind fun left => ihr.bind fun right => ?_
    refine (Emit.Agree.lift (agrees_demandTy hlhs)).bind fun operand => ?_
    exact (Op.agree_code _ operand _ _).bind fun _ => .refl _

theorem agree_guardCode (hl : l'.entries = l.entries) (h : e.Matches N T e') :
    Emit.Agree (e.guardCode l) (e'.guardCode l') := by
  refine (agree_code hl h).bind fun code => ?_
  refine (Emit.Agree.lift (agrees_demandTy h)).bind fun ty => ?_
  cases ty with
  | boolean => exact .refl _
  | _ => exact .throw _ _

end Expr

/-! ## Statements -/

mutual

theorem Stmt.agree_code (hl : l'.entries = l.entries) {s s' : Stmt} : s.Matches N T s' →
    Emit.Agree (s.code l) (s'.code l')
  | .assign htarget he =>
    (Expr.agree_code hl he).bind fun _ =>
      (Emit.Agree.lift (Layout.agrees_storeInstr hl htarget)).bind fun _ => .refl _
  | .call _ htarget =>
    (Emit.Agree.lift (Layout.agrees_callInstr hl htarget)).bind fun _ => .refl _
  | .input _ htarget =>
    (Emit.Agree.lift (Layout.agrees_readTy hl htarget _ _)).bind fun _ =>
      (Emit.Agree.lift (Layout.agrees_storeInstr hl htarget)).bind fun _ => .refl _
  | .output _ he =>
    (Expr.agree_code hl he).bind fun _ =>
      (Emit.Agree.lift (Expr.agrees_demandTy he)).bind fun _ => .refl _
  | .begin _ hss => Stmt.agree_codeList hl hss
  | .if _ hg hb =>
    (Emit.Agree.refl freshLabel).bind fun _ => (Expr.agree_guardCode hl hg).bind fun _ =>
      (Stmt.agree_code hl hb).bind fun _ => .refl _
  | .while _ hg hb =>
    (Emit.Agree.refl freshLabel).bind fun _ => (Emit.Agree.refl freshLabel).bind fun _ =>
      (Stmt.agree_code hl hb).bind fun _ => (Expr.agree_guardCode hl hg).bind fun _ => .refl _
  | .empty _ => .refl _

theorem Stmt.agree_codeList (hl : l'.entries = l.entries) {ss ss' : List Stmt} :
    Stmt.MatchesList N T ss ss' → Emit.Agree (Stmt.codeList l ss) (Stmt.codeList l' ss')
  | .nil => .refl _
  | .cons hs hss =>
    (Stmt.agree_code hl hs).bind fun _ => (Stmt.agree_codeList hl hss).bind fun _ => .refl _

end

/-! ## Routines -/

mutual

theorem Decl.agree_codes (hl : l'.entries = l.entries) {d d' : Decl} : d.Matches N T d' →
    Emit.Agree (d.codes l) (d'.codes l')
  | .const _ => .refl _
  | .var _ => .refl _
  | @Decl.Matches.procedure _ _ head _ _ _ _ _ hhead hds hs => by
    rw [Decl.codes, Decl.codes, Layout.get?, Layout.get?, hhead.id, hl]
    cases l.entries.lookup head.id with
    | none => exact .throw _ _
    | some storage =>
      cases storage with
      | routine index nest =>
        exact (Decl.agree_codesList hl hds).bind fun _ =>
          (Stmt.agree_code hl hs).bind fun _ => .refl _
      | _ => exact .throw _ _

theorem Decl.agree_codesList (hl : l'.entries = l.entries) {ds ds' : List Decl} :
    Decl.MatchesList N T ds ds' → Emit.Agree (Decl.codesList l ds) (Decl.codesList l' ds')
  | .nil => .refl _
  | .cons hd hds =>
    (Decl.agree_codes hl hd).bind fun _ => (Decl.agree_codesList hl hds).bind fun _ => .refl _

end

theorem Program.agree_codes (hl : l'.entries = l.entries) {p p' : Program}
    (h : p.Matches N T p') : Emit.Agree (p.codes l) (p'.codes l') :=
  (Decl.agree_codesList hl h.block.decls).bind fun _ =>
    (Stmt.agree_code hl h.block.stmt).bind fun _ => .refl _

end Names

/-! ## Units -/

/-- What a routine does, whatever its name. -/
def Routine.body (routine : Routine) : List Ty × List Instr := (routine.locals, routine.code)

/-- The units have the same routines in the same order, but for their names. -/
structure CodeUnit.Renames (r : String → String → Prop) (u u' : CodeUnit) : Prop where
  name : u'.name = u.name
  bodies : u'.routines.map Routine.body = u.routines.map Routine.body
  names : RoutineNames r (u.routines.map Routine.name) (u'.routines.map Routine.name)

/-- Frames with the same slots are put together with the same code. -/
theorem agrees_assemble (emitted : List (Nat × List Instr)) (index : Nat) {fs fs' : List Frame}
    (h : fs'.map Frame.locals = fs.map Frame.locals) :
    Agrees CodeFault.Same
      (fun rs rs' => rs'.map Routine.body = rs.map Routine.body ∧
        rs.map Routine.name = fs.map Frame.name ∧ rs'.map Routine.name = fs'.map Frame.name)
      (assemble emitted index fs) (assemble emitted index fs') := by
  induction fs generalizing index fs' with
  | nil =>
    obtain rfl := List.map_eq_nil_iff.mp h
    exact .ok ⟨rfl, rfl, rfl⟩
  | cons f fs ih =>
    cases fs' with
    | nil => simp at h
    | cons f' fs' =>
      simp only [List.map_cons, List.cons.injEq] at h
      rw [assemble, assemble]
      cases emitted.reverse.lookup index with
      | none => exact .error rfl
      | some code =>
        refine (ih (index + 1) h.2).bind fun rs rs' hrs => .ok ?_
        obtain ⟨hbodies, hnames, hnames'⟩ := hrs
        simp only [List.map_cons, Routine.body, h.1, hnames, hnames', hbodies, and_self]

theorem Program.agrees_generate {p p' : Program} (h : p.Renames r p') (name : String) :
    Agrees CodeFault.Same (CodeUnit.Renames r) (p.generate name) (p'.generate name) := by
  rw [generate_eq_assemble, generate_eq_assemble]
  cases UnitName.isValid name with
  | false => exact .error rfl
  | true =>
    refine (agrees_layout h).bind fun l l' hl => ?_
    have hrun := agree_codes hl.entries h 0
    have hemitted : Agrees CodeFault.Same Eq ((p.codes l).run' 0) ((p'.codes l').run' 0) :=
      hrun.map fun _ _ heq => congrArg Prod.fst heq
    refine hemitted.bind_eq fun emitted => ?_
    refine (agrees_assemble emitted 0 hl.locals).bind fun rs rs' hrs => .ok ?_
    obtain ⟨hbodies, hnames, hnames'⟩ := hrs
    refine ⟨rfl, hbodies, ?_⟩
    dsimp only
    rw [hnames, hnames']
    exact hl.names

end PLZero
