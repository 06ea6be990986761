import Mathlib.Data.List.Nodup
import PLZero.Proofs.Code.Placement
import PLZero.Proofs.Machine.Instructions

/-!
# Environments and activations

The layers of an environment live in the activations on a static chain.

* `Represents` — the activations of a chain hold the values of the layers, and each has a link to
  the next.
* `Moved` — what a statement may do to the activations: values change on the chain alone, and where
  an activation other than the current one goes on stays the same.
* `Represents.assign`, `Represents.enter`, `Represents.leave` — assignments, calls and returns on
  both sides.
-/

namespace PLZero

/-- The activation holds the variables of the layer, in order, with values of their types. -/
structure Activation.Stores (a : Activation) (layer : Layer) : Prop where
  locals : a.locals.toList = (Decl.varHeads layer.decls).map fun head => layer.vars head.id
  typed : ∀ head ∈ Decl.varHeads layer.decls, head.ty = some (layer.vars head.id).ty

/-- The activations with the indices `is` hold the layers; each is linked to the next, which is
older. -/
inductive Represents (fs : Array Activation) : List Nat → Env → Prop where
  | nil : Represents fs [] []
  | cons {i : Nat} {is : List Nat} {layer : Layer} {env : Env} {a : Activation} : fs[i]? = some a →
      a.link = is.head? → a.Stores layer → (∀ j ∈ is, j < i) → Represents fs is env →
      Represents fs (i :: is) (layer :: env)

/-- The activation `i` has the same link and the same values in both. -/
def SameAt (fs fs' : Array Activation) (i : Nat) : Prop :=
  ∀ a, fs[i]? = some a → ∃ a', fs'[i]? = some a' ∧ a'.link = a.link ∧ a'.locals = a.locals

/-- From `fs` to `fs'` only the values on the chain `is` and the position of the current activation
changed. -/
structure Moved (is : List Nat) (fs fs' : Array Activation) : Prop where
  size : fs'.size = fs.size
  frame : ∀ i a, fs[i]? = some a → ∃ a', fs'[i]? = some a' ∧ a'.routine = a.routine ∧
    a'.link = a.link ∧ (i + 1 < fs.size → a'.pc = a.pc) ∧ (i ∉ is → a'.locals = a.locals)

variable {fs fs' fs'' : Array Activation} {is is' : List Nat} {env env' inner : Env}

/-! ## What changes -/

theorem Moved.refl (is : List Nat) (fs : Array Activation) : Moved is fs fs :=
  ⟨rfl, fun _ a h => ⟨a, h, rfl, rfl, fun _ => rfl, fun _ => rfl⟩⟩

theorem Moved.trans (h : Moved is fs fs') (h' : Moved is fs' fs'') : Moved is fs fs'' := by
  refine ⟨h'.size.trans h.size, fun i a ha => ?_⟩
  obtain ⟨a', ha', hr, hl, hpc, hloc⟩ := h.frame i a ha
  obtain ⟨a'', ha'', hr', hl', hpc', hloc'⟩ := h'.frame i a' ha'
  rw [h.size] at hpc'
  exact ⟨a'', ha'', hr'.trans hr, hl'.trans hl, fun hi => (hpc' hi).trans (hpc hi),
    fun hi => (hloc' hi).trans (hloc hi)⟩

theorem Moved.sameAt (h : Moved is fs fs') {i : Nat} (hi : i ∉ is) : SameAt fs fs' i := by
  intro a ha
  obtain ⟨a', ha', -, hl, -, hloc⟩ := h.frame i a ha
  exact ⟨a', ha', hl, hloc hi⟩

theorem getElem?_withPc (fs : Array Activation) (pc i : Nat) :
    (withPc fs pc)[i]? =
      if i + 1 = fs.size then fs[i]?.map fun a => { a with pc := pc } else fs[i]? := by
  rw [withPc, Array.getElem?_modify]
  by_cases hi : i < fs.size
  · by_cases h : i + 1 = fs.size
    · rw [if_pos h, if_pos (by omega)]
    · rw [if_neg h, if_neg (by omega)]
  · rw [Array.getElem?_eq_none (by omega)]
    simp

theorem sameAt_withPc (fs : Array Activation) (pc i : Nat) : SameAt fs (withPc fs pc) i := by
  intro a ha
  rw [getElem?_withPc]
  split
  · exact ⟨{ a with pc := pc }, by rw [ha]; rfl, rfl, rfl⟩
  · exact ⟨a, ha, rfl, rfl⟩

theorem sameAt_push {i : Nat} (a : Activation) : SameAt fs (fs.push a) i := by
  intro x hx
  have hi := (Array.getElem?_eq_some_iff.mp hx).1
  exact ⟨x, by rw [Array.getElem?_push, if_neg (by omega), hx], rfl, rfl⟩

theorem sameAt_pop {i : Nat} (hi : i + 1 < fs.size) : SameAt fs fs.pop i := by
  intro x hx
  exact ⟨x, by rw [Array.getElem?_pop, if_pos (by omega), hx], rfl, rfl⟩

/-! ## Chains -/

namespace Represents

theorem lt_size (h : Represents fs is env) : ∀ i ∈ is, i < fs.size := by
  induction h with
  | nil => simp
  | cons ha _ _ _ _ ih =>
    rw [List.forall_mem_cons]
    exact ⟨(Array.getElem?_eq_some_iff.mp ha).1, ih⟩

theorem congr (h : Represents fs is env) (hsame : ∀ i ∈ is, SameAt fs fs' i) :
    Represents fs' is env := by
  induction h with
  | nil => exact .nil
  | cons ha hlink hstores hlt _ ih =>
    rw [List.forall_mem_cons] at hsame
    obtain ⟨a', ha', hlink', hlocals⟩ := hsame.1 _ ha
    refine .cons ha' (hlink'.trans hlink) ⟨?_, hstores.typed⟩ hlt (ih hsame.2)
    rw [hlocals, hstores.locals]

theorem withPc (h : Represents fs is env) (pc : Nat) : Represents (withPc fs pc) is env :=
  h.congr fun i _ => sameAt_withPc fs pc i

/-- Following links from the head of the chain leads along the chain. -/
theorem follow_eq (h : Represents fs is env) {up i j : Nat} (hi : is.head? = some i)
    (hj : is[up]? = some j) : follow fs up i = some j := by
  induction up generalizing is env i with
  | zero =>
    rw [List.head?_eq_getElem?, hj] at hi
    rw [follow, Option.some.inj hi]
  | succ up ih =>
    cases h with
    | nil => cases hi
    | @cons i' is layer env a ha hlink _ _ hrest =>
      cases hi
      rw [List.getElem?_cons_succ] at hj
      cases is with
      | nil => cases hj
      | cons k is => simp [follow, ha, hlink, ih hrest rfl hj]

theorem split (h : Represents fs is (inner ++ env)) :
    ∃ is₁ is₂, is = is₁ ++ is₂ ∧ is₁.length = inner.length ∧ (∀ i ∈ is₁, ∀ j ∈ is₂, j < i) ∧
      Represents fs is₂ env := by
  induction inner generalizing is with
  | nil => exact ⟨[], is, rfl, rfl, by simp, h⟩
  | cons layer inner ih =>
    cases h with
    | cons ha hlink hstores hlt hrest =>
      obtain ⟨is₁, is₂, rfl, hlength, hlt', hrep⟩ := ih hrest
      refine ⟨_ :: is₁, is₂, rfl, congrArg (· + 1) hlength, ?_, hrep⟩
      rw [List.forall_mem_cons]
      exact ⟨fun j hj => hlt j (List.mem_append_right _ hj), hlt'⟩

/-- The outer part of a chain may be replaced. -/
theorem join {is₁ is₂ : List Nat} (h : Represents fs (is₁ ++ is₂) (inner ++ env))
    (hlength : is₁.length = inner.length) (hsame : ∀ i ∈ is₁, SameAt fs fs' i)
    (h' : Represents fs' is₂ env') : Represents fs' (is₁ ++ is₂) (inner ++ env') := by
  induction inner generalizing is₁ with
  | nil =>
    rw [List.length_eq_zero_iff.mp hlength]
    exact h'
  | cons layer inner ih =>
    cases is₁ with
    | nil => cases hlength
    | cons i is₁ =>
      rw [List.forall_mem_cons] at hsame
      cases h with
      | cons ha hlink hstores hlt hrest =>
        obtain ⟨a', ha', hlink', hlocals⟩ := hsame.1 _ ha
        refine .cons ha' (hlink'.trans hlink) ⟨?_, hstores.typed⟩ hlt
          (ih hrest (Nat.succ.inj hlength) hsame.2)
        rw [hlocals, hstores.locals]

end Represents

/-! ## Assignments -/

/-- Slot `slot` of activation `i` gets the value. -/
def setSlot (fs : Array Activation) (i slot : Nat) (v : Value) : Array Activation :=
  fs.modify i fun a => { a with locals := a.locals.setIfInBounds slot v }

theorem setSlot_withPc (fs : Array Activation) (i slot pc : Nat) (v : Value) :
    setSlot (withPc fs pc) i slot v = withPc (setSlot fs i slot v) pc := by
  apply Array.ext_getElem?
  intro j
  simp only [setSlot, Array.getElem?_modify, getElem?_withPc, Array.size_modify]
  by_cases hi : i = j <;> by_cases hj : j + 1 = fs.size <;> simp [hi, hj, Function.comp_def]

theorem moved_setSlot {i : Nat} (hi : i ∈ is) (slot : Nat) (v : Value) :
    Moved is fs (setSlot fs i slot v) := by
  refine ⟨by simp [setSlot], fun j a ha => ?_⟩
  by_cases h : i = j
  · subst h
    exact ⟨{ a with locals := a.locals.setIfInBounds slot v },
      by simp [setSlot, Array.getElem?_modify, ha],
      rfl, rfl, fun _ => rfl, fun hnot => absurd hi hnot⟩
  · exact ⟨a, by simp [setSlot, Array.getElem?_modify, h, ha], rfl, rfl, fun _ => rfl, fun _ => rfl⟩

/-- The slots of a block after an assignment to its `k`-th variable. -/
theorem map_set_vars {heads : List DeclHead} {k : Nat} {head : DeclHead} (vars : Nat → Value)
    (v : Value) (hnodup : (heads.map DeclHead.id).Nodup) (hk : heads[k]? = some head) :
    (heads.map fun h => vars h.id).set k v =
      heads.map fun h => if h.id = head.id then v else vars h.id := by
  apply List.ext_getElem?
  intro j
  rw [List.getElem?_set, List.getElem?_map, List.getElem?_map]
  by_cases hjk : k = j
  · subst hjk
    rw [if_pos rfl, if_pos (by simpa using (List.getElem?_eq_some_iff.mp hk).1), hk]
    simp
  · rw [if_neg hjk]
    cases hj : heads[j]? with
    | none => rfl
    | some h =>
      have hne : h.id ≠ head.id := by
        intro heq
        have hj' : (heads.map DeclHead.id)[j]? = some h.id := by simp [hj]
        have hk' : (heads.map DeclHead.id)[k]? = some h.id := by simp [hk, heq]
        exact hjk ((List.getElem?_inj (List.getElem?_eq_some_iff.mp hk').1 hnodup).mp
          (hk'.trans hj'.symm))
      simp [hne]

theorem Activation.Stores.set {a : Activation} {layer : Layer} {k : Nat} {head : DeclHead}
    {v : Value} (h : a.Stores layer) (hnodup : ((Decl.varHeads layer.decls).map DeclHead.id).Nodup)
    (hk : (Decl.varHeads layer.decls)[k]? = some head) (hv : head.ty = some v.ty) :
    { a with locals := a.locals.setIfInBounds k v : Activation }.Stores (layer.set head.id v) := by
  refine ⟨?_, fun h' hh' => ?_⟩
  · rw [Array.toList_setIfInBounds, h.locals]
    exact map_set_vars layer.vars v hnodup hk
  · simp only [Layer.set]
    split
    · rename_i heq
      obtain rfl := List.inj_on_of_nodup_map hnodup hh' (List.mem_of_getElem? hk) heq
      exact hv
    · exact h.typed h' hh'

/-- An assignment to a variable of a layer changes its slot. -/
theorem Represents.assign {layer : Layer} {outer : Env} {is₁ is₂ : List Nat} {i k : Nat}
    {head : DeclHead} {v : Value} (h : Represents fs (is₁ ++ i :: is₂) (inner ++ layer :: outer))
    (hlength : is₁.length = inner.length) (hlt : ∀ j ∈ is₁, i < j)
    (houter : Represents fs (i :: is₂) (layer :: outer))
    (hnodup : ((Decl.varHeads layer.decls).map DeclHead.id).Nodup)
    (hk : (Decl.varHeads layer.decls)[k]? = some head) (hv : head.ty = some v.ty) :
    Represents (setSlot fs i k v) (is₁ ++ i :: is₂) (inner ++ layer.set head.id v :: outer) := by
  have hsame {j : Nat} (hj : j ≠ i) : SameAt fs (setSlot fs i k v) j :=
    (moved_setSlot (List.mem_singleton_self i) k v).sameAt (by simpa using hj)
  refine h.join hlength (fun j hj => hsame (Nat.ne_of_gt (hlt j hj))) ?_
  cases houter with
  | @cons _ _ _ _ a ha hlink hstores hlt' hrest =>
    refine .cons (a := { a with locals := a.locals.setIfInBounds k v }) ?_ hlink
      (hstores.set hnodup hk hv) hlt'
      (hrest.congr fun j hj => hsame (Nat.ne_of_lt (hlt' j hj)))
    simp [setSlot, Array.getElem?_modify, ha]

/-! ## Calls -/

theorem Ty.ty_default {ty : Ty} (h : ty.isValue = true) : ty.default.ty = ty := by
  cases ty <;> first | rfl | cases h

theorem vars_fresh {decls : List Decl} {head : DeclHead} {ty : Ty} (hnodup : (Decl.ids decls).Nodup)
    (hmem : head ∈ Decl.varHeads decls) (hty : head.ty = some ty) :
    (Layer.fresh decls).vars head.id = ty.default := by
  obtain ⟨d, hd, hhead⟩ := List.mem_filterMap.mp hmem
  obtain rfl : d = .var head := by
    cases d with
    | var head' =>
      cases hhead
      rfl
    | _ => cases hhead
  have hfind : decls.find? (fun d => d.head.id == head.id) = some (.var head) := by
    cases hf : decls.find? (fun d => d.head.id == head.id) with
    | none =>
      rw [List.find?_eq_none] at hf
      exact absurd (beq_self_eq_true head.id) (hf _ hd)
    | some d =>
      have hid : d.head.id = head.id := by simpa using List.find?_some hf
      rw [List.inj_on_of_nodup_map hnodup (List.mem_of_find?_eq_some hf) hd hid]
  simp only [Layer.fresh, hfind, Option.bind_some]
  rw [show (Decl.var head).head.ty = some ty from hty]

/-- An activation that begins holds the layer of the block that begins. -/
theorem stores_fresh {a : Activation} {decls : List Decl} {tys : List Ty}
    (hlocals : a.locals = (tys.map Ty.default).toArray)
    (htys : tys.map some = (Decl.varHeads decls).map DeclHead.ty) (hnodup : (Decl.ids decls).Nodup)
    (hvalue : ∀ head ∈ Decl.varHeads decls, ∃ ty, head.ty = some ty ∧ ty.isValue = true) :
    a.Stores (.fresh decls) := by
  refine ⟨?_, fun head hhead => ?_⟩
  · let value (ty : Option Ty) : Value := (ty.map Ty.default).getD (.int 0)
    calc a.locals.toList
      _ = (tys.map some).map value := by simp [hlocals, value]
      _ = (Decl.varHeads decls).map (value ∘ DeclHead.ty) := by rw [htys, List.map_map]
      _ = (Decl.varHeads decls).map fun head => (Layer.fresh decls).vars head.id :=
        List.map_congr_left fun head hhead => by
          obtain ⟨ty, hty, -⟩ := hvalue head hhead
          simp [vars_fresh hnodup hhead hty, value, hty]
  · obtain ⟨ty, hty, hisValue⟩ := hvalue head hhead
    rw [vars_fresh hnodup hhead hty, Ty.ty_default hisValue, hty]

theorem Represents.enter {a : Activation} {decls : List Decl} (h : Represents fs is env)
    (hlink : a.link = is.head?) (hstores : a.Stores (.fresh decls)) :
    Represents (fs.push a) (fs.size :: is) (.fresh decls :: env) :=
  .cons (by simp) hlink hstores h.lt_size (h.congr fun _ _ => sameAt_push a)

section Leave

variable {pc : Nat} {a : Activation} (hmoved : Moved is' ((withPc fs pc).push a) fs'')

include hmoved

theorem Moved.size_leave : fs''.size = fs.size + 1 := by
  rw [hmoved.size, Array.size_push, size_withPc]

theorem Moved.frame_leave {i : Nat} {x : Activation} (hx : fs[i]? = some x) :
    ∃ x', fs''.pop[i]? = some x' ∧ x'.routine = x.routine ∧ x'.link = x.link ∧
      (x'.pc = if i + 1 = fs.size then pc else x.pc) ∧ (i ∉ is' → x'.locals = x.locals) := by
  have hi := (Array.getElem?_eq_some_iff.mp hx).1
  have hpop : fs''.pop[i]? = fs''[i]? := by
    rw [Array.getElem?_pop, if_pos]
    have := hmoved.size_leave
    omega
  have hbefore : ((withPc fs pc).push a)[i]? =
      some (if i + 1 = fs.size then { x with pc := pc } else x) := by
    rw [Array.getElem?_push, if_neg (by simp; omega), getElem?_withPc, hx]
    split <;> rfl
  obtain ⟨x', hx', hr, hl, hpc, hloc⟩ := hmoved.frame i _ hbefore
  have hpc := hpc (by simpa using hi)
  refine ⟨x', hpop.trans hx', ?_, ?_, ?_, ?_⟩
  · rw [hr]
    split <;> rfl
  · rw [hl]
    split <;> rfl
  · rw [hpc]
    split <;> rfl
  · intro hnot
    rw [hloc hnot]
    split <;> rfl

/-- After the return the caller goes on where it was. -/
theorem Moved.withPc_leave : withPc fs''.pop pc = fs''.pop := by
  have hsize := hmoved.size_leave
  apply Array.ext_getElem?
  intro i
  rw [getElem?_withPc]
  split
  · rename_i hlast
    rw [Array.size_pop, hsize, Nat.add_sub_cancel] at hlast
    obtain ⟨x', hx', -, -, hpc, -⟩ :=
      hmoved.frame_leave (Array.getElem?_eq_getElem (show i < fs.size by omega))
    rw [if_pos hlast] at hpc
    rw [hx', Option.map_some, ← hpc]
  · rfl

theorem Moved.leave (hsub : ∀ i ∈ is', i < fs.size → i ∈ is) : Moved is fs fs''.pop := by
  refine ⟨by rw [Array.size_pop, hmoved.size_leave, Nat.add_sub_cancel], fun i x hx => ?_⟩
  obtain ⟨x', hx', hr, hl, hpc, hloc⟩ := hmoved.frame_leave hx
  refine ⟨x', hx', hr, hl, fun hi => ?_, fun hnot => hloc fun hmem => hnot ?_⟩
  · rw [hpc, if_neg (by omega)]
  · exact hsub i hmem (Array.getElem?_eq_some_iff.mp hx).1

end Leave

/-- After a call the layers inside the one that declares the procedure are as they were. -/
theorem Represents.leave {is₁ is₂ : List Nat} {layer : Layer} {pc : Nat} {a : Activation}
    (h : Represents fs (is₁ ++ is₂) (inner ++ env)) (hlength : is₁.length = inner.length)
    (hlt : ∀ i ∈ is₁, ∀ j ∈ is₂, j < i)
    (hmoved : Moved (fs.size :: is₂) ((PLZero.withPc fs pc).push a) fs'')
    (h' : Represents fs'' (fs.size :: is₂) (layer :: env')) :
    Represents fs''.pop (is₁ ++ is₂) (inner ++ env') := by
  have hsize := hmoved.size_leave
  refine h.join hlength (fun i hi => ?_) ?_
  · have hbound := h.lt_size i (List.mem_append_left _ hi)
    refine (hmoved.leave fun j hj hj' => ?_ : Moved is₂ fs fs''.pop).sameAt fun hmem => ?_
    · exact (List.mem_cons.mp hj).resolve_left (by omega)
    · exact absurd (hlt i hi i hmem) (Nat.lt_irrefl i)
  · cases h' with
    | cons _ _ _ hless hrest =>
      exact hrest.congr fun j hj => sameAt_pop (by have := hless j hj; omega)

end PLZero
