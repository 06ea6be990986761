import PLZero.Proofs.Machine.Instructions

/-!
# Static links

What the machine does to the routines and links of its activations: nothing, but for calls and
returns.

* `Machine.Steady` — an action after which every activation has the routine and the link it had.
* `Machine.linkStep_of_step` — a step is steady, or ends the current activation, or begins one whose
  link is the activation that the call has walked to.
* `follow_congr` — a static chain depends on the links of the activations below it alone.
-/

namespace PLZero

/-- The routines and links of the activations. -/
def links (fs : Array Activation) : Array (Nat × Option Nat) :=
  fs.map fun a => (a.routine, a.link)

@[simp] theorem size_links (fs : Array Activation) : (links fs).size = fs.size := Array.size_map

theorem links_modify {f : Activation → Activation} (fs : Array Activation) (i : Nat)
    (hf : ∀ a, (f a).routine = a.routine ∧ (f a).link = a.link) :
    links (fs.modify i f) = links fs := by
  apply Array.ext_getElem?
  intro j
  simp only [links, Array.getElem?_map, Array.getElem?_modify]
  split
  · simp [Function.comp_def, hf]
  · rfl

@[simp] theorem links_withPc (fs : Array Activation) (pc : Nat) : links (withPc fs pc) = links fs :=
  links_modify (f := fun a => { a with pc := pc }) fs _ fun _ => ⟨rfl, rfl⟩

theorem getElem?_links {fs : Array Activation} {i : Nat} :
    (links fs)[i]? = fs[i]?.map fun a => (a.routine, a.link) :=
  Array.getElem?_map

theorem exists_of_links {fs : Array Activation} {i r : Nat} {link : Option Nat}
    (h : (links fs)[i]? = some (r, link)) :
    ∃ a, fs[i]? = some a ∧ a.routine = r ∧ a.link = link := by
  rw [getElem?_links, Option.map_eq_some_iff] at h
  obtain ⟨a, ha, heq⟩ := h
  cases heq
  exact ⟨a, ha, rfl, rfl⟩

theorem links_of_getElem? {fs : Array Activation} {i : Nat} {a : Activation}
    (h : fs[i]? = some a) :
    (links fs)[i]? = some (a.routine, a.link) := by
  rw [getElem?_links, h]
  rfl

/-! ## Chains -/

theorem follow_succ (fs : Array Activation) (up i : Nat) :
    follow fs (up + 1) i = ((links fs)[i]?.bind Prod.snd).bind (follow fs up) := by
  rw [getElem?_links, follow]
  cases fs[i]? <;> rfl

/-- A chain that goes down stays the same if the links below its start do. -/
theorem follow_congr {fs fs' : Array Activation} {n : Nat}
    (hsame : ∀ i < n, (links fs')[i]? = (links fs)[i]?)
    (hdown : ∀ i r j : Nat, (links fs)[i]? = some (r, some j) → j < i) (up : Nat) :
    ∀ k < n, follow fs' up k = follow fs up k := by
  induction up with
  | zero => exact fun k _ => rfl
  | succ up ih =>
    intro k hk
    rw [follow_succ, follow_succ, hsame k hk]
    cases hlink : (links fs)[k]?.bind Prod.snd with
    | none => rfl
    | some j =>
      obtain ⟨⟨r, link⟩, hget, rfl⟩ := Option.bind_eq_some_iff.mp hlink
      exact ih j (Nat.lt_trans (hdown k r j hget) hk)

theorem follow_withPc (fs : Array Activation) (pc up : Nat) :
    ∀ k, follow (withPc fs pc) up k = follow fs up k := by
  induction up with
  | zero => exact fun k => rfl
  | succ up ih =>
    intro k
    rw [follow_succ, follow_succ, links_withPc, funext ih]

/-! ## Steps -/

namespace Machine

variable {α β : Type}

/-- If the action succeeds, all activations have the routines and links they had. -/
def Steady (m : Act α) : Prop := ∀ s a t, m s = .ok a t → links t.frames = links s.frames

namespace Steady

theorem pure (a : α) : Steady (Pure.pure a) := by
  intro s b t h
  cases h
  rfl

theorem throw (fault : MachineFault) : Steady (throw fault : Act α) := by
  intro s b t h
  cases h

theorem bind {m : Act α} {f : α → Act β} (hm : Steady m) (hf : ∀ a, Steady (f a)) :
    Steady (m >>= f) := by
  intro s b t h
  change EStateM.bind m f s = .ok b t at h
  unfold EStateM.bind at h
  split at h
  · rename_i a s₁ hs
    exact (hf a s₁ b t h).trans (hm s a s₁ hs)
  · cases h

theorem get {f : State → Act β} (hf : ∀ s, Steady (f s)) : Steady (MonadState.get >>= f) := by
  intro s b t h
  exact hf s s b t h

theorem modify {f : State → State} (hf : ∀ s, links (f s).frames = links s.frames) :
    Steady (modify f) := by
  intro s a t h
  cases h
  exact hf s

theorem ite {c : Prop} [Decidable c] {m m' : Act α} (hm : Steady m) (hm' : Steady m') :
    Steady (if c then m else m') := by
  split
  · exact hm
  · exact hm'

end Steady

theorem steady_push (v : Value) : Steady (push v) := by
  intro s a t h
  unfold push at h
  split at h <;> cases h
  rfl

theorem steady_pop : Steady pop := by
  intro s a t h
  unfold pop at h
  split at h <;> cases h
  rfl

theorem steady_popInt : Steady popInt := by
  refine steady_pop.bind fun v => ?_
  split
  · exact .pure _
  · exact .throw _

theorem steady_popBool : Steady popBool := by
  refine steady_pop.bind fun v => ?_
  split
  · exact .pure _
  · exact .throw _

theorem steady_popStr : Steady popStr := by
  refine steady_pop.bind fun v => ?_
  split
  · exact .pure _
  · exact .throw _

theorem steady_liftExcept (x : Except MachineFault α) : Steady (liftExcept x) := by
  cases x with
  | ok a => exact .pure a
  | error fault => exact .throw fault

theorem steady_setPc (pc : Nat) : Steady (setPc pc) := .modify fun s => links_withPc s.frames pc

theorem steady_walk (up : Nat) : Steady (walk up) := by
  intro s a t h
  rw [(follow_of_walk h).2]

theorem steady_loadSlot (up slot : Nat) : Steady (loadSlot up slot) := by
  refine (steady_walk up).bind fun index => .get fun s => ?_
  split
  · exact .pure _
  · exact .throw _

theorem steady_storeSlot (up slot : Nat) (v : Value) : Steady (storeSlot up slot v) := by
  refine (steady_walk up).bind fun index => .get fun s => ?_
  split
  · exact .modify fun s =>
      links_modify (f := fun a => { a with locals := a.locals.setIfInBounds slot v }) s.frames index
        fun _ => ⟨rfl, rfl⟩
  · exact .throw _

theorem steady_jump (image : Image) (r : Nat) (l : Label) : Steady (jump image r l) := by
  unfold jump
  split
  · exact steady_setPc _
  · exact .throw _

/-- Only calls and returns touch routines and links. -/
theorem steady_exec (image : Image) (r : Nat) {i : Instr} (hcall : ∀ callee up, i ≠ .call callee up)
    (hret : i ≠ .ret) : Steady (exec image r i) := by
  cases i with
  | push v => exact steady_push v
  | load up slot => exact (steady_loadSlot up slot).bind fun v => steady_push v
  | store up slot => exact steady_pop.bind fun v => steady_storeSlot up slot v
  | arith op =>
    exact steady_popInt.bind fun b => steady_popInt.bind fun a =>
      (steady_liftExcept _).bind fun n => steady_push _
  | and | or => exact steady_popBool.bind fun b => steady_popBool.bind fun a => steady_push _
  | concat | strEquals | startsWith | endsWith =>
    exact steady_popStr.bind fun b => steady_popStr.bind fun a => steady_push _
  | pop => exact steady_pop.bind fun _ => .pure _
  | swap =>
    exact steady_pop.bind fun b => steady_pop.bind fun a =>
      (steady_push b).bind fun _ => steady_push a
  | dup2 =>
    exact steady_pop.bind fun b => steady_pop.bind fun a => (steady_push a).bind fun _ =>
      (steady_push b).bind fun _ => (steady_push a).bind fun _ => steady_push b
  | dupX2 =>
    exact steady_pop.bind fun a => steady_pop.bind fun b => steady_pop.bind fun c =>
      (steady_push a).bind fun _ => (steady_push c).bind fun _ => (steady_push b).bind fun _ =>
        steady_push a
  | not => exact steady_pop.bind fun v => (steady_liftExcept _).bind fun w => steady_push w
  | ifCmp cond target =>
    refine steady_pop.bind fun b => steady_pop.bind fun a => ?_
    split
    · exact .ite (steady_jump image r target) (.pure _)
    · exact .throw _
  | ifStr equal target =>
    exact steady_popStr.bind fun b => steady_popStr.bind fun a =>
      .ite (steady_jump image r target) (.pure _)
  | ifBool value target =>
    exact steady_popBool.bind fun b => .ite (steady_jump image r target) (.pure _)
  | goto target => exact steady_jump image r target
  | label l => exact .pure _
  | call callee up => exact absurd rfl (hcall callee up)
  | print ty =>
    exact steady_pop.bind fun v => (steady_liftExcept _).bind fun text => .modify fun _ => rfl
  | read ty =>
    refine .get fun s => ?_
    refine Steady.bind (.modify fun _ => rfl) fun _ => ?_
    exact (steady_liftExcept _).bind fun v => steady_push v
  | ret => exact absurd rfl hret

/-- A step that succeeds carries out the instruction that the current activation has come to. -/
theorem exists_of_step {image : Image} {s t : State} (h : step image s = .ok () t) :
    ∃ a R i, s.frames.back? = some a ∧ image[a.routine]? = some R ∧ R.code[a.pc]? = some i ∧
      exec image a.routine i ⟨s.stack, withPc s.frames (a.pc + 1), s.console⟩ = .ok () t := by
  simp only [step, current, bind, EStateM.bind] at h
  cases hback : s.frames.back? with
  | none =>
    simp only [hback] at h
    cases h
  | some a =>
    simp only [hback] at h
    cases hcode : image[a.routine]?.bind fun R => R.code[a.pc]? with
    | none =>
      simp only [hcode] at h
      cases h
    | some i =>
      simp only [hcode] at h
      obtain ⟨R, hR, hi⟩ := Option.bind_eq_some_iff.mp hcode
      exact ⟨a, R, i, rfl, hR, hi, h⟩

/-- What a step does to routines and links. -/
inductive LinkStep (image : Image) (fs fs' : Array Activation) : Prop where
  | steady : links fs' = links fs → LinkStep image fs fs'
  | leave : links fs' = (links fs).pop → LinkStep image fs fs'
  | enter {a : Activation} {R : LoadedRoutine} {callee up link : Nat} : fs.back? = some a →
      image[a.routine]? = some R → R.code[a.pc]? = some (.call callee up) →
      follow fs up (fs.size - 1) = some link → links fs' = (links fs).push (callee, some link) →
      LinkStep image fs fs'

theorem links_of_enter {image : Image} {callee : Nat} {link : Option Nat} {s t : State}
    (h : enter image callee link s = .ok () t) :
    links t.frames = (links s.frames).push (callee, link) := by
  obtain ⟨st, fs, c⟩ := s
  cases hR : image[callee]? with
  | none =>
    simp only [enter, bind, EStateM.bind, get_eq, hR] at h
    split at h <;> cases h
  | some R =>
    rw [enter_eq link hR] at h
    split at h
    · cases h
    · cases h
      exact Array.map_push

/-- A call enters the routine with a link to where its walk has led. -/
theorem exists_of_call {image : Image} {r callee up pc : Nat} {st : Array Value}
    {fs : Array Activation} {con : Console} {t : State}
    (h : exec image r (.call callee up) ⟨st, withPc fs pc, con⟩ = .ok () t) :
    ∃ link, follow fs up (fs.size - 1) = some link ∧
      enter image callee (some link) ⟨st, withPc fs pc, con⟩ = .ok () t := by
  simp only [exec, bind, EStateM.bind] at h
  cases hwalk : walk up ⟨st, withPc fs pc, con⟩ with
  | error f u =>
    rw [hwalk] at h
    cases h
  | ok link u =>
    rw [hwalk] at h
    obtain ⟨hfollow, rfl⟩ := follow_of_walk hwalk
    rw [size_withPc, follow_withPc] at hfollow
    exact ⟨link, hfollow, h⟩

theorem linkStep_of_step {image : Image} {s t : State} (h : step image s = .ok () t) :
    LinkStep image s.frames t.frames := by
  obtain ⟨a, R, i, hback, hR, hi, hexec⟩ := exists_of_step h
  by_cases hret : i = .ret
  · subst hret
    rw [exec_ret] at hexec
    cases hexec
    exact .leave (Array.map_pop ..)
  by_cases hcall : ∃ callee up, i = .call callee up
  · obtain ⟨callee, up, rfl⟩ := hcall
    obtain ⟨link, hfollow, henter⟩ := exists_of_call hexec
    refine .enter hback hR hi hfollow ?_
    rw [links_of_enter henter, links_withPc]
  · have hsteady := steady_exec image a.routine (fun callee up heq => hcall ⟨callee, up, heq⟩) hret
    exact .steady ((hsteady _ _ _ hexec).trans (links_withPc ..))

end Machine

end PLZero
