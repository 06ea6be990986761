import Mathlib.Algebra.Ring.Nat
import PLZero.Proofs.Code.Labels
import PLZero.Proofs.Machine.Effects

/-!
# Runs of arbitrary units

A unit need not come from a program: its calls may name any routine, its jumps any label, and its
instructions any number of static links.  The machine is safe on all of them.

* `Machine.Reachable` — the states that a run goes through.
* `State.Sturdy` — what holds of all of them: links lead downward, routines are there, label tables
  point at labels, and both stacks are within their limits.
* `WalkEnds` — a walk up the static links takes no more rounds than there are activations.
* `Machine.rawStep` — the step of a machine that looks up routines, label tables and activations
  without a check.
* `CodeUnit.sturdy_of_reachable` — every state of every run is sturdy, every walk ends, and no
  lookup needs a check.
-/

namespace PLZero

namespace Machine

/-- The states of the runs on an input, from the one in which no routine has been entered. -/
inductive Reachable (image : Image) (input : List UInt8) : State → Prop where
  | start : Reachable image input (.start input)
  | enter {s : State} : enter image 0 none (.start input) = .ok () s → Reachable image input s
  | step {s t : State} : Reachable image input s → step image s = .ok () t → Reachable image input t

theorem Reachable.after {image : Image} {input : List UInt8} {n : Nat} {s t : State}
    (h : Reachable image input s) (hafter : Machine.after image n s = some t) :
    Reachable image input t := by
  induction n generalizing s with
  | zero =>
    cases hafter
    exact h
  | succ n ih =>
    obtain ⟨s₁, hstep, hafter⟩ := after_succ hafter
    exact ih (h.step hstep) hafter

/-- A run that can begin has loaded its unit and entered routine 0. -/
theorem enter_of_begin {u : CodeUnit} {input : List UInt8} {image : Image} {s : State}
    (h : Machine.begin u input = .ok (image, s)) :
    u.load = .ok image ∧ enter image 0 none (.start input) = .ok () s := by
  obtain ⟨image', hload, h⟩ := exists_of_bind_ok h
  cases hentry : u.entry?.isNone with
  | true =>
    rw [hentry] at h
    cases h
  | false =>
    rw [hentry] at h
    cases henter : Machine.enter image' 0 none (.start input) with
    | error fault t =>
      simp only [henter] at h
      cases h
    | ok _ t =>
      simp only [henter] at h
      cases h
      exact ⟨hload, henter⟩

end Machine

open Machine

/-! ## Links that lead downward -/

/-- The static link of every activation lies below it. -/
def LinksDown (fs : Array Activation) : Prop :=
  ∀ i r j : Nat, (links fs)[i]? = some (r, some j) → j < i

/-- A walk from activation `k` has followed all of `up` links, or it stops at an activation without
one.  In both cases it has followed no more links than there are activations below `k`, and it has
looked at nothing but activations. -/
def WalkEnds (fs : Array Activation) (k up : Nat) : Prop :=
  (∃ j, follow fs up k = some j ∧ j + up ≤ k) ∨
  ∃ n j a, n < up ∧ follow fs n k = some j ∧ j + n ≤ k ∧ fs[j]? = some a ∧ a.link = none

theorem follow_link {fs : Array Activation} {k j : Nat} {a : Activation} (ha : fs[k]? = some a)
    (hlink : a.link = some j) (up : Nat) : follow fs (up + 1) k = follow fs up j := by
  simp [follow, ha, hlink]

theorem LinksDown.lt {fs : Array Activation} (h : LinksDown fs) {k j : Nat} {a : Activation}
    (ha : fs[k]? = some a) (hlink : a.link = some j) : j < k := by
  refine h k a.routine j ?_
  rw [links_of_getElem? ha, hlink]

theorem LinksDown.walkEnds {fs : Array Activation} (h : LinksDown fs) (up : Nat) :
    ∀ k < fs.size, WalkEnds fs k up := by
  induction up with
  | zero => exact fun k _ => .inl ⟨k, rfl, Nat.le_refl k⟩
  | succ up ih =>
    intro k hk
    have ha : fs[k]? = some fs[k] := Array.getElem?_eq_getElem hk
    cases hlink : fs[k].link with
    | none => exact .inr ⟨0, k, fs[k], Nat.succ_pos up, rfl, Nat.le_refl k, ha, hlink⟩
    | some j =>
      have hj : j < k := h.lt ha hlink
      rcases ih j (Nat.lt_trans hj hk) with ⟨i, hi, hle⟩ | ⟨n, i, a, hn, hi, hle, hget, hnone⟩
      · refine .inl ⟨i, ?_, by omega⟩
        rw [follow_link ha hlink, hi]
      · refine .inr ⟨n + 1, i, a, by omega, ?_, by omega, hget, hnone⟩
        rw [follow_link ha hlink, hi]

/-- A walk leads downward. -/
theorem LinksDown.follow_le {fs : Array Activation} (h : LinksDown fs) (up : Nat) :
    ∀ k j, follow fs up k = some j → j ≤ k := by
  induction up with
  | zero =>
    intro k j hfollow
    cases hfollow
    exact Nat.le_refl k
  | succ up ih =>
    intro k j hfollow
    rw [follow_succ] at hfollow
    obtain ⟨k', hk', hrest⟩ := Option.bind_eq_some_iff.mp hfollow
    obtain ⟨⟨r, link⟩, hget, rfl⟩ := Option.bind_eq_some_iff.mp hk'
    have hlt := h k r k' hget
    have hle := ih k' j hrest
    omega

/-! ## The invariant -/

/-- What holds of every state of a run, whatever unit is run. -/
structure State.Sturdy (u : CodeUnit) (image : Image) (s : State) : Prop where
  link_lt : ∀ (k : Nat) (a : Activation) (j : Nat), s.frames[k]? = some a → a.link = some j → j < k
  routine : ∀ (k : Nat) (a : Activation), s.frames[k]? = some a →
    ∃ r R, u.routines[a.routine]? = some r ∧ image[a.routine]? = some R ∧ r.LoadedAs R
  labels : ∀ (i : Nat) (R : LoadedRoutine), image[i]? = some R →
    ∃ r, u.routines[i]? = some r ∧ ∀ l pc, (l, pc) ∈ R.labels → r.code[pc]? = some (.label l)
  depth : s.frames.size ≤ maxCallDepth
  height : s.stack.size ≤ maxOperandStack

/-- The part of the invariant that steps may change. -/
structure State.Sound (image : Image) (s : State) : Prop where
  down : LinksDown s.frames
  loaded : ∀ (i r : Nat) (link : Option Nat), (links s.frames)[i]? = some (r, link) →
    ∃ R, image[r]? = some R
  depth : s.frames.size ≤ maxCallDepth
  height : s.stack.size ≤ maxOperandStack

namespace State.Sound

variable {image : Image} {s t : State}

theorem start (image : Image) (input : List UInt8) : (State.start input).Sound image := by
  refine ⟨?_, ?_, Nat.zero_le _, Nat.zero_le _⟩
  · intro i r j h
    simp [links, State.start] at h
  · intro i r link h
    simp [links, State.start] at h

/-- Steps that leave the links, and those that end activations, keep what holds. -/
theorem of_links (h : s.Sound image) (hle : t.frames.size ≤ s.frames.size)
    (hlinks : ∀ i < t.frames.size, (links t.frames)[i]? = (links s.frames)[i]?)
    (hheight : t.stack.size ≤ maxOperandStack) : t.Sound image := by
  have hlt {i : Nat} {x : Nat × Option Nat} (hi : (links t.frames)[i]? = some x) :
      i < t.frames.size := by
    rw [← size_links]
    exact (Array.getElem?_eq_some_iff.mp hi).1
  refine ⟨?_, ?_, Nat.le_trans hle h.depth, hheight⟩
  · intro i r j hi
    have hlt' := hlt hi
    rw [hlinks i hlt'] at hi
    exact h.down i r j hi
  · intro i r link hi
    have hlt' := hlt hi
    rw [hlinks i hlt'] at hi
    exact h.loaded i r link hi

/-- An activation that is begun has its link below it and its routine in the image. -/
theorem push {r : Nat} {R : LoadedRoutine} {link : Option Nat} (h : s.Sound image)
    (hR : image[r]? = some R) (hlink : ∀ j, link = some j → j < s.frames.size)
    (hdepth : s.frames.size < maxCallDepth)
    (hlinks : links t.frames = (links s.frames).push (r, link))
    (hheight : t.stack.size ≤ maxOperandStack) : t.Sound image := by
  have hsize : t.frames.size = s.frames.size + 1 := by
    rw [← size_links t.frames, hlinks, Array.size_push, size_links]
  refine ⟨?_, ?_, by omega, hheight⟩
  · intro i r' j hi
    rw [hlinks, Array.getElem?_push, size_links] at hi
    split at hi
    · rename_i heq
      cases hi
      rw [heq]
      exact hlink j rfl
    · exact h.down i r' j hi
  · intro i r' link' hi
    rw [hlinks, Array.getElem?_push, size_links] at hi
    split at hi
    · cases hi
      exact ⟨R, hR⟩
    · exact h.loaded i r' link' hi

/-- **A step keeps what holds.** -/
theorem step (h : s.Sound image) (hstep : Machine.step image s = .ok () t) : t.Sound image := by
  have hsizes {fs fs' : Array Activation} (heq : links fs' = links fs) : fs'.size = fs.size := by
    rw [← size_links, heq, size_links]
  cases moves_of_step hstep h.height with
  | next _ _ _ _ _ hheight hlinks _ =>
    exact h.of_links (Nat.le_of_eq (hsizes hlinks)) (fun i _ => by rw [hlinks]) hheight
  | jump _ _ _ _ hheight hlinks _ =>
    exact h.of_links (Nat.le_of_eq (hsizes hlinks)) (fun i _ => by rw [hlinks]) hheight
  | @enter a R R' callee up link hfetch hfollow hdepth hR' hstack hlinks _ =>
    have hback := hfetch.back
    rw [Array.back?_eq_getElem?] at hback
    have hlast : s.frames.size - 1 < s.frames.size := (Array.getElem?_eq_some_iff.mp hback).1
    refine h.push hR' ?_ hdepth hlinks (by rw [hstack]; exact h.height)
    intro j hj
    cases hj
    exact Nat.lt_of_le_of_lt (h.down.follow_le up _ _ hfollow) hlast
  | leave _ hstack hframes =>
    have hle : t.frames.size ≤ s.frames.size := by
      rw [hframes, Array.size_pop]
      omega
    refine h.of_links hle (fun i hi => ?_) (by rw [hstack]; exact h.height)
    rw [hframes, Array.size_pop] at hi
    rw [getElem?_links, getElem?_links, hframes, Array.getElem?_pop, if_pos hi]

theorem of_reachable {input : List UInt8} (h : Reachable image input s) : s.Sound image := by
  induction h with
  | start => exact start image input
  | enter henter =>
    obtain ⟨hdepth, ⟨R, hR⟩, hstack, -⟩ := enter_ok henter
    refine (start image input).push hR ?_ hdepth (links_of_enter henter) ?_
    · intro j hj
      cases hj
    · rw [hstack]
      exact (start image input).height
  | step _ hstep ih => exact ih.step hstep

end State.Sound

/-! ## Lookups without a check -/

namespace Machine

/-- Why a machine that does not check its indices stops. -/
inductive Stop where
  | fault (fault : MachineFault)
  /-- There is nothing at an index that was not checked. -/
  | outOfBounds
  deriving DecidableEq, Repr

/-- An action of the machine that does not check. -/
abbrev RawAct := EStateM Stop State

variable {α β : Type}

/-- An action with no lookup in it is the same on both machines. -/
def raw (m : Act α) : RawAct α := fun s =>
  match m s with
  | .ok a t => .ok a t
  | .error f t => .error (.fault f) t

def rawGet (xs : Array α) (i : Nat) : RawAct α :=
  match xs[i]? with
  | some x => return x
  | none => throw .outOfBounds

def rawFollow (fs : Array Activation) : (up : Nat) → (index : Nat) → RawAct Nat
  | 0, index => return index
  | up + 1, index => do
    match (← rawGet fs index).link with
    | some link => rawFollow fs up link
    | none => throw (.fault .shortChain)

def rawWalk (up : Nat) : RawAct Nat := do
  let fs := (← get).frames
  if fs.isEmpty then throw (.fault .noActivation) else rawFollow fs up (fs.size - 1)

def rawLoad (up slot : Nat) : RawAct Value := do
  let index ← rawWalk up
  match (← rawGet (← get).frames index).locals[slot]? with
  | some v => return v
  | none => throw (.fault (.noSlot slot))

def rawStore (up slot : Nat) (v : Value) : RawAct Unit := do
  let index ← rawWalk up
  match (← rawGet (← get).frames index).locals[slot]? with
  | some _ =>
    modify fun s => { s with
      frames := s.frames.modify index fun frame =>
        { frame with locals := frame.locals.setIfInBounds slot v } }
  | none => throw (.fault (.noSlot slot))

def rawJump (image : Image) (routine : Nat) (l : Label) : RawAct Unit := do
  match (← rawGet image routine).labels.lookup l with
  | some pc => raw (setPc pc)
  | none => throw (.fault (.unknownLabel l))

/-- The instructions that look something up by an index; all others are as they were. -/
def rawExec (image : Image) (routine : Nat) : Instr → RawAct Unit
  | .load up slot => do raw (push (← rawLoad up slot))
  | .store up slot => do rawStore up slot (← raw pop)
  | .ifCmp cond target => do
    let b ← raw pop
    let a ← raw pop
    match order? a b with
    | some o => if cond.holds o then rawJump image routine target
    | none => throw (.fault (.incomparable a b))
  | .ifStr equal target => do
    let b ← raw popStr
    let a ← raw popStr
    if decide (a = b) = equal then rawJump image routine target
  | .ifBool value target => do
    if (← raw popBool) = value then rawJump image routine target
  | .goto target => rawJump image routine target
  | .call callee up => do raw (enter image callee (some (← rawWalk up)))
  | .ret => do
    let _ ← rawGet image (← raw current).routine
    raw leave
  | i => raw (exec image routine i)

def rawStep (image : Image) : RawAct Unit := do
  let frame ← raw current
  match (← rawGet image frame.routine).code[frame.pc]? with
  | none => throw (.fault .fellOff)
  | some i =>
    raw (setPc (frame.pc + 1))
    rawExec image frame.routine i

variable {image : Image} {r : Nat} {R : LoadedRoutine} {s : State}

/-- If the first actions agree, and so do the rest where the first have led, then both agree. -/
theorem raw_bind {x : RawAct α} {m : Act α} {g : α → RawAct β} {f : α → Act β}
    (hx : x s = raw m s) (hg : ∀ a t, m s = .ok a t → g a t = raw (f a) t) :
    (x >>= g) s = raw (m >>= f) s := by
  cases hm : m s with
  | ok a t =>
    have hx' : x s = .ok a t := by rw [hx, raw, hm]
    have hright : raw (m >>= f) s = raw (f a) t := by simp only [raw, bind, EStateM.bind, hm]
    simp only [bind, EStateM.bind, hx'] at hright ⊢
    rw [hright]
    exact hg a t hm
  | error fault t =>
    have hx' : x s = .error (.fault fault) t := by rw [hx, raw, hm]
    simp only [raw, bind, EStateM.bind, hx', hm]

theorem rawGet_eq {xs : Array α} {i : Nat} {x : α} (h : xs[i]? = some x) :
    rawGet xs i s = .ok x s := by
  unfold rawGet
  rw [h]
  rfl

theorem rawFollow_eq {fs : Array Activation} (h : LinksDown fs) (up : Nat) :
    ∀ k < fs.size, rawFollow fs up k s = match follow fs up k with
      | some j => .ok j s
      | none => .error (.fault .shortChain) s := by
  induction up with
  | zero => exact fun k _ => rfl
  | succ up ih =>
    intro k hk
    have ha : fs[k]? = some fs[k] := Array.getElem?_eq_getElem hk
    simp only [rawFollow, bind, EStateM.bind, rawGet_eq ha]
    cases hlink : fs[k].link with
    | none =>
      rw [follow_succ, getElem?_links, ha, Option.map_some, Option.bind_some, hlink]
      rfl
    | some j =>
      rw [follow_link ha hlink]
      exact ih j (Nat.lt_trans (h.lt ha hlink) hk)

/-- There is a current activation, and all links lead downward. -/
structure Chained (fs : Array Activation) : Prop where
  pos : 0 < fs.size
  down : LinksDown fs

theorem Chained.congr {fs fs' : Array Activation} (h : Chained fs) (hlinks : links fs' = links fs) :
    Chained fs' := by
  refine ⟨?_, ?_⟩
  · rw [← size_links, hlinks, size_links]
    exact h.pos
  · unfold LinksDown
    rw [hlinks]
    exact h.down

theorem Chained.rawWalk_eq (h : Chained s.frames) (up : Nat) : rawWalk up s = raw (walk up) s := by
  have hlast : s.frames.size - 1 < s.frames.size := Nat.sub_lt h.pos Nat.one_pos
  have hsome : ¬ s.frames.isEmpty = true := by
    rw [Array.isEmpty_iff_size_eq_zero]
    exact Nat.ne_of_gt h.pos
  change (if s.frames.isEmpty then throw (.fault .noActivation) else
    rawFollow s.frames up (s.frames.size - 1) : RawAct Nat) s = raw (walk up) s
  rw [if_neg hsome, rawFollow_eq h.down up _ hlast, raw, walk_eq h.pos]
  cases follow s.frames up (s.frames.size - 1) <;> rfl

/-- A walk leads to an activation and changes nothing. -/
theorem Chained.exists_of_walk (h : Chained s.frames) {up j : Nat} {t : State}
    (hwalk : walk up s = .ok j t) : t = s ∧ ∃ a, s.frames[j]? = some a := by
  have hlast : s.frames.size - 1 < s.frames.size := Nat.sub_lt h.pos Nat.one_pos
  obtain ⟨hfollow, rfl⟩ := follow_of_walk hwalk
  have hle := h.down.follow_le up _ _ hfollow
  exact ⟨rfl, _, Array.getElem?_eq_getElem (Nat.lt_of_le_of_lt hle hlast)⟩

theorem Chained.rawLoad_eq (h : Chained s.frames) (up slot : Nat) :
    rawLoad up slot s = raw (loadSlot up slot) s := by
  refine raw_bind (h.rawWalk_eq up) fun j t hwalk => ?_
  obtain ⟨rfl, a, ha⟩ := h.exists_of_walk hwalk
  simp only [bind, EStateM.bind, get_eq, rawGet_eq ha, raw, ha, Option.bind_some]
  cases a.locals[slot]? <;> rfl

theorem Chained.rawStore_eq (h : Chained s.frames) (up slot : Nat) (v : Value) :
    rawStore up slot v s = raw (storeSlot up slot v) s := by
  refine raw_bind (h.rawWalk_eq up) fun j t hwalk => ?_
  obtain ⟨rfl, a, ha⟩ := h.exists_of_walk hwalk
  simp only [bind, EStateM.bind, get_eq, rawGet_eq ha, raw, ha, Option.bind_some]
  cases a.locals[slot]? <;> rfl

theorem rawJump_eq (hR : image[r]? = some R) (l : Label) :
    rawJump image r l s = raw (jump image r l) s := by
  simp only [rawJump, jump, bind, EStateM.bind, rawGet_eq hR, hR, Option.bind_some]
  cases R.labels.lookup l <;> rfl

/-- Instructions need no check either. -/
theorem Chained.rawExec_eq (h : Chained s.frames) (hR : image[r]? = some R)
    (hback : s.frames.back?.map Activation.routine = some r) (i : Instr) :
    rawExec image r i s = raw (exec image r i) s := by
  cases i with
  | load up slot => exact raw_bind (h.rawLoad_eq up slot) fun v t _ => rfl
  | store up slot =>
    refine raw_bind rfl fun v t hpop => ?_
    exact (h.congr (steady_pop _ _ _ hpop)).rawStore_eq up slot v
  | ifCmp cond target =>
    refine raw_bind rfl fun b t _ => raw_bind rfl fun a t' _ => ?_
    cases order? a b with
    | none => rfl
    | some o =>
      simp only
      split
      · exact rawJump_eq hR target
      · rfl
  | ifStr equal target =>
    refine raw_bind rfl fun b t _ => raw_bind rfl fun a t' _ => ?_
    split
    · exact rawJump_eq hR target
    · rfl
  | ifBool value target =>
    refine raw_bind rfl fun b t _ => ?_
    split
    · exact rawJump_eq hR target
    · rfl
  | goto target => exact rawJump_eq hR target
  | call callee up => exact raw_bind (h.rawWalk_eq up) fun j t _ => rfl
  | ret =>
    obtain ⟨a, ha, rfl⟩ := Option.map_eq_some_iff.mp hback
    have hcurrent : raw current s = .ok a s := by
      simp only [raw, current, ha]
    have hget := rawGet_eq (s := s) hR
    change (raw current >>= fun a => rawGet image a.routine >>= fun _ => raw leave) s = raw leave s
    simp only [bind, EStateM.bind, hcurrent, hget]
  | _ => rfl

/-- **A step of the machine without checks is a step of the machine with them.** -/
theorem rawStep_eq (hs : s.Sound image) : rawStep image s = raw (step image) s := by
  refine raw_bind rfl fun a t hcurrent => ?_
  unfold current at hcurrent
  cases hback : s.frames.back? with
  | none =>
    rw [hback] at hcurrent
    cases hcurrent
  | some b =>
    rw [hback] at hcurrent
    cases hcurrent
    rw [Array.back?_eq_getElem?] at hback
    obtain ⟨R, hR⟩ := hs.loaded _ _ _ (links_of_getElem? hback)
    have hpos : 0 < s.frames.size := by
      have := (Array.getElem?_eq_some_iff.mp hback).1
      omega
    simp only [bind, EStateM.bind, rawGet_eq hR, hR, Option.bind_some]
    cases R.code[a.pc]? with
    | none => rfl
    | some i =>
      have hchained : Chained (withPc s.frames (a.pc + 1)) :=
        Chained.congr ⟨hpos, hs.down⟩ (links_withPc ..)
      refine hchained.rawExec_eq (s := ⟨s.stack, withPc s.frames (a.pc + 1), s.console⟩) hR ?_ i
      rw [back?_withPc, Array.back?_eq_getElem?, hback]
      rfl

theorem raw_ne_outOfBounds (m : Act α) (s t : State) : raw m s ≠ .error .outOfBounds t := by
  unfold raw
  cases m s with
  | ok a s' => simp
  | error f s' => simp

end Machine

/-- **No unit can break the machine.**  In every state of every run of a unit that can be loaded,
the links lead downward, routines and labels are where they should be and both stacks are within
their limits; a walk ends after at most as many rounds as there are activations; and the next step
looks up nothing that is not there. -/
theorem CodeUnit.sturdy_of_reachable {u : CodeUnit} {image : Image} (hload : u.load = .ok image)
    (input : List UInt8) {s : State} (hs : Machine.Reachable image input s) :
    s.Sturdy u image ∧
    (0 < s.frames.size → ∀ up, WalkEnds s.frames (s.frames.size - 1) up) ∧
    Machine.rawStep image s = Machine.raw (Machine.step image) s ∧
    ∀ t, Machine.rawStep image s ≠ .error .outOfBounds t := by
  have hsound : s.Sound image := .of_reachable hs
  refine ⟨⟨?_, ?_, ?_, hsound.depth, hsound.height⟩, ?_, rawStep_eq hsound, ?_⟩
  · intro k a j ha hlink
    exact hsound.down.lt ha hlink
  · intro k a ha
    obtain ⟨R, hR⟩ := hsound.loaded _ _ _ (links_of_getElem? ha)
    obtain ⟨r, hr, hloaded, -⟩ := CodeUnit.exists_loadedAs hload hR
    exact ⟨r, R, hr, hR, hloaded⟩
  · intro i R hR
    obtain ⟨r, hr, -, hlabels⟩ := CodeUnit.exists_loadedAs hload hR
    exact ⟨r, hr, hlabels⟩
  · intro hpos up
    exact hsound.down.walkEnds up _ (Nat.sub_lt hpos Nat.one_pos)
  · intro t
    rw [rawStep_eq hsound]
    exact raw_ne_outOfBounds _ s t

/-- Two routines that no program has: the second calls itself for ever, with a link that its static
chain is hardly long enough for, and leaves a value on the stack before each call. -/
def endlessCalls : CodeUnit :=
  ⟨"endless", [⟨"main", [], [.label 7, .call 1 0, .goto 7]⟩,
    ⟨"again", [.string], [.push (.int 1), .call 1 1]⟩]⟩

theorem endlessCalls_sturdy :
    ∃ image s, endlessCalls.load = .ok image ∧ Machine.Reachable image [] s ∧
      links s.frames = #[(0, none), (1, some 0), (1, some 0), (1, some 0)] ∧ s.stack.size = 2 ∧
      s.Sturdy endlessCalls image ∧ WalkEnds s.frames 3 (2 ^ 64 - 1) ∧
      Machine.rawStep image s = Machine.raw (Machine.step image) s := by
  have hcheck : (match Machine.begin endlessCalls [] with
      | .ok (image, s) =>
        match Machine.after image 6 s with
        | some t => decide (links t.frames = #[(0, none), (1, some 0), (1, some 0), (1, some 0)] ∧
            t.stack.size = 2)
        | none => false
      | .error _ => false) = true := by decide +kernel
  split at hcheck
  · rename_i image s hbegin
    split at hcheck
    · rename_i t hafter
      obtain ⟨hload, henter⟩ := enter_of_begin hbegin
      have hreach : Machine.Reachable image [] t := (Machine.Reachable.enter henter).after hafter
      obtain ⟨hlinks, hheight⟩ := of_decide_eq_true hcheck
      obtain ⟨hsturdy, hwalk, hraw, -⟩ := CodeUnit.sturdy_of_reachable hload [] hreach
      have hsize : t.frames.size = 4 := by
        rw [← size_links, hlinks]
        rfl
      rw [hsize] at hwalk
      exact ⟨image, t, hload, hreach, hlinks, hheight, hsturdy, hwalk (by decide) _, hraw⟩
    · cases hcheck
  · cases hcheck

end PLZero
