import PLZero.Proofs.Machine.Links

/-!
# What a step does to the operand stack and to positions in code

* `Instr.pops`, `Instr.pushes` — how many values an instruction takes and how many it leaves.
* `Machine.Shifts` — an action that changes the height of the operand stack by so much, and
  overflows only if there is no room for what it leaves.
* `Machine.Moves` — all that a step can do: it goes on to the next instruction, jumps, begins an
  activation or ends one.
* `Machine.moves_of_step`, `Machine.overflow_of_step` — every step that succeeds is one of these,
  and a step that overflows had no room.

None of this depends on the values: how high the stack is after a step is decided by the
instruction.
-/

namespace PLZero

/-- The values that an instruction takes from the operand stack. -/
def Instr.pops : Instr → Nat
  | .push _ | .load .. | .goto _ | .label _ | .call .. | .read _ | .ret => 0
  | .store .. | .pop | .not | .ifBool .. | .print _ => 1
  | .arith _ | .and | .or | .concat | .swap | .dup2 | .strEquals | .startsWith | .endsWith
  | .ifCmp .. | .ifStr .. => 2
  | .dupX2 => 3

/-- The values that an instruction leaves on the operand stack. -/
def Instr.pushes : Instr → Nat
  | .store .. | .pop | .ifCmp .. | .ifStr .. | .ifBool .. | .goto _ | .label _ | .call .. | .print _
  | .ret => 0
  | .push _ | .load .. | .arith _ | .and | .or | .concat | .strEquals | .startsWith | .endsWith
  | .not | .read _ => 1
  | .swap => 2
  | .dup2 | .dupX2 => 4

/-- The positions of the activations in their code. -/
def pcs (fs : Array Activation) : Array Nat := fs.map Activation.pc

@[simp] theorem size_pcs (fs : Array Activation) : (pcs fs).size = fs.size := Array.size_map

theorem getElem?_pcs {fs : Array Activation} {i : Nat} : (pcs fs)[i]? = fs[i]?.map Activation.pc :=
  Array.getElem?_map

theorem pcs_modify {f : Activation → Activation} (fs : Array Activation) (i : Nat)
    (hf : ∀ a, (f a).pc = a.pc) : pcs (fs.modify i f) = pcs fs := by
  apply Array.ext_getElem?
  intro j
  simp only [pcs, Array.getElem?_map, Array.getElem?_modify]
  split
  · simp [Function.comp_def, hf]
  · rfl

theorem pcs_withPc (fs : Array Activation) (pc : Nat) :
    pcs (withPc fs pc) = (pcs fs).modify ((pcs fs).size - 1) fun _ => pc := by
  apply Array.ext_getElem?
  intro j
  simp only [pcs, withPc, Array.size_map, Array.getElem?_map, Array.getElem?_modify]
  split
  · simp [Function.comp_def]
  · rfl

/-- What is wrong with a line of input is no overflow. -/
theorem Console.read_ne_overflow (ty : Ty) (c : Console) :
    (c.read ty).1 ≠ .error .stackOverflow := by
  have hparse (line : List Char) : parse ty line ≠ .error .stackOverflow := by
    cases ty with
    | number =>
      simp only [parse]
      split <;> simp
    | boolean =>
      simp only [parse]
      split
      · simp
      · split <;> simp
    | string | procedure => simp [parse]
  unfold read
  split
  · simp
  · simp only [parseLine]
    split
    · exact hparse _
    · simp

namespace Machine

/-! ## Actions -/

/-- Every activation stays where it is, or the current one goes to the label. -/
def Goes (image : Image) (r : Nat) (target : Option Label) (fs fs' : Array Activation) : Prop :=
  pcs fs' = pcs fs ∨ ∃ l R pc, target = some l ∧ image[r]? = some R ∧ R.labels.lookup l = some pc ∧
    pcs fs' = pcs (withPc fs pc)

/-- The action takes `down` values from the operand stack and leaves `up` on it.  If it overflows,
there is no room for them. -/
def Shifts {α : Type} (image : Image) (r down up : Nat) (target : Option Label) (m : Act α) :
    Prop :=
  ∀ s, s.stack.size ≤ maxOperandStack →
    match m s with
    | .ok _ t => t.stack.size + down = s.stack.size + up ∧ t.stack.size ≤ maxOperandStack ∧
        Goes image r target s.frames t.frames
    | .error f _ => f = .stackOverflow → maxOperandStack + down < s.stack.size + up

variable {α β : Type} {image : Image} {r down up : Nat} {target : Option Label}

namespace Shifts

theorem pure (a : α) : Shifts image r 0 0 target (Pure.pure a) := by
  intro s hs
  exact ⟨rfl, hs, .inl rfl⟩

theorem throw {f : MachineFault} (hf : f ≠ .stackOverflow) :
    Shifts image r down up target (throw f : Act α) := by
  intro s _ heq
  exact absurd heq hf

/-- Heights add up.  An overflow of the first action leaves no room for both if the second takes no
more than it leaves, and there is none if the first leaves nothing. -/
theorem bind {m : Act α} {f : α → Act β} {down' up' : Nat} (hm : Shifts image r down up none m)
    (hf : ∀ a, Shifts image r down' up' target (f a)) (hroom : up = 0 ∨ down' ≤ up') :
    Shifts image r (down' + down) (up' + up) target (m >>= f) := by
  intro s hs
  have hfirst := hm s hs
  change match EStateM.bind m f s with
    | .ok _ t => _
    | .error f _ => _
  unfold EStateM.bind
  cases hms : m s with
  | error fault s₁ =>
    rw [hms] at hfirst
    intro heq
    have := hfirst heq
    omega
  | ok a s₁ =>
    rw [hms] at hfirst
    obtain ⟨hheight, hle, hgoes⟩ := hfirst
    have hpcs : pcs s₁.frames = pcs s.frames := by
      rcases hgoes with h | ⟨_, _, _, h, _⟩
      · exact h
      · cases h
    have hsecond := hf a s₁ hle
    simp only
    cases hfa : f a s₁ with
    | error fault t =>
      rw [hfa] at hsecond
      intro heq
      have := hsecond heq
      omega
    | ok b t =>
      rw [hfa] at hsecond
      obtain ⟨hheight', hle', hgoes'⟩ := hsecond
      refine ⟨by omega, hle', ?_⟩
      unfold Goes at hgoes' ⊢
      simp only [pcs_withPc] at hgoes' ⊢
      rwa [hpcs] at hgoes'

theorem get {f : State → Act β} (hf : ∀ s, Shifts image r down up target (f s)) :
    Shifts image r down up target (MonadState.get >>= f) := by
  intro s hs
  exact hf s s hs

theorem modify {f : State → State} (hstack : ∀ s, (f s).stack = s.stack)
    (hpcs : ∀ s, pcs (f s).frames = pcs s.frames) : Shifts image r 0 0 target (modify f) := by
  intro s hs
  refine ⟨?_, ?_, .inl (hpcs s)⟩
  · rw [hstack]
  · rw [hstack]
    exact hs

theorem ite {c : Prop} [Decidable c] {m m' : Act α} (hm : Shifts image r down up target m)
    (hm' : Shifts image r down up target m') :
    Shifts image r down up target (if c then m else m') := by
  split
  · exact hm
  · exact hm'

end Shifts

theorem shifts_push (v : Value) : Shifts image r 0 1 none (push v) := by
  intro s hs
  unfold push
  by_cases hlt : s.stack.size < maxOperandStack
  · rw [if_pos hlt]
    refine ⟨by simp, ?_, .inl rfl⟩
    rw [Array.size_push]
    exact hlt
  · rw [if_neg hlt]
    intro _
    omega

theorem shifts_pop : Shifts image r 1 0 none pop := by
  intro s hs
  unfold pop
  cases hback : s.stack.back? with
  | none => exact fun heq => nomatch heq
  | some v =>
    have hne : s.stack.size ≠ 0 := by
      intro hzero
      rw [Array.back?_eq_getElem?, Array.getElem?_eq_none (by omega)] at hback
      cases hback
    refine ⟨?_, ?_, .inl rfl⟩
    · simp only [Array.size_pop]
      omega
    · simp only [Array.size_pop]
      omega

theorem shifts_popInt : Shifts image r 1 0 none popInt := by
  refine shifts_pop.bind (fun v => ?_) (.inl rfl)
  split
  · exact .pure _
  · exact .throw (by simp)

theorem shifts_popBool : Shifts image r 1 0 none popBool := by
  refine shifts_pop.bind (fun v => ?_) (.inl rfl)
  split
  · exact .pure _
  · exact .throw (by simp)

theorem shifts_popStr : Shifts image r 1 0 none popStr := by
  refine shifts_pop.bind (fun v => ?_) (.inl rfl)
  split
  · exact .pure _
  · exact .throw (by simp)

theorem shifts_liftExcept {x : Except MachineFault α} (hx : x ≠ .error .stackOverflow) :
    Shifts image r 0 0 none (liftExcept x) := by
  cases x with
  | ok a => exact .pure a
  | error fault =>
    refine .throw fun heq => hx ?_
    rw [heq]

theorem shifts_walk (up : Nat) : Shifts image r 0 0 none (walk up) := by
  intro s hs
  cases hwalk : walk up s with
  | error f t =>
    intro heq
    rcases fault_of_walk hwalk with rfl | rfl <;> cases heq
  | ok index t =>
    obtain ⟨-, rfl⟩ := follow_of_walk hwalk
    exact ⟨rfl, hs, .inl rfl⟩

theorem shifts_loadSlot (up slot : Nat) : Shifts image r 0 0 none (loadSlot up slot) := by
  refine (shifts_walk up).bind (fun index => .get fun s => ?_) (.inl rfl)
  split
  · exact .pure _
  · exact .throw (by simp)

theorem shifts_storeSlot (up slot : Nat) (v : Value) :
    Shifts image r 0 0 none (storeSlot up slot v) := by
  refine (shifts_walk up).bind (fun index => .get fun s => ?_) (.inl rfl)
  split
  · refine .modify (fun _ => rfl) fun s => ?_
    exact pcs_modify (f := fun a => { a with locals := a.locals.setIfInBounds slot v }) s.frames
      index fun _ => rfl
  · exact .throw (by simp)

/-- A jump goes to its label. -/
theorem jump_ok {l : Label} {s t : State} (h : jump image r l s = .ok () t) :
    ∃ R pc, image[r]? = some R ∧ R.labels.lookup l = some pc ∧
      t = ⟨s.stack, withPc s.frames pc, s.console⟩ := by
  unfold jump at h
  cases hlookup : image[r]?.bind fun R => R.labels.lookup l with
  | none =>
    rw [hlookup] at h
    cases h
  | some pc =>
    rw [hlookup] at h
    obtain ⟨R, hR, hpc⟩ := Option.bind_eq_some_iff.mp hlookup
    cases h
    exact ⟨R, pc, hR, hpc, rfl⟩

theorem shifts_jump (l : Label) : Shifts image r 0 0 (some l) (jump image r l) := by
  intro s hs
  cases hjump : jump image r l s with
  | ok _ t =>
    obtain ⟨R, pc, hR, hpc, rfl⟩ := jump_ok hjump
    exact ⟨rfl, hs, .inr ⟨l, R, pc, rfl, hR, hpc, rfl⟩⟩
  | error f t =>
    rintro rfl
    unfold jump at hjump
    cases hlookup : image[r]?.bind fun R => R.labels.lookup l with
    | none =>
      rw [hlookup] at hjump
      cases hjump
    | some pc =>
      rw [hlookup] at hjump
      cases hjump

/-! ## Instructions -/

/-- Faults of arithmetic are no overflows. -/
theorem arith_ne_overflow (op : Arith) (a b : Int32) : arith op a b ≠ .error .stackOverflow := by
  cases op with
  | add | sub | mul => simp [arith]
  | div | rem =>
    simp only [arith]
    split <;> simp

/-- An instruction other than calls and returns takes and leaves as many values as it should. -/
theorem shifts_exec (image : Image) (r : Nat) {i : Instr} (hcall : ∀ callee up, i ≠ .call callee up)
    (hret : i ≠ .ret) : Shifts image r i.pops i.pushes i.target? (exec image r i) := by
  cases i with
  | push v => exact shifts_push v
  | load up slot => exact (shifts_loadSlot up slot).bind (fun v => shifts_push v) (.inl rfl)
  | store up slot => exact shifts_pop.bind (fun v => shifts_storeSlot up slot v) (.inl rfl)
  | arith op =>
    exact shifts_popInt.bind (fun b => shifts_popInt.bind (fun a =>
      (shifts_liftExcept (arith_ne_overflow op a b)).bind (fun n => shifts_push _) (.inl rfl))
        (.inl rfl)) (.inl rfl)
  | and | or =>
    exact shifts_popBool.bind (fun b => shifts_popBool.bind (fun a => shifts_push _) (.inl rfl))
      (.inl rfl)
  | concat | strEquals | startsWith | endsWith =>
    exact shifts_popStr.bind (fun b => shifts_popStr.bind (fun a => shifts_push _) (.inl rfl))
      (.inl rfl)
  | pop => exact shifts_pop.bind (fun _ => .pure _) (.inl rfl)
  | swap =>
    exact shifts_pop.bind (fun b => shifts_pop.bind (fun a =>
      (shifts_push b).bind (fun _ => shifts_push a) (.inr (Nat.zero_le _))) (.inl rfl)) (.inl rfl)
  | dup2 =>
    refine shifts_pop.bind (fun b => shifts_pop.bind (fun a => ?_) (.inl rfl)) (.inl rfl)
    exact (shifts_push a).bind (fun _ => (shifts_push b).bind (fun _ => (shifts_push a).bind
      (fun _ => shifts_push b) (.inr (Nat.zero_le _))) (.inr (Nat.zero_le _)))
      (.inr (Nat.zero_le _))
  | dupX2 =>
    refine shifts_pop.bind (fun a => shifts_pop.bind (fun b => shifts_pop.bind (fun c => ?_)
      (.inl rfl)) (.inl rfl)) (.inl rfl)
    exact (shifts_push a).bind (fun _ => (shifts_push c).bind (fun _ => (shifts_push b).bind
      (fun _ => shifts_push a) (.inr (Nat.zero_le _))) (.inr (Nat.zero_le _)))
      (.inr (Nat.zero_le _))
  | not =>
    refine shifts_pop.bind (fun v => ?_) (.inl rfl)
    have hnegate : v.negate ≠ .error .stackOverflow := by cases v <;> simp [Value.negate]
    exact (shifts_liftExcept hnegate).bind (fun w => shifts_push w) (.inl rfl)
  | ifCmp cond target =>
    refine shifts_pop.bind (fun b => shifts_pop.bind (fun a => ?_) (.inl rfl)) (.inl rfl)
    split
    · exact .ite (shifts_jump target) (.pure _)
    · exact .throw (by simp)
  | ifStr equal target =>
    exact shifts_popStr.bind (fun b => shifts_popStr.bind (fun a =>
      .ite (shifts_jump target) (.pure _)) (.inl rfl)) (.inl rfl)
  | ifBool value target =>
    exact shifts_popBool.bind (fun b => .ite (shifts_jump target) (.pure _)) (.inl rfl)
  | goto target => exact shifts_jump target
  | label l => exact .pure _
  | call callee up => exact absurd rfl (hcall callee up)
  | print ty =>
    refine shifts_pop.bind (fun v => ?_) (.inl rfl)
    have hprint : v.print ty ≠ .error .stackOverflow := by
      cases ty <;> cases v <;> simp [Value.print]
    exact (shifts_liftExcept hprint).bind (fun text => .modify (fun _ => rfl) fun _ => rfl)
      (.inl rfl)
  | read ty =>
    refine .get fun s => ?_
    have hread := s.console.read_ne_overflow ty
    generalize s.console.read ty = result at hread
    have hconsole : Shifts image r 0 0 none
        (modify fun s => { s with console := result.2 } : Act PUnit) :=
      .modify (fun _ => rfl) fun _ => rfl
    exact hconsole.bind
      (fun _ => (shifts_liftExcept hread).bind (fun v => shifts_push v) (.inl rfl)) (.inl rfl)
  | ret => exact absurd rfl hret

/-! ## Steps -/

/-- The current activation `a` has come to the instruction `i` of its routine `R`. -/
structure Fetches (image : Image) (s : State) (a : Activation) (R : LoadedRoutine) (i : Instr) :
    Prop where
  back : s.frames.back? = some a
  loaded : image[a.routine]? = some R
  code : R.code[a.pc]? = some i

/-- What a step can do. -/
inductive Moves (image : Image) (s t : State) : Prop where
  | next {a : Activation} {R : LoadedRoutine} {i : Instr} : Fetches image s a R i →
      (∀ l, i ≠ .goto l) → (∀ callee up, i ≠ .call callee up) → i ≠ .ret →
      t.stack.size + i.pops = s.stack.size + i.pushes → t.stack.size ≤ maxOperandStack →
      links t.frames = links s.frames → pcs t.frames = pcs (withPc s.frames (a.pc + 1)) →
      Moves image s t
  | jump {a : Activation} {R : LoadedRoutine} {i : Instr} {l : Label} {pc : Nat} :
      Fetches image s a R i → i.target? = some l → R.labels.lookup l = some pc →
      t.stack.size + i.pops = s.stack.size + i.pushes → t.stack.size ≤ maxOperandStack →
      links t.frames = links s.frames → pcs t.frames = pcs (withPc s.frames pc) → Moves image s t
  | enter {a : Activation} {R R' : LoadedRoutine} {callee up link : Nat} :
      Fetches image s a R (.call callee up) → follow s.frames up (s.frames.size - 1) = some link →
      s.frames.size < maxCallDepth → image[callee]? = some R' → t.stack = s.stack →
      links t.frames = (links s.frames).push (callee, some link) →
      pcs t.frames = (pcs (withPc s.frames (a.pc + 1))).push 0 → Moves image s t
  | leave {a : Activation} {R : LoadedRoutine} : Fetches image s a R .ret → t.stack = s.stack →
      t.frames = s.frames.pop → Moves image s t

/-- A new activation is at the beginning of its routine, which there is. -/
theorem enter_ok {callee : Nat} {link : Option Nat} {s t : State}
    (h : enter image callee link s = .ok () t) :
    s.frames.size < maxCallDepth ∧ (∃ R, image[callee]? = some R) ∧ t.stack = s.stack ∧
      pcs t.frames = (pcs s.frames).push 0 := by
  obtain ⟨st, fs, c⟩ := s
  cases hR : image[callee]? with
  | none =>
    simp only [enter, bind, EStateM.bind, get_eq, hR] at h
    split at h <;> cases h
  | some R =>
    rw [enter_eq link hR] at h
    split at h
    · cases h
    · rename_i hdepth
      cases h
      exact ⟨Nat.lt_of_not_le hdepth, ⟨R, rfl⟩, rfl, Array.map_push⟩

/-- **Every step that succeeds is one of these.** -/
theorem moves_of_step {s t : State} (h : step image s = .ok () t)
    (hs : s.stack.size ≤ maxOperandStack) : Moves image s t := by
  obtain ⟨a, R, i, hback, hR, hi, hexec⟩ := exists_of_step h
  have hfetch : Fetches image s a R i := ⟨hback, hR, hi⟩
  by_cases hret : i = .ret
  · subst hret
    rw [exec_ret] at hexec
    cases hexec
    exact .leave hfetch rfl rfl
  by_cases hcall : ∃ callee up, i = .call callee up
  · obtain ⟨callee, up, rfl⟩ := hcall
    obtain ⟨link, hfollow, henter⟩ := exists_of_call hexec
    obtain ⟨hdepth, ⟨R', hR'⟩, hstack, hpcs⟩ := enter_ok henter
    rw [size_withPc] at hdepth
    have hlinks := links_of_enter henter
    rw [links_withPc] at hlinks
    exact .enter hfetch hfollow hdepth hR' hstack hlinks hpcs
  have hcall' : ∀ callee up, i ≠ .call callee up := fun callee up heq => hcall ⟨callee, up, heq⟩
  have hlinks : links t.frames = links s.frames :=
    (steady_exec image a.routine hcall' hret _ _ _ hexec).trans (links_withPc ..)
  have hshift := shifts_exec image a.routine hcall' hret
    ⟨s.stack, withPc s.frames (a.pc + 1), s.console⟩ hs
  rw [hexec] at hshift
  obtain ⟨hheight, hle, hgoes⟩ := hshift
  by_cases hgoto : ∃ l, i = .goto l
  · obtain ⟨l, rfl⟩ := hgoto
    obtain ⟨R', pc, hR', hpc, rfl⟩ := jump_ok hexec
    obtain rfl : R = R' := Option.some.inj (hR.symm.trans hR')
    refine .jump hfetch rfl hpc hheight hle hlinks ?_
    rw [withPc_withPc]
  · rcases hgoes with hstays | ⟨l, R', pc, hl, hR', hpc, hpcs⟩
    · exact .next hfetch (fun l heq => hgoto ⟨l, heq⟩) hcall' hret hheight hle hlinks hstays
    · obtain rfl : R = R' := Option.some.inj (hR.symm.trans hR')
      refine .jump hfetch hl hpc hheight hle hlinks ?_
      rw [hpcs, withPc_withPc]

/-- A step carries out an instruction, unless there is none to carry out. -/
theorem step_cases (image : Image) (s : State) :
    (∃ a R i, Fetches image s a R i ∧ step image s =
      exec image a.routine i ⟨s.stack, withPc s.frames (a.pc + 1), s.console⟩) ∨
    ∃ f, (f = .noActivation ∨ f = .fellOff) ∧ step image s = .error f s := by
  simp only [step, current, bind, EStateM.bind]
  cases hback : s.frames.back? with
  | none => exact .inr ⟨.noActivation, .inl rfl, rfl⟩
  | some a =>
    simp only
    cases hcode : image[a.routine]?.bind fun R => R.code[a.pc]? with
    | none => exact .inr ⟨.fellOff, .inr rfl, rfl⟩
    | some i =>
      obtain ⟨R, hR, hi⟩ := Option.bind_eq_some_iff.mp hcode
      exact .inl ⟨a, R, i, ⟨hback, hR, hi⟩, rfl⟩

theorem call_ne_overflow (callee up : Nat) (s t : State) :
    exec image r (.call callee up) s ≠ .error .stackOverflow t := by
  intro h
  simp only [exec, bind, EStateM.bind] at h
  cases hwalk : walk up s with
  | error f u =>
    rw [hwalk] at h
    cases h
    rcases fault_of_walk hwalk with heq | heq <;> cases heq
  | ok link u =>
    rw [hwalk] at h
    cases hR : image[callee]? with
    | none =>
      simp only [enter, bind, EStateM.bind, get_eq, hR] at h
      split at h <;> cases h
    | some R =>
      simp only [enter_eq (some link) hR] at h
      split at h <;> cases h

/-- A step that overflows has no room for the values that its instruction leaves. -/
theorem overflow_of_step {s t : State} (h : step image s = .error .stackOverflow t)
    (hs : s.stack.size ≤ maxOperandStack) :
    ∃ a R i, Fetches image s a R i ∧ maxOperandStack + i.pops < s.stack.size + i.pushes := by
  rcases step_cases image s with ⟨a, R, i, hfetch, hstep⟩ | ⟨f, hf, hstep⟩
  · refine ⟨a, R, i, hfetch, ?_⟩
    rw [hstep] at h
    by_cases hret : i = .ret
    · subst hret
      rw [exec_ret] at h
      cases h
    by_cases hcall : ∃ callee up, i = .call callee up
    · obtain ⟨callee, up, rfl⟩ := hcall
      exact absurd h (call_ne_overflow callee up _ t)
    · have hshift := shifts_exec image a.routine (fun callee up heq => hcall ⟨callee, up, heq⟩) hret
        ⟨s.stack, withPc s.frames (a.pc + 1), s.console⟩ hs
      rw [h] at hshift
      exact hshift rfl
  · rw [hstep] at h
    rcases hf with rfl | rfl <;> cases h

end Machine

end PLZero
