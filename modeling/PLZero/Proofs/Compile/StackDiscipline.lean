import Mathlib.Order.MinMax
import PLZero.Proofs.Code.Heights
import PLZero.Proofs.Compile.StaticScope

/-!
# The operand stack of compiled units

* `Block.heights` — the heights in the routine of a block; `Block.level_of_code` says that they fit
  it.
* `State.Balanced` — the operand stack is as high as the place of the current activation says, and
  every caller waits at a place where the stack is empty.
* `State.Balanced.step` — steps keep that.
* `CodeUnit.disciplined_of_reachable` — in every state of every run of a compiled unit the stack is
  empty between statements and no higher than the expressions of the program need.
-/

namespace PLZero

open Machine

/-- The heights in the routine of a block: those of its statement, and that before the return. -/
def Block.heights (block : Block) : List Nat := block.stmt.heights ++ [0]

variable {p : Program} {l : Layout} {image : Image} {s t : State}

section Routine

variable {block : Block} {R : LoadedRoutine} {seg : List Instr} {c c' : Nat}

theorem Block.stands_heights (block : Block) : Stands block.heights 0 block.stmt.heights := by
  intro k h hk
  rw [Nat.zero_add, Block.heights, List.getElem?_append_left]
  · exact hk
  · exact (List.getElem?_eq_some_iff.mp hk).1

theorem Block.end_heights (hcode : block.stmt.code l c = .ok (seg, c')) :
    block.heights[0 + seg.length]? = some 0 := by
  rw [Nat.zero_add, Block.heights, ← block.stmt.length_heights hcode, List.getElem?_concat_length]

/-- A routine starts with an empty stack. -/
theorem Block.start_heights (hcode : block.stmt.code l c = .ok (seg, c')) :
    block.heights[0]? = some 0 := by
  refine start_of_stands block.stmt.head_heights block.stands_heights ?_
  rw [block.stmt.length_heights hcode]
  exact Block.end_heights hcode

/-- **The heights of a block fit the code of its routine.** -/
theorem Block.level_of_code (hcode : block.stmt.code l c = .ok (seg, c'))
    (hR : R.code = (seg ++ [Instr.ret]).toArray) {pc h : Nat} {i : Instr}
    (hi : R.code[pc]? = some i) (hh : block.heights[pc]? = some h) :
    i.Level R block.heights pc h := by
  have hret : Instr.ret.Level R block.heights (0 + seg.length) 0 :=
    ⟨fun _ hne => absurd rfl hne, nofun, fun _ => rfl⟩
  have hhas : R.Has 0 seg := LoadedRoutine.has_of_code [] [.ret] hR
  have hbody := block.stmt.levelled_code hcode hhas block.stands_heights (Block.end_heights hcode)
  have hlevel := (hbody.append (.one hret)).level pc i h
  rw [Nat.zero_add] at hlevel
  rw [hR, List.getElem?_toArray] at hi
  exact hlevel hi hh

theorem Program.lt_need {m : Nat} : m < p.need ↔ m < 1 ∨ ∃ e ∈ p.expressions, m < e.need := by
  unfold Program.need
  induction p.expressions with
  | nil => simp
  | cons e es ih =>
    simp only [List.map_cons, List.foldr_cons, lt_max_iff, ih, List.mem_cons, exists_eq_or_imp]
    tauto

/-- No height is more than what the expressions of the program need. -/
theorem Block.heights_le {r : Nat} (hblock : p.block? l r = some block) :
    ∀ x ∈ block.heights, x ≤ p.need := by
  have hneed : ∀ e ∈ p.expressions, e.need ≤ p.need := fun e he =>
    Nat.le_of_not_lt fun hlt => Nat.lt_irrefl _ (Program.lt_need.mpr (.inr ⟨e, he, hlt⟩))
  have hone : 1 ≤ p.need := Program.lt_need.mpr (.inl Nat.zero_lt_one)
  have hexprs : ∀ e ∈ block.stmt.exprs, e ∈ p.expressions := by
    intro e he
    rw [Program.expressions, List.mem_append]
    rcases Program.exists_of_block? hblock with ⟨-, rfl⟩ | ⟨head, nest, hmem, -⟩
    · exact .inr he
    · exact .inl (Decl.exprsList_subset p.block.decls hmem e he)
  intro x hx
  rcases List.mem_append.mp hx with hx | hx
  · exact block.stmt.heights_le hone (fun e he => hneed e (hexprs e he)) x hx
  · cases List.mem_singleton.mp hx
    exact Nat.zero_le _

end Routine

/-! ## The invariant -/

/-- Every activation is at a place of its routine.  The stack is as high as the place of the current
one says, and the callers wait where it is empty. -/
structure State.Balanced (p : Program) (l : Layout) (s : State) : Prop where
  idle : s.frames.size = 0 → s.stack.size = 0
  level : ∀ (k r pc : Nat) (link : Option Nat), (links s.frames)[k]? = some (r, link) →
    (pcs s.frames)[k]? = some pc →
    ∃ block, p.block? l r = some block ∧
      block.heights[pc]? = some (if k + 1 = s.frames.size then s.stack.size else 0)

/-- What is known of the image of a compiled unit. -/
structure Image.Compiled (image : Image) (p : Program) (l : Layout) : Prop where
  analyzed : p.Analyzed
  placed : p.Placed l
  codes : image.Codes p l
  labelled : ∀ (r : Nat) (R : LoadedRoutine), image[r]? = some R → R.Labelled

theorem getElem?_pcs_withPc {fs : Array Activation} {k pc q : Nat}
    (h : (pcs (withPc fs pc))[k]? = some q) :
    (k + 1 = fs.size ∧ q = pc) ∨ (k + 1 ≠ fs.size ∧ (pcs fs)[k]? = some q) := by
  have hlt : k < fs.size := by
    have := (Array.getElem?_eq_some_iff.mp h).1
    rwa [size_pcs, size_withPc] at this
  rw [pcs_withPc, Array.getElem?_modify, size_pcs] at h
  split at h
  · rename_i hlast
    obtain ⟨-, -, rfl⟩ := Option.map_eq_some_iff.mp h
    exact .inl ⟨by omega, rfl⟩
  · exact .inr ⟨by omega, h⟩

/-- Every activation runs the routine of a block. -/
theorem Scoped.exists_block {fs : Array Activation} {k r : Nat} {link : Option Nat}
    (h : Scoped p l fs) (hk : (links fs)[k]? = some (r, link)) :
    ∃ block, p.block? l r = some block := by
  obtain ⟨a, ha, rfl, -⟩ := exists_of_links hk
  cases k with
  | zero => exact ⟨p.block, by rw [(h.bottom a ha).1]; rfl⟩
  | succ k =>
    obtain ⟨call, j, -, hlinked⟩ := h.linked k a ha
    exact ⟨call.body, hlinked.callee⟩

theorem scoped_start (input : List UInt8) : Scoped p l (State.start input).frames := by
  constructor
  · intro a ha
    simp [State.start] at ha
  · intro k a ha
    simp [State.start] at ha

namespace State.Balanced

/-- The place of the current activation. -/
theorem current {a : Activation} (h : s.Balanced p l) (hback : s.frames.back? = some a) :
    ∃ block, p.block? l a.routine = some block ∧ block.heights[a.pc]? = some s.stack.size := by
  rw [Array.back?_eq_getElem?] at hback
  have hlt := (Array.getElem?_eq_some_iff.mp hback).1
  obtain ⟨block, hblock, hheight⟩ := h.level _ a.routine a.pc a.link (links_of_getElem? hback)
    (by rw [getElem?_pcs, hback, Option.map_some])
  rw [if_pos (by omega)] at hheight
  exact ⟨block, hblock, hheight⟩

/-- The instruction that comes next fits the heights of its block. -/
theorem fetched {a : Activation} {R : LoadedRoutine} {i : Instr} (h : s.Balanced p l)
    (himage : image.Compiled p l) (hfetch : Fetches image s a R i) :
    ∃ block, p.block? l a.routine = some block ∧
      i.Level R block.heights a.pc s.stack.size := by
  obtain ⟨block, hblock, hheight⟩ := h.current hfetch.back
  obtain ⟨seg, c, c', hcode, hR⟩ := himage.codes _ _ _ hblock hfetch.loaded
  exact ⟨block, hblock, Block.level_of_code hcode hR hfetch.code hheight⟩

/-- The current activation goes on at another place. -/
theorem moved {a : Activation} {block : Block} {pc : Nat} (h : s.Balanced p l)
    (hback : s.frames.back? = some a) (hblock : p.block? l a.routine = some block)
    (hheight : block.heights[pc]? = some t.stack.size) (hlinks : links t.frames = links s.frames)
    (hpcs : pcs t.frames = pcs (withPc s.frames pc)) : t.Balanced p l := by
  have hsize : t.frames.size = s.frames.size := by rw [← size_links, hlinks, size_links]
  rw [Array.back?_eq_getElem?] at hback
  have hlt := (Array.getElem?_eq_some_iff.mp hback).1
  refine ⟨fun hzero => by omega, fun k r q link hk hq => ?_⟩
  rw [hlinks] at hk
  rw [hpcs] at hq
  rw [hsize]
  rcases getElem?_pcs_withPc hq with ⟨hlast, rfl⟩ | ⟨hother, hq⟩
  · rw [if_pos hlast]
    obtain rfl : k = s.frames.size - 1 := by omega
    rw [links_of_getElem? hback] at hk
    cases hk
    exact ⟨block, hblock, hheight⟩
  · rw [if_neg hother]
    obtain ⟨block', hblock', hheight'⟩ := h.level k r q link hk hq
    rw [if_neg hother] at hheight'
    exact ⟨block', hblock', hheight'⟩

/-- An activation begins, with an empty stack. -/
theorem entered {callee : Nat} {link : Option Nat} {block : Block} (h : s.Balanced p l)
    (hblock : p.block? l callee = some block) (hstart : block.heights[0]? = some 0)
    (hempty : s.stack.size = 0) (hstack : t.stack = s.stack)
    (hlinks : links t.frames = (links s.frames).push (callee, link))
    (hpcs : pcs t.frames = (pcs s.frames).push 0) : t.Balanced p l := by
  have hsize : t.frames.size = s.frames.size + 1 := by
    rw [← size_links t.frames, hlinks, Array.size_push, size_links]
  refine ⟨fun hzero => by omega, fun k r pc link' hk hpc => ?_⟩
  rw [hlinks, Array.getElem?_push, size_links] at hk
  rw [hpcs, Array.getElem?_push, size_pcs] at hpc
  rw [hstack, hempty, ite_self]
  by_cases hnew : k = s.frames.size
  · rw [if_pos hnew] at hk hpc
    cases hk
    cases hpc
    exact ⟨block, hblock, hstart⟩
  · rw [if_neg hnew] at hk hpc
    obtain ⟨block', hblock', hheight⟩ := h.level k r pc link' hk hpc
    rw [hempty, ite_self] at hheight
    exact ⟨block', hblock', hheight⟩

/-- The current activation ends, with an empty stack. -/
theorem left (h : s.Balanced p l) (hempty : s.stack.size = 0) (hstack : t.stack = s.stack)
    (hframes : t.frames = s.frames.pop) : t.Balanced p l := by
  refine ⟨fun _ => by rw [hstack, hempty], fun k r pc link hk hpc => ?_⟩
  rw [hstack, hempty, ite_self]
  have hlt : k < t.frames.size := by
    rw [← size_links]
    exact (Array.getElem?_eq_some_iff.mp hk).1
  rw [hframes, Array.size_pop] at hlt
  rw [getElem?_links, hframes, Array.getElem?_pop, if_pos hlt, ← getElem?_links] at hk
  rw [getElem?_pcs, hframes, Array.getElem?_pop, if_pos hlt, ← getElem?_pcs] at hpc
  obtain ⟨block, hblock, hheight⟩ := h.level k r pc link hk hpc
  rw [hempty, ite_self] at hheight
  exact ⟨block, hblock, hheight⟩

/-- **A step keeps the stack in balance.** -/
theorem step (h : s.Balanced p l) (himage : image.Compiled p l) (hscoped : Scoped p l t.frames)
    (hstep : Machine.step image s = .ok () t) (hs : s.stack.size ≤ maxOperandStack) :
    t.Balanced p l := by
  cases moves_of_step hstep hs with
  | @next a R i hfetch hgoto _ hret hsize _ hlinks hpcs =>
    obtain ⟨block, hblock, hlevel⟩ := h.fetched himage hfetch
    obtain ⟨h', hnext, heq⟩ := hlevel.next hgoto hret
    obtain rfl : h' = t.stack.size := by omega
    exact h.moved hfetch.back hblock hnext hlinks hpcs
  | @jump a R i label pc hfetch htarget hlookup hsize _ hlinks hpcs =>
    obtain ⟨block, hblock, hlevel⟩ := h.fetched himage hfetch
    obtain ⟨q, h', hlabel, hthere, heq⟩ := hlevel.jump label htarget
    obtain rfl : h' = t.stack.size := by omega
    have hq := himage.labelled _ _ hfetch.loaded q label hlabel
    obtain rfl : pc = q := Option.some.inj (hlookup.symm.trans hq)
    exact h.moved hfetch.back hblock hthere hlinks hpcs
  | @enter a R R' callee up link hfetch _ _ hR' hstack hlinks hpcs =>
    obtain ⟨block, hblock, hlevel⟩ := h.fetched himage hfetch
    have hempty : s.stack.size = 0 := hlevel.empty (.inr ⟨callee, up, rfl⟩)
    -- The caller goes on behind the call, and then the callee begins.
    obtain ⟨h', hnext, heq⟩ := hlevel.next nofun nofun
    obtain rfl : h' = s.stack.size := heq
    have hwaits : State.Balanced p l ⟨s.stack, withPc s.frames (a.pc + 1), s.console⟩ :=
      h.moved hfetch.back hblock hnext (links_withPc ..) rfl
    have hnew : (links t.frames)[s.frames.size]? = some (callee, some link) := by
      rw [hlinks, Array.getElem?_push, size_links, if_pos rfl]
    obtain ⟨block', hblock'⟩ := hscoped.exists_block hnew
    obtain ⟨seg, c, c', hcode, -⟩ := himage.codes _ _ _ hblock' hR'
    exact hwaits.entered hblock' (Block.start_heights hcode) hempty hstack
      (by rw [hlinks, links_withPc]) hpcs
  | @leave a R hfetch hstack hframes =>
    obtain ⟨block, -, hlevel⟩ := h.fetched himage hfetch
    exact h.left (hlevel.empty (.inl rfl)) hstack hframes

theorem of_reachable {input : List UInt8} (himage : image.Compiled p l)
    (hreach : Reachable image input t) : Scoped p l t.frames ∧ t.Balanced p l := by
  have hstart : (State.start input).Balanced p l := by
    refine ⟨fun _ => rfl, fun k r pc link hk => ?_⟩
    simp [links, State.start] at hk
  induction hreach with
  | start => exact ⟨scoped_start input, hstart⟩
  | @enter s henter =>
    obtain ⟨-, ⟨R, hR⟩, hstack, hpcs⟩ := enter_ok henter
    obtain ⟨seg, c, c', hcode, -⟩ := himage.codes 0 p.block R rfl hR
    exact ⟨scoped_of_enter henter, hstart.entered rfl (Block.start_heights hcode) rfl hstack
      (links_of_enter henter) hpcs⟩
  | step hreach hstep ih =>
    have hscoped := ih.1.step himage.analyzed himage.placed himage.codes hstep
    exact ⟨hscoped, ih.2.step himage hscoped hstep (State.Sound.of_reachable hreach).height⟩

end State.Balanced

/-! ## Compiled units -/

theorem CodeUnit.exists_compiled {source unitName : String} {u : CodeUnit}
    (hsource : Program.ofSource source = .ok p) (hcompile : compile source unitName = .ok u)
    (hload : u.load = .ok image) :
    ∃ l, p.analyze.1.layout = .ok l ∧ image.Compiled p.analyze.1 l := by
  obtain ⟨hanalyzed, hgenerate⟩ := generate_of_compile hsource hcompile
  obtain ⟨l, es, c, hlayout, hes, hplaced, hall, hassemble⟩ :=
    Program.assembled_of_generate hgenerate hanalyzed.numbered.nodup
  refine ⟨l, hlayout, hanalyzed, hplaced, ?_, ?_⟩
  · intro r block R hblock hR
    obtain ⟨routine, hroutine, hcode⟩ := CodeUnit.exists_routine hload hR
    obtain ⟨seg, c₁, c₂, hseg, hret⟩ := hall.exists_code hassemble hblock hroutine
    exact ⟨seg, c₁, c₂, hseg, by rw [hcode, hret]⟩
  · intro r R hR
    obtain ⟨routine, -, hloaded, -⟩ := CodeUnit.exists_loadedAs hload hR
    exact hloaded.labelled

/-- What holds of the operand stack in a state of a run of a compiled program. -/
structure State.Disciplined (p : Program) (l : Layout) (image : Image) (s : State) : Prop where
  /-- Every statement of the block that runs has its code somewhere in the routine, and at both ends
  of that code the stack is empty. -/
  between : ∀ a, s.frames.back? = some a → ∃ block R seg c c',
    p.block? l a.routine = some block ∧ image[a.routine]? = some R ∧
    block.stmt.code l c = .ok (seg, c') ∧ R.code = (seg ++ [Instr.ret]).toArray ∧
    (∀ sub ∈ block.stmt.parts, ∃ start stop, block.stmt.Spans l c 0 sub start stop) ∧
    ∀ sub start stop, block.stmt.Spans l c 0 sub start stop → a.pc = start ∨ a.pc = stop →
      s.stack = #[]
  entry : ∀ a, s.frames.back? = some a → a.pc = 0 → s.stack = #[]
  call : ∀ a R callee up, Fetches image s a R (.call callee up) → s.stack = #[]
  ret : ∀ a R, Fetches image s a R .ret → s.stack = #[]
  idle : s.frames = #[] → s.stack = #[]
  height : s.stack.size ≤ p.need
  overflow : ∀ t, step image s = .error .stackOverflow t →
    ∃ e ∈ p.expressions, maxOperandStack < e.need

namespace State.Balanced

theorem height_le (h : s.Balanced p l) : s.stack.size ≤ p.need := by
  cases hback : s.frames.back? with
  | none =>
    rw [Array.back?_eq_none_iff] at hback
    rw [h.idle (by rw [hback]; rfl)]
    exact Nat.zero_le _
  | some a =>
    obtain ⟨block, hblock, hheight⟩ := h.current hback
    exact Block.heights_le hblock _ (List.mem_of_getElem? hheight)

/-- An overflow would leave the stack higher than the program needs. -/
theorem lt_need_of_overflow (h : s.Balanced p l) (himage : image.Compiled p l)
    (hs : s.stack.size ≤ maxOperandStack) (hstep : Machine.step image s = .error .stackOverflow t) :
    maxOperandStack < p.need := by
  obtain ⟨a, R, i, hfetch, hover⟩ := overflow_of_step hstep hs
  obtain ⟨block, hblock, hlevel⟩ := h.fetched himage hfetch
  have hgoto : ∀ l, i ≠ .goto l := by
    rintro l rfl
    simp only [Instr.pops, Instr.pushes] at hover
    omega
  have hret : i ≠ .ret := by
    rintro rfl
    simp only [Instr.pops, Instr.pushes] at hover
    omega
  obtain ⟨h', hnext, heq⟩ := hlevel.next hgoto hret
  have hle := Block.heights_le hblock h' (List.mem_of_getElem? hnext)
  omega

/-- The current activation is somewhere in the code of a block. -/
theorem located {a : Activation} (h : s.Balanced p l) (himage : image.Compiled p l)
    (hsound : s.Sound image) (hback : s.frames.back? = some a) :
    ∃ block R seg c c', p.block? l a.routine = some block ∧ image[a.routine]? = some R ∧
      block.stmt.code l c = .ok (seg, c') ∧ R.code = (seg ++ [Instr.ret]).toArray ∧
      block.heights[a.pc]? = some s.stack.size := by
  obtain ⟨block, hblock, hheight⟩ := h.current hback
  rw [Array.back?_eq_getElem?] at hback
  obtain ⟨R, hR⟩ := hsound.loaded _ _ _ (links_of_getElem? hback)
  obtain ⟨seg, c, c', hcode, hRcode⟩ := himage.codes _ _ _ hblock hR
  exact ⟨block, R, seg, c, c', hblock, hR, hcode, hRcode, hheight⟩

theorem disciplined (h : s.Balanced p l) (himage : image.Compiled p l) (hsound : s.Sound image) :
    s.Disciplined p l image := by
  refine ⟨fun a hback => ?_, fun a hback hzero => ?_, fun a R callee up hfetch => ?_,
    fun a R hfetch => ?_, fun hframes => ?_, h.height_le, fun t hstep => ?_⟩
  · obtain ⟨block, R, seg, c, c', hblock, hR, hcode, hRcode, hheight⟩ :=
      h.located himage hsound hback
    refine ⟨block, R, seg, c, c', hblock, hR, hcode, hRcode,
      fun sub hsub => Stmt.exists_spans block.stmt 0 hcode hsub,
      fun sub start stop hspans hpc => ?_⟩
    obtain ⟨hstart, hstop⟩ := hspans.heights hcode block.stands_heights (Block.end_heights hcode)
    apply Array.eq_empty_of_size_eq_zero
    rcases hpc with hpc | hpc
    · rw [hpc, hstart] at hheight
      exact (Option.some.inj hheight).symm
    · rw [hpc, hstop] at hheight
      exact (Option.some.inj hheight).symm
  · obtain ⟨block, R, seg, c, c', -, -, hcode, -, hheight⟩ := h.located himage hsound hback
    rw [hzero, Block.start_heights hcode] at hheight
    exact Array.eq_empty_of_size_eq_zero (Option.some.inj hheight).symm
  · obtain ⟨block, -, hlevel⟩ := h.fetched himage hfetch
    exact Array.eq_empty_of_size_eq_zero (hlevel.empty (.inr ⟨callee, up, rfl⟩))
  · obtain ⟨block, -, hlevel⟩ := h.fetched himage hfetch
    exact Array.eq_empty_of_size_eq_zero (hlevel.empty (.inl rfl))
  · exact Array.eq_empty_of_size_eq_zero (h.idle (by rw [hframes]; rfl))
  · have hlt := h.lt_need_of_overflow himage hsound.height hstep
    rcases Program.lt_need.mp hlt with hone | hover
    · exact absurd hone (by decide)
    · exact hover

end State.Balanced

/-- **Stack discipline.**  In every state of every run of a compiled unit the operand stack is empty
at both ends of every statement, so at calls, at returns and where a routine begins.  It is never
higher than the expressions of the program need, and can overflow only if one of them needs more
than there is. -/
theorem CodeUnit.disciplined_of_reachable (source unitName : String) {p : Program} {u : CodeUnit}
    (hsource : Program.ofSource source = .ok p) (hcompile : compile source unitName = .ok u)
    (input : List UInt8) {image : Image} {s : State} (hload : u.load = .ok image)
    (hreach : Reachable image input s) :
    ∃ l, p.analyze.1.layout = .ok l ∧ s.Disciplined p.analyze.1 l image := by
  obtain ⟨l, hlayout, himage⟩ := CodeUnit.exists_compiled hsource hcompile hload
  obtain ⟨-, hbalanced⟩ := State.Balanced.of_reachable himage hreach
  exact ⟨l, hlayout, hbalanced.disciplined himage (State.Sound.of_reachable hreach)⟩

/-- A procedure, called in a loop, that compares two strings made of parts. -/
def comparedStrings : String :=
  "var s, n;
   procedure p; begin n := n - 1; if s + \"a\" < s + (\"b\" + s) then ! n end;
   begin s := \"b\"; n := 2; while n > 0 do call p end."

theorem comparedStrings_disciplined :
    ∃ p u image s t l, Program.ofSource comparedStrings = .ok p ∧
      compile comparedStrings "main" = .ok u ∧ u.load = .ok image ∧
      Machine.begin u [] = .ok (image, s) ∧ Machine.after image 29 s = some t ∧
      Reachable image [] t ∧ t.frames.size = 2 ∧ t.stack.size = 4 ∧ p.analyze.1.need = 4 ∧
      p.analyze.1.layout = .ok l ∧ t.Disciplined p.analyze.1 l image := by
  have hcheck : (match Program.ofSource comparedStrings, compile comparedStrings "main" with
      | .ok p, .ok u =>
        match Machine.begin u [] with
        | .ok (image, s) =>
          match Machine.after image 29 s with
          | some t => decide (t.frames.size = 2 ∧ t.stack.size = 4 ∧ p.analyze.1.need = 4)
          | none => false
        | .error _ => false
      | _, _ => false) = true := by decide +kernel
  split at hcheck
  · rename_i p u hsource hcompile
    split at hcheck
    · rename_i image s hbegin
      split at hcheck
      · rename_i t hafter
        obtain ⟨hload, henter⟩ := enter_of_begin hbegin
        have hreach : Reachable image [] t := (Reachable.enter henter).after hafter
        obtain ⟨hframes, hstack, hneed⟩ := of_decide_eq_true hcheck
        obtain ⟨l, hl, hdisciplined⟩ := CodeUnit.disciplined_of_reachable comparedStrings "main"
          hsource hcompile [] hload hreach
        exact ⟨p, u, image, s, t, l, hsource, hcompile, hload, hbegin, hafter, hreach, hframes,
          hstack, hneed, hl, hdisciplined⟩
      · cases hcheck
    · cases hcheck
  · cases hcheck

end PLZero
