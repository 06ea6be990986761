import PLZero.Proofs.Code.Calls
import PLZero.Proofs.Compile.Correctness
import PLZero.Proofs.Machine.Robustness

/-!
# Static scoping

The static link of an activation is an activation of the block around its own, and of those the one
that the caller sees.

* `ProcedureCall` — a call in a block, with the declaration of the procedure it calls.
* `Scoped` — every activation but the first was begun by such a call, and its link is as many links
  above the caller as the depths of the call and of the declaration differ.
* `StaticChain` — the blocks of the activations on a static chain, each inside the next.
* `CodeUnit.scoped_after` — in every state of every run of a compiled unit the activations are
  scoped.

A step changes no link.  So all there is to show is that a call walks to the right place, and that
follows from the chain of the caller: its blocks are those that the name in the call was bound in.
-/

namespace PLZero

open Machine

/-- A call of a procedure: where it stands, and where the procedure is declared. -/
structure ProcedureCall where
  /-- The block that the call stands in. -/
  site : Block
  target : Ident
  useNest : Nat
  /-- The block that declares the procedure. -/
  scope : Block
  head : DeclHead
  body : Block
  declNest : Nat
  target_mem : target ∈ site.stmt.calls
  nest_target : target.nest = some useNest
  decl_target : target.decl = some head.id
  head_mem : .procedure head body.decls body.stmt ∈ scope.decls
  nest_head : head.nest = some declNest
  le : declNest ≤ useNest

variable {p : Program} {l : Layout} {fs fs' : Array Activation}

/-- Activation `i` runs the routine of the block. -/
def Runs (p : Program) (l : Layout) (fs : Array Activation) (i : Nat) (block : Block) : Prop :=
  ∃ a, fs[i]? = some a ∧ p.block? l a.routine = some block

/-- An activation of `routine` with the link `j` may be begun by activation `k` with the call. -/
structure Linked (p : Program) (l : Layout) (fs : Array Activation) (k : Nat) (call : ProcedureCall)
    (routine j : Nat) : Prop where
  caller : Runs p l fs k call.site
  callee : p.block? l routine = some call.body
  get? : l.get? call.head.id = some (.routine routine call.declNest)
  scope : Runs p l fs j call.scope
  le : j ≤ k
  follow : follow fs (call.useNest - call.declNest) k = some j

/-- The first activation is that of the program, and every other one has its link by a call. -/
structure Scoped (p : Program) (l : Layout) (fs : Array Activation) : Prop where
  bottom : ∀ a, fs[0]? = some a → a.routine = 0 ∧ a.link = none
  linked : ∀ k a, fs[k + 1]? = some a → ∃ call j, a.link = some j ∧ Linked p l fs k call a.routine j

/-! ## What depends on links alone -/

theorem Runs.congr {i : Nat} {block : Block} (h : Runs p l fs i block)
    (hsame : (links fs')[i]? = (links fs)[i]?) : Runs p l fs' i block := by
  obtain ⟨a, ha, hblock⟩ := h
  rw [links_of_getElem? ha] at hsame
  obtain ⟨a', ha', hr, -⟩ := exists_of_links hsame
  exact ⟨a', ha', by rw [hr, hblock]⟩

theorem Scoped.link_lt (h : Scoped p l fs) (i r j : Nat) (hi : (links fs)[i]? = some (r, some j)) :
    j < i := by
  obtain ⟨a, ha, -, hlink⟩ := exists_of_links hi
  cases i with
  | zero =>
    rw [(h.bottom a ha).2] at hlink
    cases hlink
  | succ k =>
    obtain ⟨call, j', hj', hlinked⟩ := h.linked k a ha
    rw [hlink] at hj'
    cases hj'
    exact Nat.lt_succ_of_le hlinked.le

theorem Linked.congr {n k routine j : Nat} {call : ProcedureCall}
    (h : Linked p l fs k call routine j) (hscoped : Scoped p l fs) (hk : k < n)
    (hsame : ∀ i < n, (links fs')[i]? = (links fs)[i]?) : Linked p l fs' k call routine j := by
  have hj : j < n := Nat.lt_of_le_of_lt h.le hk
  refine ⟨h.caller.congr (hsame k hk), h.callee, h.get?, h.scope.congr (hsame j hj), h.le, ?_⟩
  rw [follow_congr hsame hscoped.link_lt _ k hk, h.follow]

/-- What is said of the activations below `n` depends on their links alone. -/
theorem Scoped.below {n : Nat} (h : Scoped p l fs)
    (hsame : ∀ i < n, (links fs')[i]? = (links fs)[i]?) :
    (∀ a, 0 < n → fs'[0]? = some a → a.routine = 0 ∧ a.link = none) ∧
      ∀ k a, k + 1 < n → fs'[k + 1]? = some a →
        ∃ call j, a.link = some j ∧ Linked p l fs' k call a.routine j := by
  have hback {i : Nat} {a : Activation} (hi : i < n) (ha : fs'[i]? = some a) :
      ∃ b, fs[i]? = some b ∧ b.routine = a.routine ∧ b.link = a.link := by
    have hlinks := hsame i hi
    rw [links_of_getElem? ha] at hlinks
    exact exists_of_links hlinks.symm
  constructor
  · intro a hn ha
    obtain ⟨b, hb, hr, hlink⟩ := hback hn ha
    rw [← hr, ← hlink]
    exact h.bottom b hb
  · intro k a hk ha
    obtain ⟨b, hb, hr, hlink⟩ := hback hk ha
    obtain ⟨call, j, hj, hlinked⟩ := h.linked k b hb
    rw [hr] at hlinked
    exact ⟨call, j, hlink ▸ hj, hlinked.congr h (Nat.lt_of_succ_lt hk) hsame⟩

/-- Activations that end, and steps that leave the links, change nothing. -/
theorem Scoped.congr (h : Scoped p l fs)
    (hsame : ∀ i < fs'.size, (links fs')[i]? = (links fs)[i]?) : Scoped p l fs' := by
  obtain ⟨hbottom, hlinked⟩ := h.below hsame
  have hlt {i : Nat} {a : Activation} (ha : fs'[i]? = some a) : i < fs'.size :=
    (Array.getElem?_eq_some_iff.mp ha).1
  exact ⟨fun a ha => hbottom a (hlt ha) ha, fun k a ha => hlinked k a (hlt ha) ha⟩

/-- A call begins an activation that is linked. -/
theorem Scoped.push {routine j : Nat} {call : ProcedureCall} (h : Scoped p l fs)
    (hpos : 0 < fs.size) (hlinked : Linked p l fs (fs.size - 1) call routine j)
    (hlinks : links fs' = (links fs).push (routine, some j)) : Scoped p l fs' := by
  have hsame : ∀ i < fs.size, (links fs')[i]? = (links fs)[i]? := by
    intro i hi
    rw [hlinks, Array.getElem?_push, if_neg (by simpa using Nat.ne_of_lt hi)]
  have hsize : fs'.size = fs.size + 1 := by
    rw [← size_links fs', hlinks, Array.size_push, size_links]
  obtain ⟨hbottom, hbelow⟩ := h.below hsame
  refine ⟨fun a ha => hbottom a hpos ha, fun k a ha => ?_⟩
  have hk := (Array.getElem?_eq_some_iff.mp ha).1
  by_cases hlast : k + 1 = fs.size
  · have hlinks' := links_of_getElem? ha
    rw [hlinks, Array.getElem?_push, if_pos (by simpa using hlast)] at hlinks'
    obtain ⟨hr, hlink⟩ := Prod.mk.inj (Option.some.inj hlinks')
    rw [show fs.size - 1 = k from by omega] at hlinked
    rw [← hr]
    exact ⟨call, j, hlink.symm, hlinked.congr h (by omega) hsame⟩
  · exact hbelow k a (by omega) ha

/-! ## Chains -/

/-- From activation `i` the static links lead through activations of the blocks that declare `bs`,
each inside the next. -/
inductive StaticChain (p : Program) (l : Layout) (fs : Array Activation) :
    Nat → List (List Decl) → Prop where
  | main {i : Nat} {a : Activation} : fs[i]? = some a → a.routine = 0 →
      StaticChain p l fs i [p.block.decls]
  | procedure {i j : Nat} {a : Activation} {head : DeclHead} {body : Block} {ds : List Decl}
      {bs : List (List Decl)} : fs[i]? = some a → a.link = some j → j < i →
      StaticChain p l fs j (ds :: bs) → .procedure head body.decls body.stmt ∈ ds →
      p.block? l a.routine = some body → StaticChain p l fs i (body.decls :: ds :: bs)

namespace StaticChain

variable {i : Nat} {ds : List Decl} {bs : List (List Decl)}

/-- The routine of the first activation has the block, and the names in its statement are bound in
the blocks of the chain. -/
theorem exists_block (h : StaticChain p l fs i (ds :: bs)) (hp : p.Analyzed) (hl : p.Placed l) :
    Nested p l (ds :: bs) ∧ ∃ stmt, Runs p l fs i ⟨ds, stmt⟩ ∧
      stmt.Bound ((ds :: bs).map Decl.ids) := by
  generalize hbs : ds :: bs = blocks at h
  induction h generalizing ds bs with
  | @main i a ha hr =>
    cases hbs
    have hlegal := hp.bound.legal hp.numbered hl.main
    exact ⟨⟨hlegal, trivial⟩, p.block.stmt, ⟨a, ha, by rw [hr]; rfl⟩, hp.bound.stmt⟩
  | @procedure i j a head body ds' bs' ha _ _ _ hmem hblock ih =>
    cases hbs
    obtain ⟨hnested, -⟩ := ih rfl
    obtain ⟨r, nest, -, hfits⟩ := hl.procedures _ (hnested.1.mem _ hmem) _ _ _ rfl
    obtain ⟨hlegal, hbound⟩ := hnested.1.procedure hp.numbered hmem ⟨r, hfits⟩
    exact ⟨⟨hlegal, hnested⟩, body.stmt, ⟨a, ha, hblock⟩, hbound⟩

/-- Following as many links as there are inner blocks leads to the outer part of the chain. -/
theorem exists_follow {inner : List (List Decl)} (h : StaticChain p l fs i (inner ++ ds :: bs)) :
    ∃ j, j ≤ i ∧ follow fs inner.length i = some j ∧ StaticChain p l fs j (ds :: bs) := by
  induction inner generalizing i with
  | nil => exact ⟨i, Nat.le_refl i, rfl, h⟩
  | cons ds' inner ih =>
    generalize hbs : ds' :: inner ++ ds :: bs = blocks at h
    cases h with
    | main ha hr => simp at hbs
    | @procedure _ j a head body ds'' bs'' ha hlink hlt hchain hmem hblock =>
      rw [List.cons_append] at hbs
      rw [← (List.cons.inj hbs).2] at hchain
      obtain ⟨k, hk, hfollow, hrest⟩ := ih hchain
      refine ⟨k, Nat.le_trans hk (Nat.le_of_lt hlt), ?_, hrest⟩
      rw [List.length_cons, follow_succ, links_of_getElem? ha, Option.bind_some, hlink]
      exact hfollow

end StaticChain

theorem Runs.unique {i : Nat} {block block' : Block} (h : Runs p l fs i block)
    (h' : Runs p l fs i block') : block = block' := by
  obtain ⟨a, ha, hblock⟩ := h
  obtain ⟨a', ha', hblock'⟩ := h'
  rw [ha] at ha'
  cases ha'
  exact Option.some.inj (hblock.symm.trans hblock')

/-- Every activation has a static chain. -/
theorem Scoped.exists_chain (h : Scoped p l fs) (hp : p.Analyzed) (hl : p.Placed l) (k : Nat)
    (hk : k < fs.size) : ∃ ds bs, StaticChain p l fs k (ds :: bs) := by
  induction k using Nat.strongRecOn with
  | ind k ih =>
    have ha : fs[k]? = some fs[k] := Array.getElem?_eq_getElem hk
    cases k with
    | zero => exact ⟨_, _, .main ha (h.bottom _ ha).1⟩
    | succ k =>
      obtain ⟨call, j, hlink, hlinked⟩ := h.linked k _ ha
      have hj : j < k + 1 := Nat.lt_succ_of_le hlinked.le
      obtain ⟨ds, bs, hchain⟩ := ih j hj (Nat.lt_trans hj hk)
      obtain ⟨-, stmt, hruns, -⟩ := hchain.exists_block hp hl
      have hscope : call.scope = ⟨ds, stmt⟩ := hlinked.scope.unique hruns
      have hmem := call.head_mem
      rw [hscope] at hmem
      exact ⟨_, _, .procedure ha hlink hj hchain hmem hlinked.callee⟩

/-! ## Calls -/

/-- A declaration with a routine is that of a procedure. -/
theorem Layout.Fits.exists_procedure {r index nest : Nat} {ds : List Decl} {d : Decl}
    (h : l.Fits r [] ds) (hd : d ∈ ds) (hget : l.get? d.head.id = some (.routine index nest)) :
    ∃ head, ∃ body : Block, d = .procedure head body.decls body.stmt ∧ head.nest = some nest := by
  obtain ⟨storage, hplace, hkind, hnest⟩ := h.exists_storage hd
  rw [hget] at hplace
  cases hplace
  cases d with
  | procedure head decls stmt => exact ⟨head, ⟨decls, stmt⟩, rfl, hnest nest rfl⟩
  | const | var => cases hkind

/-- **A call walks to the activation of the block that declares the procedure.** -/
theorem StaticChain.exists_linked {k callee up : Nat} {ds : List Decl} {bs : List (List Decl)}
    {stmt : Stmt} {target : Ident} (h : StaticChain p l fs k (ds :: bs)) (hp : p.Analyzed)
    (hl : p.Placed l) (hruns : Runs p l fs k ⟨ds, stmt⟩) (htarget : target ∈ stmt.calls)
    (hbound : target.Bound ((ds :: bs).map Decl.ids))
    (hcall : l.callInstr target = .ok (.call callee up)) :
    ∃ call j, follow fs up k = some j ∧ Linked p l fs k call callee j := by
  obtain ⟨index, declNest, useNest, hfinds, heq⟩ := Layout.callInstr_cases hcall
  cases heq
  obtain ⟨hnested, -⟩ := h.exists_block hp hl
  obtain ⟨inner, ds', outer, d, nest, hsplit, hlegal, hd, hdecl, hnest, huse⟩ :=
    hnested.exists_decl hbound
  rw [hsplit] at h
  obtain ⟨j, hj, hfollow, hchain⟩ := h.exists_follow
  obtain ⟨-, stmt', hscope, -⟩ := hchain.exists_block hp hl
  obtain ⟨r, hfits⟩ := hlegal.fits
  have hget := hfinds.get? _ hdecl
  obtain ⟨head, body, rfl, hhead⟩ := hfits.exists_procedure hd hget
  -- The depths count the blocks around the call and around the declaration.
  obtain rfl : nest = declNest := Option.some.inj (hnest.symm.trans hhead)
  obtain rfl : useNest = nest + inner.length := Option.some.inj (hfinds.nest.symm.trans huse)
  rw [← Nat.add_sub_cancel_left nest inner.length] at hfollow
  refine ⟨⟨⟨ds, stmt⟩, target, _, ⟨ds', stmt'⟩, head, body, nest, htarget, hfinds.nest, hdecl, hd,
    hhead, Nat.le_add_right ..⟩, j, hfollow, hruns, ?_, hget, hscope, hj, hfollow⟩
  exact Program.block?_procedure hl.sound hp.numbered.nodup (hlegal.mem _ hd) hget

/-! ## Runs -/

/-- The code of each routine is that of the statement of its block. -/
def Image.Codes (image : Image) (p : Program) (l : Layout) : Prop :=
  ∀ r block R, p.block? l r = some block → image[r]? = some R →
    ∃ seg c c', block.stmt.code l c = .ok (seg, c') ∧ R.code = (seg ++ [Instr.ret]).toArray

theorem Scoped.step {image : Image} {s t : State} (h : Scoped p l s.frames) (hp : p.Analyzed)
    (hl : p.Placed l) (hcodes : image.Codes p l) (hstep : step image s = .ok () t) :
    Scoped p l t.frames := by
  cases linkStep_of_step hstep with
  | steady hlinks => exact h.congr fun i _ => by rw [hlinks]
  | leave hlinks =>
    refine h.congr fun i hi => ?_
    rw [← size_links t.frames, hlinks, Array.size_pop] at hi
    rw [hlinks, Array.getElem?_pop, if_pos hi]
  | @enter a R callee up link hback hR hcall hfollow hlinks =>
    rw [Array.back?_eq_getElem?] at hback
    have hlt := (Array.getElem?_eq_some_iff.mp hback).1
    obtain ⟨ds, bs, hchain⟩ := h.exists_chain hp hl _ hlt
    obtain ⟨-, stmt, hruns, hbound⟩ := hchain.exists_block hp hl
    obtain ⟨a', ha', hblock⟩ := hruns
    obtain rfl : a = a' := Option.some.inj (hback.symm.trans ha')
    obtain ⟨seg, c, c', hseg, hcode⟩ := hcodes _ _ _ hblock hR
    have hmem : .call callee up ∈ seg := by
      rw [hcode, List.getElem?_toArray] at hcall
      simpa using List.mem_of_getElem? hcall
    obtain ⟨target, htarget, hinstr⟩ := stmt.exists_call hseg hmem
    obtain ⟨call, j, hj, hlinked⟩ := hchain.exists_linked hp hl ⟨a, hback, hblock⟩ htarget
      (Stmt.Bound.calls stmt hbound target htarget) hinstr
    obtain rfl : link = j := Option.some.inj (hfollow.symm.trans hj)
    exact h.push (by omega) hlinked hlinks

theorem Scoped.after {image : Image} {n : Nat} {s t : State} (h : Scoped p l s.frames)
    (hp : p.Analyzed) (hl : p.Placed l) (hcodes : image.Codes p l)
    (hafter : after image n s = some t) : Scoped p l t.frames := by
  induction n generalizing s with
  | zero =>
    cases hafter
    exact h
  | succ n ih =>
    obtain ⟨s₁, hstep, hafter⟩ := after_succ hafter
    exact ih (h.step hp hl hcodes hstep) hafter

/-- A run begins with one activation of routine 0. -/
theorem scoped_of_enter {input : List UInt8} {image : Image} {s : State}
    (h : enter image 0 none (.start input) = .ok () s) : Scoped p l s.frames := by
  have hlinks : links s.frames = #[(0, none)] := by
    rw [links_of_enter h]
    simp [State.start, links]
  have hsize : s.frames.size = 1 := by rw [← size_links, hlinks]; rfl
  refine ⟨fun a ha => ?_, fun k a ha => ?_⟩
  · have hfirst := links_of_getElem? ha
    rw [hlinks] at hfirst
    obtain ⟨hr, hlink⟩ := Prod.mk.inj (Option.some.inj hfirst)
    exact ⟨hr.symm, hlink.symm⟩
  · have := (Array.getElem?_eq_some_iff.mp ha).1
    omega

theorem scoped_of_begin {u : CodeUnit} {input : List UInt8} {image : Image} {s : State}
    (h : Machine.begin u input = .ok (image, s)) : u.load = .ok image ∧ Scoped p l s.frames := by
  obtain ⟨hload, henter⟩ := enter_of_begin h
  exact ⟨hload, scoped_of_enter henter⟩

/-- **Static scoping.**  In every state of every run of a compiled unit the first activation is that
of the program, and the link of any other one is the activation, on the static chain of its caller,
of the block that declares its procedure. -/
theorem CodeUnit.scoped_after (source unitName : String) {p : Program} {u : CodeUnit}
    (hsource : Program.ofSource source = .ok p) (hcompile : compile source unitName = .ok u)
    (input : List UInt8) {image : Image} {n : Nat} {s t : State}
    (hbegin : Machine.begin u input = .ok (image, s)) (hafter : Machine.after image n s = some t) :
    ∃ l, p.analyze.1.layout = .ok l ∧ Scoped p.analyze.1 l t.frames := by
  obtain ⟨hanalyzed, hgenerate⟩ := generate_of_compile hsource hcompile
  obtain ⟨l, es, c, hlayout, hes, hassemble⟩ := Program.generate_eq hgenerate
  have hplaced := Program.placed_layout hlayout hanalyzed.numbered.nodup
  have hall := Program.assembled_codes hes hplaced.sound hanalyzed.numbered.nodup
  obtain ⟨hload, hscoped⟩ := scoped_of_begin (p := p.analyze.1) (l := l) hbegin
  have hcodes : image.Codes p.analyze.1 l := by
    intro r block R hblock hR
    obtain ⟨routine, hroutine, hcode⟩ := CodeUnit.exists_routine hload hR
    obtain ⟨seg, c₁, c₂, hseg, hret⟩ := hall.exists_code hassemble hblock hroutine
    exact ⟨seg, c₁, c₂, hseg, by rw [hcode, hret]⟩
  exact ⟨l, hlayout, hscoped.after hanalyzed hplaced hcodes hafter⟩

/-- Two procedures that call each other, one inside the other. -/
def mutualCalls : String :=
  "var n; procedure a; var x;
     procedure b; begin x := x + 1; if n > 0 then begin n := n - 1; call a end end;
   begin x := n; call b end;
   begin n := 1; call a end."

theorem mutualCalls_scoped :
    ∃ p u image s t l, Program.ofSource mutualCalls = .ok p ∧ compile mutualCalls "main" = .ok u ∧
      Machine.begin u [] = .ok (image, s) ∧ Machine.after image 25 s = some t ∧
      links t.frames = #[(0, none), (1, some 0), (2, some 1), (1, some 0), (2, some 3)] ∧
      p.analyze.1.layout = .ok l ∧ Scoped p.analyze.1 l t.frames := by
  have hcheck : (match Program.ofSource mutualCalls, compile mutualCalls "main" with
      | .ok _, .ok u =>
        match Machine.begin u [] with
        | .ok (image, s) =>
          match Machine.after image 25 s with
          | some t => decide (links t.frames =
              #[(0, none), (1, some 0), (2, some 1), (1, some 0), (2, some 3)])
          | none => false
        | .error _ => false
      | _, _ => false) = true := by decide +kernel
  split at hcheck
  · rename_i p u hsource hcompile
    split at hcheck
    · rename_i image s hbegin
      split at hcheck
      · rename_i t hafter
        obtain ⟨l, hl, hscoped⟩ :=
          CodeUnit.scoped_after mutualCalls "main" hsource hcompile [] hbegin hafter
        exact ⟨p, u, image, s, t, l, hsource, hcompile, hbegin, hafter, of_decide_eq_true hcheck,
          hl, hscoped⟩
      · cases hcheck
    · cases hcheck
  · cases hcheck

end PLZero
