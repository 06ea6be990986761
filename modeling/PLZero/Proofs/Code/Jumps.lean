import PLZero.Compile
import PLZero.Proofs.Code.Totality

/-!
# Jumps and returns

* `Enclosed` — a piece of code jumps only to labels of its own and never returns.  The code of every
  expression and statement is enclosed (`Stmt.enclosed_code`).
* `Layout.Lossless` — no routine has lost its declaration to a later one with the same number.
* `Program.nodup_indices` — if a unit is made at all, code was made once for every routine, whatever
  the numbers of the declarations are.
* `Program.jumps_of_generate` — the labels of a unit are different, every jump stays in its routine,
  and a routine returns at its end and nowhere else.

Nothing is assumed of the program: a tree whose declarations share numbers either has no unit or
satisfies this as well.
-/

namespace PLZero

/-! ## Jumps in code -/

/-- The labels that a piece of code may jump to. -/
def targets (code : List Instr) : List Label := code.filterMap Instr.target?

@[simp] theorem targets_nil : targets [] = [] := rfl

theorem targets_cons {i : Instr} {l : Label} (h : i.target? = some l) (code : List Instr) :
    targets (i :: code) = l :: targets code := by
  simp [targets, h]

@[simp] theorem targets_label (l : Label) (code : List Instr) :
    targets (.label l :: code) = targets code := rfl

@[simp] theorem targets_push (value : Value) (code : List Instr) :
    targets (.push value :: code) = targets code := rfl

@[simp] theorem targets_goto (l : Label) (code : List Instr) :
    targets (.goto l :: code) = l :: targets code := rfl

@[simp] theorem targets_ifBool (value : Bool) (l : Label) (code : List Instr) :
    targets (.ifBool value l :: code) = l :: targets code := rfl

@[simp] theorem targets_append (code code' : List Instr) :
    targets (code ++ code') = targets code ++ targets code' :=
  List.filterMap_append

theorem mem_targets {code : List Instr} {l : Label} :
    l ∈ targets code ↔ ∃ i ∈ code, i.target? = some l :=
  List.mem_filterMap

theorem mem_labels {code : List Instr} {l : Label} : l ∈ labels code ↔ .label l ∈ code := by
  rw [labels, List.mem_filterMap]
  constructor
  · rintro ⟨i, hi, hl⟩
    cases i with
    | label l' =>
      cases hl
      exact hi
    | _ => cases hl
  · exact fun h => ⟨_, h, rfl⟩

/-- The code jumps only to labels that stand in it, and never returns. -/
structure Enclosed (code : List Instr) : Prop where
  jumps : ∀ l ∈ targets code, l ∈ labels code
  returns : .ret ∉ code

namespace Enclosed

variable {code code' : List Instr}

theorem nil : Enclosed [] := ⟨by simp, by simp⟩

theorem append (h : Enclosed code) (h' : Enclosed code') : Enclosed (code ++ code') := by
  refine ⟨fun l hl => ?_, fun hret => ?_⟩
  · rw [targets_append, List.mem_append] at hl
    rw [labels_append, List.mem_append]
    exact hl.imp (h.jumps l) (h'.jumps l)
  · rcases List.mem_append.mp hret with hret | hret
    · exact h.returns hret
    · exact h'.returns hret

theorem straight (htargets : targets code = []) (hret : .ret ∉ code) : Enclosed code :=
  ⟨by simp [htargets], hret⟩

theorem one {i : Instr} (htarget : i.target? = none) (hret : i ≠ .ret) : Enclosed [i] :=
  straight (by simp [targets, htarget]) (by simpa using hret.symm)

end Enclosed

section Emitted

variable {l : Layout} {c c' : Nat} {seg : List Instr}

theorem enclosed_branchCode {branch : Label → Instr} (htarget : ∀ l, (branch l).target? = some l)
    (h : branchCode branch c = .ok (seg, c')) : Enclosed seg := by
  obtain ⟨rfl, rfl⟩ := code_branch h
  constructor
  · intro l hl
    simp only [targets_cons (htarget _), targets_push, targets_goto, targets_label, targets_nil,
      List.mem_cons, List.not_mem_nil, or_false] at hl
    rw [mem_labels]
    rcases hl with rfl | rfl <;> simp
  · simp only [List.mem_cons, List.not_mem_nil, or_false, reduceCtorEq]
    intro hret
    have hnone := htarget (.ofNat c)
    rw [← hret] at hnone
    cases hnone

theorem Cond.enclosed_stringCode {cond : Cond} (h : cond.stringCode c = .ok (seg, c')) :
    Enclosed seg := by
  cases cond with
  | eq | ne => exact enclosed_branchCode (fun _ => rfl) h
  | lt | le | gt | ge =>
    obtain ⟨rfl, rfl⟩ := Emit.of_pure h
    exact .straight rfl (by decide)

theorem Op.enclosed_code {op : Op} {operand : Ty} {line : Nat}
    (h : op.code operand line c = .ok (seg, c')) : Enclosed seg := by
  cases op with
  | arith a =>
    simp only [Op.code] at h
    cases hi : a.instr? operand with
    | none =>
      rw [hi] at h
      cases h
    | some i =>
      rw [hi] at h
      obtain ⟨rfl, rfl⟩ := Emit.of_pure h
      cases a <;> cases operand <;> cases hi <;> exact .one rfl (by simp)
  | compare cond =>
    cases operand with
    | procedure => cases h
    | string => exact cond.enclosed_stringCode h
    | number | boolean => exact enclosed_branchCode (fun _ => rfl) h

theorem Layout.enclosed_loadInstr {ident : Ident} {i : Instr} (h : l.loadInstr ident = .ok i) :
    Enclosed [i] := by
  rcases loadInstr_cases h with ⟨_, _, _, rfl⟩ | ⟨_, _, _, _, _, rfl⟩ <;> exact .one rfl nofun

theorem Layout.enclosed_storeInstr {ident : Ident} {i : Instr} (h : l.storeInstr ident = .ok i) :
    Enclosed [i] := by
  obtain ⟨_, _, _, _, _, rfl⟩ := storeInstr_cases h
  exact .one rfl nofun

theorem Layout.enclosed_callInstr {ident : Ident} {i : Instr} (h : l.callInstr ident = .ok i) :
    Enclosed [i] := by
  obtain ⟨_, _, _, _, rfl⟩ := callInstr_cases h
  exact .one rfl nofun

theorem Expr.enclosed_code (e : Expr) : ∀ {c c' : Nat} {seg : List Instr},
    e.code l c = .ok (seg, c') → Enclosed seg := by
  induction e with
  | literal token ty value =>
    intro c c' seg h
    obtain ⟨rfl, rfl⟩ := Expr.code_literal h
    exact .one rfl nofun
  | use ident ty =>
    intro c c' seg h
    obtain ⟨i, hi, rfl, rfl⟩ := Expr.code_use h
    exact Layout.enclosed_loadInstr hi
  | binary token ty op lhs rhs ihl ihr =>
    intro c c' seg h
    obtain ⟨left, right, operation, operand, c₁, c₂, hl, hr, -, hop, rfl⟩ := Expr.code_binary h
    exact (ihl hl).append ((ihr hr).append (Op.enclosed_code hop))

/-- A jump out of the middle to a label at the end. -/
theorem Enclosed.if {test run : List Instr} {join : Label} (htest : Enclosed test)
    (hrun : Enclosed run) :
    Enclosed (test ++ [.ifBool false join] ++ run ++ [.label join]) := by
  constructor
  · intro x hx
    simp only [targets_append, targets_ifBool, targets_label, targets_nil, List.mem_append,
      List.mem_singleton, List.append_nil] at hx
    simp only [labels_append, labels_label, labels_ifBool, labels_nil, List.append_nil,
      List.mem_append, List.mem_singleton]
    rcases hx with (hx | rfl) | hx
    · exact .inl (.inl (htest.jumps x hx))
    · exact .inr rfl
    · exact .inl (.inr (hrun.jumps x hx))
  · simp [htest.returns, hrun.returns]

/-- A jump ahead to the test, and one back to the start. -/
theorem Enclosed.while {run test : List Instr} {start check : Label} (hrun : Enclosed run)
    (htest : Enclosed test) :
    Enclosed ([.goto check, .label start] ++ run ++ [.label check] ++ test ++
      [.ifBool true start]) := by
  constructor
  · intro x hx
    simp only [targets_append, targets_goto, targets_label, targets_ifBool, targets_nil,
      List.mem_append, List.mem_singleton, List.append_nil] at hx
    simp only [labels_append, labels_goto, labels_label, labels_ifBool, labels_nil,
      List.append_nil, List.mem_append, List.mem_singleton]
    rcases hx with ((rfl | hx) | hx) | rfl
    · exact .inl (.inr rfl)
    · exact .inl (.inl (.inr (hrun.jumps x hx)))
    · exact .inr (htest.jumps x hx)
    · exact .inl (.inl (.inl rfl))
  · simp [htest.returns, hrun.returns]

mutual

theorem Stmt.enclosed_code : (stmt : Stmt) → ∀ {c c' : Nat} {seg : List Instr},
    stmt.code l c = .ok (seg, c') → Enclosed seg
  | .assign target expr, c, c', seg, h => by
    obtain ⟨value, i, he, hi, rfl⟩ := Stmt.code_assign h
    exact (expr.enclosed_code he).append (Layout.enclosed_storeInstr hi)
  | .call token target, c, c', seg, h => by
    obtain ⟨i, hi, rfl, rfl⟩ := Stmt.code_call h
    exact Layout.enclosed_callInstr hi
  | .input token target, c, c', seg, h => by
    obtain ⟨ty, i, -, hi, rfl, rfl⟩ := Stmt.code_input h
    exact (Enclosed.one (i := .read ty) rfl nofun).append (Layout.enclosed_storeInstr hi)
  | .output token expr, c, c', seg, h => by
    obtain ⟨value, ty, he, -, rfl⟩ := Stmt.code_output h
    exact (expr.enclosed_code he).append (.one rfl nofun)
  | .begin token stmts, c, c', seg, h => by
    rw [Stmt.code] at h
    exact Stmt.enclosed_codeList stmts h
  | .if token guard body, c, c', seg, h => by
    obtain ⟨test, run, c₁, htest, hrun, rfl⟩ := Stmt.code_if h
    exact .if (guard.enclosed_code htest) (Stmt.enclosed_code body hrun)
  | .while token guard body, c, c', seg, h => by
    obtain ⟨run, test, c₁, hrun, htest, rfl⟩ := Stmt.code_while h
    exact .while (Stmt.enclosed_code body hrun) (guard.enclosed_code htest)
  | .empty token, c, c', seg, h => by
    rw [Stmt.code] at h
    obtain ⟨rfl, rfl⟩ := Emit.of_pure h
    exact .nil

theorem Stmt.enclosed_codeList : (stmts : List Stmt) → ∀ {c c' : Nat} {seg : List Instr},
    Stmt.codeList l stmts c = .ok (seg, c') → Enclosed seg
  | [], c, c', seg, h => by
    rw [Stmt.codeList] at h
    obtain ⟨rfl, rfl⟩ := Emit.of_pure h
    exact .nil
  | stmt :: stmts, c, c', seg, h => by
    obtain ⟨first, rest, c₁, hs, hss, rfl⟩ := Stmt.codeList_cons h
    exact (Stmt.enclosed_code stmt hs).append (Stmt.enclosed_codeList stmts hss)

end

end Emitted

/-! ## Code of procedures -/

/-- Pieces of code, each under an index of the layout and with a return at its end, and with labels
numbered from `c` up to `c'`. -/
structure Pieces (l : Layout) (es : List (Nat × List Instr)) (c c' : Nat) : Prop where
  owner : ∀ x ∈ es, ∃ id nest, l.get? id = some (.routine x.1 nest)
  code : ∀ x ∈ es, ∃ body, x.2 = body ++ [.ret] ∧ Enclosed body
  numbers : Numbers (es.flatMap Prod.snd) c c'

namespace Pieces

variable {l : Layout} {es es' : List (Nat × List Instr)} {c c' c'' : Nat}

theorem nil (l : Layout) (c : Nat) : Pieces l [] c c := ⟨by simp, by simp, .of_nil rfl c⟩

theorem append (h : Pieces l es c c') (h' : Pieces l es' c' c'') : Pieces l (es ++ es') c c'' := by
  refine ⟨List.forall_mem_append.mpr ⟨h.owner, h'.owner⟩,
    List.forall_mem_append.mpr ⟨h.code, h'.code⟩, ?_⟩
  rw [List.flatMap_append]
  exact h.numbers.append h'.numbers

end Pieces

theorem Stmt.numbers_routine {l : Layout} {stmt : Stmt} {c c' : Nat} {seg : List Instr}
    (h : stmt.code l c = .ok (seg, c')) (index : Nat) :
    Numbers ([(index, seg ++ [.ret])].flatMap Prod.snd) c c' := by
  refine (stmt.numbers_code h).congr ?_
  simp [labels_cons (show Instr.ret.label? = none from rfl)]

mutual

theorem Decl.pieces_codes {l : Layout} : (d : Decl) → ∀ {c c' : Nat}
    {es : List (Nat × List Instr)}, d.codes l c = .ok (es, c') → Pieces l es c c'
  | .const .., c, c', es, h | .var _, c, c', es, h => by
    obtain ⟨rfl, rfl⟩ := Emit.of_pure h
    exact .nil l c
  | .procedure head decls stmt, c, c', es, h => by
    obtain ⟨index, nest, nested, seg, c₁, hget, hnested, hcode, rfl⟩ := codes_procedure h
    refine (Decl.pieces_codesList decls hnested).append
      ⟨?_, ?_, stmt.numbers_routine hcode index⟩
    · exact List.forall_mem_singleton.mpr ⟨head.id, nest, hget⟩
    · exact List.forall_mem_singleton.mpr ⟨seg, rfl, stmt.enclosed_code hcode⟩

theorem Decl.pieces_codesList {l : Layout} : (ds : List Decl) → ∀ {c c' : Nat}
    {es : List (Nat × List Instr)}, Decl.codesList l ds c = .ok (es, c') → Pieces l es c c'
  | [], c, c', es, h => by
    rw [Decl.codesList] at h
    obtain ⟨rfl, rfl⟩ := Emit.of_pure h
    exact .nil l c
  | d :: ds, c, c', es, h => by
    obtain ⟨first, rest, c₁, hd, hds, rfl⟩ := codesList_cons h
    exact (Decl.pieces_codes d hd).append (Decl.pieces_codesList ds hds)

end

/-! ## Routines of declarations that share numbers -/

namespace Layout

variable {l l' : Layout} {r : Nat}

/-- No routine has lost its declaration to a later one with the same number. -/
def Lossless (l : Layout) : Prop :=
  ∀ id index nest, (id, .routine index nest) ∈ l.entries → l.get? id = some (.routine index nest)

theorem lossless_of_owned (hsound : l.Sound)
    (howned : ∀ i, 0 < i → i < l.frames.size → ∃ id nest, l.get? id = some (.routine i nest)) :
    l.Lossless := by
  intro id index nest hmem
  obtain ⟨hpos, hlt⟩ := hsound.bounds index (List.mem_filterMap.mpr ⟨_, hmem, rfl⟩)
  obtain ⟨id', nest', hget⟩ := howned index hpos hlt
  cases hsound.entry_eq hmem (mem_of_get? hget) rfl rfl
  exact hget

/-- What was lost at some time is lost in the end. -/
theorem Lossless.of_suffix (h : l'.Lossless) (hsound : l'.Sound)
    (hsuffix : l.entries <:+ l'.entries) : l.Lossless := by
  intro id index nest hmem
  have hget := h id index nest (hsuffix.subset hmem)
  obtain ⟨later, hlater⟩ := hsuffix
  rw [get?, ← hlater, List.lookup_append] at hget
  cases hfirst : later.lookup id with
  | none =>
    rwa [hfirst, Option.none_or] at hget
  | some storage =>
    -- The entry would stand among the later ones as well.
    rw [hfirst, Option.some_or, Option.some.injEq] at hget
    subst hget
    obtain ⟨before, after, hsplit, -⟩ := List.lookup_eq_some_iff.mp hfirst
    have hnodup := hsound.nodup
    rw [← hlater, List.filterMap_append, List.nodup_append] at hnodup
    refine absurd rfl (hnodup.2.2 index ?_ index (List.mem_filterMap.mpr ⟨_, hmem, rfl⟩))
    refine List.mem_filterMap.mpr ⟨(id, .routine index nest), ?_, rfl⟩
    rw [hsplit]
    simp

theorem suffix_add {d : Decl} (h : add r l d = .ok l') : l.entries <:+ l'.entries := by
  obtain ⟨storage, frames, -, rfl⟩ := added_of_add h
  exact List.suffix_cons ..

theorem suffix_foldlM {ds : List Decl} (h : ds.foldlM (add r) l = .ok l') :
    l.entries <:+ l'.entries := by
  induction ds generalizing l with
  | nil =>
    cases h
    exact List.suffix_refl _
  | cons d ds ih =>
    obtain ⟨l₁, hadd, hrest⟩ := foldlM_cons h
    exact (suffix_add hadd).trans (ih hrest)

/-- If the declaration is a procedure, it was given a routine. -/
def HasEntry (l : Layout) (d : Decl) : Prop :=
  ∀ head decls stmt, d = .procedure head decls stmt →
    ∃ index nest, (head.id, .routine index nest) ∈ l.entries

theorem HasEntry.of_suffix {d : Decl} (h : l.HasEntry d) (hsuffix : l.entries <:+ l'.entries) :
    l'.HasEntry d := by
  intro head decls stmt hd
  obtain ⟨index, nest, hmem⟩ := h head decls stmt hd
  exact ⟨index, nest, hsuffix.subset hmem⟩

theorem hasEntry_foldlM {ds : List Decl} (h : ds.foldlM (add r) l = .ok l') :
    ∀ d ∈ ds, l'.HasEntry d := by
  induction ds generalizing l with
  | nil => simp
  | cons d ds ih =>
    obtain ⟨l₁, hadd, hrest⟩ := foldlM_cons h
    refine List.forall_mem_cons.mpr ⟨?_, ih hrest⟩
    refine HasEntry.of_suffix ?_ (suffix_foldlM hrest)
    rintro head decls stmt rfl
    obtain ⟨storage, frames, hadded, rfl⟩ := added_of_add hadd
    cases hadded with
    | procedure => exact ⟨_, _, List.mem_cons_self ..⟩

end Layout

mutual

theorem Decl.suffix_layOut : (d : Decl) → {l l' : Layout} → d.layOut l = .ok l' →
    l.entries <:+ l'.entries
  | .const .., l, l', h | .var _, l, l', h => by
    cases h
    exact List.suffix_refl _
  | .procedure head decls stmt, l, l', h => by
    rw [Decl.layOut] at h
    split at h
    · obtain ⟨l₁, hfold, hlist⟩ := exists_of_bind_ok h
      exact (Layout.suffix_foldlM hfold).trans (Decl.suffix_layOutList decls hlist)
    · cases h
      exact List.suffix_refl _

theorem Decl.suffix_layOutList : (ds : List Decl) → {l l' : Layout} →
    Decl.layOutList l ds = .ok l' → l.entries <:+ l'.entries
  | [], l, l', h => by
    cases h
    exact List.suffix_refl _
  | d :: ds, l, l', h => by
    obtain ⟨l₁, hd, hds⟩ := layOutList_cons h
    exact (Decl.suffix_layOut d hd).trans (Decl.suffix_layOutList ds hds)

end

mutual

/-- No procedure is passed over, as its routine would be lost. -/
theorem Decl.size_layOut_of_lossless {L : Layout} (hL : L.Lossless) (hsound : L.Sound) :
    (d : Decl) → {l l' : Layout} → d.layOut l = .ok l' →
    l'.entries <:+ L.entries → l.HasEntry d →
    l'.frames.size + procedureCount [d] = l.frames.size + procedureCount d.subtree
  | .const .., _, _, h, _, _ | .var _, _, _, h, _, _ => by
    cases h
    rfl
  | .procedure head decls stmt, l, l', h, hsuffix, hentry => by
    obtain ⟨index, nest, hmem⟩ := hentry _ _ _ rfl
    have hvisible := hL.of_suffix hsound ((Decl.suffix_layOut _ h).trans hsuffix)
    obtain ⟨l₁, hfold, hlist⟩ := layOut_procedure h (hvisible _ _ _ hmem)
    have hsize := Layout.size_foldlM hfold
    have hnested := Decl.size_layOutList_of_lossless hL hsound decls hlist hsuffix
      (Layout.hasEntry_foldlM hfold)
    have hone : procedureCount [.procedure head decls stmt] = 1 := rfl
    rw [Decl.subtree, procedureCount_cons _ (subtrees decls), hone]
    omega

theorem Decl.size_layOutList_of_lossless {L : Layout} (hL : L.Lossless) (hsound : L.Sound) :
    (ds : List Decl) → {l l' : Layout} →
    Decl.layOutList l ds = .ok l' → l'.entries <:+ L.entries → (∀ d ∈ ds, l.HasEntry d) →
    l'.frames.size + procedureCount ds = l.frames.size + procedureCount (subtrees ds)
  | [], _, _, h, _, _ => by
    cases h
    rfl
  | d :: ds, l, l', h, hsuffix, hentries => by
    obtain ⟨l₁, hd, hds⟩ := layOutList_cons h
    rw [List.forall_mem_cons] at hentries
    have hfirst := Decl.size_layOut_of_lossless hL hsound d hd
      ((Decl.suffix_layOutList ds hds).trans hsuffix) hentries.1
    have hrest := Decl.size_layOutList_of_lossless hL hsound ds hds hsuffix fun x hx =>
      (hentries.2 x hx).of_suffix (Decl.suffix_layOut d hd)
    rw [Decl.subtrees, procedureCount_append, procedureCount_cons]
    omega

end

theorem Program.size_layout_of_lossless {p : Program} {L : Layout} (hL : L.Lossless)
    (hsound : L.Sound) (h : p.layout = .ok L) :
    L.frames.size = Decl.procedureCount p.declarations + 1 := by
  obtain ⟨l₁, hfold, hlist⟩ := exists_of_bind_ok h
  have hsize : l₁.frames.size = 1 + _ := Layout.size_foldlM hfold
  have hnested := Decl.size_layOutList_of_lossless hL hsound p.block.decls hlist
    (List.suffix_refl _) (Layout.hasEntry_foldlM hfold)
  rw [Program.declarations]
  omega

namespace Program

variable {p : Program} {l : Layout} {es : List (Nat × List Instr)} {c : Nat} {rs : List Routine}

/-- Code was made for every frame. -/
theorem mem_of_assemble (h : assemble es 0 l.frames.toList = .ok rs) {k : Nat}
    (hk : k < l.frames.size) : k ∈ es.map Prod.fst := by
  have hframe : l.frames.toList[k]? = some l.frames[k] := by simp [hk]
  obtain ⟨code, hlookup, -⟩ := (getElem?_assemble h).2 k _ hframe
  rw [Nat.zero_add] at hlookup
  obtain ⟨before, after, hsplit, -⟩ := List.lookup_eq_some_iff.mp hlookup
  rw [← List.mem_reverse, ← List.map_reverse, hsplit]
  simp

/-- **Code is made once for every routine** of a program that has a unit. -/
theorem nodup_indices (hlayout : p.layout = .ok l) (hroutines : p.codes l 0 = .ok (es, c))
    (hassemble : assemble es 0 l.frames.toList = .ok rs) : (es.map Prod.fst).Nodup := by
  have hsound := sound_layout hlayout
  obtain ⟨nested, seg, c₁, hnested, hmain, rfl⟩ := Program.codes_eq hroutines
  have howned : ∀ i, 0 < i → i < l.frames.size →
      ∃ id nest, l.get? id = some (.routine i nest) := by
    intro i hpos hlt
    obtain ⟨x, hx, rfl⟩ := List.mem_map.mp (mem_of_assemble hassemble hlt)
    rcases List.mem_append.mp hx with hx | hx
    · exact (Decl.pieces_codesList _ hnested).owner x hx
    · rw [List.mem_singleton.mp hx] at hpos
      exact absurd hpos (Nat.lt_irrefl 0)
  -- There are as many pieces of code as frames, so none has two of them.
  have hsize := size_layout_of_lossless (Layout.lossless_of_owned hsound howned) hsound hlayout
  have hlength := Decl.length_codesList _ hnested
  have hsub : (List.range l.frames.size).Subperm
      ((nested ++ [(0, seg ++ [Instr.ret])]).map Prod.fst) :=
    List.nodup_range.subperm fun i hi => mem_of_assemble hassemble (List.mem_range.mp hi)
  have hperm := hsub.perm_of_length_le (by
    rw [List.length_map, List.length_append, hlength, List.length_range, hsize]
    exact Nat.le_refl _)
  exact hperm.nodup_iff.mp List.nodup_range

theorem pieces_codes (hroutines : p.codes l 0 = .ok (es, c)) :
    (∀ x ∈ es, ∃ body, x.2 = body ++ [.ret] ∧ Enclosed body) ∧
      (∀ x ∈ es, x.1 = 0 ∨ ∃ id nest, l.get? id = some (.routine x.1 nest)) ∧
      Numbers (es.flatMap Prod.snd) 0 c := by
  obtain ⟨nested, seg, c₁, hnested, hmain, rfl⟩ := Program.codes_eq hroutines
  have hpieces := Decl.pieces_codesList _ hnested
  refine ⟨List.forall_mem_append.mpr ⟨hpieces.code, ?_⟩,
    List.forall_mem_append.mpr ⟨fun x hx => .inr (hpieces.owner x hx), ?_⟩, ?_⟩
  · exact List.forall_mem_singleton.mpr ⟨seg, rfl, p.block.stmt.enclosed_code hmain⟩
  · exact List.forall_mem_singleton.mpr (.inl rfl)
  · rw [List.flatMap_append]
    exact hpieces.numbers.append (p.block.stmt.numbers_routine hmain 0)

/-- **Jumps stay where they belong.**  In a unit with fewer than 2^32 labels, no label stands twice,
every jump goes to a label of the routine it stands in, and every routine returns at its end and
nowhere else. -/
theorem jumps_of_generate {name : String} {u : CodeUnit} (h : p.generate name = .ok u)
    (hlabels : u.labelCount < 2 ^ 32) :
    (labels (u.routines.flatMap Routine.code)).Nodup ∧
    ∀ r ∈ u.routines,
      (∀ i ∈ r.code, ∀ l, i.target? = some l → .label l ∈ r.code) ∧
      ∃ body, r.code = body ++ [.ret] ∧ .ret ∉ body := by
  obtain ⟨l, es, c, hlayout, hroutines, hassemble⟩ := Program.generate_eq h
  have hnodup := nodup_indices hlayout hroutines hassemble
  obtain ⟨hcode, howner, hnumbers⟩ := pieces_codes hroutines
  have hlt : ∀ x ∈ es, x.1 < l.frames.toList.length := by
    intro x hx
    rw [Array.length_toList]
    have hsound := sound_layout hlayout
    rcases howner x hx with hzero | ⟨id, nest, hget⟩
    · rw [hzero]
      exact hsound.pos
    · exact (hsound.lt_of_get? hget).2
  have hperm := perm_of_assemble hassemble hnodup hlt
  refine ⟨?_, fun r hr => ?_⟩
  · have hunit : Numbers (u.routines.flatMap Routine.code) 0 c :=
      hnumbers.congr (hperm.flatten.symm.filterMap _)
    refine hunit.nodup (Nat.le_of_lt ?_)
    rw [← hunit.countP_eq, Nat.zero_add]
    exact hlabels
  · obtain ⟨x, hx, hxr⟩ := List.mem_map.mp (hperm.mem_iff.mpr (List.mem_map_of_mem hr))
    obtain ⟨body, hbody, henclosed⟩ := hcode x hx
    rw [← hxr, hbody]
    refine ⟨fun i hi l hl => ?_, body, rfl, henclosed.returns⟩
    have htarget : l ∈ targets (body ++ [.ret]) := mem_targets.mpr ⟨i, hi, hl⟩
    rw [targets_append] at htarget
    have hbody : l ∈ targets body := by simpa [targets, Instr.target?] using htarget
    exact List.mem_append_left _ (mem_labels.mp (henclosed.jumps l hbody))

end Program

/-- A loop in a procedure and a branch in the program. -/
def branchedLoops : String :=
  "var i; procedure p; while i < 3 do i := i + 1; begin call p; if i = 3 then ! i end."

theorem branchedLoops_jumps :
    ∃ p u, Program.ofSource branchedLoops = .ok p ∧ p.analyze.1.generate "main" = .ok u ∧
      u.labelCount = 7 ∧ u.routines.map Routine.name = ["main", "p"] ∧
      (labels (u.routines.flatMap Routine.code)).Nodup ∧
      ∀ r ∈ u.routines,
        (∀ i ∈ r.code, ∀ l, i.target? = some l → .label l ∈ r.code) ∧
        ∃ body, r.code = body ++ [.ret] ∧ .ret ∉ body := by
  have hcheck : (match Program.ofSource branchedLoops with
      | .ok p => match p.analyze.1.generate "main" with
        | .ok u => decide (u.labelCount = 7 ∧ u.routines.map Routine.name = ["main", "p"])
        | .error _ => false
      | .error _ => false) = true := by decide +kernel
  split at hcheck
  · rename_i p hsource
    split at hcheck
    · rename_i u hgenerate
      obtain ⟨hlabels, hnames⟩ := of_decide_eq_true hcheck
      exact ⟨p, u, hsource, hgenerate, hlabels, hnames,
        Program.jumps_of_generate hgenerate (by rw [hlabels]; decide)⟩
    · cases hcheck
  · cases hcheck

end PLZero
