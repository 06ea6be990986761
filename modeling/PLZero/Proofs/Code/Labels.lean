import PLZero.Proofs.Code.Emission
import PLZero.Proofs.Machine.Instructions

/-!
# Labels

Labels are numbered through the whole unit and have 32 bits.

* `Numbers` — the labels of a piece of code are those with the numbers from `c` up to `c'`, each
  once.
* `Stmt.numbers_code` — the code of a statement has the labels between the numbers of the next label
  before and after it was made.
* `CodeUnit.load_ok` — a unit in which no routine has a label twice can be made ready to run, and
  every label is then found where it stands.
-/

namespace PLZero

def Instr.label? : Instr → Option Label
  | .label l => some l
  | _ => none

/-- The labels that stand in a piece of code. -/
def labels (code : List Instr) : List Label := code.filterMap Instr.label?

/-- The number of labels that stand in the code of a unit. -/
def CodeUnit.labelCount (u : CodeUnit) : Nat :=
  (u.routines.flatMap Routine.code).countP Instr.isLabel

@[simp] theorem labels_nil : labels [] = [] := rfl

@[simp] theorem labels_label (l : Label) (code : List Instr) :
    labels (.label l :: code) = l :: labels code := rfl

theorem labels_cons {i : Instr} (h : i.label? = none) (code : List Instr) :
    labels (i :: code) = labels code := by
  simp [labels, h]

@[simp] theorem labels_goto (l : Label) (code : List Instr) :
    labels (.goto l :: code) = labels code := rfl

@[simp] theorem labels_ifBool (value : Bool) (l : Label) (code : List Instr) :
    labels (.ifBool value l :: code) = labels code := rfl

@[simp] theorem labels_append (code code' : List Instr) :
    labels (code ++ code') = labels code ++ labels code' :=
  List.filterMap_append

theorem length_labels (code : List Instr) : (labels code).length = code.countP Instr.isLabel := by
  rw [labels, List.length_filterMap_eq_countP]
  congr 1
  funext i
  cases i <;> rfl

/-! ## Labels of emitted code -/

/-- The labels of the code are those numbered from `c` up to `c'`. -/
def Numbers (code : List Instr) (c c' : Nat) : Prop :=
  ∃ k, c' = c + k ∧ (labels code).Perm ((List.range' c k).map UInt32.ofNat)

namespace Numbers

variable {code code' : List Instr} {c c' c'' : Nat}

theorem of_nil (h : labels code = []) (c : Nat) : Numbers code c c :=
  ⟨0, rfl, by rw [h]; exact .refl _⟩

theorem one (c : Nat) : Numbers [.label (.ofNat c)] c (c + 1) := ⟨1, rfl, .refl _⟩

theorem append (h : Numbers code c c') (h' : Numbers code' c' c'') :
    Numbers (code ++ code') c c'' := by
  obtain ⟨k, rfl, hk⟩ := h
  obtain ⟨m, rfl, hm⟩ := h'
  refine ⟨k + m, Nat.add_assoc .., ?_⟩
  rw [labels_append, ← List.range'_append_1, List.map_append]
  exact hk.append hm

/-- What counts is which labels there are, not where they stand. -/
theorem congr (h : Numbers code c c') (hperm : (labels code').Perm (labels code)) :
    Numbers code' c c' := by
  obtain ⟨k, hk, hcode⟩ := h
  exact ⟨k, hk, hperm.trans hcode⟩

theorem countP_eq (h : Numbers code c c') : c + code.countP Instr.isLabel = c' := by
  obtain ⟨k, rfl, hk⟩ := h
  rw [← length_labels, hk.length_eq, List.length_map, List.length_range']

/-- Numbers below the number of 32-bit words are different labels. -/
theorem nodup (h : Numbers code c c') (hc : c' ≤ UInt32.size) : (labels code).Nodup := by
  obtain ⟨k, rfl, hk⟩ := h
  rw [hk.nodup_iff, List.Nodup, List.pairwise_map]
  refine List.Pairwise.imp_of_mem (fun {a b} ha hb hne heq => hne ?_) List.nodup_range'
  rw [List.mem_range'_1] at ha hb
  have hword {i : Nat} (hi : i < c + k) : (UInt32.ofNat i).toNat = i := by
    rw [UInt32.toNat_ofNat', Nat.mod_eq_of_lt (Nat.lt_of_lt_of_le hi hc)]
  rw [← hword ha.2, ← hword hb.2, heq]

end Numbers

section Emitted

variable {l : Layout} {c c' : Nat} {seg : List Instr}

theorem numbers_branchCode {branch : Label → Instr} (hbranch : ∀ l, (branch l).label? = none)
    (h : branchCode branch c = .ok (seg, c')) : Numbers seg c c' := by
  obtain ⟨rfl, rfl⟩ := code_branch h
  refine ((Numbers.one c).append (Numbers.one (c + 1))).congr ?_
  rw [labels_cons (hbranch _)]
  exact .refl _

theorem Cond.numbers_stringCode {cond : Cond} (h : cond.stringCode c = .ok (seg, c')) :
    Numbers seg c c' := by
  cases cond with
  | eq | ne => exact numbers_branchCode (fun _ => rfl) h
  | lt | le | gt | ge =>
    obtain ⟨rfl, rfl⟩ := Emit.of_pure h
    exact .of_nil rfl c

theorem Op.numbers_code {op : Op} {operand : Ty} {line : Nat}
    (h : op.code operand line c = .ok (seg, c')) : Numbers seg c c' := by
  cases op with
  | arith a =>
    simp only [Op.code] at h
    cases hi : a.instr? operand with
    | none =>
      rw [hi] at h
      cases h
    | some i =>
      rw [hi] at h
      obtain ⟨rfl, rfl⟩ := Emit.of_pure h
      refine .of_nil ?_ c
      cases a <;> cases operand <;> cases hi <;> rfl
  | compare cond =>
    cases operand with
    | procedure => cases h
    | string => exact cond.numbers_stringCode h
    | number | boolean => exact numbers_branchCode (fun _ => rfl) h

theorem Layout.label?_loadInstr {ident : Ident} {i : Instr} (h : l.loadInstr ident = .ok i) :
    i.label? = none := by
  rcases loadInstr_cases h with ⟨_, _, _, rfl⟩ | ⟨_, _, _, _, _, rfl⟩ <;> rfl

theorem Layout.label?_storeInstr {ident : Ident} {i : Instr} (h : l.storeInstr ident = .ok i) :
    i.label? = none := by
  obtain ⟨_, _, _, _, _, rfl⟩ := storeInstr_cases h
  rfl

theorem Layout.label?_callInstr {ident : Ident} {i : Instr} (h : l.callInstr ident = .ok i) :
    i.label? = none := by
  obtain ⟨_, _, _, _, rfl⟩ := callInstr_cases h
  rfl

theorem Expr.numbers_code (e : Expr) : ∀ {c c' : Nat} {seg : List Instr},
    e.code l c = .ok (seg, c') → Numbers seg c c' := by
  induction e with
  | literal token ty value =>
    intro c c' seg h
    obtain ⟨rfl, rfl⟩ := Expr.code_literal h
    exact .of_nil rfl c
  | use ident ty =>
    intro c c' seg h
    obtain ⟨i, hi, rfl, rfl⟩ := Expr.code_use h
    exact .of_nil (labels_cons (Layout.label?_loadInstr hi) []) c
  | binary token ty op lhs rhs ihl ihr =>
    intro c c' seg h
    obtain ⟨left, right, operation, operand, c₁, c₂, hl, hr, -, hop, rfl⟩ := Expr.code_binary h
    exact (ihl hl).append ((ihr hr).append (Op.numbers_code hop))

mutual

theorem Stmt.numbers_code : (stmt : Stmt) → ∀ {c c' : Nat} {seg : List Instr},
    stmt.code l c = .ok (seg, c') → Numbers seg c c'
  | .assign target expr, c, c', seg, h => by
    obtain ⟨value, i, he, hi, rfl⟩ := Stmt.code_assign h
    exact (expr.numbers_code he).append (.of_nil (labels_cons (Layout.label?_storeInstr hi) []) c')
  | .call token target, c, c', seg, h => by
    obtain ⟨i, hi, rfl, rfl⟩ := Stmt.code_call h
    exact .of_nil (labels_cons (Layout.label?_callInstr hi) []) c
  | .input token target, c, c', seg, h => by
    obtain ⟨ty, i, -, hi, rfl, rfl⟩ := Stmt.code_input h
    exact .of_nil (labels_cons (Layout.label?_storeInstr hi) []) c
  | .output token expr, c, c', seg, h => by
    obtain ⟨value, ty, he, -, rfl⟩ := Stmt.code_output h
    exact (expr.numbers_code he).append (.of_nil rfl c')
  | .begin token stmts, c, c', seg, h => by
    rw [Stmt.code] at h
    exact Stmt.numbers_codeList stmts h
  | .if token guard body, c, c', seg, h => by
    obtain ⟨test, run, c₁, htest, hrun, rfl⟩ := Stmt.code_if h
    refine ((Numbers.one c).append ((guard.numbers_code htest).append
      (Stmt.numbers_code body hrun))).congr ?_
    simp only [labels_append, labels_label, labels_ifBool, labels_nil, List.append_nil]
    -- The label at the end has the first of the numbers.
    exact List.perm_append_singleton ..
  | .while token guard body, c, c', seg, h => by
    obtain ⟨run, test, c₁, hrun, htest, rfl⟩ := Stmt.code_while h
    refine ((Numbers.one c).append ((Numbers.one (c + 1)).append
      ((Stmt.numbers_code body hrun).append (guard.numbers_code htest)))).congr ?_
    simp only [labels_append, labels_label, labels_goto, labels_ifBool, labels_nil, List.append_nil,
      List.append_assoc, List.cons_append, List.nil_append]
    exact List.perm_middle.cons _
  | .empty token, c, c', seg, h => by
    rw [Stmt.code] at h
    obtain ⟨rfl, rfl⟩ := Emit.of_pure h
    exact .of_nil rfl c

theorem Stmt.numbers_codeList : (stmts : List Stmt) → ∀ {c c' : Nat} {seg : List Instr},
    Stmt.codeList l stmts c = .ok (seg, c') → Numbers seg c c'
  | [], c, c', seg, h => by
    rw [Stmt.codeList] at h
    obtain ⟨rfl, rfl⟩ := Emit.of_pure h
    exact .of_nil rfl c
  | stmt :: stmts, c, c', seg, h => by
    obtain ⟨first, rest, c₁, hs, hss, rfl⟩ := Stmt.codeList_cons h
    exact (Stmt.numbers_code stmt hs).append (Stmt.numbers_codeList stmts hss)

end

end Emitted

/-! ## Labels of loaded code -/

theorem labelTable_ok (name : String) (code : List Instr) :
    ∀ (pc : Nat) (table : List (Label × Nat)),
    (labels code).Nodup → (∀ l ∈ labels code, table.lookup l = none) →
    ∃ table', labelTable name pc code table = .ok table' ∧
      (∀ l ∉ labels code, table'.lookup l = table.lookup l) ∧
      ∀ k l, code[k]? = some (.label l) → table'.lookup l = some (pc + k) := by
  induction code with
  | nil => exact fun pc table _ _ => ⟨table, rfl, fun _ _ => rfl, by simp⟩
  | cons i code ih =>
    intro pc table hnodup hfresh
    cases hi : i.label? with
    | none =>
      rw [labels_cons hi] at hnodup hfresh ⊢
      obtain ⟨table', htable, hother, hfound⟩ := ih (pc + 1) table hnodup hfresh
      refine ⟨table', ?_, hother, fun k l hk => ?_⟩
      · rw [← htable]
        cases i <;> first | rfl | cases hi
      · cases k with
        | zero =>
          cases hk
          cases hi
        | succ k =>
          rw [hfound k l hk]
          congr 1
          omega
    | some l =>
      cases i with
      | label l' =>
        cases hi
        rw [labels_label, List.nodup_cons] at hnodup
        rw [labels_label, List.forall_mem_cons] at hfresh
        obtain ⟨table', htable, hother, hfound⟩ := ih (pc + 1) ((l, pc) :: table) hnodup.2
          fun x hx => by
            have hne : x ≠ l := fun heq => hnodup.1 (heq ▸ hx)
            simp [List.lookup_cons, beq_eq_false_iff_ne.mpr hne, hfresh.2 x hx]
        refine ⟨table', ?_, fun x hx => ?_, fun k x hk => ?_⟩
        · rw [labelTable, hfresh.1]
          exact htable
        · rw [labels_label, List.mem_cons, not_or] at hx
          rw [hother x hx.2]
          simp [List.lookup_cons, beq_eq_false_iff_ne.mpr hx.1]
        · cases k with
          | zero =>
            cases hk
            rw [hother l hnodup.1]
            simp
          | succ k =>
            rw [hfound k x hk]
            congr 1
            omega
      | _ => cases hi

/-- The entries of a label table stand for the labels of the code, and no label stands twice. -/
theorem labelTable_spec (name : String) (code : List Instr) :
    ∀ (pc : Nat) (table table' : List (Label × Nat)), labelTable name pc code table = .ok table' →
    (labels code).Nodup ∧ (∀ l ∈ labels code, table.lookup l = none) ∧
      ∀ l q, (l, q) ∈ table' → (l, q) ∈ table ∨ ∃ k, q = pc + k ∧ code[k]? = some (.label l) := by
  induction code with
  | nil =>
    intro pc table table' h
    cases h
    exact ⟨.nil, by simp, fun l q hmem => .inl hmem⟩
  | cons i code ih =>
    intro pc table table' h
    cases hi : i.label? with
    | none =>
      have htail : labelTable name (pc + 1) code table = .ok table' := by
        rw [← h]
        cases i <;> first | rfl | cases hi
      obtain ⟨hnodup, hfresh, hentries⟩ := ih (pc + 1) table table' htail
      rw [labels_cons hi]
      refine ⟨hnodup, hfresh, fun l q hmem => ?_⟩
      rcases hentries l q hmem with hold | ⟨k, rfl, hk⟩
      · exact .inl hold
      · exact .inr ⟨k + 1, by omega, hk⟩
    | some l =>
      cases i with
      | label l' =>
        cases hi
        rw [labelTable] at h
        cases hlookup : table.lookup l with
        | some q =>
          rw [hlookup] at h
          cases h
        | none =>
          rw [hlookup] at h
          obtain ⟨hnodup, hfresh, hentries⟩ := ih (pc + 1) ((l, pc) :: table) table' h
          -- A label that stood again would be found in the table.
          have hnew : l ∉ labels code := by
            intro hmem
            have hnone := hfresh l hmem
            simp at hnone
          refine ⟨List.nodup_cons.mpr ⟨hnew, hnodup⟩, ?_, fun x q hmem => ?_⟩
          · rw [labels_label, List.forall_mem_cons]
            refine ⟨hlookup, fun x hx => ?_⟩
            have hne : x ≠ l := fun heq => hnew (heq ▸ hx)
            have hnone := hfresh x hx
            rwa [List.lookup_cons, beq_false_of_ne hne] at hnone
          · rcases hentries x q hmem with hold | ⟨k, rfl, hk⟩
            · rcases List.mem_cons.mp hold with heq | hold
              · cases heq
                exact .inr ⟨0, rfl, rfl⟩
              · exact .inl hold
            · exact .inr ⟨k + 1, by omega, hk⟩
      | _ => cases hi

/-- What a routine has become when it is ready to run. -/
structure Routine.LoadedAs (r : Routine) (R : LoadedRoutine) : Prop where
  locals : R.locals = r.locals
  code : R.code = r.code.toArray
  labelled : R.Labelled

theorem Routine.load_ok {r : Routine} (h : (labels r.code).Nodup) :
    ∃ R, r.load = .ok R ∧ r.LoadedAs R := by
  obtain ⟨table, htable, -, hfound⟩ :=
    labelTable_ok r.name r.code 0 [] h fun _ _ => rfl
  refine ⟨⟨r.locals, r.code.toArray, table⟩, ?_, rfl, rfl, fun pc l hl => ?_⟩
  · simp only [Routine.load, htable]
    rfl
  · rw [hfound pc l (by simpa using hl), Nat.zero_add]

theorem Routine.mapM_load_ok {rs : List Routine} (h : ∀ r ∈ rs, (labels r.code).Nodup) :
    ∃ Rs, rs.mapM Routine.load = .ok Rs ∧
      ∀ (i : Nat) (r : Routine), rs[i]? = some r → ∃ R, Rs[i]? = some R ∧ r.LoadedAs R := by
  induction rs with
  | nil => exact ⟨[], rfl, by simp⟩
  | cons r rs ih =>
    rw [List.forall_mem_cons] at h
    obtain ⟨R, hR, hloaded⟩ := Routine.load_ok h.1
    obtain ⟨Rs, hRs, hall⟩ := ih h.2
    refine ⟨R :: Rs, ?_, fun i r' hi => ?_⟩
    · rw [List.mapM_cons, hR]
      simp only [bind, Except.bind, hRs]
      rfl
    · cases i with
      | zero =>
        cases hi
        exact ⟨R, rfl, hloaded⟩
      | succ i => exact hall i r' hi

theorem CodeUnit.load_ok {u : CodeUnit} (h : ∀ r ∈ u.routines, (labels r.code).Nodup) :
    ∃ image, u.load = .ok image ∧
      ∀ (i : Nat) (r : Routine), u.routines[i]? = some r →
        ∃ R, image[i]? = some R ∧ r.LoadedAs R := by
  obtain ⟨Rs, hRs, hall⟩ := Routine.mapM_load_ok h
  refine ⟨Rs.toArray, ?_, fun i r hi => ?_⟩
  · simp only [CodeUnit.load, hRs]
    rfl
  · obtain ⟨R, hR, hloaded⟩ := hall i r hi
    exact ⟨R, by simpa using hR, hloaded⟩

/-- A routine that could be made ready to run has its labels where its table says. -/
theorem Routine.loadedAs_of_load {r : Routine} {R : LoadedRoutine} (h : r.load = .ok R) :
    r.LoadedAs R ∧ ∀ l pc, (l, pc) ∈ R.labels → r.code[pc]? = some (.label l) := by
  obtain ⟨table, htable, hR⟩ := exists_of_bind_ok h
  obtain ⟨hnodup, -, hentries⟩ := labelTable_spec r.name r.code 0 [] table htable
  obtain ⟨R', hR', hloaded⟩ := Routine.load_ok hnodup
  rw [h] at hR'
  cases hR'
  refine ⟨hloaded, fun l pc hmem => ?_⟩
  cases hR
  rcases hentries l pc hmem with hold | ⟨k, rfl, hk⟩
  · cases hold
  · rw [Nat.zero_add]
    exact hk

theorem getElem?_of_mapM_ok {ε α β : Type} {f : α → Except ε β} {xs : List α} {ys : List β}
    (h : xs.mapM f = .ok ys) :
    ∀ (i : Nat) (y : β), ys[i]? = some y → ∃ x, xs[i]? = some x ∧ f x = .ok y := by
  induction xs generalizing ys with
  | nil =>
    cases h
    intro i y hy
    cases hy
  | cons x xs ih =>
    rw [List.mapM_cons] at h
    obtain ⟨z, hz, h⟩ := exists_of_bind_ok h
    obtain ⟨zs, hzs, h⟩ := exists_of_bind_ok h
    cases h
    intro i y hy
    cases i with
    | zero =>
      cases hy
      exact ⟨x, rfl, hz⟩
    | succ i => exact ih hzs i y hy

/-- Every loaded routine comes from a routine of the unit, with its labels where its table says. -/
theorem CodeUnit.exists_loadedAs {u : CodeUnit} {image : Image} {i : Nat} {R : LoadedRoutine}
    (h : u.load = .ok image) (hR : image[i]? = some R) :
    ∃ r, u.routines[i]? = some r ∧ r.LoadedAs R ∧
      ∀ l pc, (l, pc) ∈ R.labels → r.code[pc]? = some (.label l) := by
  obtain ⟨Rs, hRs, himage⟩ := exists_of_bind_ok h
  cases himage
  rw [List.getElem?_toArray] at hR
  obtain ⟨r, hr, hload⟩ := getElem?_of_mapM_ok hRs i R hR
  exact ⟨r, hr, Routine.loadedAs_of_load hload⟩

/-- What is run is the code of the unit. -/
theorem CodeUnit.exists_routine {u : CodeUnit} {image : Image} {i : Nat} {R : LoadedRoutine}
    (h : u.load = .ok image) (hR : image[i]? = some R) :
    ∃ r, u.routines[i]? = some r ∧ R.code = r.code.toArray := by
  obtain ⟨r, hr, hloaded, -⟩ := CodeUnit.exists_loadedAs h hR
  exact ⟨r, hr, hloaded.code⟩

end PLZero
