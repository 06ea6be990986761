import PLZero.Proofs.Code.Blocks
import PLZero.Proofs.Compile.Idempotence
import PLZero.Proofs.Compile.RoundTrip

/-!
# The layout of an analysed program

Every program that comes through parsing and analysis has a layout, in which declarations and places
correspond to one another (`Program.laidOut_of_analyze`).

That procedures have different names is a matter of the text: their names are paths, the parts of a
path are words, and words have no dots (`dotless_of_ofSource`).  The analysis changes no names
(`Program.bare_analyze`).
-/

namespace PLZero

/-! ## Names of declarations -/

theorem Decl.names_number_subtrees (next : Nat) (ds : List Decl) :
    (subtrees (numberList next ds).1).map name = (subtrees ds).map name := by
  have htokens := congrArg (List.map Token.name) (tokens_numberList next ds)
  rwa [List.map_map, List.map_map] at htokens

mutual

theorem Decl.names_unbound_subtree : (d : Decl) → d.unbound.subtree.map name = d.subtree.map name
  | .const .. | .var _ => rfl
  | .procedure head decls stmt => by
    rw [unbound, subtree, List.map_cons, Decl.names_unbound_subtrees decls]
    rfl

theorem Decl.names_unbound_subtrees : (ds : List Decl) →
    (subtrees (unboundList ds)).map name = (subtrees ds).map name
  | [] => rfl
  | d :: ds => by
    rw [unboundList, subtrees, List.map_append, Decl.names_unbound_subtree d,
      Decl.names_unbound_subtrees ds, ← List.map_append, ← subtrees]

end

/-- The slots of a tree have no part in the names of its declarations. -/
theorem Program.names_bare (p : Program) :
    p.bare.declarations.map Decl.name = p.declarations.map Decl.name := by
  have hname : Decl.name ∘ Decl.untyped = Decl.name := by
    funext d
    cases d <;> rfl
  rw [bare, declarations_untyped, List.map_map, hname]
  exact Decl.names_unbound_subtrees p.block.decls

/-! ## Words -/

theorem not_isIdentPart_dot : isIdentPart '.' = false :=
  (Delimited.mark (by decide) []).not_isIdentPart '.' rfl

/-- A word has no dot in it. -/
theorem IsLexeme.dotless {name : String} (h : IsLexeme (.ident name) name.toList) :
    '.' ∉ name.toList := by
  generalize htext : name.toList = text at h
  cases h with
  | @ident c cs hstart hpart _ =>
    have hparts : ∀ d ∈ c :: cs, isIdentPart d = true :=
      List.forall_mem_cons.mpr ⟨isIdentPart_of_isIdentStart hstart, hpart⟩
    intro hdot
    have hpart := hparts '.' hdot
    rw [not_isIdentPart_dot] at hpart
    cases hpart

section Names

variable {N : String → Prop}

/-- The identifiers among the tokens have names of the given sort. -/
def Identifiers (N : String → Prop) (ts : List Token) : Prop :=
  ∀ t ∈ ts, ∀ name, t.kind = .ident name → N name

theorem Identifiers.name_ofToken {ts : List Token} {t : Token} {name : String}
    (h : Identifiers N ts) (ht : t ∈ ts) (hkind : t.kind = .ident name) :
    N (DeclHead.ofToken t).name := by
  change N t.name
  rw [t.name_of_kind hkind]
  exact h t ht name hkind

namespace Grammar

theorem Listed.names {Item : List Token → Decl → Prop} {ts : List Token} {ds : List Decl}
    (hitem : ∀ ts d, Item ts d → Identifiers N ts → ∀ x ∈ d.subtree, N x.name)
    (h : Listed Item ts ds) (hts : Identifiers N ts) : ∀ x ∈ Decl.subtrees ds, N x.name := by
  induction h with
  | one h => simpa [Decl.subtrees] using hitem _ _ h hts
  | cons h _ _ ih =>
    rw [Decl.subtrees, List.forall_mem_append]
    exact ⟨hitem _ _ h fun t ht => hts t (by simp [ht]), ih fun t ht => hts t (by simp [ht])⟩

theorem Constant.names {ts : List Token} {d : Decl} (h : Constant ts d) (hts : Identifiers N ts) :
    ∀ x ∈ d.subtree, N x.name := by
  cases h with
  | mk ht => exact List.forall_mem_singleton.mpr (hts.name_ofToken (by simp) ht)

theorem Variable.names {ts : List Token} {d : Decl} (h : Variable ts d) (hts : Identifiers N ts) :
    ∀ x ∈ d.subtree, N x.name := by
  cases h with
  | mk ht => exact List.forall_mem_singleton.mpr (hts.name_ofToken (by simp) ht)

mutual

theorem Group.names {ts : List Token} {ds : List Decl} : Group ts ds → Identifiers N ts →
    ∀ x ∈ Decl.subtrees ds, N x.name
  | .consts _ h _, hts => h.names (fun _ _ hd => hd.names) fun t ht => hts t (by simp [ht])
  | .vars _ h _, hts => h.names (fun _ _ hd => hd.names) fun t ht => hts t (by simp [ht])
  | .procedure _ hu _ (.mk hds _) _, hts => by
    rw [Decl.subtrees, Decl.subtrees, List.append_nil, Decl.subtree, List.forall_mem_cons]
    exact ⟨hts.name_ofToken (by simp) hu, hds.names fun t ht => hts t (by simp [ht])⟩

theorem Declarations.names {ts : List Token} {ds : List Decl} : Declarations ts ds →
    Identifiers N ts → ∀ x ∈ Decl.subtrees ds, N x.name
  | .nil, _ => by simp [Decl.subtrees]
  | .cons hgroup hds, hts => by
    rw [Decl.subtrees_append, List.forall_mem_append]
    exact ⟨hgroup.names fun t ht => hts t (by simp [ht]),
      hds.names fun t ht => hts t (by simp [ht])⟩

end

end Grammar

end Names

namespace Program

theorem dotless_of_ofSource {source : String} {p : Program} (h : ofSource source = .ok p) :
    ∀ name ∈ p.declarations.map Decl.name, '.' ∉ name.toList := by
  obtain ⟨tokens, hscan, hparse⟩ := exists_tokens_of_ofSource h
  have hwords : Identifiers (fun name => '.' ∉ name.toList) tokens := fun t ht name hkind =>
    (((lexes_scan hscan).printable t ht).name name hkind).dotless
  have hgrammar := Grammar.program_of_ofTokens ((scan_spec source).of_ok hscan) hparse
  -- The declarations stand first, and their numbers have no part in their names.
  have hnames {ts rest : List Token} {first : Token} {ds : List Decl} {stmt : Stmt}
      (hds : Grammar.Declarations ts ds) (htokens : tokens = ts ++ rest) :
      ∀ name ∈ (ofBlock first ⟨ds, stmt⟩).declarations.map Decl.name, '.' ∉ name.toList := by
    have hall := hds.names fun t ht => hwords t (by simp [htokens, ht])
    rw [show (ofBlock first ⟨ds, stmt⟩).declarations.map Decl.name = _ from
      Decl.names_number_subtrees 0 ds]
    exact List.forall_mem_map.mpr hall
  cases hgrammar with
  | single hds => exact hnames hds (List.append_assoc ..)
  | sequence hds => exact hnames hds (List.append_assoc ..)

theorem bare_analyze {source : String} {p : Program} {n : Nat} (hsource : ofSource source = .ok p)
    (h : p.analyze.2 = .ok n) : p.analyze.1.bare = p.bare := by
  have hdistinct : p.Distinct := ((ofSource_spec source).of_ok hsource).2.1
  obtain ⟨q, hresolve, -, htyping⟩ := typing_of_analyze hsource h
  have hscans := scans_resolve hdistinct
  rw [hresolve] at hscans
  have hsame : q.unbound = p.unbound := (hscans.tree rfl).1
  exact (bare_of_untyped_eq htyping.same).trans (congrArg untyped hsame)

/-! ## Result -/

/-- **The layout is a correspondence.**  Take a text that parsing and analysis accept.  Its program
has a layout in which every declaration has one entry, the procedures have the routines `1, 2, …` in
the order of their blocks, and the variables of a block have the slots of its routine; no two have
one place, and no two procedures have one name.  In the unit that is made from it, each routine has
the frame and the code of its block. -/
theorem laidOut_of_analyze {source : String} {p : Program} {n : Nat}
    (hsource : ofSource source = .ok p) (h : p.analyze.2 = .ok n) :
    ∃ l, p.analyze.1.layout = .ok l ∧ p.analyze.1.LaidOut l ∧
      (∀ unitName, UnitName.isValid unitName = true →
        ∃ u, p.analyze.1.generate unitName = .ok u) ∧
      ∀ unitName u, p.analyze.1.generate unitName = .ok u →
        u.routines.length = l.routineCount ∧
        ∀ path r b, p.analyze.1.HasBlock l path r b →
          ∃ frame seg c c', l.frames[r]? = some frame ∧ b.stmt.code l c = .ok (seg, c') ∧
            u.routines[r]? = some ⟨frame.name, frame.locals, seg ++ [.ret]⟩ := by
  have hp := analyzed_of_analyze hsource h
  have hbare := bare_analyze hsource h
  have hdistinct := distinct_of_bare_eq hbare ((ofSource_spec source).of_ok hsource).2.1
  have hdots := dotless_of_ofSource hsource
  rw [← names_bare, ← hbare, names_bare] at hdots
  obtain ⟨l, hlayout⟩ := exists_layout hp.bound hp.typed
  refine ⟨l, hlayout, laidOut_layout hlayout hp.numbered.nodup hdistinct hdots,
    fun _ hname => exists_generate hp.bound hp.typed hp.numbered hname, fun unitName u hu => ?_⟩
  obtain ⟨hlength, hroutines⟩ := routines_of_generate hu hlayout hp.numbered.nodup
  exact ⟨hlength, fun _ _ _ hb => hroutines hb⟩

end Program

/-- Procedures in two blocks, of which one has the name of the program. -/
def nestedProcedures : String :=
  "var n, m;
   procedure a; var i;
     procedure b; n := i;
     procedure main; i := n;
   begin i := 1; call b; call main end;
   procedure c; var j, k; begin j := true; k := j end;
   begin m := n; call a; call c end."

theorem nestedProcedures_laidOut :
    ∃ p n l u, Program.ofSource nestedProcedures = .ok p ∧ p.analyze.2 = .ok n ∧
      p.analyze.1.layout = .ok l ∧ p.analyze.1.LaidOut l ∧ p.analyze.1.generate "unit" = .ok u ∧
      p.declarations.map Decl.name = ["n", "m", "a", "i", "b", "main", "c", "j", "k"] ∧
      p.analyze.1.declarations.map l.routine? =
        [none, none, some 1, none, some 3, some 4, some 2, none, none] ∧
      l.frames.toList = [⟨"main", [.number, .number]⟩, ⟨"a", [.number]⟩,
        ⟨"c", [.boolean, .boolean]⟩, ⟨"a.b", []⟩, ⟨"a.main", []⟩] ∧
      u.routines.length = 5 := by
  have hcheck : (match Program.ofSource nestedProcedures with
      | .ok p => match p.analyze.1.layout, p.analyze.2 with
        | .ok l, .ok _ => decide (
          p.declarations.map Decl.name = ["n", "m", "a", "i", "b", "main", "c", "j", "k"] ∧
          p.analyze.1.declarations.map l.routine? =
            [none, none, some 1, none, some 3, some 4, some 2, none, none] ∧
          l.frames.toList = [⟨"main", [.number, .number]⟩, ⟨"a", [.number]⟩,
            ⟨"c", [.boolean, .boolean]⟩, ⟨"a.b", []⟩, ⟨"a.main", []⟩])
        | _, _ => false
      | .error _ => false) = true := by decide +kernel
  split at hcheck
  · rename_i p hsource
    split at hcheck
    · rename_i l n hlayout hanalyze
      obtain ⟨hnames, hroutines, hframes⟩ := of_decide_eq_true hcheck
      obtain ⟨l', hl', hlaidOut, hgenerate, hunit⟩ := Program.laidOut_of_analyze hsource hanalyze
      obtain rfl : l = l' := Except.ok.inj (hlayout.symm.trans hl')
      obtain ⟨u, hu⟩ := hgenerate "unit" (by decide)
      have hcount : l.routineCount = 5 := congrArg List.length hframes
      exact ⟨p, n, l, u, hsource, hanalyze, hlayout, hlaidOut, hu, hnames, hroutines, hframes,
        (hunit "unit" u hu).1.trans hcount⟩
    · cases hcheck
  · cases hcheck

end PLZero
