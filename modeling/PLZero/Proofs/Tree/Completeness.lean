import PLZero.Proofs.Tree.Soundness
import PLZero.Proofs.Tree.Tokens
import PLZero.Tree.Printer

/-!
# Every sentence is accepted

* `Parser.CompletesExpr`, `Parser.CompletesStmt` — a parser reads whatever is derived from a
  nonterminal, up to a length, and gives the tree of the derivation.  One lemma for each rule; the
  budget of the parser is the bound on the length.
* `Parser.Checks` — the same for blocks, which are refused if they declare a name twice.
* `Program.ofTokens_iff_sentence` — the parser accepts the sentences of the grammar in which no block
  declares a name twice, and no others.
-/

namespace PLZero

namespace Parser

variable {α β : Type} {t : Token} {ts us rest : List Token}

/-! ## Running a parser forwards -/

theorem bind_of_ok {m : Parser α} {f : α → Parser β} {a : α} (h : m ts = .ok (a, rest)) :
    (m >>= f) ts = f a rest := by
  simp only [Bind.bind, StateT.bind, Except.bind, h]

theorem bind_of_error {m : Parser α} {f : α → Parser β} {fault : ParseFault}
    (h : m ts = .error fault) : (m >>= f) ts = .error fault := by
  simp only [Bind.bind, StateT.bind, Except.bind, h]

theorem bind_peek (f : Token → Parser β) : (peek >>= f) (t :: ts) = f t (t :: ts) := rfl

theorem bind_next (f : Token → Parser β) : (next >>= f) (t :: ts) = f t ts := rfl

theorem bind_expect {kind : TokenKind} {f : Token → Parser β} (h : t.kind = kind) :
    (expect kind >>= f) (t :: ts) = f t ts := by
  refine bind_of_ok ?_
  rw [expect, bind_peek, if_pos h]
  rfl

theorem bind_ident {name : String} {f : Token → Parser β} (h : t.kind = .ident name) :
    (ident >>= f) (t :: ts) = f t ts := by
  refine bind_of_ok ?_
  rw [ident, bind_peek, h]
  rfl

theorem bind_literal {value : Value} {f : Value → Parser β} (h : t.kind = .literal value) :
    (literal >>= f) (t :: ts) = f value ts := by
  refine bind_of_ok ?_
  rw [literal, bind_peek, h]
  rfl

/-! ## Repetition -/

theorem sepBy1_one {item : Parser α} {separator : TokenKind} {budget : Nat} {a : α}
    (h : item ts = .ok (a, t :: rest)) (ht : t.kind ≠ separator) :
    sepBy1 item separator (budget + 1) ts = .ok ([a], t :: rest) := by
  rw [sepBy1_succ, bind_of_ok h, bind_peek, if_neg ht]
  rfl

theorem sepBy1_cons {item : Parser α} {separator : TokenKind} {budget : Nat} {a : α} {as : List α}
    (h : item ts = .ok (a, t :: us)) (ht : t.kind = separator)
    (hrest : sepBy1 item separator budget us = .ok (as, rest)) :
    sepBy1 item separator (budget + 1) ts = .ok (a :: as, rest) := by
  rw [sepBy1_succ, bind_of_ok h, bind_peek, if_pos ht, bind_next, bind_of_ok hrest]
  rfl

section Chain

variable {level : Op → Bool} {operand : Parser Expr} {budget : Nat} {lhs rhs : Expr}

theorem chain_operator {op : Op} (ht : t.kind = .op op) (hlevel : level op = true)
    (h : operand ts = .ok (rhs, rest)) :
    chain level operand (budget + 1) lhs (t :: ts) =
      chain level operand budget (.binary t none op lhs rhs) rest := by
  have hop : t.kind.op?.filter level = some op := by simp [ht, TokenKind.op?, hlevel]
  rw [chain, bind_peek, hop]
  simp only [bind_next]
  exact bind_of_ok h

theorem chain_stop (ht : t.kind.op?.filter level = none) :
    chain level operand (budget + 1) lhs (t :: ts) = .ok (lhs, t :: ts) := by
  rw [chain, bind_peek, ht]
  rfl

end Chain

/-! ## Expressions -/

section Expressions

/-- Some token follows that is no operator of the level. -/
def Past (level : Op → Bool) (rest : List Token) : Prop :=
  ∃ t us, rest = t :: us ∧ t.kind.op?.filter level = none

theorem past_of_op {level : Op → Bool} {op : Op} (ht : t.kind = .op op) (hlevel : level op = false) :
    Past level (t :: us) :=
  ⟨t, us, rfl, by simp [ht, TokenKind.op?, hlevel]⟩

/-- Some token follows that is no operator. -/
def PastAll (rest : List Token) : Prop := ∃ t us, rest = t :: us ∧ t.kind.op? = none

theorem PastAll.past (h : PastAll rest) (level : Op → Bool) : Past level rest := by
  obtain ⟨t, us, rfl, ht⟩ := h
  exact ⟨t, us, rfl, by simp [ht]⟩

theorem chain_past {level : Op → Bool} {operand : Parser Expr} {budget : Nat} {lhs : Expr}
    (hbudget : 0 < budget) (h : Past level rest) :
    chain level operand budget lhs rest = .ok (lhs, rest) := by
  obtain ⟨t, us, rfl, ht⟩ := h
  obtain ⟨budget, rfl⟩ := Nat.exists_eq_succ_of_ne_zero (Nat.ne_of_gt hbudget)
  exact chain_stop ht

/-- The parser reads all expressions of at most `n` tokens. -/
def CompletesExpr (sub : Parser Expr) (n : Nat) : Prop :=
  ∀ ts e rest, Grammar.Expression ts e → ts.length ≤ n → PastAll rest →
    sub (ts ++ rest) = .ok (e, rest)

variable {sub : Parser Expr} {n : Nat} {e : Expr}

theorem primary_complete (hsub : CompletesExpr sub n) (h : Grammar.Primary ts e)
    (hlen : ts.length ≤ n + 1) (rest : List Token) :
    primary sub (ts ++ rest) = .ok (e, rest) := by
  cases h with
  | @ident t _ ht =>
    rw [List.singleton_append, primary, bind_peek, ht]
    rfl
  | @literal t _ ht =>
    rw [List.singleton_append, primary, bind_peek, ht]
    rfl
  | @parens l r us e hl he hr =>
    have hus : us.length ≤ n := by
      simp only [List.length_append, List.length_cons] at hlen
      omega
    have hinner := hsub us e (r :: rest) he hus ⟨r, rest, rfl, by rw [hr]; rfl⟩
    rw [List.cons_append, List.cons_append, primary, bind_peek, hl]
    simp only [bind_next, List.append_assoc, List.singleton_append]
    rw [bind_of_ok hinner, bind_expect hr]
    rfl

/-- The parser gets through `ts` and goes on with the operators of the level, as long as there is
`budget` left. -/
def Reaches (level : Op → Bool) (operand m : Parser Expr) (n : Nat) (ts : List Token) (e : Expr)
    (Next : List Token → Prop) : Prop :=
  ∃ budget, 0 < budget ∧ n < budget + ts.length ∧
    ∀ rest, Next rest → m (ts ++ rest) = chain level operand budget e rest

/-- One more operator with its operand. -/
theorem Reaches.operation {level : Op → Bool} {operand m : Parser Expr} {op : Op} {lhs rhs : Expr}
    {Next Next' : List Token → Prop} (hlhs : Reaches level operand m n ts lhs Next)
    (ht : t.kind = .op op) (hlevel : level op = true) (hlen : (ts ++ t :: us).length ≤ n)
    (hnext : ∀ rest, Next (t :: rest))
    (hrhs : ∀ rest, Next' rest → operand (us ++ rest) = .ok (rhs, rest)) :
    Reaches level operand m n (ts ++ t :: us) (.binary t none op lhs rhs) Next' := by
  obtain ⟨budget, hpos, hbudget, hrun⟩ := hlhs
  obtain ⟨budget, rfl⟩ := Nat.exists_eq_succ_of_ne_zero (Nat.ne_of_gt hpos)
  rw [List.length_append, List.length_cons] at hlen
  refine ⟨budget, by omega, by rw [List.length_append, List.length_cons]; omega, ?_⟩
  intro rest hrest
  rw [List.append_assoc, List.cons_append, hrun _ (hnext _)]
  exact chain_operator ht hlevel (hrhs rest hrest)

theorem Reaches.run {level : Op → Bool} {operand m : Parser Expr} {Next : List Token → Prop}
    (h : Reaches level operand m n ts e Next) (hnext : Next rest) (hrest : Past level rest) :
    m (ts ++ rest) = .ok (e, rest) := by
  obtain ⟨budget, hpos, -, hrun⟩ := h
  rw [hrun rest hnext, chain_past hpos hrest]

theorem reaches_term (hsub : CompletesExpr sub n) {ts : List Token} {e : Expr} :
    Grammar.Term ts e → ts.length ≤ n + 1 →
    Reaches isMultiplicative (primary sub) (term (n + 1) sub) (n + 1) ts e fun _ => True
  | .primary h, hlen => by
    refine ⟨n + 1, Nat.succ_pos n, by have := h.length_pos; omega, fun rest _ => ?_⟩
    exact bind_of_ok (primary_complete hsub h hlen rest)
  | @Grammar.Term.operation t _ ts us _ _ hlhs ht hop hrhs, hlen => by
    have hsum : (ts ++ t :: us).length = ts.length + us.length + 1 := by
      rw [List.length_append, List.length_cons, Nat.add_assoc]
    refine (reaches_term hsub hlhs (by omega)).operation ht (isMultiplicative_iff.mpr hop) hlen
      (fun _ => trivial) fun rest _ => ?_
    exact primary_complete hsub hrhs (by omega) rest

theorem isMultiplicative_of_additive {op : Op} (hop : op ∈ [Op.arith .add, .arith .sub]) :
    isMultiplicative op = false := by
  simp only [List.mem_cons, List.not_mem_nil, or_false] at hop
  obtain rfl | rfl := hop <;> rfl

theorem reaches_additive (hsub : CompletesExpr sub n) {ts : List Token} {e : Expr} :
    Grammar.Additive ts e → ts.length ≤ n + 1 →
    Reaches isAdditive (term (n + 1) sub) (additive (n + 1) sub) (n + 1) ts e
      (Past isMultiplicative)
  | .term h, hlen => by
    refine ⟨n + 1, Nat.succ_pos n, by have := h.length_pos; omega, fun rest hrest => ?_⟩
    exact bind_of_ok ((reaches_term hsub h hlen).run trivial hrest)
  | @Grammar.Additive.operation t op ts us _ _ hlhs ht hop hrhs, hlen => by
    have hsum : (ts ++ t :: us).length = ts.length + us.length + 1 := by
      rw [List.length_append, List.length_cons, Nat.add_assoc]
    refine (reaches_additive hsub hlhs (by omega)).operation ht (isAdditive_iff.mpr hop) hlen
      (fun _ => past_of_op ht (isMultiplicative_of_additive hop)) fun rest hrest => ?_
    exact (reaches_term hsub hrhs (by omega)).run trivial hrest

theorem additive_complete (hsub : CompletesExpr sub n) (h : Grammar.Additive ts e)
    (hlen : ts.length ≤ n + 1) (rest : List Token) (hmul : Past isMultiplicative rest)
    (hadd : Past isAdditive rest) :
    additive (n + 1) sub (ts ++ rest) = .ok (e, rest) :=
  (reaches_additive hsub h hlen).run hmul hadd

theorem comparison_complete (hsub : CompletesExpr sub n) :
    CompletesExpr (comparison (n + 1) sub) (n + 1) := by
  intro ts e rest h hlen hrest
  have hrel := hrest.past Op.isRelational
  cases h with
  | additive h =>
    obtain ⟨t, us, rfl, ht⟩ := hrel
    have hlhs := additive_complete hsub h hlen _ (hrest.past _) (hrest.past _)
    rw [comparison, bind_of_ok hlhs, bind_peek, ht]
    rfl
  | @comparison t cond ts us lhs rhs hlhs ht hrhs =>
    have hsum : (ts ++ t :: us).length = ts.length + us.length + 1 := by
      rw [List.length_append, List.length_cons, Nat.add_assoc]
    have hop : t.kind.op?.filter Op.isRelational = some (.compare cond) := by
      simp [ht, TokenKind.op?, Op.isRelational]
    have hleft := additive_complete hsub hlhs (by omega) (t :: (us ++ rest))
      (past_of_op ht rfl) (past_of_op ht rfl)
    have hright := additive_complete hsub hrhs (by omega) rest (hrest.past _) (hrest.past _)
    rw [List.append_assoc, List.cons_append, comparison, bind_of_ok hleft, bind_peek, hop]
    simp only [bind_next]
    obtain ⟨u, vs, rfl, hu⟩ := hrest
    have hlast : u.kind.isRelational = false := by rw [TokenKind.isRelational, hu]; rfl
    rw [bind_of_ok hright, bind_peek, hlast]
    rfl

theorem expression_complete (n : Nat) : CompletesExpr (expression n) n := by
  induction n with
  | zero =>
    intro ts e rest h hlen
    exact absurd hlen (Nat.not_le_of_gt h.length_pos)
  | succ n ih => exact comparison_complete ih

end Expressions

/-! ## Statements -/

section Statements

/-- The tokens that may follow a statement. -/
def Closes (t : Token) : Prop :=
  t.kind = .mark .semicolon ∨ t.kind = .mark .dot ∨ t.kind = .keyword .end

theorem Closes.pastAll (h : Closes t) (us : List Token) : PastAll (t :: us) := by
  refine ⟨t, us, rfl, ?_⟩
  obtain h | h | h := h <;> rw [h] <;> rfl

/-- The parser reads all statements of fewer than `n` tokens. -/
def CompletesStmt (sub : Parser Stmt) (n : Nat) : Prop :=
  ∀ next ts s rest, Grammar.Statement next ts s → ts.length < n → Closes next →
    sub (ts ++ next :: rest) = .ok (s, next :: rest)

variable {sub : Parser Stmt} {n : Nat}

theorem statements_complete {next : Token} (hsub : CompletesStmt sub n) (hnext : Closes next)
    (hlast : next.kind ≠ .mark .semicolon) {ts : List Token} {ss : List Stmt} (budget : Nat)
    (rest : List Token) : Grammar.Statements next ts ss → ts.length < n → ts.length < budget →
    sepBy1 sub (.mark .semicolon) budget (ts ++ next :: rest) = .ok (ss, next :: rest)
  | .one h, hlen, hbudget => by
    obtain ⟨budget, rfl⟩ := Nat.exists_eq_succ_of_ne_zero (Nat.ne_zero_of_lt hbudget)
    exact sepBy1_one (hsub _ _ _ _ h hlen hnext) hlast
  | @Grammar.Statements.cons _ t ts us _ _ h ht hss, hlen, hbudget => by
    have hsum : (ts ++ t :: us).length = ts.length + us.length + 1 := by
      rw [List.length_append, List.length_cons, Nat.add_assoc]
    obtain ⟨budget, rfl⟩ := Nat.exists_eq_succ_of_ne_zero (Nat.ne_zero_of_lt hbudget)
    have htail := statements_complete hsub hnext hlast budget rest hss (by omega)
      (by omega)
    have hhead := hsub _ _ _ (us ++ next :: rest) h (by omega) (.inl ht)
    rw [List.append_assoc, List.cons_append]
    exact sepBy1_cons hhead ht htail

/-- `if` and `while` -/
theorem guarded_complete {keyword : Keyword} {build : Token → Expr → Stmt → Stmt} {t u next : Token}
    {guard : Expr} {body : Stmt} (hsub : CompletesStmt sub n) (hguard : Grammar.Expression ts guard)
    (hu : u.kind = .keyword keyword) (hbody : Grammar.Statement next us body)
    (hlen : ts.length + us.length < n) (hnext : Closes next) (rest : List Token) :
    (expression (n + 1) >>= fun guard => expect (.keyword keyword) >>= fun _ =>
      sub >>= fun body => pure (build t guard body)) (ts ++ u :: us ++ next :: rest) =
      .ok (build t guard body, next :: rest) := by
  have hhead := expression_complete (n + 1) ts guard (u :: (us ++ next :: rest)) hguard
    (by omega) ⟨u, us ++ next :: rest, rfl, by rw [hu]; rfl⟩
  have htail := hsub next us body rest hbody (by omega) hnext
  rw [List.append_assoc, List.cons_append, bind_of_ok hhead, bind_expect hu, bind_of_ok htail]
  rfl

theorem simpleStatement_complete (hsub : CompletesStmt sub n) :
    CompletesStmt (simpleStatement (n + 1) sub) (n + 1) := by
  intro next ts s rest h hlen hnext
  have hexpr := expression_complete (n + 1)
  cases h with
  | @assign _ t u _ us e ht hu he =>
    simp only [List.length_cons] at hlen
    rw [List.cons_append, List.cons_append, simpleStatement, bind_peek, ht]
    simp only [bind_next]
    rw [bind_expect hu, bind_of_ok (hexpr us e _ he (by omega) (hnext.pastAll rest))]
    rfl
  | call ht hu =>
    rw [List.cons_append, List.singleton_append, simpleStatement, bind_peek, ht]
    simp only [bind_next]
    rw [bind_ident hu]
    rfl
  | input ht hu =>
    rw [List.cons_append, List.singleton_append, simpleStatement, bind_peek, ht]
    simp only [bind_next]
    rw [bind_ident hu]
    rfl
  | @output _ t us e ht he =>
    rw [List.length_cons] at hlen
    rw [List.cons_append, simpleStatement, bind_peek, ht]
    simp only [bind_next]
    rw [bind_of_ok (hexpr us e _ he (by omega) (hnext.pastAll rest))]
    rfl
  | begin ht hss hstop =>
    simp only [List.cons_append, List.length_cons, List.length_append] at hlen
    have hinner := statements_complete hsub (.inr (.inr hstop))
      (by rw [hstop]; simp) (n + 1) (next :: rest) hss (by omega) (by omega)
    rw [List.cons_append, List.cons_append, simpleStatement, bind_peek, ht]
    simp only [bind_next, List.append_assoc, List.singleton_append]
    rw [bind_of_ok hinner, bind_expect hstop]
    rfl
  | «if» ht hguard hu hbody =>
    simp only [List.cons_append, List.length_cons, List.length_append] at hlen
    rw [List.cons_append, List.cons_append, simpleStatement, bind_peek, ht]
    exact guarded_complete hsub hguard hu hbody (by omega) hnext rest
  | «while» ht hguard hu hbody =>
    simp only [List.cons_append, List.length_cons, List.length_append] at hlen
    rw [List.cons_append, List.cons_append, simpleStatement, bind_peek, ht]
    exact guarded_complete hsub hguard hu hbody (by omega) hnext rest
  | empty =>
    rw [List.nil_append, simpleStatement, bind_peek]
    obtain ht | ht | ht := hnext <;> rw [ht] <;> rfl

theorem statement_complete (n : Nat) : CompletesStmt (statement n) n := by
  induction n with
  | zero =>
    intro next ts s rest _ hlen
    exact absurd hlen (Nat.not_lt_zero _)
  | succ n ih => exact simpleStatement_complete ih

end Statements

/-! ## Declarations -/

section Declarations

/-- The parser gives `a` if `good`, and else refuses a name that is declared twice. -/
structure Checks (m : Parser α) (ts : List Token) (good : Prop) (a : α) (rest : List Token) :
    Prop where
  ok : good → m ts = .ok (a, rest)
  refused : ¬good → ∃ t, m ts = .error (.duplicate t)

theorem Checks.of_ok {m : Parser α} {good : Prop} {a : α} (h : m ts = .ok (a, rest)) (hgood : good) :
    Checks m ts good a rest :=
  ⟨fun _ => h, fun hbad => absurd hgood hbad⟩

theorem Checks.bind {m : Parser α} {f : α → Parser β} {good good' : Prop} {a : α} {b : β}
    (hm : Checks m ts good a us) (hf : Checks (f a) us good' b rest) :
    Checks (m >>= f) ts (good ∧ good') b rest := by
  constructor
  · rintro ⟨hgood, hgood'⟩
    rw [bind_of_ok (hm.ok hgood), hf.ok hgood']
  · intro hbad
    by_cases hgood : good
    · rw [bind_of_ok (hm.ok hgood)]
      exact hf.refused fun hgood' => hbad ⟨hgood, hgood'⟩
    · obtain ⟨t, ht⟩ := hm.refused hgood
      exact ⟨t, bind_of_error ht⟩

theorem Checks.of_iff {m : Parser α} {good good' : Prop} {a : α} (h : Checks m ts good a rest)
    (hiff : good ↔ good') : Checks m ts good' a rest :=
  ⟨fun hgood => h.ok (hiff.mpr hgood), fun hbad => h.refused fun hgood => hbad (hiff.mp hgood)⟩

theorem Checks.of_eq {m m' : Parser α} {good : Prop} {a : α} (h : Checks m us good a rest)
    (heq : m' ts = m us) : Checks m' ts good a rest :=
  ⟨fun hgood => heq.trans (h.ok hgood), fun hbad => heq ▸ h.refused hbad⟩

/-- What comes after does not fail. -/
theorem Checks.bind_ok {m : Parser α} {f : α → Parser β} {good : Prop} {a : α} {b : β}
    (hm : Checks m ts good a us) (hf : f a us = .ok (b, rest)) :
    Checks (m >>= f) ts good b rest :=
  (hm.bind (.of_ok hf trivial)).of_iff (and_iff_left trivial)

/-- The names declared are new, and all different. -/
def New (seen : List String) (ds : List Decl) : Prop :=
  (ds.map Decl.name).Nodup ∧ ∀ d ∈ ds, d.name ∉ seen

theorem new_nil {seen : List String} : New seen [] := ⟨List.nodup_nil, by simp⟩

theorem new_append {seen : List String} {ds es : List Decl} :
    New seen (ds ++ es) ↔ New seen ds ∧ New ((ds.map Decl.name).reverse ++ seen) es := by
  simp only [New, List.map_append, List.nodup_append, List.mem_append, List.mem_reverse,
    List.mem_map]
  grind

/-- What a group and the groups after it are checked for is what all of them are. -/
theorem new_distinct_append {seen : List String} {ds es : List Decl} :
    Decl.DistinctList ds ∧ New seen ds ∧ New ((ds.map Decl.name).reverse ++ seen) es ∧
      Decl.DistinctList es ↔ New seen (ds ++ es) ∧ Decl.DistinctList (ds ++ es) := by
  rw [new_append]
  simp only [Decl.distinctList_iff, List.forall_mem_append]
  grind

theorem checks_distinct (seen : List String) (ds : List Decl) (rest : List Token) :
    Checks (liftM (distinct seen ds) : Parser (List String)) rest (New seen ds)
      ((ds.map Decl.name).reverse ++ seen) rest := by
  induction ds generalizing seen with
  | nil => exact .of_ok rfl new_nil
  | cons d ds ih =>
    by_cases hseen : d.name ∈ seen
    · constructor
      · intro hnew
        exact absurd hseen (hnew.2 d List.mem_cons_self)
      · intro _
        refine ⟨d.head.token, ?_⟩
        rw [distinct, if_pos hseen]
        rfl
    · have hcons : New seen [d] := ⟨by simp, by simpa using hseen⟩
      have hiff : New (d.name :: seen) ds ↔ New seen ([d] ++ ds) := by
        rw [new_append, and_iff_right hcons]
        rfl
      rw [distinct, if_neg hseen]
      simpa using (ih (d.name :: seen)).of_iff hiff

theorem constantDecl_complete {d : Decl} (h : Grammar.Constant ts d) (rest : List Token) :
    constantDecl (ts ++ rest) = .ok (d, rest) := by
  cases h with
  | mk ht hu hv =>
    rw [constantDecl, List.cons_append, bind_ident ht, List.cons_append, bind_expect hu,
      List.singleton_append, bind_literal hv]
    rfl

theorem variableDecl_complete {d : Decl} (h : Grammar.Variable ts d) (rest : List Token) :
    variableDecl (ts ++ rest) = .ok (d, rest) := by
  cases h with
  | mk ht =>
    rw [variableDecl, List.singleton_append, bind_ident ht]
    rfl

theorem listed_complete {item : Parser Decl} {Item : List Token → Decl → Prop} {stop : Token}
    (hitem : ∀ ts d rest, Item ts d → item (ts ++ rest) = .ok (d, rest))
    (hstop : stop.kind = .mark .semicolon) {ds : List Decl} (budget : Nat) (rest : List Token)
    (h : Grammar.Listed Item ts ds) (hbudget : ts.length < budget) :
    sepBy1 item (.mark .comma) budget (ts ++ stop :: rest) = .ok (ds, stop :: rest) := by
  induction h generalizing budget with
  | one h =>
    obtain ⟨budget, rfl⟩ := Nat.exists_eq_succ_of_ne_zero (Nat.ne_zero_of_lt hbudget)
    exact sepBy1_one (hitem _ _ _ h) (by rw [hstop]; simp)
  | @cons comma ts us d ds h hcomma _ ih =>
    rw [List.length_append, List.length_cons] at hbudget
    obtain ⟨budget, rfl⟩ := Nat.exists_eq_succ_of_ne_zero (Nat.ne_zero_of_lt hbudget)
    rw [List.append_assoc, List.cons_append]
    exact sepBy1_cons (hitem _ _ _ h) hcomma (ih budget (by omega))

/-- The parser reads all blocks of fewer than `n` tokens. -/
def CompletesBlock (sub : Parser Block) (n : Nat) : Prop :=
  ∀ next ts b rest, Grammar.Block next ts b → ts.length < n → Closes next →
    Checks sub (ts ++ next :: rest) (New [] b.decls ∧ Decl.DistinctList b.decls) b (next :: rest)

theorem distinctList_of_listed {Item : List Token → Decl → Prop} {ds : List Decl}
    (hitem : ∀ ts d, Item ts d → d.Distinct) (h : Grammar.Listed Item ts ds) :
    Decl.DistinctList ds := by
  induction h with
  | one h => exact ⟨hitem _ _ h, trivial⟩
  | cons h _ _ ih => exact ⟨hitem _ _ h, ih⟩

/-- Constants and variables: nothing in their declarations is refused. -/
theorem checks_listed {item : Parser Decl} {Item : List Token → Decl → Prop} {stop : Token}
    (hitem : ∀ ts d rest, Item ts d → item (ts ++ rest) = .ok (d, rest))
    (hdistinct : ∀ ts d, Item ts d → d.Distinct) {ds : List Decl} {budget : Nat}
    (h : Grammar.Listed Item ts ds) (hstop : stop.kind = .mark .semicolon)
    (hbudget : ts.length < budget) (rest : List Token) :
    Checks (sepBy1 item (.mark .comma) budget >>= fun ds =>
        expect (.mark .semicolon) >>= fun _ => pure ds) (ts ++ stop :: rest)
      (Decl.DistinctList ds) ds rest := by
  refine .of_ok ?_ (distinctList_of_listed hdistinct h)
  rw [bind_of_ok (listed_complete hitem hstop budget rest h hbudget), bind_expect hstop]
  rfl

variable {sub : Parser Block} {n : Nat}

theorem checks_procedureDecl (hsub : CompletesBlock sub n) {u v stop : Token} {name : String}
    {b : Block} (hu : u.kind = .ident name) (hv : v.kind = .mark .semicolon)
    (hb : Grammar.Block stop ts b) (hstop : stop.kind = .mark .semicolon) (hlen : ts.length < n)
    (rest : List Token) :
    Checks (procedureDecl sub) (u :: v :: (ts ++ stop :: rest))
      (Decl.procedure (.ofToken u) b.decls b.stmt).Distinct
      (.procedure (.ofToken u) b.decls b.stmt) (stop :: rest) := by
  have hblock := (hsub stop ts b rest hb hlen (.inl hstop)).bind_ok
    (f := fun b => (pure (Decl.procedure (.ofToken u) b.decls b.stmt) : Parser Decl)) rfl
  refine (hblock.of_iff ?_).of_eq ?_
  · simp [New, Decl.Distinct]
  · rw [procedureDecl, bind_ident hu, bind_expect hv]

theorem checks_group (hsub : CompletesBlock sub n) {ds : List Decl} (budget : Nat)
    (h : Grammar.Group ts ds) (hlen : ts.length ≤ n) (hbudget : ts.length ≤ budget)
    (rest : List Token) :
    Checks (group budget sub) (ts ++ rest) (Decl.DistinctList ds) ds rest := by
  cases h with
  | @consts t stop us ds ht h hstop =>
    simp only [List.cons_append, List.length_cons, List.length_append] at hbudget
    have hds := checks_listed (fun _ _ rest h => constantDecl_complete h rest)
      (by rintro _ _ ⟨⟩; trivial) h hstop (show us.length < budget by omega) rest
    refine hds.of_eq ?_
    rw [List.cons_append, List.cons_append, group, bind_peek, ht]
    simp only [bind_next, List.append_assoc, List.singleton_append]
  | @vars t stop us ds ht h hstop =>
    simp only [List.cons_append, List.length_cons, List.length_append] at hbudget
    have hds := checks_listed (fun _ _ rest h => variableDecl_complete h rest)
      (by rintro _ _ ⟨⟩; trivial) h hstop (show us.length < budget by omega) rest
    refine hds.of_eq ?_
    rw [List.cons_append, List.cons_append, group, bind_peek, ht]
    simp only [bind_next, List.append_assoc, List.singleton_append]
  | @procedure t u v stop _ us b ht hu hv hb hstop =>
    simp only [List.cons_append, List.length_cons, List.length_append] at hlen
    have hd := checks_procedureDecl hsub hu hv hb hstop (by omega) rest
    have hds := hd.bind_ok (f := fun d => expect (.mark .semicolon) >>= fun _ => pure [d])
      (bind_expect hstop)
    refine (hds.of_iff (and_iff_left trivial).symm).of_eq ?_
    rw [List.cons_append, List.cons_append, group, bind_peek, ht]
    simp only [bind_next, List.cons_append, List.append_assoc, List.nil_append]

/-- No group of declarations stands next. -/
def PastGroups (rest : List Token) : Prop :=
  ∃ t us, rest = t :: us ∧ t.kind ≠ .keyword .const ∧ t.kind ≠ .keyword .var ∧
    t.kind ≠ .keyword .procedure

theorem group_past {budget : Nat} (h : PastGroups rest) :
    group budget sub rest = .ok ([], rest) := by
  obtain ⟨t, us, rfl, hconst, hvar, hprocedure⟩ := h
  rw [group, bind_peek]
  refine congrFun (?_ : _ = (pure [] : Parser (List Decl))) (t :: us)
  split
  · contradiction
  · contradiction
  · contradiction
  · rfl

theorem pastGroups_statement {next : Token} {s : Stmt} (hnext : Closes next) (rest : List Token)
    (h : Grammar.Statement next ts s) : PastGroups (ts ++ next :: rest) := by
  cases h with
  | empty =>
    refine ⟨next, rest, rfl, ?_⟩
    obtain h | h | h := hnext <;> simp [h]
  | _ =>
    refine ⟨_, _, rfl, ?_⟩
    simp [*]

theorem checks_declarations (hsub : CompletesBlock sub n) {ts : List Token} {ds : List Decl}
    (rest : List Token) (hrest : PastGroups rest) (budget : Nat) (seen : List String)
    (h : Grammar.Declarations ts ds) (hlen : ts.length ≤ n) (hbudget : ts.length < budget) :
    Checks (declarations sub budget seen) (ts ++ rest) (New seen ds ∧ Decl.DistinctList ds) ds
      rest := by
  induction budget generalizing seen ts ds with
  | zero => exact absurd hbudget (Nat.not_lt_zero _)
  | succ budget ih =>
    cases h with
    | nil =>
      refine .of_ok ?_ ⟨new_nil, trivial⟩
      rw [List.nil_append, declarations, bind_of_ok (group_past hrest)]
      rfl
    | @cons ts us ds es hgroup hds =>
      obtain ⟨d, ds, rfl⟩ := List.exists_cons_of_ne_nil hgroup.ne_nil
      have hpos := hgroup.length_pos
      rw [List.length_append] at hlen hbudget
      have hhead := checks_group hsub budget hgroup (by omega) (by omega) (us ++ rest)
      have htail := ih (((d :: ds).map Decl.name).reverse ++ seen) hds (by omega) (by omega)
      rw [List.append_assoc]
      exact (hhead.bind ((checks_distinct seen (d :: ds) _).bind (htail.bind_ok rfl))).of_iff
        new_distinct_append

theorem block_complete (n : Nat) : CompletesBlock (block n) n := by
  induction n with
  | zero =>
    intro next ts b rest _ hlen
    exact absurd hlen (Nat.not_lt_zero _)
  | succ n ih =>
    intro next ts b rest h hlen hnext
    cases h with
    | mk hds hs =>
      rw [List.length_append] at hlen
      have hrest := pastGroups_statement hnext rest hs
      have hhead := checks_declarations ih _ hrest (n + 1) [] hds (by omega) (by omega)
      have hstmt := statement_complete (n + 1) next _ _ rest hs (by omega) hnext
      rw [List.append_assoc]
      refine hhead.bind_ok ?_
      rw [bind_of_ok hstmt]
      rfl

end Declarations

end Parser

/-! ## Programs -/

mutual

theorem Decl.distinct_number_iff (next : Nat) : (d : Decl) →
    ((d.number next).1.Distinct ↔ d.Distinct)
  | .const .. | .var _ => Iff.rfl
  | .procedure head decls stmt => by
    simp only [Decl.number, Decl.Distinct, Decl.names_number,
      Decl.distinctList_number_iff (next + 1) decls]

theorem Decl.distinctList_number_iff (next : Nat) : (ds : List Decl) →
    (Decl.DistinctList (Decl.numberList next ds).1 ↔ Decl.DistinctList ds)
  | [] => Iff.rfl
  | d :: ds => by
    simp only [Decl.numberList, Decl.DistinctList, Decl.distinct_number_iff next d,
      Decl.distinctList_number_iff _ ds]

end

theorem Program.distinct_ofBlock_iff (first : Token) (b : Block) :
    (Program.ofBlock first b).Distinct ↔
      Parser.New [] b.decls ∧ Decl.DistinctList b.decls := by
  have hiff : (Program.ofBlock first b).Distinct ↔
      ((Decl.numberList 0 b.decls).1.map Decl.name).Nodup ∧
        Decl.DistinctList (Decl.numberList 0 b.decls).1 :=
    ⟨fun h => ⟨h.nodup, h.decls⟩, fun h => ⟨h.1, h.2⟩⟩
  rw [hiff, Decl.names_number, Decl.distinctList_number_iff]
  simp [Parser.New]

theorem Grammar.Program.exists_statements {tokens : List Token} {p : PLZero.Program}
    (h : Grammar.Program tokens p) :
    ∃ first dot eof ts us ds ss, tokens = ts ++ us ++ [dot, eof] ∧ Declarations ts ds ∧
      Statements dot us ss ∧ dot.kind = .mark .dot ∧ eof.kind = .eof ∧
      tokens.head? = some first ∧ p = .ofBlock first ⟨ds, Parser.ofSequence first ss⟩ := by
  cases h with
  | single hds hs hdot heof hfirst =>
    exact ⟨_, _, _, _, _, _, _, rfl, hds, .one hs, hdot, heof, hfirst, rfl⟩
  | sequence hds hss hdot heof hfirst =>
    exact ⟨_, _, _, _, _, _, _, rfl, hds, hss, hdot, heof, hfirst, rfl⟩

theorem Grammar.Statements.pastGroups {next : Token} {ts : List Token} {ss : List Stmt}
    (hnext : Parser.Closes next) (rest : List Token) (h : Statements next ts ss) :
    Parser.PastGroups (ts ++ next :: rest) := by
  cases h with
  | one h => exact Parser.pastGroups_statement hnext rest h
  | cons h ht hss =>
    rw [List.append_assoc, List.cons_append]
    exact Parser.pastGroups_statement (.inl ht) _ h

/-- The first token is kept as that of the program. -/
theorem Parser.program_eq {tokens : List Token} {first : Token} (h : tokens.head? = some first)
    (budget : Nat) :
    program budget tokens = (do
      let decls ← declarations (block budget) budget []
      let stmts ← sepBy1 (statement budget) (.mark .semicolon) budget
      let _ ← expect (.mark .dot)
      let _ ← expect .eof
      return .ofBlock first ⟨decls, ofSequence first stmts⟩ : Parser Program) tokens := by
  obtain ⟨us, rfl⟩ := List.head?_eq_some_iff.mp h
  exact bind_peek _

theorem Parser.checks_program {tokens : List Token} {p : Program} (h : Grammar.Program tokens p)
    {budget : Nat} (hbudget : tokens.length < budget) :
    Checks (program budget) tokens p.Distinct p [] := by
  obtain ⟨first, dot, eof, ts, us, ds, ss, rfl, hds, hss, hdot, heof, hfirst, rfl⟩ :=
    h.exists_statements
  rw [List.length_append, List.length_append] at hbudget
  have hclose : Closes dot := .inr (.inl hdot)
  have hhead := checks_declarations (block_complete budget) _ (hss.pastGroups hclose [eof]) budget []
    hds (by omega) (by omega)
  have htail := statements_complete (statement_complete budget) hclose (by rw [hdot]; simp) budget
    [eof] hss (by omega) (by omega)
  refine Checks.of_eq
    (Checks.of_iff (hhead.bind_ok ?_) (Program.distinct_ofBlock_iff first ⟨ds, _⟩).symm)
    ((program_eq hfirst budget).trans (by rw [List.append_assoc]))
  rw [bind_of_ok htail, bind_expect hdot, bind_expect heof]
  rfl

namespace Program

/-- A sentence is accepted with its tree, unless one of its blocks declares a name twice. -/
theorem checks_ofTokens {tokens : List Token} {p : Program} (h : Grammar.Program tokens p) :
    (p.Distinct → ofTokens tokens = .ok p) ∧
      (¬p.Distinct → ∃ t, ofTokens tokens = .error (.duplicate t)) := by
  have hchecks := Parser.checks_program h (Nat.lt_succ_self tokens.length)
  constructor
  · intro hdistinct
    rw [ofTokens_eq, StateT.run', hchecks.ok hdistinct]
    rfl
  · intro hbad
    obtain ⟨t, ht⟩ := hchecks.refused hbad
    refine ⟨t, ?_⟩
    rw [ofTokens_eq, StateT.run', ht]
    rfl

theorem ofTokens_eq_ok_iff {T : Token → Prop} {tokens : List Token} (hstream : Stream T tokens)
    {p : Program} : ofTokens tokens = .ok p ↔ Grammar.Program tokens p ∧ p.Distinct := by
  constructor
  · intro h
    have hp := Grammar.program_of_ofTokens hstream h
    refine ⟨hp, ?_⟩
    by_cases hdistinct : p.Distinct
    · exact hdistinct
    · obtain ⟨t, ht⟩ := (checks_ofTokens hp).2 hdistinct
      cases h.symm.trans ht
  · rintro ⟨hp, hdistinct⟩
    exact (checks_ofTokens hp).1 hdistinct

/-- A token list that is closed by its only end-of-input token is accepted if, and only if, it is a
sentence of the grammar in which no block declares a name twice.  The tree is then that of the
derivation, whatever derivation of the tokens is taken. -/
theorem ofTokens_iff_sentence {tokens : List Token} (hstream : Stream (fun _ => True) tokens) :
    ((∃ p, ofTokens tokens = .ok p) ↔ ∃ p, Grammar.Program tokens p ∧ p.Distinct) ∧
      ∀ p, ofTokens tokens = .ok p →
        Grammar.Program tokens p ∧ ∀ q, Grammar.Program tokens q → q = p := by
  refine ⟨exists_congr fun p => ofTokens_eq_ok_iff hstream, fun p hp => ?_⟩
  refine ⟨((ofTokens_eq_ok_iff hstream).mp hp).1, fun q hq => ?_⟩
  by_cases hdistinct : q.Distinct
  · have hrun := (checks_ofTokens hq).1 hdistinct
    rw [hp] at hrun
    cases hrun
    rfl
  · obtain ⟨t, ht⟩ := (checks_ofTokens hq).2 hdistinct
    cases hp.symm.trans ht

/-- Operators of all levels, with parentheses, and a sequence of two statements. -/
theorem ofTokens_iff_sentence_operators :
    ∃ tokens p, scan "! 7 - 2 - 3 * (4 < 5) = 6; ! 8." = .ok tokens ∧
      Stream (fun _ => True) tokens ∧ ofTokens tokens = .ok p ∧
      p.text = "begin\n    ! ((7 - 2) - (3 * (4 < 5))) = 6;\n    ! 8\nend.\n" ∧
      Grammar.Program tokens p ∧ ∀ q, Grammar.Program tokens q → q = p := by
  have hcheck : ∃ tokens, scan "! 7 - 2 - 3 * (4 < 5) = 6; ! 8." = .ok tokens ∧
      ∃ p, ofTokens tokens = .ok p ∧
        p.text = "begin\n    ! ((7 - 2) - (3 * (4 < 5))) = 6;\n    ! 8\nend.\n" := by
    decide +kernel
  obtain ⟨tokens, htokens, p, hp, htext⟩ := hcheck
  have hstream := ((scan_spec _).of_ok htokens).mono fun _ _ => trivial
  obtain ⟨hgrammar, hunique⟩ := (ofTokens_iff_sentence hstream).2 p hp
  exact ⟨tokens, p, htokens, hstream, hp, htext, hgrammar, hunique⟩

end Program

end PLZero
