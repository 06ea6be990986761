import PLZero.Proofs.Token.Scan
import PLZero.Proofs.Tree.Grammar
import PLZero.Proofs.Tree.Counting

/-!
# What the parser accepts is a sentence

* `Parser.exists_of_bind` and its like — what a parser that succeeded has read.
* `Parser.Accepts` — what a parser has read, where the rest of the tokens stands, is derived in the
  grammar with the tree it gives.  One lemma for each rule.
* `Grammar.exists_program_of_ofTokens`, `Grammar.program_of_ofTokens` — the result for programs.
-/

namespace PLZero

namespace Parser

variable {α β : Type} {ts rest : List Token}

/-! ## Running a parser backwards -/

theorem exists_of_bind {m : Parser α} {f : α → Parser β} {r : β × List Token}
    (h : (m >>= f) ts = .ok r) : ∃ a rest, m ts = .ok (a, rest) ∧ f a rest = .ok r := by
  simp only [Bind.bind, StateT.bind, Except.bind] at h
  split at h
  · cases h
  · rename_i r' hr'
    exact ⟨r'.1, r'.2, hr', h⟩

theorem eq_of_pure {a b : α} (h : (pure a : Parser α) ts = .ok (b, rest)) : b = a ∧ rest = ts := by
  cases h
  exact ⟨rfl, rfl⟩

/-- The parser that runs after a look at the next token is named, so that it can be told apart by the
kind of the token. -/
theorem exists_of_peek {f : Token → Parser β} {r : β × List Token} (h : (peek >>= f) ts = .ok r) :
    ∃ t us m, ts = t :: us ∧ m = f t ∧ m (t :: us) = .ok r := by
  cases ts with
  | nil => cases h
  | cons t us => exact ⟨t, us, f t, rfl, rfl, h⟩

theorem of_next {f : Token → Parser β} {t : Token} {r : β × List Token}
    (h : (next >>= f) (t :: ts) = .ok r) : f t ts = .ok r := h

theorem exists_of_lift {x : Except ParseFault α} {f : α → Parser β} {r : β × List Token}
    (h : ((liftM x : Parser α) >>= f) ts = .ok r) : ∃ a, x = .ok a ∧ f a ts = .ok r := by
  cases x with
  | error fault => cases h
  | ok a => exact ⟨a, rfl, h⟩

theorem not_unexpected {expected : Expected} {r : α × List Token} :
    (unexpected expected : Parser α) ts ≠ .ok r := by
  intro h
  cases ts <;> cases h

theorem exists_of_expect {kind : TokenKind} {f : Token → Parser β} {r : β × List Token}
    (h : (expect kind >>= f) ts = .ok r) :
    ∃ t us, ts = t :: us ∧ t.kind = kind ∧ f t us = .ok r := by
  obtain ⟨t, us, hexpect, htail⟩ := exists_of_bind h
  obtain ⟨t', us', m, rfl, hm, hat⟩ := exists_of_peek hexpect
  split at hm <;> subst hm
  · rename_i hkind
    cases hat
    exact ⟨t, us, rfl, hkind, htail⟩
  · exact absurd hat not_unexpected

theorem exists_of_ident {f : Token → Parser β} {r : β × List Token}
    (h : (ident >>= f) ts = .ok r) :
    ∃ t us name, ts = t :: us ∧ t.kind = .ident name ∧ f t us = .ok r := by
  obtain ⟨t, us, hident, htail⟩ := exists_of_bind h
  obtain ⟨t', us', m, rfl, hm, hat⟩ := exists_of_peek hident
  split at hm <;> subst hm
  · rename_i name hkind
    cases hat
    exact ⟨t, us, name, rfl, hkind, htail⟩
  · exact absurd hat not_unexpected

theorem exists_of_literal {f : Value → Parser β} {r : β × List Token}
    (h : (literal >>= f) ts = .ok r) :
    ∃ t us value, ts = t :: us ∧ t.kind = .literal value ∧ f value us = .ok r := by
  obtain ⟨value, us, hliteral, htail⟩ := exists_of_bind h
  obtain ⟨t, us', m, rfl, hm, hat⟩ := exists_of_peek hliteral
  split at hm <;> subst hm
  · rename_i value' hkind
    cases hat
    exact ⟨t, us, value, rfl, hkind, htail⟩
  · exact absurd hat not_unexpected

/-- What the parser has read, before `rest`, and the tree it gives are related by `P`. -/
def Accepts (m : Parser α) (P : (used rest : List Token) → α → Prop) : Prop :=
  ∀ ts a rest, m ts = .ok (a, rest) → ∃ used, ts = used ++ rest ∧ P used rest a

theorem Accepts.of_bind {m : Parser α} {f : α → Parser β} {r : β × List Token}
    {P : List Token → List Token → α → Prop} (hm : Accepts m P) (h : (m >>= f) ts = .ok r) :
    ∃ used a rest, ts = used ++ rest ∧ P used rest a ∧ f a rest = .ok r := by
  obtain ⟨a, rest, ha, htail⟩ := exists_of_bind h
  obtain ⟨used, heq, hused⟩ := hm _ _ _ ha
  exact ⟨used, a, rest, heq, hused, htail⟩

/-! ## Repetition -/

theorem accepts_sepBy1 {item : Parser α} {separator : TokenKind}
    {P : List Token → List Token → α → Prop} {S : List Token → List Token → List α → Prop}
    (hitem : Accepts item P) (hone : ∀ ts rest a, P ts rest a → S ts rest [a])
    (hcons : ∀ t ts us rest a as, P ts (t :: us ++ rest) a → t.kind = separator → S us rest as →
      S (ts ++ t :: us) rest (a :: as)) (budget : Nat) :
    Accepts (sepBy1 item separator budget) S := by
  induction budget with
  | zero =>
    intro ts as rest h
    cases h
  | succ budget ih =>
    intro ts as rest h
    obtain ⟨used, a, mid, rfl, hused, htail⟩ := hitem.of_bind h
    obtain ⟨t, us, m, rfl, hm, hat⟩ := exists_of_peek htail
    split at hm <;> subst hm
    · rename_i hkind
      obtain ⟨used', as', rest', rfl, hused', hend⟩ := ih.of_bind (of_next hat)
      obtain ⟨rfl, rfl⟩ := eq_of_pure hend
      exact ⟨used ++ t :: used', by simp, hcons _ _ _ _ _ _ hused hkind hused'⟩
    · obtain ⟨rfl, rfl⟩ := eq_of_pure hat
      exact ⟨used, rfl, hone _ _ _ hused⟩

theorem op_of_filter {kind : TokenKind} {level : Op → Bool} {op : Op}
    (h : kind.op?.filter level = some op) : kind = .op op ∧ level op = true := by
  obtain ⟨hop, hlevel⟩ := Option.filter_eq_some_iff.mp h
  refine ⟨?_, hlevel⟩
  cases kind with
  | op o =>
    cases hop
    rfl
  | _ => cases hop

/-- `R` holds of what was read before, and each operator with its operand extends it. -/
theorem accepts_chain {level : Op → Bool} {operand : Parser Expr}
    {P R : List Token → Expr → Prop} (hoperand : Accepts operand fun used _ e => P used e)
    (hstep : ∀ t op ts us lhs rhs, R ts lhs → t.kind = .op op → level op = true → P us rhs →
      R (ts ++ t :: us) (.binary t none op lhs rhs))
    (budget : Nat) {before : List Token} {lhs : Expr} (hlhs : R before lhs) :
    Accepts (chain level operand budget lhs) fun used _ e => R (before ++ used) e := by
  induction budget generalizing before lhs with
  | zero =>
    intro ts e rest h
    cases h
  | succ budget ih =>
    intro ts e rest h
    obtain ⟨t, us, m, rfl, hm, hat⟩ := exists_of_peek h
    split at hm <;> subst hm
    · rename_i op hop
      obtain ⟨hkind, hlevel⟩ := op_of_filter hop
      obtain ⟨used, rhs, mid, rfl, hused, htail⟩ := hoperand.of_bind (of_next hat)
      obtain ⟨used', rfl, hused'⟩ :=
        ih (hstep _ _ _ _ _ _ hlhs hkind hlevel hused) _ _ _ htail
      exact ⟨t :: used ++ used', by simp, by simpa using hused'⟩
    · obtain ⟨rfl, rfl⟩ := eq_of_pure hat
      exact ⟨[], rfl, by simpa using hlhs⟩

/-! ## Expressions -/

section Expressions

theorem isMultiplicative_iff {op : Op} :
    isMultiplicative op = true ↔ op ∈ [Op.arith .mul, .arith .div, .arith .rem] := by
  simp [isMultiplicative, or_assoc]

theorem isAdditive_iff {op : Op} : isAdditive op = true ↔ op ∈ [Op.arith .add, .arith .sub] := by
  simp [isAdditive]

variable {sub : Parser Expr}

theorem accepts_primary (h : Accepts sub fun used _ e => Grammar.Expression used e) :
    Accepts (primary sub) fun used _ e => Grammar.Primary used e := by
  intro ts e rest hrun
  obtain ⟨t, us, m, rfl, hm, hat⟩ := exists_of_peek hrun
  split at hm <;> subst hm
  · rename_i name hkind
    cases hat
    exact ⟨[t], rfl, .ident hkind⟩
  · rename_i value hkind
    cases hat
    exact ⟨[t], rfl, .literal hkind⟩
  · rename_i hkind
    obtain ⟨used, e', mid, rfl, hused, htail⟩ := h.of_bind (of_next hat)
    obtain ⟨r, mid, rfl, hr, hend⟩ := exists_of_expect htail
    obtain ⟨rfl, rfl⟩ := eq_of_pure hend
    exact ⟨t :: used ++ [r], by simp, .parens hkind hused hr⟩
  · exact absurd hat not_unexpected

theorem accepts_term (budget : Nat) (h : Accepts sub fun used _ e => Grammar.Expression used e) :
    Accepts (term budget sub) fun used _ e => Grammar.Term used e := by
  intro ts e rest hrun
  obtain ⟨used, e', mid, rfl, hused, htail⟩ := (accepts_primary h).of_bind hrun
  have hchain := accepts_chain (R := Grammar.Term) (accepts_primary h)
    (fun _ _ _ _ _ _ hlhs hkind hlevel hrhs =>
      .operation hlhs hkind (isMultiplicative_iff.mp hlevel) hrhs) budget (.primary hused)
  obtain ⟨used', rfl, hused'⟩ := hchain _ _ _ htail
  exact ⟨used ++ used', by simp, hused'⟩

theorem accepts_additive (budget : Nat)
    (h : Accepts sub fun used _ e => Grammar.Expression used e) :
    Accepts (additive budget sub) fun used _ e => Grammar.Additive used e := by
  intro ts e rest hrun
  obtain ⟨used, e', mid, rfl, hused, htail⟩ := (accepts_term budget h).of_bind hrun
  have hchain := accepts_chain (R := Grammar.Additive) (accepts_term budget h)
    (fun _ _ _ _ _ _ hlhs hkind hlevel hrhs =>
      .operation hlhs hkind (isAdditive_iff.mp hlevel) hrhs) budget (.term hused)
  obtain ⟨used', rfl, hused'⟩ := hchain _ _ _ htail
  exact ⟨used ++ used', by simp, hused'⟩

theorem accepts_comparison (budget : Nat)
    (h : Accepts sub fun used _ e => Grammar.Expression used e) :
    Accepts (comparison budget sub) fun used _ e => Grammar.Expression used e := by
  intro ts e rest hrun
  obtain ⟨used, lhs, mid, rfl, hused, htail⟩ := (accepts_additive budget h).of_bind hrun
  obtain ⟨t, us, m, rfl, hm, hat⟩ := exists_of_peek htail
  split at hm <;> subst hm
  · obtain ⟨rfl, rfl⟩ := eq_of_pure hat
    exact ⟨used, rfl, .additive hused⟩
  · rename_i op hop
    obtain ⟨hkind, hrelational⟩ := op_of_filter hop
    obtain ⟨used', rhs, mid, rfl, hused', hend⟩ := (accepts_additive budget h).of_bind (of_next hat)
    obtain ⟨t', us', m, rfl, hm, hlast⟩ := exists_of_peek hend
    split at hm <;> subst hm
    · exact absurd hlast not_unexpected
    · obtain ⟨rfl, rfl⟩ := eq_of_pure hlast
      cases op with
      | arith => cases hrelational
      | compare cond => exact ⟨used ++ t :: used', by simp, .comparison hused hkind hused'⟩

theorem accepts_expression (budget : Nat) :
    Accepts (expression budget) fun used _ e => Grammar.Expression used e := by
  induction budget with
  | zero =>
    intro ts e rest h
    cases h
  | succ budget ih => exact accepts_comparison _ ih

end Expressions

/-! ## Statements -/

section Statements

/-- The statement, where the first token of `rest` follows it. -/
def Stands (used rest : List Token) (s : Stmt) : Prop :=
  ∀ next tail, rest = next :: tail → Grammar.Statement next used s

/-- The same for statements one after the other. -/
def StandsList (used rest : List Token) (ss : List Stmt) : Prop :=
  ∀ next tail, rest = next :: tail → Grammar.Statements next used ss

variable {sub : Parser Stmt}

theorem accepts_statements (h : Accepts sub Stands) (budget : Nat) :
    Accepts (sepBy1 sub (.mark .semicolon) budget) StandsList := by
  refine accepts_sepBy1 h ?_ ?_ budget
  · intro ts rest s hs next tail heq
    exact .one (hs next tail heq)
  · intro t ts us rest s ss hs hkind hss next tail heq
    exact .cons (hs t (us ++ rest) rfl) hkind (hss next tail heq)

theorem accepts_simpleStatement (budget : Nat) (h : Accepts sub Stands) :
    Accepts (simpleStatement budget sub) Stands := by
  have hexpr := accepts_expression budget
  intro ts s rest hrun
  obtain ⟨t, us, m, rfl, hm, hat⟩ := exists_of_peek hrun
  split at hm <;> subst hm
  · rename_i name hkind
    obtain ⟨u, mid, rfl, hu, htail⟩ := exists_of_expect (of_next hat)
    obtain ⟨used, e, mid, rfl, hused, hend⟩ := hexpr.of_bind htail
    obtain ⟨rfl, rfl⟩ := eq_of_pure hend
    exact ⟨t :: u :: used, rfl, fun _ _ _ => .assign hkind hu hused⟩
  · rename_i hkind
    obtain ⟨u, mid, name, rfl, hu, hend⟩ := exists_of_ident (of_next hat)
    obtain ⟨rfl, rfl⟩ := eq_of_pure hend
    exact ⟨[t, u], rfl, fun _ _ _ => .call hkind hu⟩
  · rename_i hkind
    obtain ⟨u, mid, name, rfl, hu, hend⟩ := exists_of_ident (of_next hat)
    obtain ⟨rfl, rfl⟩ := eq_of_pure hend
    exact ⟨[t, u], rfl, fun _ _ _ => .input hkind hu⟩
  · rename_i hkind
    obtain ⟨used, e, mid, rfl, hused, hend⟩ := hexpr.of_bind (of_next hat)
    obtain ⟨rfl, rfl⟩ := eq_of_pure hend
    exact ⟨t :: used, rfl, fun _ _ _ => .output hkind hused⟩
  · rename_i hkind
    obtain ⟨used, ss, mid, rfl, hused, htail⟩ := (accepts_statements h budget).of_bind (of_next hat)
    obtain ⟨stop, mid, rfl, hstop, hend⟩ := exists_of_expect htail
    obtain ⟨rfl, rfl⟩ := eq_of_pure hend
    exact ⟨t :: used ++ [stop], by simp, fun _ _ _ => .begin hkind (hused stop _ rfl) hstop⟩
  · rename_i hkind
    obtain ⟨used, guard, mid, rfl, hused, htail⟩ := hexpr.of_bind (of_next hat)
    obtain ⟨u, mid, rfl, hu, hbody⟩ := exists_of_expect htail
    obtain ⟨used', body, mid, rfl, hused', hend⟩ := h.of_bind hbody
    obtain ⟨rfl, rfl⟩ := eq_of_pure hend
    exact ⟨t :: used ++ u :: used', by simp,
      fun next tail heq => .if hkind hused hu (hused' next tail heq)⟩
  · rename_i hkind
    obtain ⟨used, guard, mid, rfl, hused, htail⟩ := hexpr.of_bind (of_next hat)
    obtain ⟨u, mid, rfl, hu, hbody⟩ := exists_of_expect htail
    obtain ⟨used', body, mid, rfl, hused', hend⟩ := h.of_bind hbody
    obtain ⟨rfl, rfl⟩ := eq_of_pure hend
    exact ⟨t :: used ++ u :: used', by simp,
      fun next tail heq => .while hkind hused hu (hused' next tail heq)⟩
  · obtain ⟨rfl, rfl⟩ := eq_of_pure hat
    refine ⟨[], rfl, fun next tail heq => ?_⟩
    cases heq
    exact .empty

theorem accepts_statement (budget : Nat) : Accepts (statement budget) Stands := by
  induction budget with
  | zero =>
    intro ts s rest h
    cases h
  | succ budget ih => exact accepts_simpleStatement _ ih

end Statements

/-! ## Declarations -/

section Declarations

theorem accepts_constantDecl : Accepts constantDecl fun used _ d => Grammar.Constant used d := by
  intro ts d rest hrun
  obtain ⟨t, us, name, rfl, ht, htail⟩ := exists_of_ident hrun
  obtain ⟨u, us, rfl, hu, htail⟩ := exists_of_expect htail
  obtain ⟨v, us, value, rfl, hv, hend⟩ := exists_of_literal htail
  obtain ⟨rfl, rfl⟩ := eq_of_pure hend
  exact ⟨[t, u, v], rfl, .mk ht hu hv⟩

theorem accepts_variableDecl : Accepts variableDecl fun used _ d => Grammar.Variable used d := by
  intro ts d rest hrun
  obtain ⟨t, us, name, rfl, ht, hend⟩ := exists_of_ident hrun
  obtain ⟨rfl, rfl⟩ := eq_of_pure hend
  exact ⟨[t], rfl, .mk ht⟩

theorem accepts_listed {item : Parser Decl} {Item : List Token → Decl → Prop}
    (h : Accepts item fun used _ d => Item used d) (budget : Nat) :
    Accepts (sepBy1 item (.mark .comma) budget) fun used _ ds => Grammar.Listed Item used ds :=
  accepts_sepBy1 h (fun _ _ _ => .one) (fun _ _ _ _ _ _ => .cons) budget

/-- The block, where the first token of `rest` follows it. -/
def StandsBlock (used rest : List Token) (b : Block) : Prop :=
  ∀ next tail, rest = next :: tail → Grammar.Block next used b

variable {sub : Parser Block}

/-- Nothing is read where no group of declarations stands. -/
theorem accepts_group (budget : Nat) (h : Accepts sub StandsBlock) :
    Accepts (group budget sub) fun used _ ds =>
      used = [] ∧ ds = [] ∨ Grammar.Group used ds := by
  intro ts ds rest hrun
  obtain ⟨t, us, m, rfl, hm, hat⟩ := exists_of_peek hrun
  split at hm <;> subst hm
  · rename_i hkind
    obtain ⟨used, ds, mid, rfl, hused, htail⟩ :=
      (accepts_listed accepts_constantDecl budget).of_bind (of_next hat)
    obtain ⟨stop, mid, rfl, hstop, hend⟩ := exists_of_expect htail
    obtain ⟨rfl, rfl⟩ := eq_of_pure hend
    exact ⟨t :: used ++ [stop], by simp, .inr (.consts hkind hused hstop)⟩
  · rename_i hkind
    obtain ⟨used, ds, mid, rfl, hused, htail⟩ :=
      (accepts_listed accepts_variableDecl budget).of_bind (of_next hat)
    obtain ⟨stop, mid, rfl, hstop, hend⟩ := exists_of_expect htail
    obtain ⟨rfl, rfl⟩ := eq_of_pure hend
    exact ⟨t :: used ++ [stop], by simp, .inr (.vars hkind hused hstop)⟩
  · rename_i hkind
    obtain ⟨d, mid, hproc, htail⟩ := exists_of_bind (of_next hat)
    obtain ⟨u, us, name, rfl, hu, hproc⟩ := exists_of_ident hproc
    obtain ⟨v, us, rfl, hv, hproc⟩ := exists_of_expect hproc
    obtain ⟨used, b, mid, rfl, hused, hdecl⟩ := h.of_bind hproc
    obtain ⟨rfl, rfl⟩ := eq_of_pure hdecl
    obtain ⟨stop, mid, rfl, hstop, hend⟩ := exists_of_expect htail
    obtain ⟨rfl, rfl⟩ := eq_of_pure hend
    exact ⟨t :: u :: v :: used ++ [stop], by simp,
      .inr (.procedure hkind hu hv (hused stop _ rfl) hstop)⟩
  · obtain ⟨rfl, rfl⟩ := eq_of_pure hat
    exact ⟨[], rfl, .inl ⟨rfl, rfl⟩⟩

theorem accepts_declarations (h : Accepts sub StandsBlock) (budget : Nat) (seen : List String) :
    Accepts (declarations sub budget seen) fun used _ ds => Grammar.Declarations used ds := by
  induction budget generalizing seen with
  | zero =>
    intro ts ds rest hrun
    cases hrun
  | succ budget ih =>
    intro ts ds rest hrun
    obtain ⟨used, es, mid, rfl, hused, htail⟩ := (accepts_group budget h).of_bind hrun
    cases es with
    | nil =>
      obtain ⟨rfl, rfl⟩ := eq_of_pure htail
      obtain ⟨rfl, -⟩ | hgroup := hused
      · exact ⟨[], rfl, .nil⟩
      · exact absurd rfl hgroup.ne_nil
    | cons e es =>
      have hgroup : Grammar.Group used (e :: es) := by simpa using hused
      obtain ⟨seen', hseen, htail⟩ := exists_of_lift htail
      obtain ⟨used', ds', rest', rfl, hused', hend⟩ := (ih seen').of_bind htail
      obtain ⟨rfl, rfl⟩ := eq_of_pure hend
      exact ⟨used ++ used', by simp, .cons hgroup hused'⟩

theorem accepts_block (budget : Nat) : Accepts (block budget) StandsBlock := by
  induction budget with
  | zero =>
    intro ts b rest h
    cases h
  | succ budget ih =>
    intro ts b rest h
    obtain ⟨used, ds, mid, rfl, hused, htail⟩ := (accepts_declarations ih _ _).of_bind h
    obtain ⟨used', s, mid, rfl, hused', hend⟩ := (accepts_statement _).of_bind htail
    obtain ⟨rfl, rfl⟩ := eq_of_pure hend
    exact ⟨used ++ used', by simp, fun next tail heq => .mk hused (hused' next tail heq)⟩

end Declarations

end Parser

/-! ## Programs -/

theorem Grammar.Program.of_statements {first dot eof : Token} {ts us : List Token} {ds : List Decl}
    {ss : List Stmt} (hds : Declarations ts ds) (hss : Statements dot us ss)
    (hdot : dot.kind = .mark .dot) (heof : eof.kind = .eof)
    (hfirst : (ts ++ us ++ [dot, eof]).head? = some first) :
    Grammar.Program (ts ++ us ++ [dot, eof]) (.ofBlock first ⟨ds, Parser.ofSequence first ss⟩) := by
  cases hss with
  | one hs => exact .single hds hs hdot heof hfirst
  | cons hs hkind hss =>
    obtain ⟨s', ss', rfl⟩ := List.exists_cons_of_ne_nil hss.ne_nil
    exact .sequence hds (.cons hs hkind hss) hdot heof hfirst

theorem Parser.accepts_program (budget : Nat) :
    Accepts (program budget) fun used _ p =>
      Grammar.Program used p ∧ ∃ ts eof, used = ts ++ [eof] ∧ eof.kind = .eof := by
  intro ts p rest hrun
  obtain ⟨first, us, m, hts, rfl, hrun⟩ := exists_of_peek hrun
  obtain ⟨ds_used, ds, mid, hds_eq, hds, hrun⟩ :=
    (accepts_declarations (accepts_block budget) budget []).of_bind hrun
  obtain ⟨ss_used, ss, mid', rfl, hss, hrun⟩ :=
    (accepts_statements (accepts_statement budget) budget).of_bind hrun
  obtain ⟨dot, mid', rfl, hdot, hrun⟩ := exists_of_expect hrun
  obtain ⟨eof, mid', rfl, heof, hrun⟩ := exists_of_expect hrun
  obtain ⟨rfl, rfl⟩ := eq_of_pure hrun
  have hsplit : ts = ds_used ++ ss_used ++ [dot, eof] ++ rest := by simp [hts, hds_eq]
  refine ⟨ds_used ++ ss_used ++ [dot, eof], hsplit, ?_, ds_used ++ ss_used ++ [dot], eof,
    by simp, heof⟩
  refine .of_statements hds (hss dot _ rfl) hdot heof ?_
  have hfirst : ts.head? = some first := by rw [hts, List.head?_cons]
  rw [hsplit] at hfirst
  simpa using hfirst

theorem Stream.mono {T T' : Token → Prop} {ts : List Token} (h : Stream T ts)
    (hmono : ∀ t, T t → T' t) : Stream T' ts := by
  induction h with
  | eof ht heof => exact .eof (hmono _ ht) heof
  | cons ht hne _ ih => exact .cons (hmono _ ht) hne ih

theorem Stream.eof_or_tail {T : Token → Prop} {t : Token} {ts : List Token}
    (h : Stream T (t :: ts)) : t.kind = .eof ∧ ts = [] ∨ t.kind ≠ .eof ∧ Stream T ts := by
  cases h with
  | eof _ heof => exact .inl ⟨heof, rfl⟩
  | cons _ hne hts => exact .inr ⟨hne, hts⟩

theorem Stream.eq_nil_of_eof {T : Token → Prop} {ts rest : List Token} {eof : Token}
    (h : Stream T (ts ++ eof :: rest)) (heof : eof.kind = .eof) : rest = [] := by
  induction ts with
  | nil =>
    obtain ⟨-, hrest⟩ | ⟨hne, -⟩ := h.eof_or_tail
    · exact hrest
    · exact absurd heof hne
  | cons t ts ih =>
    obtain ⟨-, hnil⟩ | ⟨-, htail⟩ := h.eof_or_tail
    · simp at hnil
    · exact ih htail

/-- The parser stops at an end-of-input token, and leaves alone what follows it. -/
theorem Grammar.exists_program_of_ofTokens {tokens : List Token} {p : PLZero.Program}
    (h : Program.ofTokens tokens = .ok p) :
    ∃ ts eof rest,
      tokens = ts ++ eof :: rest ∧ eof.kind = .eof ∧ Grammar.Program (ts ++ [eof]) p := by
  rw [Program.ofTokens_eq, StateT.run'] at h
  cases hrun : Parser.program (tokens.length + 1) tokens with
  | error fault =>
    rw [hrun] at h
    cases h
  | ok r =>
    rw [hrun] at h
    cases h
    obtain ⟨used, heq, hused, ts, eof, rfl, heof⟩ := Parser.accepts_program _ _ _ _ hrun
    exact ⟨ts, eof, r.2, by rw [heq, List.append_assoc, List.singleton_append], heof, hused⟩

/-- The end-of-input token is the last, so that no token is left over. -/
theorem Grammar.program_of_ofTokens {T : Token → Prop} {tokens : List Token} {p : PLZero.Program}
    (hstream : Stream T tokens) (h : Program.ofTokens tokens = .ok p) :
    Grammar.Program tokens p := by
  obtain ⟨ts, eof, rest, rfl, heof, hp⟩ := exists_program_of_ofTokens h
  rw [hstream.eq_nil_of_eof heof]
  exact hp

end PLZero
