import PLZero.Proofs.Tree.Lookahead

/-!
# Tokens that can be continued

* `Grammar.IsExpression` and its like — the tokens that are derived from a nonterminal, whatever
  their tree and whatever follows them.
* `Parser.Viable` — what a parser has read is derived from its nonterminal; and where it has found a
  token that it did not expect, the tokens before this one can be continued to such tokens.  One
  lemma for each rule.
* `Parser.viable_program` — the tokens before the one that was not expected begin a sentence.

An empty statement is taken, or a repetition ends, in front of any token that does not fit, and the
token is found by a rule around it.  So a rule is asked for more than its own tokens: that they can
be continued (`Viable.inhabited`), whatever rules are still open around it.
-/

namespace PLZero

/-! ## Languages -/

namespace Grammar

def IsPrimary (ts : List Token) : Prop := ∃ e, Primary ts e

def IsTerm (ts : List Token) : Prop := ∃ e, Term ts e

def IsAdditive (ts : List Token) : Prop := ∃ e, Additive ts e

def IsExpression (ts : List Token) : Prop := ∃ e, Expression ts e

def IsStatement (ts : List Token) : Prop := ∀ next, ∃ s, Statement next ts s

def IsStatements (ts : List Token) : Prop := ∀ next, ∃ ss, Statements next ts ss

def IsListed (Item : List Token → Decl → Prop) (ts : List Token) : Prop := ∃ ds, Listed Item ts ds

def IsGroup (ts : List Token) : Prop := ∃ ds, Group ts ds

def IsDeclarations (ts : List Token) : Prop := ∃ ds, Declarations ts ds

def IsBlock (ts : List Token) : Prop := ∀ next, ∃ b, Block next ts b

/-- A sentence, with names that are declared twice or without. -/
def IsSentence (ts : List Token) : Prop := ∃ p, Program ts p

theorem IsStatement.empty : IsStatement [] := fun _ => ⟨_, .empty⟩

theorem IsStatements.one {ts : List Token} (h : IsStatement ts) : IsStatements ts := by
  intro next
  obtain ⟨s, hs⟩ := h next
  exact ⟨_, .one hs⟩

theorem IsStatements.cons {t : Token} {ts us : List Token} (h : IsStatement ts)
    (ht : t.kind = .mark .semicolon) (hus : IsStatements us) : IsStatements (ts ++ t :: us) := by
  intro next
  obtain ⟨s, hs⟩ := h t
  obtain ⟨ss, hss⟩ := hus next
  exact ⟨_, .cons hs ht hss⟩

theorem IsStatement.begin {t stop : Token} {ts : List Token} (ht : t.kind = .keyword .begin)
    (h : IsStatements ts) (hstop : stop.kind = .keyword .end) :
    IsStatement (t :: ts ++ [stop]) := by
  intro next
  obtain ⟨ss, hss⟩ := h stop
  exact ⟨_, .begin ht hss hstop⟩

theorem IsStatement.if {t u : Token} {ts us : List Token} (ht : t.kind = .keyword .if)
    (hguard : IsExpression ts) (hu : u.kind = .keyword .then) (h : IsStatement us) :
    IsStatement (t :: ts ++ u :: us) := by
  intro next
  obtain ⟨guard, hguard⟩ := hguard
  obtain ⟨body, hbody⟩ := h next
  exact ⟨_, .if ht hguard hu hbody⟩

theorem IsStatement.while {t u : Token} {ts us : List Token} (ht : t.kind = .keyword .while)
    (hguard : IsExpression ts) (hu : u.kind = .keyword .do) (h : IsStatement us) :
    IsStatement (t :: ts ++ u :: us) := by
  intro next
  obtain ⟨guard, hguard⟩ := hguard
  obtain ⟨body, hbody⟩ := h next
  exact ⟨_, .while ht hguard hu hbody⟩

theorem IsGroup.procedure {t u v stop : Token} {name : String} {ts : List Token}
    (ht : t.kind = .keyword .procedure) (hu : u.kind = .ident name)
    (hv : v.kind = .mark .semicolon) (h : IsBlock ts) (hstop : stop.kind = .mark .semicolon) :
    IsGroup (t :: u :: v :: ts ++ [stop]) := by
  obtain ⟨b, hb⟩ := h stop
  exact ⟨_, .procedure ht hu hv hb hstop⟩

theorem IsDeclarations.append {ts us : List Token} (h : ts = [] ∨ IsGroup ts)
    (hus : IsDeclarations us) : IsDeclarations (ts ++ us) := by
  rcases h with rfl | ⟨ds, hds⟩
  · exact hus
  · obtain ⟨es, hes⟩ := hus
    exact ⟨_, .cons hds hes⟩

theorem IsBlock.mk {ts us : List Token} (hds : IsDeclarations ts) (hs : IsStatement us) :
    IsBlock (ts ++ us) := by
  intro next
  obtain ⟨ds, hds⟩ := hds
  obtain ⟨s, hs⟩ := hs next
  exact ⟨_, .mk hds hs⟩

theorem IsSentence.mk {dot eof : Token} {ts us : List Token} (hds : IsDeclarations ts)
    (hss : IsStatements us) (hdot : dot.kind = .mark .dot) (heof : eof.kind = .eof) :
    IsSentence (ts ++ us ++ [dot, eof]) := by
  obtain ⟨ds, hds⟩ := hds
  obtain ⟨ss, hss⟩ := hss dot
  obtain ⟨first, hfirst⟩ : ∃ first, (ts ++ us ++ [dot, eof]).head? = some first :=
    Option.isSome_iff_exists.mp (by simp)
  exact ⟨_, .of_statements hds hss hdot heof hfirst⟩

end Grammar

namespace Parser

open Grammar

variable {α β : Type}

/-! ## Viable parsers -/

/-- On the token lists in `S`, what the parser reads is in the language `L`; and where it finds a
token that it does not expect, what it has read can be continued to tokens in `L`. -/
structure Viable (S : List Token → Prop) (m : Parser α) (L : List Token → Prop) : Prop where
  inhabited : ∃ us, L us
  ok : ∀ {ts rest : List Token} {a : α}, S ts → m ts = .ok (a, rest) →
    ∃ used, ts = used ++ rest ∧ L used
  unexpected : ∀ {ts : List Token} {e : Expected} {t : Token}, S ts →
    m ts = .error (.unexpected e t) → ∃ used tail more, ts = used ++ t :: tail ∧ L (used ++ more)

def Anything (_ : List Token) : Prop := True

/-- The token stands first. -/
def Starts (t : Token) (ts : List Token) : Prop := ∃ us, ts = t :: us

/-- Some token of the kind. -/
def sample (kind : TokenKind) : Token := ⟨kind, .start, kind.spelling⟩

instance : Nonempty Expr := ⟨.literal (sample .eof) none (.bool false)⟩

instance : Nonempty Stmt := ⟨.empty (sample .eof)⟩

instance : Nonempty Decl := ⟨.var (.ofToken (sample .eof))⟩

instance : Nonempty Block := ⟨⟨[], .empty (sample .eof)⟩⟩

namespace Viable

variable {S L M : List Token → Prop}

theorem anywhere {m : Parser α} (h : Viable Anything m L) : Viable S m L :=
  ⟨h.inhabited, fun _ hrun => h.ok trivial hrun, fun _ hrun => h.unexpected trivial hrun⟩

theorem pure {a : α} (h : L []) : Viable S (Pure.pure a) L := by
  refine ⟨⟨[], h⟩, fun _ hrun => ?_, fun _ hrun => ?_⟩
  · cases hrun
    exact ⟨[], rfl, h⟩
  · cases hrun

/-- A parser that is out of budget finds nothing. -/
theorem spent (h : ∃ us, L us) : Viable S (throw .endOfTokens : Parser α) L := by
  refine ⟨h, fun _ hrun => ?_, fun _ hrun => ?_⟩
  · cases hrun
  · cases hrun

/-- Nothing has been read yet. -/
theorem refuses {expected : Expected} (h : ∃ us, L us) :
    Viable S (Parser.unexpected expected : Parser α) L := by
  refine ⟨h, fun _ hrun => absurd hrun not_unexpected, fun {ts _ _} _ hrun => ?_⟩
  cases ts with
  | nil => cases hrun
  | cons t us =>
    cases hrun
    obtain ⟨more, hmore⟩ := h
    exact ⟨[], us, more, rfl, hmore⟩

theorem lift [Nonempty α] {x : Except ParseFault α} {f : α → Parser β}
    (hx : ∀ e t, x ≠ .error (.unexpected e t)) (h : ∀ a, Viable S (f a) L) :
    Viable S ((liftM x : Parser α) >>= f) L := by
  cases x with
  | ok a => exact h a
  | error fault =>
    refine ⟨Nonempty.elim ‹Nonempty α› fun a => (h a).inhabited, fun _ hrun => ?_, fun _ hrun => ?_⟩
    · cases hrun
    · cases hrun
      exact absurd rfl (hx _ _)

/-- The rest of a rule, after one of its parts. -/
theorem bind [Nonempty α] {m : Parser α} {f : α → Parser β} (hm : Viable S m M)
    (hf : ∀ w a, M w → Viable Anything (f a) fun us => L (w ++ us)) : Viable S (m >>= f) L := by
  have hmore : ∀ w, M w → ∃ us, L (w ++ us) := fun w hw =>
    Nonempty.elim ‹Nonempty α› fun a => (hf w a hw).inhabited
  refine ⟨?_, fun hS hrun => ?_, fun hS hrun => ?_⟩
  · obtain ⟨w, hw⟩ := hm.inhabited
    obtain ⟨us, hus⟩ := hmore w hw
    exact ⟨w ++ us, hus⟩
  · obtain ⟨a, mid, ha, hb⟩ := exists_of_bind hrun
    obtain ⟨used, rfl, hused⟩ := hm.ok hS ha
    obtain ⟨used', rfl, hused'⟩ := (hf used a hused).ok trivial hb
    exact ⟨used ++ used', (List.append_assoc ..).symm, hused'⟩
  · rcases error_of_bind hrun with hrun | ⟨a, mid, ha, hb⟩
    · obtain ⟨used, tail, more, rfl, hused⟩ := hm.unexpected hS hrun
      obtain ⟨us, hus⟩ := hmore _ hused
      exact ⟨used, tail, more ++ us, rfl, by rwa [← List.append_assoc]⟩
    · obtain ⟨used, rfl, hused⟩ := hm.ok hS ha
      obtain ⟨used', tail, more, rfl, hused'⟩ := (hf used a hused).unexpected trivial hb
      exact ⟨used ++ used', tail, more, (List.append_assoc ..).symm, by rwa [List.append_assoc]⟩

theorem peek {f : Token → Parser β} (h : ∀ t, Viable (Starts t) (f t) L) :
    Viable S (Parser.peek >>= f) L := by
  refine ⟨(h (sample .eof)).inhabited, fun {ts _ _} _ hrun => ?_, fun {ts _ _} _ hrun => ?_⟩
  · cases ts with
    | nil => cases hrun
    | cons t us => exact (h t).ok ⟨us, rfl⟩ hrun
  · cases ts with
    | nil => cases hrun
    | cons t us => exact (h t).unexpected ⟨us, rfl⟩ hrun

theorem next {f : Token → Parser β} {t : Token}
    (h : Viable Anything (f t) fun us => L (t :: us)) :
    Viable (Starts t) (Parser.next >>= f) L := by
  refine ⟨?_, fun hS hrun => ?_, fun hS hrun => ?_⟩
  · obtain ⟨us, hus⟩ := h.inhabited
    exact ⟨t :: us, hus⟩
  · obtain ⟨us, rfl⟩ := hS
    obtain ⟨used, rfl, hused⟩ := h.ok trivial hrun
    exact ⟨t :: used, rfl, hused⟩
  · obtain ⟨us, rfl⟩ := hS
    obtain ⟨used, tail, more, rfl, hused⟩ := h.unexpected trivial hrun
    exact ⟨t :: used, tail, more, rfl, hused⟩

/-- One token of the sort `K`, of which there are some. -/
theorem single {m : Parser α} {f : α → Parser β} {K : Token → α → Prop} (hK : ∃ t a, K t a)
    (hnil : m [] = .error .endOfTokens)
    (hm : ∀ t us, (∃ a, K t a ∧ m (t :: us) = .ok (a, us)) ∨
      ∃ e, m (t :: us) = .error (.unexpected e t))
    (h : ∀ t a, K t a → Viable Anything (f a) fun us => L (t :: us)) : Viable S (m >>= f) L := by
  have hmore : ∃ us, L us := by
    obtain ⟨t, a, ha⟩ := hK
    obtain ⟨us, hus⟩ := (h t a ha).inhabited
    exact ⟨t :: us, hus⟩
  refine ⟨hmore, fun {ts _ _} _ hrun => ?_, fun {ts _ _} _ hrun => ?_⟩
  · cases ts with
    | nil => cases (bind_of_error hnil).symm.trans hrun
    | cons t us =>
      rcases hm t us with ⟨a, ha, hread⟩ | ⟨e, hrefuse⟩
      · obtain ⟨used, rfl, hused⟩ := (h t a ha).ok trivial ((bind_of_ok hread).symm.trans hrun)
        exact ⟨t :: used, rfl, hused⟩
      · cases (bind_of_error hrefuse).symm.trans hrun
  · cases ts with
    | nil => cases (bind_of_error hnil).symm.trans hrun
    | cons t us =>
      rcases hm t us with ⟨a, ha, hread⟩ | ⟨e, hrefuse⟩
      · obtain ⟨used, tail, more, rfl, hused⟩ :=
          (h t a ha).unexpected trivial ((bind_of_ok hread).symm.trans hrun)
        exact ⟨t :: used, tail, more, rfl, hused⟩
      · cases (bind_of_error hrefuse).symm.trans hrun
        obtain ⟨more, hmore⟩ := hmore
        exact ⟨[], us, more, rfl, hmore⟩

theorem expect {kind : TokenKind} {f : Token → Parser β}
    (h : ∀ t, t.kind = kind → Viable Anything (f t) fun us => L (t :: us)) :
    Viable S (Parser.expect kind >>= f) L := by
  refine single (K := fun t a => t.kind = kind ∧ t = a) ⟨sample kind, _, rfl, rfl⟩ rfl
    (fun t us => ?_) fun t a ha => ha.2 ▸ h t ha.1
  rw [Parser.expect, bind_peek]
  split
  · rename_i hkind
    exact .inl ⟨t, ⟨hkind, rfl⟩, rfl⟩
  · exact .inr ⟨_, rfl⟩

theorem ident {f : Token → Parser β}
    (h : ∀ t name, t.kind = .ident name → Viable Anything (f t) fun us => L (t :: us)) :
    Viable S (Parser.ident >>= f) L := by
  refine single (K := fun t a => (∃ name, t.kind = .ident name) ∧ t = a)
    ⟨sample (.ident "x"), _, ⟨"x", rfl⟩, rfl⟩ rfl (fun t us => ?_) ?_
  · rw [Parser.ident, bind_peek]
    cases t.kind with
    | ident name => exact .inl ⟨t, ⟨⟨name, rfl⟩, rfl⟩, rfl⟩
    | _ => exact .inr ⟨_, rfl⟩
  · rintro t _ ⟨⟨name, hkind⟩, rfl⟩
    exact h t name hkind

theorem literal {f : Value → Parser β}
    (h : ∀ t value, t.kind = .literal value → Viable Anything (f value) fun us => L (t :: us)) :
    Viable S (Parser.literal >>= f) L := by
  refine single (K := fun t value => t.kind = .literal value)
    ⟨sample (.literal (.bool false)), _, rfl⟩ rfl (fun t us => ?_) h
  rw [Parser.literal, bind_peek]
  cases t.kind with
  | literal value => exact .inl ⟨value, rfl, rfl⟩
  | _ => exact .inr ⟨_, rfl⟩

end Viable

/-! ## Repetition -/

theorem viable_sepBy1 [Nonempty α] {item : Parser α} {separator : TokenKind}
    {I L : List Token → Prop} (hitem : Viable Anything item I) (hone : ∀ w, I w → L w)
    (hcons : ∀ t w us, I w → t.kind = separator → L us → L (w ++ t :: us)) (budget : Nat) :
    Viable Anything (sepBy1 item separator budget) L := by
  induction budget with
  | zero =>
    obtain ⟨w, hw⟩ := hitem.inhabited
    exact .spent ⟨w, hone w hw⟩
  | succ n ih =>
    refine hitem.bind fun w a hw => .peek fun t => ?_
    split
    · rename_i hkind
      refine .next (ih.bind fun us as hus => .pure ?_)
      rw [List.append_nil]
      exact hcons t w us hw hkind hus
    · refine .pure ?_
      rw [List.append_nil]
      exact hone w hw

/-- `R` holds of what was read before, and each operator with its operand extends it. -/
theorem viable_chain {level : Op → Bool} {operand : Parser Expr} {P R : List Token → Prop}
    (hoperand : Viable Anything operand P)
    (hstep : ∀ t op w us, R w → t.kind = .op op → level op = true → P us → R (w ++ t :: us))
    (budget : Nat) {before : List Token} (hbefore : R before) (lhs : Expr) :
    Viable Anything (chain level operand budget lhs) fun us => R (before ++ us) := by
  induction budget generalizing before lhs with
  | zero => exact .spent ⟨[], by rwa [List.append_nil]⟩
  | succ n ih =>
    refine .peek fun t => ?_
    split
    · rename_i op hop
      obtain ⟨hkind, hlevel⟩ := op_of_filter hop
      refine .next (hoperand.bind fun us rhs hus => ?_)
      have hrest := ih (hstep t op before us hbefore hkind hlevel hus) (.binary t none op lhs rhs)
      simpa using hrest
    · exact .pure (by rwa [List.append_nil])

/-! ## Expressions -/

section Expressions

variable {sub : Parser Expr}

theorem inhabited_isPrimary : ∃ us, IsPrimary us :=
  ⟨[sample (.ident "x")], _, .ident rfl⟩

theorem viable_primary (h : Viable Anything sub IsExpression) :
    Viable Anything (primary sub) IsPrimary := by
  refine .peek fun t => ?_
  split
  · rename_i name hkind
    exact .next (.pure ⟨_, .ident hkind⟩)
  · rename_i value hkind
    exact .next (.pure ⟨_, .literal hkind⟩)
  · rename_i hkind
    refine .next (h.bind fun us e hus => .expect fun r hr => .pure ?_)
    obtain ⟨e, he⟩ := hus
    exact ⟨e, .parens hkind he hr⟩
  · exact .refuses inhabited_isPrimary

theorem viable_term (h : Viable Anything sub IsExpression) (budget : Nat) :
    Viable Anything (term budget sub) IsTerm := by
  refine (viable_primary h).bind fun w lhs ⟨e, he⟩ => ?_
  refine viable_chain (viable_primary h) ?_ budget ⟨e, .primary he⟩ lhs
  rintro t op w us ⟨lhs, hlhs⟩ hkind hlevel ⟨rhs, hrhs⟩
  exact ⟨_, .operation hlhs hkind (isMultiplicative_iff.mp hlevel) hrhs⟩

theorem viable_additive (h : Viable Anything sub IsExpression) (budget : Nat) :
    Viable Anything (additive budget sub) IsAdditive := by
  refine (viable_term h budget).bind fun w lhs ⟨e, he⟩ => ?_
  refine viable_chain (viable_term h budget) ?_ budget ⟨e, .term he⟩ lhs
  rintro t op w us ⟨lhs, hlhs⟩ hkind hlevel ⟨rhs, hrhs⟩
  exact ⟨_, .operation hlhs hkind (isAdditive_iff.mp hlevel) hrhs⟩

theorem viable_comparison (h : Viable Anything sub IsExpression) (budget : Nat) :
    Viable Anything (comparison budget sub) IsExpression := by
  refine (viable_additive h budget).bind fun w lhs ⟨e, he⟩ => .peek fun t => ?_
  split
  · refine .pure ?_
    rw [List.append_nil]
    exact ⟨e, .additive he⟩
  · rename_i op hop
    obtain ⟨hkind, hrelational⟩ := op_of_filter hop
    obtain ⟨cond, rfl⟩ : ∃ cond, op = .compare cond := by
      cases op with
      | arith => cases hrelational
      | compare cond => exact ⟨cond, rfl⟩
    refine .next ((viable_additive h budget).bind fun us rhs ⟨e', he'⟩ => .peek fun u => ?_)
    have hwhole : IsExpression (w ++ t :: (us ++ [])) := by
      rw [List.append_nil]
      exact ⟨_, .comparison he hkind he'⟩
    -- A second comparison is refused where a whole expression has been read.
    split
    · exact .refuses ⟨[], hwhole⟩
    · exact .pure hwhole

theorem viable_expression (budget : Nat) : Viable Anything (expression budget) IsExpression := by
  induction budget with
  | zero =>
    obtain ⟨us, e, he⟩ := inhabited_isPrimary
    exact .spent ⟨us, e, .additive (.term (.primary he))⟩
  | succ n ih => exact viable_comparison ih (n + 1)

end Expressions

/-! ## Statements -/

section Statements

variable {sub : Parser Stmt}

theorem viable_statements (h : Viable Anything sub IsStatement) (budget : Nat) :
    Viable Anything (sepBy1 sub (.mark .semicolon) budget) IsStatements :=
  viable_sepBy1 h (fun _ hw => .one hw) (fun _ _ _ hw ht hus => .cons hw ht hus) budget

theorem viable_simpleStatement (budget : Nat) (h : Viable Anything sub IsStatement) :
    Viable Anything (simpleStatement budget sub) IsStatement := by
  have hexpr := viable_expression budget
  refine .peek fun t => ?_
  split
  · rename_i name hkind
    refine .next (.expect fun u hu => hexpr.bind fun us e ⟨e', he⟩ => .pure fun next => ?_)
    rw [List.append_nil]
    exact ⟨_, .assign hkind hu he⟩
  · rename_i hkind
    exact .next (.ident fun u name hu => .pure fun next => ⟨_, .call hkind hu⟩)
  · rename_i hkind
    exact .next (.ident fun u name hu => .pure fun next => ⟨_, .input hkind hu⟩)
  · rename_i hkind
    refine .next (hexpr.bind fun us e ⟨e', he⟩ => .pure fun next => ?_)
    rw [List.append_nil]
    exact ⟨_, .output hkind he⟩
  · rename_i hkind
    refine .next ((viable_statements h budget).bind fun us ss hss => ?_)
    exact .expect fun stop hstop => .pure (.begin hkind hss hstop)
  · rename_i hkind
    refine .next (hexpr.bind fun us guard hguard => .expect fun u hu => ?_)
    refine h.bind fun vs body hbody => .pure ?_
    rw [List.append_nil]
    exact .if hkind hguard hu hbody
  · rename_i hkind
    refine .next (hexpr.bind fun us guard hguard => .expect fun u hu => ?_)
    refine h.bind fun vs body hbody => .pure ?_
    rw [List.append_nil]
    exact .while hkind hguard hu hbody
  · exact .pure .empty

theorem viable_statement (budget : Nat) : Viable Anything (statement budget) IsStatement := by
  induction budget with
  | zero => exact .spent ⟨[], .empty⟩
  | succ n ih => exact viable_simpleStatement (n + 1) ih

end Statements

/-! ## Declarations -/

section Declarations

variable {sub : Parser Block}

theorem viable_constantDecl : Viable Anything constantDecl fun us => ∃ d, Constant us d :=
  .ident fun _ _ ht => .expect fun _ hu => .literal fun _ _ hv => .pure ⟨_, .mk ht hu hv⟩

theorem viable_variableDecl : Viable Anything variableDecl fun us => ∃ d, Variable us d :=
  .ident fun _ _ ht => .pure ⟨_, .mk ht⟩

/-- A procedure without the keyword before it and the semicolon after it. -/
theorem viable_procedureDecl (h : Viable Anything sub IsBlock) :
    Viable Anything (procedureDecl sub) fun us => ∃ u v name ts, us = u :: v :: ts ∧
      u.kind = .ident name ∧ v.kind = .mark .semicolon ∧ IsBlock ts := by
  refine .ident fun u name hu => .expect fun v hv => h.bind fun ts b hb => .pure ?_
  exact ⟨u, v, name, ts, by simp, hu, hv, hb⟩

theorem viable_listed {item : Parser Decl} {Item : List Token → Decl → Prop}
    (h : Viable Anything item fun us => ∃ d, Item us d) (budget : Nat) :
    Viable Anything (sepBy1 item (.mark .comma) budget) (IsListed Item) := by
  refine viable_sepBy1 h ?_ ?_ budget
  · rintro w ⟨d, hd⟩
    exact ⟨_, .one hd⟩
  · rintro t w us ⟨d, hd⟩ ht ⟨ds, hds⟩
    exact ⟨_, .cons hd ht hds⟩

theorem viable_group (budget : Nat) (h : Viable Anything sub IsBlock) :
    Viable Anything (group budget sub) fun us => us = [] ∨ IsGroup us := by
  refine .peek fun t => ?_
  split
  · rename_i hkind
    refine .next ((viable_listed viable_constantDecl budget).bind fun us ds ⟨ds', hds⟩ => ?_)
    exact .expect fun stop hstop => .pure (.inr ⟨_, .consts hkind hds hstop⟩)
  · rename_i hkind
    refine .next ((viable_listed viable_variableDecl budget).bind fun us ds ⟨ds', hds⟩ => ?_)
    exact .expect fun stop hstop => .pure (.inr ⟨_, .vars hkind hds hstop⟩)
  · rename_i hkind
    refine .next ((viable_procedureDecl h).bind fun us d hd => .expect fun stop hstop => .pure ?_)
    obtain ⟨u, v, name, ts, rfl, hu, hv, hts⟩ := hd
    exact .inr (.procedure hkind hu hv hts hstop)
  · exact .pure (.inl rfl)

theorem viable_declarations (h : Viable Anything sub IsBlock) (budget : Nat) (seen : List String) :
    Viable Anything (declarations sub budget seen) IsDeclarations := by
  induction budget generalizing seen with
  | zero => exact .spent ⟨[], _, .nil⟩
  | succ n ih =>
    refine (viable_group n h).bind fun w ds hw => ?_
    split
    · exact .pure (.append hw ⟨_, .nil⟩)
    · refine .lift (distinct_ne_unexpected seen _) fun seen' => ?_
      refine (ih seen').bind fun us es hes => .pure ?_
      rw [List.append_nil]
      exact .append hw hes

theorem viable_block (budget : Nat) : Viable Anything (block budget) IsBlock := by
  induction budget with
  | zero => exact .spent ⟨[], .mk ⟨_, .nil⟩ .empty⟩
  | succ n ih =>
    refine (viable_declarations ih (n + 1) []).bind fun w ds hds => ?_
    refine (viable_statement (n + 1)).bind fun us s hs => .pure ?_
    rw [List.append_nil]
    exact .mk hds hs

end Declarations

/-! ## Programs -/

theorem viable_program (budget : Nat) : Viable Anything (program budget) IsSentence := by
  refine .peek fun first => .anywhere ?_
  refine (viable_declarations (viable_block budget) budget []).bind fun ts ds hds => ?_
  refine (viable_statements (viable_statement budget) budget).bind fun us ss hss => ?_
  refine .expect fun dot hdot => .expect fun eof heof => .pure ?_
  rw [← List.append_assoc]
  exact .mk hds hss hdot heof

end Parser

end PLZero
