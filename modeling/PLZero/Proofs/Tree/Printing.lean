import PLZero.Proofs.Token.Writing
import PLZero.Proofs.Tree.Grammar
import PLZero.Proofs.Tree.Matching

/-!
# What a printed tree is read as

* `Expr.kinds` and its like — the kinds of the tokens that the text of a tree is made of.
* `Expr.Reprints` and its like — the text of the tree is scanned into tokens of these kinds, and
  tokens of these kinds derive a tree of the same shape.  One lemma for each rule of the grammar: the
  tree of a sentence whose names and literals were scanned can be printed and read again.
-/

namespace PLZero

open Lexer

/-! ## The kinds of the tokens of a text -/

mutual

def Expr.kinds : Expr → List TokenKind
  | .literal _ _ value => [.literal value]
  | .use ident _ => [.ident ident.name]
  | .binary _ _ op lhs rhs => lhs.operandKinds ++ [.op op] ++ rhs.operandKinds

def Expr.operandKinds : Expr → List TokenKind
  | .binary _ _ op lhs rhs =>
    [.mark .leftParen] ++ (lhs.operandKinds ++ [.op op] ++ rhs.operandKinds) ++ [.mark .rightParen]
  | .literal _ _ value => [.literal value]
  | .use ident _ => [.ident ident.name]

end

mutual

def Stmt.kinds : Stmt → List TokenKind
  | .assign target expr => [.ident target.name, .mark .assign] ++ expr.kinds
  | .call _ target => [.keyword .call, .ident target.name]
  | .input _ target => [.mark .question, .ident target.name]
  | .output _ expr => [.mark .bang] ++ expr.kinds
  | .begin _ stmts => [.keyword .begin] ++ Stmt.kindsList stmts ++ [.keyword .end]
  | .if _ guard body => [.keyword .if] ++ guard.kinds ++ [.keyword .then] ++ body.kinds
  | .while _ guard body => [.keyword .while] ++ guard.kinds ++ [.keyword .do] ++ body.kinds
  | .empty _ => []

def Stmt.kindsList : List Stmt → List TokenKind
  | [] => []
  | [s] => s.kinds
  | s :: ss => s.kinds ++ [.mark .semicolon] ++ Stmt.kindsList ss

end

mutual

def Decl.kinds : Decl → List TokenKind
  | .const head value =>
    [.keyword .const, .ident head.name, .op (.compare .eq), .literal value, .mark .semicolon]
  | .var head => [.keyword .var, .ident head.name, .mark .semicolon]
  | .procedure head decls stmt =>
    [.keyword .procedure, .ident head.name, .mark .semicolon] ++ Decl.kindsList decls ++
      stmt.kinds ++ [.mark .semicolon]

def Decl.kindsList : List Decl → List TokenKind
  | [] => []
  | d :: ds => d.kinds ++ Decl.kindsList ds

end

/-! ## Tokens that can be printed -/

/-- The name or the literal that the token carries is scanned again from its printed form. -/
structure Token.Printable (t : Token) : Prop where
  name : ∀ name, t.kind = .ident name → IsLexeme (.ident name) name.toList
  literal : ∀ value, t.kind = .literal value → IsLexeme (.literal value) value.source.toList

theorem Token.printable_of_isLexeme {t : Token} {text : List Char} (h : IsLexeme t.kind text) :
    t.Printable := by
  constructor
  · intro name hname
    rw [hname] at h
    rw [← h.eq_name]
    exact h
  · intro value hvalue
    rw [hvalue] at h
    exact h.source

theorem Token.name_of_kind {t : Token} {name : String} (h : t.kind = .ident name) :
    t.name = name := by
  simp only [Token.name, h]

/-- The name of a printable token is a name in print. -/
theorem Token.Printable.writes {t : Token} {name : String} (h : t.Printable)
    (hkind : t.kind = .ident name) : Writes t.name [.ident t.name] := by
  rw [t.name_of_kind hkind]
  exact writes_lexeme (h.name name hkind)

/-- Tokens of the same kind, and of the same name. -/
def Token.Same (t u : Token) : Prop := u.kind = t.kind ∧ u.name = t.name

/-- Tokens of one kind are related, unless they are closing dots. -/
def CoversKind (T : Token → Token → Prop) : Prop :=
  ∀ ⦃kind : TokenKind⦄ ⦃t u : Token⦄, kind ≠ .mark .dot → t.kind = kind → u.kind = kind → T t u

theorem keepsName_same : KeepsName Token.Same := fun _ _ h => h.2

/-- A token whose kind is printed for a name. -/
theorem Token.same_of_ident {t u : Token} {name : String} (h : t.kind = .ident name)
    (hu : u.kind = .ident t.name) : Token.Same t u := by
  rw [t.name_of_kind h] at hu
  refine ⟨hu.trans h.symm, ?_⟩
  rw [t.name_of_kind h, u.name_of_kind hu]

/-! ## Expressions -/

section Reprints

variable {T : Token → Token → Prop}

/-- The text of the expression is scanned into tokens of its kinds, from which an expression of the
same shape is derived; and the same where it is an operand. -/
structure Expr.Reprints (T : Token → Token → Prop) (e : Expr) : Prop where
  writes : Writes e.text e.kinds
  derives : ∀ ts : List Token, ts.map Token.kind = e.kinds →
    ∃ e', Grammar.Expression ts e' ∧ e.Matches Token.Same T e'
  operand_writes : Writes e.operandText e.operandKinds
  operand_derives : ∀ ts : List Token, ts.map Token.kind = e.operandKinds →
    ∃ e', Grammar.Primary ts e' ∧ e.Matches Token.Same T e'

/-- An operation on operands that are names, literals or in parentheses is an expression, whatever the
level of its operator. -/
theorem Grammar.expression_of_operands {t : Token} {op : Op} {ts us : List Token} {lhs rhs : Expr}
    (hlhs : Primary ts lhs) (ht : t.kind = .op op) (hrhs : Primary us rhs) :
    Expression (ts ++ t :: us) (.binary t none op lhs rhs) := by
  cases op with
  | compare cond => exact .comparison (.term (.primary hlhs)) ht (.term (.primary hrhs))
  | arith op =>
    cases op with
    | add | sub =>
      exact .additive (.operation (.term (.primary hlhs)) ht (by simp) (.primary hrhs))
    | mul | div | rem => exact .additive (.term (.operation (.primary hlhs) ht (by simp) hrhs))

/-- An expression without operators is printed in the same way everywhere. -/
theorem Expr.reprints_of_primary {e : Expr} (htext : e.operandText = e.text)
    (hkinds : e.operandKinds = e.kinds) (hwrites : Writes e.text e.kinds)
    (hderives : ∀ ts : List Token, ts.map Token.kind = e.kinds →
      ∃ e', Grammar.Primary ts e' ∧ e.Matches Token.Same T e') : e.Reprints T := by
  refine ⟨hwrites, fun ts hts => ?_, by rw [htext, hkinds]; exact hwrites, by rwa [hkinds]⟩
  obtain ⟨e', hprimary, hmatches⟩ := hderives ts hts
  exact ⟨e', .additive (.term (.primary hprimary)), hmatches⟩

theorem writes_operation {text text' : String} {kinds kinds' : List TokenKind}
    (h : Writes text kinds) (op : Op) (h' : Writes text' kinds') :
    Writes (text ++ " " ++ op.symbol ++ " " ++ text') (kinds ++ [.op op] ++ kinds') := by
  have hop := (h.append opens_space spaced_space).writes (writes_lexeme (.op op))
  have hall := (hop.append opens_space spaced_space).writes h'
  simpa only [List.append_nil] using hall

theorem Expr.reprints_binary (hT : CoversKind T) {t : Token} {op : Op}
    {lhs rhs : Expr} (ht : t.kind = .op op) (hlhs : lhs.Reprints T) (hrhs : rhs.Reprints T) :
    (Expr.binary t none op lhs rhs).Reprints T := by
  have hderives (ts : List Token)
      (hts : ts.map Token.kind = lhs.operandKinds ++ [.op op] ++ rhs.operandKinds) :
      ∃ e', Grammar.Expression ts e' ∧
        (Expr.binary t none op lhs rhs).Matches Token.Same T e' := by
    obtain ⟨front, us, rfl, hfront, hus⟩ := List.map_eq_append_iff.mp hts
    obtain ⟨ts', ops, rfl, hts', hops⟩ := List.map_eq_append_iff.mp hfront
    obtain ⟨u, rfl, hu⟩ := List.map_eq_singleton_iff.mp hops
    obtain ⟨lhs', hlhs', hlmatches⟩ := hlhs.operand_derives ts' hts'
    obtain ⟨rhs', hrhs', hrmatches⟩ := hrhs.operand_derives us hus
    refine ⟨.binary u none op lhs' rhs', ?_, .binary (hT (by simp) ht hu) hlmatches hrmatches⟩
    rw [List.append_assoc]
    exact Grammar.expression_of_operands hlhs' hu hrhs'
  refine ⟨writes_operation hlhs.operand_writes op hrhs.operand_writes, hderives, ?_, ?_⟩
  · have hopened := spaced_leftParen.writes hlhs.operand_writes
    have hclosed := (writes_operation hopened op hrhs.operand_writes).rightParen
    simpa only [Expr.operandText, Expr.operandKinds, List.append_assoc] using hclosed
  · intro ts hts
    rw [Expr.operandKinds] at hts
    obtain ⟨front, ends, rfl, hfront, hends⟩ := List.map_eq_append_iff.mp hts
    obtain ⟨r, rfl, hr⟩ := List.map_eq_singleton_iff.mp hends
    obtain ⟨l, us, rfl, hl, hus⟩ := List.map_eq_cons_iff.mp hfront
    obtain ⟨e', he', hmatches⟩ := hderives us hus
    exact ⟨e', .parens hl he' hr, hmatches⟩

namespace Grammar

mutual

theorem Primary.reprints (hT : CoversKind T) {ts : List Token} {e : Expr} : Primary ts e →
    (∀ t ∈ ts, t.Printable) → e.Reprints T
  | @Primary.ident t name ht, hts => by
    refine Expr.reprints_of_primary rfl rfl ((hts t (by simp)).writes ht) fun us hus => ?_
    obtain ⟨u, rfl, hu⟩ := List.map_eq_singleton_iff.mp hus
    exact ⟨_, .ident hu, .use ⟨Token.same_of_ident ht hu, rfl, rfl⟩⟩
  | @Primary.literal t value ht, hts => by
    refine Expr.reprints_of_primary rfl rfl
      (writes_lexeme ((hts t (by simp)).literal value ht)) fun us hus => ?_
    obtain ⟨u, rfl, hu⟩ := List.map_eq_singleton_iff.mp hus
    exact ⟨_, .literal hu, .literal (hT (by simp) ht hu)⟩
  | .parens _ he _, hts => he.reprints hT fun t ht => hts t (by simp [ht])

theorem Term.reprints (hT : CoversKind T) {ts : List Token} {e : Expr} : Term ts e →
    (∀ t ∈ ts, t.Printable) → e.Reprints T
  | .primary h, hts => h.reprints hT hts
  | .operation hlhs ht _ hrhs, hts =>
    Expr.reprints_binary hT ht (hlhs.reprints hT fun t ht => hts t (by simp [ht]))
      (hrhs.reprints hT fun t ht => hts t (by simp [ht]))

theorem Additive.reprints (hT : CoversKind T) {ts : List Token} {e : Expr} : Additive ts e →
    (∀ t ∈ ts, t.Printable) → e.Reprints T
  | .term h, hts => h.reprints hT hts
  | .operation hlhs ht _ hrhs, hts =>
    Expr.reprints_binary hT ht (hlhs.reprints hT fun t ht => hts t (by simp [ht]))
      (hrhs.reprints hT fun t ht => hts t (by simp [ht]))

theorem Expression.reprints (hT : CoversKind T) {ts : List Token} {e : Expr} : Expression ts e →
    (∀ t ∈ ts, t.Printable) → e.Reprints T
  | .additive h, hts => h.reprints hT hts
  | .comparison hlhs ht hrhs, hts =>
    Expr.reprints_binary hT ht (hlhs.reprints hT fun t ht => hts t (by simp [ht]))
      (hrhs.reprints hT fun t ht => hts t (by simp [ht]))

end

end Grammar

/-! ## Statements -/

/-- The text of the statement is scanned into tokens of its kinds, from which a statement of the same
shape is derived, if a token that corresponds to `next` follows. -/
structure Stmt.Reprints (T : Token → Token → Prop) (next : Token) (s : Stmt) : Prop where
  writes : ∀ depth, Writes (s.text depth) s.kinds
  derives : ∀ (next' : Token) (ts : List Token), T next next' → ts.map Token.kind = s.kinds →
    ∃ s', Grammar.Statement next' ts s' ∧ s.Matches Token.Same T s'

structure Stmt.ReprintsList (T : Token → Token → Prop) (next : Token) (ss : List Stmt) : Prop where
  spaced : ∀ depth, Spaced (Stmt.textList depth ss) (Stmt.kindsList ss)
  derives : ∀ (next' : Token) (ts : List Token), T next next' →
    ts.map Token.kind = Stmt.kindsList ss →
    ∃ ss', Grammar.Statements next' ts ss' ∧ Stmt.MatchesList Token.Same T ss ss'

/-- A word or a mark that starts a line. -/
theorem spaced_start {text : String} {kind : TokenKind} {word : List Char} (depth : Nat)
    (h : IsLexeme kind word) (htext : text.toList = word ++ [' ']) :
    Spaced (indentation depth ++ text) [kind] :=
  (spaced_indentation depth).append (spaced_lexeme h (by decide) htext)

section Statements

variable {next t : Token} {s body : Stmt} {ss : List Stmt} {e guard : Expr}

theorem Stmt.reprints_assign {name : String} (ht : t.kind = .ident name) (hname : t.Printable)
    (he : e.Reprints T) : (Stmt.assign (.ofToken t) e).Reprints T next := by
  constructor
  · intro depth
    have hassign : Spaced " := " [.mark .assign] :=
      spaced_infix (.mark .assign) (by decide) (by decide) rfl
    have hopens : Opens " := " := fun rest => .blank (by decide) _
    have htarget := (spaced_indentation depth).writes (hname.writes ht)
    exact (htarget.append hopens hassign).writes he.writes
  · intro next' ts _ hts
    obtain ⟨u, us, rfl, hu, hus⟩ := List.map_eq_cons_iff.mp hts
    obtain ⟨v, vs, rfl, hv, hvs⟩ := List.map_eq_cons_iff.mp hus
    obtain ⟨e', he', hmatches⟩ := he.derives vs hvs
    exact ⟨_, .assign hu hv he', .assign ⟨Token.same_of_ident ht hu, rfl, rfl⟩ hmatches⟩

theorem Stmt.reprints_call (hT : CoversKind T) {u : Token} {name : String}
    (ht : t.kind = .keyword .call) (hu : u.kind = .ident name) (hname : u.Printable) :
    (Stmt.call t (.ofToken u)).Reprints T next := by
  constructor
  · intro depth
    exact (spaced_start depth (.keyword .call) rfl).writes (hname.writes hu)
  · intro next' ts _ hts
    obtain ⟨t', us, rfl, ht', hus⟩ := List.map_eq_cons_iff.mp hts
    obtain ⟨u', rfl, hu'⟩ := List.map_eq_singleton_iff.mp hus
    exact ⟨_, .call ht' hu', .call (hT (by simp) ht ht') ⟨Token.same_of_ident hu hu', rfl, rfl⟩⟩

theorem Stmt.reprints_input (hT : CoversKind T) {u : Token} {name : String}
    (ht : t.kind = .mark .question) (hu : u.kind = .ident name) (hname : u.Printable) :
    (Stmt.input t (.ofToken u)).Reprints T next := by
  constructor
  · intro depth
    exact (spaced_start depth (.mark .question) rfl).writes (hname.writes hu)
  · intro next' ts _ hts
    obtain ⟨t', us, rfl, ht', hus⟩ := List.map_eq_cons_iff.mp hts
    obtain ⟨u', rfl, hu'⟩ := List.map_eq_singleton_iff.mp hus
    exact ⟨_, .input ht' hu', .input (hT (by simp) ht ht') ⟨Token.same_of_ident hu hu', rfl, rfl⟩⟩

theorem Stmt.reprints_output (hT : CoversKind T) (ht : t.kind = .mark .bang) (he : e.Reprints T) :
    (Stmt.output t e).Reprints T next := by
  constructor
  · intro depth
    exact (spaced_start depth (.mark .bang) rfl).writes he.writes
  · intro next' ts _ hts
    obtain ⟨t', us, rfl, ht', hus⟩ := List.map_eq_cons_iff.mp hts
    obtain ⟨e', he', hmatches⟩ := he.derives us hus
    exact ⟨_, .output ht' he', .output (hT (by simp) ht ht') hmatches⟩

/-- Statements in `begin … end`, with tokens for the two words that need not be those of the tree. -/
theorem Stmt.ReprintsList.begin_derives {stop : Token} (h : Stmt.ReprintsList T stop ss)
    (hstop : ∀ u : Token, u.kind = .keyword .end → T stop u) (next' : Token) (ts : List Token)
    (hts : ts.map Token.kind = (Stmt.begin t ss).kinds) :
    ∃ t' ss', Grammar.Statement next' ts (.begin t' ss') ∧ t'.kind = .keyword .begin ∧
      Stmt.MatchesList Token.Same T ss ss' := by
  obtain ⟨front, ends, rfl, hfront, hends⟩ := List.map_eq_append_iff.mp hts
  obtain ⟨stop', rfl, hstop'⟩ := List.map_eq_singleton_iff.mp hends
  obtain ⟨t', us, rfl, ht', hus⟩ := List.map_eq_cons_iff.mp hfront
  obtain ⟨ss', hss', hmatches⟩ := h.derives stop' us (hstop stop' hstop') hus
  exact ⟨t', ss', .begin ht' hss' hstop', ht', hmatches⟩

theorem Stmt.ReprintsList.begin_writes {stop : Token} (h : Stmt.ReprintsList T stop ss)
    (depth : Nat) : Writes ((Stmt.begin t ss).text depth) (Stmt.begin t ss).kinds := by
  have hbegin : Spaced "begin\n" [.keyword .begin] :=
    spaced_lexeme (.keyword .begin) (c := '\n') (by decide) rfl
  have hinner := ((spaced_indentation depth).append hbegin).append (h.spaced (depth + 1))
  have hend : Writes "end" [.keyword .end] := writes_lexeme (.keyword .end)
  have hall := (hinner.append (spaced_indentation depth)).writes hend
  simpa only [Stmt.text, Stmt.kinds, List.nil_append, List.append_nil] using hall

theorem Stmt.reprints_begin (hT : CoversKind T) {stop : Token} (ht : t.kind = .keyword .begin)
    (hss : Stmt.ReprintsList T stop ss) (hstop : stop.kind = .keyword .end) :
    (Stmt.begin t ss).Reprints T next := by
  refine ⟨hss.begin_writes, fun next' ts _ hts => ?_⟩
  obtain ⟨t', ss', hbegin, ht', hmatches⟩ :=
    hss.begin_derives (fun u hu => hT (by simp) hstop hu) next' ts hts
  exact ⟨_, hbegin, .begin (hT (by simp) ht ht') hmatches⟩

/-- The text of `if` and `while`. -/
theorem writes_guarded {opening joint : String} {k l : TokenKind} (depth : Nat)
    (hopening : Spaced (indentation depth ++ opening) [k]) (hopens : Opens joint)
    (hjoint : Spaced joint [l]) (hguard : guard.Reprints T) (hbody : body.Reprints T next) :
    Writes (indentation depth ++ opening ++ guard.text ++ joint ++ body.text (depth + 1))
      ([k] ++ guard.kinds ++ [l] ++ body.kinds) :=
  ((hopening.writes hguard.writes).append hopens hjoint).writes (hbody.writes (depth + 1))

theorem derives_guarded {k l : TokenKind} (hguard : guard.Reprints T) (hbody : body.Reprints T next)
    {next' : Token} {ts : List Token} (hnext : T next next')
    (hts : ts.map Token.kind = [k] ++ guard.kinds ++ [l] ++ body.kinds) :
    ∃ t u us vs guard' body', ts = t :: us ++ u :: vs ∧ t.kind = k ∧ u.kind = l ∧
      Grammar.Expression us guard' ∧ guard.Matches Token.Same T guard' ∧
      Grammar.Statement next' vs body' ∧ body.Matches Token.Same T body' := by
  obtain ⟨front, vs, rfl, hfront, hvs⟩ := List.map_eq_append_iff.mp hts
  obtain ⟨start, joint, rfl, hstart, hjoint⟩ := List.map_eq_append_iff.mp hfront
  obtain ⟨u, rfl, hu⟩ := List.map_eq_singleton_iff.mp hjoint
  obtain ⟨t, us, rfl, ht, hus⟩ := List.map_eq_cons_iff.mp hstart
  obtain ⟨guard', hguard', hgmatches⟩ := hguard.derives us hus
  obtain ⟨body', hbody', hbmatches⟩ := hbody.derives next' vs hnext hvs
  exact ⟨t, u, us, vs, guard', body', by simp, ht, hu, hguard', hgmatches, hbody', hbmatches⟩

theorem Stmt.reprints_if (hT : CoversKind T) (ht : t.kind = .keyword .if)
    (hguard : guard.Reprints T) (hbody : body.Reprints T next) :
    (Stmt.if t guard body).Reprints T next := by
  constructor
  · intro depth
    have hthen : Spaced " then\n" [.keyword .then] :=
      spaced_infix (.keyword .then) (by decide) (by decide) rfl
    have hopens : Opens " then\n" := fun rest => .blank (by decide) _
    exact writes_guarded depth (spaced_start depth (.keyword .if) rfl) hopens hthen hguard hbody
  · intro next' ts hnext hts
    obtain ⟨t', u', us, vs, guard', body', rfl, ht', hu', hguard', hgmatches, hbody', hbmatches⟩ :=
      derives_guarded hguard hbody hnext hts
    exact ⟨_, .if ht' hguard' hu' hbody', .if (hT (by simp) ht ht') hgmatches hbmatches⟩

theorem Stmt.reprints_while (hT : CoversKind T) (ht : t.kind = .keyword .while)
    (hguard : guard.Reprints T) (hbody : body.Reprints T next) :
    (Stmt.while t guard body).Reprints T next := by
  constructor
  · intro depth
    have hdo : Spaced " do\n" [.keyword .do] :=
      spaced_infix (.keyword .do) (by decide) (by decide) rfl
    have hopens : Opens " do\n" := fun rest => .blank (by decide) _
    exact writes_guarded depth (spaced_start depth (.keyword .while) rfl) hopens hdo hguard hbody
  · intro next' ts hnext hts
    obtain ⟨t', u', us, vs, guard', body', rfl, ht', hu', hguard', hgmatches, hbody', hbmatches⟩ :=
      derives_guarded hguard hbody hnext hts
    exact ⟨_, .while ht' hguard' hu' hbody', .while (hT (by simp) ht ht') hgmatches hbmatches⟩

theorem Stmt.reprints_empty : (Stmt.empty next).Reprints T next := by
  refine ⟨fun _ => writes_empty, fun next' ts hnext hts => ?_⟩
  rw [List.map_eq_nil_iff.mp hts]
  exact ⟨_, .empty, .empty hnext⟩

theorem Stmt.reprintsList_one (hs : s.Reprints T next) : Stmt.ReprintsList T next [s] := by
  constructor
  · intro depth
    have hline := (hs.writes depth).append opens_newline spaced_newline
    simpa only [Stmt.textList, Stmt.kindsList, List.append_nil] using hline
  · intro next' ts hnext hts
    obtain ⟨s', hs', hmatches⟩ := hs.derives next' ts hnext hts
    exact ⟨[s'], .one hs', .cons hmatches .nil⟩

theorem Stmt.reprintsList_cons (hT : CoversKind T) {separator : Token} (hne : ss ≠ [])
    (hs : s.Reprints T separator) (hseparator : separator.kind = .mark .semicolon)
    (hss : Stmt.ReprintsList T next ss) : Stmt.ReprintsList T next (s :: ss) := by
  obtain ⟨s₂, ss, rfl⟩ := List.exists_cons_of_ne_nil hne
  constructor
  · intro depth
    exact ((hs.writes depth).append opens_semicolon spaced_semicolon).append (hss.spaced depth)
  · intro next' ts hnext hts
    obtain ⟨front, us, rfl, hfront, hus⟩ := List.map_eq_append_iff.mp hts
    obtain ⟨vs, mark, rfl, hvs, hmark⟩ := List.map_eq_append_iff.mp hfront
    obtain ⟨u, rfl, hu⟩ := List.map_eq_singleton_iff.mp hmark
    obtain ⟨s', hs', hmatches⟩ := hs.derives u vs (hT (by simp) hseparator hu) hvs
    obtain ⟨ss', hss', hrest⟩ := hss.derives next' us hnext hus
    refine ⟨s' :: ss', ?_, .cons hmatches hrest⟩
    rw [List.append_assoc]
    exact .cons hs' hu hss'

end Statements

namespace Grammar

mutual

theorem Statement.reprints (hT : CoversKind T) {next : Token} {ts : List Token} {s : Stmt} :
    Statement next ts s → (∀ t ∈ ts, t.Printable) → s.Reprints T next
  | .assign ht _ he, hts =>
    Stmt.reprints_assign ht (hts _ (by simp)) (he.reprints hT fun t ht => hts t (by simp [ht]))
  | .call ht hu, hts => Stmt.reprints_call hT ht hu (hts _ (by simp))
  | .input ht hu, hts => Stmt.reprints_input hT ht hu (hts _ (by simp))
  | .output ht he, hts =>
    Stmt.reprints_output hT ht (he.reprints hT fun t ht => hts t (by simp [ht]))
  | .begin ht hss hstop, hts =>
    Stmt.reprints_begin hT ht (hss.reprints hT fun t ht => hts t (by simp [ht])) hstop
  | .if ht hguard _ hbody, hts =>
    Stmt.reprints_if hT ht (hguard.reprints hT fun t ht => hts t (by simp [ht]))
      (hbody.reprints hT fun t ht => hts t (by simp [ht]))
  | .while ht hguard _ hbody, hts =>
    Stmt.reprints_while hT ht (hguard.reprints hT fun t ht => hts t (by simp [ht]))
      (hbody.reprints hT fun t ht => hts t (by simp [ht]))
  | .empty, _ => Stmt.reprints_empty

theorem Statements.reprints (hT : CoversKind T) {next : Token} {ts : List Token} {ss : List Stmt} :
    Statements next ts ss → (∀ t ∈ ts, t.Printable) → Stmt.ReprintsList T next ss
  | .one hs, hts => Stmt.reprintsList_one (hs.reprints hT hts)
  | .cons hs hseparator hss, hts =>
    Stmt.reprintsList_cons hT hss.ne_nil (hs.reprints hT fun t ht => hts t (by simp [ht]))
      hseparator (hss.reprints hT fun t ht => hts t (by simp [ht]))

end

end Grammar

/-! ## Declarations -/

/-- The text of the declaration is scanned into tokens of its kinds, from which a group with one
declaration of the same shape is derived. -/
structure Decl.Reprints (T : Token → Token → Prop) (d : Decl) : Prop where
  spaced : ∀ depth, Spaced (d.text depth) d.kinds
  derives : ∀ ts : List Token, ts.map Token.kind = d.kinds →
    ∃ d', Grammar.Group ts [d'] ∧ d.Matches Token.Same T d'

/-- Every declaration becomes a group of its own. -/
structure Decl.ReprintsList (T : Token → Token → Prop) (ds : List Decl) : Prop where
  spaced : ∀ depth, Spaced (Decl.textList depth ds) (Decl.kindsList ds)
  derives : ∀ ts : List Token, ts.map Token.kind = Decl.kindsList ds →
    ∃ ds', Grammar.Declarations ts ds' ∧ Decl.MatchesList Token.Same T ds ds'

section Declarations

variable {t : Token} {name : String} {d : Decl} {ds es : List Decl}

theorem matches_ofToken {u : Token} (ht : t.kind = .ident name) (hu : u.kind = .ident t.name) :
    (DeclHead.ofToken t).Matches Token.Same (.ofToken u) :=
  ⟨rfl, Token.same_of_ident ht hu, rfl, rfl⟩

theorem Decl.reprintsList_nil : Decl.ReprintsList T [] := by
  refine ⟨fun _ => spaced_empty, fun ts hts => ?_⟩
  rw [List.map_eq_nil_iff.mp hts]
  exact ⟨[], .nil, .nil⟩

theorem Decl.reprintsList_cons (hd : d.Reprints T) (hds : Decl.ReprintsList T ds) :
    Decl.ReprintsList T (d :: ds) := by
  refine ⟨fun depth => (hd.spaced depth).append (hds.spaced depth), fun ts hts => ?_⟩
  obtain ⟨us, vs, rfl, hus, hvs⟩ := List.map_eq_append_iff.mp hts
  obtain ⟨d', hd', hmatches⟩ := hd.derives us hus
  obtain ⟨ds', hds', hrest⟩ := hds.derives vs hvs
  exact ⟨d' :: ds', .cons hd' hds', .cons hmatches hrest⟩

theorem Decl.reprintsList_append (hds : ∀ d ∈ ds, d.Reprints T) (hes : Decl.ReprintsList T es) :
    Decl.ReprintsList T (ds ++ es) := by
  induction ds with
  | nil => exact hes
  | cons d ds ih =>
    obtain ⟨hd, hds⟩ := List.forall_mem_cons.mp hds
    exact Decl.reprintsList_cons hd (ih hds)

theorem Decl.reprints_const {v : Token} {value : Value} (ht : t.kind = .ident name)
    (hname : t.Printable) (hv : v.kind = .literal value) (hvalue : v.Printable) :
    (Decl.const (.ofToken t) value).Reprints T := by
  constructor
  · intro depth
    have heq : Spaced " = " [.op (.compare .eq)] :=
      spaced_infix (.op (.compare .eq)) (by decide) (by decide) rfl
    have hopens : Opens " = " := fun rest => .blank (by decide) _
    have hconst : Spaced (indentation depth ++ "const ") [.keyword .const] :=
      spaced_start depth (.keyword .const) rfl
    have hhead := (hconst.writes (hname.writes ht)).append hopens heq
    have hall := hhead.writes (writes_lexeme (hvalue.literal value hv))
    exact hall.append opens_semicolon spaced_semicolon
  · intro ts hts
    obtain ⟨w, ts₁, rfl, hw, hts₁⟩ := List.map_eq_cons_iff.mp hts
    obtain ⟨t', ts₂, rfl, ht', hts₂⟩ := List.map_eq_cons_iff.mp hts₁
    obtain ⟨u', ts₃, rfl, hu', hts₃⟩ := List.map_eq_cons_iff.mp hts₂
    obtain ⟨v', ts₄, rfl, hv', hts₄⟩ := List.map_eq_cons_iff.mp hts₃
    obtain ⟨stop, rfl, hstop⟩ := List.map_eq_singleton_iff.mp hts₄
    have hgroup := Grammar.Group.consts hw (.one (.mk ht' hu' hv')) hstop
    exact ⟨_, hgroup, .const (matches_ofToken ht ht')⟩

theorem Decl.reprints_var (ht : t.kind = .ident name) (hname : t.Printable) :
    (Decl.var (.ofToken t)).Reprints T := by
  constructor
  · intro depth
    have hvar : Spaced (indentation depth ++ "var ") [.keyword .var] :=
      spaced_start depth (.keyword .var) rfl
    exact (hvar.writes (hname.writes ht)).append opens_semicolon spaced_semicolon
  · intro ts hts
    obtain ⟨w, ts₁, rfl, hw, hts₁⟩ := List.map_eq_cons_iff.mp hts
    obtain ⟨t', ts₂, rfl, ht', hts₂⟩ := List.map_eq_cons_iff.mp hts₁
    obtain ⟨stop, rfl, hstop⟩ := List.map_eq_singleton_iff.mp hts₂
    have hgroup := Grammar.Group.vars hw (.one (.mk ht')) hstop
    exact ⟨_, hgroup, .var (matches_ofToken ht ht')⟩

theorem Decl.reprints_procedure (hT : CoversKind T) {stop : Token} {s : Stmt}
    (ht : t.kind = .ident name) (hname : t.Printable) (hds : Decl.ReprintsList T ds)
    (hs : s.Reprints T stop) (hstop : stop.kind = .mark .semicolon) :
    (Decl.procedure (.ofToken t) ds s).Reprints T := by
  constructor
  · intro depth
    have hprocedure : Spaced (indentation depth ++ "procedure ") [.keyword .procedure] :=
      spaced_start depth (.keyword .procedure) rfl
    have hhead := (hprocedure.writes (hname.writes ht)).append opens_semicolon spaced_semicolon
    have hbody := (hhead.append (hds.spaced (depth + 1))).writes (hs.writes (depth + 1))
    have hline := (hbody.append opens_newline spaced_newline).append (spaced_indentation depth)
    rw [List.append_nil, List.append_nil] at hline
    exact hline.append spaced_semicolon
  · intro ts hts
    obtain ⟨front, ends, rfl, hfront, hends⟩ := List.map_eq_append_iff.mp hts
    obtain ⟨stop', rfl, hstop'⟩ := List.map_eq_singleton_iff.mp hends
    obtain ⟨before, vs, rfl, hbefore, hvs⟩ := List.map_eq_append_iff.mp hfront
    obtain ⟨w, ts₁, rfl, hw, hts₁⟩ := List.map_eq_cons_iff.mp hbefore
    obtain ⟨t', ts₂, rfl, ht', hts₂⟩ := List.map_eq_cons_iff.mp hts₁
    obtain ⟨v', us, rfl, hv', hus⟩ := List.map_eq_cons_iff.mp hts₂
    obtain ⟨ds', hds', hdmatches⟩ := hds.derives us hus
    obtain ⟨s', hs', hsmatches⟩ := hs.derives stop' vs (hT (by simp) hstop hstop') hvs
    have hgroup := Grammar.Group.procedure hw ht' hv' (.mk hds' hs') hstop'
    exact ⟨_, hgroup, .procedure (matches_ofToken ht ht') hdmatches hsmatches⟩

end Declarations

namespace Grammar

theorem Listed.reprints {Item : List Token → Decl → Prop} {ts : List Token} {ds : List Decl}
    (hitem : ∀ ts d, Item ts d → (∀ t ∈ ts, t.Printable) → d.Reprints T)
    (h : Listed Item ts ds) (hts : ∀ t ∈ ts, t.Printable) : ∀ d ∈ ds, d.Reprints T := by
  induction h with
  | one h => exact List.forall_mem_singleton.mpr (hitem _ _ h hts)
  | cons h _ _ ih =>
    exact List.forall_mem_cons.mpr ⟨hitem _ _ h fun t ht => hts t (by simp [ht]),
      ih fun t ht => hts t (by simp [ht])⟩

theorem Constant.reprints {ts : List Token} {d : Decl} (h : Constant ts d)
    (hts : ∀ t ∈ ts, t.Printable) : d.Reprints T := by
  cases h with
  | mk ht _ hv => exact Decl.reprints_const ht (hts _ (by simp)) hv (hts _ (by simp))

theorem Variable.reprints {ts : List Token} {d : Decl} (h : Variable ts d)
    (hts : ∀ t ∈ ts, t.Printable) : d.Reprints T := by
  cases h with
  | mk ht => exact Decl.reprints_var ht (hts _ (by simp))

mutual

theorem Group.reprints (hT : CoversKind T) {ts : List Token} {ds : List Decl} : Group ts ds →
    (∀ t ∈ ts, t.Printable) → ∀ d ∈ ds, d.Reprints T
  | .consts _ h _, hts =>
    h.reprints (fun _ _ hd => hd.reprints) fun t ht => hts t (by simp [ht])
  | .vars _ h _, hts =>
    h.reprints (fun _ _ hd => hd.reprints) fun t ht => hts t (by simp [ht])
  | .procedure _ hu _ hb hstop, hts => by
    obtain ⟨hds, hs⟩ := hb.reprints hT fun t ht => hts t (by simp [ht])
    exact List.forall_mem_singleton.mpr
      (Decl.reprints_procedure hT hu (hts _ (by simp)) hds hs hstop)

theorem Declarations.reprints (hT : CoversKind T) {ts : List Token} {ds : List Decl} :
    Declarations ts ds → (∀ t ∈ ts, t.Printable) → Decl.ReprintsList T ds
  | .nil, _ => Decl.reprintsList_nil
  | .cons hgroup hds, hts =>
    Decl.reprintsList_append (hgroup.reprints hT fun t ht => hts t (by simp [ht]))
      (hds.reprints hT fun t ht => hts t (by simp [ht]))

theorem Block.reprints (hT : CoversKind T) {next : Token} {ts : List Token} {b : PLZero.Block} :
    Block next ts b → (∀ t ∈ ts, t.Printable) →
    Decl.ReprintsList T b.decls ∧ b.stmt.Reprints T next
  | .mk hds hs, hts =>
    ⟨hds.reprints hT fun t ht => hts t (by simp [ht]),
      hs.reprints hT fun t ht => hts t (by simp [ht])⟩

end

end Grammar

end Reprints

end PLZero
