import Mathlib.Data.List.Forall2
import PLZero.Proofs.Tree.Matching
import PLZero.Proofs.Tree.Counting

/-!
# Parsing renamed tokens

Two token lists in which the kinds agree, up to a renaming of identifiers, are parsed alike: into
trees that match, or into faults of one class.  Neither places nor texts of tokens have a part in it.

A renaming is a relation between names that is one to one (`Relator.BiUnique`).

* `Agrees` — what holds of two results, or of two faults.
* `Parser.Agree` — two parsers do the same on lists that correspond.  One lemma for each way in which
  parsers are put together, then one for each rule of the grammar.
* `Program.agrees_ofTokens` — the result for programs.
-/

namespace PLZero

/-- The two diagnostics are of one class. -/
def Diagnostic.SameVariant (d d' : Diagnostic) : Prop := d'.ctorIdx = d.ctorIdx

/-- Both succeed, with results related by `R`, or both fail, with faults related by `F`. -/
inductive Agrees {ε ε' α α' : Type} (F : ε → ε' → Prop) (R : α → α' → Prop) :
    Except ε α → Except ε' α' → Prop where
  | ok {a : α} {a' : α'} : R a a' → Agrees F R (.ok a) (.ok a')
  | error {f : ε} {f' : ε'} : F f f' → Agrees F R (.error f) (.error f')

section Agrees

variable {ε ε' α α' β β' : Type} {F : ε → ε' → Prop} {R : α → α' → Prop} {S : β → β' → Prop}
  {x : Except ε α} {x' : Except ε' α'}

theorem Agrees.bind {f : α → Except ε β} {f' : α' → Except ε' β'} (h : Agrees F R x x')
    (hf : ∀ a a', R a a' → Agrees F S (f a) (f' a')) : Agrees F S (x >>= f) (x' >>= f') := by
  cases h with
  | ok ha => exact hf _ _ ha
  | error hfault => exact .error hfault

theorem Agrees.bind_eq {x x' : Except ε α} {f f' : α → Except ε β} {F : ε → ε → Prop}
    {S : β → β → Prop} (h : Agrees F Eq x x') (hf : ∀ a, Agrees F S (f a) (f' a)) :
    Agrees F S (x >>= f) (x' >>= f') := by
  refine h.bind fun a a' ha => ?_
  rw [← ha]
  exact hf a

theorem Agrees.map {f : α → β} {f' : α' → β'} (h : Agrees F R x x')
    (hf : ∀ a a', R a a' → S (f a) (f' a')) : Agrees F S (f <$> x) (f' <$> x') := by
  cases h with
  | ok ha => exact .ok (hf _ _ ha)
  | error hfault => exact .error hfault

end Agrees

/-! ## Renamed tokens -/

/-- The kinds are the same, but for the names of identifiers, which are related by `r`. -/
inductive TokenKind.Renames (r : String → String → Prop) : TokenKind → TokenKind → Prop where
  | ident {name name' : String} : r name name' → Renames r (.ident name) (.ident name')
  | other {kind : TokenKind} : (∀ name, kind ≠ .ident name) → Renames r kind kind

def Token.Renames (r : String → String → Prop) (t u : Token) : Prop := t.kind.Renames r u.kind

def Token.NameRenames (r : String → String → Prop) (t u : Token) : Prop := r t.name u.name

section Renames

variable {r : String → String → Prop} {t u : Token} {kind : TokenKind} {name : String}

theorem Token.Renames.ident (h : t.Renames r u) (ht : t.kind = .ident name) :
    ∃ name', u.kind = .ident name' ∧ t.NameRenames r u := by
  unfold Token.Renames at h
  rw [ht] at h
  generalize hu : u.kind = kind at h
  cases h with
  | ident hname =>
    refine ⟨_, rfl, ?_⟩
    simpa only [Token.NameRenames, Token.name, ht, hu] using hname
  | other hother => exact absurd rfl (hother name)

/-- The second token is of the kind of the first, if that is not an identifier. -/
theorem Token.Renames.kind_eq (h : t.Renames r u) (ht : t.kind = kind)
    (hkind : ∀ name, kind ≠ .ident name) : u.kind = kind := by
  unfold Token.Renames at h
  rw [ht] at h
  generalize u.kind = kind' at h
  cases h with
  | ident => exact absurd rfl (hkind _)
  | other => rfl

theorem Token.Renames.kind_iff (h : t.Renames r u) (hkind : ∀ name, kind ≠ .ident name) :
    u.kind = kind ↔ t.kind = kind := by
  refine ⟨fun hu => ?_, fun ht => h.kind_eq ht hkind⟩
  unfold Token.Renames at h
  rw [hu] at h
  generalize t.kind = kind' at h
  cases h with
  | ident => exact absurd rfl (hkind _)
  | other => rfl

theorem Token.Renames.op?_eq (h : t.Renames r u) : u.kind.op? = t.kind.op? := by
  unfold Token.Renames at h
  generalize t.kind = kind at h
  generalize u.kind = kind' at h
  cases h <;> rfl

end Renames

/-- The trees match, with names related by `r`; the other tokens may be any. -/
abbrev Expr.Renames (r : String → String → Prop) : Expr → Expr → Prop :=
  Expr.Matches (Token.NameRenames r) fun _ _ => True

abbrev Stmt.Renames (r : String → String → Prop) : Stmt → Stmt → Prop :=
  Stmt.Matches (Token.NameRenames r) fun _ _ => True

abbrev Stmt.RenamesList (r : String → String → Prop) : List Stmt → List Stmt → Prop :=
  Stmt.MatchesList (Token.NameRenames r) fun _ _ => True

abbrev Decl.Renames (r : String → String → Prop) : Decl → Decl → Prop :=
  Decl.Matches (Token.NameRenames r) fun _ _ => True

abbrev Decl.RenamesList (r : String → String → Prop) : List Decl → List Decl → Prop :=
  Decl.MatchesList (Token.NameRenames r) fun _ _ => True

abbrev Block.Renames (r : String → String → Prop) : Block → Block → Prop :=
  Block.Matches (Token.NameRenames r) fun _ _ => True

abbrev Program.Renames (r : String → String → Prop) : Program → Program → Prop :=
  Program.Matches (Token.NameRenames r) fun _ _ => True

/-- The faults are of one class. -/
def ParseFault.Same (f f' : ParseFault) : Prop := f.diagnostic.SameVariant f'.diagnostic

namespace Parser

variable {α β : Type} {r : String → String → Prop} {t u : Token}

/-- On lists that correspond the parsers give results with `R`, and leave lists that correspond. -/
def Agree (r : String → String → Prop) (m m' : Parser α) (R : α → α → Prop) : Prop :=
  ∀ ts us, List.Forall₂ (Token.Renames r) ts us →
    Agrees ParseFault.Same (fun x y => R x.1 y.1 ∧ List.Forall₂ (Token.Renames r) x.2 y.2) (m ts) (m' us)

/-- The same for lists that start with `t` and `u`. -/
def AgreeAt (r : String → String → Prop) (t u : Token) (m m' : Parser α) (R : α → α → Prop) : Prop :=
  ∀ ts us, List.Forall₂ (Token.Renames r) ts us →
    Agrees ParseFault.Same (fun x y => R x.1 y.1 ∧ List.Forall₂ (Token.Renames r) x.2 y.2)
      (m (t :: ts)) (m' (u :: us))

/-! ## Putting parsers together -/

section Rules

variable {R : α → α → Prop} {S : β → β → Prop} {m m' : Parser α} {f f' : α → Parser β}

theorem Agree.pure {a a' : α} (h : R a a') : Agree r (Pure.pure a) (Pure.pure a') R :=
  fun _ _ hts => .ok ⟨h, hts⟩

theorem Agree.bind (hm : Agree r m m' R) (hf : ∀ a a', R a a' → Agree r (f a) (f' a') S) :
    Agree r (m >>= f) (m' >>= f') S :=
  fun ts us hts => (hm ts us hts).bind fun x y hxy => hf x.1 y.1 hxy.1 x.2 y.2 hxy.2

theorem Agree.at (hm : Agree r m m' R) (h : t.Renames r u) : AgreeAt r t u m m' R :=
  fun ts us hts => hm (t :: ts) (u :: us) (.cons h hts)

theorem Agree.throw (fault : ParseFault) : Agree r (throw fault : Parser α) (throw fault) R :=
  fun _ _ _ => .error rfl

theorem Agree.peek {f f' : Token → Parser β}
    (hf : ∀ t u, t.Renames r u → AgreeAt r t u (f t) (f' u) S) :
    Agree r (Parser.peek >>= f) (Parser.peek >>= f') S := by
  intro ts us hts
  cases hts with
  | nil => exact .error rfl
  | cons h hts => exact hf _ _ h _ _ hts

theorem AgreeAt.next {f f' : Token → Parser β} (hf : Agree r (f t) (f' u) S) :
    AgreeAt r t u (Parser.next >>= f) (Parser.next >>= f') S :=
  fun ts us hts => hf ts us hts

theorem AgreeAt.unexpected (expected : Expected) :
    AgreeAt r t u (Parser.unexpected expected : Parser α) (Parser.unexpected expected) R :=
  fun _ _ _ => .error rfl

/-- Corresponding tokens are of the same kind, if that is not an identifier. -/
theorem agree_expect {kind : TokenKind} (hkind : ∀ name, kind ≠ .ident name) :
    Agree r (expect kind) (expect kind) fun _ _ => True := by
  refine .peek fun t u h => ?_
  have hiff := h.kind_iff hkind
  by_cases ht : t.kind = kind
  · rw [if_pos ht, if_pos (hiff.mpr ht)]
    exact fun _ _ hts => .ok ⟨trivial, hts⟩
  · rw [if_neg ht, if_neg (mt hiff.mp ht)]
    exact .unexpected _

theorem agree_ident : Agree r ident ident (Token.NameRenames r) := by
  refine .peek fun t u h => ?_
  cases ht : t.kind with
  | ident name =>
    obtain ⟨name', hu, hname⟩ := h.ident ht
    simp only [hu]
    exact fun _ _ hts => .ok ⟨hname, hts⟩
  | _ =>
    simp only [h.kind_eq ht (by simp)]
    exact .unexpected _

theorem agree_literal : Agree r literal literal Eq := by
  refine .peek fun t u h => ?_
  cases ht : t.kind with
  | literal value =>
    simp only [h.kind_eq ht (by simp)]
    exact .next (.pure rfl)
  | ident name =>
    obtain ⟨name', hu, -⟩ := h.ident ht
    simp only [hu]
    exact .unexpected _
  | _ =>
    simp only [h.kind_eq ht (by simp)]
    exact .unexpected _

theorem agree_sepBy1 {item : Parser α} {separator : TokenKind}
    (hseparator : ∀ name, separator ≠ .ident name) (h : Agree r item item R) (budget : Nat) :
    Agree r (sepBy1 item separator budget) (sepBy1 item separator budget) (List.Forall₂ R) := by
  induction budget with
  | zero => exact .throw _
  | succ budget ih =>
    refine h.bind fun a a' ha => .peek fun t u htu => ?_
    have hiff := htu.kind_iff hseparator
    by_cases ht : t.kind = separator
    · rw [if_pos ht, if_pos (hiff.mpr ht)]
      exact .next (ih.bind fun as as' has => .pure (.cons ha has))
    · rw [if_neg ht, if_neg (mt hiff.mp ht)]
      exact (Agree.pure (.cons ha .nil)).at htu

end Rules

/-! ## Expressions -/

section Expressions

variable {sub : Parser Expr}

theorem agree_chain {level : Op → Bool} (h : Agree r sub sub (Expr.Renames r)) (budget : Nat)
    {lhs lhs' : Expr} (hlhs : lhs.Renames r lhs') :
    Agree r (chain level sub budget lhs) (chain level sub budget lhs') (Expr.Renames r) := by
  induction budget generalizing lhs lhs' with
  | zero => exact .throw _
  | succ budget ih =>
    refine .peek fun t u htu => ?_
    rw [htu.op?_eq]
    cases t.kind.op?.filter level with
    | some op => exact .next (h.bind fun rhs rhs' hrhs => ih (.binary trivial hlhs hrhs))
    | none => exact (Agree.pure hlhs).at htu

theorem agree_primary (h : Agree r sub sub (Expr.Renames r)) :
    Agree r (primary sub) (primary sub) (Expr.Renames r) := by
  refine .peek fun t u htu => ?_
  cases ht : t.kind with
  | ident name =>
    obtain ⟨name', hu, hname⟩ := htu.ident ht
    simp only [hu]
    exact .next (.pure (.use ⟨hname, rfl, rfl⟩))
  | literal value =>
    simp only [htu.kind_eq ht (by simp)]
    exact .next (.pure (.literal trivial))
  | mark mark =>
    simp only [htu.kind_eq ht (by simp)]
    cases mark with
    | leftParen =>
      exact .next (h.bind fun e e' he => (agree_expect (by simp)).bind fun _ _ _ => .pure he)
    | _ => exact .unexpected _
  | _ =>
    simp only [htu.kind_eq ht (by simp)]
    exact .unexpected _

theorem agree_term (h : Agree r sub sub (Expr.Renames r)) (budget : Nat) :
    Agree r (term budget sub) (term budget sub) (Expr.Renames r) :=
  (agree_primary h).bind fun _ _ he => agree_chain (agree_primary h) budget he

theorem agree_additive (h : Agree r sub sub (Expr.Renames r)) (budget : Nat) :
    Agree r (additive budget sub) (additive budget sub) (Expr.Renames r) :=
  (agree_term h budget).bind fun _ _ he => agree_chain (agree_term h budget) budget he

theorem agree_comparison (h : Agree r sub sub (Expr.Renames r)) (budget : Nat) :
    Agree r (comparison budget sub) (comparison budget sub) (Expr.Renames r) := by
  refine (agree_additive h budget).bind fun lhs lhs' hlhs => .peek fun t u htu => ?_
  rw [htu.op?_eq]
  cases t.kind.op?.filter Op.isRelational with
  | none => exact (Agree.pure hlhs).at htu
  | some op =>
    refine .next ((agree_additive h budget).bind fun rhs rhs' hrhs => .peek fun t' u' htu' => ?_)
    have hrelational : u'.kind.isRelational = t'.kind.isRelational := by
      rw [TokenKind.isRelational, htu'.op?_eq, TokenKind.isRelational]
    rw [hrelational]
    cases t'.kind.isRelational with
    | true => exact .unexpected _
    | false => exact (Agree.pure (.binary trivial hlhs hrhs)).at htu'

theorem agree_expression (budget : Nat) :
    Agree r (expression budget) (expression budget) (Expr.Renames r) := by
  induction budget with
  | zero => exact .throw _
  | succ budget ih => exact agree_comparison ih _

end Expressions

/-! ## Statements -/

section Statements

theorem renamesList_of_forall₂ {ss ss' : List Stmt} (h : List.Forall₂ (Stmt.Renames r) ss ss') :
    Stmt.RenamesList r ss ss' := by
  induction h with
  | nil => exact .nil
  | cons hs _ ih => exact .cons hs ih

theorem agree_simpleStatement {sub : Parser Stmt} (h : Agree r sub sub (Stmt.Renames r))
    (budget : Nat) :
    Agree r (simpleStatement budget sub) (simpleStatement budget sub) (Stmt.Renames r) := by
  have hexpr := agree_expression (r := r) budget
  refine .peek fun t u htu => ?_
  have hempty : AgreeAt r t u (pure (Stmt.empty t)) (pure (.empty u)) (Stmt.Renames r) :=
    (Agree.pure (.empty trivial)).at htu
  cases ht : t.kind with
  | ident name =>
    obtain ⟨name', hu, hname⟩ := htu.ident ht
    simp only [hu]
    exact .next ((agree_expect (by simp)).bind fun _ _ _ =>
      hexpr.bind fun e e' he => .pure (.assign ⟨hname, rfl, rfl⟩ he))
  | keyword word =>
    simp only [htu.kind_eq ht (by simp)]
    cases word with
    | call =>
      exact .next (agree_ident.bind fun _ _ hname => .pure (.call trivial ⟨hname, rfl, rfl⟩))
    | begin =>
      exact .next ((agree_sepBy1 (by simp) h budget).bind fun ss ss' hss =>
        (agree_expect (by simp)).bind fun _ _ _ =>
          .pure (.begin trivial (renamesList_of_forall₂ hss)))
    | «if» =>
      exact .next (hexpr.bind fun g g' hg => (agree_expect (by simp)).bind fun _ _ _ =>
        h.bind fun b b' hb => .pure (.if trivial hg hb))
    | «while» =>
      exact .next (hexpr.bind fun g g' hg => (agree_expect (by simp)).bind fun _ _ _ =>
        h.bind fun b b' hb => .pure (.while trivial hg hb))
    | _ => exact hempty
  | mark mark =>
    simp only [htu.kind_eq ht (by simp)]
    cases mark with
    | question =>
      exact .next (agree_ident.bind fun _ _ hname => .pure (.input trivial ⟨hname, rfl, rfl⟩))
    | bang => exact .next (hexpr.bind fun e e' he => .pure (.output trivial he))
    | _ => exact hempty
  | _ =>
    simp only [htu.kind_eq ht (by simp)]
    exact hempty

theorem agree_statement (budget : Nat) :
    Agree r (statement budget) (statement budget) (Stmt.Renames r) := by
  induction budget with
  | zero => exact .throw _
  | succ budget ih => exact agree_simpleStatement ih _

end Statements

/-! ## Declarations -/

section Declarations

theorem agree_constantDecl : Agree r constantDecl constantDecl (Decl.Renames r) := by
  refine agree_ident.bind fun t u hname => (agree_expect (by simp)).bind fun _ _ _ => ?_
  refine agree_literal.bind fun value value' hvalue => .pure ?_
  subst hvalue
  exact .const ⟨rfl, hname, rfl, rfl⟩

theorem agree_variableDecl : Agree r variableDecl variableDecl (Decl.Renames r) :=
  agree_ident.bind fun _ _ hname => .pure (.var ⟨rfl, hname, rfl, rfl⟩)

theorem agree_procedureDecl {sub : Parser Block} (h : Agree r sub sub (Block.Renames r)) :
    Agree r (procedureDecl sub) (procedureDecl sub) (Decl.Renames r) :=
  agree_ident.bind fun _ _ hname => (agree_expect (by simp)).bind fun _ _ _ =>
    h.bind fun _ _ hb => .pure (.procedure ⟨rfl, hname, rfl, rfl⟩ hb.decls hb.stmt)

theorem agree_group {sub : Parser Block} (h : Agree r sub sub (Block.Renames r)) (budget : Nat) :
    Agree r (group budget sub) (group budget sub) (List.Forall₂ (Decl.Renames r)) := by
  refine .peek fun t u htu => ?_
  have hnone : AgreeAt r t u (pure []) (pure []) (List.Forall₂ (Decl.Renames r)) :=
    (Agree.pure .nil).at htu
  cases ht : t.kind with
  | keyword word =>
    simp only [htu.kind_eq ht (by simp)]
    cases word with
    | const =>
      exact .next ((agree_sepBy1 (by simp) agree_constantDecl budget).bind fun _ _ hds =>
        (agree_expect (by simp)).bind fun _ _ _ => .pure hds)
    | var =>
      exact .next ((agree_sepBy1 (by simp) agree_variableDecl budget).bind fun _ _ hds =>
        (agree_expect (by simp)).bind fun _ _ _ => .pure hds)
    | procedure =>
      exact .next ((agree_procedureDecl h).bind fun _ _ hd =>
        (agree_expect (by simp)).bind fun _ _ _ => .pure (.cons hd .nil))
    | _ => exact hnone
  | ident name =>
    obtain ⟨name', hu, -⟩ := htu.ident ht
    simp only [hu]
    exact hnone
  | _ =>
    simp only [htu.kind_eq ht (by simp)]
    exact hnone

/-- A renaming that keeps names apart keeps apart those that were seen. -/
theorem agree_distinct (hr : Relator.BiUnique r) {ds ds' : List Decl}
    (h : List.Forall₂ (Decl.Renames r) ds ds') {seen seen' : List String}
    (hseen : List.Forall₂ r seen seen') :
    Agree r (liftM (distinct seen ds) : Parser (List String)) (liftM (distinct seen' ds'))
      (List.Forall₂ r) := by
  induction h generalizing seen seen' with
  | nil => exact fun _ _ hts => .ok ⟨hseen, hts⟩
  | @cons d d' ds ds' hd _ ih =>
    have hname : r d.name d'.name := hd.head.token
    have hiff : d.name ∈ seen ↔ d'.name ∈ seen' := List.rel_mem hr hname hseen
    by_cases hmem : d.name ∈ seen
    · rw [distinct, if_pos hmem, distinct, if_pos (hiff.mp hmem)]
      exact fun _ _ _ => .error rfl
    · rw [distinct, if_neg hmem, distinct, if_neg (mt hiff.mpr hmem)]
      exact ih (.cons hname hseen)

theorem matchesList_append {N T : Token → Token → Prop} {ds ds' es es' : List Decl}
    (h : List.Forall₂ (Decl.Matches N T) ds ds') (hes : Decl.MatchesList N T es es') :
    Decl.MatchesList N T (ds ++ es) (ds' ++ es') := by
  induction h with
  | nil => exact hes
  | cons hd _ ih => exact .cons hd ih

theorem agree_declarations (hr : Relator.BiUnique r) {sub : Parser Block}
    (h : Agree r sub sub (Block.Renames r)) (budget : Nat) {seen seen' : List String}
    (hseen : List.Forall₂ r seen seen') :
    Agree r (declarations sub budget seen) (declarations sub budget seen')
      (Decl.RenamesList r) := by
  induction budget generalizing seen seen' with
  | zero => exact .throw _
  | succ budget ih =>
    refine (agree_group h budget).bind fun ds ds' hds => ?_
    cases hds with
    | nil => exact .pure .nil
    | cons hd hds =>
      refine (agree_distinct hr (.cons hd hds) hseen).bind fun seen seen' hseen => ?_
      exact (ih hseen).bind fun es es' hes => .pure (matchesList_append (.cons hd hds) hes)

theorem agree_block (hr : Relator.BiUnique r) (budget : Nat) :
    Agree r (block budget) (block budget) (Block.Renames r) := by
  induction budget with
  | zero => exact .throw _
  | succ budget ih =>
    exact (agree_declarations hr ih _ .nil).bind fun _ _ hds =>
      (agree_statement _).bind fun _ _ hs => .pure ⟨hds, hs⟩

end Declarations

/-! ## Programs -/

theorem renames_ofSequence {t u : Token} {ss ss' : List Stmt}
    (h : List.Forall₂ (Stmt.Renames r) ss ss') :
    (ofSequence t ss).Renames r (ofSequence u ss') := by
  cases h with
  | nil => exact .empty trivial
  | cons hs hss =>
    cases hss with
    | nil => exact hs
    | cons hs' hss => exact .begin trivial (.cons hs (.cons hs' (renamesList_of_forall₂ hss)))

theorem agree_program (hr : Relator.BiUnique r) (budget : Nat) :
    Agree r (program budget) (program budget) (Program.Renames r) := by
  refine .peek fun t u htu => Agree.at ?_ htu
  refine (agree_declarations hr (agree_block hr budget) budget .nil).bind fun ds ds' hds => ?_
  refine (agree_sepBy1 (by simp) (agree_statement budget) budget).bind fun ss ss' hss => ?_
  refine (agree_expect (by simp)).bind fun _ _ _ => (agree_expect (by simp)).bind fun _ _ _ => ?_
  exact .pure (Block.Matches.program ⟨hds, renames_ofSequence hss⟩ trivial)

end Parser

theorem Program.agrees_ofTokens {r : String → String → Prop} (hr : Relator.BiUnique r)
    {ts us : List Token} (h : List.Forall₂ (Token.Renames r) ts us) :
    Agrees ParseFault.Same (Program.Renames r) (ofTokens ts) (ofTokens us) := by
  have hrun := Parser.agree_program hr (ts.length + 1) ts us h
  rw [ofTokens_eq, ofTokens_eq, ← h.length_eq]
  exact hrun.map fun x y hxy => hxy.1

end PLZero
