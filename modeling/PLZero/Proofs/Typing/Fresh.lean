import PLZero.Proofs.Tree.Walk
import PLZero.Proofs.Typing.Signature
import PLZero.Proofs.Scope.Nested
import PLZero.Proofs.Tree.Counting

/-!
# Trees from the parser

A tree fresh from the parser has no types, and binding its names gives it none:

* `Parser.Yields` — what a parser says of every tree it gives; one lemma for each way in which
  parsers are put together, then one for each rule of the grammar.
* `Program.fresh_ofTokens`, `Program.fresh_resolve` — the program that tokens make up is fresh, and
  is still so with its names bound.
-/

namespace PLZero

/-! ## Parsers and what they give -/

namespace Parser

variable {α β : Type} {P : α → Prop} {Q : β → Prop}

/-- Whatever the parser gives satisfies `P`. -/
def Yields (P : α → Prop) (m : Parser α) : Prop :=
  ∀ tokens a rest, m tokens = .ok (a, rest) → P a

theorem Yields.pure {a : α} (h : P a) : Yields P (Pure.pure a : Parser α) := by
  intro tokens b rest hb
  cases hb
  exact h

theorem Yields.throw (f : ParseFault) : Yields P (throw f : Parser α) := by
  intro tokens b rest hb
  cases hb

theorem Yields.bind {m : Parser β} {f : β → Parser α} (hm : Yields Q m)
    (hf : ∀ b, Q b → Yields P (f b)) : Yields P (m >>= f) := by
  intro tokens a rest h
  simp only [Bind.bind, StateT.bind, Except.bind] at h
  split at h
  · cases h
  · rename_i r hr
    exact hf r.1 (hm tokens r.1 r.2 hr) r.2 a rest h

/-- What is read first does not matter. -/
theorem Yields.after {m : Parser β} {f : β → Parser α} (hf : ∀ b, Yields P (f b)) :
    Yields P (m >>= f) :=
  Yields.bind (Q := fun _ => True) (fun _ _ _ _ => trivial) fun b _ => hf b

theorem yields_unexpected (expected : Expected) : Yields P (unexpected expected : Parser α) :=
  .after fun _ => .throw _

theorem yields_sepBy1 {item : Parser α} (h : Yields P item) (separator : TokenKind) (budget : Nat) :
    Yields (fun as => ∀ a ∈ as, P a) (sepBy1 item separator budget) := by
  induction budget with
  | zero => exact .throw _
  | succ n ih =>
    refine .bind h fun a ha => .after fun t => ?_
    split
    · refine .after fun _ => .bind ih fun as has => .pure ?_
      exact List.forall_mem_cons.mpr ⟨ha, has⟩
    · exact .pure (by simpa using ha)

/-! ## Expressions -/

/-- The expression has no types. -/
abbrev BareExpr (e : Expr) : Prop := e.untyped = e

theorem bareExpr_binary {token : Token} {op : Op} {lhs rhs : Expr} (hl : BareExpr lhs)
    (hr : BareExpr rhs) : BareExpr (.binary token none op lhs rhs) := by
  rw [BareExpr, Expr.untyped, hl, hr]

variable {sub : Parser Expr}

theorem yields_chain (level : Op → Bool) (h : Yields BareExpr sub) (budget : Nat) {lhs : Expr}
    (hlhs : BareExpr lhs) : Yields BareExpr (chain level sub budget lhs) := by
  induction budget generalizing lhs with
  | zero => exact .throw _
  | succ n ih =>
    refine .after fun t => ?_
    split
    · exact .after fun _ => .bind h fun rhs hrhs => ih (bareExpr_binary hlhs hrhs)
    · exact .pure hlhs

theorem yields_primary (h : Yields BareExpr sub) : Yields BareExpr (primary sub) := by
  refine .after fun t => ?_
  split
  · exact .after fun _ => .pure rfl
  · exact .after fun _ => .pure rfl
  · exact .after fun _ => .bind h fun e he => .after fun _ => .pure he
  · exact yields_unexpected _

theorem yields_term (budget : Nat) (h : Yields BareExpr sub) : Yields BareExpr (term budget sub) :=
  .bind (yields_primary h) fun _ he => yields_chain _ (yields_primary h) budget he

theorem yields_additive (budget : Nat) (h : Yields BareExpr sub) :
    Yields BareExpr (additive budget sub) :=
  .bind (yields_term budget h) fun _ he => yields_chain _ (yields_term budget h) budget he

theorem yields_comparison (budget : Nat) (h : Yields BareExpr sub) :
    Yields BareExpr (comparison budget sub) := by
  refine .bind (yields_additive budget h) fun lhs hlhs => .after fun t => ?_
  split
  · exact .pure hlhs
  · refine .after fun _ => .bind (yields_additive budget h) fun rhs hrhs => .after fun t => ?_
    split
    · exact yields_unexpected _
    · exact .pure (bareExpr_binary hlhs hrhs)

theorem yields_expression (budget : Nat) : Yields BareExpr (expression budget) := by
  induction budget with
  | zero => exact .throw _
  | succ n ih => exact yields_comparison _ ih

/-! ## Statements -/

abbrev BareStmt (s : Stmt) : Prop := s.untyped = s

theorem untypedList_eq {ss : List Stmt} (h : ∀ s ∈ ss, BareStmt s) : Stmt.untypedList ss = ss := by
  induction ss with
  | nil => rfl
  | cons s ss ih =>
    rw [List.forall_mem_cons] at h
    rw [Stmt.untypedList, h.1, ih h.2]

theorem yields_simpleStatement (budget : Nat) {sub : Parser Stmt} (h : Yields BareStmt sub) :
    Yields BareStmt (simpleStatement budget sub) := by
  have hexpr := yields_expression budget
  refine .after fun t => ?_
  split
  · refine .after fun _ => .after fun _ => .bind hexpr fun e he => .pure ?_
    rw [BareStmt, Stmt.untyped, he]
  · exact .after fun _ => .after fun _ => .pure rfl
  · exact .after fun _ => .after fun _ => .pure rfl
  · refine .after fun _ => .bind hexpr fun e he => .pure ?_
    rw [BareStmt, Stmt.untyped, he]
  · refine .after fun _ => .bind (yields_sepBy1 h _ _) fun ss hss => .after fun _ => .pure ?_
    rw [BareStmt, Stmt.untyped, untypedList_eq hss]
  · refine .after fun _ => .bind hexpr fun e he => .after fun _ => .bind h fun s hs => .pure ?_
    rw [BareStmt, Stmt.untyped, he, hs]
  · refine .after fun _ => .bind hexpr fun e he => .after fun _ => .bind h fun s hs => .pure ?_
    rw [BareStmt, Stmt.untyped, he, hs]
  · exact .pure rfl

theorem yields_statement (budget : Nat) : Yields BareStmt (statement budget) := by
  induction budget with
  | zero => exact .throw _
  | succ n ih => exact yields_simpleStatement _ ih

/-! ## Declarations -/

abbrev BareDecl (d : Decl) : Prop := d.untyped = d

abbrev BareBlock (b : Block) : Prop := b.untyped = b

theorem untypedList_eq_iff {ds : List Decl} : Decl.untypedList ds = ds ↔ ∀ d ∈ ds, BareDecl d := by
  induction ds with
  | nil => simp [Decl.untypedList]
  | cons d ds ih => rw [Decl.untypedList, List.forall_mem_cons, ← ih, List.cons.injEq]

theorem yields_procedureDecl {sub : Parser Block} (h : Yields BareBlock sub) :
    Yields BareDecl (procedureDecl sub) := by
  refine .after fun t => .after fun _ => .bind h fun b hb => .pure ?_
  obtain ⟨hdecls, hstmt⟩ := Block.mk.inj hb
  rw [BareDecl, Decl.untyped, hdecls, hstmt]
  rfl

theorem yields_group (budget : Nat) {sub : Parser Block} (h : Yields BareBlock sub) :
    Yields (fun ds => ∀ d ∈ ds, BareDecl d) (group budget sub) := by
  have hconst : Yields BareDecl constantDecl :=
    .after fun t => .after fun _ => .after fun _ => .pure rfl
  have hvar : Yields BareDecl variableDecl := .after fun t => .pure rfl
  refine .after fun t => ?_
  split
  · exact .after fun _ => .bind (yields_sepBy1 hconst _ _) fun ds hds => .after fun _ => .pure hds
  · exact .after fun _ => .bind (yields_sepBy1 hvar _ _) fun ds hds => .after fun _ => .pure hds
  · exact .after fun _ => .bind (yields_procedureDecl h) fun d hd => .after fun _ =>
      .pure (by simpa using hd)
  · exact .pure (by simp)

theorem yields_declarations {sub : Parser Block} (h : Yields BareBlock sub) (budget : Nat)
    (seen : List String) :
    Yields (fun ds => ∀ d ∈ ds, BareDecl d) (declarations sub budget seen) := by
  induction budget generalizing seen with
  | zero => exact .throw _
  | succ n ih =>
    refine .bind (yields_group n h) fun ds hds => ?_
    split
    · exact .pure (by simp)
    · refine .after fun seen => .bind (ih seen) fun ds' hds' => .pure ?_
      exact List.forall_mem_append.mpr ⟨hds, hds'⟩

theorem yields_block (budget : Nat) : Yields BareBlock (block budget) := by
  induction budget with
  | zero => exact .throw _
  | succ n ih =>
    refine .bind (yields_declarations ih _ _) fun ds hds =>
      .bind (yields_statement _) fun s hs => .pure ?_
    rw [BareBlock, Block.untyped, untypedList_eq_iff.mpr hds, hs]

end Parser

/-! ## Programs -/

mutual

theorem Decl.untyped_number (next : Nat) :
    (d : Decl) → (d.number next).1.untyped = (d.untyped.number next).1 ∧
      (d.untyped.number next).2 = (d.number next).2
  | .const .. | .var _ => ⟨rfl, rfl⟩
  | .procedure head decls stmt => by
    obtain ⟨htree, hnext⟩ := Decl.untypedList_number (next + 1) decls
    simp only [Decl.number, Decl.untyped, htree, hnext, and_true]
    rfl

theorem Decl.untypedList_number (next : Nat) :
    (ds : List Decl) →
      Decl.untypedList (Decl.numberList next ds).1 =
        (Decl.numberList next (Decl.untypedList ds)).1 ∧
      (Decl.numberList next (Decl.untypedList ds)).2 = (Decl.numberList next ds).2
  | [] => ⟨rfl, rfl⟩
  | d :: ds => by
    obtain ⟨hd, hnext⟩ := Decl.untyped_number next d
    obtain ⟨hds, hlast⟩ := Decl.untypedList_number (d.number next).2 ds
    simp only [Decl.numberList, Decl.untypedList, hd, hnext, hds, hlast, and_self]

end

namespace Program

theorem fresh_ofBlock (token : Token) {block : Block} (h : block.untyped = block) :
    (ofBlock token block).Fresh := by
  refine ⟨numbered_ofBlock token block, ?_⟩
  obtain ⟨hdecls, hstmt⟩ := Block.mk.inj h
  have hnumber := (Decl.untypedList_number 0 block.decls).1
  rw [hdecls] at hnumber
  simp only [ofBlock, Block.number, untyped, Block.untyped, hnumber, hstmt]

theorem fresh_ofTokens {tokens : List Token} {p : Program} (h : ofTokens tokens = .ok p) :
    p.Fresh := by
  have hyields : Parser.Yields Fresh (Parser.program (tokens.length + 1)) := by
    refine .after fun t =>
      .bind (Parser.yields_declarations (Parser.yields_block _) _ _) fun ds hds => ?_
    refine .bind (Parser.yields_sepBy1 (Parser.yields_statement _) _ _) fun ss hss => ?_
    refine .after fun _ => .after fun _ => .pure (fresh_ofBlock t ?_)
    have hstmt : (Parser.ofSequence t ss).untyped = Parser.ofSequence t ss := by
      match ss, hss with
      | [], _ => rfl
      | [s], hss => exact hss s (List.mem_singleton_self s)
      | s :: _ :: _, hss => exact congrArg (Stmt.begin s.token) (Parser.untypedList_eq hss)
    rw [Block.untyped, Parser.untypedList_eq_iff.mpr hds, hstmt]
  rw [ofTokens_eq, StateT.run'] at h
  cases hrun : Parser.program (tokens.length + 1) tokens with
  | error f =>
    rw [hrun] at h
    cases h
  | ok r =>
    rw [hrun] at h
    cases h
    exact hyields tokens r.1 r.2 hrun

end Program

/-! ## Binding names -/

theorem Expr.untyped_resolve (t : Table) {e : Expr} (h : e.untyped = e) :
    (e.resolve t).tree.untyped = (e.resolve t).tree := by
  induction e with
  | literal => exact h
  | use ident ty =>
    cases h
    rfl
  | binary token ty op lhs rhs ihl ihr =>
    obtain ⟨-, rfl, -, hl, hr⟩ := Expr.binary.inj h
    refine Walk.tree_andThen (P := Parser.BareExpr) (Q := Parser.BareExpr) (R := Parser.BareExpr)
      (ihl hl) hr (fun _ => ihr hr) fun a b ha hb => Parser.bareExpr_binary ha hb

mutual

theorem Stmt.untyped_resolve (t : Table) :
    (stmt : Stmt) → stmt.untyped = stmt → (stmt.resolve t).tree.untyped = (stmt.resolve t).tree
  | .assign target expr, h => by
    have he := (Stmt.assign.inj h).2
    refine Walk.tree_andThen (P := fun _ => True) (Q := Parser.BareExpr) (R := Parser.BareStmt)
      trivial he (fun _ => Expr.untyped_resolve t he) fun a b _ hb => ?_
    rw [Parser.BareStmt, Stmt.untyped, hb]
  | .call .., _ | .input .., _ | .empty _, _ => rfl
  | .output token expr, h => by
    have he := Expr.untyped_resolve t (Stmt.output.inj h).2
    exact congrArg (Stmt.output token) he
  | .begin token stmts, h => by
    have hss := Stmt.untypedList_resolve t stmts (Stmt.begin.inj h).2
    exact congrArg (Stmt.begin token) hss
  | .if token guard body, h => by
    obtain ⟨-, hg, hb⟩ := Stmt.if.inj h
    refine Walk.tree_andThen (P := Parser.BareExpr) (Q := Parser.BareStmt) (R := Parser.BareStmt)
      (Expr.untyped_resolve t hg) hb (fun _ => Stmt.untyped_resolve t body hb) fun a b ha hb => ?_
    rw [Parser.BareStmt, Stmt.untyped, ha, hb]
  | .while token guard body, h => by
    obtain ⟨-, hg, hb⟩ := Stmt.while.inj h
    refine Walk.tree_andThen (P := Parser.BareExpr) (Q := Parser.BareStmt) (R := Parser.BareStmt)
      (Expr.untyped_resolve t hg) hb (fun _ => Stmt.untyped_resolve t body hb) fun a b ha hb => ?_
    rw [Parser.BareStmt, Stmt.untyped, ha, hb]

theorem Stmt.untypedList_resolve (t : Table) :
    (stmts : List Stmt) → Stmt.untypedList stmts = stmts →
      Stmt.untypedList (Stmt.resolveList t stmts).tree = (Stmt.resolveList t stmts).tree
  | [], _ => rfl
  | stmt :: stmts, h => by
    obtain ⟨hs, hss⟩ := List.cons.inj h
    refine Walk.tree_andThen (P := Parser.BareStmt) (Q := fun ss => Stmt.untypedList ss = ss)
      (R := fun ss => Stmt.untypedList ss = ss) (Stmt.untyped_resolve t stmt hs) hss
      (fun _ => Stmt.untypedList_resolve t stmts hss) fun a b ha hb => ?_
    rw [Stmt.untypedList, ha, hb]

end

/-- The declarations `ds'` have no types, and the numbers that `ds` have. -/
structure Decl.Renews (ds ds' : List Decl) : Prop where
  untyped : Decl.untypedList ds' = ds'
  ids : (Decl.subtrees ds').map (fun d => d.head.id) = (Decl.subtrees ds).map fun d => d.head.id

namespace Decl.Renews

theorem cons {d d' : Decl} {ds ds' : List Decl} (hd : Renews [d] [d']) (hds : Renews ds ds') :
    Renews (d :: ds) (d' :: ds') := by
  have huntyped := hd.untyped
  have hids := hd.ids
  simp only [Decl.untypedList, List.cons.injEq, and_true] at huntyped
  simp only [Decl.subtrees, List.append_nil] at hids
  refine ⟨?_, ?_⟩
  · rw [Decl.untypedList, huntyped, hds.untyped]
  · simp only [Decl.subtrees, List.map_append, hids, hds.ids]

theorem atDepth {d : Decl} (depth : Nat) (h : d.untyped = d) : Renews [d] [d.atDepth depth] := by
  refine ⟨?_, ?_⟩
  · have hcomm : (d.atDepth depth).untyped = d.untyped.atDepth depth := by cases d <;> rfl
    rw [Decl.untypedList, hcomm, h]
    rfl
  · cases d <;> rfl

theorem map_atDepth (depth : Nat) : {ds : List Decl} → Decl.untypedList ds = ds →
    Renews ds (ds.map (Decl.atDepth depth))
  | [], _ => ⟨rfl, rfl⟩
  | d :: ds, h => by
    obtain ⟨hd, hds⟩ := List.cons.inj h
    exact .cons (atDepth depth hd) (map_atDepth depth hds)

theorem enter : (t : Table) → {ds : List Decl} → Decl.untypedList ds = ds →
    Renews ds (t.enter ds).tree
  | _, [], _ => ⟨rfl, rfl⟩
  | t, d :: ds, h => by
    obtain ⟨hd, hds⟩ := List.cons.inj h
    rw [Table.enter]
    split
    · exact .cons (atDepth _ hd) (enter _ hds)
    · exact ⟨h, rfl⟩

theorem resolveBlockIn (t : Table) {ds : List Decl} {stmt : Stmt}
    {bodies : Table → Binding (List Decl)} (hds : Decl.untypedList ds = ds)
    (hstmt : stmt.untyped = stmt) (hbodies : ∀ t, Renews ds (bodies t).tree) :
    Renews ds (t.resolveBlockIn ds stmt bodies).tree.decls ∧
      (t.resolveBlockIn ds stmt bodies).tree.stmt.untyped =
        (t.resolveBlockIn ds stmt bodies).tree.stmt := by
  unfold Table.resolveBlockIn
  simp only
  split
  · exact ⟨enter t hds, hstmt⟩
  · exact Walk.tree_andThen (P := Renews ds) (Q := Parser.BareStmt)
      (R := fun b : Block => Renews ds b.decls ∧ b.stmt.untyped = b.stmt) (hbodies _) hstmt
      (fun _ => Stmt.untyped_resolve _ stmt hstmt) fun _ _ hds hs => ⟨hds, hs⟩

end Decl.Renews

mutual

theorem Decl.renews_resolve (t : Table) :
    (d : Decl) → d.untyped = d → Decl.Renews [d] [(d.resolveIn t).tree]
  | .const .., h | .var _, h => .atDepth t.depth h
  | .procedure head decls stmt, h => by
    obtain ⟨hhead, hdecls, hstmt⟩ := Decl.procedure.inj h
    obtain ⟨hblock, hs⟩ := Decl.Renews.resolveBlockIn t.push.2 hdecls hstmt fun t =>
      Decl.renews_resolveList t decls hdecls
    refine ⟨?_, ?_⟩
    · have hty : head.ty = none := by rw [← hhead]; rfl
      simp only [Decl.resolveIn, Walk.map, Decl.atDepth, Decl.setHead, Decl.head, Decl.untypedList,
        Decl.untyped, DeclHead.untyped, hblock.untyped, hs, hty]
    · simpa only [Decl.resolveIn, Walk.map, Decl.atDepth, Decl.setHead, Decl.head, Decl.subtrees,
        Decl.subtree, List.append_nil, List.map_cons, List.cons.injEq, true_and] using hblock.ids

theorem Decl.renews_resolveList (t : Table) :
    (ds : List Decl) → Decl.untypedList ds = ds → Decl.Renews ds (Decl.resolveInList t ds).tree
  | [], _ => ⟨rfl, rfl⟩
  | d :: ds, h => by
    obtain ⟨hd, hds⟩ := List.cons.inj h
    exact Walk.tree_andThen (P := fun d' => Decl.Renews [d] [d']) (Q := Decl.Renews ds)
      (R := Decl.Renews (d :: ds)) (Decl.renews_resolve t d hd) (.map_atDepth t.depth hds)
      (fun _ => Decl.renews_resolveList t ds hds) fun _ _ hd hds => .cons hd hds

end

/-- A fresh program stays fresh when its names are bound. -/
theorem Program.fresh_resolve {p : Program} (h : p.Fresh) : p.resolve.tree.Fresh := by
  obtain ⟨hdecls, hstmt⟩ := Block.mk.inj (congrArg Program.block h.untyped)
  obtain ⟨hblock, hs⟩ := Decl.Renews.resolveBlockIn Table.empty hdecls hstmt fun t =>
    Decl.renews_resolveList t p.block.decls hdecls
  rw [p.resolve_eq]
  refine ⟨?_, ?_⟩
  · rw [Program.Numbered]
    exact hblock.ids.trans h.numbered
  · simp only [Walk.map, Program.untyped, Block.untyped, hblock.untyped, hs]

end PLZero
