import PLZero.Proofs.Tree.Numbering
import PLZero.Tree.Parser

/-!
# A count through the parser

The parser takes the number of a declaration while it reads it.  It gives the same trees as a parser
that numbers nothing, with the declarations numbered when the tree is complete.

* `Parser.declarations`, `Parser.block`, `Parser.program` — the rules without a count.  These are
  the ones that are compared with the grammar.
* `Declaring.run_block` — one lemma for each rule: what it gives when its count starts at `next`.
* `Program.ofTokens_eq` — the programs are the same.
-/

namespace PLZero

/-! ## Rules that do not count -/

namespace Parser

def constantDecl : Parser Decl := do
  let t ← ident
  let _ ← expect (.op (.compare .eq))
  return .const (.ofToken t) (← literal)

def variableDecl : Parser Decl := do
  return .var (.ofToken (← ident))

def procedureDecl (block : Parser Block) : Parser Decl := do
  let t ← ident
  let _ ← expect (.mark .semicolon)
  let b ← block
  return .procedure (.ofToken t) b.decls b.stmt

/-- One group of declarations, if one stands next. -/
def group (budget : Nat) (block : Parser Block) : Parser (List Decl) := do
  match (← peek).kind with
  | .keyword .const =>
    let _ ← next
    let ds ← sepBy1 constantDecl (.mark .comma) budget
    let _ ← expect (.mark .semicolon)
    return ds
  | .keyword .var =>
    let _ ← next
    let ds ← sepBy1 variableDecl (.mark .comma) budget
    let _ ← expect (.mark .semicolon)
    return ds
  | .keyword .procedure =>
    let _ ← next
    let d ← procedureDecl block
    let _ ← expect (.mark .semicolon)
    return [d]
  | _ => return []

/-- All groups of declarations that stand next, when `seen` are the names declared before them. -/
def declarations (block : Parser Block) : (budget : Nat) → (seen : List String) → Parser (List Decl)
  | 0, _ => throw .endOfTokens
  | n + 1, seen => do
    match ← group n block with
    | [] => return []
    | d :: ds =>
      let seen ← distinct seen (d :: ds)
      return d :: ds ++ (← declarations block n seen)

def block : (budget : Nat) → Parser Block
  | 0 => throw .endOfTokens
  | n + 1 => do
    let decls ← declarations (block n) (n + 1) []
    return ⟨decls, ← statement (n + 1)⟩

def program (budget : Nat) : Parser Program := do
  let t ← peek
  let decls ← declarations (block budget) budget []
  let stmts ← sepBy1 (statement budget) (.mark .semicolon) budget
  let _ ← expect (.mark .dot)
  let _ ← expect .eof
  return .ofBlock t ⟨decls, ofSequence t stmts⟩

theorem sepBy1_succ {α : Type} (item : Parser α) (separator : TokenKind) (budget : Nat) :
    sepBy1 item separator (budget + 1) = do
      let a ← item
      if (← peek).kind = separator then
        let _ ← next
        return a :: (← sepBy1 item separator budget)
      else return [a] :=
  rfl

/-- Only names and tokens count for `distinct`. -/
theorem distinct_number (seen : List String) (next : Nat) (ds : List Decl) :
    distinct seen (Decl.numberList next ds).1 = distinct seen ds := by
  induction ds generalizing seen next with
  | nil => rfl
  | cons d ds ih =>
    have htoken := d.token_number next
    have hname : (d.number next).1.name = d.name := congrArg Token.name htoken
    simp only [Decl.numberList, distinct, hname, htoken, ih]

end Parser

/-! ## Rules that count -/

namespace Declaring

open Parser

variable {α β : Type}

/-- A parser that does not count leaves the count as it is. -/
theorem run_lift (p : Parser α) (next : Nat) :
    (liftM p : Declaring α).run next = (·, next) <$> p := by
  rw [map_eq_pure_bind]
  rfl

theorem run_distinct (seen : List String) (ds : List Decl) (next : Nat) :
    (liftM (distinct seen ds) : Declaring (List String)).run next =
      (·, next) <$> (liftM (distinct seen ds) : Parser (List String)) :=
  run_lift (liftM (distinct seen ds)) next

theorem run_number (next : Nat) : number.run next = pure (next, next + 1) := rfl

theorem run_constantDecl (next : Nat) :
    constantDecl.run next = Decl.number next <$> Parser.constantDecl := by
  simp only [constantDecl, Parser.constantDecl, StateT.run_bind, StateT.run_pure, run_lift,
    run_number, bind_map_left, pure_bind, map_bind, map_pure]
  rfl

theorem run_variableDecl (next : Nat) :
    variableDecl.run next = Decl.number next <$> Parser.variableDecl := by
  simp only [variableDecl, Parser.variableDecl, StateT.run_bind, StateT.run_pure, run_lift,
    run_number, bind_map_left, pure_bind, map_bind, map_pure]
  rfl

/-- The items of a list are numbered one after the other. -/
theorem run_sepBy1 {item : Declaring Decl} {item' : Parser Decl}
    (h : ∀ next, item.run next = Decl.number next <$> item') (separator : TokenKind)
    (budget next : Nat) :
    (sepBy1 item separator budget).run next =
      Decl.numberList next <$> sepBy1 item' separator budget := by
  induction budget generalizing next with
  | zero => rfl
  | succ budget ih =>
    rw [sepBy1, sepBy1_succ, StateT.run_bind, h, bind_map_left, map_bind]
    refine bind_congr fun d => ?_
    rw [StateT.run_bind, run_lift, bind_map_left, map_bind]
    refine bind_congr fun t => ?_
    split
    · simp only [StateT.run_bind, StateT.run_pure, run_lift, ih, bind_map_left, map_bind, map_pure]
      rfl
    · rfl

section Blocks

variable {sub : Declaring Block} {sub' : Parser Block}
  (h : ∀ next, sub.run next = Block.number next <$> sub')

include h

theorem run_procedureDecl (next : Nat) :
    (procedureDecl sub).run next = Decl.number next <$> Parser.procedureDecl sub' := by
  simp only [procedureDecl, Parser.procedureDecl, StateT.run_bind, StateT.run_pure, run_lift,
    run_number, h, bind_map_left, pure_bind, map_bind, map_pure]
  rfl

theorem run_group (budget next : Nat) :
    (group budget sub).run next = Decl.numberList next <$> Parser.group budget sub' := by
  rw [group, Parser.group, StateT.run_bind, run_lift, bind_map_left, map_bind]
  refine bind_congr fun t => ?_
  dsimp only
  generalize t.kind = kind
  cases kind with
  | keyword k =>
    cases k with
    | const =>
      simp only [StateT.run_bind, StateT.run_pure, run_lift, run_sepBy1 run_constantDecl,
        bind_map_left, map_bind, map_pure]
    | var =>
      simp only [StateT.run_bind, StateT.run_pure, run_lift, run_sepBy1 run_variableDecl,
        bind_map_left, map_bind, map_pure]
    | procedure =>
      simp only [StateT.run_bind, StateT.run_pure, run_lift, run_procedureDecl h, bind_map_left,
        map_bind, map_pure, Decl.numberList]
    | _ => rfl
  | _ => rfl

theorem run_declarations (budget : Nat) (seen : List String) (next : Nat) :
    (declarations sub budget seen).run next =
      Decl.numberList next <$> Parser.declarations sub' budget seen := by
  induction budget generalizing seen next with
  | zero => rfl
  | succ budget ih =>
    rw [declarations, Parser.declarations, StateT.run_bind, run_group h, bind_map_left, map_bind]
    refine bind_congr fun ds => ?_
    cases ds with
    | nil => rfl
    | cons d ds =>
      change (liftM (distinct seen (Decl.numberList next (d :: ds)).1) >>= fun seen =>
        declarations sub budget seen >>= fun ds' =>
          pure ((Decl.numberList next (d :: ds)).1 ++ ds') : Declaring (List Decl)).run
            (Decl.numberList next (d :: ds)).2 = _
      simp only [StateT.run_bind, StateT.run_pure, run_distinct, distinct_number, ih,
        bind_map_left, map_bind, map_pure, Decl.numberList_append]

end Blocks

theorem run_block (budget next : Nat) :
    (block budget).run next = Block.number next <$> Parser.block budget := by
  induction budget generalizing next with
  | zero => rfl
  | succ budget ih =>
    simp only [block, Parser.block, StateT.run_bind, StateT.run_pure, run_lift,
      run_declarations ih, bind_map_left, map_bind, map_pure]
    rfl

theorem run'_program (budget : Nat) : (program budget).run' 0 = Parser.program budget := by
  simp only [program, Parser.program, StateT.run'_eq, StateT.run_bind, StateT.run_pure,
    StateT.run_get, run_lift, run_declarations (run_block budget), bind_map_left, pure_bind,
    map_bind, map_pure]
  rfl

end Declaring

/-- **Counting on the way or at the end makes no difference.** -/
theorem Program.ofTokens_eq (tokens : List Token) :
    ofTokens tokens = (Parser.program (tokens.length + 1)).run' tokens := by
  rw [ofTokens, Declaring.run'_program]

end PLZero
