import Mathlib.Algebra.Ring.Nat
import PLZero.Proofs.Scope.Uses
import PLZero.Proofs.Text.Utf8
import PLZero.Proofs.Token.Lexemes
import PLZero.Proofs.Tree.Grammar

/-!
# Sizes of texts and trees

How big a tree can be, by the bytes of the text it was read from.

* `TokenKind.size` — a number of bytes that no token of the kind is shorter than.
* `Program.size` — what the tokens of a program come to; names count with all their bytes where they
  are declared, and texts wherever they stand.
* `Grammar.Program.size_le` — the tree is no bigger than its tokens.
* `sizes_le_of_scan` — the tokens are no bigger than the text.
-/

namespace PLZero

/-! ## Tokens -/

def Value.size : Value → Nat
  | .str s => s.utf8ByteSize + 1
  | _ => 1

def TokenKind.size : TokenKind → Nat
  | .ident name => max 1 name.utf8ByteSize
  | .literal value => value.size
  | .eof => 0
  | _ => 1

/-- The sizes of all the tokens. -/
def sizes (tokens : List Token) : Nat := (tokens.map fun t => t.kind.size).sum

@[simp] theorem sizes_nil : sizes [] = 0 := rfl

@[simp] theorem sizes_cons (t : Token) (ts : List Token) :
    sizes (t :: ts) = t.kind.size + sizes ts := by
  simp [sizes]

@[simp] theorem sizes_append (ts us : List Token) : sizes (ts ++ us) = sizes ts + sizes us := by
  simp [sizes]

/-! ## Texts -/

/-- The bytes of a text. -/
def width (cs : List Char) : Nat := (cs.map Char.utf8Size).sum

@[simp] theorem width_nil : width [] = 0 := rfl

@[simp] theorem width_cons (c : Char) (cs : List Char) :
    width (c :: cs) = c.utf8Size + width cs := by
  simp [width]

@[simp] theorem width_append (cs ds : List Char) : width (cs ++ ds) = width cs + width ds := by
  simp [width]

theorem width_toList (s : String) : width s.toList = s.utf8ByteSize := by
  have hencode (cs : List Char) : width cs = (Utf8.encode cs).length := by
    induction cs with
    | nil => rfl
    | cons c cs ih => simp [Utf8.encode, ih, Utf8.length_encodeChar]
  rw [hencode, Utf8.length_encode_toList]

theorem one_le_width {cs : List Char} (h : cs ≠ []) : 1 ≤ width cs := by
  cases cs with
  | nil => exact absurd rfl h
  | cons c cs =>
    have := c.utf8Size_pos
    rw [width_cons]
    omega

/-- What stands between quotes is no shorter than what it is written for. -/
theorem Quoted.Spells.width_le {written contents : List Char} (h : Quoted.Spells written contents) :
    width contents ≤ width written := by
  induction h with
  | nil => exact Nat.le_refl _
  | plain _ _ _ _ ih =>
    rw [width_cons, width_cons]
    omega
  | @escaped e d written contents hd _ ih =>
    have hsize : d.utf8Size = 1 := by
      unfold Quoted.unescape? at hd
      split at hd <;> cases hd <;> rfl
    rw [width_cons, width_cons, width_cons, hsize]
    have := e.utf8Size_pos
    omega

theorem IsLexeme.size_le {kind : TokenKind} {text : List Char} (h : IsLexeme kind text) :
    kind.size ≤ width text := by
  have hone := one_le_width h.ne_nil
  cases h with
  | @ident c cs _ _ _ =>
    rw [TokenKind.size, ← width_toList, String.toList_ofList]
    omega
  | @string written contents hspells =>
    have hle := hspells.width_le
    rw [TokenKind.size, Value.size, ← width_toList, String.toList_ofList, List.cons_append,
      width_cons, width_append]
    have := Char.utf8Size_pos '"'
    omega
  | keyword | boolean | number | op | unequal | mark => exact hone

theorem Lexes.sizes_le {before rest : List Char} {tokens : List Token}
    (h : Lexes before rest tokens) : sizes tokens ≤ width rest := by
  induction h with
  | eof => exact Nat.zero_le _
  | @token before gap text rest kind tokens _ _ hlexeme _ _ ih =>
    have := hlexeme.size_le
    simp only [sizes_cons, width_append]
    omega

/-- The tokens are no bigger than the text. -/
theorem sizes_le_of_scan {source : String} {tokens : List Token} (h : scan source = .ok tokens) :
    sizes tokens ≤ source.utf8ByteSize := by
  rw [← width_toList]
  exact (lexes_scan h).sizes_le

/-! ## Trees -/

def Expr.size : Expr → Nat
  | .literal _ _ value => value.size
  | .use .. => 1
  | .binary _ _ _ lhs rhs => lhs.size + rhs.size + 1

mutual

def Stmt.size : Stmt → Nat
  | .assign _ expr => expr.size + 2
  | .call .. => 2
  | .input .. => 2
  | .output _ expr => expr.size + 1
  | .begin _ stmts => Stmt.sizeList stmts
  | .if _ guard body => guard.size + body.size + 2
  | .while _ guard body => guard.size + body.size + 2
  | .empty _ => 0

def Stmt.sizeList : List Stmt → Nat
  | [] => 0
  | s :: ss => s.size + Stmt.sizeList ss

end

def DeclHead.size (head : DeclHead) : Nat := max 1 head.name.utf8ByteSize

/-- A declaration but for the block of a procedure. -/
def Decl.headSize : Decl → Nat
  | .const head value => head.size + value.size
  | .var head => head.size
  | .procedure head _ _ => head.size + 1

mutual

/-- The block of a procedure. -/
def Decl.bodySize : Decl → Nat
  | .procedure _ decls stmt => Decl.sizeList decls + stmt.size
  | _ => 0

def Decl.sizeList : List Decl → Nat
  | [] => 0
  | d :: ds => d.headSize + d.bodySize + Decl.sizeList ds

end

def Block.size (b : Block) : Nat := Decl.sizeList b.decls + b.stmt.size

def Program.size (p : Program) : Nat := p.block.size

theorem DeclHead.one_le_size (head : DeclHead) : 1 ≤ head.size := Nat.le_max_left ..

theorem Decl.sizeList_eq (ds : List Decl) :
    Decl.sizeList ds = (ds.map Decl.headSize).sum + (ds.map Decl.bodySize).sum := by
  induction ds with
  | nil => rfl
  | cons d ds ih =>
    rw [Decl.sizeList, ih, List.map_cons, List.map_cons, List.sum_cons, List.sum_cons]
    omega

theorem Decl.sizeList_append (ds es : List Decl) :
    Decl.sizeList (ds ++ es) = Decl.sizeList ds + Decl.sizeList es := by
  simp only [Decl.sizeList_eq, List.map_append, List.sum_append_nat]
  omega

/-! ## Slots and numbers have no size -/

theorem Expr.size_slots (e : Expr) : e.untyped.size = e.size ∧ e.unbound.size = e.size := by
  induction e with
  | literal | use => exact ⟨rfl, rfl⟩
  | binary token ty op lhs rhs ihl ihr =>
    simp only [Expr.untyped, Expr.unbound, Expr.size, ihl, ihr, and_self]

mutual

theorem Stmt.size_slots : (s : Stmt) → s.untyped.size = s.size ∧ s.unbound.size = s.size
  | .call .. | .input .. | .empty _ => ⟨rfl, rfl⟩
  | .assign _ expr | .output _ expr => by
    simp only [Stmt.untyped, Stmt.unbound, Stmt.size, expr.size_slots, and_self]
  | .begin _ stmts => Stmt.sizeList_slots stmts
  | .if _ guard body | .while _ guard body => by
    simp only [Stmt.untyped, Stmt.unbound, Stmt.size, guard.size_slots, body.size_slots, and_self]

theorem Stmt.sizeList_slots : (ss : List Stmt) →
    Stmt.sizeList (Stmt.untypedList ss) = Stmt.sizeList ss ∧
      Stmt.sizeList (Stmt.unboundList ss) = Stmt.sizeList ss
  | [] => ⟨rfl, rfl⟩
  | s :: ss => by
    simp only [Stmt.untypedList, Stmt.unboundList, Stmt.sizeList, s.size_slots,
      Stmt.sizeList_slots ss, and_self]

end

theorem Decl.headSize_slots (d : Decl) :
    d.untyped.headSize = d.headSize ∧ d.unbound.headSize = d.headSize := by
  cases d <;> exact ⟨rfl, rfl⟩

mutual

theorem Decl.bodySize_slots : (d : Decl) →
    d.untyped.bodySize = d.bodySize ∧ d.unbound.bodySize = d.bodySize
  | .const .. | .var _ => ⟨rfl, rfl⟩
  | .procedure _ decls stmt => by
    simp only [Decl.untyped, Decl.unbound, Decl.bodySize, Decl.sizeList_slots decls,
      stmt.size_slots, and_self]

theorem Decl.sizeList_slots : (ds : List Decl) →
    Decl.sizeList (Decl.untypedList ds) = Decl.sizeList ds ∧
      Decl.sizeList (Decl.unboundList ds) = Decl.sizeList ds
  | [] => ⟨rfl, rfl⟩
  | d :: ds => by
    simp only [Decl.untypedList, Decl.unboundList, Decl.sizeList, d.headSize_slots,
      d.bodySize_slots, Decl.sizeList_slots ds, and_self]

end

theorem Program.size_untyped (p : Program) : p.untyped.size = p.size := by
  simp only [Program.size, Block.size, Program.untyped, Block.untyped,
    (Decl.sizeList_slots p.block.decls).1, p.block.stmt.size_slots.1]

theorem Program.size_unbound (p : Program) : p.unbound.size = p.size := by
  simp only [Program.size, Block.size, Program.unbound, Block.unbound,
    (Decl.sizeList_slots p.block.decls).2, p.block.stmt.size_slots.2]

mutual

theorem Decl.size_number (next : Nat) : (d : Decl) →
    (d.number next).1.headSize = d.headSize ∧ (d.number next).1.bodySize = d.bodySize
  | .const .. | .var _ => ⟨rfl, rfl⟩
  | .procedure _ decls stmt => by
    simp only [Decl.number, Decl.headSize, DeclHead.size, DeclHead.name, Decl.bodySize,
      Decl.sizeList_number (next + 1) decls, and_self]

theorem Decl.sizeList_number (next : Nat) : (ds : List Decl) →
    Decl.sizeList (Decl.numberList next ds).1 = Decl.sizeList ds
  | [] => rfl
  | d :: ds => by
    simp only [Decl.numberList, Decl.sizeList, Decl.size_number next d,
      Decl.sizeList_number (d.number next).2 ds]

end

theorem Program.size_ofBlock (token : Token) (b : Block) : (ofBlock token b).size = b.size := by
  simp only [Program.size, Block.size, Program.ofBlock, Block.number, Decl.sizeList_number]

/-! ## Trees and their tokens -/

namespace Grammar

mutual

theorem Primary.size_le {ts : List Token} {e : Expr} : Primary ts e → e.size ≤ sizes ts
  | .ident h => by
    simp only [Expr.size, sizes_cons, h, TokenKind.size]
    omega
  | .literal h => by simp [Expr.size, h, TokenKind.size]
  | .parens _ h _ => by
    have := Expression.size_le h
    simp only [List.cons_append, sizes_cons, sizes_append]
    omega

theorem Term.size_le {ts : List Token} {e : Expr} : Term ts e → e.size ≤ sizes ts
  | .primary h => Primary.size_le h
  | .operation hl h _ hr => by
    have := Term.size_le hl
    have := Primary.size_le hr
    simp only [Expr.size, sizes_append, sizes_cons, h, TokenKind.size]
    omega

theorem Additive.size_le {ts : List Token} {e : Expr} : Additive ts e → e.size ≤ sizes ts
  | .term h => Term.size_le h
  | .operation hl h _ hr => by
    have := Additive.size_le hl
    have := Term.size_le hr
    simp only [Expr.size, sizes_append, sizes_cons, h, TokenKind.size]
    omega

theorem Expression.size_le {ts : List Token} {e : Expr} : Expression ts e → e.size ≤ sizes ts
  | .additive h => Additive.size_le h
  | .comparison hl h hr => by
    have := Additive.size_le hl
    have := Additive.size_le hr
    simp only [Expr.size, sizes_append, sizes_cons, h, TokenKind.size]
    omega

end

mutual

theorem Statement.size_le {next : Token} {ts : List Token} {s : Stmt} :
    Statement next ts s → s.size ≤ sizes ts
  | .assign ht hu he => by
    have := Expression.size_le he
    simp only [Stmt.size, sizes_cons, ht, hu, TokenKind.size]
    omega
  | .call ht hu | .input ht hu => by
    simp only [Stmt.size, sizes_cons, sizes_nil, ht, hu, TokenKind.size]
    omega
  | .output ht he => by
    have := Expression.size_le he
    simp only [Stmt.size, sizes_cons, ht, TokenKind.size]
    omega
  | .begin _ hss _ => by
    have := Statements.size_le hss
    simp only [Stmt.size, List.cons_append, sizes_cons, sizes_append]
    omega
  | .if ht he hu hs | .while ht he hu hs => by
    have := Expression.size_le he
    have := Statement.size_le hs
    simp only [Stmt.size, List.cons_append, sizes_cons, sizes_append, ht, hu, TokenKind.size]
    omega
  | .empty => Nat.zero_le _

theorem Statements.size_le {next : Token} {ts : List Token} {ss : List Stmt} :
    Statements next ts ss → Stmt.sizeList ss ≤ sizes ts
  | .one hs => by
    have := Statement.size_le hs
    simp only [Stmt.sizeList]
    omega
  | .cons hs _ hss => by
    have := Statement.size_le hs
    have := Statements.size_le hss
    simp only [Stmt.sizeList, sizes_append, sizes_cons]
    omega

end

/-- A name counts with all its bytes where it is declared. -/
theorem size_ofToken {t : Token} {name : String} (h : t.kind = .ident name) :
    (DeclHead.ofToken t).size = t.kind.size := by
  simp [DeclHead.size, DeclHead.name, DeclHead.ofToken, DeclHead.new, Token.name, h, TokenKind.size]

theorem Constant.size_le {ts : List Token} {d : Decl} (h : Constant ts d) :
    d.headSize + d.bodySize ≤ sizes ts := by
  cases h with
  | mk ht hu hv =>
    simp only [Decl.headSize, Decl.bodySize, size_ofToken ht, sizes_cons, sizes_nil, hv,
      TokenKind.size]
    omega

theorem Variable.size_le {ts : List Token} {d : Decl} (h : Variable ts d) :
    d.headSize + d.bodySize ≤ sizes ts := by
  cases h with
  | mk ht => simp [Decl.headSize, Decl.bodySize, size_ofToken ht]

theorem Listed.size_le {Item : List Token → Decl → Prop} {ts : List Token} {ds : List Decl}
    (hitem : ∀ ts d, Item ts d → d.headSize + d.bodySize ≤ sizes ts) (h : Listed Item ts ds) :
    Decl.sizeList ds ≤ sizes ts := by
  induction h with
  | one h =>
    have := hitem _ _ h
    simp only [Decl.sizeList]
    omega
  | cons h _ _ ih =>
    have := hitem _ _ h
    simp only [Decl.sizeList, sizes_append, sizes_cons]
    omega

mutual

theorem Group.size_le {ts : List Token} {ds : List Decl} : Group ts ds → Decl.sizeList ds ≤ sizes ts
  | .consts _ h _ => by
    have := h.size_le fun _ _ => Constant.size_le
    simp only [List.cons_append, sizes_cons, sizes_append]
    omega
  | .vars _ h _ => by
    have := h.size_le fun _ _ => Variable.size_le
    simp only [List.cons_append, sizes_cons, sizes_append]
    omega
  | .procedure ht hu _ hb _ => by
    have := Block.size_le hb
    simp only [PLZero.Block.size] at this
    simp only [Decl.sizeList, Decl.headSize, Decl.bodySize, size_ofToken hu, List.cons_append,
      sizes_cons, sizes_append, ht, TokenKind.size]
    omega

theorem Declarations.size_le {ts : List Token} {ds : List Decl} :
    Declarations ts ds → Decl.sizeList ds ≤ sizes ts
  | .nil => Nat.le_refl _
  | .cons hd hds => by
    have := Group.size_le hd
    have := Declarations.size_le hds
    rw [Decl.sizeList_append, sizes_append]
    omega

theorem Block.size_le {next : Token} {ts : List Token} {b : PLZero.Block} :
    Block next ts b → b.size ≤ sizes ts
  | .mk hds hs => by
    have := Declarations.size_le hds
    have := Statement.size_le hs
    simp only [PLZero.Block.size, sizes_append]
    omega

end

/-- **A tree is no bigger than its tokens.** -/
theorem Program.size_le {ts : List Token} {p : PLZero.Program} (h : Program ts p) :
    p.size ≤ sizes ts := by
  cases h with
  | single hds hs _ _ _ =>
    have := hds.size_le
    have := hs.size_le
    simp only [PLZero.Program.size_ofBlock, PLZero.Block.size, sizes_append]
    omega
  | sequence hds hss _ _ _ =>
    have := hds.size_le
    have := hss.size_le
    simp only [PLZero.Program.size_ofBlock, PLZero.Block.size, Stmt.size, sizes_append]
    omega

end Grammar

end PLZero
