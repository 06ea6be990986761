import PLZero.Proofs.Tree.Declarations

/-!
# Numbering a finished tree

Numbers can be given to a tree of declarations from the first to the last, a procedure before its
body, once it is complete.

* `Decl.numberList`, `Program.ofBlock` — the tree with its numbers.
* `Decl.ids_numberList`, `Program.numbered_ofBlock` — they are `0, 1, 2, …` in source order.
* `Decl.tokens_numberList`, `Decl.names_number` — the tokens stay where they are.
* `Decl.numberList_append` — declarations may be numbered in two parts.
-/

namespace PLZero

/-- The head of a declaration that has no number of its own yet. -/
def DeclHead.ofToken (token : Token) : DeclHead := .new 0 token

namespace Decl

mutual

/-- Numbers the declarations of the tree from `next` on; also gives the first number not used. -/
def number (next : Nat) : Decl → Decl × Nat
  | .const head value => (.const { head with id := next } value, next + 1)
  | .var head => (.var { head with id := next }, next + 1)
  | .procedure head decls stmt =>
    let (decls, last) := numberList (next + 1) decls
    (.procedure { head with id := next } decls stmt, last)

def numberList (next : Nat) : List Decl → List Decl × Nat
  | [] => ([], next)
  | d :: ds =>
    let (d, next) := d.number next
    let (ds, next) := numberList next ds
    (d :: ds, next)

end

mutual

theorem ids_number (next : Nat) : (d : Decl) →
    (d.number next).1.subtree.map (fun d => d.head.id) =
        List.range' next ((d.number next).2 - next) ∧ next ≤ (d.number next).2
  | .const head value => by simp [number, subtree, Decl.head]
  | .var head => by simp [number, subtree, Decl.head]
  | .procedure head decls stmt => by
    obtain ⟨hids, hle⟩ := ids_numberList (next + 1) decls
    simp only [number, subtree, List.map_cons, hids]
    refine ⟨?_, by omega⟩
    rw [show (numberList (next + 1) decls).2 - next =
      (numberList (next + 1) decls).2 - (next + 1) + 1 from by omega, List.range'_succ]
    rfl

theorem ids_numberList (next : Nat) : (ds : List Decl) →
    (subtrees (numberList next ds).1).map (fun d => d.head.id) =
        List.range' next ((numberList next ds).2 - next) ∧ next ≤ (numberList next ds).2
  | [] => by simp [numberList, subtrees]
  | d :: ds => by
    obtain ⟨hd, hle⟩ := ids_number next d
    obtain ⟨hds, hle'⟩ := ids_numberList (d.number next).2 ds
    simp only [numberList, subtrees, List.map_append, hd, hds]
    refine ⟨?_, by omega⟩
    rw [show (numberList (d.number next).2 ds).2 - next =
      ((d.number next).2 - next) + ((numberList (d.number next).2 ds).2 - (d.number next).2)
      from by omega, ← List.range'_append_1]
    congr 2
    omega

end

mutual

theorem tokens_number (next : Nat) : (d : Decl) →
    (d.number next).1.subtree.map (fun d => d.head.token) = d.subtree.map (fun d => d.head.token)
  | .const .. | .var _ => rfl
  | .procedure head decls stmt => by
    rw [number, subtree, List.map_cons, tokens_numberList (next + 1) decls]
    rfl

/-- Numbering leaves the tokens of the declarations where they are. -/
theorem tokens_numberList (next : Nat) : (ds : List Decl) →
    (subtrees (numberList next ds).1).map (fun d => d.head.token) =
      (subtrees ds).map (fun d => d.head.token)
  | [] => rfl
  | d :: ds => by
    rw [numberList, subtrees, List.map_append, tokens_number next d, tokens_numberList _ ds,
      ← List.map_append, ← subtrees]

end

theorem token_number (next : Nat) (d : Decl) : (d.number next).1.head.token = d.head.token := by
  cases d <;> rfl

theorem names_number (next : Nat) (ds : List Decl) :
    (numberList next ds).1.map Decl.name = ds.map Decl.name := by
  induction ds generalizing next with
  | nil => rfl
  | cons d ds ih =>
    have hname : (d.number next).1.name = d.name := congrArg Token.name (d.token_number next)
    simp only [numberList, List.map_cons, hname, ih]

theorem numberList_append (next : Nat) (A B : List Decl) :
    numberList next (A ++ B) =
      ((numberList next A).1 ++ (numberList (numberList next A).2 B).1,
        (numberList (numberList next A).2 B).2) := by
  induction A generalizing next with
  | nil => rfl
  | cons d A ih => simp only [List.cons_append, numberList, ih]

end Decl

namespace Block

def number (next : Nat) (b : Block) : Block × Nat :=
  let (decls, last) := Decl.numberList next b.decls
  (⟨decls, b.stmt⟩, last)

end Block

namespace Program

/-- The program of a block whose first token is `token`, with its declarations numbered. -/
def ofBlock (token : Token) (block : Block) : Program :=
  let (block, count) := block.number 0
  ⟨block, token, count⟩

theorem numbered_ofBlock (token : Token) (block : Block) : (ofBlock token block).Numbered := by
  have h := (Decl.ids_numberList 0 block.decls).1
  rw [Numbered, List.range_eq_range']
  simpa [ofBlock, Block.number, declarations] using h

end Program

end PLZero
