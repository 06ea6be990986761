import PLZero.Proofs.Tree.Tokens
import PLZero.Tree.Printer

/-!
# Trees that differ in their tokens

`Program.Matches N T` relates two programs of one shape, with the same operators, values, numbers and
slots.  The tokens of names are related by `N`, and all other tokens by `T`.

* `Decl.MatchesList.number` — numbers are given by the shape alone.
* `Decl.MatchesList.text` — so is the text, but for the names.
* `Decl.MatchesList.distinct` — whether a block declares a name twice depends on the names only.
-/

namespace PLZero

/-! ## The relation -/

structure Ident.Matches (N : Token → Token → Prop) (ident ident' : Ident) : Prop where
  token : N ident.token ident'.token
  decl : ident'.decl = ident.decl
  nest : ident'.nest = ident.nest

inductive Expr.Matches (N T : Token → Token → Prop) : Expr → Expr → Prop where
  | literal {token token' : Token} {ty : Option Ty} {value : Value} :
      T token token' → Matches N T (.literal token ty value) (.literal token' ty value)
  | use {ident ident' : Ident} {ty : Option Ty} :
      ident.Matches N ident' → Matches N T (.use ident ty) (.use ident' ty)
  | binary {token token' : Token} {ty : Option Ty} {op : Op} {lhs lhs' rhs rhs' : Expr} :
      T token token' → Matches N T lhs lhs' → Matches N T rhs rhs' →
      Matches N T (.binary token ty op lhs rhs) (.binary token' ty op lhs' rhs')

mutual

inductive Stmt.Matches (N T : Token → Token → Prop) : Stmt → Stmt → Prop where
  | assign {target target' : Ident} {e e' : Expr} :
      target.Matches N target' → e.Matches N T e' →
      Matches N T (.assign target e) (.assign target' e')
  | call {token token' : Token} {target target' : Ident} :
      T token token' → target.Matches N target' →
      Matches N T (.call token target) (.call token' target')
  | input {token token' : Token} {target target' : Ident} :
      T token token' → target.Matches N target' →
      Matches N T (.input token target) (.input token' target')
  | output {token token' : Token} {e e' : Expr} :
      T token token' → e.Matches N T e' → Matches N T (.output token e) (.output token' e')
  | begin {token token' : Token} {ss ss' : List Stmt} :
      T token token' → Stmt.MatchesList N T ss ss' →
      Matches N T (.begin token ss) (.begin token' ss')
  | «if» {token token' : Token} {g g' : Expr} {b b' : Stmt} :
      T token token' → g.Matches N T g' → Matches N T b b' →
      Matches N T (.if token g b) (.if token' g' b')
  | «while» {token token' : Token} {g g' : Expr} {b b' : Stmt} :
      T token token' → g.Matches N T g' → Matches N T b b' →
      Matches N T (.while token g b) (.while token' g' b')
  | empty {token token' : Token} : T token token' → Matches N T (.empty token) (.empty token')

inductive Stmt.MatchesList (N T : Token → Token → Prop) : List Stmt → List Stmt → Prop where
  | nil : MatchesList N T [] []
  | cons {s s' : Stmt} {ss ss' : List Stmt} :
      Stmt.Matches N T s s' → MatchesList N T ss ss' → MatchesList N T (s :: ss) (s' :: ss')

end

structure DeclHead.Matches (N : Token → Token → Prop) (head head' : DeclHead) : Prop where
  id : head'.id = head.id
  token : N head.token head'.token
  ty : head'.ty = head.ty
  nest : head'.nest = head.nest

mutual

inductive Decl.Matches (N T : Token → Token → Prop) : Decl → Decl → Prop where
  | const {head head' : DeclHead} {value : Value} :
      head.Matches N head' → Matches N T (.const head value) (.const head' value)
  | var {head head' : DeclHead} : head.Matches N head' → Matches N T (.var head) (.var head')
  | procedure {head head' : DeclHead} {ds ds' : List Decl} {s s' : Stmt} :
      head.Matches N head' → Decl.MatchesList N T ds ds' → s.Matches N T s' →
      Matches N T (.procedure head ds s) (.procedure head' ds' s')

inductive Decl.MatchesList (N T : Token → Token → Prop) : List Decl → List Decl → Prop where
  | nil : MatchesList N T [] []
  | cons {d d' : Decl} {ds ds' : List Decl} :
      Decl.Matches N T d d' → MatchesList N T ds ds' → MatchesList N T (d :: ds) (d' :: ds')

end

structure Block.Matches (N T : Token → Token → Prop) (b b' : Block) : Prop where
  decls : Decl.MatchesList N T b.decls b'.decls
  stmt : b.stmt.Matches N T b'.stmt

structure Program.Matches (N T : Token → Token → Prop) (p p' : Program) : Prop where
  block : p.block.Matches N T p'.block
  token : T p.token p'.token
  declCount : p'.declCount = p.declCount

section Lemmas

variable {N T : Token → Token → Prop}

theorem Expr.Matches.ty_eq {e e' : Expr} (h : e.Matches N T e') : e'.ty = e.ty := by
  cases h <;> rfl

theorem Decl.Matches.head {d d' : Decl} (h : d.Matches N T d') : d.head.Matches N d'.head := by
  cases h <;> assumption

theorem Decl.Matches.kind_eq {d d' : Decl} (h : d.Matches N T d') : d'.kind = d.kind := by
  cases h <;> rfl

/-! ## Numbers -/

theorem DeclHead.Matches.setId {head head' : DeclHead} (h : head.Matches N head') (id : Nat) :
    DeclHead.Matches N { head with id := id } { head' with id := id } :=
  ⟨rfl, h.token, h.ty, h.nest⟩

mutual

theorem Decl.Matches.number (next : Nat) {d d' : Decl} : d.Matches N T d' →
    (d.number next).1.Matches N T (d'.number next).1 ∧ (d'.number next).2 = (d.number next).2
  | .const h => ⟨.const (h.setId next), rfl⟩
  | .var h => ⟨.var (h.setId next), rfl⟩
  | .procedure h hds hs => by
    obtain ⟨hnumber, hnext⟩ := Decl.MatchesList.number (next + 1) hds
    exact ⟨.procedure (h.setId next) hnumber hs, hnext⟩

theorem Decl.MatchesList.number (next : Nat) {ds ds' : List Decl} : Decl.MatchesList N T ds ds' →
    Decl.MatchesList N T (Decl.numberList next ds).1 (Decl.numberList next ds').1 ∧
      (Decl.numberList next ds').2 = (Decl.numberList next ds).2
  | .nil => ⟨.nil, rfl⟩
  | .cons hd hds => by
    obtain ⟨hnumber, hnext⟩ := Decl.Matches.number next hd
    obtain ⟨hrest, hlast⟩ := Decl.MatchesList.number _ hds
    simp only [Decl.numberList, hnext]
    exact ⟨.cons hnumber hrest, hlast⟩

end

/-- The tree of a block is numbered as the matching one is. -/
theorem Block.Matches.program {b b' : Block} {first first' : Token} (h : b.Matches N T b')
    (hfirst : T first first') :
    (Program.ofBlock first b).Matches N T (Program.ofBlock first' b') := by
  obtain ⟨hdecls, hcount⟩ := h.decls.number 0
  exact ⟨⟨hdecls, h.stmt⟩, hfirst, hcount⟩

/-! ## Names and text -/

/-- Tokens that are related carry the same name. -/
def KeepsName (N : Token → Token → Prop) : Prop := ∀ ⦃t u⦄, N t u → u.name = t.name

theorem Ident.Matches.name_eq (hN : KeepsName N) {ident ident' : Ident} (h : ident.Matches N ident') :
    ident'.name = ident.name :=
  hN h.token

theorem DeclHead.Matches.name_eq (hN : KeepsName N) {head head' : DeclHead} (h : head.Matches N head') :
    head'.name = head.name :=
  hN h.token

theorem Expr.Matches.text_eq (hN : KeepsName N) {e e' : Expr} (h : e.Matches N T e') :
    e'.text = e.text ∧ e'.operandText = e.operandText := by
  induction h with
  | literal => exact ⟨rfl, rfl⟩
  | use hident => exact ⟨hident.name_eq hN, hident.name_eq hN⟩
  | binary _ _ _ ihl ihr => simp only [Expr.text, Expr.operandText, ihl.2, ihr.2, and_self]

mutual

theorem Stmt.Matches.text_eq (hN : KeepsName N) (depth : Nat) {s s' : Stmt} : s.Matches N T s' →
    s'.text depth = s.text depth
  | .assign htarget he => by simp only [Stmt.text, htarget.name_eq hN, (he.text_eq hN).1]
  | .call _ htarget | .input _ htarget => by simp only [Stmt.text, htarget.name_eq hN]
  | .output _ he => by simp only [Stmt.text, (he.text_eq hN).1]
  | .begin _ hss => by simp only [Stmt.text, Stmt.MatchesList.text_eq hN (depth + 1) hss]
  | .if _ hg hb | .while _ hg hb => by
    simp only [Stmt.text, (hg.text_eq hN).1, Stmt.Matches.text_eq hN (depth + 1) hb]
  | .empty _ => rfl

theorem Stmt.MatchesList.text_eq (hN : KeepsName N) (depth : Nat) {ss ss' : List Stmt} :
    Stmt.MatchesList N T ss ss' →
    Stmt.textList depth ss' = Stmt.textList depth ss
  | .nil => rfl
  | .cons hs .nil => by simp only [Stmt.textList, Stmt.Matches.text_eq hN depth hs]
  | .cons hs (.cons hs' hss) => by
    simp only [Stmt.textList, Stmt.Matches.text_eq hN depth hs,
      Stmt.MatchesList.text_eq hN depth (.cons hs' hss)]

end

mutual

theorem Decl.Matches.text_eq (hN : KeepsName N) (depth : Nat) {d d' : Decl} : d.Matches N T d' →
    d'.text depth = d.text depth
  | .const h | .var h => by simp only [Decl.text, h.name_eq hN]
  | .procedure h hds hs => by
    simp only [Decl.text, h.name_eq hN, Decl.MatchesList.text_eq hN (depth + 1) hds,
      hs.text_eq hN (depth + 1)]

theorem Decl.MatchesList.text_eq (hN : KeepsName N) (depth : Nat) {ds ds' : List Decl} :
    Decl.MatchesList N T ds ds' →
    Decl.textList depth ds' = Decl.textList depth ds
  | .nil => rfl
  | .cons hd hds => by
    simp only [Decl.textList, Decl.Matches.text_eq hN depth hd, Decl.MatchesList.text_eq hN depth hds]

end

theorem Decl.Matches.name_eq (hN : KeepsName N) {d d' : Decl} (h : d.Matches N T d') :
    d'.name = d.name :=
  h.head.name_eq hN

theorem Decl.MatchesList.names_eq (hN : KeepsName N) {ds ds' : List Decl} :
    Decl.MatchesList N T ds ds' → ds'.map Decl.name = ds.map Decl.name
  | .nil => rfl
  | .cons hd hds => by
    rw [List.map_cons, List.map_cons, hd.name_eq hN, Decl.MatchesList.names_eq hN hds]

mutual

theorem Decl.Matches.distinct (hN : KeepsName N) {d d' : Decl} : d.Matches N T d' → d.Distinct → d'.Distinct
  | .const _, _ | .var _, _ => trivial
  | .procedure _ hds _, hd => by
    refine ⟨?_, Decl.MatchesList.distinct hN hds hd.2⟩
    rw [hds.names_eq hN]
    exact hd.1

theorem Decl.MatchesList.distinct (hN : KeepsName N) {ds ds' : List Decl} :
    Decl.MatchesList N T ds ds' → Decl.DistinctList ds → Decl.DistinctList ds'
  | .nil, _ => trivial
  | .cons hd hds, h => ⟨Decl.Matches.distinct hN hd h.1, Decl.MatchesList.distinct hN hds h.2⟩

end

end Lemmas

end PLZero
