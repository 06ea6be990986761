import PLZero.Proofs.Tree.Declarations
import PLZero.Proofs.Tree.Soundness

/-!
# Declarations in source order

* `declaredNames` — the names that a token list declares, read off the tokens alone: each stands
  right after `const`, `var`, `procedure` or a comma.
* `Silent` — tokens among which no name is declared, such as those of expressions and of statements.
* `Grammar.Declarations.declaredNames_append`, `Grammar.Block.declaredNames_append` — the names that
  are declared in derived tokens are those of the tree, a procedure before what its body declares.
* `Program.declarations_in_source_order` — the numbers of the declarations are `0, 1, 2, …` in the
  order in which the source declares their names.
-/

namespace PLZero

/-! ## Names that are declared -/

/-- A name right after such a token is declared there. -/
def TokenKind.introduces : TokenKind → Bool
  | .keyword .const | .keyword .var | .keyword .procedure | .mark .comma => true
  | _ => false

/-- The names that are declared before the end of input, in the order of the tokens. -/
def declaredNames : List Token → List Token
  | [] => []
  | t :: ts =>
    if t.kind = .eof then []
    else if t.kind.introduces then ts.head?.toList ++ declaredNames ts
    else declaredNames ts

theorem declaredNames_sublist_tail (ts : List Token) : (declaredNames ts).Sublist ts.tail := by
  induction ts with
  | nil => exact .slnil
  | cons t ts ih =>
    unfold declaredNames
    split
    · exact List.nil_sublist _
    · split
      · cases ts with
        | nil => exact .slnil
        | cons u us => exact ih.cons_cons u
      · exact ih.trans (List.tail_sublist ts)

theorem declaredNames_of_eof {t : Token} (h : t.kind = .eof) (ts : List Token) :
    declaredNames (t :: ts) = [] := by
  simp [declaredNames, h]

theorem declaredNames_of_introduces {t : Token} (h : t.kind.introduces) (u : Token)
    (ts : List Token) : declaredNames (t :: u :: ts) = u :: declaredNames (u :: ts) := by
  have hne : t.kind ≠ .eof := by
    intro heof
    rw [heof] at h
    cases h
  rw [declaredNames, if_neg hne, if_pos h]
  rfl

/-! ## Silent tokens -/

def TokenKind.isSilent : TokenKind → Bool
  | .eof => false
  | kind => !kind.introduces

def Silent (ts : List Token) : Prop := ∀ t ∈ ts, t.kind.isSilent

@[simp]
theorem silent_nil : Silent [] := fun _ h => absurd h List.not_mem_nil

@[simp]
theorem silent_cons {t : Token} {ts : List Token} :
    Silent (t :: ts) ↔ t.kind.isSilent ∧ Silent ts := List.forall_mem_cons

@[simp]
theorem silent_append {ts us : List Token} : Silent (ts ++ us) ↔ Silent ts ∧ Silent us :=
  List.forall_mem_append

theorem declaredNames_of_isSilent {t : Token} (h : t.kind.isSilent) (ts : List Token) :
    declaredNames (t :: ts) = declaredNames ts := by
  unfold TokenKind.isSilent at h
  split at h
  · cases h
  · next hne => simp_all [declaredNames]

theorem Silent.declaredNames_append {ts : List Token} (h : Silent ts) (rest : List Token) :
    declaredNames (ts ++ rest) = declaredNames rest := by
  induction ts with
  | nil => rfl
  | cons t ts ih =>
    obtain ⟨ht, hts⟩ := silent_cons.mp h
    rw [List.cons_append, declaredNames_of_isSilent ht, ih hts]

namespace Grammar

theorem isSilent_of_kind {t : Token} {kind : TokenKind} (h : t.kind = kind)
    (hkind : kind.isSilent) : t.kind.isSilent := by rwa [h]

mutual

theorem Primary.silent {ts : List Token} {e : Expr} : Primary ts e → Silent ts
  | .ident ht => by simpa using isSilent_of_kind ht rfl
  | .literal ht => by simpa using isSilent_of_kind ht rfl
  | .parens hl he hr => by
    simp [isSilent_of_kind hl rfl, Expression.silent he, isSilent_of_kind hr rfl]

theorem Term.silent {ts : List Token} {e : Expr} : Term ts e → Silent ts
  | .primary h => Primary.silent h
  | .operation hl ht _ hr => by
    simp [Term.silent hl, isSilent_of_kind ht rfl, Primary.silent hr]

theorem Additive.silent {ts : List Token} {e : Expr} : Additive ts e → Silent ts
  | .term h => Term.silent h
  | .operation hl ht _ hr => by
    simp [Additive.silent hl, isSilent_of_kind ht rfl, Term.silent hr]

theorem Expression.silent {ts : List Token} {e : Expr} : Expression ts e → Silent ts
  | .additive h => Additive.silent h
  | .comparison hl ht hr => by
    simp [Additive.silent hl, isSilent_of_kind ht rfl, Additive.silent hr]

end

mutual

theorem Statement.silent {next : Token} {ts : List Token} {s : Stmt} :
    Statement next ts s → Silent ts
  | .assign ht hu he => by
    simp [isSilent_of_kind ht rfl, isSilent_of_kind hu rfl, he.silent]
  | .call ht hu | .input ht hu => by simp [isSilent_of_kind ht rfl, isSilent_of_kind hu rfl]
  | .output ht he => by simp [isSilent_of_kind ht rfl, he.silent]
  | .begin ht hss hstop => by
    simp [isSilent_of_kind ht rfl, Statements.silent hss, isSilent_of_kind hstop rfl]
  | .if ht he hu hs | .while ht he hu hs => by
    simp [isSilent_of_kind ht rfl, he.silent, isSilent_of_kind hu rfl, Statement.silent hs]
  | .empty => silent_nil

theorem Statements.silent {next : Token} {ts : List Token} {ss : List Stmt} :
    Statements next ts ss → Silent ts
  | .one hs => Statement.silent hs
  | .cons hs hseparator hss => by
    simp [Statement.silent hs, isSilent_of_kind hseparator rfl, Statements.silent hss]

end

/-! ## Names in derived tokens

Every lemma is about the tokens of one part of a sentence with any tokens after them. -/

/-- What an item of a list declares is the name it begins with. -/
def DeclaresFirst (Item : List Token → Decl → Prop) : Prop :=
  ∀ ts d, Item ts d → Silent ts ∧ d.subtree = [d] ∧ ∃ us, ts = d.head.token :: us

theorem declaresFirst_constant : DeclaresFirst Constant := by
  rintro _ _ ⟨ht, hu, hv⟩
  exact ⟨by simp [isSilent_of_kind ht rfl, isSilent_of_kind hu rfl, isSilent_of_kind hv rfl], rfl,
    _, rfl⟩

theorem declaresFirst_variable : DeclaresFirst Variable := by
  rintro _ _ ⟨ht⟩
  exact ⟨by simpa using isSilent_of_kind ht rfl, rfl, _, rfl⟩

theorem DeclaresFirst.declaredNames_append {Item : List Token → Decl → Prop}
    (hItem : DeclaresFirst Item) {t : Token} (ht : t.kind.introduces) {ts : List Token} {d : Decl}
    (h : Item ts d) (rest : List Token) :
    declaredNames (t :: ts ++ rest) =
      d.subtree.map (fun d => d.head.token) ++ declaredNames rest := by
  obtain ⟨hsilent, hsubtree, us, hus⟩ := hItem ts d h
  calc declaredNames (t :: ts ++ rest)
      = d.head.token :: declaredNames (ts ++ rest) := by
        rw [hus]
        exact declaredNames_of_introduces ht _ _
    _ = d.subtree.map (fun d => d.head.token) ++ declaredNames rest := by
        rw [hsilent.declaredNames_append, hsubtree]
        rfl

/-- The comma between two items introduces the second. -/
theorem Listed.declaredNames_append {Item : List Token → Decl → Prop} (hItem : DeclaresFirst Item)
    {ts : List Token} {ds : List Decl} (h : Listed Item ts ds) {t : Token}
    (ht : t.kind.introduces) (rest : List Token) :
    declaredNames (t :: ts ++ rest) =
      (Decl.subtrees ds).map (fun d => d.head.token) ++ declaredNames rest := by
  induction h generalizing t with
  | one hd =>
    rw [hItem.declaredNames_append ht hd, Decl.subtrees, Decl.subtrees, List.append_nil]
  | @cons comma ts us d ds hd hcomma _ ih =>
    have hnext : comma.kind.introduces := by
      rw [hcomma]
      rfl
    rw [← List.cons_append, List.append_assoc, hItem.declaredNames_append ht hd, ih hnext,
      Decl.subtrees, List.map_append, List.append_assoc]

/-- The semicolon at the end of a list of items declares nothing. -/
theorem Listed.declaredNames_group {Item : List Token → Decl → Prop} (hItem : DeclaresFirst Item)
    {ts : List Token} {ds : List Decl} (h : Listed Item ts ds) {t stop : Token}
    (ht : t.kind.introduces) (hstop : stop.kind = .mark .semicolon) (rest : List Token) :
    declaredNames (t :: ts ++ [stop] ++ rest) =
      (Decl.subtrees ds).map (fun d => d.head.token) ++ declaredNames rest := by
  rw [List.append_assoc, h.declaredNames_append hItem ht, List.singleton_append,
    declaredNames_of_isSilent (isSilent_of_kind hstop rfl)]

theorem declaredNames_procedure {t u v stop : Token} {name : String} {ts us rest : List Token}
    (ht : t.kind = .keyword .procedure) (hu : u.kind = .ident name) (hv : v.kind = .mark .semicolon)
    (hstop : stop.kind = .mark .semicolon)
    (hts : declaredNames (ts ++ stop :: rest) = us ++ declaredNames (stop :: rest)) :
    declaredNames (t :: u :: v :: ts ++ [stop] ++ rest) = u :: us ++ declaredNames rest := by
  have ht' : t.kind.introduces := by
    rw [ht]
    rfl
  calc declaredNames (t :: u :: v :: ts ++ [stop] ++ rest)
      = u :: declaredNames (u :: v :: (ts ++ [stop] ++ rest)) :=
        declaredNames_of_introduces ht' u _
    _ = u :: declaredNames (ts ++ stop :: rest) := by
        rw [declaredNames_of_isSilent (isSilent_of_kind hu rfl),
          declaredNames_of_isSilent (isSilent_of_kind hv rfl), List.append_assoc,
          List.singleton_append]
    _ = u :: us ++ declaredNames rest := by
        rw [hts, declaredNames_of_isSilent (isSilent_of_kind hstop rfl), List.cons_append]

mutual

theorem Group.declaredNames_append {ts : List Token} {ds : List Decl} (rest : List Token) :
    Group ts ds → declaredNames (ts ++ rest) =
      (Decl.subtrees ds).map (fun d => d.head.token) ++ declaredNames rest
  | .consts ht hds hstop =>
    hds.declaredNames_group declaresFirst_constant (by rw [ht]; rfl) hstop rest
  | .vars ht hds hstop =>
    hds.declaredNames_group declaresFirst_variable (by rw [ht]; rfl) hstop rest
  | .procedure ht hu hv hb hstop => by
    rw [declaredNames_procedure ht hu hv hstop (Block.declaredNames_append _ hb)]
    simp [Decl.subtrees, Decl.subtree, Decl.head, DeclHead.ofToken, DeclHead.new]

theorem Declarations.declaredNames_append {ts : List Token} {ds : List Decl} (rest : List Token) :
    Declarations ts ds → declaredNames (ts ++ rest) =
      (Decl.subtrees ds).map (fun d => d.head.token) ++ declaredNames rest
  | .nil => rfl
  | .cons hgroup hds => by
    rw [List.append_assoc, Group.declaredNames_append _ hgroup,
      Declarations.declaredNames_append _ hds, Decl.subtrees_append, List.map_append,
      List.append_assoc]

theorem Block.declaredNames_append {next : Token} {ts : List Token} {b : PLZero.Block}
    (rest : List Token) :
    Block next ts b → declaredNames (ts ++ rest) =
      (Decl.subtrees b.decls).map (fun d => d.head.token) ++ declaredNames rest
  | .mk hds hs => by
    rw [List.append_assoc, Declarations.declaredNames_append _ hds, hs.silent.declaredNames_append]

end

end Grammar

/-! ## Programs -/

theorem Grammar.Declarations.declaredNames_program {ts us rest : List Token} {ds : List Decl}
    {dot eof : Token} (hds : Declarations ts ds) (hus : Silent us) (hdot : dot.kind = .mark .dot)
    (heof : eof.kind = .eof) (first : Token) (s : Stmt) :
    declaredNames (ts ++ us ++ [dot, eof] ++ rest) =
      (Program.ofBlock first ⟨ds, s⟩).declarations.map (fun d => d.head.token) := by
  calc declaredNames (ts ++ us ++ [dot, eof] ++ rest)
      = (Decl.subtrees ds).map (fun d => d.head.token) ++
          declaredNames (us ++ dot :: eof :: rest) := by
        rw [List.append_assoc, List.append_assoc, hds.declaredNames_append]
        rfl
    _ = (Decl.subtrees ds).map (fun d => d.head.token) := by
        rw [hus.declaredNames_append, declaredNames_of_isSilent (isSilent_of_kind hdot rfl),
          declaredNames_of_eof heof, List.append_nil]
    _ = (Program.ofBlock first ⟨ds, s⟩).declarations.map (fun d => d.head.token) :=
        (Decl.tokens_numberList 0 ds).symm

theorem Grammar.Program.declaredNames_append {ts rest : List Token} {p : PLZero.Program}
    (h : Grammar.Program ts p) :
    declaredNames (ts ++ rest) = p.declarations.map (fun d => d.head.token) := by
  cases h with
  | single hds hs hdot heof => exact hds.declaredNames_program hs.silent hdot heof _ _
  | sequence hds hss hdot heof => exact hds.declaredNames_program hss.silent hdot heof _ _

theorem Grammar.Program.numbered {ts : List Token} {p : PLZero.Program}
    (h : Grammar.Program ts p) : p.Numbered := by
  cases h <;> exact Program.numbered_ofBlock _ _

/-- Declarations at any depth are numbered `0, 1, 2, …` without a gap.  In the order of the numbers
their names are those that the token list declares, from its first token on. -/
theorem Program.declarations_in_source_order {tokens : List Token} {p : Program}
    (h : ofTokens tokens = .ok p) :
    p.declarations.map (fun d => d.head.id) = List.range p.declCount ∧
      p.declarations.map (fun d => d.head.token) = declaredNames tokens ∧
      (p.declarations.map (fun d => d.head.token)).Sublist tokens := by
  obtain ⟨ts, eof, rest, rfl, -, hp⟩ := Grammar.exists_program_of_ofTokens h
  have hnames : declaredNames (ts ++ eof :: rest) = p.declarations.map (fun d => d.head.token) := by
    rw [← List.singleton_append, ← List.append_assoc]
    exact hp.declaredNames_append
  refine ⟨hp.numbered, hnames.symm, ?_⟩
  rw [← hnames]
  exact (declaredNames_sublist_tail _).trans (List.tail_sublist _)

/-- Procedures inside a procedure, and lists before and after them. -/
def nestedGroups : String :=
  "const a = 1, b = 2; procedure p; var c; procedure q; var d, e; ; const f = 3; c := a; var g; ."

theorem nestedGroups_in_source_order :
    ∃ tokens p, scan nestedGroups = .ok tokens ∧ Program.ofTokens tokens = .ok p ∧
      (declaredNames tokens).map Token.name = ["a", "b", "p", "c", "q", "d", "e", "f", "g"] ∧
      p.declCount = 9 ∧ p.declarations.map (fun d => d.head.id) = List.range p.declCount ∧
      p.declarations.map (fun d => d.head.token) = declaredNames tokens ∧
      (p.declarations.map (fun d => d.head.token)).Sublist tokens := by
  obtain ⟨tokens, hscan, hnames, p, hp, hcount⟩ :
      ∃ tokens, scan nestedGroups = .ok tokens ∧
        (declaredNames tokens).map Token.name = ["a", "b", "p", "c", "q", "d", "e", "f", "g"] ∧
        ∃ p, Program.ofTokens tokens = .ok p ∧ p.declCount = 9 := by
    decide +kernel
  exact ⟨tokens, p, hscan, hp, hnames, hcount, Program.declarations_in_source_order hp⟩

end PLZero
