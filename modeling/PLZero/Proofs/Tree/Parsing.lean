import PLZero.Proofs.Token.Scan
import PLZero.Proofs.Tree.Tokens
import PLZero.Proofs.Tree.Counting

/-!
# What the parser does with a token list

The parser reads past the end of no token list that is closed by an end-of-input token, and a budget
of as many steps as there are tokens is never used up.

* `Parser.Ok` — a parser gives something good, or refuses one of the tokens.
* `Parser.Parses` — it does so on all lists up to a length, and leaves a list of the same form that
  is not longer.  One lemma for each way in which parsers are put together, then one for each rule
  of the grammar.
* `Program.ofTokens_spec` — the tree of a token list has its tokens from the list, and no block of
  it declares a name twice; or a token of the list is refused.
-/

namespace PLZero

/-- The fault names one of the tokens. -/
def ParseFault.In (T : Token → Prop) : ParseFault → Prop
  | .endOfTokens => False
  | .unexpected _ found => T found
  | .duplicate token => T token

namespace Parser

variable {α β : Type} {T : Token → Prop} {n : Nat} {t : Token} {ts : List Token}

/-- The parser succeeds with `Q`, or with a fault that names one of the tokens. -/
def Ok (T : Token → Prop) (m : Parser α) (ts : List Token) (Q : α → List Token → Prop) : Prop :=
  Meets (m ts) (fun r => Q r.1 r.2) (ParseFault.In T)

/-- On streams of at most `n` tokens the parser gives a result with `P` and leaves a stream that is
not longer. -/
def Parses (T : Token → Prop) (n : Nat) (m : Parser α) (P : α → Prop) : Prop :=
  ∀ ts, Stream T ts → ts.length ≤ n →
    Ok T m ts fun a rest => Stream T rest ∧ rest.length ≤ ts.length ∧ P a

/-- The same for streams that start with `t`. -/
def ParsesAt (T : Token → Prop) (t : Token) (n : Nat) (m : Parser α) (P : α → Prop) : Prop :=
  ∀ ts, Stream T (t :: ts) → ts.length < n →
    Ok T m (t :: ts) fun a rest => Stream T rest ∧ rest.length ≤ ts.length + 1 ∧ P a

/-! ## Putting parsers together -/

namespace Ok

variable {Q Q' : α → List Token → Prop} {R : β → List Token → Prop} {m : Parser α}
  {f : α → Parser β}

theorem bind (hm : Ok T m ts Q) (hf : ∀ a rest, Q a rest → Ok T (f a) rest R) :
    Ok T (m >>= f) ts R := by
  unfold Ok at hm ⊢
  simp only [Bind.bind, StateT.bind, Except.bind]
  cases hrun : m ts with
  | error fault => exact hm.of_error hrun
  | ok r => exact hf r.1 r.2 (hm.of_ok hrun)

theorem mono (hm : Ok T m ts Q) (h : ∀ a rest, Q a rest → Q' a rest) : Ok T m ts Q' := by
  unfold Ok at hm ⊢
  cases hrun : m ts with
  | error fault => exact hm.of_error hrun
  | ok r => exact h r.1 r.2 (hm.of_ok hrun)

theorem lift {x : Except ParseFault α} {P : α → Prop} (h : Meets x P (ParseFault.In T)) :
    Ok T (liftM x : Parser α) ts fun a rest => rest = ts ∧ P a := by
  cases x with
  | ok a => exact ⟨rfl, h⟩
  | error f => exact h

end Ok

section Rules

variable {P P' : α → Prop} {Q : β → Prop} {m : Parser α} {f : α → Parser β}

theorem Parses.pure {a : α} (h : P a) : Parses T n (Pure.pure a) P :=
  fun _ hts _ => ⟨hts, Nat.le_refl _, h⟩

theorem Parses.bind (hm : Parses T n m P) (hf : ∀ a, P a → Parses T n (f a) Q) :
    Parses T n (m >>= f) Q := by
  intro ts hts hn
  refine (hm ts hts hn).bind ?_
  rintro a rest ⟨hrest, hle, ha⟩
  refine (hf a ha rest hrest (Nat.le_trans hle hn)).mono ?_
  rintro b rest' ⟨hrest', hle', hb⟩
  exact ⟨hrest', Nat.le_trans hle' hle, hb⟩

theorem Parses.of_le {k : Nat} (hm : Parses T n m P) (h : k ≤ n) : Parses T k m P :=
  fun ts hts hk => hm ts hts (Nat.le_trans hk h)

theorem Parses.at (hm : Parses T n m P) (t : Token) : ParsesAt T t n m P :=
  fun ts hts hn => hm (t :: ts) hts hn

theorem Parses.peek {f : Token → Parser β} (hf : ∀ t, T t → ParsesAt T t n (f t) Q) :
    Parses T n (Parser.peek >>= f) Q := by
  intro ts hts hn
  cases hts with
  | eof ht heof => exact hf _ ht [] (.eof ht heof) hn
  | cons ht hne hts => exact hf _ ht _ (.cons ht hne hts) hn

/-- A token that is not the end of the input may be taken. -/
theorem ok_next {f : Token → Parser β} (h : t.kind ≠ .eof) (hf : Parses T n (f t) Q)
    (hts : Stream T (t :: ts)) (hn : ts.length ≤ n) :
    Ok T (Parser.next >>= f) (t :: ts) fun b rest =>
      Stream T rest ∧ rest.length ≤ ts.length ∧ Q b :=
  hf ts (hts.tail h) hn

theorem ParsesAt.next {f : Token → Parser β} (h : t.kind ≠ .eof) (hf : Parses T n (f t) Q) :
    ParsesAt T t (n + 1) (Parser.next >>= f) Q := by
  intro ts hts hn
  refine (ok_next h hf hts (Nat.le_of_lt_succ hn)).mono ?_
  rintro b rest ⟨hrest, hle, hb⟩
  exact ⟨hrest, Nat.le_succ_of_le hle, hb⟩

theorem ParsesAt.next' (h : t.kind ≠ .eof) (ht : T t) : ParsesAt T t n Parser.next T :=
  fun _ hts _ => ⟨hts.tail h, Nat.le_succ _, ht⟩

theorem ParsesAt.unexpected (ht : T t) (expected : Expected) :
    ParsesAt T t n (Parser.unexpected expected) P :=
  fun _ _ _ => ht

end Rules

section Tokens

variable {P : α → Prop}

/-- There is no stream without tokens. -/
theorem Parses.zero {m : Parser α} : Parses T 0 m P := by
  intro ts hts hn
  cases hts <;> cases hn

theorem parses_expect {kind : TokenKind} (h : kind ≠ .eof) : Parses T n (expect kind) T := by
  refine .peek fun t ht => ?_
  split
  · rename_i hkind
    exact .next' (hkind ▸ h) ht
  · exact .unexpected ht _

theorem parses_ident : Parses T n ident T := by
  refine .peek fun t ht => ?_
  split
  · rename_i hkind
    exact .next' (by simp [hkind]) ht
  · exact .unexpected ht _

theorem parses_literal : Parses T n literal fun _ => True := by
  cases n with
  | zero => exact .zero
  | succ n =>
    refine .peek fun t ht => ?_
    split
    · rename_i hkind
      exact .next (by simp [hkind]) (.pure trivial)
    · exact .unexpected ht _

theorem parses_sepBy1 {item : Parser α} {separator : TokenKind} {budget : Nat}
    (hsep : separator ≠ .eof) (h : Parses T n item P) (hn : n ≤ budget) :
    Parses T n (sepBy1 item separator budget) fun as => ∀ a ∈ as, P a := by
  induction budget generalizing n with
  | zero =>
    rw [Nat.le_zero.mp hn]
    exact .zero
  | succ budget ih =>
    cases n with
    | zero => exact .zero
    | succ n =>
      refine h.bind fun a ha => .peek fun t _ => ?_
      split
      · rename_i hkind
        have hrest := ih (h.of_le (Nat.le_succ n)) (Nat.le_of_succ_le_succ hn)
        refine .next (hkind ▸ hsep) (hrest.bind fun as has => .pure ?_)
        exact List.forall_mem_cons.mpr ⟨ha, has⟩
      · exact (Parses.pure (by simpa using ha)).at t

end Tokens

/-! ## Expressions -/

section Expressions

theorem kind_ne_eof_of_op {level : Op → Bool} {op : Op} (h : t.kind.op?.filter level = some op) :
    t.kind ≠ .eof := by
  intro heof
  rw [heof] at h
  cases h

variable {sub : Parser Expr}

theorem parses_chain {level : Op → Bool} (h : Parses T n sub (Expr.From T)) {lhs : Expr}
    (hlhs : lhs.From T) : Parses T n (chain level sub n lhs) (Expr.From T) := by
  induction n generalizing lhs with
  | zero => exact .zero
  | succ n ih =>
    refine .peek fun t ht => ?_
    split
    · rename_i op hop
      have hsub := h.of_le (Nat.le_succ n)
      exact .next (kind_ne_eof_of_op hop) (hsub.bind fun rhs hrhs => ih hsub ⟨ht, hlhs, hrhs⟩)
    · exact (Parses.pure hlhs).at t

theorem parses_primary (h : Parses T n sub (Expr.From T)) :
    Parses T (n + 1) (primary sub) (Expr.From T) := by
  refine .peek fun t ht => ?_
  split
  · rename_i hkind
    exact .next (by simp [hkind]) (.pure ht)
  · rename_i hkind
    exact .next (by simp [hkind]) (.pure ht)
  · rename_i hkind
    exact .next (by simp [hkind])
      (h.bind fun e he => (parses_expect (by simp)).bind fun _ _ => .pure he)
  · exact .unexpected ht _

theorem parses_term (h : Parses T n sub (Expr.From T)) :
    Parses T (n + 1) (term (n + 1) sub) (Expr.From T) :=
  (parses_primary h).bind fun _ he => parses_chain (parses_primary h) he

theorem parses_additive (h : Parses T n sub (Expr.From T)) :
    Parses T (n + 1) (additive (n + 1) sub) (Expr.From T) :=
  (parses_term h).bind fun _ he => parses_chain (parses_term h) he

theorem parses_comparison (h : Parses T n sub (Expr.From T)) :
    Parses T (n + 1) (comparison (n + 1) sub) (Expr.From T) := by
  refine (parses_additive h).bind fun lhs hlhs => .peek fun t ht => ?_
  split
  · exact (Parses.pure hlhs).at t
  · rename_i op hop
    refine .next (kind_ne_eof_of_op hop)
      (((parses_additive h).of_le (Nat.le_succ n)).bind fun rhs hrhs => .peek fun t' ht' => ?_)
    split
    · exact .unexpected ht' _
    · exact (Parses.pure ⟨ht, hlhs, hrhs⟩).at t'

theorem parses_expression : Parses T n (expression n) (Expr.From T) := by
  induction n with
  | zero => exact .zero
  | succ n ih => exact parses_comparison ih

end Expressions

/-! ## Statements -/

section Statements

theorem parses_simpleStatement {sub : Parser Stmt} (h : Parses T n sub (Stmt.From T)) :
    Parses T (n + 1) (simpleStatement (n + 1) sub) (Stmt.From T) := by
  have hexpr : Parses T n (expression (n + 1)) (Expr.From T) :=
    parses_expression.of_le (Nat.le_succ n)
  refine .peek fun t ht => ?_
  split
  · rename_i hkind
    exact .next (by simp [hkind]) ((parses_expect (by simp)).bind fun _ _ =>
      hexpr.bind fun e he => .pure ⟨ht, he⟩)
  · rename_i hkind
    exact .next (by simp [hkind]) (parses_ident.bind fun t' ht' => .pure ⟨ht, ht'⟩)
  · rename_i hkind
    exact .next (by simp [hkind]) (parses_ident.bind fun t' ht' => .pure ⟨ht, ht'⟩)
  · rename_i hkind
    exact .next (by simp [hkind]) (hexpr.bind fun e he => .pure ⟨ht, he⟩)
  · rename_i hkind
    refine .next (by simp [hkind]) ((parses_sepBy1 (by simp) h (Nat.le_succ n)).bind fun ss hss =>
      (parses_expect (by simp)).bind fun _ _ => .pure ⟨ht, ?_⟩)
    exact Stmt.fromList_iff.mpr hss
  · rename_i hkind
    exact .next (by simp [hkind]) (hexpr.bind fun e he => (parses_expect (by simp)).bind fun _ _ =>
      h.bind fun s hs => .pure ⟨ht, he, hs⟩)
  · rename_i hkind
    exact .next (by simp [hkind]) (hexpr.bind fun e he => (parses_expect (by simp)).bind fun _ _ =>
      h.bind fun s hs => .pure ⟨ht, he, hs⟩)
  · exact (Parses.pure ht).at t

theorem parses_statement : Parses T n (statement n) (Stmt.From T) := by
  induction n with
  | zero => exact .zero
  | succ n ih => exact parses_simpleStatement ih

end Statements

/-! ## Declarations -/

section Declarations

/-- The tokens of the declaration are from the list, and no block inside it repeats a name. -/
abbrev DeclFrom (T : Token → Prop) (d : Decl) : Prop := d.From T ∧ d.Distinct

/-- The same for a block. -/
structure BlockFrom (T : Token → Prop) (b : Block) : Prop where
  decls : ∀ d ∈ b.decls, DeclFrom T d
  nodup : (b.decls.map Decl.name).Nodup
  stmt : b.stmt.From T

theorem parses_constantDecl : Parses T n constantDecl (DeclFrom T) :=
  parses_ident.bind fun _ ht => (parses_expect (by simp)).bind fun _ _ =>
    parses_literal.bind fun _ _ => .pure ⟨ht, trivial⟩

theorem parses_variableDecl : Parses T n variableDecl (DeclFrom T) :=
  parses_ident.bind fun _ ht => .pure ⟨ht, trivial⟩

theorem parses_procedureDecl {sub : Parser Block} (h : Parses T n sub (BlockFrom T)) :
    Parses T n (procedureDecl sub) (DeclFrom T) := by
  refine parses_ident.bind fun t ht => (parses_expect (by simp)).bind fun _ _ =>
    h.bind fun b hb => .pure ⟨?_, ?_⟩
  · exact ⟨ht, Decl.fromList_iff.mpr fun d hd => (hb.decls d hd).1, hb.stmt⟩
  · exact ⟨hb.nodup, Decl.distinctList_iff.mpr fun d hd => (hb.decls d hd).2⟩

/-- A group of declarations takes up a token. -/
theorem ok_group {sub : Parser Block} (h : Parses T n sub (BlockFrom T)) (hts : Stream T ts)
    (hn : ts.length ≤ n + 1) :
    Ok T (group n sub) ts fun ds rest => Stream T rest ∧ rest.length ≤ ts.length ∧
      (ds ≠ [] → rest.length < ts.length) ∧ ∀ d ∈ ds, DeclFrom T d := by
  obtain ⟨t, ts, rfl⟩ : ∃ t ts', ts = t :: ts' := by cases hts <;> exact ⟨_, _, rfl⟩
  have hn : ts.length ≤ n := Nat.le_of_succ_le_succ hn
  -- What follows the keyword of a group.
  have hpart {m : Parser (List Decl)} (hkind : t.kind ≠ .eof)
      (hm : Parses T n m fun ds => ∀ d ∈ ds, DeclFrom T d) :
      Ok T (next >>= fun _ => m) (t :: ts) fun ds rest => Stream T rest ∧
        rest.length ≤ (t :: ts).length ∧ (ds ≠ [] → rest.length < (t :: ts).length) ∧
        ∀ d ∈ ds, DeclFrom T d := by
    refine (ok_next (f := fun _ => m) hkind hm hts hn).mono ?_
    rintro ds rest ⟨hrest, hle, hds⟩
    exact ⟨hrest, Nat.le_succ_of_le hle, fun _ => Nat.lt_succ_of_le hle, hds⟩
  refine Ok.bind (m := peek) (Q := fun a rest => a = t ∧ rest = t :: ts) ⟨rfl, rfl⟩ ?_
  rintro _ _ ⟨rfl, rfl⟩
  split
  · rename_i hkind
    exact hpart (by simp [hkind]) (.bind (parses_sepBy1 (by simp) parses_constantDecl n.le_refl)
      fun ds hds => (parses_expect (by simp)).bind fun _ _ => .pure hds)
  · rename_i hkind
    exact hpart (by simp [hkind]) (.bind (parses_sepBy1 (by simp) parses_variableDecl n.le_refl)
      fun ds hds => (parses_expect (by simp)).bind fun _ _ => .pure hds)
  · rename_i hkind
    exact hpart (by simp [hkind]) ((parses_procedureDecl h).bind fun d hd =>
      (parses_expect (by simp)).bind fun _ _ => .pure (List.forall_mem_singleton.mpr hd))
  · exact ⟨hts, Nat.le_refl _, by simp, by simp⟩

theorem distinct_spec (seen : List String) {ds : List Decl} (h : ∀ d ∈ ds, DeclFrom T d) :
    Meets (distinct seen ds)
      (fun seen' => (ds.map Decl.name).Nodup ∧ (∀ d ∈ ds, d.name ∉ seen) ∧
        ∀ x, x ∈ seen' ↔ x ∈ seen ∨ x ∈ ds.map Decl.name)
      (ParseFault.In T) := by
  induction ds generalizing seen with
  | nil => simp [distinct, Meets]
  | cons d ds ih =>
    rw [List.forall_mem_cons] at h
    rw [distinct]
    by_cases hseen : d.name ∈ seen
    · rw [if_pos hseen]
      exact h.1.1.token
    · rw [if_neg hseen]
      have hrest := ih (d.name :: seen) h.2
      cases hrun : distinct (d.name :: seen) ds with
      | error f => exact hrest.of_error hrun
      | ok seen' =>
        obtain ⟨hnodup, hnot, hmem⟩ := hrest.of_ok hrun
        simp only [List.mem_cons, not_or] at hnot hmem
        refine ⟨?_, List.forall_mem_cons.mpr ⟨hseen, fun d' hd' => (hnot d' hd').2⟩, fun x => ?_⟩
        · rw [List.map_cons, List.nodup_cons, List.mem_map]
          refine ⟨?_, hnodup⟩
          rintro ⟨d', hd', hname⟩
          exact (hnot d' hd').1 hname
        · rw [hmem, List.map_cons, List.mem_cons]
          grind

/-- The declarations of a block: good ones, with names of their own. -/
abbrev DeclsFrom (T : Token → Prop) (seen : List String) (ds : List Decl) : Prop :=
  (∀ d ∈ ds, DeclFrom T d) ∧ (ds.map Decl.name).Nodup ∧ ∀ d ∈ ds, d.name ∉ seen

theorem parses_declarations {sub : Parser Block} {budget : Nat} (h : Parses T n sub (BlockFrom T))
    (hbudget : budget ≤ n + 1) (seen : List String) :
    Parses T budget (declarations sub budget seen) (DeclsFrom T seen) := by
  induction budget generalizing seen with
  | zero => exact .zero
  | succ budget ih =>
    intro ts hts hn
    refine (ok_group (h.of_le (Nat.le_of_succ_le_succ hbudget)) hts hn).bind ?_
    rintro ds rest ⟨hrest, hle, hlt, hds⟩
    cases ds with
    | nil => exact ⟨hrest, hle, by simp, by simp, by simp⟩
    | cons d ds =>
      have hlt := hlt (by simp)
      refine (Ok.lift (distinct_spec seen hds)).bind ?_
      rintro seen' rest ⟨rfl, hnodup, hnot, hmem⟩
      refine (ih (Nat.le_of_succ_le hbudget) seen' rest hrest (by omega)).bind ?_
      rintro ds' rest' ⟨hrest', hle', hds', hnodup', hnot'⟩
      refine ⟨hrest', by dsimp only; omega, List.forall_mem_append.mpr ⟨hds, hds'⟩, ?_, ?_⟩
      · rw [List.map_append, List.nodup_append]
        refine ⟨hnodup, hnodup', fun x hx y hy hxy => ?_⟩
        obtain ⟨d', hd', rfl⟩ := List.mem_map.mp hy
        exact hnot' d' hd' ((hmem _).mpr (.inr (hxy ▸ hx)))
      · exact List.forall_mem_append.mpr
          ⟨hnot, fun d' hd' hin => hnot' d' hd' ((hmem _).mpr (.inl hin))⟩

theorem parses_block : Parses T n (block n) (BlockFrom T) := by
  induction n with
  | zero => exact .zero
  | succ n ih =>
    exact (parses_declarations ih (Nat.le_refl _) []).bind fun ds hds =>
      parses_statement.bind fun s hs => .pure ⟨hds.1, hds.2.1, hs⟩

end Declarations

/-! ## Programs -/

theorem from_ofSequence {first : Token} {ss : List Stmt} (ht : T first)
    (h : ∀ s ∈ ss, s.From T) : (ofSequence first ss).From T := by
  match ss, h with
  | [], _ => exact ht
  | [s], h => exact h s (List.mem_singleton_self s)
  | s :: s' :: ss, h => exact ⟨(h s List.mem_cons_self).token, Stmt.fromList_iff.mpr h⟩

/-- The last token may be taken, though nothing follows it. -/
theorem ok_expect_eof (hts : Stream T ts) : Ok T (expect .eof) ts fun _ _ => True := by
  cases hts with
  | @eof t _ heof =>
    simp [Ok, expect, peek, next, heof, Meets, bind, StateT.bind, Except.bind]
  | @cons t ts ht hne hts =>
    refine Ok.bind (m := peek) (Q := fun a rest => a = t ∧ rest = t :: ts) ⟨rfl, rfl⟩ ?_
    rintro _ _ ⟨rfl, rfl⟩
    rw [if_neg hne]
    exact ht

theorem BlockFrom.program {b : Block} (h : BlockFrom T b) (first : Token) :
    (Program.ofBlock first b).From T ∧ (Program.ofBlock first b).Distinct := by
  refine ⟨⟨?_, h.stmt⟩, ?_, ?_⟩
  · exact Decl.FromList.number 0 _ (Decl.fromList_iff.mpr fun d hd => (h.decls d hd).1)
  · simp only [Program.ofBlock, Block.number, Decl.names_number]
    exact h.nodup
  · exact Decl.DistinctList.number 0 _ (Decl.distinctList_iff.mpr fun d hd => (h.decls d hd).2)

theorem ok_program (hts : Stream T ts) (hn : ts.length ≤ n) :
    Ok T (program n) ts fun p _ => p.From T ∧ p.Distinct := by
  obtain ⟨t, ts, rfl, ht⟩ : ∃ t ts', ts = t :: ts' ∧ T t := by
    cases hts with
    | eof ht _ => exact ⟨_, _, rfl, ht⟩
    | cons ht _ _ => exact ⟨_, _, rfl, ht⟩
  refine Ok.bind (m := peek) (Q := fun a rest => a = t ∧ rest = t :: ts) ⟨rfl, rfl⟩ ?_
  rintro _ _ ⟨rfl, rfl⟩
  refine (parses_declarations parses_block (Nat.le_succ n) [] _ hts hn).bind ?_
  rintro ds rest ⟨hrest, hle, hds, hnodup, -⟩
  have hle := Nat.le_trans hle hn
  refine (parses_sepBy1 (by simp) parses_statement (Nat.le_refl n) _ hrest hle).bind ?_
  rintro ss rest ⟨hrest, -, hss⟩
  refine (parses_expect (by simp) _ hrest (Nat.le_refl _)).bind ?_
  rintro _ rest ⟨hrest, -, -⟩
  refine (ok_expect_eof hrest).bind fun _ _ _ => ?_
  exact BlockFrom.program ⟨hds, hnodup, from_ofSequence ht hss⟩ _

end Parser

/-- **The parser on a token list.** -/
theorem Program.ofTokens_spec {T : Token → Prop} {tokens : List Token} (h : Stream T tokens) :
    Meets (ofTokens tokens) (fun p => p.From T ∧ p.Distinct) (ParseFault.In T) := by
  have hok := Parser.ok_program h (Nat.le_succ tokens.length)
  unfold Parser.Ok at hok
  rw [ofTokens_eq, StateT.run']
  cases hrun : Parser.program (tokens.length + 1) tokens with
  | ok r => exact hok.of_ok hrun
  | error f => exact hok.of_error hrun

end PLZero
