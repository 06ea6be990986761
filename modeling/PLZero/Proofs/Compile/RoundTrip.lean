import PLZero.Compile
import PLZero.Proofs.Tree.Completeness
import PLZero.Proofs.Tree.Printing

/-!
# Printed programs are read back

The text of a program is a program of the same tree.  Statements in sequence at the top of a program
are printed between `begin` and `end`, and so their tokens change: the tree is known by the word
`begin` where it was known by its first statement, and an empty statement at the end by the word
`end` where it was known by the closing dot.

* `Program.topLevel` — the statements at the top, which the tree of a source has as they were
  written (`Grammar.Program.exists_topLevel`).
* `Program.Bracketed` — a program, and another that has its sequence of statements in `begin … end`.
* `Program.ofSource_text` — what is read back, for one statement at the top and for more.
-/

namespace PLZero

open Lexer

/-! ## The first token -/

section First

variable {ts us : List Token} {ds : List Decl}

theorem Grammar.Listed.exists_item {Item : List Token → Decl → Prop} (h : Listed Item ts ds) :
    ∃ us d es, ds = d :: es ∧ Item us d := by
  cases h with
  | one h => exact ⟨_, _, _, rfl, h⟩
  | cons h => exact ⟨_, _, _, rfl, h⟩

theorem Grammar.Group.head_kind (h : Group ts ds) :
    ts.head?.map Token.kind = (Decl.kindsList ds).head? := by
  cases h with
  | consts ht h =>
    obtain ⟨us, d, es, rfl, hitem⟩ := h.exists_item
    cases hitem
    simp [Decl.kindsList, Decl.kinds, ht]
  | vars ht h =>
    obtain ⟨us, d, es, rfl, hitem⟩ := h.exists_item
    cases hitem
    simp [Decl.kindsList, Decl.kinds, ht]
  | procedure ht => simp [Decl.kindsList, Decl.kinds, ht]

theorem Decl.kindsList_append (ds es : List Decl) :
    Decl.kindsList (ds ++ es) = Decl.kindsList ds ++ Decl.kindsList es := by
  induction ds with
  | nil => rfl
  | cons d ds ih => simp only [List.cons_append, Decl.kindsList, ih, List.append_assoc]

theorem Grammar.Declarations.head_kind (h : Declarations ts ds) :
    ts.head?.map Token.kind = (Decl.kindsList ds).head? := by
  cases h with
  | nil => rfl
  | cons hgroup _ =>
    have hhead := hgroup.head_kind
    obtain ⟨t, us, rfl⟩ := List.exists_cons_of_length_pos hgroup.length_pos
    rw [List.head?_append, Decl.kindsList_append, List.head?_append, ← hhead]
    rfl

theorem Grammar.Statement.head_kind {next : Token} {s : Stmt} (h : Statement next us s) :
    us.head?.map Token.kind = s.kinds.head? := by
  cases h with
  | assign ht => simp [Stmt.kinds, Ident.name, Ident.ofToken, ht, Token.name_of_kind ht]
  | empty => rfl
  | _ => simp [Stmt.kinds, *]

end First

/-! ## The top of a program -/

/-- The statements that a statement at the top of a program stands for.  If it stands for more than
one, it is known by the token of the first. -/
def Stmt.topLevel : Stmt → List Stmt
  | .begin token (s :: s' :: ss) =>
    if token = s.token then s :: s' :: ss else [.begin token (s :: s' :: ss)]
  | s => [s]

def Program.topLevel (p : Program) : List Stmt := p.block.stmt.topLevel

section Top

variable {next : Token} {ts us : List Token} {s : Stmt} {ss : List Stmt}

theorem Grammar.Statement.head?_token (h : Statement next ts s) :
    (ts ++ [next]).head? = some s.token := by
  cases h <;> rfl

theorem Grammar.Statements.head?_token (h : Statements next ts (s :: ss)) :
    (ts ++ [next]).head? = some s.token := by
  cases h with
  | one hs => exact hs.head?_token
  | @cons _ separator ts us _ _ hs =>
    have hhead := hs.head?_token
    cases ts with
    | nil => exact hhead
    | cons => exact hhead

/-- The word `begin` is not the first token of what it encloses. -/
theorem Grammar.Statement.topLevel_eq (h : Statement next us s) (hnodup : us.Nodup) :
    s.topLevel = [s] := by
  cases h with
  | @begin _ t stop ts ss _ hss =>
    cases ss with
    | nil => rfl
    | cons s ss =>
      cases ss with
      | nil => rfl
      | cons s' ss =>
        have hmem : s.token ∈ ts ++ [stop] := List.mem_of_head? hss.head?_token
        have hne : t ≠ s.token := by
          rintro rfl
          exact (List.nodup_cons.mp hnodup).1 hmem
        exact if_neg hne
  | _ => rfl

/-- **The statements at the top** are those that the last tokens are derived from. -/
theorem Grammar.Program.exists_topLevel {tokens : List Token} {p : PLZero.Program}
    (h : Program tokens p) (hnodup : tokens.Nodup) :
    ∃ ts us ds dot eof, tokens = ts ++ us ++ [dot, eof] ∧ Declarations ts ds ∧
      Statements dot us p.topLevel := by
  cases h with
  | @single first dot eof ts us ds s hds hs =>
    have hus : us.Nodup := (List.nodup_append.mp (List.nodup_append.mp hnodup).1).2.1
    refine ⟨ts, us, ds, dot, eof, rfl, hds, ?_⟩
    rw [show (PLZero.Program.ofBlock first ⟨ds, s⟩).topLevel = [s] from hs.topLevel_eq hus]
    exact .one hs
  | @sequence first dot eof ts us ds s s' ss hds hss =>
    refine ⟨ts, us, ds, dot, eof, rfl, hds, ?_⟩
    rw [show (PLZero.Program.ofBlock first ⟨ds, .begin s.token (s :: s' :: ss)⟩).topLevel =
      s :: s' :: ss from if_pos rfl]
    exact hss

end Top

/-! ## The text of a program -/

mutual

theorem Decl.text_number (next depth : Nat) : (d : Decl) → (d.number next).1.text depth = d.text depth
  | .const .. | .var _ => rfl
  | .procedure head decls stmt => by
    simp only [Decl.number, Decl.text, DeclHead.name,
      Decl.text_numberList (next + 1) (depth + 1) decls]

theorem Decl.text_numberList (next depth : Nat) : (ds : List Decl) →
    Decl.textList depth (Decl.numberList next ds).1 = Decl.textList depth ds
  | [] => rfl
  | d :: ds => by
    simp only [Decl.numberList, Decl.textList, Decl.text_number next depth d,
      Decl.text_numberList _ depth ds]

end

theorem Program.text_ofBlock (first : Token) (b : Block) :
    (Program.ofBlock first b).text = b.text 0 ++ ".\n" := by
  simp only [Program.text, Program.ofBlock, Block.number, Block.text, Decl.text_numberList]

theorem Lexes.printable {before rest : List Char} {tokens : List Token}
    (h : Lexes before rest tokens) : ∀ t ∈ tokens, t.Printable := by
  induction h with
  | eof =>
    refine List.forall_mem_singleton.mpr ⟨?_, ?_⟩ <;> rintro _ ⟨⟩
  | token _ _ hlexeme _ _ ih =>
    exact List.forall_mem_cons.mpr ⟨Token.printable_of_isLexeme hlexeme, ih⟩

/-! ## Reading it back -/

/-- Tokens of the same kind. -/
def Token.SameKind (t u : Token) : Prop := u.kind = t.kind

/-- Tokens of the same kind, but the word `end` in place of the closing dot. -/
def Token.SameOrEnd (t u : Token) : Prop :=
  u.kind = if t.kind = .mark .dot then .keyword .end else t.kind

theorem coversKind_sameKind : CoversKind Token.SameKind := fun _ _ _ _ ht hu => hu.trans ht.symm

theorem coversKind_sameOrEnd : CoversKind Token.SameOrEnd := by
  rintro _ t u hne rfl hu
  rw [Token.SameOrEnd, if_neg hne, hu]

namespace Program

/-- The first program has two or more statements in sequence at the top, and the second has the same
statements in `begin … end`.  If there are no declarations, then `begin` is also its first token. -/
structure Bracketed (p q : Program) : Prop where
  declCount : q.declCount = p.declCount
  decls : Decl.MatchesList Token.Same Token.SameKind p.block.decls q.block.decls
  token : q.token.kind = if p.block.decls.isEmpty then .keyword .begin else p.token.kind
  stmt : ∃ s s' ss t ss', p.block.stmt = .begin s.token (s :: s' :: ss) ∧
    q.block.stmt = .begin t ss' ∧ t.kind = .keyword .begin ∧
    Stmt.MatchesList Token.Same Token.SameOrEnd (s :: s' :: ss) ss'

theorem spaced_text {T : Token → Token → Prop} {ds : List Decl} {s : Stmt} (first : Token)
    (hds : Decl.ReprintsList T ds) (hs : Writes (s.text 0) s.kinds) :
    Spaced (ofBlock first ⟨ds, s⟩).text (Decl.kindsList ds ++ s.kinds ++ [.mark .dot]) := by
  have hdot : Spaced ".\n" [.mark .dot] := spaced_lexeme (.mark .dot) (c := '\n') (by decide) rfl
  have hopens : Opens ".\n" := fun rest => .mark (by decide) _
  rw [text_ofBlock]
  exact ((hds.spaced 0).writes hs).append hopens hdot

/-- The program that is read back has declarations that match, and a statement with `Q`, if one with
`Q` is derived from tokens of the kinds of the statement. -/
theorem exists_ofSource_text {first : Token} {ds : List Decl} {s : Stmt} {Q : Stmt → Prop}
    (hdistinct : (ofBlock first ⟨ds, s⟩).Distinct) (hds : Decl.ReprintsList Token.SameKind ds)
    (hwrites : Writes (s.text 0) s.kinds)
    (hderives : ∀ (dot : Token) (ts : List Token), dot.kind = .mark .dot →
      ts.map Token.kind = s.kinds → ∃ s', Grammar.Statement dot ts s' ∧ Q s') :
    ∃ first' ds' s', ofSource (ofBlock first ⟨ds, s⟩).text = .ok (ofBlock first' ⟨ds', s'⟩) ∧
      Decl.MatchesList Token.Same Token.SameKind ds ds' ∧ Q s' ∧
      some first'.kind = (Decl.kindsList ds ++ s.kinds ++ [TokenKind.mark .dot]).head? := by
  obtain ⟨tokens, hscan, hkinds⟩ := exists_scan_of_reads (spaced_text first hds hwrites [])
  obtain ⟨front, ends, rfl, hfront, hends⟩ := List.map_eq_append_iff.mp hkinds
  obtain ⟨eof, rfl, heof⟩ := List.map_eq_singleton_iff.mp hends
  obtain ⟨phrases, dots, rfl, hphrases, hdots⟩ := List.map_eq_append_iff.mp hfront
  obtain ⟨dot, rfl, hdot⟩ := List.map_eq_singleton_iff.mp hdots
  obtain ⟨ts, us, rfl, hts, hus⟩ := List.map_eq_append_iff.mp hphrases
  obtain ⟨ds', hds', hmatches⟩ := hds.derives ts hts
  obtain ⟨s', hs', hQ⟩ := hderives dot us hdot hus
  obtain ⟨first', hfirst⟩ : ∃ first', (ts ++ us ++ [dot, eof]).head? = some first' := by
    cases htokens : ts ++ us with
    | nil => exact ⟨dot, rfl⟩
    | cons t vs => exact ⟨t, rfl⟩
  have hsentence := Grammar.Program.single hds' hs' hdot heof hfirst
  have hdistinct' : (ofBlock first' ⟨ds', s'⟩).Distinct := by
    rw [distinct_ofBlock_iff] at hdistinct ⊢
    refine ⟨?_, hmatches.distinct keepsName_same hdistinct.2⟩
    have hnodup := hdistinct.1.1
    rw [← hmatches.names_eq keepsName_same] at hnodup
    exact ⟨hnodup, by simp⟩
  refine ⟨first', ds', s', ?_, hmatches, hQ, ?_⟩
  · have hparse := (checks_ofTokens hsentence).1 hdistinct'
    rw [List.append_assoc (ts ++ us)] at hscan
    rw [ofSource, hscan]
    change (ofTokens _).mapError CompileFault.parse = _
    rw [List.singleton_append, hparse]
    rfl
  · have hhead := congrArg (Option.map Token.kind) hfirst
    rw [Option.map_some] at hhead
    rw [← hhead, ← hts, ← hus, ← hdot]
    cases htokens : ts ++ us with
    | nil =>
      rw [List.append_eq_nil_iff] at htokens
      rw [htokens.1, htokens.2]
      rfl
    | cons t vs =>
      rw [← List.map_append, htokens]
      rfl

theorem exists_tokens_of_ofSource {source : String} {p : Program} (h : ofSource source = .ok p) :
    ∃ tokens, scan source = .ok tokens ∧ ofTokens tokens = .ok p := by
  unfold ofSource at h
  cases htokens : scan source with
  | error f =>
    rw [htokens] at h
    cases h
  | ok tokens =>
    rw [htokens] at h
    change (ofTokens tokens).mapError CompileFault.parse = .ok p at h
    cases hp : ofTokens tokens with
    | error f =>
      rw [hp] at h
      cases h
    | ok q =>
      rw [hp] at h
      cases h
      exact ⟨tokens, rfl, hp⟩

/-- The first token is of the first kind that is printed. -/
theorem head_kinds {ts us : List Token} {ds : List Decl} {s : Stmt} {first dot eof : Token}
    (hds : Grammar.Declarations ts ds) (hs : Grammar.Statement dot us s) (hdot : dot.kind = .mark .dot)
    (hfirst : (ts ++ us ++ [dot, eof]).head? = some first) :
    some first.kind = (Decl.kindsList ds ++ s.kinds ++ [TokenKind.mark .dot]).head? := by
  have hhead := congrArg (Option.map Token.kind) hfirst
  rw [Option.map_some] at hhead
  rw [← hhead, ← hdot]
  simp only [List.head?_append, ← hds.head_kind, ← hs.head_kind]
  cases ts.head? <;> cases us.head? <;> rfl

/-- The first token is of the same kind again if there are declarations. -/
theorem first_kind_of_begin {ts rest : List Token} {ds : List Decl} {first first' : Token}
    {ks : List TokenKind} (hds : Grammar.Declarations ts ds)
    (hfirst : (ts ++ rest).head? = some first)
    (hfirst' : some first'.kind = (Decl.kindsList ds ++ .keyword .begin :: ks).head?) :
    first'.kind = if ds.isEmpty then .keyword .begin else first.kind := by
  have hhead := hds.head_kind
  cases hds with
  | nil => exact Option.some.inj hfirst'
  | cons hgroup =>
    obtain ⟨d, es, rfl⟩ := List.exists_cons_of_ne_nil hgroup.ne_nil
    obtain ⟨t, us, rfl⟩ := List.exists_cons_of_length_pos hgroup.length_pos
    rw [List.head?_append, ← hhead] at hfirst'
    cases hfirst
    exact Option.some.inj hfirst'

theorem isEmpty_numberList (next : Nat) (ds : List Decl) :
    (Decl.numberList next ds).1.isEmpty = ds.isEmpty := by
  cases ds <;> rfl

theorem text_eq_of_matches {N T : Token → Token → Prop} (hN : KeepsName N) {b b' : Block}
    (hds : Decl.MatchesList N T b.decls b'.decls) (hs : b'.stmt.text 0 = b.stmt.text 0)
    (first first' : Token) : (ofBlock first' b').text = (ofBlock first b).text := by
  simp only [text_ofBlock, Block.text, hds.text_eq hN, hs]

/-- **Printed programs are read back.**  The text of a program that was read from a source is a
program with the same tree: the same declarations with their names, numbers and values, the same
statements and the same expressions.  It prints to the same text.  If there is one statement at the
top, all tokens have the same kinds.  If there are more, those that `begin` and `end` bring along
around the statements have their kinds, and all others have the same kinds. -/
theorem ofSource_text {source : String} {p : Program} (h : ofSource source = .ok p) :
    ∃ q, ofSource p.text = .ok q ∧ q.text = p.text ∧
      (p.topLevel.length < 2 → p.Matches Token.Same Token.SameKind q) ∧
      (2 ≤ p.topLevel.length → p.Bracketed q) := by
  obtain ⟨tokens, hscan, hparse⟩ := exists_tokens_of_ofSource h
  have hprintable := (lexes_scan hscan).printable
  obtain ⟨hsentence, hdistinct⟩ := (ofTokens_eq_ok_iff ((scan_spec source).of_ok hscan)).mp hparse
  cases hsentence with
  | @single first dot eof ts us ds s hds hs hdot heof hfirst =>
    have hrds := hds.reprints coversKind_sameKind fun t ht => hprintable t (by simp [ht])
    have hrs := hs.reprints coversKind_sameKind fun t ht => hprintable t (by simp [ht])
    obtain ⟨first', ds', s', hq, hdmatches, hsmatches, hfirst'⟩ :=
      exists_ofSource_text hdistinct hrds (hrs.writes 0)
        fun dot' ts hdot' hts => hrs.derives dot' ts (hdot'.trans hdot.symm) hts
    have hkind : first'.kind = first.kind :=
      Option.some.inj (hfirst'.trans (head_kinds hds hs hdot hfirst).symm)
    have hus : us.Nodup := (List.nodup_append.mp (List.nodup_append.mp (nodup_of_scan hscan)).1).2.1
    have htop : (ofBlock first ⟨ds, s⟩).topLevel = [s] := hs.topLevel_eq hus
    refine ⟨_, hq, ?_, fun _ => Block.Matches.program ⟨hdmatches, hsmatches⟩ hkind, fun hmore => ?_⟩
    · exact text_eq_of_matches keepsName_same hdmatches (hsmatches.text_eq keepsName_same 0) _ _
    · rw [htop] at hmore
      simp at hmore
  | @sequence first dot eof ts us ds s s₂ ss hds hss hdot heof hfirst =>
    have hrds := hds.reprints coversKind_sameKind fun t ht => hprintable t (by simp [ht])
    have hrss := hss.reprints coversKind_sameOrEnd fun t ht => hprintable t (by simp [ht])
    have hend (u : Token) (hu : u.kind = .keyword .end) : Token.SameOrEnd dot u := by
      rw [Token.SameOrEnd, if_pos hdot, hu]
    obtain ⟨first', ds', s', hq, hdmatches, ⟨t, ss', rfl, ht, hsmatches⟩, hfirst'⟩ :=
      exists_ofSource_text
        (Q := fun s' => ∃ t ss', s' = .begin t ss' ∧ t.kind = .keyword .begin ∧
          Stmt.MatchesList Token.Same Token.SameOrEnd (s :: s₂ :: ss) ss')
        hdistinct hrds (hrss.begin_writes 0) fun dot' ts hdot' hts => by
          obtain ⟨t, ss', hbegin, ht, hmatches⟩ := hrss.begin_derives hend dot' ts hts
          exact ⟨_, hbegin, t, ss', rfl, ht, hmatches⟩
    have htop : (ofBlock first ⟨ds, .begin s.token (s :: s₂ :: ss)⟩).topLevel = s :: s₂ :: ss :=
      if_pos rfl
    refine ⟨_, hq, ?_, fun hone => ?_,
      fun _ => ⟨(hdmatches.number 0).2, (hdmatches.number 0).1, ?_, ?_⟩⟩
    · have htext := hsmatches.text_eq keepsName_same 1
      refine text_eq_of_matches keepsName_same hdmatches ?_ _ _
      simp only [Stmt.text, htext]
    · rw [htop, List.length_cons, List.length_cons] at hone
      omega
    · rw [List.append_assoc] at hfirst hfirst'
      have hkind := first_kind_of_begin hds hfirst hfirst'
      rwa [← isEmpty_numberList 0 ds] at hkind
    · exact ⟨s, s₂, ss, t, ss', rfl, rfl, ht, hsmatches⟩

/-- Constants in one group, an escape, a nested procedure, an empty body, operators of all levels and
an empty statement at the end. -/
theorem ofSource_text_sequence :
    ∃ p, ofSource "const a = 7, s = \"\\\"\"; procedure p; if a # 1 then; ! (a + 2) * 3; ! s;." = .ok p ∧
      p.topLevel.length = 3 ∧
      ∃ q, ofSource p.text = .ok q ∧ q.text = p.text ∧ p.Bracketed q := by
  have hcheck : (match ofSource
        "const a = 7, s = \"\\\"\"; procedure p; if a # 1 then; ! (a + 2) * 3; ! s;." with
      | .ok p => decide (p.topLevel.length = 3)
      | .error _ => false) = true := by decide +kernel
  cases hp : ofSource
      "const a = 7, s = \"\\\"\"; procedure p; if a # 1 then; ! (a + 2) * 3; ! s;." with
  | error f =>
    rw [hp] at hcheck
    cases hcheck
  | ok p =>
    rw [hp] at hcheck
    have hlength : p.topLevel.length = 3 := of_decide_eq_true hcheck
    obtain ⟨q, hq, htext, -, hbracketed⟩ := ofSource_text hp
    exact ⟨p, rfl, hlength, q, hq, htext, hbracketed (by omega)⟩

/-- Not all kinds are kept: a sequence is known by the token of its first statement until it is
printed, and then by the word `begin`. -/
theorem not_matches_ofSource_text :
    ∃ p, ofSource "! 1; ! 2." = .ok p ∧
      ¬∃ q, ofSource p.text = .ok q ∧ p.Matches Token.Same Token.SameKind q := by
  have hcheck : (match ofSource "! 1; ! 2." with
      | .ok p => match ofSource p.text with
        | .ok q => decide (q.token.kind ≠ p.token.kind)
        | .error _ => false
      | .error _ => false) = true := by decide +kernel
  cases hp : ofSource "! 1; ! 2." with
  | error f =>
    rw [hp] at hcheck
    cases hcheck
  | ok p =>
    refine ⟨p, rfl, ?_⟩
    rintro ⟨q, hq, hmatches⟩
    simp only [hp, hq] at hcheck
    have hkind : q.token.kind ≠ p.token.kind := of_decide_eq_true hcheck
    exact hkind hmatches.token

end Program

end PLZero
