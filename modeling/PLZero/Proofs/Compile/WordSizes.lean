import PLZero.Proofs.Code.Sizes
import PLZero.Proofs.Compile.Correctness
import PLZero.Proofs.Compile.LexicalScope
import PLZero.Proofs.Tree.Soundness

/-!
# Compiled units fit their words

In bytes all counts, lengths and operands of a unit are 32-bit words, and so are the numbers of
labels.  No number of a unit that was compiled from fewer than 2^28 bytes is too large for them.

* `Program.size_le_of_ofSource` — a program is no bigger than its text.
* `Program.size_analyze` — the analysis fills slots and leaves the size as it is.
* `CodeUnit.fits_of_compile` — the result.
-/

namespace PLZero

namespace Program

theorem size_le_of_ofSource {source : String} {p : Program} (h : ofSource source = .ok p) :
    p.size ≤ source.utf8ByteSize := by
  obtain ⟨tokens, hscan, hparse⟩ := exists_of_bind_ok h
  have hscan := Except.exists_of_mapError hscan
  have hparse := Except.exists_of_mapError hparse
  have hgrammar := Grammar.program_of_ofTokens ((scan_spec source).of_ok hscan) hparse
  exact Nat.le_trans hgrammar.size_le (sizes_le_of_scan hscan)

theorem size_analyze {source : String} {p : Program} {n : Nat} (hsource : ofSource source = .ok p)
    (h : p.analyze.2 = .ok n) : p.analyze.1.size = p.size := by
  have hdistinct : p.Distinct := ((ofSource_spec source).of_ok hsource).2.1
  obtain ⟨q, hresolve, -, htyping⟩ := typing_of_analyze hsource h
  have hscans := scans_resolve hdistinct
  rw [hresolve] at hscans
  have hsame : q.unbound = p.unbound := (hscans.tree rfl).1
  calc p.analyze.1.size
    _ = q.size := by rw [← size_untyped, htyping.same, size_untyped]
    _ = p.size := by rw [← size_unbound, hsame, size_unbound]

end Program

namespace CodeUnit

theorem decode_encode_of_lt {u : CodeUnit} (hsized : u.Sized)
    (hindices : ∀ n ∈ u.indices, n < 2 ^ 32) : decode u.encode = .ok u := by
  have hsame := u.mapIndices_eq_self_iff.mpr fun n hn => Nat.mod_eq_of_lt (hindices n hn)
  have hread := Reader.unit_encode hsized
  rw [hsame] at hread
  exact decode_eq_ok_iff.mpr ⟨_, hread⟩

theorem small_of_compile {source unitName : String} {p : Program} {u : CodeUnit}
    (hsource : Program.ofSource source = .ok p) (h : compile source unitName = .ok u) :
    u.Small p.size := by
  obtain ⟨⟨n, hn⟩, hgenerate⟩ := stages_of_compile hsource h
  have hanalyzed := Program.analyzed_of_analyze hsource hn
  rw [← Program.size_analyze hsource hn]
  exact Program.small_generate hanalyzed.bound hanalyzed.numbered.nodup hgenerate

/-- **Nothing is cut when a compiled unit is written.**  Take a text of fewer than 2^28 bytes for
which there is code, under a name of fewer than 2^32 bytes.  The number of the next label stays
below 2^32 while the code is made, so no two labels are the same; all counts, lengths and operands
of the unit are below 2^32 as well; and the bytes of the unit are read back as the unit. -/
theorem fits_of_compile {source unitName : String} {u : CodeUnit}
    (hcompile : compile source unitName = .ok u) (hsource : source.utf8ByteSize < 2 ^ 28)
    (hname : unitName.utf8ByteSize < 2 ^ 32) :
    (∃ p l built c, Program.ofSource source = .ok p ∧ p.analyze.1.layout = .ok l ∧
      p.analyze.1.routines l 0 = .ok (built, c) ∧ c < 2 ^ 32 ∧ u.labelCount = c) ∧
    (labels (u.routines.flatMap Routine.code)).Nodup ∧
    u.Sized ∧ (∀ n ∈ u.indices, n < 2 ^ 32) ∧ decode u.encode = .ok u := by
  obtain ⟨p, hp⟩ := exists_source_of_compile hcompile
  have hsize : p.size < 2 ^ 28 := Nat.lt_of_le_of_lt (Program.size_le_of_ofSource hp) hsource
  have hsmall := small_of_compile hp hcompile
  obtain ⟨hanalyzed, hgenerate⟩ := generate_of_compile hp hcompile
  obtain ⟨l, es, c, hl, hes, -, hall, hassemble⟩ :=
    Program.assembled_of_generate hgenerate hanalyzed.numbered.nodup
  have hcount := hall.labelCount_eq hassemble
  have hc : c < 2 ^ 32 := by
    rw [← hcount]
    exact Nat.lt_of_le_of_lt hsmall.labelCount_le (by omega)
  have hsized : u.Sized := by
    rw [← Program.name_of_generate hgenerate] at hname
    exact hsmall.sized hsize hname
  have hindices : ∀ n ∈ u.indices, n < 2 ^ 32 := fun n hn =>
    Nat.lt_of_le_of_lt (hsmall.le_of_mem_indices n hn) (by omega)
  exact ⟨⟨p, l, _, c, hp, hl, Program.routines_of_codes hl hes, hc, hcount⟩,
    (hall.numbers_unit hassemble).nodup (Nat.le_of_lt hc), hsized, hindices,
    decode_encode_of_lt hsized hindices⟩

end CodeUnit

/-- A text that is put together in a procedure of a procedure. -/
def gatheredText : String :=
  "const part = \"é\"; procedure gather; var s;
  procedure step; if s <= part + s then s := s + part;
  begin s := \"\"; while s = \"\" do call step; ! s end;
  call gather."

theorem gatheredText_fits :
    ∃ u, compile gatheredText "text" = .ok u ∧ gatheredText.utf8ByteSize < 2 ^ 28 ∧
      "text".utf8ByteSize < 2 ^ 32 ∧
      u.routines.map Routine.name = ["main", "gather", "gather.step"] ∧ u.labelCount = 5 ∧
      (labels (u.routines.flatMap Routine.code)).Nodup ∧ u.Sized ∧
      (∀ n ∈ u.indices, n < 2 ^ 32) ∧ CodeUnit.decode u.encode = .ok u := by
  have hcheck : (match compile gatheredText "text" with
      | .ok u => decide (u.routines.map Routine.name = ["main", "gather", "gather.step"] ∧
          u.labelCount = 5)
      | _ => false) = true := by decide +kernel
  have hsource : gatheredText.utf8ByteSize < 2 ^ 28 := by decide +kernel
  have hname : "text".utf8ByteSize < 2 ^ 32 := by decide
  split at hcheck
  · rename_i u hcompile
    obtain ⟨hnames, hlabels⟩ := of_decide_eq_true hcheck
    obtain ⟨-, hfits⟩ := CodeUnit.fits_of_compile hcompile hsource hname
    exact ⟨u, hcompile, hsource, hname, hnames, hlabels, hfits⟩
  · cases hcheck

end PLZero
