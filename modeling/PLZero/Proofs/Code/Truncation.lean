import PLZero.Proofs.Code.Codec

/-!
# Units with bytes missing or bytes too many

* `Reader.Steady` — what a reader does with the front part of some bytes it does with all of them,
  unless it runs out of bytes.  Kept by every way in which readers are put together, so it holds of
  every part of the format.
* `Reader.Steady.cut` — a steady reader that takes certain bytes runs out of them if some at the end
  are missing.
* `CodeUnit.decode_of_cut_or_padded` — a unit with bytes missing at the end is refused for that, a
  unit with bytes after its end for those, so no unit in bytes is the front part of another.
-/

namespace PLZero

open Bytes

namespace Reader

variable {α β : Type} {m : Reader α} {f : α → Reader β}

/-- The reader runs out of the bytes `cut`, or gives a result that it also gives when `more` bytes
follow, which it leaves alone, or refuses `cut` for a reason that holds with `more` bytes too. -/
inductive Steady.At (m : Reader α) (position : Nat) (cut more : List UInt8) : Prop where
  | ends {place : Nat} : m ⟨position, cut⟩ = .error (.unexpectedEnd place) → At m position cut more
  | gives {a : α} {position' : Nat} {rest : List UInt8} :
      m ⟨position, cut⟩ = .ok (a, ⟨position', rest⟩) →
      m ⟨position, cut ++ more⟩ = .ok (a, ⟨position', rest ++ more⟩) → At m position cut more
  | refuses {fault : UnitFault} :
      m ⟨position, cut⟩ = .error fault → m ⟨position, cut ++ more⟩ = .error fault →
      At m position cut more

/-- Bytes after those that a reader has looked at make no difference. -/
def Steady (m : Reader α) : Prop := ∀ position cut more, Steady.At m position cut more

namespace Steady

/-- A reader that takes certain bytes runs out of any front part of them. -/
theorem cut (hm : Steady m) {cut more : List UInt8} {a : α} (hread : Reads m (cut ++ more) a)
    (hmore : more ≠ []) (position : Nat) :
    ∃ place, m ⟨position, cut⟩ = .error (.unexpectedEnd place) := by
  have hall := hread position []
  rw [List.append_nil] at hall
  cases hm position cut more with
  | ends h => exact ⟨_, h⟩
  | gives _ h =>
    -- The missing bytes would be left over.
    rw [hall] at h
    have hrest := congrArg (fun r => r.toOption.map fun x => x.2.rest) h
    simp [Except.toOption, hmore] at hrest
  | refuses _ h =>
    rw [hall] at h
    cases h

/-! ## Readers put together -/

theorem pure (a : α) : Steady (Pure.pure a : Reader α) :=
  fun _ _ _ => .gives rfl rfl

theorem throw (fault : UnitFault) : Steady (MonadExcept.throw fault : Reader α) :=
  fun _ _ _ => .refuses rfl rfl

theorem bind (hm : Steady m) (hf : ∀ a, Steady (f a)) : Steady (m >>= f) := by
  intro position cut more
  have hrun (c : Cursor) : (m >>= f) c = (m c >>= fun r => f r.1 r.2) := rfl
  cases hm position cut more with
  | ends h => exact .ends (by rw [hrun, h]; rfl)
  | refuses h h' => exact .refuses (by rw [hrun, h]; rfl) (by rw [hrun, h']; rfl)
  | @gives a position' rest h h' =>
    -- The second reader goes on with what the first has left.
    have hcut : (m >>= f) ⟨position, cut⟩ = f a ⟨position', rest⟩ := by rw [hrun, h]; rfl
    have hall : (m >>= f) ⟨position, cut ++ more⟩ = f a ⟨position', rest ++ more⟩ := by
      rw [hrun, h']
      rfl
    cases hf a position' rest more with
    | ends h => exact .ends (hcut.trans h)
    | gives h h' => exact .gives (hcut.trans h) (hall.trans h')
    | refuses h h' => exact .refuses (hcut.trans h) (hall.trans h')

theorem map (g : α → β) (hm : Steady m) : Steady (g <$> m) := by
  rw [← bind_pure_comp]
  exact hm.bind fun a => .pure (g a)

/-- The position is the same however many bytes follow. -/
theorem get {f : Cursor → Reader β} (hf : ∀ c, Steady (f c))
    (hposition : ∀ c c', c.position = c'.position → f c = f c') :
    Steady (MonadState.get >>= f) := by
  intro position cut more
  have hrun (c : Cursor) : (MonadState.get >>= f) c = f c c := rfl
  have hsame : f ⟨position, cut ++ more⟩ = f ⟨position, cut⟩ := hposition _ _ rfl
  cases hf ⟨position, cut⟩ position cut more with
  | ends h => exact .ends h
  | gives h h' => exact .gives h (by rw [hrun, hsame, h'])
  | refuses h h' => exact .refuses h (by rw [hrun, hsame, h'])

end Steady

/-! ## The parts of the format -/

theorem steady_take (n : Nat) : Steady (take n) := by
  intro position cut more
  by_cases hn : n ≤ cut.length
  · have hcut : take n ⟨position, cut⟩ = .ok (cut.take n, ⟨position + n, cut.drop n⟩) := by
      simp [take, hn]
    have hall : take n ⟨position, cut ++ more⟩ =
        .ok (cut.take n, ⟨position + n, cut.drop n ++ more⟩) := by
      simp [take, hn, List.take_append_of_le_length, List.drop_append_of_le_length]
    exact .gives hcut hall
  · have hlength : (cut.take n).length ≠ n := by
      rw [List.length_take]
      omega
    have hcut : take n ⟨position, cut⟩ = .error (.unexpectedEnd position) := by
      simp only [take, if_neg hlength]
    exact .ends hcut

theorem steady_word (size : Nat) : Steady (word size) := (steady_take size).map littleEndian

theorem steady_text : Steady text := by
  refine (steady_word 4).bind fun n => (steady_take n).bind fun bytes => ?_
  split
  · exact .pure _
  · exact .throw _

theorem steady_ty : Steady ty := by
  refine (steady_word 1).bind fun tag => ?_
  split <;> first | exact .pure _ | exact .throw _

theorem steady_cond : Steady cond := by
  refine (steady_word 1).bind fun tag => ?_
  split <;> first | exact .pure _ | exact .throw _

theorem steady_boolean : Steady boolean := by
  refine (steady_word 1).bind fun byte => ?_
  split <;> first | exact .pure _ | exact .throw _

theorem steady_label : Steady label := (steady_word 4).bind fun _ => .pure _

theorem steady_number : Steady number := (steady_word 4).bind fun _ => .pure _

theorem steady_instr : Steady instr := by
  have hpair (g : Nat → Nat → Instr) : Steady (do return g (← word 4) (← word 4)) :=
    (steady_word 4).bind fun _ => (steady_word 4).bind fun _ => .pure _
  refine .get (fun c => (steady_word 1).bind fun opcode => ?_) fun c c' h => by simp only [h]
  split
  all_goals first
    | exact .pure _
    | exact .throw _
    | exact hpair _
    | exact steady_label.bind fun _ => .pure _
    | exact steady_number.bind fun _ => .pure _
    | exact steady_boolean.bind fun _ => .pure _
    | exact steady_text.bind fun _ => .pure _
    | exact steady_ty.bind fun _ => .pure _
    | exact steady_cond.bind fun _ => steady_label.bind fun _ => .pure _

theorem steady_times (hm : Steady m) (n : Nat) : Steady (times m n) := by
  induction n with
  | zero => exact .pure []
  | succ n ih => exact hm.bind fun _ => ih.bind fun _ => .pure _

theorem steady_counted (hm : Steady m) : Steady (counted m) :=
  (steady_word 4).bind fun n => steady_times hm n

theorem steady_routine : Steady routine :=
  steady_text.bind fun _ => (steady_counted steady_ty).bind fun _ =>
    (steady_counted steady_instr).bind fun _ => .pure _

/-! ## Units -/

/-- A unit, whatever follows it. -/
def contents : Reader CodeUnit := do
  if (← take 4) ≠ CodeUnit.magic then throw .badMagic
  let version ← word 2
  if version ≠ CodeUnit.formatVersion then throw (.unsupportedVersion version)
  let name ← text
  let routines ← counted routine
  return ⟨name, routines⟩

theorem unit_eq_contents : unit = (do
    let u ← contents
    if (← get).rest ≠ [] then throw .trailingBytes
    return u) := by
  unfold unit contents
  simp only [bind_assoc]
  refine bind_congr fun magic => ?_
  split
  · rfl
  simp only [bind_assoc]
  refine bind_congr fun version => ?_
  split
  · rfl
  simp only [bind_assoc, pure_bind]

theorem steady_contents : Steady contents := by
  refine (steady_take 4).bind fun magic => ?_
  split
  · exact .throw _
  refine (steady_word 2).bind fun version => ?_
  dsimp only
  split
  · exact .throw _
  exact steady_text.bind fun name => (steady_counted steady_routine).bind fun _ => .pure _

theorem reads_contents {u : CodeUnit} (h : u.Sized) :
    Reads contents u.encode (u.mapIndices (· % 2 ^ 32)) := by
  have hversion : Reads (word 2) (word16 CodeUnit.formatVersion) CodeUnit.formatVersion :=
    reads_word rfl
  have hroutines := reads_counted h.count fun r hr => reads_routine (h.routines r hr)
  rw [CodeUnit.encode]
  simp only [List.append_assoc]
  exact (reads_take CodeUnit.magic).bind
    (hversion.bind ((reads_text h.name).bind (hroutines.last (.pure _))))

/-- What is left after a unit decides whether it is accepted. -/
theorem unit_of_contents {c : Cursor} {u : CodeUnit} {position : Nat} {rest : List UInt8}
    (h : contents c = .ok (u, ⟨position, rest⟩)) :
    unit c = if rest ≠ [] then .error .trailingBytes else .ok (u, ⟨position, rest⟩) := by
  rw [unit_eq_contents]
  change (contents c >>= fun r => (_ : Reader CodeUnit) r.2) = _
  rw [h]
  change (if rest ≠ [] then (_ : Reader CodeUnit) else _) ⟨position, rest⟩ = _
  split <;> rfl

theorem unit_of_contents_error {c : Cursor} {fault : UnitFault} (h : contents c = .error fault) :
    unit c = .error fault := by
  rw [unit_eq_contents]
  change (contents c >>= fun r => (_ : Reader CodeUnit) r.2) = _
  rw [h]
  rfl

end Reader

namespace CodeUnit

theorem decode_eq_error {bytes : List UInt8} {fault : UnitFault}
    (h : Reader.unit ⟨0, bytes⟩ = .error fault) : decode bytes = .error fault := by
  unfold decode StateT.run'
  change Prod.fst <$> Reader.unit ⟨0, bytes⟩ = _
  rw [h]
  rfl

theorem decode_of_cut {u : CodeUnit} (h : u.Sized) {bytes more : List UInt8}
    (hcut : bytes ++ more = u.encode) (hmore : more ≠ []) :
    ∃ position, decode bytes = .error (.unexpectedEnd position) := by
  have hread := Reader.reads_contents h
  rw [← hcut] at hread
  obtain ⟨position, hposition⟩ := Reader.steady_contents.cut hread hmore 0
  exact ⟨position, decode_eq_error (Reader.unit_of_contents_error hposition)⟩

theorem decode_of_padded {u : CodeUnit} (h : u.Sized) {more : List UInt8} (hmore : more ≠ []) :
    decode (u.encode ++ more) = .error .trailingBytes := by
  refine decode_eq_error ?_
  rw [Reader.unit_of_contents (Reader.reads_contents h 0 more), if_pos hmore]

/-- **Bytes that are missing and bytes too many are always noticed.**  A front part of a unit in
bytes that is not all of it is refused because it ends too early, and a unit in bytes that something
follows because of what follows.  So of two units in bytes neither is a front part of the other,
unless they are the same bytes. -/
theorem decode_of_cut_or_padded {u : CodeUnit} (h : u.Sized) :
    (∀ bytes, bytes <+: u.encode → bytes ≠ u.encode →
      ∃ position, decode bytes = .error (.unexpectedEnd position)) ∧
    (∀ more, more ≠ [] → decode (u.encode ++ more) = .error .trailingBytes) ∧
    ∀ v : CodeUnit, v.Sized → u.encode <+: v.encode → u.encode = v.encode := by
  refine ⟨fun bytes hprefix hne => ?_, fun more hmore => decode_of_padded h hmore,
    fun v hv hprefix => ?_⟩
  · obtain ⟨more, hmore⟩ := hprefix
    refine decode_of_cut h hmore fun hnil => hne ?_
    rw [← hmore, hnil, List.append_nil]
  · obtain ⟨more, hmore⟩ := hprefix
    by_cases hnil : more = []
    · rw [← hmore, hnil, List.append_nil]
    · -- The longer one would be a unit, and too long for one.
      have hread := decode_eq_ok_iff.mpr ⟨_, Reader.unit_encode hv⟩
      have hpadded := decode_of_padded h hnil
      rw [hmore, hread] at hpadded
      cases hpadded

/-- The cut goes through the two bytes of a letter. -/
theorem decode_of_cut_or_padded_letter :
    wideStore.Sized ∧ wideStore.encode.take 41 ++ [0xa9] <+: wideStore.encode ∧
      (∃ position, decode (wideStore.encode.take 41) = .error (.unexpectedEnd position)) ∧
      decode (wideStore.encode ++ [0x70]) = .error .trailingBytes := by
  have h := decode_of_cut_or_padded sized_wideStore
  exact ⟨sized_wideStore, by decide, h.1 _ (List.take_prefix ..) (by decide), h.2.1 _ (by decide)⟩

end CodeUnit

end PLZero
