import Mathlib.Algebra.Ring.Nat
import PLZero.Code.Decode
import PLZero.Proofs.Text.Utf8

/-!
# Units, written and read

A reader is described from both sides.  `Reads` says that it takes certain bytes, whatever follows
them; `Accepts` says of whatever it takes how the bytes and the result belong together.  Every part
of the format has a lemma of each kind, and a unit has both: what was written is read back up to the
low 32 bits of its indices, and only what would be written is read at all.
-/

namespace PLZero

/-! ## Indices -/

theorem map_eq_self_iff_of_forall {α : Type} {g : α → α} {parts : α → List Nat} {f : Nat → Nat}
    (h : ∀ x, g x = x ↔ ∀ n ∈ parts x, f n = n) (xs : List α) :
    xs.map g = xs ↔ ∀ n ∈ xs.flatMap parts, f n = n := by
  induction xs with
  | nil => simp
  | cons x xs ih => simp [h, ih, or_imp, forall_and]

namespace Instr

/-- The operands that number things: links to follow, slots and routines. -/
def indices : Instr → List Nat
  | load up slot => [up, slot]
  | store up slot => [up, slot]
  | call routine up => [routine, up]
  | _ => []

def mapIndices (f : Nat → Nat) : Instr → Instr
  | load up slot => load (f up) (f slot)
  | store up slot => store (f up) (f slot)
  | call routine up => call (f routine) (f up)
  | i => i

theorem mapIndices_eq_self_iff (i : Instr) {f : Nat → Nat} :
    i.mapIndices f = i ↔ ∀ n ∈ i.indices, f n = n := by
  cases i <;> simp [mapIndices, indices]

end Instr

namespace Routine

def indices (r : Routine) : List Nat := r.code.flatMap Instr.indices

def mapIndices (f : Nat → Nat) (r : Routine) : Routine :=
  { r with code := r.code.map (Instr.mapIndices f) }

theorem mapIndices_eq_self_iff (r : Routine) {f : Nat → Nat} :
    r.mapIndices f = r ↔ ∀ n ∈ r.indices, f n = n := by
  have hcode := map_eq_self_iff_of_forall (f := f) (fun i => i.mapIndices_eq_self_iff) r.code
  cases r
  simp only [mapIndices, Routine.mk.injEq, true_and]
  exact hcode

end Routine

namespace CodeUnit

def indices (u : CodeUnit) : List Nat := u.routines.flatMap Routine.indices

/-- The unit with `f` applied to every index of every instruction, and nothing else changed. -/
def mapIndices (f : Nat → Nat) (u : CodeUnit) : CodeUnit :=
  { u with routines := u.routines.map (Routine.mapIndices f) }

theorem mapIndices_eq_self_iff (u : CodeUnit) {f : Nat → Nat} :
    u.mapIndices f = u ↔ ∀ n ∈ u.indices, f n = n := by
  have hroutines :=
    map_eq_self_iff_of_forall (f := f) (fun r => r.mapIndices_eq_self_iff) u.routines
  cases u
  simp only [mapIndices, CodeUnit.mk.injEq, true_and]
  exact hroutines

end CodeUnit

/-! ## Sizes -/

/-- All that is counted in the bytes of a routine fits a 32-bit word. -/
structure Routine.Sized (r : Routine) : Prop where
  name : r.name.utf8ByteSize < 2 ^ 32
  locals : r.locals.length < 2 ^ 32
  code : r.code.length < 2 ^ 32
  texts : ∀ s, .push (.str s) ∈ r.code → s.utf8ByteSize < 2 ^ 32

/-- All that is counted in the bytes of a unit fits a 32-bit word. -/
structure CodeUnit.Sized (u : CodeUnit) : Prop where
  name : u.name.utf8ByteSize < 2 ^ 32
  count : u.routines.length < 2 ^ 32
  routines : ∀ r ∈ u.routines, r.Sized

open Bytes

namespace Reader

variable {α β : Type} {m : Reader α} {f : α → Reader β} {bytes bytes' : List UInt8} {a : α} {b : β}

/-! ## Readers and the bytes they take -/

/-- The reader takes just these bytes, whatever follows them, and gives `a`. -/
def Reads (m : Reader α) (bytes : List UInt8) (a : α) : Prop :=
  ∀ position rest, m ⟨position, bytes ++ rest⟩ = .ok (a, ⟨position + bytes.length, rest⟩)

/-- What the reader gives and the bytes it took for it always satisfy `P`. -/
def Accepts (m : Reader α) (P : α → List UInt8 → Prop) : Prop :=
  ∀ c a c', m c = .ok (a, c') → ∃ bytes, c.rest = bytes ++ c'.rest ∧ P a bytes

namespace Reads

theorem pure (a : α) : Reads (Pure.pure a) [] a := by
  intro position rest
  rfl

/-- After its bytes a reader goes on with what follows them. -/
theorem bind_eq (hm : Reads m bytes a) (f : α → Reader β) (position : Nat) (rest : List UInt8) :
    (m >>= f) ⟨position, bytes ++ rest⟩ = f a ⟨position + bytes.length, rest⟩ := by
  simp only [Bind.bind, StateT.bind, Except.bind, hm position rest]

theorem bind (hm : Reads m bytes a) (hf : Reads (f a) bytes' b) :
    Reads (m >>= f) (bytes ++ bytes') b := by
  intro position rest
  rw [List.append_assoc, hm.bind_eq, hf, List.length_append, Nat.add_assoc]

/-- The last part of a reader may take nothing. -/
theorem last (hm : Reads m bytes a) (hf : Reads (f a) [] b) : Reads (m >>= f) bytes b := by
  have h := hm.bind hf
  rwa [List.append_nil] at h

theorem map (g : α → β) (hm : Reads m bytes a) : Reads (g <$> m) bytes (g a) := by
  intro position rest
  simp only [Functor.map, StateT.map, Bind.bind, Except.bind, hm position rest]
  rfl

/-- Asking for the position takes nothing. -/
theorem get {f : Cursor → Reader β} (hf : ∀ c, Reads (f c) bytes b) :
    Reads (MonadState.get >>= f) bytes b := by
  intro position rest
  exact hf _ position rest

end Reads

namespace Accepts

variable {P : α → List UInt8 → Prop} {Q : β → List UInt8 → Prop}

theorem pure (h : P a []) : Accepts (Pure.pure a) P := by
  intro c a' c' h'
  cases h'
  exact ⟨[], rfl, h⟩

theorem throw (fault : UnitFault) : Accepts (throw fault) P := by
  intro c a c' h
  cases h

theorem of_bind {c c' : Cursor} (hm : Accepts m P) (h : (m >>= f) c = .ok (b, c')) :
    ∃ a bytes c₁, c.rest = bytes ++ c₁.rest ∧ P a bytes ∧ f a c₁ = .ok (b, c') := by
  simp only [Bind.bind, StateT.bind, Except.bind] at h
  split at h
  · cases h
  · rename_i r hr
    obtain ⟨bytes, hbytes, hP⟩ := hm c r.1 r.2 hr
    exact ⟨r.1, bytes, r.2, hbytes, hP, h⟩

theorem bind (hm : Accepts m P)
    (hf : ∀ a bytes, P a bytes → Accepts (f a) fun b bytes' => Q b (bytes ++ bytes')) :
    Accepts (m >>= f) Q := by
  intro c b c' h
  obtain ⟨a, bytes, c₁, hbytes, hP, h⟩ := hm.of_bind h
  obtain ⟨bytes', hbytes', hQ⟩ := hf a bytes hP c₁ b c' h
  exact ⟨bytes ++ bytes', by rw [hbytes, hbytes', List.append_assoc], hQ⟩

theorem get {f : Cursor → Reader β} (hf : ∀ c, Accepts (f c) Q) :
    Accepts (MonadState.get >>= f) Q := by
  intro c b c' h
  exact hf _ c b c' h

theorem map {g : α → β} (hm : Accepts m fun a bytes => Q (g a) bytes) : Accepts (g <$> m) Q := by
  intro c b c' h
  simp only [Functor.map, StateT.map, Bind.bind, Except.bind] at h
  split at h
  · cases h
  · rename_i r hr
    cases h
    exact hm c r.1 r.2 hr

/-- The last part of a reader may take nothing. -/
theorem last {g : α → β} (hm : Accepts m P) (h : ∀ a bytes, P a bytes → Q (g a) bytes) :
    Accepts (m >>= fun a => Pure.pure (g a)) Q := by
  refine hm.bind fun a bytes hP => .pure ?_
  rw [List.append_nil]
  exact h a bytes hP

theorem mono {P' : α → List UInt8 → Prop} (hm : Accepts m P)
    (h : ∀ a bytes, P a bytes → P' a bytes) : Accepts m P' := by
  intro c a c' hc
  obtain ⟨bytes, hbytes, hP⟩ := hm c a c' hc
  exact ⟨bytes, hbytes, h a bytes hP⟩

end Accepts

/-! ## Words -/

theorem reads_take (bytes : List UInt8) : Reads (take bytes.length) bytes bytes := by
  intro position rest
  simp [take]

theorem accepts_take (n : Nat) :
    Accepts (take n) fun bytes bytes' => bytes' = bytes ∧ bytes.length = n := by
  intro c bytes c' h
  unfold take at h
  dsimp only at h
  split at h
  · rename_i hlength
    cases h
    exact ⟨_, (List.take_append_drop n c.rest).symm, rfl, hlength⟩
  · cases h

theorem reads_word {size : Nat} (h : bytes.length = size) :
    Reads (word size) bytes (littleEndian bytes) := by
  subst h
  exact (reads_take bytes).map littleEndian

theorem accepts_word (size : Nat) :
    Accepts (word size) fun n bytes => bytes.length = size ∧ littleEndian bytes = n := by
  refine .map ((accepts_take size).mono ?_)
  rintro a bytes ⟨rfl, hsize⟩
  exact ⟨hsize, rfl⟩

theorem littleEndian_word32 (n : Nat) : littleEndian (word32 n) = n % 2 ^ 32 := by
  simp only [word32, word16, littleEndian, List.cons_append, List.nil_append, UInt8.toNat_ofNat']
  omega

theorem ofNat_eq {n : Nat} {b : UInt8} (h : n % 256 = b.toNat) : UInt8.ofNat n = b := by
  rw [← UInt8.toNat_inj, UInt8.toNat_ofNat']
  exact h

theorem word16_littleEndian (h : bytes.length = 2) : word16 (littleEndian bytes) = bytes := by
  match bytes, h with
  | [a, b], _ =>
    have ha := a.toNat_lt
    have hb := b.toNat_lt
    simp only [word16, littleEndian]
    rw [ofNat_eq (b := a) (by omega), ofNat_eq (b := b) (by omega)]

theorem word32_littleEndian (h : bytes.length = 4) : word32 (littleEndian bytes) = bytes := by
  match bytes, h with
  | [a, b, c, d], _ =>
    have ha := a.toNat_lt
    have hb := b.toNat_lt
    have hc := c.toNat_lt
    have hd := d.toNat_lt
    simp only [word32, word16, littleEndian, List.cons_append, List.nil_append]
    rw [ofNat_eq (b := a) (by omega), ofNat_eq (b := b) (by omega), ofNat_eq (b := c) (by omega),
      ofNat_eq (b := d) (by omega)]

theorem reads_word32 (n : Nat) : Reads (word 4) (word32 n) (n % 2 ^ 32) := by
  rw [← littleEndian_word32]
  exact reads_word rfl

theorem reads_word32_of_lt {n : Nat} (h : n < 2 ^ 32) : Reads (word 4) (word32 n) n := by
  have hread := reads_word32 n
  rwa [Nat.mod_eq_of_lt h] at hread

theorem accepts_word32 : Accepts (word 4) fun n bytes => bytes = word32 n ∧ n < 2 ^ 32 := by
  refine (accepts_word 4).mono ?_
  rintro n bytes ⟨hlength, rfl⟩
  have hword := word32_littleEndian hlength
  refine ⟨hword.symm, ?_⟩
  rw [← hword, littleEndian_word32]
  omega

theorem reads_word8 {n : Nat} (h : n < 256) : Reads (word 1) (word8 n) n := by
  have hn : littleEndian (word8 n) = n := by
    simp only [word8, littleEndian, UInt8.toNat_ofNat']
    omega
  have hread : Reads (word 1) (word8 n) (littleEndian (word8 n)) := reads_word rfl
  rwa [hn] at hread

theorem accepts_word8 : Accepts (word 1) fun n bytes => bytes = word8 n := by
  refine (accepts_word 1).mono ?_
  rintro n bytes ⟨hlength, rfl⟩
  match bytes, hlength with
  | [b], _ =>
    have hb := b.toNat_lt
    rw [word8, littleEndian, littleEndian, ofNat_eq (b := b) (by omega)]

/-! ## Texts, types, conditions and labels -/

theorem reads_text {s : String} (h : s.utf8ByteSize < 2 ^ 32) : Reads text (Bytes.text s) s := by
  rw [← Utf8.length_encode_toList] at h
  refine (reads_word32_of_lt h).bind ((reads_take _).last ?_)
  simp only [Utf8.decode_encode, String.ofList_toList]
  exact .pure s

theorem accepts_text : Accepts text fun s bytes => bytes = Bytes.text s := by
  refine accepts_word32.bind ?_
  rintro n bytes ⟨rfl, hn⟩
  refine (accepts_take n).bind ?_
  rintro taken bytes ⟨rfl, rfl⟩
  split
  · rename_i cs hcs
    refine .pure ?_
    rw [Bytes.text, String.toList_ofList, Utf8.encode_of_decode hcs, List.append_nil]
  · exact .throw _

theorem reads_ty (t : Ty) : Reads ty (word8 t.tag) t := by
  cases t <;> exact (reads_word8 (by decide)).last (.pure _)

theorem accepts_ty : Accepts ty fun t bytes => bytes = word8 t.tag := by
  refine accepts_word8.bind ?_
  rintro n bytes rfl
  split <;> first | exact .pure rfl | exact .throw _

theorem reads_cond (c : Cond) : Reads cond (word8 c.tag) c := by
  cases c <;> exact (reads_word8 (by decide)).last (.pure _)

theorem accepts_cond : Accepts cond fun c bytes => bytes = word8 c.tag := by
  refine accepts_word8.bind ?_
  rintro n bytes rfl
  split <;> first | exact .pure rfl | exact .throw _

theorem reads_boolean (b : Bool) : Reads boolean (word8 b.toNat) b := by
  cases b <;> exact (reads_word8 (by decide)).last (.pure _)

theorem accepts_boolean : Accepts boolean fun b bytes => bytes = word8 b.toNat := by
  refine accepts_word8.bind ?_
  rintro n bytes rfl
  split <;> first | exact .pure rfl | exact .throw _

theorem reads_label (l : Label) : Reads label (word32 l.toNat) l := by
  refine (reads_word32_of_lt l.toNat_lt).last ?_
  rw [UInt32.ofNat_toNat]
  exact .pure l

theorem accepts_label : Accepts label fun l bytes => bytes = word32 l.toNat := by
  refine accepts_word32.bind ?_
  rintro n bytes ⟨rfl, hn⟩
  refine .pure ?_
  rw [UInt32.toNat_ofNat_of_lt' hn, List.append_nil]

theorem reads_number (n : Int32) : Reads number (word32 n.toUInt32.toNat) n := by
  refine (reads_word32_of_lt n.toUInt32.toNat_lt).last ?_
  rw [UInt32.ofNat_toNat, Int32.toInt32_toUInt32]
  exact .pure n

theorem accepts_number : Accepts number fun n bytes => bytes = word32 n.toUInt32.toNat := by
  refine accepts_word32.bind ?_
  rintro n bytes ⟨rfl, hn⟩
  refine .pure ?_
  rw [UInt32.toUInt32_toInt32, UInt32.toNat_ofNat_of_lt' hn, List.append_nil]

/-! ## Instructions -/

theorem opcode_lt (i : Instr) : i.opcode < 256 := by
  unfold Instr.opcode
  split <;> first | decide | (rename_i op; cases op <;> decide)

theorem reads_instr {i : Instr} (h : ∀ s, i = .push (.str s) → s.utf8ByteSize < 2 ^ 32) :
    Reads instr i.encode (i.mapIndices (· % 2 ^ 32)) := by
  have hpair (m n : Nat) (g : Nat → Nat → Instr) :
      Reads (do return g (← word 4) (← word 4)) (word32 m ++ word32 n)
        (g (m % 2 ^ 32) (n % 2 ^ 32)) :=
    (reads_word32 m).bind ((reads_word32 n).last (.pure _))
  refine .get fun c => .bind (reads_word8 (opcode_lt i)) ?_
  cases i with
  | push value =>
    cases value with
    | int n => exact (reads_number n).last (.pure _)
    | bool b => exact (reads_boolean b).last (.pure _)
    | str s => exact (reads_text (h s rfl)).last (.pure _)
  | load up slot => exact hpair up slot .load
  | store up slot => exact hpair up slot .store
  | call routine up => exact hpair routine up .call
  | arith op => cases op <;> exact .pure _
  | ifCmp cond target => exact (reads_cond cond).bind ((reads_label target).last (.pure _))
  | ifStr equal target => cases equal <;> exact (reads_label target).last (.pure _)
  | ifBool value target => cases value <;> exact (reads_label target).last (.pure _)
  | goto target => exact (reads_label target).last (.pure _)
  | label l => exact (reads_label l).last (.pure _)
  | print t => exact (reads_ty t).last (.pure _)
  | read t => exact (reads_ty t).last (.pure _)
  | _ => exact .pure _

theorem accepts_instr : Accepts instr fun i bytes => bytes = i.encode := by
  have hpair (opcode : Nat) (g : Nat → Nat → Instr)
      (hg : ∀ m n, word8 opcode ++ (word32 m ++ word32 n) = (g m n).encode) :
      Accepts (do return g (← word 4) (← word 4)) fun i bytes =>
        word8 opcode ++ bytes = i.encode := by
    refine accepts_word32.bind ?_
    rintro m bytes ⟨rfl, -⟩
    refine accepts_word32.last ?_
    rintro n bytes ⟨rfl, -⟩
    exact hg m n
  refine .get fun c => accepts_word8.bind ?_
  rintro opcode bytes rfl
  split
  all_goals first
    | exact .pure rfl
    | exact .throw _
    | exact hpair _ _ fun _ _ => rfl
    | exact accepts_label.last (by rintro _ _ rfl; rfl)
    | exact accepts_number.last (by rintro _ _ rfl; rfl)
    | exact accepts_boolean.last (by rintro _ _ rfl; rfl)
    | exact accepts_text.last (by rintro _ _ rfl; rfl)
    | exact accepts_ty.last (by rintro _ _ rfl; rfl)
    | skip
  refine accepts_cond.bind ?_
  rintro cond bytes rfl
  exact accepts_label.last (by rintro _ _ rfl; rfl)

/-! ## Lists -/

section Lists

variable {item : Reader β} {spell : α → List UInt8} {g : α → β}

theorem reads_times {xs : List α} (h : ∀ x ∈ xs, Reads item (spell x) (g x)) :
    Reads (times item xs.length) (xs.flatMap spell) (xs.map g) := by
  induction xs with
  | nil => exact .pure _
  | cons x xs ih =>
    have hx := h x List.mem_cons_self
    have hxs := ih fun y hy => h y (List.mem_cons_of_mem x hy)
    exact hx.bind (hxs.last (.pure _))

theorem reads_counted {xs : List α} (hlength : xs.length < 2 ^ 32)
    (h : ∀ x ∈ xs, Reads item (spell x) (g x)) :
    Reads (counted item) (Bytes.counted spell xs) (xs.map g) :=
  (reads_word32_of_lt hlength).bind (reads_times h)

variable {read : Reader α}

theorem accepts_times (h : Accepts read fun x bytes => bytes = spell x) (n : Nat) :
    Accepts (times read n) fun xs bytes => xs.length = n ∧ bytes = xs.flatMap spell := by
  induction n with
  | zero => exact .pure ⟨rfl, rfl⟩
  | succ n ih =>
    refine h.bind ?_
    rintro x bytes rfl
    refine ih.last ?_
    rintro xs bytes ⟨rfl, rfl⟩
    exact ⟨rfl, rfl⟩

theorem accepts_counted (h : Accepts read fun x bytes => bytes = spell x) :
    Accepts (counted read) fun xs bytes => bytes = Bytes.counted spell xs := by
  refine accepts_word32.bind ?_
  rintro n bytes ⟨rfl, -⟩
  refine (accepts_times h n).mono ?_
  rintro xs bytes ⟨rfl, rfl⟩
  rfl

end Lists

/-! ## Routines and units -/

theorem reads_routine {r : Routine} (h : r.Sized) :
    Reads routine r.encode (r.mapIndices (· % 2 ^ 32)) := by
  have hname := reads_text h.name
  have hlocals := reads_counted h.locals fun t _ => reads_ty t
  have hcode := reads_counted h.code fun i hi =>
    reads_instr fun s hs => h.texts s (hs ▸ hi)
  rw [List.map_id'] at hlocals
  rw [Routine.encode, List.append_assoc]
  exact hname.bind (hlocals.bind (hcode.last (.pure _)))

theorem accepts_routine : Accepts routine fun r bytes => bytes = r.encode := by
  refine accepts_text.bind ?_
  rintro name bytes rfl
  refine (accepts_counted accepts_ty).bind ?_
  rintro locals bytes rfl
  refine (accepts_counted accepts_instr).last ?_
  rintro code bytes rfl
  rw [← List.append_assoc]
  rfl

theorem unit_encode {u : CodeUnit} (h : u.Sized) :
    unit ⟨0, u.encode⟩ = .ok (u.mapIndices (· % 2 ^ 32), ⟨u.encode.length, []⟩) := by
  have hmagic := reads_take CodeUnit.magic
  have hversion : Reads (word 2) (word16 CodeUnit.formatVersion) CodeUnit.formatVersion :=
    reads_word rfl
  have hname := reads_text h.name
  have hroutines := reads_counted h.count fun r hr => reads_routine (h.routines r hr)
  rw [CodeUnit.encode, ← List.append_nil (Bytes.counted Routine.encode u.routines)]
  simp only [List.append_assoc]
  refine (hmagic.bind_eq _ _ _).trans ?_
  refine (hversion.bind_eq _ _ _).trans ?_
  refine (hname.bind_eq _ _ _).trans ?_
  refine (hroutines.bind_eq _ _ _).trans ?_
  simp only [List.length_append, List.append_nil, Nat.zero_add, Nat.add_assoc]
  rfl

theorem encode_of_unit {c c' : Cursor} {u : CodeUnit} (h : unit c = .ok (u, c')) :
    u.encode = c.rest := by
  obtain ⟨magic, bytes, c₁, hc, ⟨rfl, -⟩, h⟩ := (accepts_take 4).of_bind h
  split at h
  · cases h
  rename_i hmagic
  obtain ⟨version, bytes, c₂, hc₁, ⟨hlength, rfl⟩, h⟩ := (accepts_word 2).of_bind h
  dsimp only at h
  split at h
  · cases h
  rename_i hversion
  obtain ⟨name, bytes', c₃, hc₂, rfl, h⟩ := accepts_text.of_bind h
  obtain ⟨routines, bytes', c₄, hc₃, rfl, h⟩ := (accepts_counted accepts_routine).of_bind h
  change (if c₄.rest ≠ [] then (_ : Reader CodeUnit) else _) c₄ = _ at h
  split at h
  · cases h
  rename_i hrest
  cases h
  have hword := word16_littleEndian hlength
  rw [Decidable.not_not.mp hversion] at hword
  rw [hc, hc₁, hc₂, hc₃, Decidable.not_not.mp hrest, ← hword, Decidable.not_not.mp hmagic,
    CodeUnit.encode]
  simp only [List.append_assoc, List.append_nil]

end Reader

namespace CodeUnit

theorem decode_eq_ok_iff {bytes : List UInt8} {u : CodeUnit} :
    decode bytes = .ok u ↔ ∃ c, Reader.unit ⟨0, bytes⟩ = .ok (u, c) := by
  unfold decode StateT.run'
  change Prod.fst <$> Reader.unit ⟨0, bytes⟩ = _ ↔ _
  cases Reader.unit ⟨0, bytes⟩ with
  | error fault => simp [Functor.map, Except.map]
  | ok r => simp [Functor.map, Except.map, Prod.ext_iff]

/-- Reading what was written gives the unit with its indices cut to 32 bits, so it gives the unit
back just when they all fit. -/
theorem decode_encode_of_sized {u : CodeUnit} (h : u.Sized) :
    decode u.encode = .ok (u.mapIndices (· % 2 ^ 32)) ∧
      (decode u.encode = .ok u ↔ ∀ n ∈ u.indices, n < 2 ^ 32) := by
  have hread : decode u.encode = .ok (u.mapIndices (· % 2 ^ 32)) :=
    decode_eq_ok_iff.mpr ⟨_, Reader.unit_encode h⟩
  refine ⟨hread, ?_⟩
  have hfits (n : Nat) : n % 2 ^ 32 = n ↔ n < 2 ^ 32 := by omega
  simp only [hread, Except.ok.injEq, mapIndices_eq_self_iff, hfits]

/-- A unit with an index that does not fit. -/
def wideStore : CodeUnit :=
  ⟨"wide", [⟨"main", [.number], [.push (.str "é"), .store (2 ^ 32 + 1) 7, .ret]⟩]⟩

theorem sized_wideStore : wideStore.Sized := by
  refine ⟨by decide, by decide, ?_⟩
  intro r hr
  obtain rfl := List.mem_singleton.mp hr
  refine ⟨by decide, by decide, by decide, ?_⟩
  intro s hs
  obtain rfl : s = "é" := by simpa using hs
  decide

theorem decode_encode_of_sized_wide :
    wideStore.Sized ∧ decode wideStore.encode =
      .ok ⟨"wide", [⟨"main", [.number], [.push (.str "é"), .store 1 7, .ret]⟩]⟩ :=
  ⟨sized_wideStore, (decode_encode_of_sized sized_wideStore).1⟩

/-- A unit has one spelling in bytes: the one it is written in. -/
theorem canonical_of_decode {bytes : List UInt8} {u : CodeUnit} (h : decode bytes = .ok u) :
    u.encode = bytes ∧ ∀ bytes', decode bytes' = .ok u → bytes' = bytes := by
  have hcanonical {b : List UInt8} (hb : decode b = .ok u) : u.encode = b := by
    obtain ⟨c, hc⟩ := decode_eq_ok_iff.mp hb
    exact Reader.encode_of_unit hc
  refine ⟨hcanonical h, ?_⟩
  intro bytes' h'
  rw [← hcanonical h', hcanonical h]

/-- A unit whose routine pushes a number and returns, in bytes. -/
def pushReturnBytes : List UInt8 :=
  [0x50, 0x4c, 0x30, 0x42, 1, 0, 1, 0, 0, 0, 0x61, 1, 0, 0, 0, 0, 0, 0, 0, 1, 0, 0, 0, 1,
    2, 0, 0, 0, 0x01, 0xfe, 0xff, 0xff, 0xff, 0x70]

theorem canonical_of_decode_return :
    decode pushReturnBytes = .ok ⟨"a", [⟨"", [.boolean], [.push (.int (-2)), .ret]⟩]⟩ ∧
      encode ⟨"a", [⟨"", [.boolean], [.push (.int (-2)), .ret]⟩]⟩ = pushReturnBytes :=
  ⟨rfl, (canonical_of_decode rfl).1⟩

end CodeUnit

end PLZero
