import PLZero.Text.Utf8

/-!
# UTF-8, written and read

* `Utf8.Spells` — the sequences of bytes that stand for a character, with the bounds that the first
  byte sets for the second.
* `Utf8.spells_encodeChar`, `Utf8.Spells.eq_encodeChar` — a character has exactly one such sequence,
  the one that is written: the bounds leave no overlong form, no surrogate and no second spelling.
* `Utf8.decode_encode` — the bytes of a text are read as that text.
* `Utf8.encode_of_decode` — bytes that can be read as a text are the bytes of that text.
* `Utf8.newline_not_mem_encode` — lines of bytes are lines of the text.
-/

namespace PLZero.Utf8

/-! ## First bytes -/

section Lead

variable {b : UInt8} {low high : Nat}

theorem lead_eq_one_iff : lead b = .one ↔ b.toNat < 0x80 := by
  unfold lead
  grind

theorem lead_eq_two_iff : lead b = .two ↔ 0xc2 ≤ b.toNat ∧ b.toNat < 0xe0 := by
  unfold lead
  grind

theorem lead_eq_three_iff : lead b = .three low high ↔
    0xe0 ≤ b.toNat ∧ b.toNat < 0xf0 ∧ low = (if b.toNat = 0xe0 then 0xa0 else 0x80) ∧
      high = (if b.toNat = 0xed then 0x9f else 0xbf) := by
  unfold lead
  grind

theorem lead_eq_four_iff : lead b = .four low high ↔
    0xf0 ≤ b.toNat ∧ b.toNat < 0xf5 ∧ low = (if b.toNat = 0xf0 then 0x90 else 0x80) ∧
      high = (if b.toNat = 0xf4 then 0x8f else 0xbf) := by
  unfold lead
  grind

theorem between_iff : between low high b = true ↔ low ≤ b.toNat ∧ b.toNat ≤ high := by
  simp [between]

theorem isTail_iff : isTail b = true ↔ 0x80 ≤ b.toNat ∧ b.toNat ≤ 0xbf := between_iff

end Lead

/-! ## Bytes and characters by their numbers -/

theorem toNat_byte {n : Nat} (h : n < 0x100) : (UInt8.ofNat n).toNat = n :=
  UInt8.toNat_ofNat_of_lt' h

theorem toNat_tail (n : Nat) : (tail n).toNat = 0x80 + n % 64 := toNat_byte (by omega)

theorem byte_eq {n : Nat} {b : UInt8} (h : n = b.toNat) : UInt8.ofNat n = b := by
  rw [h]
  exact UInt8.ofNat_toNat

theorem tail_eq {n : Nat} {b : UInt8} (hb : isTail b = true) (h : n % 64 = b.toNat % 64) :
    tail n = b := by
  rw [isTail_iff] at hb
  exact byte_eq (by omega)

theorem isTail_tail (n : Nat) : isTail (tail n) = true := by
  rw [isTail_iff, toNat_tail]
  omega

theorem toNat_char (c : Char) : c.toNat < 0xd800 ∨ (0xdfff < c.toNat ∧ c.toNat < 0x110000) :=
  c.valid

theorem toNat_ofNat {n : Nat} (h : n < 0xd800 ∨ (0xdfff < n ∧ n < 0x110000)) :
    (Char.ofNat n).toNat = n := by
  have hvalid : n.isValidChar := h
  rw [Char.ofNat, dif_pos hvalid]
  rfl

/-! ## Sequences -/

/-- The bytes are a sequence that stands for the character. -/
inductive Spells : List UInt8 → Char → Prop where
  | one {a : UInt8} : lead a = .one → Spells [a] (codePoint a.toNat [])
  | two {a b : UInt8} : lead a = .two → isTail b = true →
      Spells [a, b] (codePoint (a.toNat % 32) [b])
  | three {a b c : UInt8} {low high : Nat} : lead a = .three low high →
      between low high b = true → isTail c = true →
      Spells [a, b, c] (codePoint (a.toNat % 16) [b, c])
  | four {a b c d : UInt8} {low high : Nat} : lead a = .four low high →
      between low high b = true → isTail c = true → isTail d = true →
      Spells [a, b, c, d] (codePoint (a.toNat % 8) [b, c, d])

/-- The bytes stand for the character whose number they give. -/
theorem Spells.of_number {bytes tails : List UInt8} {first : Nat} {c : Char}
    (h : Spells bytes (codePoint first tails))
    (hc : tails.foldl (fun n b => n * 64 + b.toNat % 64) first = c.toNat) : Spells bytes c := by
  rwa [codePoint, hc, Char.ofNat_toNat] at h

theorem spells_encodeChar (c : Char) : Spells (encodeChar c) c := by
  have hc := toNat_char c
  unfold encodeChar
  dsimp only
  split
  · have ha := toNat_byte (show c.toNat < 0x100 by omega)
    exact (Spells.one (lead_eq_one_iff.mpr (by omega))).of_number ha
  split
  · have ha := toNat_byte (show 0xc0 + c.toNat / 64 < 0x100 by omega)
    refine (Spells.two (lead_eq_two_iff.mpr (by omega)) (isTail_tail _)).of_number ?_
    simp only [List.foldl_cons, List.foldl_nil, toNat_tail]
    omega
  split
  · have ha := toNat_byte (show 0xe0 + c.toNat / 4096 < 0x100 by omega)
    refine (Spells.three (lead_eq_three_iff.mpr ⟨by omega, by omega, rfl, rfl⟩)
      (between_iff.mpr ?_) (isTail_tail _)).of_number ?_
    · rw [toNat_tail]
      grind
    · simp only [List.foldl_cons, List.foldl_nil, toNat_tail]
      omega
  · have ha := toNat_byte (show 0xf0 + c.toNat / 262144 < 0x100 by omega)
    refine (Spells.four (lead_eq_four_iff.mpr ⟨by omega, by omega, rfl, rfl⟩)
      (between_iff.mpr ?_) (isTail_tail _) (isTail_tail _)).of_number ?_
    · rw [toNat_tail]
      grind
    · simp only [List.foldl_cons, List.foldl_nil, toNat_tail]
      omega

theorem Spells.eq_encodeChar {bytes : List UInt8} {c : Char} (h : Spells bytes c) :
    bytes = encodeChar c := by
  unfold encodeChar
  cases h with
  | @one a ha =>
    rw [lead_eq_one_iff] at ha
    have hn : (codePoint a.toNat []).toNat = a.toNat := toNat_ofNat (.inl (by simp; omega))
    rw [hn, if_pos ha, byte_eq rfl]
  | @two a b ha hb =>
    rw [lead_eq_two_iff] at ha
    have hn : (codePoint (a.toNat % 32) [b]).toNat = a.toNat % 32 * 64 + b.toNat % 64 :=
      toNat_ofNat (.inl (by simp; omega))
    have hb' := isTail_iff.mp hb
    rw [hn, if_neg (by omega), if_pos (by omega), byte_eq (b := a) (by omega),
      tail_eq hb (by omega)]
  | @three a b c low high ha hb hc =>
    obtain ⟨ha, ha', hlow, hhigh⟩ := lead_eq_three_iff.mp ha
    have hb' := between_iff.mp hb
    have hc' := isTail_iff.mp hc
    have hn : (codePoint (a.toNat % 16) [b, c]).toNat =
        (a.toNat % 16 * 64 + b.toNat % 64) * 64 + c.toNat % 64 :=
      toNat_ofNat (by simp; grind)
    have hb : isTail b = true := isTail_iff.mpr (by grind)
    have hlong : 0x800 ≤ (a.toNat % 16 * 64 + b.toNat % 64) * 64 + c.toNat % 64 := by grind
    rw [hn, if_neg (by omega), if_neg (by omega), if_pos (by omega), byte_eq (b := a) (by omega),
      tail_eq hb (by omega), tail_eq hc (by omega)]
  | @four a b c d low high ha hb hc hd =>
    obtain ⟨ha, ha', hlow, hhigh⟩ := lead_eq_four_iff.mp ha
    have hb' := between_iff.mp hb
    have hc' := isTail_iff.mp hc
    have hd' := isTail_iff.mp hd
    have hn : (codePoint (a.toNat % 8) [b, c, d]).toNat =
        ((a.toNat % 8 * 64 + b.toNat % 64) * 64 + c.toNat % 64) * 64 + d.toNat % 64 :=
      toNat_ofNat (by simp; grind)
    have hb : isTail b = true := isTail_iff.mpr (by grind)
    have hlong : 0x10000 ≤
        ((a.toNat % 8 * 64 + b.toNat % 64) * 64 + c.toNat % 64) * 64 + d.toNat % 64 := by grind
    rw [hn, if_neg (by omega), if_neg (by omega), if_neg (by omega), byte_eq (b := a) (by omega),
      tail_eq hb (by omega), tail_eq hc (by omega), tail_eq hd (by omega)]

/-! ## Texts -/

theorem Spells.decodeFrom_append {bytes : List UInt8} {c : Char} (h : Spells bytes c) (i : Nat)
    (rest : List UInt8) :
    decodeFrom i (bytes ++ rest) = (c :: ·) <$> decodeFrom (i + bytes.length) rest := by
  cases h with
  | one ha =>
    rw [List.singleton_append, decodeFrom.eq_def]
    simp only [ha]
    rfl
  | two ha hb =>
    rw [List.cons_append, List.singleton_append, decodeFrom.eq_def]
    simp only [ha, hb, if_true]
    rfl
  | three ha hb hc =>
    rw [List.cons_append, List.cons_append, List.singleton_append, decodeFrom.eq_def]
    simp only [ha, hb, hc, if_true]
    rfl
  | four ha hb hc hd =>
    rw [List.cons_append, List.cons_append, List.cons_append, List.singleton_append,
      decodeFrom.eq_def]
    simp only [ha, hb, hc, hd, if_true]
    rfl

/-- What is read after a sequence. -/
theorem Spells.exists_rest {bytes rest : List UInt8} {c : Char} {i j : Nat} {cs : List Char}
    (hc : Spells bytes c) (h : ((c :: ·) <$> decodeFrom j rest : Except Fault (List Char)) = .ok cs)
    (hj : j = i + bytes.length) :
    ∃ bytes' c' rest' cs', bytes ++ rest = bytes' ++ rest' ∧ Spells bytes' c' ∧ cs = c' :: cs' ∧
      decodeFrom (i + bytes'.length) rest' = .ok cs' := by
  cases hrest : decodeFrom j rest with
  | error f =>
    rw [hrest] at h
    cases h
  | ok cs' =>
    rw [hrest] at h
    cases h
    exact ⟨bytes, c, rest, cs', rfl, hc, rfl, by rw [← hj, hrest]⟩

/-- Bytes that can be read start with a sequence. -/
theorem exists_spells {i : Nat} {a : UInt8} {rest : List UInt8} {cs : List Char}
    (h : decodeFrom i (a :: rest) = .ok cs) :
    ∃ bytes c rest' cs', a :: rest = bytes ++ rest' ∧ Spells bytes c ∧ cs = c :: cs' ∧
      decodeFrom (i + bytes.length) rest' = .ok cs' := by
  rw [decodeFrom.eq_def] at h
  simp only at h
  split at h
  · rename_i hlead
    exact (Spells.one hlead).exists_rest h rfl
  · rename_i hlead
    split at h
    · cases h
    · rename_i b rest
      split at h
      · rename_i hb
        exact (Spells.two hlead hb).exists_rest h rfl
      · cases h
  · rename_i low high hlead
    split at h
    · cases h
    · rename_i b rest
      split at h
      · rename_i hb
        split at h
        · cases h
        · rename_i c rest
          split at h
          · rename_i hc
            exact (Spells.three hlead hb hc).exists_rest h rfl
          · cases h
      · cases h
  · rename_i low high hlead
    split at h
    · cases h
    · rename_i b rest
      split at h
      · rename_i hb
        split at h
        · cases h
        · rename_i c rest
          split at h
          · rename_i hc
            split at h
            · cases h
            · rename_i d rest
              split at h
              · rename_i hd
                exact (Spells.four hlead hb hc hd).exists_rest h rfl
              · cases h
          · cases h
      · cases h
  · cases h

theorem encode_of_decodeFrom (cs : List Char) : ∀ {i : Nat} {bytes : List UInt8},
    decodeFrom i bytes = .ok cs → encode cs = bytes := by
  induction cs with
  | nil =>
    intro i bytes h
    cases bytes with
    | nil => rfl
    | cons a rest =>
      obtain ⟨_, _, _, _, -, -, hcs, -⟩ := exists_spells h
      cases hcs
  | cons c cs ih =>
    intro i bytes h
    cases bytes with
    | nil => cases h
    | cons a rest =>
      obtain ⟨sequence, c', rest', cs', hbytes, hc, hcs, hrest⟩ := exists_spells h
      cases hcs
      rw [hbytes, hc.eq_encodeChar, ← ih hrest]
      rfl

theorem decodeFrom_encode (cs : List Char) : ∀ i, decodeFrom i (encode cs) = .ok cs := by
  induction cs with
  | nil =>
    intro i
    rfl
  | cons c cs ih =>
    intro i
    rw [encode, List.flatMap_cons, (spells_encodeChar c).decodeFrom_append]
    exact congrArg ((c :: ·) <$> ·) (ih _)

/-- **The bytes of a text are read as that text.** -/
theorem decode_encode (cs : List Char) : decode (encode cs) = .ok cs := decodeFrom_encode cs 0

/-- **Bytes that are read as a text are the bytes of that text.** -/
theorem encode_of_decode {bytes : List UInt8} {cs : List Char} (h : decode bytes = .ok cs) :
    encode cs = bytes :=
  encode_of_decodeFrom cs h

/-! ## Line feeds -/

theorem encode_append (cs ds : List Char) : encode (cs ++ ds) = encode cs ++ encode ds :=
  List.flatMap_append ..

/-- The bytes of a longer sequence are none of those that stand alone. -/
theorem Spells.le_of_mem {bytes : List UInt8} {c : Char} (h : Spells bytes c) {b : UInt8}
    (hb : b ∈ bytes) : bytes = [b] ∨ 0x80 ≤ b.toNat := by
  cases h with
  | one => exact .inl (by rw [List.mem_singleton.mp hb])
  | two ha hb' =>
    rw [lead_eq_two_iff] at ha
    rw [isTail_iff] at hb'
    grind
  | three ha hb' hc =>
    rw [lead_eq_three_iff] at ha
    rw [between_iff] at hb'
    rw [isTail_iff] at hc
    grind
  | four ha hb' hc hd =>
    rw [lead_eq_four_iff] at ha
    rw [between_iff] at hb'
    rw [isTail_iff] at hc hd
    grind

/-- The byte of a line feed stands for nothing else. -/
theorem newline_not_mem_encode {cs : List Char} (h : '\n' ∉ cs) : 10 ∉ encode cs := by
  intro hmem
  obtain ⟨c, hc, hbyte⟩ := List.mem_flatMap.mp hmem
  obtain hsingle | hle := (spells_encodeChar c).le_of_mem hbyte
  · have hspells := spells_encodeChar c
    rw [hsingle] at hspells
    cases hspells
    exact h hc
  · exact absurd hle (by decide)

/-! ## Lengths -/

theorem length_encodeChar (c : Char) : (encodeChar c).length = c.utf8Size := by
  have hval : c.val.toNat = c.toNat := rfl
  unfold encodeChar Char.utf8Size
  simp only [UInt32.le_iff_toNat_le, hval]
  grind

theorem length_encode (cs : List Char) : (encode cs).length = cs.utf8Encode.size := by
  induction cs with
  | nil => rfl
  | cons c cs ih =>
    rw [List.utf8Encode_cons, ByteArray.size_append, ← ih]
    simp [encode, length_encodeChar, List.utf8Encode_singleton]

theorem length_encode_toList (s : String) : (encode s.toList).length = s.utf8ByteSize := by
  rw [length_encode, String.utf8ByteSize]
  simp

end PLZero.Utf8
