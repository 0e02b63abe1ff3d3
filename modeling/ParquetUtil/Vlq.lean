/-
  `get_vlq_int` and `get_zigzag_vlq_int` against the bytes they read.

  `vlqScan bs shift v` runs the loop of `get_vlq_int` on the bytes `bs` from the cursor: it
  returns the loop's result and the number of bytes the loop read.

  * `Tracks.getVlqIntLoop`: on a tracking reader the loop is `vlqScan` on the bytes from
    `⌈p / 8⌉`; it leaves the reader as it was if it read no byte, and byte-aligned right
    after the bytes it read otherwise, whatever it returns;
  * `vlqScan_count_of_error`: a failed scan has read every byte left, or six;
  * `vlqScan_vlqBytes`: on the VLQ bytes of `u`, followed by anything, the loop returns `u`
    if `u < 2^35`, and the `MAX_VLQ_BYTE_LEN` error after six bytes otherwise;
  * `zigzag_bijection`: the maps of `put_zigzag_vlq_int` and `get_zigzag_vlq_int` undo each
    other in both orders;
  * `toNat_zigzag_lt_iff`: the zigzag value of `s` has at most five groups iff
    `-2^34 ≤ s < 2^34`.
-/
import ParquetUtil.ReaderSpec
import ParquetUtil.WriterRun

namespace ParquetUtil

/-- The loop of `get_vlq_int` on the bytes `bs` from the cursor, from `shift` with `v` or-ed
    in so far: its result and the number of bytes it read. -/
def vlqScan : List UInt8 → Nat → BitVec 64 → Except String (BitVec 64) × Nat
  | [], _, _ => (.error notEnoughBytes, 0)
  | byte :: bs, shift, v =>
    let v := v ||| BitVec.ofNat 64 (byte.toNat &&& 0x7F) <<< shift
    if shift + 7 > maxVlqByteLen * 7 then (.error vlqTooLong, 1)
    else if byte.toNat &&& 0x80 = 0 then (.ok v, 1)
    else let r := vlqScan bs (shift + 7) v; (r.1, r.2 + 1)

/-- Spec reference: `get_vlq_int()` at bit `p` of `b` reads aligned bytes from
    `⌈p / 8⌉` and leaves the cursor after the last byte it read. -/
def Cursor.getVlqInt (b : List UInt8) (p : Nat) : Except String (BitVec 64) × Nat :=
  let q := (p + 7) / 8
  let r := vlqScan (b.drop q) 0 0
  (r.1, if r.2 = 0 then p else 8 * (q + r.2))

/-- The map of `get_zigzag_vlq_int`, `((u >> 1) as i64) ^ -((u & 1) as i64)`. -/
def unzigzag (u : BitVec 64) : BitVec 64 := (u >>> 1) ^^^ -(u &&& 1)

theorem BitReader.getZigzagVlqInt_eq (r : BitReader) :
    r.getZigzagVlqInt = r.getVlqInt.map fun (res, r) => (res.map unzigzag, r) := rfl

/-! ## The loop on a tracking reader -/

/-- The byte `get_aligned::<u8>(1)` returns: `% 256` and the masks act on it alone. -/
theorem toNat_mod_256 (byte : UInt8) : byte.toNat % 256 = byte.toNat :=
  Nat.mod_eq_of_lt byte.toNat_lt

namespace BitReader

section
variable {r : BitReader} {b : List UInt8} {p : Nat}

/-- `get_aligned::<u8>(1)` at the end of the bytes fails. -/
theorem Tracks.getAligned_one_nil (ht : r.Tracks b p) (hl : b.drop ((p + 7) / 8) = []) :
    r.getAligned 1 = some (.error notEnoughBytes, r) := by
  obtain ⟨r₁, h₁, -⟩ := ht.getAligned 1
  have hlen : b.length ≤ (p + 7) / 8 := by
    have := congrArg List.length hl
    simp only [List.length_drop, List.length_nil] at this
    omega
  rw [Cursor.getAligned, if_pos (by omega)] at h₁
  rw [h₁, getAligned_error h₁]

/-- `get_aligned::<u8>(1)` before the byte `byte` returns it and moves past it, byte-aligned. -/
theorem Tracks.getAligned_one_cons (ht : r.Tracks b p) {byte : UInt8} {bs : List UInt8}
    (hl : b.drop ((p + 7) / 8) = byte :: bs) :
    ∃ r₁, r.getAligned 1 = some (.ok byte.toNat, r₁) ∧ r₁.Tracks b (8 * ((p + 7) / 8 + 1)) ∧
      r₁.bitOffset = 0 ∧ b.drop ((8 * ((p + 7) / 8 + 1) + 7) / 8) = bs := by
  obtain ⟨r₁, h₁, ht₁⟩ := ht.getAligned 1
  have hlen : (p + 7) / 8 + 1 ≤ b.length := by
    have := congrArg List.length hl
    simp only [List.length_drop, List.length_cons] at this
    omega
  rw [Cursor.getAligned, if_neg (by omega), hl] at h₁ ht₁
  have hv : leValue ((byte :: bs).take 1) = byte.toNat := by simp [leValue]
  rw [hv] at h₁
  refine ⟨r₁, h₁, ht₁, bitOffset_of_getAligned_ok h₁, ?_⟩
  rw [show (8 * ((p + 7) / 8 + 1) + 7) / 8 = (p + 7) / 8 + 1 by omega, ← List.drop_drop, hl,
    List.drop_one, List.tail_cons]

/-- **The loop of `get_vlq_int` scans the bytes from the cursor.**  It returns what
    `vlqScan` returns on them; if it read no byte the reader is as it was, and otherwise
    it stands byte-aligned right after the bytes it read. -/
theorem Tracks.getVlqIntLoop {l : List UInt8} (ht : r.Tracks b p) (hl : b.drop ((p + 7) / 8) = l)
    (shift : Nat) (v : BitVec 64) :
    ∃ r', r.getVlqIntLoop shift v = some ((vlqScan l shift v).1, r') ∧
      if (vlqScan l shift v).2 = 0 then r' = r
      else r'.Tracks b (8 * ((p + 7) / 8 + (vlqScan l shift v).2)) ∧ r'.bitOffset = 0 := by
  induction l generalizing r p shift v with
  | nil =>
    rw [BitReader.getVlqIntLoop, ht.getAligned_one_nil hl]
    exact ⟨r, rfl, rfl⟩
  | cons byte bs ih =>
    obtain ⟨r₁, h₁, ht₁, hbo, hl₁⟩ := ht.getAligned_one_cons hl
    rw [BitReader.getVlqIntLoop, h₁]
    simp only [Option.bind_eq_bind, Option.some_bind, toNat_mod_256, vlqScan]
    by_cases hs : shift + 7 > maxVlqByteLen * 7
    · simp only [if_pos hs, one_ne_zero, if_false]
      exact ⟨r₁, rfl, ht₁, hbo⟩
    by_cases hc : byte.toNat &&& 0x80 = 0
    · simp only [if_neg hs, if_pos hc, one_ne_zero, if_false]
      exact ⟨r₁, rfl, ht₁, hbo⟩
    simp only [if_neg hs, if_neg hc, Nat.succ_ne_zero, if_false]
    obtain ⟨r', h', hr'⟩ := ih ht₁ hl₁ (shift + 7) _
    refine ⟨r', h', ?_⟩
    rw [show (8 * ((p + 7) / 8 + 1) + 7) / 8 = (p + 7) / 8 + 1 by omega] at hr'
    split_ifs at hr' with hc'
    · rw [hc', hr']; exact ⟨ht₁, hbo⟩
    · rwa [Nat.add_assoc, Nat.add_comm 1] at hr'

end

end BitReader

/-! ## The scan -/

/-- A failed scan from group `k` has read every byte left, or the `6 - k` that reach the sixth
    group. -/
theorem vlqScan_count_of_error {l : List UInt8} {k : Nat} {v : BitVec 64} {e : String}
    (hk : k ≤ 5) (h : (vlqScan l (7 * k) v).1 = .error e) :
    (vlqScan l (7 * k) v).2 = min l.length (6 - k) := by
  induction l generalizing k v with
  | nil => simp [vlqScan]
  | cons byte bs ih =>
    simp only [vlqScan] at h ⊢
    split_ifs at h ⊢ with hs
    · simp only [maxVlqByteLen] at hs
      simp only [List.length_cons]
      omega
    · have := ih (k := k + 1) (by simp only [maxVlqByteLen] at hs; omega) (by rwa [Nat.mul_succ])
      rw [Nat.mul_succ] at this
      simp only [this, List.length_cons]
      omega

/-- The masks of `get_vlq_int` on a byte: its seven low bits and its continuation bit. -/
theorem and_0x7F (x : Nat) : x &&& 0x7F = x % 128 :=
  Nat.and_pow_two_sub_one_eq_mod x 7

theorem and_0x80_eq {x : Nat} (hx : x < 256) : x &&& 0x80 = if x < 128 then 0 else 0x80 := by
  rw [show (0x80 : Nat) = 2 ^ 7 from rfl]
  apply Nat.eq_of_testBit_eq
  intro i
  rw [Nat.testBit_and, Nat.testBit_two_pow]
  by_cases hi : 7 = i
  · subst hi
    split_ifs with h
    · simp [Nat.testBit_lt_two_pow (show x < 2 ^ 7 from h)]
    · simp [Nat.testBit_two_pow, Nat.testBit_to_div_mod]; omega
  · split_ifs
    · simp [hi]
    · rw [Nat.testBit_two_pow]; simp [hi]

/-- Or-ing in a group and the groups above it. -/
theorem ofNat_or_shiftLeft_seven {a b : Nat} (hb : b < 2 ^ 7) :
    BitVec.ofNat 64 b ||| BitVec.ofNat 64 a <<< 7 = BitVec.ofNat 64 (2 ^ 7 * a + b) := by
  apply BitVec.eq_of_toNat_eq
  simp only [BitVec.toNat_or, BitVec.toNat_shiftLeft, BitVec.toNat_ofNat]
  apply Nat.eq_of_testBit_eq
  intro i
  simp only [Nat.testBit_or, Nat.testBit_mod_two_pow, Nat.testBit_shiftLeft,
    Nat.testBit_mul_pow_two_add _ hb]
  by_cases hi : i < 7
  · simp [hi]
  · have hbi : b.testBit i = false :=
      Nat.testBit_lt_two_pow (lt_of_lt_of_le hb (Nat.pow_le_pow_right (by decide) (by omega)))
    by_cases h64 : i < 64
    · simp [hi, hbi, h64, show 7 ≤ i by omega, show i - 7 < 64 by omega]
    · simp [hi, hbi, h64]

theorem group_shiftLeft (u s : Nat) :
    BitVec.ofNat 64 (u % 128) <<< s ||| BitVec.ofNat 64 (u / 128) <<< (s + 7) =
      BitVec.ofNat 64 u <<< s := by
  rw [Nat.add_comm s 7, BitVec.shiftLeft_add, ← BitVec.shiftLeft_or_distrib,
    @ofNat_or_shiftLeft_seven (u / 128) (u % 128) (Nat.mod_lt _ (by decide)),
    show 2 ^ 7 * (u / 128) + u % 128 = u by omega]

/-- **The loop decodes `vlqBytes`.**  From group `k`, on the VLQ bytes of `u` followed by
    anything, the loop ors `u` in at `7 k` and stops after them if they fit in the groups
    left, and fails with the `MAX_VLQ_BYTE_LEN` error on the sixth group otherwise. -/
theorem vlqScan_vlqBytes (u : Nat) (rest : List UInt8) {k : Nat} (hk : k ≤ 5) (v : BitVec 64) :
    vlqScan (vlqBytes u ++ rest) (7 * k) v =
      if k < 5 ∧ u < 2 ^ (7 * (5 - k)) then
        (.ok (v ||| BitVec.ofNat 64 u <<< (7 * k)), (vlqBytes u).length)
      else (.error vlqTooLong, 6 - k) := by
  induction u using vlqBytes.induct generalizing k v with
  | case1 u hu =>
    have hb : (UInt8.ofNat u).toNat = u := UInt8.toNat_ofNat_of_lt (by simp [UInt8.size]; omega)
    rw [vlqBytes, if_pos hu, List.singleton_append, vlqScan]
    simp only [hb, and_0x80_eq (by omega : u < 256), if_pos hu, and_0x7F, Nat.mod_eq_of_lt hu,
      maxVlqByteLen]
    by_cases h5 : k < 5
    · have h128 : 2 ^ 7 ≤ 2 ^ (7 * (5 - k)) := Nat.pow_le_pow_right (by decide) (by omega)
      rw [if_neg (by omega), if_true, if_pos ⟨h5, by omega⟩, List.length_singleton]
    · rw [if_pos (by omega), if_neg (by omega), show 6 - k = 1 by omega]
  | case2 u hu ih =>
    have hb : (UInt8.ofNat (u % 128 + 128)).toNat = u % 128 + 128 :=
      UInt8.toNat_ofNat_of_lt (by simp [UInt8.size]; omega)
    rw [vlqBytes, if_neg hu, List.cons_append, vlqScan]
    simp only [hb, and_0x80_eq (by omega : u % 128 + 128 < 256), and_0x7F,
      show ¬u % 128 + 128 < 128 by omega, if_false, show (0x80 : Nat) ≠ 0 by decide, maxVlqByteLen,
      Nat.add_mod_right, Nat.mod_mod]
    by_cases h5 : k < 5
    · rw [if_neg (by omega), show 7 * k + 7 = 7 * (k + 1) by omega, ih (by omega)]
      have hpow : 2 ^ (7 * (5 - k)) = 2 ^ (7 * (5 - (k + 1))) * 128 := by
        rw [show (128 : Nat) = 2 ^ 7 from rfl, ← Nat.pow_add,
          show 7 * (5 - (k + 1)) + 7 = 7 * (5 - k) by omega]
      by_cases h4 : k + 1 < 5 ∧ u / 128 < 2 ^ (7 * (5 - (k + 1)))
      · have hc : k < 5 ∧ u < 2 ^ (7 * (5 - k)) := ⟨h5, by rw [hpow]; omega⟩
        rw [if_pos h4, if_pos hc, BitVec.or_assoc, Nat.mul_succ, group_shiftLeft,
          List.length_cons]
      · have hc : ¬(k < 5 ∧ u < 2 ^ (7 * (5 - k))) := by
          rintro ⟨-, hlt⟩
          rw [hpow] at hlt
          by_cases hk4 : k = 4
          · subst hk4; simp at hlt; omega
          · exact h4 ⟨by omega, by omega⟩
        rw [if_neg h4, if_neg hc]
        exact Prod.ext rfl (by dsimp only; omega)
    · rw [if_pos (by omega), if_neg (by omega), show 6 - k = 1 by omega]

/-! ## Zigzag -/

theorem sshiftRight_63 (s : BitVec 64) :
    s.sshiftRight 63 = if 2 ^ 63 ≤ s.toNat then BitVec.allOnes 64 else 0#64 := by
  have hs := s.isLt
  by_cases h : 2 ^ 63 ≤ s.toNat
  · rw [BitVec.sshiftRight_eq_of_msb_true (by rw [BitVec.msb_eq_decide, decide_eq_true h]), if_pos h]
    apply BitVec.eq_of_toNat_eq
    simp [Nat.shiftRight_eq_div_pow]; omega
  · rw [BitVec.sshiftRight_eq_of_msb_false (by rw [BitVec.msb_eq_decide, decide_eq_false h]),
      if_neg h]
    apply BitVec.eq_of_toNat_eq
    simp [Nat.shiftRight_eq_div_pow]; omega

/-- The zigzag value: `2 s` for `s ≥ 0`, `-2 s - 1` for `s < 0`. -/
theorem toNat_zigzag (s : BitVec 64) :
    (BitWriter.zigzag s).toNat = if 2 ^ 63 ≤ s.toNat then 2 ^ 65 - 1 - 2 * s.toNat else 2 * s.toNat := by
  have hs := s.isLt
  rw [BitWriter.zigzag, sshiftRight_63]
  by_cases h : 2 ^ 63 ≤ s.toNat
  · rw [if_pos h, if_pos h, BitVec.xor_allOnes, BitVec.toNat_not, BitVec.toNat_shiftLeft,
      Nat.shiftLeft_eq]
    omega
  · rw [if_neg h, if_neg h, BitVec.xor_zero, BitVec.toNat_shiftLeft, Nat.shiftLeft_eq]
    omega

theorem unzigzag_zigzag (s : BitVec 64) : unzigzag (BitWriter.zigzag s) = s := by
  have hs := s.isLt
  have hz := toNat_zigzag s
  apply BitVec.eq_of_toNat_eq
  by_cases h : 2 ^ 63 ≤ s.toNat
  · rw [if_pos h] at hz
    have h1 : BitWriter.zigzag s &&& 1 = 1 := BitVec.eq_of_toNat_eq (by
      rw [BitVec.toNat_and, hz]; simp [Nat.and_one_is_mod]; omega)
    rw [unzigzag, h1, show -(1 : BitVec 64) = BitVec.allOnes 64 by decide, BitVec.xor_allOnes,
      BitVec.toNat_not, BitVec.toNat_ushiftRight, hz, Nat.shiftRight_eq_div_pow]
    omega
  · rw [if_neg h] at hz
    have h1 : BitWriter.zigzag s &&& 1 = 0#64 := BitVec.eq_of_toNat_eq (by
      rw [BitVec.toNat_and, hz]; simp [Nat.and_one_is_mod])
    rw [unzigzag, h1, show -0#64 = 0#64 by decide, BitVec.xor_zero,
      BitVec.toNat_ushiftRight, hz, Nat.shiftRight_eq_div_pow]
    omega

theorem toNat_unzigzag (u : BitVec 64) :
    (unzigzag u).toNat = if u.toNat % 2 = 0 then u.toNat / 2 else 2 ^ 64 - 1 - u.toNat / 2 := by
  have hu := u.isLt
  by_cases h : u.toNat % 2 = 0
  · have h1 : u &&& 1 = 0#64 := BitVec.eq_of_toNat_eq (by
      rw [BitVec.toNat_and]; simp [Nat.and_one_is_mod, h])
    rw [if_pos h, unzigzag, h1, show -0#64 = 0#64 by decide, BitVec.xor_zero,
      BitVec.toNat_ushiftRight, Nat.shiftRight_eq_div_pow]
  · have h1 : u &&& 1 = 1 := BitVec.eq_of_toNat_eq (by
      rw [BitVec.toNat_and]; simp [Nat.and_one_is_mod]; omega)
    rw [if_neg h, unzigzag, h1, show -(1 : BitVec 64) = BitVec.allOnes 64 by decide,
      BitVec.xor_allOnes, BitVec.toNat_not, BitVec.toNat_ushiftRight, Nat.shiftRight_eq_div_pow]

theorem zigzag_unzigzag (u : BitVec 64) : BitWriter.zigzag (unzigzag u) = u := by
  have hu := u.isLt
  apply BitVec.eq_of_toNat_eq
  rw [toNat_zigzag, toNat_unzigzag]
  by_cases h : u.toNat % 2 = 0
  · rw [if_pos h, if_neg (show ¬2 ^ 63 ≤ u.toNat / 2 by omega)]
    omega
  · rw [if_neg h, if_pos (show 2 ^ 63 ≤ 2 ^ 64 - 1 - u.toNat / 2 by omega)]
    omega

/-- **Zigzag is a bijection of 64-bit values.**  The map of `put_zigzag_vlq_int` and the map
    of `get_zigzag_vlq_int` undo each other in both orders: every `i64` is read back from its
    zigzag value, and every `u64` a VLQ read returns is the zigzag value of the `i64`
    `get_zigzag_vlq_int` returns for it. -/
theorem zigzag_bijection :
    (∀ s, unzigzag (BitWriter.zigzag s) = s) ∧ ∀ u, BitWriter.zigzag (unzigzag u) = u :=
  ⟨unzigzag_zigzag, zigzag_unzigzag⟩

theorem toNat_zigzag_lt_iff (s : BitVec 64) :
    (BitWriter.zigzag s).toNat < 2 ^ 35 ↔ -2 ^ 34 ≤ s.toInt ∧ s.toInt < 2 ^ 34 := by
  have hs := s.isLt
  rw [toNat_zigzag, BitVec.toInt_eq_msb_cond, BitVec.msb_eq_decide]
  by_cases h : 2 ^ 63 ≤ s.toNat
  · rw [if_pos h, if_pos (decide_eq_true h)]; omega
  · rw [if_neg h, if_neg (by rw [decide_eq_false h]; decide)]; omega

end ParquetUtil
