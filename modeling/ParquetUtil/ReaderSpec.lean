/-
  The windowed `BitReader` against a plain bit cursor.

  `Tracks r b p` says the reader `r` reads the bytes `b` and stands at bit `p`:
  `8 * byte_offset + bit_offset = p`, and `buffered_values` holds exactly the
  little-endian bytes `b[byte_offset .. min(byte_offset + 8, len b))` (`window`).
  `Cursor` is the plain cursor over `b` the reader is meant to be: `get_value(n)` takes
  the bits `p .. p + n` of `b`, least significant first, and `get_aligned(k)` the `k`
  bytes from the next byte boundary.

  * `new_tracks`: a new (or reset) reader tracks its bytes at bit 0;
  * `getValue_tracks`, `getAligned_tracks`: each read of a tracking reader returns what
    the cursor returns, and the reader tracks the cursor's new position.
-/
import ParquetUtil.Reader

namespace ParquetUtil

/-- The window at byte `q` of `b`: the little-endian value of `b[q .. min(q + 8, len b))`. -/
def window (b : List UInt8) (q : Nat) : Nat := leValue ((b.drop q).take 8)

/-! ## The plain cursor -/

namespace Cursor

/-- Spec reference: bit `j` of `b`, `(b[j / 8] >> (j mod 8)) & 1`. -/
def bit (b : List UInt8) (j : Nat) : Nat := ((b.getD (j / 8) 0).toNat >>> (j % 8)) &&& 1

/-- Spec reference: `Σ_{i<n} bit(b, p + i) · 2^i`. -/
def bitsValue (b : List UInt8) (p : Nat) : Nat → Nat
  | 0 => 0
  | n + 1 => bit b p + 2 * bitsValue b (p + 1) n

/-- Spec reference: `get_value(n)` at bit `p` of `b`. -/
def getValue (b : List UInt8) (p n : Nat) : Except String Nat × Nat :=
  if p + n > 8 * b.length then (.error notEnoughBytes, p) else (.ok (bitsValue b p n), p + n)

/-- Spec reference: `get_aligned(k)` at bit `p` of `b`, from the byte `⌈p / 8⌉`. -/
def getAligned (b : List UInt8) (p k : Nat) : Except String Nat × Nat :=
  let q := (p + 7) / 8
  if q + k > b.length then (.error notEnoughBytes, p)
  else (.ok (leValue ((b.drop q).take k)), 8 * (q + k))

theorem bit_eq (b : List UInt8) (j : Nat) : bit b j = (bitAt b j).toNat := by
  rw [bit, bitAt, Nat.and_one_is_mod, Nat.testBit_to_div_mod, Nat.shiftRight_eq_div_pow]
  generalize (b.getD (j / 8) 0).toNat / 2 ^ (j % 8) = x
  rcases Nat.mod_two_eq_zero_or_one x with h | h <;> simp [h]

theorem testBit_bitsValue (b : List UInt8) (p n i : Nat) :
    (bitsValue b p n).testBit i = (decide (i < n) && bitAt b (p + i)) := by
  induction n generalizing p i with
  | zero => simp [bitsValue]
  | succ n ih =>
    have hbit : bit b p < 2 := by rw [bit_eq]; cases bitAt b p <;> decide
    cases i with
    | zero =>
      rw [bitsValue, Nat.testBit_zero, bit_eq, Nat.add_zero]
      cases hb : bitAt b p <;> simp [hb, Nat.add_mul_mod_self_left]
    | succ i =>
      rw [bitsValue, Nat.testBit_succ, show (bit b p + 2 * bitsValue b (p + 1) n) / 2 =
        bitsValue b (p + 1) n by omega, ih, Nat.add_right_comm p 1 i]
      simp [Nat.succ_lt_succ_iff, Nat.add_comm 1 i, Nat.add_assoc]

theorem bitsValue_lt (b : List UInt8) (p n : Nat) : bitsValue b p n < 2 ^ n := by
  induction n generalizing p with
  | zero => simp [bitsValue]
  | succ n ih =>
    have hbit : bit b p < 2 := by rw [bit_eq]; cases bitAt b p <;> decide
    have := ih (p + 1)
    rw [bitsValue, Nat.pow_succ]
    omega

end Cursor

/-! ## The window -/

theorem window_lt (b : List UInt8) (q : Nat) : window b q < 2 ^ 64 :=
  lt_of_lt_of_le (leValue_lt _) (Nat.pow_le_pow_right (by decide) (by simp; omega))

/-- Bit `j` of the window at byte `q` is bit `8 * q + j` of `b`. -/
theorem testBit_window (b : List UInt8) (q j : Nat) :
    (window b q).testBit j = (decide (j < 64) && bitAt b (8 * q + j)) := by
  rw [window, testBit_leValue, bitAt, bitAt, List.getD_eq_getElem?_getD, List.getD_eq_getElem?_getD,
    List.getElem?_take, List.getElem?_drop,
    show (8 * q + j) / 8 = q + j / 8 by omega, show (8 * q + j) % 8 = j % 8 by omega]
  by_cases hj : j < 64
  · simp [hj, show j / 8 < 8 by omega]
  · simp [hj, show ¬j / 8 < 8 by omega]

/-- The bits `bo .. bo + n` of the window at byte `q`, within it. -/
theorem window_bits_of_lt {b : List UInt8} {q bo n : Nat} (h : bo + n < 64) :
    trailingBits (window b q) (bo + n) >>> bo = Cursor.bitsValue b (8 * q + bo) n := by
  rw [trailingBits_eq (window_lt b q)]
  apply Nat.eq_of_testBit_eq
  intro i
  rw [Nat.testBit_shiftRight, Nat.testBit_mod_two_pow, testBit_window, Cursor.testBit_bitsValue]
  by_cases hi : i < n
  · simp [hi, show bo + i < 64 by omega, Nat.add_assoc]
  · simp [hi]

/-- The bits `bo .. bo + n` of the window at byte `q`, past its end: the rest of the window
    at `q`, then the low bits of the window at `q + 8`. -/
theorem window_bits_of_ge {b : List UInt8} {q bo n : Nat} (hbo : bo < 64) (hn : n ≤ 32)
    (h : 64 ≤ bo + n) :
    (trailingBits (window b q) (bo + n) >>> bo) |||
        shl64 (trailingBits (window b (q + 8)) (bo + n - 64)) (n - (bo + n - 64)) =
      Cursor.bitsValue b (8 * q + bo) n := by
  rw [show n - (bo + n - 64) = 64 - bo by omega]
  have hx := Nat.mod_lt (window b (q + 8)) (Nat.two_pow_pos (bo + n - 64))
  have hprod : window b (q + 8) % 2 ^ (bo + n - 64) * 2 ^ (64 - bo) < 2 ^ 64 :=
    calc _ < 2 ^ (bo + n - 64) * 2 ^ (64 - bo) := Nat.mul_lt_mul_of_pos_right hx (Nat.two_pow_pos _)
      _ = 2 ^ n := by rw [← Nat.pow_add, show bo + n - 64 + (64 - bo) = n by omega]
      _ ≤ 2 ^ 64 := Nat.pow_le_pow_right (by decide) (by omega)
  rw [trailingBits_eq (window_lt b q), trailingBits_eq (window_lt b (q + 8)), shl64_eq hprod,
    Nat.mod_eq_of_lt (lt_of_lt_of_le (window_lt b q) (Nat.pow_le_pow_right (by decide) h))]
  apply Nat.eq_of_testBit_eq
  intro i
  rw [Nat.testBit_or, Nat.testBit_shiftRight, testBit_window, Nat.mul_comm _ (2 ^ _),
    Nat.testBit_mul_pow_two, Nat.testBit_mod_two_pow, testBit_window, Cursor.testBit_bitsValue]
  by_cases h₁ : i < 64 - bo
  · simp only [decide_eq_true (show bo + i < 64 by omega), decide_eq_true (show i < n by omega),
      decide_eq_false (show ¬i ≥ 64 - bo by omega), Bool.true_and, Bool.false_and, Bool.or_false,
      Nat.add_assoc]
  by_cases h₂ : i < n
  · simp only [decide_eq_false (show ¬bo + i < 64 by omega),
      decide_eq_true (show i ≥ 64 - bo by omega),
      decide_eq_true (show i - (64 - bo) < bo + n - 64 by omega),
      decide_eq_true (show i - (64 - bo) < 64 by omega), decide_eq_true h₂, Bool.true_and,
      Bool.false_and, Bool.false_or, show 8 * (q + 8) + (i - (64 - bo)) = 8 * q + bo + i by omega]
  · simp only [decide_eq_false (show ¬bo + i < 64 by omega),
      decide_eq_false (show ¬i - (64 - bo) < bo + n - 64 by omega), decide_eq_false h₂,
      Bool.false_and, Bool.and_false, Bool.false_or]

/-! ## Tracking readers -/

namespace BitReader

/-- `r` reads the bytes `b` and stands at bit `p` of them, with the window at `byte_offset`
    loaded. -/
structure Tracks (r : BitReader) (b : List UInt8) (p : Nat) : Prop where
  asRef : r.buffer.asRef = b
  totalBytes : r.totalBytes = b.length
  pos : 8 * r.byteOffset + r.bitOffset = p
  bitOffset_lt : r.bitOffset < 64
  le_length : p ≤ 8 * b.length
  bufferedValues_eq : r.bufferedValues = window b r.byteOffset

theorem readNumBytes_of_le {k : Nat} {bs : List UInt8} (h : k ≤ bs.length) :
    readNumBytes k bs = some (leValue (bs.take k)) :=
  if_pos h

theorem take_min_length {bs : List UInt8} {k : Nat} : bs.take (min bs.length k) = bs.take k := by
  rw [← List.take_take, List.take_of_length_le (by simp)]

theorem new_eq (buf : ByteBufferPtr) :
    new buf = some ⟨buf, window buf.asRef 0, 0, 0, buf.len⟩ := by
  have hk : min 8 buf.len ≤ buf.asRef.length := by simp
  rw [new]
  simp only [readNumBytes_of_le hk, Option.bind_eq_bind, Option.some_bind]
  rw [window, List.drop_zero, ← ByteBufferPtr.length_asRef, Nat.min_comm, take_min_length]
  rfl

theorem reset_eq (r : BitReader) (buf : ByteBufferPtr) : r.reset buf = new buf := rfl

theorem tracks_new (buf : ByteBufferPtr) : Tracks ⟨buf, window buf.asRef 0, 0, 0, buf.len⟩ buf.asRef 0 :=
  ⟨rfl, (ByteBufferPtr.length_asRef buf).symm, rfl, by simp, Nat.zero_le _, rfl⟩

section
variable {r r' : BitReader} {b : List UInt8} {p : Nat}

/-- A failed `get_value` leaves the reader as it was. -/
theorem getValue_error {size n : Nat} {e : String} (h : r.getValue size n = some (.error e, r')) :
    r' = r := by
  simp only [BitReader.getValue] at h
  split_ifs at h
  · exact (Prod.mk.inj (Option.some.inj h)).2.symm
  all_goals simp [Option.bind_eq_some] at h

/-- A failed `get_aligned` leaves the reader as it was. -/
theorem getAligned_error {k : Nat} {e : String} (h : r.getAligned k = some (.error e, r')) :
    r' = r := by
  rw [BitReader.getAligned] at h
  split_ifs at h
  · exact (Prod.mk.inj (Option.some.inj h)).2.symm
  · simp [Option.bind_eq_some] at h

/-- A `get_aligned` that goes through leaves the reader byte-aligned. -/
theorem bitOffset_of_getAligned_ok {k x : Nat} (h : r.getAligned k = some (.ok x, r')) :
    r'.bitOffset = 0 := by
  rw [BitReader.getAligned] at h
  split_ifs at h
  · simp at h
  · simp only [Option.bind_eq_bind, Option.bind_eq_some, Option.pure_def, Option.some.injEq,
      Prod.mk.injEq] at h
    obtain ⟨_, _, _, _, _, _, _, rfl⟩ := h
    rfl

theorem Tracks.refill_eq (ht : r.Tracks b p) {q : Nat} (hq : q ≤ b.length) :
    r.refill q = some (window b q) := by
  have hlen : q ≤ r.buffer.len := by rw [← ByteBufferPtr.length_asRef, ht.asRef]; exact hq
  obtain ⟨buf, hbuf, hbufa⟩ := r.buffer.startFrom_eq_some hlen
  rw [BitReader.refill, if_pos (ht.totalBytes ▸ hq)]
  simp only [hbuf, Option.bind_eq_bind, Option.some_bind, hbufa, ht.asRef, ht.totalBytes]
  rw [readNumBytes_of_le (by simp), ParquetUtil.window, ← List.length_drop, take_min_length]

/-- `get_value::<T>(n)` on a tracking reader is the cursor's `get_value(n)`. -/
theorem Tracks.getValue (ht : r.Tracks b p) {size n : Nat} (hn : n ≤ 32) (hs : n ≤ size * 8) :
    ∃ r', r.getValue size n = some ((Cursor.getValue b p n).1, r') ∧
      r'.Tracks b (Cursor.getValue b p n).2 := by
  have hpos := ht.pos
  have hbo := ht.bitOffset_lt
  have htot := ht.totalBytes
  have hmod : Cursor.bitsValue b p n % 2 ^ (8 * size) = Cursor.bitsValue b p n :=
    Nat.mod_eq_of_lt (lt_of_lt_of_le (Cursor.bitsValue_lt b p n)
      (Nat.pow_le_pow_right (by decide) (by omega)))
  rw [BitReader.getValue, if_pos ⟨hn, hs⟩, Cursor.getValue]
  by_cases hp : p + n > 8 * b.length
  · rw [if_pos (by omega), if_pos hp]
    exact ⟨r, rfl, ht⟩
  rw [if_neg (by omega), if_neg hp]
  by_cases hw : r.bitOffset + n ≥ 64
  · dsimp only
    rw [if_pos hw, ht.refill_eq (by omega)]
    simp only [Option.bind_eq_bind, Option.some_bind, ht.bufferedValues_eq,
      window_bits_of_ge hbo hn hw, hpos, hmod]
    exact ⟨_, rfl, ht.asRef, ht.totalBytes, by dsimp only; omega, by dsimp only; omega,
      by omega, rfl⟩
  · rw [if_neg hw, ht.bufferedValues_eq, window_bits_of_lt (by omega), hpos, hmod]
    exact ⟨_, rfl, ht.asRef, ht.totalBytes, by dsimp only; omega, by dsimp only; omega,
      by omega, rfl⟩

/-- `get_aligned::<T>(k)` on a tracking reader is the cursor's `get_aligned(k)`. -/
theorem Tracks.getAligned (ht : r.Tracks b p) (k : Nat) :
    ∃ r', r.getAligned k = some ((Cursor.getAligned b p k).1, r') ∧
      r'.Tracks b (Cursor.getAligned b p k).2 := by
  have hq : r.byteOffset + (r.bitOffset + 7) / 8 = (p + 7) / 8 := by rw [← ht.pos]; omega
  have htot := ht.totalBytes
  rw [BitReader.getAligned, Cursor.getAligned, ceil_eight, hq]
  by_cases hk : (p + 7) / 8 + k > b.length
  · rw [if_pos (by omega), if_pos hk]
    exact ⟨r, rfl, ht⟩
  rw [if_neg (by omega), if_neg hk]
  have hlen : (p + 7) / 8 ≤ r.buffer.len := by
    rw [← ByteBufferPtr.length_asRef, ht.asRef]; omega
  obtain ⟨buf, hbuf, hbufa⟩ := r.buffer.startFrom_eq_some hlen
  simp only [Option.bind_eq_bind, hbuf, Option.some_bind, hbufa, ht.asRef,
    readNumBytes_of_le (show k ≤ (b.drop ((p + 7) / 8)).length by simp; omega),
    ht.refill_eq (show (p + 7) / 8 + k ≤ b.length by omega)]
  exact ⟨_, rfl, ht.asRef, ht.totalBytes, by dsimp only; omega, by dsimp only; omega,
    by omega, rfl⟩

end

end BitReader

end ParquetUtil
