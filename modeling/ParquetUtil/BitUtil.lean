/-
  The free functions of `util/bit_util.rs` that the writer and the reader call:
  `ceil`, `log2`, `trailing_bits`, `memcpy_value` and the `read_num_bytes!` macro, and
  `convert_to_bytes`.  `readNumBytes_convertToBytes`: `read_num_bytes!` reads back the low
  bytes of what `convert_to_bytes` wrote.
  `log2_eq_ceil_log`: on every `u64` `x ≥ 1`, `log2` is the ceiling log `Nat.clog 2 x`;
  `ceil_eq_ceil_div`: `ceil` is the ceiling of the quotient, plus one for a negative value
  that the divisor does not divide.

  `u64` values are natural numbers below `2 ^ 64`; the one operation that can
  lose bits, `<<` on `u64`, is `shl64`.  `usize` arithmetic is unbounded (no
  buffer here comes near `2 ^ 61` bytes).  A panic (a failed `assert!`, a slice
  out of range) is `none`.
-/
import ParquetUtil.Bits

namespace ParquetUtil

/-- `v << n` on `u64`: the bits shifted past bit 63 are lost. -/
def shl64 (v n : Nat) : Nat := (v <<< n) % 2 ^ 64

/-- `ceil(value, divisor)` on `i64`, with Rust's truncating `/` and `%`. -/
def ceil (value divisor : Int) : Int :=
  let result := value.tdiv divisor
  if value.tmod divisor ≠ 0 then result + 1 else result

/-- The loop of `log2`: shift `x` right until it is zero, counting the shifts. -/
def log2Loop (x result : Nat) : Nat :=
  if x > 0 then log2Loop (x >>> 1) (result + 1) else result
termination_by x
decreasing_by simp_wf; rw [Nat.shiftRight_eq_div_pow]; omega

/-- `log2(x)`, documented as `ceil(log2(x))`; `x -= 1` underflows (panics) at `x = 0`. -/
def log2 (x : Nat) : Option Nat :=
  if x = 1 then some 0
  else if x = 0 then none
  else some (log2Loop (x - 1) 0)

/-- `trailing_bits(v, num_bits)`: the `num_bits` least-significant bits of `v`. -/
def trailingBits (v numBits : Nat) : Nat :=
  if numBits = 0 then 0
  else if numBits ≥ 64 then v
  else
    let n := 64 - numBits
    shl64 v n >>> n

/-- `buffer` with the bytes `bs` stored from `offset` on. -/
def writeBytes (buffer : List UInt8) (offset : Nat) (bs : List UInt8) : List UInt8 :=
  buffer.take offset ++ bs ++ buffer.drop (offset + bs.length)

/-- `memcpy_value(&val, num_bytes, &mut buffer[offset..stop])`: slicing panics unless
    `offset ≤ stop ≤ buffer.len()`, the `assert!` unless the slice holds `num_bytes`;
    then the `num_bytes` low-order bytes of `val` are stored at `offset`.  `val` is the
    bit pattern of a value of at least `num_bytes` bytes. -/
def memcpyValue (val numBytes : Nat) (buffer : List UInt8) (offset stop : Nat) :
    Option (List UInt8) :=
  if offset ≤ stop ∧ stop ≤ buffer.length then
    if numBytes ≤ stop - offset then some (writeBytes buffer offset (leBytes val numBytes))
    else none
  else none

/-- `convert_to_bytes(&val, num_bytes)`: `memcpy_value` into `vec![0; num_bytes]`, whose
    bytes are returned. -/
def convertToBytes (val numBytes : Nat) : Option (List UInt8) :=
  let bytes := List.replicate numBytes 0
  memcpyValue val numBytes bytes 0 bytes.length

/-- `read_num_bytes!(ty, size, src)`: asserts `size <= src.len()` and copies the first
    `size` bytes of `src` into a zeroed value, read little-endian. -/
def readNumBytes (size : Nat) (src : List UInt8) : Option Nat :=
  if size ≤ src.length then some (leValue (src.take size)) else none

/-! ## Arithmetic -/

theorem ceil_eight (n : Nat) : (ceil n 8).toNat = (n + 7) / 8 := by
  have hdiv : (n : Int).tdiv 8 = ((n / 8 : Nat) : Int) := by simp [Int.tdiv]
  have hmod : (n : Int).tmod 8 = ((n % 8 : Nat) : Int) := by simp [Int.tmod]
  simp only [ceil, hdiv, hmod]
  split <;> omega

/-- The ceiling of `v / d` from the bounds `z d - d < v ≤ z d`. -/
theorem ceil_div_eq {v d z : Int} (hd : 0 < d) (h₁ : z * d - d < v) (h₂ : v ≤ z * d) :
    ⌈(v : ℚ) / d⌉ = z := by
  have hdq : (0 : ℚ) < d := by exact_mod_cast hd
  rw [Int.ceil_eq_iff, lt_div_iff₀ hdq, div_le_iff₀ hdq, sub_mul, one_mul]
  exact ⟨by exact_mod_cast h₁, by exact_mod_cast h₂⟩

/-- The remainder of the truncating `%` by a positive divisor has the sign of the dividend. -/
theorem tmod_bounds (v : Int) {d : Int} (hd : 0 < d) :
    -d < v.tmod d ∧ v.tmod d < d ∧ (0 ≤ v → 0 ≤ v.tmod d) ∧ (v < 0 → v.tmod d ≤ 0) := by
  have h₁ := Int.tmod_lt_of_pos v hd
  by_cases hv : 0 ≤ v
  · have := Int.tmod_nonneg d hv
    exact ⟨by omega, h₁, fun _ => this, fun h => absurd h (not_lt.2 hv)⟩
  · have hn := Int.tmod_nonneg d (show 0 ≤ -v by omega)
    have hn' := Int.tmod_lt_of_pos (-v) hd
    have he : v.tmod d = -(-v).tmod d := by
      have := Int.tdiv_add_tmod v d
      have := Int.tdiv_add_tmod (-v) d
      rw [Int.neg_tdiv, Int.mul_neg] at this
      omega
    exact ⟨by omega, h₁, fun h => absurd h hv, fun _ => by omega⟩

/-- **`ceil` against the ceiling of the quotient.**  For every value and every positive
    divisor, `ceil(value, divisor)` is `⌈value / divisor⌉` when the value is non-negative or a
    multiple of the divisor, and one more than it otherwise: for a negative value the
    truncating `/` already rounds up, and the `+ 1` for a non-zero `%` rounds up again. -/
theorem ceil_eq_ceil_div {v d : Int} (hd : 0 < d) :
    ceil v d = ⌈(v : ℚ) / d⌉ + if v < 0 ∧ ¬d ∣ v then 1 else 0 := by
  have hvq := Int.tdiv_add_tmod v d
  rw [Int.mul_comm] at hvq
  have hs : (v.tdiv d + 1) * d = v.tdiv d * d + d := by rw [Int.add_mul, Int.one_mul]
  obtain ⟨hlo, hhi, hpos, hneg⟩ := tmod_bounds v hd
  simp only [ceil]
  by_cases hr : v.tmod d = 0
  · rw [if_neg (not_not.2 hr), ceil_div_eq (z := v.tdiv d) hd (by omega) (by omega),
      if_neg (fun h => h.2 (Int.dvd_iff_tmod_eq_zero.2 hr)), Int.add_zero]
  · by_cases hv : v < 0
    · have := hneg hv
      rw [if_pos hr, ceil_div_eq (z := v.tdiv d) hd (by omega) (by omega),
        if_pos ⟨hv, fun h => hr (Int.dvd_iff_tmod_eq_zero.1 h)⟩]
    · have := hpos (by omega)
      rw [if_pos hr, ceil_div_eq (z := v.tdiv d + 1) hd (by omega) (by omega),
        if_neg (fun h => hv h.1), Int.add_zero]

theorem ceil_neg_seven_two :
    (0 : Int) < 2 ∧
      ceil (-7) 2 = ⌈((-7 : Int) : ℚ) / (2 : Int)⌉ + (if (-7 : Int) < 0 ∧ ¬(2 : Int) ∣ -7 then 1 else 0) ∧
      ceil (-7) 2 = -2 :=
  ⟨by decide, ceil_eq_ceil_div (by decide), by decide⟩

theorem shl64_eq {v n : Nat} (h : v * 2 ^ n < 2 ^ 64) : shl64 v n = v * 2 ^ n := by
  rw [shl64, Nat.shiftLeft_eq, Nat.mod_eq_of_lt h]

/-- Staging `v` above `bo` bits: the low `k` bits are those of `bv`, then those of `v`. -/
theorem bitsOf_or_shl64 {bv bo v k : Nat} (hbv : bv < 2 ^ bo) (hk : bo ≤ k) (h64 : k ≤ 64) :
    bitsOf (bv ||| shl64 v bo) k = bitsOf bv bo ++ bitsOf v (k - bo) :=
  bits_ext (by simp; omega) fun i hi => by
    simp only [length_bitsOf] at hi
    simp only [shl64, streamBit_bitsOf, streamBit_append, length_bitsOf, Nat.testBit_or,
      Nat.testBit_mod_two_pow, Nat.testBit_shiftLeft]
    by_cases hib : i < bo
    · simp [hi, hib]
    · have : bv.testBit i = false :=
        Nat.testBit_lt_two_pow (lt_of_lt_of_le hbv (Nat.pow_le_pow_right (by omega) (by omega)))
      simp [hi, hib, this, show i < 64 by omega, show i - bo < k - bo by omega, show bo ≤ i by omega]

theorem trailingBits_eq {v : Nat} (hv : v < 2 ^ 64) (k : Nat) : trailingBits v k = v % 2 ^ k := by
  unfold trailingBits
  split
  · subst_vars; exact (Nat.mod_one v).symm
  split
  · exact (Nat.mod_eq_of_lt (lt_of_lt_of_le hv (Nat.pow_le_pow_right (by omega) ‹_›))).symm
  · have h64 : 2 ^ 64 = 2 ^ k * 2 ^ (64 - k) := by rw [← Nat.pow_add]; congr 1; omega
    simp only [shl64, Nat.shiftLeft_eq, Nat.shiftRight_eq_div_pow, h64, Nat.mul_mod_mul_right]
    exact Nat.mul_div_cancel _ (Nat.two_pow_pos _)

/-! ## `log2` -/

theorem le_log2Loop (x result : Nat) : result ≤ log2Loop x result := by
  induction x, result using log2Loop.induct with
  | case1 x result hx ih => rw [log2Loop, if_pos hx]; omega
  | case2 x result hx => rw [log2Loop, if_neg hx]

/-- The loop counts the bits of `x`: it stops within `n` more shifts exactly when `x < 2 ^ n`. -/
theorem log2Loop_le_iff (x result n : Nat) : log2Loop x result ≤ result + n ↔ x < 2 ^ n := by
  induction x, result using log2Loop.induct generalizing n with
  | case1 x result hx ih =>
    rw [log2Loop, if_pos hx]
    cases n with
    | zero => have := le_log2Loop (x >>> 1) (result + 1); simp only [pow_zero]; omega
    | succ n =>
      rw [show result + (n + 1) = result + 1 + n by omega, ih, Nat.shiftRight_eq_div_pow, pow_one,
        Nat.div_lt_iff_lt_mul (by decide), pow_succ]
  | case2 x result hx => rw [log2Loop, if_neg hx]; have := Nat.two_pow_pos n; omega

/-- **`log2` is the ceiling log.**  On every `u64` `x ≥ 1`, `log2 x` is `Nat.clog 2 x`, the least
`r` with `x ≤ 2 ^ r`; from `x = 2` on it is bracketed by `2 ^ (r - 1) < x ≤ 2 ^ r`, and it is `64`
above `2 ^ 63`. -/
theorem log2_eq_ceil_log {x : Nat} (hx : 1 ≤ x) (h64 : x < 2 ^ 64) :
    log2 x = some (Nat.clog 2 x) ∧ IsLeast {r | x ≤ 2 ^ r} (Nat.clog 2 x) ∧
      (2 ≤ x → 2 ^ (Nat.clog 2 x - 1) < x ∧ x ≤ 2 ^ Nat.clog 2 x) ∧
      (2 ^ 63 < x → Nat.clog 2 x = 64) := by
  have hclog (r : Nat) : x ≤ 2 ^ r ↔ Nat.clog 2 x ≤ r := Nat.le_pow_iff_clog_le (by decide)
  refine ⟨?_, ⟨Nat.le_pow_clog (by decide) x, fun r hr => (hclog r).1 hr⟩,
    fun h2 => ⟨Nat.pow_pred_clog_lt_self (by decide) h2, Nat.le_pow_clog (by decide) x⟩,
    fun h63 => le_antisymm ((hclog 64).1 h64.le) (not_le.1 fun h => by have := (hclog 63).2 h; omega)⟩
  rw [log2]
  split_ifs with h1 h0
  · subst h1; rw [Nat.clog_one_right]
  · omega
  · congr 1
    refine eq_of_forall_ge_iff fun n => ?_
    have key := log2Loop_le_iff (x - 1) 0 n
    rw [Nat.zero_add] at key
    rw [← hclog, key]
    omega

theorem log2_five : 1 ≤ 5 ∧ 5 < 2 ^ 64 ∧ log2 5 = some (Nat.clog 2 5) :=
  ⟨by decide, by decide, (log2_eq_ceil_log (by decide) (by decide)).1⟩

/-! ## Stores -/

section
variable {buffer : List UInt8} {offset : Nat} {bs : List UInt8}

theorem length_writeBytes (h : offset + bs.length ≤ buffer.length) :
    (writeBytes buffer offset bs).length = buffer.length := by
  simp [writeBytes]; omega

/-- A store leaves the bytes below its offset alone. -/
theorem take_writeBytes_of_le {k : Nat} (hk : k ≤ offset) (h : offset ≤ buffer.length) :
    (writeBytes buffer offset bs).take k = buffer.take k := by
  rw [writeBytes, List.append_assoc,
    List.take_append_of_le_length (by rw [List.length_take]; omega), List.take_take, min_eq_left hk]

theorem take_writeBytes {k : Nat} (h : offset ≤ buffer.length) (hk : bs.length = k) :
    (writeBytes buffer offset bs).take (offset + k) = buffer.take offset ++ bs := by
  subst hk
  rw [writeBytes, List.take_append_eq_append_take, List.take_of_length_le (by simp)]
  simp [show offset ⊓ buffer.length = offset by omega]

theorem getElem?_writeBytes (h : offset ≤ buffer.length) (i : Nat) :
    (writeBytes buffer offset bs)[i]? =
      if i < offset then buffer[i]? else if i < offset + bs.length then bs[i - offset]?
      else buffer[i]? := by
  have hl : (buffer.take offset).length = offset := by simp; omega
  simp only [writeBytes, List.append_assoc]
  split
  · rw [List.getElem?_append_left (by omega), List.getElem?_take, if_pos ‹_›]
  · rw [List.getElem?_append_right (by omega), hl]
    split
    · rw [List.getElem?_append_left (show i - offset < bs.length by omega)]
    · rw [List.getElem?_append_right (show bs.length ≤ i - offset by omega), List.getElem?_drop]
      congr 1; omega

theorem memcpyValue_of_le {val numBytes stop : Nat} (h₁ : offset + numBytes ≤ stop)
    (h₂ : stop ≤ buffer.length) :
    memcpyValue val numBytes buffer offset stop =
      some (writeBytes buffer offset (leBytes val numBytes)) := by
  rw [memcpyValue, if_pos ⟨by omega, h₂⟩, if_pos (by omega)]

/-- Stores at disjoint places commute. -/
theorem writeBytes_comm {o : Nat} {cs : List UInt8} (hle : offset + bs.length ≤ o)
    (h : o + cs.length ≤ buffer.length) :
    writeBytes (writeBytes buffer offset bs) o cs = writeBytes (writeBytes buffer o cs) offset bs := by
  apply List.ext_getElem?
  intro i
  rw [getElem?_writeBytes (by rw [length_writeBytes (by omega)]; omega),
    getElem?_writeBytes (by omega), getElem?_writeBytes (by rw [length_writeBytes h]; omega),
    getElem?_writeBytes (by omega)]
  by_cases h₁ : i < offset
  · simp only [h₁, if_true, show i < o by omega]
  by_cases h₂ : i < offset + bs.length
  · simp only [h₁, h₂, if_true, if_false, show i < o by omega]
  by_cases h₃ : i < o
  · simp only [h₁, h₂, h₃, if_true, if_false]
  · simp only [h₁, h₂, h₃, if_false]

/-- A store right after another extends it. -/
theorem writeBytes_writeBytes {cs : List UInt8} (h : offset ≤ buffer.length) :
    writeBytes (writeBytes buffer offset bs) (offset + bs.length) cs =
      writeBytes buffer offset (bs ++ cs) := by
  apply List.ext_getElem?
  intro i
  rw [getElem?_writeBytes (by
      simp only [writeBytes, List.length_append, List.length_take, List.length_drop]; omega),
    getElem?_writeBytes h, getElem?_writeBytes h, List.length_append]
  by_cases h₁ : i < offset
  · simp only [h₁, if_true, show i < offset + bs.length by omega]
  by_cases h₂ : i < offset + bs.length
  · simp only [h₁, h₂, if_true, if_false, show i < offset + (bs.length + cs.length) by omega,
      List.getElem?_append_left (show i - offset < bs.length by omega)]
  by_cases h₃ : i < offset + bs.length + cs.length
  · simp only [h₁, h₂, h₃, if_true, if_false, show i < offset + (bs.length + cs.length) by omega,
      List.getElem?_append_right (show bs.length ≤ i - offset by omega),
      show i - offset - bs.length = i - (offset + bs.length) by omega]
  · simp only [h₁, h₂, h₃, if_false, show ¬i < offset + (bs.length + cs.length) by omega]

/-- A store below `k` is kept by cutting at `k`. -/
theorem take_writeBytes_of_add_le {k : Nat} (h₁ : offset + bs.length ≤ k) (h₂ : k ≤ buffer.length) :
    (writeBytes buffer offset bs).take k = writeBytes (buffer.take k) offset bs := by
  apply List.ext_getElem?
  intro i
  rw [List.getElem?_take, getElem?_writeBytes (by omega),
    getElem?_writeBytes (by rw [List.length_take]; omega), List.getElem?_take]
  split_ifs <;> first | rfl | omega

theorem writeBytes_nil : writeBytes buffer offset [] = buffer := by
  simp [writeBytes]

end

/-! ## `convert_to_bytes` -/

theorem take_leBytes (x : Nat) {k n : Nat} (h : k ≤ n) : (leBytes x n).take k = leBytes x k := by
  induction n generalizing x k with
  | zero => rw [Nat.le_zero.1 h]; rfl
  | succ n ih =>
    cases k with
    | zero => rfl
    | succ k => rw [leBytes, leBytes, List.take_succ_cons, ih _ (by omega)]

theorem convertToBytes_eq (val numBytes : Nat) :
    convertToBytes val numBytes = some (leBytes val numBytes) := by
  rw [convertToBytes, memcpyValue_of_le (by simp) le_rfl]
  simp [writeBytes]

end ParquetUtil
