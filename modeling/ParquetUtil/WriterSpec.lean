/-
  What each `BitWriter` call does on a reachable writer.

  `Inv` is the invariant of every writer reachable from `BitWriter::new(m)`, and
  `bits` the stream a writer holds: the bits of the bytes below `byte_offset`, then
  the `bit_offset` staged bits.  The effect of a call that does not panic is one of
  `flushed` (what `flush()` leaves), `reserved` (a successful `skip`),
  `alignedWrite` (flush, then store bytes at the next byte) and `putBits` (a
  successful `put_value`).  For each call one lemma gives its result on a writer
  satisfying `Inv` (`flush_eq`, `putValue_eq`, `skip_eq`, `putAligned_eq`,
  `putVlqIntLoop_eq`, `consume_eq`), and `step_inv` carries `Inv` along.
-/
import ParquetUtil.Writer

namespace ParquetUtil
namespace BitWriter

/-- The invariant of every writer reachable from `BitWriter::new(m)`. -/
structure Inv (w : BitWriter) : Prop where
  length_buffer : w.buffer.length = w.maxBytes
  bitOffset_lt : w.bitOffset < 64
  fits : 8 * w.byteOffset + w.bitOffset ≤ 8 * w.maxBytes
  bufferedValues_lt : w.bufferedValues < 2 ^ w.bitOffset

/-- The stream a writer holds. -/
def bits (w : BitWriter) : List Bool :=
  bytesBits (w.buffer.take w.byteOffset) ++ bitsOf w.bufferedValues w.bitOffset

/-- The state `flush()` leaves. -/
def flushed (w : BitWriter) : BitWriter :=
  { w with buffer := writeBytes w.buffer w.byteOffset
             (leBytes w.bufferedValues ((w.bitOffset + 7) / 8)),
           bufferedValues := 0, bitOffset := 0,
           byteOffset := w.byteOffset + (w.bitOffset + 7) / 8 }

/-- The state a successful `skip(k)` leaves. -/
def reserved (w : BitWriter) (k : Nat) : BitWriter :=
  { w.flushed with byteOffset := w.flushed.byteOffset + k }

/-- The state an aligned write of `bs` leaves: flush, then store `bs` at the next byte. -/
def alignedWrite (w : BitWriter) (bs : List UInt8) : BitWriter :=
  { w.reserved bs.length with buffer := writeBytes w.flushed.buffer w.flushed.byteOffset bs }

/-- The state a successful `put_value(v, n)` leaves. -/
def putBits (w : BitWriter) (v n : Nat) : BitWriter :=
  let bufferedValues := w.bufferedValues ||| shl64 v w.bitOffset
  if w.bitOffset + n ≥ 64 then
    { w with buffer := writeBytes w.buffer w.byteOffset (leBytes bufferedValues 8),
             byteOffset := w.byteOffset + 8, bitOffset := w.bitOffset + n - 64,
             bufferedValues := v >>> (n - (w.bitOffset + n - 64)) }
  else { w with bufferedValues, bitOffset := w.bitOffset + n }

/-- `w'` keeps what `w` committed: the same capacity, the cursor only moved forward, and
    the bytes below `w`'s cursor untouched. -/
structure Keeps (w w' : BitWriter) : Prop where
  maxBytes_eq : w'.maxBytes = w.maxBytes
  byteOffset_le : w.byteOffset ≤ w'.byteOffset
  take_buffer : w'.buffer.take w.byteOffset = w.buffer.take w.byteOffset

theorem Keeps.refl (w : BitWriter) : Keeps w w := ⟨rfl, le_rfl, rfl⟩

theorem Keeps.trans {w₁ w₂ w₃ : BitWriter} (h₁ : Keeps w₁ w₂) (h₂ : Keeps w₂ w₃) : Keeps w₁ w₃ :=
  ⟨h₂.1.trans h₁.1, h₁.2.trans h₂.2, by
    have := congrArg (List.take w₁.byteOffset) h₂.take_buffer
    rwa [List.take_take, List.take_take, min_eq_left h₁.byteOffset_le, h₁.take_buffer] at this⟩

theorem inv_new (m : Nat) : (new m).Inv := ⟨by simp [new], by simp [new], by simp [new], by simp [new]⟩

@[simp] theorem bytesWritten_eq (w : BitWriter) :
    w.bytesWritten = w.byteOffset + (w.bitOffset + 7) / 8 := by
  rw [bytesWritten, ceil_eight]

section
variable {w : BitWriter}

theorem Inv.byteOffset_le (h : w.Inv) : w.byteOffset ≤ w.buffer.length := by
  have := h.fits; have := h.length_buffer; omega

theorem Inv.bytesWritten_le (h : w.Inv) : w.bytesWritten ≤ w.maxBytes := by
  have := h.fits; have := h.bitOffset_lt; simp; omega

theorem Inv.length_bits (h : w.Inv) : w.bits.length = 8 * w.byteOffset + w.bitOffset := by
  have := h.byteOffset_le; simp [bits]; omega

/-! ## `flush` -/

@[simp] theorem flushed_maxBytes : w.flushed.maxBytes = w.maxBytes := rfl

@[simp] theorem flushed_bitOffset : w.flushed.bitOffset = 0 := rfl

@[simp] theorem flushed_bufferedValues : w.flushed.bufferedValues = 0 := rfl

@[simp] theorem flushed_byteOffset :
    w.flushed.byteOffset = w.byteOffset + (w.bitOffset + 7) / 8 := rfl

theorem flush_eq (h : w.Inv) : w.flush = some w.flushed := by
  have := h.fits; have := h.length_buffer
  simp only [flush, ceil_eight]
  rw [if_pos (by omega), memcpyValue_of_le (by omega) le_rfl]
  rfl

theorem Inv.flushed (h : w.Inv) : w.flushed.Inv where
  length_buffer := by
    have := h.fits; have := h.length_buffer
    rw [BitWriter.flushed, length_writeBytes (by simp; omega)]; exact h.length_buffer
  bitOffset_lt := by simp
  fits := by have := h.bytesWritten_le; simp at this ⊢; omega
  bufferedValues_lt := by simp

theorem bits_flushed (h : w.Inv) : w.flushed.bits = pad w.bits := by
  have hbv := h.bufferedValues_lt
  have hlen := h.length_bits
  simp only [bits] at hlen ⊢
  simp only [BitWriter.flushed, bitsOf, List.append_nil]
  rw [take_writeBytes h.byteOffset_le (length_leBytes _ _), bytesBits_append, bytesBits_leBytes,
    show 8 * ((w.bitOffset + 7) / 8) = w.bitOffset + (8 * ((w.bitOffset + 7) / 8) - w.bitOffset)
      by omega, bitsOf_of_lt _ hbv, pad, hlen, List.append_assoc]
  congr 3
  omega

theorem keeps_flushed (h : w.Inv) : Keeps w w.flushed :=
  ⟨rfl, by simp, take_writeBytes_of_le le_rfl h.byteOffset_le⟩

theorem flushed_of_aligned (h₀ : w.bitOffset = 0) (hv : w.bufferedValues = 0) : w.flushed = w := by
  ext <;> simp [BitWriter.flushed, h₀, hv, leBytes, writeBytes_nil]

theorem take_flushed (h : w.Inv) :
    w.flushed.buffer.take w.flushed.byteOffset = bitsToBytes w.bits := by
  have hb : bytesBits (w.flushed.buffer.take w.flushed.byteOffset) = pad w.bits := by
    rw [← bits_flushed h, bits]; simp [bitsOf]
  rw [← bitsToBytes_pad, ← hb, bitsToBytes_bytesBits]

/-! ## Aligned writes -/

@[simp] theorem reserved_maxBytes (k : Nat) : (w.reserved k).maxBytes = w.maxBytes := rfl

@[simp] theorem reserved_bitOffset (k : Nat) : (w.reserved k).bitOffset = 0 := rfl

@[simp] theorem reserved_bufferedValues (k : Nat) : (w.reserved k).bufferedValues = 0 := rfl

@[simp] theorem reserved_buffer (k : Nat) : (w.reserved k).buffer = w.flushed.buffer := rfl

@[simp] theorem reserved_byteOffset (k : Nat) :
    (w.reserved k).byteOffset = w.byteOffset + (w.bitOffset + 7) / 8 + k := rfl

@[simp] theorem alignedWrite_maxBytes (bs : List UInt8) :
    (w.alignedWrite bs).maxBytes = w.maxBytes := rfl

@[simp] theorem alignedWrite_bitOffset (bs : List UInt8) : (w.alignedWrite bs).bitOffset = 0 := rfl

@[simp] theorem alignedWrite_bufferedValues (bs : List UInt8) :
    (w.alignedWrite bs).bufferedValues = 0 := rfl

@[simp] theorem alignedWrite_buffer (bs : List UInt8) :
    (w.alignedWrite bs).buffer = writeBytes w.flushed.buffer (w.byteOffset + (w.bitOffset + 7) / 8) bs :=
  rfl

@[simp] theorem alignedWrite_byteOffset (bs : List UInt8) :
    (w.alignedWrite bs).byteOffset = w.byteOffset + (w.bitOffset + 7) / 8 + bs.length := rfl

theorem Inv.reserved (h : w.Inv) {k : Nat} (hk : w.bytesWritten + k ≤ w.maxBytes) :
    (w.reserved k).Inv :=
  have hf := h.flushed
  ⟨hf.1, hf.2, by simp at hk ⊢; omega, hf.4⟩

theorem Inv.alignedWrite (h : w.Inv) {bs : List UInt8} (hk : w.bytesWritten + bs.length ≤ w.maxBytes) :
    (w.alignedWrite bs).Inv := by
  have hf := h.flushed
  refine ⟨?_, hf.2, by simp at hk ⊢; omega, hf.4⟩
  rw [alignedWrite_buffer, length_writeBytes (by rw [hf.1]; simpa using hk)]; exact hf.1

theorem bits_alignedWrite (h : w.Inv) (bs : List UInt8) :
    (w.alignedWrite bs).bits = pad w.bits ++ bytesBits bs := by
  have hle : w.byteOffset + (w.bitOffset + 7) / 8 ≤ w.flushed.buffer.length := h.flushed.byteOffset_le
  rw [← bits_flushed h]
  simp only [bits, alignedWrite_buffer, alignedWrite_byteOffset, take_writeBytes hle rfl]
  simp [bitsOf]

theorem keeps_reserved (h : w.Inv) (k : Nat) : Keeps w (w.reserved k) :=
  (keeps_flushed h).trans ⟨rfl, by simp, rfl⟩

theorem keeps_alignedWrite (h : w.Inv) (bs : List UInt8) : Keeps w (w.alignedWrite bs) :=
  (keeps_flushed h).trans ⟨rfl, by simp, take_writeBytes_of_le le_rfl h.flushed.byteOffset_le⟩

theorem alignedWrite_append (h : w.Inv) (bs cs : List UInt8) :
    (w.alignedWrite bs).alignedWrite cs = w.alignedWrite (bs ++ cs) := by
  have ha : (w.alignedWrite bs).flushed = w.alignedWrite bs := flushed_of_aligned (by simp) (by simp)
  have hle : w.byteOffset + (w.bitOffset + 7) / 8 ≤ w.flushed.buffer.length := h.flushed.byteOffset_le
  ext
  · simp only [alignedWrite_buffer, ha, alignedWrite_bitOffset, alignedWrite_byteOffset, Nat.zero_add,
      Nat.reduceDiv, Nat.add_zero, writeBytes_writeBytes hle]
  all_goals simp [Nat.add_assoc]

/-! ## `put_value` -/

theorem Inv.putBits (h : w.Inv) {v n : Nat} (hv : v < 2 ^ n) (hn : n ≤ 32)
    (hfit : 8 * w.byteOffset + w.bitOffset + n ≤ 8 * w.maxBytes) : (w.putBits v n).Inv := by
  have := h.bitOffset_lt; have := h.length_buffer
  by_cases hc : w.bitOffset + n ≥ 64
  · simp only [BitWriter.putBits, if_pos hc]
    refine ⟨?_, by dsimp only; omega, by dsimp only; omega, ?_⟩ <;> dsimp only
    · rw [length_writeBytes (by simp; omega)]; exact h.length_buffer
    · rw [Nat.shiftRight_eq_div_pow, Nat.div_lt_iff_lt_mul (Nat.two_pow_pos _), ← Nat.pow_add]
      exact lt_of_lt_of_le hv (Nat.pow_le_pow_right (by omega) (by omega))
  · simp only [BitWriter.putBits, if_neg hc]
    have hlt : v * 2 ^ w.bitOffset < 2 ^ (w.bitOffset + n) := by
      rw [Nat.add_comm, Nat.pow_add]; exact Nat.mul_lt_mul_of_pos_right hv (Nat.two_pow_pos _)
    refine ⟨h.length_buffer, by dsimp only; omega, by dsimp only; omega, ?_⟩
    dsimp only
    rw [shl64_eq (lt_of_lt_of_le hlt (Nat.pow_le_pow_right (by omega) (by omega)))]
    exact Nat.or_lt_two_pow
      (lt_of_lt_of_le h.bufferedValues_lt (Nat.pow_le_pow_right (by omega) (by omega))) hlt

theorem bits_putBits (h : w.Inv) {v n : Nat} (hn : n ≤ 32) :
    (w.putBits v n).bits = w.bits ++ bitsOf v n := by
  have := h.bitOffset_lt
  have hbv := h.bufferedValues_lt
  by_cases hc : w.bitOffset + n ≥ 64
  · have hsplit : bitsOf v n = bitsOf v (8 * 8 - w.bitOffset) ++
        bitsOf (v >>> (n - (w.bitOffset + n - 64))) (w.bitOffset + n - 64) := by
      rw [show n - (w.bitOffset + n - 64) = 8 * 8 - w.bitOffset by omega, ← bitsOf_add]
      congr 1; omega
    simp only [BitWriter.putBits, if_pos hc, bits]
    rw [take_writeBytes h.byteOffset_le (length_leBytes _ _), bytesBits_append, bytesBits_leBytes,
      bitsOf_or_shl64 hbv (by omega) (by omega), hsplit]
    simp only [List.append_assoc]
  · simp only [BitWriter.putBits, if_neg hc, bits]
    rw [bitsOf_or_shl64 hbv (by omega) (by omega), Nat.add_sub_cancel_left, List.append_assoc]

theorem keeps_putBits (h : w.Inv) (v n : Nat) : Keeps w (w.putBits v n) := by
  by_cases hc : w.bitOffset + n ≥ 64
  · simp only [BitWriter.putBits, if_pos hc]
    exact ⟨rfl, by simp, take_writeBytes_of_le le_rfl h.byteOffset_le⟩
  · simp only [BitWriter.putBits, if_neg hc]
    exact ⟨rfl, le_rfl, rfl⟩


/-! ## The calls on a reachable writer -/

theorem putValue_eq (h : w.Inv) (v n : Nat) :
    w.putValue v n = if n ≤ 32 ∧ v < 2 ^ n then
      some (if w.byteOffset * 8 + w.bitOffset + n > w.maxBytes * 8 then (false, w)
        else (true, w.putBits v n))
    else none := by
  have := h.bitOffset_lt; have := h.length_buffer
  have hshift : v >>> n = 0 ↔ v < 2 ^ n := by
    rw [Nat.shiftRight_eq_div_pow, Nat.div_eq_zero_iff (Nat.two_pow_pos _)]
  simp only [putValue, hshift]
  by_cases hpre : n ≤ 32 ∧ v < 2 ^ n
  · rw [if_pos hpre, if_pos hpre]
    by_cases hfit : w.byteOffset * 8 + w.bitOffset + n > w.maxBytes * 8
    · rw [if_pos hfit, if_pos hfit]
    rw [if_neg hfit, if_neg hfit]
    by_cases hc : w.bitOffset + n ≥ 64
    · simp only [BitWriter.putBits, if_pos hc, Option.bind_eq_bind, Option.some_bind,
        memcpyValue_of_le (show w.byteOffset + 8 ≤ w.buffer.length by omega) le_rfl,
        if_pos (show w.bitOffset + n - 64 < 64 by omega)]
      rfl
    · simp only [BitWriter.putBits, if_neg hc, if_pos (show w.bitOffset + n < 64 by omega)]
  · rw [if_neg hpre, if_neg hpre]

theorem skip_eq (h : w.Inv) (k : Nat) :
    w.skip k = if w.bytesWritten < w.maxBytes then
      some (if w.bytesWritten + k > w.maxBytes then (.error notEnoughBytes, w.flushed)
        else (.ok w.bytesWritten, w.reserved k))
    else none := by
  simp only [skip, flush_eq h, Option.bind_eq_bind, Option.some_bind, flushed_byteOffset,
    flushed_maxBytes, bytesWritten_eq]
  split_ifs <;> rfl

theorem getNextBytePtr_eq (h : w.Inv) (k : Nat) : w.getNextBytePtr k = w.skip k := by
  have := h.flushed.length_buffer
  rw [getNextBytePtr, skip_eq h]
  split_ifs with h₁ h₂
  · rfl
  · simp only [Option.bind_eq_bind, Option.some_bind, reserved_buffer]
    rw [if_pos (by simp at h₂ this ⊢; omega)]
    rfl
  · rfl

theorem putAligned_eq (h : w.Inv) (x k : Nat) :
    w.putAligned x k = if w.bytesWritten < w.maxBytes then
      some (if w.bytesWritten + k > w.maxBytes then (false, w.flushed)
        else (true, w.alignedWrite (leBytes x k)))
    else none := by
  have := h.flushed.length_buffer
  rw [putAligned, getNextBytePtr_eq h, skip_eq h]
  split_ifs with h₁ h₂
  · rfl
  · simp only [Option.bind_eq_bind, Option.some_bind, reserved_buffer]
    rw [memcpyValue_of_le le_rfl (by simp at h₂ this ⊢; omega)]
    simp only [Option.some_bind, bytesWritten_eq]
    congr 2
    ext <;> simp
  · rfl

theorem putAlignedOffset_eq (h : w.Inv) (x k o : Nat) :
    w.putAlignedOffset x k o = some (if k + o > w.maxBytes then (false, w)
      else (true, { w with buffer := writeBytes w.buffer o (leBytes x k) })) := by
  have := h.length_buffer
  rw [putAlignedOffset]
  split_ifs with hk
  · rfl
  · rw [memcpyValue_of_le le_rfl (by omega)]; rfl

theorem consume_eq (h : w.Inv) :
    w.consume = some (ByteBufferPtr.new (bitsToBytes w.bits), new w.maxBytes) := by
  simp only [consume, flush_eq h, Option.bind_eq_bind, Option.some_bind, take_flushed h]
  rfl


/-! ## `put_vlq_int` -/

theorem toNat_and_0x7F (v : BitVec 64) : (v &&& 0x7F).toNat = v.toNat % 128 := by
  rw [BitVec.toNat_and, show (0x7F : BitVec 64).toNat = 2 ^ 7 - 1 from rfl,
    Nat.and_pow_two_sub_one_eq_mod]

/-- The byte of a group with its continuation bit. -/
theorem toNat_vlq_group (v : BitVec 64) :
    ((v &&& 0x7F) ||| 0x80).toNat % 256 = v.toNat % 128 + 128 := by
  rw [← BitVec.add_eq_or_of_and_eq_zero _ _ (by
    rw [BitVec.and_assoc, show (0x7F &&& 0x80 : BitVec 64) = 0#64 by decide, BitVec.and_zero]),
    BitVec.toNat_add, toNat_and_0x7F]
  simp
  omega

/-- The loop stores the VLQ bytes of `v` as one aligned write, or panics on the first
    group that finds no room. -/
theorem putVlqIntLoop_eq (h : w.Inv) (r : Bool) (v : BitVec 64) :
    w.putVlqIntLoop r v = if w.bytesWritten + (vlqBytes v.toNat).length ≤ w.maxBytes then
      some (r, w.alignedWrite (vlqBytes v.toNat)) else none := by
  induction w, r, v using putVlqIntLoop.induct with
  | case1 w r v hv ih =>
    have hge := (vlq_mask_ne_zero v).1 hv
    rw [putVlqIntLoop, if_pos hv, putAligned_eq h, vlqBytes, if_neg (show ¬v.toNat < 128 by omega)]
    by_cases hb : w.bytesWritten < w.maxBytes
    · have h₁ : (w.alignedWrite (leBytes (((v &&& 0x7F) ||| 0x80).toNat % 256) 1)).Inv :=
        h.alignedWrite (by simp at hb ⊢; omega)
      rw [if_pos hb, if_neg (by omega)]
      simp only [Option.bind_eq_bind, Option.some_bind]
      rw [ih true _ h₁, alignedWrite_append h, toNat_vlq_group, BitVec.toNat_ushiftRight,
        Nat.shiftRight_eq_div_pow]
      simp only [bytesWritten_eq, alignedWrite_byteOffset, alignedWrite_bitOffset, alignedWrite_maxBytes,
        Bool.and_true, length_leBytes, List.length_cons, Nat.reducePow]
      split_ifs <;> first | omega | rfl
    · rw [if_neg hb, if_neg (by simp at hb ⊢; omega)]
      rfl
  | case2 w r v hv =>
    have hlt : v.toNat < 128 := Nat.lt_of_not_le fun hc => hv ((vlq_mask_ne_zero v).2 hc)
    rw [putVlqIntLoop, if_neg hv, putAligned_eq h, vlqBytes, if_pos hlt, toNat_and_0x7F,
      Nat.mod_eq_of_lt hlt, Nat.mod_eq_of_lt (by omega : v.toNat < 256)]
    by_cases hb : w.bytesWritten < w.maxBytes
    · rw [if_pos hb, if_neg (by omega), if_pos (by simp at hb ⊢; omega)]
      simp only [Option.bind_eq_bind, Option.some_bind, Bool.and_true]
      rfl
    · rw [if_neg hb, if_neg (by simp at hb ⊢; omega)]
      rfl

end

end BitWriter
end ParquetUtil
