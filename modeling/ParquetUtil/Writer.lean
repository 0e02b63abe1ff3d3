/-
  `BitWriter` (`util/bit_util.rs`), call by call.

  The writer packs values into a buffer of `max_bytes` bytes: `put_value` stages
  bits in the 64-bit `buffered_values` and stores the whole word once it fills,
  `flush` stores the pending bytes and aligns to the next byte, and every
  aligned write (`put_aligned`, `skip`, `get_next_byte_ptr`, each group of
  `put_vlq_int`) flushes first.  A call that panics returns `none`.

  A run of calls is `run`, over `Op`; the slice `get_next_byte_ptr` returns is
  written through by the caller before the next call (`Op.getNextBytePtr`).
-/
import ParquetUtil.Memory

namespace ParquetUtil

/-- The fields of `BitWriter`. -/
@[ext] structure BitWriter where
  buffer : List UInt8
  maxBytes : Nat
  bufferedValues : Nat
  byteOffset : Nat
  bitOffset : Nat
  deriving DecidableEq, Repr

/-- `general_err!("Not enough bytes left")`. -/
def notEnoughBytes : String := "Not enough bytes left"

/-! ## The `put_vlq_int` loop test -/

theorem testBit_vlq_mask (i : Nat) :
    ((2 ^ 57 - 1) <<< 7).testBit i = (decide (i ≥ 7) && decide (i - 7 < 57)) := by
  rw [Nat.testBit_shiftLeft, Nat.testBit_two_pow_sub_one]

/-- The test `v & 0xFFFFFFFFFFFFFF80 != 0` of `put_vlq_int` holds iff `v ≥ 128`. -/
theorem vlq_mask_ne_zero (v : BitVec 64) :
    v &&& 0xFFFFFFFFFFFFFF80 ≠ 0 ↔ 128 ≤ v.toNat := by
  have hm : (0xFFFFFFFFFFFFFF80 : BitVec 64).toNat = (2 ^ 57 - 1) <<< 7 := by decide
  have h0 : (0 : BitVec 64).toNat = 0 := rfl
  have hv : v.toNat < 2 ^ 64 := v.isLt
  rw [Ne, BitVec.toNat_eq, BitVec.toNat_and, hm, h0, ← Ne]
  constructor
  · intro h
    by_contra hlt
    have hlt : v.toNat < 2 ^ 7 := by omega
    refine h (Nat.eq_of_testBit_eq fun i => ?_)
    rw [Nat.testBit_and, testBit_vlq_mask, Nat.zero_testBit]
    by_cases hi : 7 ≤ i
    · rw [Nat.testBit_lt_two_pow (lt_of_lt_of_le hlt (Nat.pow_le_pow_right (by omega) hi)),
        Bool.false_and]
    · simp [hi]
  · intro h heq
    have hlt : v.toNat < 2 ^ 7 := Nat.lt_pow_two_of_testBit _ fun i hi => by
      by_cases h64 : i < 64
      · have := congrArg (Nat.testBit · i) heq
        simp only [Nat.testBit_and, testBit_vlq_mask, Nat.zero_testBit] at this
        simpa [hi, show i - 7 < 57 by omega] using this
      · exact Nat.testBit_lt_two_pow (lt_of_lt_of_le hv (Nat.pow_le_pow_right (by omega) (by omega)))
    omega

namespace BitWriter

/-! ## Calls -/

/-- `BitWriter::new(max_bytes)`. -/
def new (maxBytes : Nat) : BitWriter :=
  { buffer := List.replicate maxBytes 0, maxBytes, bufferedValues := 0, byteOffset := 0,
    bitOffset := 0 }

/-- `flush()`: store the `⌈bit_offset / 8⌉` pending bytes of `buffered_values` at
    `byte_offset` and move to the next byte. -/
def flush (w : BitWriter) : Option BitWriter :=
  let numBytes := (ceil w.bitOffset 8).toNat
  if w.byteOffset + numBytes ≤ w.maxBytes then do
    let buffer ← memcpyValue w.bufferedValues numBytes w.buffer w.byteOffset w.buffer.length
    pure { w with buffer, bufferedValues := 0, bitOffset := 0, byteOffset := w.byteOffset + numBytes }
  else none

/-- `consume()`: flush, hand out the bytes written as a fresh `ByteBufferPtr`, and start
    again on a zeroed buffer. -/
def consume (w : BitWriter) : Option (ByteBufferPtr × BitWriter) := do
  let w ← w.flush
  let buffer := w.buffer.take w.byteOffset
  pure (ByteBufferPtr.new buffer,
    { w with buffer := List.replicate w.maxBytes 0, bufferedValues := 0, byteOffset := 0,
             bitOffset := 0 })

/-- `skip(num_bytes)`: flush, then reserve `num_bytes` and return their offset. -/
def skip (w : BitWriter) (numBytes : Nat) : Option (Except String Nat × BitWriter) := do
  let w ← w.flush
  if w.byteOffset < w.maxBytes then
    if w.byteOffset + numBytes > w.maxBytes then pure (.error notEnoughBytes, w)
    else pure (.ok w.byteOffset, { w with byteOffset := w.byteOffset + numBytes })
  else none

/-- `get_next_byte_ptr(num_bytes)`: `skip`, then the slice
    `buffer[offset..offset + num_bytes]`, returned as its `offset`. -/
def getNextBytePtr (w : BitWriter) (numBytes : Nat) : Option (Except String Nat × BitWriter) := do
  let (r, w) ← w.skip numBytes
  match r with
  | .error e => pure (.error e, w)
  | .ok offset => if offset + numBytes ≤ w.buffer.length then pure (.ok offset, w) else none

/-- `bytes_written()`. -/
def bytesWritten (w : BitWriter) : Nat := w.byteOffset + (ceil w.bitOffset 8).toNat

/-- `put_value(v, num_bits)`: stage the `num_bits` bits of `v` above `bit_offset`; when
    the word fills, store its 8 bytes and carry the rest of `v` into a fresh word. -/
def putValue (w : BitWriter) (v numBits : Nat) : Option (Bool × BitWriter) :=
  if numBits ≤ 32 ∧ v >>> numBits = 0 then
    if w.byteOffset * 8 + w.bitOffset + numBits > w.maxBytes * 8 then some (false, w)
    else
      let bufferedValues := w.bufferedValues ||| shl64 v w.bitOffset
      let bitOffset := w.bitOffset + numBits
      if bitOffset ≥ 64 then do
        let buffer ← memcpyValue bufferedValues 8 w.buffer w.byteOffset w.buffer.length
        let bitOffset := bitOffset - 64
        let w := { w with buffer, byteOffset := w.byteOffset + 8, bitOffset,
                          bufferedValues := v >>> (numBits - bitOffset) }
        if w.bitOffset < 64 then pure (true, w) else none
      else
        let w := { w with bufferedValues, bitOffset }
        if w.bitOffset < 64 then some (true, w) else none
  else none

/-- `put_aligned::<T>(val, num_bytes)`: reserve `num_bytes` with `get_next_byte_ptr`
    and copy the `num_bytes` low-order bytes of `val` there. -/
def putAligned (w : BitWriter) (val numBytes : Nat) : Option (Bool × BitWriter) := do
  let (r, w) ← w.getNextBytePtr numBytes
  match r with
  | .error _ => pure (false, w)
  | .ok offset => do
    let buffer ← memcpyValue val numBytes w.buffer offset (offset + numBytes)
    pure (true, { w with buffer })

/-- `put_aligned_offset::<T>(val, num_bytes, offset)`: copy the `num_bytes` low-order
    bytes of `val` to `offset`, leaving the cursor alone. -/
def putAlignedOffset (w : BitWriter) (val numBytes offset : Nat) : Option (Bool × BitWriter) :=
  if numBytes + offset > w.maxBytes then some (false, w)
  else do
    let buffer ← memcpyValue val numBytes w.buffer offset (offset + numBytes)
    pure (true, { w with buffer })

/-- The loop of `put_vlq_int`: one `put_aligned::<u8>` per 7-bit group, bit 7 set on
    every group but the last; the results are and-ed, the loop does not stop early. -/
def putVlqIntLoop (w : BitWriter) (result : Bool) (v : BitVec 64) : Option (Bool × BitWriter) :=
  if v &&& 0xFFFFFFFFFFFFFF80 ≠ 0 then do
    let (r, w) ← w.putAligned (((v &&& 0x7F) ||| 0x80).toNat % 256) 1
    putVlqIntLoop w (result && r) (v >>> 7)
  else do
    let (r, w) ← w.putAligned ((v &&& 0x7F).toNat % 256) 1
    pure (result && r, w)
termination_by v.toNat
decreasing_by
  have := (vlq_mask_ne_zero v).1 ‹_›
  simp only [BitVec.toNat_ushiftRight, Nat.shiftRight_eq_div_pow]
  omega

/-- `put_vlq_int(v)`. -/
def putVlqInt (w : BitWriter) (v : BitVec 64) : Option (Bool × BitWriter) :=
  w.putVlqIntLoop true v

/-- `put_zigzag_vlq_int(v)`: `put_vlq_int(((v << 1) ^ (v >> 63)) as u64)`. -/
def putZigzagVlqInt (w : BitWriter) (v : BitVec 64) : Option (Bool × BitWriter) :=
  let u := (v <<< 1) ^^^ v.sshiftRight 63
  w.putVlqInt u

/-! ## Runs -/

/-- The calls a client makes.  `getNextBytePtr k fill` also stores `fill` through the
    returned slice (a `fill` longer than the slice indexes out of it and panics). -/
inductive Op
  | putValue (v numBits : Nat)
  | putAligned (val numBytes : Nat)
  | putAlignedOffset (val numBytes offset : Nat)
  | skip (numBytes : Nat)
  | getNextBytePtr (numBytes : Nat) (fill : List UInt8)
  | putVlqInt (v : BitVec 64)
  | putZigzagVlqInt (v : BitVec 64)
  | flush
  | consume

/-- What a call returns. -/
inductive Reply
  | bool (b : Bool)
  | offset (r : Except String Nat)
  | bytes (out : ByteBufferPtr)
  | unit

/-- One call. -/
def step (w : BitWriter) : Op → Option (Reply × BitWriter)
  | .putValue v n => (w.putValue v n).map fun (b, w) => (.bool b, w)
  | .putAligned x k => (w.putAligned x k).map fun (b, w) => (.bool b, w)
  | .putAlignedOffset x k o => (w.putAlignedOffset x k o).map fun (b, w) => (.bool b, w)
  | .skip k => (w.skip k).map fun (r, w) => (.offset r, w)
  | .getNextBytePtr k fill => do
    let (r, w) ← w.getNextBytePtr k
    match r with
    | .error e => pure (.offset (.error e), w)
    | .ok o =>
      if fill.length ≤ k then pure (.offset (.ok o), { w with buffer := writeBytes w.buffer o fill })
      else none
  | .putVlqInt v => (w.putVlqInt v).map fun (b, w) => (.bool b, w)
  | .putZigzagVlqInt v => (w.putZigzagVlqInt v).map fun (b, w) => (.bool b, w)
  | .flush => w.flush.map fun w => (.unit, w)
  | .consume => w.consume.map fun (out, w) => (.bytes out, w)

/-- A sequence of calls, with their replies; `none` if one of them panics. -/
def run (w : BitWriter) : List Op → Option (List Reply × BitWriter)
  | [] => some ([], w)
  | op :: ops => do
    let (r, w) ← w.step op
    let (rs, w) ← run w ops
    pure (r :: rs, w)

end BitWriter

end ParquetUtil
