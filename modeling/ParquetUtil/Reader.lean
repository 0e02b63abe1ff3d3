/-
  `BitReader` (`util/bit_util.rs`), call by call.

  The reader reads a `ByteBufferPtr` through a 64-bit window: `buffered_values` holds the
  (up to) eight bytes from `byte_offset`, and `bit_offset` is the next bit in it.
  `get_value` takes `num_bits` bits from the window and refills it when it runs past bit
  63; `get_aligned` moves to the next byte, reads `num_bytes` bytes and refills the window
  there; `get_vlq_int` reads aligned bytes until one has bit 7 clear, at most
  `MAX_VLQ_BYTE_LEN` of them.  A call that panics (a failed `read_num_bytes!`, a slice
  past the end, a `usize` underflow) returns `none`.

  `size` is `size_of::<T>()` of the type read into, at most 8; the value `get_value`
  returns is the low `8 * size` bits of the `u64` it assembles (`transmute_copy`).
-/
import ParquetUtil.Writer

namespace ParquetUtil

/-- The fields of `BitReader`. -/
structure BitReader where
  buffer : ByteBufferPtr
  bufferedValues : Nat
  byteOffset : Nat
  bitOffset : Nat
  totalBytes : Nat
  deriving DecidableEq

/-- `MAX_VLQ_BYTE_LEN`. -/
def maxVlqByteLen : Nat := 5

/-- `general_err!("Num of bytes exceed MAX_VLQ_BYTE_LEN ({})", MAX_VLQ_BYTE_LEN)`. -/
def vlqTooLong : String := s!"Num of bytes exceed MAX_VLQ_BYTE_LEN ({maxVlqByteLen})"

namespace BitReader

/-- `BitReader::new(buffer)`. -/
def new (buffer : ByteBufferPtr) : Option BitReader := do
  let totalBytes := buffer.len
  let numBytes := min 8 totalBytes
  let bufferedValues ← readNumBytes numBytes buffer.asRef
  pure { buffer, bufferedValues, byteOffset := 0, bitOffset := 0, totalBytes }

/-- `reset(buffer)`: every field set again, as `new` sets it. -/
def reset (_r : BitReader) (buffer : ByteBufferPtr) : Option BitReader := do
  let totalBytes := buffer.len
  let numBytes := min 8 totalBytes
  let bufferedValues ← readNumBytes numBytes buffer.asRef
  pure { buffer, bufferedValues, byteOffset := 0, bitOffset := 0, totalBytes }

/-- `get_byte_offset()`. -/
def getByteOffset (r : BitReader) : Nat := r.byteOffset + r.bitOffset / 8 + 1

/-- The window refill of `get_value` and `get_aligned`: `min(total_bytes - byte_offset, 8)`
    bytes from `byte_offset`, read into a `u64`. -/
def refill (r : BitReader) (byteOffset : Nat) : Option Nat :=
  if byteOffset ≤ r.totalBytes then do
    let buf ← r.buffer.startFrom byteOffset
    readNumBytes (min (r.totalBytes - byteOffset) 8) buf.asRef
  else none

/-- `get_value::<T>(num_bits)` for `T` of `size` bytes. -/
def getValue (r : BitReader) (size numBits : Nat) : Option (Except String Nat × BitReader) :=
  if numBits ≤ 32 ∧ numBits ≤ size * 8 then
    if r.byteOffset * 8 + r.bitOffset + numBits > r.totalBytes * 8 then
      some (.error notEnoughBytes, r)
    else
      let v := trailingBits r.bufferedValues (r.bitOffset + numBits) >>> r.bitOffset
      let bitOffset := r.bitOffset + numBits
      if bitOffset ≥ 64 then do
        let byteOffset := r.byteOffset + 8
        let bitOffset := bitOffset - 64
        let bufferedValues ← r.refill byteOffset
        let v := v ||| shl64 (trailingBits bufferedValues bitOffset) (numBits - bitOffset)
        pure (.ok (v % 2 ^ (8 * size)), { r with bufferedValues, byteOffset, bitOffset })
      else some (.ok (v % 2 ^ (8 * size)), { r with bitOffset })
  else none

/-- `get_aligned::<T>(num_bytes)`: move to the next byte, read `num_bytes` bytes
    little-endian (`num_bytes ≤ size_of::<T>()`), and refill the window after them. -/
def getAligned (r : BitReader) (numBytes : Nat) : Option (Except String Nat × BitReader) :=
  let bytesRead := (ceil r.bitOffset 8).toNat
  if r.byteOffset + bytesRead + numBytes > r.totalBytes then some (.error notEnoughBytes, r)
  else do
    let byteOffset := r.byteOffset + bytesRead
    let buf ← r.buffer.startFrom byteOffset
    let v ← readNumBytes numBytes buf.asRef
    let byteOffset := byteOffset + numBytes
    let bufferedValues ← r.refill byteOffset
    pure (.ok v, { r with byteOffset, bitOffset := 0, bufferedValues })

/-- The loop of `get_vlq_int`: one `get_aligned::<u8>(1)` per group, its seven low bits
    or-ed in at `shift`; it stops at a byte with bit 7 clear, past `MAX_VLQ_BYTE_LEN`
    groups, or when no byte is left. -/
def getVlqIntLoop (r : BitReader) (shift : Nat) (v : BitVec 64) :
    Option (Except String (BitVec 64) × BitReader) := do
  let (res, r) ← r.getAligned 1
  match res with
  | .error _ => pure (.error notEnoughBytes, r)
  | .ok byte =>
    let v := v ||| BitVec.ofNat 64 (byte % 256 &&& 0x7F) <<< shift
    let shift := shift + 7
    if shift > maxVlqByteLen * 7 then pure (.error vlqTooLong, r)
    else if byte % 256 &&& 0x80 = 0 then pure (.ok v, r)
    else getVlqIntLoop r shift v
termination_by maxVlqByteLen * 7 + 1 - shift

/-- `get_vlq_int()`. -/
def getVlqInt (r : BitReader) : Option (Except String (BitVec 64) × BitReader) :=
  r.getVlqIntLoop 0 0

/-- `get_zigzag_vlq_int()`: `get_vlq_int()`, then `((u >> 1) as i64) ^ -((u & 1) as i64)`. -/
def getZigzagVlqInt (r : BitReader) : Option (Except String (BitVec 64) × BitReader) :=
  r.getVlqInt.map fun (res, r) => (res.map fun (u : BitVec 64) => (u >>> 1) ^^^ -(u &&& 1), r)

/-! ## Runs -/

/-- The reads a client makes: `get_value::<T>(num_bits)` with `size = size_of::<T>()`,
    `get_aligned::<T>(num_bytes)` (`num_bytes ≤ size_of::<T>()`), `get_vlq_int()` and
    `get_zigzag_vlq_int()`. -/
inductive Read
  | getValue (size numBits : Nat)
  | getAligned (numBytes : Nat)
  | getVlqInt
  | getZigzagVlqInt
  deriving DecidableEq, Repr

/-- One read; a value is reported as the bit pattern of the integer returned. -/
def read (r : BitReader) : Read → Option (Except String Nat × BitReader)
  | .getValue size n => r.getValue size n
  | .getAligned k => r.getAligned k
  | .getVlqInt => r.getVlqInt.map fun (res, r) => (res.map BitVec.toNat, r)
  | .getZigzagVlqInt => r.getZigzagVlqInt.map fun (res, r) => (res.map BitVec.toNat, r)

/-- A sequence of reads, `none` at the first that panics. -/
def readAll (r : BitReader) : List Read → Option (List (Except String Nat) × BitReader)
  | [] => some ([], r)
  | c :: cs => do
    let (x, r) ← r.read c
    let (xs, r) ← r.readAll cs
    pure (x :: xs, r)

end BitReader

end ParquetUtil
