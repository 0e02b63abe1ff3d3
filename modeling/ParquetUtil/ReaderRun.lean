/-
  Runs of `BitReader` reads against the plain cursor.

  `Cursor.read` and `Cursor.readAll` read the bytes `b` from bit `p` as a plain cursor does;
  `Tracks.readAll` shows that a tracking reader returns exactly what the cursor returns, read
  after read, and keeps tracking it.

  * `reader_refines_cursor`: `BitReader::new(b)` (and `reset(b)`) tracks `b` at bit 0, so
    every run of reads on it is the cursor's run from 0, with no panic;
  * `Reachable.tracks`: every reader reachable from `BitReader::new(b)` tracks `b`;
  * `failed_read_position`: where a failed read leaves the reader; `failed_vlq_read_moves`:
    unlike `get_value` and `get_aligned`, a `get_vlq_int` that fails for lack of bytes has
    moved the reader past the bytes it read.
-/
import ParquetUtil.Vlq

namespace ParquetUtil

open BitReader (Read)

/-- The reads within their asserted preconditions: `num_bits ≤ 32` and
    `num_bits ≤ 8 · size_of::<T>()` for `get_value`. -/
def BitReader.Read.valid : Read → Bool
  | .getValue size n => n ≤ 32 && n ≤ size * 8
  | _ => true

/-- The VLQ reads. -/
def BitReader.Read.isVlq : Read → Bool
  | .getVlqInt | .getZigzagVlqInt => true
  | _ => false

namespace Cursor

/-- Spec reference: a read of the plain cursor at bit `p` of `b`, its value as the
    bit pattern of the integer returned, and the cursor after it. -/
def read (b : List UInt8) (p : Nat) : Read → Except String Nat × Nat
  | .getValue _ n => getValue b p n
  | .getAligned k => getAligned b p k
  | .getVlqInt => ((getVlqInt b p).1.map BitVec.toNat, (getVlqInt b p).2)
  | .getZigzagVlqInt => ((getVlqInt b p).1.map fun u => (unzigzag u).toNat, (getVlqInt b p).2)

/-- Spec reference: a sequence of reads of the plain cursor from bit `p` of `b`. -/
def readAll (b : List UInt8) (p : Nat) : List Read → List (Except String Nat) × Nat
  | [] => ([], p)
  | c :: cs => ((read b p c).1 :: (readAll b (read b p c).2 cs).1, (readAll b (read b p c).2 cs).2)

end Cursor

namespace BitReader

section
variable {r r' : BitReader} {b : List UInt8} {p : Nat}

theorem Tracks.getVlqInt (ht : r.Tracks b p) :
    ∃ r', r.getVlqInt = some ((Cursor.getVlqInt b p).1, r') ∧
      r'.Tracks b (Cursor.getVlqInt b p).2 := by
  obtain ⟨r', h', hr'⟩ := ht.getVlqIntLoop rfl 0 0
  refine ⟨r', h', ?_⟩
  simp only [Cursor.getVlqInt]
  split_ifs at hr' ⊢
  · exact hr' ▸ ht
  · exact hr'.1

/-- **One read of a tracking reader is the cursor's read.** -/
theorem Tracks.read (ht : r.Tracks b p) {c : Read} (hc : c.valid) :
    ∃ r', r.read c = some ((Cursor.read b p c).1, r') ∧ r'.Tracks b (Cursor.read b p c).2 := by
  cases c with
  | getValue size n =>
    simp only [Read.valid, Bool.and_eq_true, decide_eq_true_eq] at hc
    exact ht.getValue hc.1 hc.2
  | getAligned k => exact ht.getAligned k
  | getVlqInt =>
    obtain ⟨r', h', ht'⟩ := ht.getVlqInt
    exact ⟨r', by rw [BitReader.read, h']; rfl, ht'⟩
  | getZigzagVlqInt =>
    obtain ⟨r', h', ht'⟩ := ht.getVlqInt
    refine ⟨r', ?_, ht'⟩
    rw [BitReader.read, getZigzagVlqInt_eq, h', Cursor.read]
    cases (Cursor.getVlqInt b p).1 <;> rfl

/-- **A run of reads of a tracking reader is the cursor's run.** -/
theorem Tracks.readAll (ht : r.Tracks b p) {cs : List Read} (hcs : ∀ c ∈ cs, c.valid) :
    ∃ r', r.readAll cs = some ((Cursor.readAll b p cs).1, r') ∧
      r'.Tracks b (Cursor.readAll b p cs).2 := by
  induction cs generalizing r p with
  | nil => exact ⟨r, rfl, ht⟩
  | cons c cs ih =>
    obtain ⟨r₁, h₁, ht₁⟩ := ht.read (hcs c (List.mem_cons_self _ _))
    obtain ⟨r', h', ht'⟩ := ih ht₁ fun c hc => hcs c (List.mem_cons_of_mem _ hc)
    refine ⟨r', ?_, ht'⟩
    rw [BitReader.readAll, h₁]
    simp only [Option.bind_eq_bind, Option.some_bind, h']
    rfl

/-- A read that goes through was within its preconditions. -/
theorem valid_of_read {c : Read} {x : Except String Nat × BitReader} (h : r.read c = some x) :
    c.valid := by
  cases c with
  | getValue size n =>
    simp only [Read.valid, Bool.and_eq_true, decide_eq_true_eq]
    by_contra hv
    simp [BitReader.read, getValue, if_neg hv] at h
  | _ => rfl

/-- A failed VLQ read is a failed `get_vlq_int`. -/
theorem getVlqInt_of_read_error {c : Read} {e : String} (hc : c.isVlq)
    (h : r.read c = some (.error e, r')) : ∃ e', r.getVlqInt = some (.error e', r') := by
  cases c <;> simp only [Read.isVlq, reduceCtorEq] at hc <;>
    simp only [BitReader.read, getZigzagVlqInt_eq, Option.map_map, Option.map_eq_some'] at h <;>
    obtain ⟨⟨res, r''⟩, hres, heq⟩ := h <;> cases res <;> simp_all [Except.map]

/-- A failed `get_vlq_int` has read every byte left, or six, and stands after them,
    byte-aligned; if no byte was left it leaves the reader as it was. -/
theorem Tracks.getVlqInt_error (ht : r.Tracks b p) {e : String}
    (h : r.getVlqInt = some (.error e, r')) :
    if (p + 7) / 8 < b.length then
      r'.Tracks b (8 * ((p + 7) / 8 + min (b.length - (p + 7) / 8) 6)) ∧ r'.bitOffset = 0
    else r' = r := by
  obtain ⟨r'', h'', hr''⟩ := ht.getVlqIntLoop rfl 0 0
  rw [BitReader.getVlqInt, h''] at h
  obtain ⟨he, rfl⟩ := Prod.mk.inj (Option.some.inj h)
  have hc := vlqScan_count_of_error (k := 0) le_add_self he
  rw [Nat.mul_zero, List.length_drop, Nat.sub_zero] at hc
  by_cases hl : (p + 7) / 8 < b.length
  · rw [if_pos hl]
    rw [if_neg (by omega)] at hr''
    rwa [hc] at hr''
  · rw [if_neg hl]
    rw [if_pos (by omega)] at hr''
    exact hr''

end

/-- The readers a sequence of completed reads leads to from `BitReader::new(buf)`;
    `reset(buf)` leads to the reader `new(buf)` returns (`reset_eq`). -/
inductive Reachable (buf : ByteBufferPtr) : BitReader → Prop
  | new {r : BitReader} : BitReader.new buf = some r → Reachable buf r
  | read {r r' : BitReader} {c : Read} {x : Except String Nat} :
      Reachable buf r → r.read c = some (x, r') → Reachable buf r'

/-- Every reachable reader tracks its bytes. -/
theorem Reachable.tracks {buf : ByteBufferPtr} {r : BitReader} (h : Reachable buf r) :
    ∃ p, r.Tracks buf.asRef p := by
  induction h with
  | new hn =>
    rw [new_eq] at hn
    exact ⟨0, Option.some.inj hn ▸ tracks_new buf⟩
  | read _ hr ih =>
    obtain ⟨p, ht⟩ := ih
    obtain ⟨r'', h'', ht''⟩ := ht.read (valid_of_read hr)
    rw [hr] at h''
    exact ⟨_, (Prod.mk.inj (Option.some.inj h'')).2 ▸ ht''⟩

/-- Spec reference: the bytes the reads so far have consumed,
    `byte_offset + ⌈bit_offset / 8⌉`. -/
def bytesConsumed (r : BitReader) : Nat := r.byteOffset + (r.bitOffset + 7) / 8

/-- A reader at bit `p` has consumed `⌈p / 8⌉` bytes. -/
theorem Tracks.bytesConsumed_eq {r : BitReader} {b : List UInt8} {p : Nat} (ht : r.Tracks b p) :
    r.bytesConsumed = (p + 7) / 8 := by
  rw [bytesConsumed, ← ht.pos]; omega

/-- A reader at bit `p` reports `get_byte_offset() = ⌊p / 8⌋ + 1`. -/
theorem Tracks.getByteOffset_eq {r : BitReader} {b : List UInt8} {p : Nat} (ht : r.Tracks b p) :
    r.getByteOffset = p / 8 + 1 := by
  rw [getByteOffset, ← ht.pos]; omega

/-- **Where a failed read leaves the reader.**  On every reachable reader, a failed
    `get_value` or `get_aligned` leaves the reader as it was, and so does a failed
    `get_vlq_int` or `get_zigzag_vlq_int` when no byte is left after the cursor.  Otherwise a
    failed VLQ read has consumed every byte left, or six when the first five carry the
    continuation bit, and leaves the reader byte-aligned after them with the window loaded
    there. -/
theorem failed_read_position {buf : ByteBufferPtr} {r r' : BitReader} {c : Read} {e : String}
    (hr : Reachable buf r) (h : r.read c = some (.error e, r')) :
    if c.isVlq ∧ r.bytesConsumed < r.totalBytes then
      r'.byteOffset = r.bytesConsumed + min (r.totalBytes - r.bytesConsumed) 6 ∧
        r'.bitOffset = 0 ∧ r'.bufferedValues = window buf.asRef r'.byteOffset
    else r' = r := by
  obtain ⟨p, ht⟩ := hr.tracks
  rw [ht.bytesConsumed_eq, ht.totalBytes]
  by_cases hc : c.isVlq
  · obtain ⟨e', he'⟩ := getVlqInt_of_read_error hc h
    have := ht.getVlqInt_error he'
    by_cases hl : (p + 7) / 8 < buf.asRef.length
    · rw [if_pos hl] at this
      rw [if_pos ⟨hc, hl⟩]
      have hpos := this.1.pos
      rw [this.2] at hpos
      exact ⟨by omega, this.2, this.1.bufferedValues_eq⟩
    · rw [if_neg hl] at this
      rw [if_neg fun h' => hl h'.2]
      exact this
  · rw [if_neg fun h' => hc h'.1]
    cases c <;> simp [Read.isVlq] at hc
    · exact getValue_error h
    · exact getAligned_error h

/-- `get_vlq_int` on the byte `0x80` alone reads it, then finds no byte left. -/
theorem getVlqInt_0x80 :
    (⟨ByteBufferPtr.new [0x80], 128, 0, 0, 1⟩ : BitReader).getVlqInt =
      some (.error notEnoughBytes, ⟨ByteBufferPtr.new [0x80], 0, 1, 0, 1⟩) := by
  rw [BitReader.getVlqInt, getVlqIntLoop, show (⟨ByteBufferPtr.new [0x80], 128, 0, 0, 1⟩ :
    BitReader).getAligned 1 = some (.ok 128, ⟨ByteBufferPtr.new [0x80], 0, 1, 0, 1⟩) from rfl]
  simp only [Option.bind_eq_bind, Option.some_bind]
  rw [getVlqIntLoop, show (⟨ByteBufferPtr.new [0x80], 0, 1, 0, 1⟩ : BitReader).getAligned 1 =
    some (.error notEnoughBytes, ⟨ByteBufferPtr.new [0x80], 0, 1, 0, 1⟩) from rfl]
  rfl

/-- **A failed `get_vlq_int` moves the reader, where the other reads do not.**  A
    `get_value` or `get_aligned` that returns `Err` leaves every reader as it was; on
    `BitReader::new([0x80])`, `get_vlq_int` returns the same `Err("Not enough bytes left")`
    after reading the byte, at `byte_offset` 1. -/
theorem failed_vlq_read_moves :
    (∀ (r r' : BitReader) (c : Read) (e : String), c.isVlq = false →
      r.read c = some (.error e, r') → r' = r) ∧
    ∃ r r', BitReader.new (ByteBufferPtr.new [0x80]) = some r ∧
      r.read .getVlqInt = some (.error notEnoughBytes, r') ∧ r.byteOffset = 0 ∧ r'.byteOffset = 1 := by
  refine ⟨fun r r' c e hc h => ?_, ⟨ByteBufferPtr.new [0x80], 128, 0, 0, 1⟩,
    ⟨ByteBufferPtr.new [0x80], 0, 1, 0, 1⟩, rfl, by rw [BitReader.read, getVlqInt_0x80]; rfl, rfl, rfl⟩
  cases c
  · exact getValue_error h
  · exact getAligned_error h
  all_goals cases hc

/-- **The windowed reader is a plain bit cursor.**  `BitReader::new(b)`, and every reader
    after `reset(b)`, is the same reader; on it, every sequence of reads within their
    preconditions returns what the plain cursor over `b` from bit 0 returns, read by read,
    with no panic (no `read_num_bytes!` assertion fails, no byte past the end is read), and
    leaves a reader at the cursor's position whose `buffered_values` is the window of `b`
    at its `byte_offset`. -/
theorem reader_refines_cursor (buf : ByteBufferPtr) {cs : List Read} (hcs : ∀ c ∈ cs, c.valid) :
    ∃ r r', BitReader.new buf = some r ∧ (∀ r₀ : BitReader, r₀.reset buf = some r) ∧
      r.readAll cs = some ((Cursor.readAll buf.asRef 0 cs).1, r') ∧
      r'.Tracks buf.asRef (Cursor.readAll buf.asRef 0 cs).2 := by
  obtain ⟨r', h', ht'⟩ := (tracks_new buf).readAll hcs
  exact ⟨_, r', new_eq buf, fun r₀ => (reset_eq r₀ buf).trans (new_eq buf), h', ht'⟩

theorem reader_refines_cursor_two_bytes :
    (∀ c ∈ [Read.getValue 1 3, .getAligned 1], c.valid) ∧
      Cursor.readAll [0x2D, 0x01] 0 [.getValue 1 3, .getAligned 1] = ([.ok 5, .ok 1], 16) ∧
      ∃ r r', BitReader.new (ByteBufferPtr.new [0x2D, 0x01]) = some r ∧
        r.readAll [.getValue 1 3, .getAligned 1] = some ([.ok 5, .ok 1], r') :=
  have hcs : ∀ c ∈ [Read.getValue 1 3, .getAligned 1], c.valid := by decide
  have ⟨r, r', hn, _, hr, _⟩ := reader_refines_cursor (ByteBufferPtr.new [0x2D, 0x01]) hcs
  ⟨hcs, rfl, r, r', hn, hr⟩

theorem failed_read_position_vlq :
    Reachable (ByteBufferPtr.new [0x80]) ⟨ByteBufferPtr.new [0x80], 128, 0, 0, 1⟩ ∧
      (⟨ByteBufferPtr.new [0x80], 128, 0, 0, 1⟩ : BitReader).read .getVlqInt =
        some (.error notEnoughBytes, ⟨ByteBufferPtr.new [0x80], 0, 1, 0, 1⟩) ∧
      (⟨ByteBufferPtr.new [0x80], 0, 1, 0, 1⟩ : BitReader).byteOffset = 0 + min (1 - 0) 6 :=
  have hr : Reachable (ByteBufferPtr.new [0x80]) ⟨ByteBufferPtr.new [0x80], 128, 0, 0, 1⟩ :=
    Reachable.new rfl
  have h : (⟨ByteBufferPtr.new [0x80], 128, 0, 0, 1⟩ : BitReader).read .getVlqInt =
      some (.error notEnoughBytes, ⟨ByteBufferPtr.new [0x80], 0, 1, 0, 1⟩) := by
    rw [BitReader.read, getVlqInt_0x80]; rfl
  ⟨hr, h, (failed_read_position hr h).1⟩

end BitReader

end ParquetUtil
