/-
  Reading back what the writer wrote.

  `Mirrors` pairs each write with the read that reads it back, and `Op.written` is the value
  that read returns.  The writer leaves the bit stream `ops.foldl emit []` (`run_bits`), and
  the plain cursor reads that stream back write by write (`Cursor.readAll_emit`); the reader
  is the cursor (`Tracks.readAll`).

  * `write_read_roundtrip`: on the bytes `consume()` returns after a run of writes, the
    mirrored reads on `BitReader::new` return the written values, in order;
  * `vlq_roundtrip`: `get_vlq_int()` reads back `put_vlq_int(u)` exactly when `u < 2^35`,
    and `get_zigzag_vlq_int()` reads back `put_zigzag_vlq_int(s)` exactly when
    `-2^34 ≤ s < 2^34`; otherwise both fail with the `MAX_VLQ_BYTE_LEN` error;
  * `getByteOffset_consumed`: `get_byte_offset()` is `⌊p / 8⌋ + 1` at bit `p`, not the
    `⌈p / 8⌉` bytes consumed; after reading a run back it exceeds the writer's
    `bytes_written()` by one when the writer stopped on a byte boundary.
-/
import ParquetUtil.Pack
import ParquetUtil.ReaderRun

namespace ParquetUtil

open BitWriter (Op emit)
open BitReader (Read)

/-- Spec reference: the read that reads a write back: `get_value::<U>(n)` with
    `n ≤ 8 · size_of::<U>()` for `put_value(v, n)`, `get_aligned(k)` for
    `put_aligned(x, k)`, and the VLQ read of each VLQ write. -/
def Mirrors : Op → Read → Bool
  | .putValue _ n, .getValue size n' => n' == n && n ≤ size * 8
  | .putAligned _ k, .getAligned k' => k' == k
  | .putVlqInt _, .getVlqInt => true
  | .putZigzagVlqInt _, .getZigzagVlqInt => true
  | _, _ => false

/-- Spec reference: the writes that read back: `put_value(v, n)` with `n ≤ 32`,
    `v < 2^n`, every `put_aligned`, `put_vlq_int(u)` with `u < 2^35` and
    `put_zigzag_vlq_int(s)` with `-2^34 ≤ s < 2^34`. -/
def BitWriter.Op.readsBack : Op → Bool
  | .putValue v n => n ≤ 32 && v < 2 ^ n
  | .putAligned .. => true
  | .putVlqInt u => u.toNat < 2 ^ 35
  | .putZigzagVlqInt s => -2 ^ 34 ≤ s.toInt && s.toInt < 2 ^ 34
  | _ => false

/-- Spec reference: the value the mirrored read of a write returns, as a bit
    pattern: `v`, the `k` low-order bytes of `x`, `u`, `s`. -/
def BitWriter.Op.written : Op → Nat
  | .putValue v _ => v
  | .putAligned x k => x % 2 ^ (8 * k)
  | .putVlqInt u => u.toNat
  | .putZigzagVlqInt s => s.toNat
  | _ => 0

/-! ## The stream, byte by byte -/

/-- A byte-aligned prefix of a bit stream packs into bytes of its own. -/
theorem bitsToBytes_append {l₁ l₂ : List Bool} (h : l₁.length % 8 = 0) :
    bitsToBytes (l₁ ++ l₂) = bitsToBytes l₁ ++ bitsToBytes l₂ := by
  refine bytes_ext (by simp; omega) fun i => ?_
  rw [bitAt_bitsToBytes, streamBit_append, bitAt_append, length_bitsToBytes,
    show 8 * ((l₁.length + 7) / 8) = l₁.length by omega, bitAt_bitsToBytes, bitAt_bitsToBytes]

/-- After the padding of `l`, the bytes of an aligned write start at byte `⌈|l| / 8⌉`. -/
theorem drop_bitsToBytes_pad (l t : List Bool) (bs : List UInt8) :
    (bitsToBytes (pad l ++ bytesBits bs ++ t)).drop ((l.length + 7) / 8) = bs ++ bitsToBytes t := by
  rw [List.append_assoc, bitsToBytes_append (by simp), bitsToBytes_append (by simp),
    bitsToBytes_bytesBits, List.drop_left' (by simp; omega)]

theorem bitsValue_bitsToBytes {v n : Nat} (hv : v < 2 ^ n) (l t : List Bool) :
    Cursor.bitsValue (bitsToBytes (l ++ bitsOf v n ++ t)) l.length n = v := by
  apply Nat.eq_of_testBit_eq
  intro i
  rw [Cursor.testBit_bitsValue, bitAt_bitsToBytes, streamBit_append, streamBit_append]
  by_cases hi : i < n
  · simp [hi]
  · have hvi : v.testBit i = false :=
      Nat.testBit_lt_two_pow (lt_of_lt_of_le hv (Nat.pow_le_pow_right (by decide) (by omega)))
    simp [hi, hvi]

theorem emit_prefix (l : List Bool) (op : Op) : ∃ s, emit l op = l ++ s := by
  cases op <;> simp only [emit, pad, List.append_assoc] <;>
    first | exact ⟨_, rfl⟩ | exact ⟨[], (List.append_nil l).symm⟩

theorem foldl_emit_prefix (ops : List Op) (l : List Bool) : ∃ s, ops.foldl emit l = l ++ s := by
  induction ops generalizing l with
  | nil => exact ⟨[], (List.append_nil l).symm⟩
  | cons op ops ih =>
    obtain ⟨s₁, h₁⟩ := emit_prefix l op
    obtain ⟨s₂, h₂⟩ := ih (emit l op)
    exact ⟨s₁ ++ s₂, by rw [List.foldl_cons, h₂, h₁, List.append_assoc]⟩

/-! ## The cursor reads the stream back -/

namespace Cursor

/-- `get_vlq_int()` after an aligned VLQ write reads its value if it has at most five groups,
    and fails on the sixth otherwise. -/
theorem getVlqInt_emit (u : Nat) (l t : List Bool) :
    getVlqInt (bitsToBytes (pad l ++ bytesBits (vlqBytes u) ++ t)) l.length =
      if u < 2 ^ 35 then (.ok (BitVec.ofNat 64 u), (pad l ++ bytesBits (vlqBytes u)).length)
      else (.error vlqTooLong, (pad l).length + 8 * 6) := by
  have hv := vlqScan_vlqBytes u (bitsToBytes t) (k := 0) (by decide) 0
  have hne : (vlqBytes u).length ≠ 0 := by rw [vlqBytes]; split <;> simp
  rw [Nat.mul_zero, ← drop_bitsToBytes_pad l t] at hv
  simp only [getVlqInt, hv, Nat.zero_lt_succ, true_and, Nat.sub_zero, BitVec.shiftLeft_zero,
    BitVec.zero_or, List.length_append, length_pad, length_bytesBits]
  by_cases hu : u < 2 ^ 35
  · have h0 : (0 : BitVec 64) ||| BitVec.ofNat 64 u = BitVec.ofNat 64 u := BitVec.zero_or
    simp only [if_pos hu, if_neg hne, h0]
    exact Prod.ext rfl (by omega)
  · simp only [if_neg hu, show (6 : Nat) ≠ 0 by decide, if_false]
    exact Prod.ext rfl (by omega)

/-- One mirrored read returns the value its write wrote and moves to the end of it. -/
theorem read_emit {op : Op} {c : Read} (hop : op.readsBack) (hm : Mirrors op c) (l t : List Bool) :
    read (bitsToBytes (emit l op ++ t)) l.length c = (.ok op.written, (emit l op).length) := by
  cases op <;> cases c <;> simp only [Mirrors, Op.readsBack, reduceCtorEq] at hm hop
  case putValue.getValue v n size n' =>
    simp only [Bool.and_eq_true, beq_iff_eq, decide_eq_true_eq] at hm hop
    obtain ⟨rfl, -⟩ := hm
    rw [read, getValue, emit, if_neg (by simp; omega), bitsValue_bitsToBytes hop.2]
    simp [Op.written]
  case putAligned.getAligned x k k' =>
    simp only [beq_iff_eq] at hm
    subst hm
    rw [read, getAligned, emit, drop_bitsToBytes_pad, List.take_left' (by simp),
      leValue_leBytes, if_neg (by simp; omega)]
    simp [Op.written]
    omega
  case putVlqInt.getVlqInt u =>
    simp only [decide_eq_true_eq] at hop
    rw [read, emit, getVlqInt_emit, if_pos hop]
    simp only [BitVec.ofNat_toNat, BitVec.setWidth_eq]
    rfl
  case putZigzagVlqInt.getZigzagVlqInt s =>
    simp only [Bool.and_eq_true, decide_eq_true_eq] at hop
    rw [read, emit, ← BitWriter.zigzag, getVlqInt_emit, if_pos ((toNat_zigzag_lt_iff s).2 hop)]
    simp only [BitVec.ofNat_toNat, BitVec.setWidth_eq]
    exact congrArg (fun s => (Except.ok s.toNat, _)) (unzigzag_zigzag s)

/-- **The cursor reads a stream of writes back.**  From the end of `l`, the mirrored reads of
    `ops` return the written values and leave the cursor at the end of the stream `ops`
    appends to `l`. -/
theorem readAll_emit {ops : List Op} {cs : List Read} (hops : ∀ op ∈ ops, op.readsBack)
    (hm : List.Forall₂ (fun op c => Mirrors op c = true) ops cs) (l t : List Bool) :
    readAll (bitsToBytes (ops.foldl emit l ++ t)) l.length cs =
      (ops.map fun op => .ok op.written, (ops.foldl emit l).length) := by
  induction hm generalizing l with
  | nil => rfl
  | @cons op c ops cs hmc _ ih =>
    obtain ⟨s, hs⟩ := foldl_emit_prefix ops (emit l op)
    have h₁ := read_emit (hops op (List.mem_cons_self _ _)) hmc l (s ++ t)
    rw [← List.append_assoc, ← hs] at h₁
    rw [readAll, List.foldl_cons, h₁, ih (fun op h => hops op (List.mem_cons_of_mem _ h))]
    rfl

end Cursor

theorem BitWriter.Op.isWrite_of_readsBack {op : Op} (h : op.readsBack) : op.isWrite := by
  cases op <;> simp_all [Op.readsBack, Op.isWrite]

theorem BitReader.Read.valid_of_mirrors {op : Op} {c : Read} (hop : op.readsBack)
    (hm : Mirrors op c) : c.valid := by
  cases c with
  | getValue size n' => cases op <;> simp_all [Mirrors, Op.readsBack, Read.valid]
  | _ => rfl

theorem BitReader.Read.valid_of_forall₂ {ops : List Op} {cs : List Read}
    (hops : ∀ op ∈ ops, op.readsBack) (hm : List.Forall₂ (fun op c => Mirrors op c = true) ops cs) :
    ∀ c ∈ cs, c.valid := by
  induction hm with
  | nil => simp
  | cons hmc _ ih =>
    simp only [List.mem_cons, forall_eq_or_imp] at hops ⊢
    exact ⟨valid_of_mirrors hops.1 hmc, ih hops.2⟩

/-- The mirrored reads on the bytes of a run of writes return the written values and leave
    the reader at the end of the bits the writer wrote. -/
theorem readAll_of_run {m : Nat} {ops : List Op} {rs : List BitWriter.Reply}
    {w w₀ : BitWriter} {buf : ByteBufferPtr} {cs : List Read} (hops : ∀ op ∈ ops, op.readsBack)
    (hw : (BitWriter.new m).run ops = some (rs, w)) (hok : ∀ r ∈ rs, r = .bool true)
    (hc : w.consume = some (buf, w₀)) (hm : List.Forall₂ (fun op c => Mirrors op c = true) ops cs) :
    ∃ r r', BitReader.new buf = some r ∧ r.readAll cs = some (ops.map fun op => .ok op.written, r') ∧
      r'.Tracks buf.asRef w.bits.length := by
  have hb := BitWriter.run_bits (BitWriter.inv_new m)
    (fun op h => BitWriter.Op.isWrite_of_readsBack (hops op h)) hw fun r hr => Or.inl (hok r hr)
  rw [BitWriter.bits_new] at hb
  rw [BitWriter.consume_eq (BitWriter.Reachable.new.run hw).inv.1] at hc
  obtain ⟨rfl, -⟩ := Prod.mk.inj (Option.some.inj hc)
  obtain ⟨r', h', ht'⟩ := (BitReader.tracks_new _).readAll (Read.valid_of_forall₂ hops hm)
  have hread := Cursor.readAll_emit hops hm [] []
  rw [List.append_nil, List.length_nil, ← hb, ← ByteBufferPtr.asRef_new (bitsToBytes _)] at hread
  rw [hread] at h' ht'
  exact ⟨_, r', BitReader.new_eq _, h', ht'⟩

/-- **Write, then read back.**  After any run of `put_value`, `put_aligned`, `put_vlq_int`
    and `put_zigzag_vlq_int` calls on `BitWriter::new(m)`, each within its range and each
    returning `true`, a `BitReader` on the bytes `consume()` returns reads back, with the
    mirrored reads, exactly the written values, in order and all `Ok`. -/
theorem write_read_roundtrip {m : Nat} {ops : List Op} {rs : List BitWriter.Reply}
    {w w₀ : BitWriter} {buf : ByteBufferPtr} {cs : List Read} (hops : ∀ op ∈ ops, op.readsBack)
    (hw : (BitWriter.new m).run ops = some (rs, w)) (hok : ∀ r ∈ rs, r = .bool true)
    (hc : w.consume = some (buf, w₀)) (hm : List.Forall₂ (fun op c => Mirrors op c = true) ops cs) :
    ∃ r r', BitReader.new buf = some r ∧ r.readAll cs = some (ops.map fun op => .ok op.written, r') :=
  have ⟨r, r', hn, h', _⟩ := readAll_of_run hops hw hok hc hm
  ⟨r, r', hn, h'⟩

theorem write_read_roundtrip_zigzag_value_byte :
    (∀ op ∈ [Op.putZigzagVlqInt (-1), .putValue 5 3, .putAligned 7 1], op.readsBack) ∧
      (BitWriter.new 3).run [.putZigzagVlqInt (-1), .putValue 5 3, .putAligned 7 1] =
        some ([.bool true, .bool true, .bool true], ⟨[1, 5, 7], 3, 0, 3, 0⟩) ∧
      (⟨[1, 5, 7], 3, 0, 3, 0⟩ : BitWriter).consume =
        some (ByteBufferPtr.new [1, 5, 7], BitWriter.new 3) ∧
      ∃ r r', BitReader.new (ByteBufferPtr.new [1, 5, 7]) = some r ∧
        r.readAll [.getZigzagVlqInt, .getValue 1 3, .getAligned 1] =
          some ([.ok (2 ^ 64 - 1), .ok 5, .ok 7], r') := by
  have hops : ∀ op ∈ [Op.putZigzagVlqInt (-1), .putValue 5 3, .putAligned 7 1], op.readsBack := by
    decide
  have h₁ : (BitWriter.new 3).step (.putZigzagVlqInt (-1)) =
      some (.bool true, ⟨[1, 0, 0], 3, 0, 1, 0⟩) := by
    rw [BitWriter.step_eq_stepSpec (BitWriter.inv_new 3), BitWriter.stepSpec,
      show (BitWriter.zigzag (-1)).toNat = 1 by decide, show vlqBytes 1 = [1] by simp [vlqBytes],
      if_pos (by decide)]
    rfl
  have hw : (BitWriter.new 3).run [.putZigzagVlqInt (-1), .putValue 5 3, .putAligned 7 1] =
      some ([.bool true, .bool true, .bool true], ⟨[1, 5, 7], 3, 0, 3, 0⟩) := by
    rw [BitWriter.run, h₁]
    rfl
  have hc : (⟨[1, 5, 7], 3, 0, 3, 0⟩ : BitWriter).consume =
      some (ByteBufferPtr.new [1, 5, 7], BitWriter.new 3) := rfl
  exact ⟨hops, hw, hc, write_read_roundtrip hops hw (by simp) hc (by decide)⟩

/-- The bytes `consume()` returns after `put_vlq_int(u)` on a new writer: the VLQ bytes of `u`. -/
theorem consume_putVlqInt {m : Nat} {u : BitVec 64} {w w₀ : BitWriter} {buf : ByteBufferPtr}
    (hw : (BitWriter.new m).putVlqInt u = some (true, w)) (hc : w.consume = some (buf, w₀)) :
    buf.asRef = bitsToBytes (pad [] ++ bytesBits (vlqBytes u.toNat) ++ []) := by
  rw [BitWriter.putVlqInt, BitWriter.putVlqIntLoop_eq (BitWriter.inv_new m)] at hw
  split_ifs at hw with hfit
  obtain ⟨-, rfl⟩ := Prod.mk.inj (Option.some.inj hw)
  rw [BitWriter.consume_eq ((BitWriter.inv_new m).alignedWrite hfit),
    BitWriter.bits_alignedWrite (BitWriter.inv_new m), BitWriter.bits_new] at hc
  rw [← (Prod.mk.inj (Option.some.inj hc)).1, ByteBufferPtr.asRef_new, List.append_nil]

/-- `put_vlq_int(u)` on a new writer with room for its VLQ bytes goes through, and
    `consume()` then returns them. -/
theorem putVlqInt_new_of_fits {m : Nat} {u : BitVec 64} (hfit : (vlqBytes u.toNat).length ≤ m) :
    ∃ w, (BitWriter.new m).putVlqInt u = some (true, w) ∧
      w.consume = some (ByteBufferPtr.new (vlqBytes u.toNat), BitWriter.new m) := by
  have h := BitWriter.inv_new m
  have hf : (BitWriter.new m).bytesWritten + (vlqBytes u.toNat).length ≤ (BitWriter.new m).maxBytes := by
    simp only [BitWriter.bytesWritten_eq, BitWriter.new]; omega
  refine ⟨_, by rw [BitWriter.putVlqInt, BitWriter.putVlqIntLoop_eq h, if_pos hf], ?_⟩
  rw [BitWriter.consume_eq (h.alignedWrite hf), BitWriter.bits_alignedWrite h, BitWriter.bits_new,
    show pad [] = [] from rfl, List.nil_append, bitsToBytes_bytesBits, BitWriter.alignedWrite_maxBytes]
  rfl

/-- `get_vlq_int()` on the bytes of `put_vlq_int(u)`. -/
theorem getVlqInt_of_putVlqInt {m : Nat} {u : BitVec 64} {w w₀ : BitWriter} {buf : ByteBufferPtr}
    (hw : (BitWriter.new m).putVlqInt u = some (true, w)) (hc : w.consume = some (buf, w₀)) :
    ∃ r r', BitReader.new buf = some r ∧
      r.getVlqInt = some (if u.toNat < 2 ^ 35 then .ok u else .error vlqTooLong, r') := by
  obtain ⟨r', h', -⟩ := (BitReader.tracks_new buf).getVlqInt
  have he := Cursor.getVlqInt_emit u.toNat [] []
  rw [List.length_nil, ← consume_putVlqInt hw hc, BitVec.ofNat_toNat, BitVec.setWidth_eq] at he
  refine ⟨_, r', BitReader.new_eq buf, ?_⟩
  rw [h', he]
  split_ifs <;> rfl

/-- **VLQ round trip.**  On the bytes `consume()` returns after `put_vlq_int(u)` succeeds on
    a new writer, `get_vlq_int()` returns `u` if `u < 2^35` and the `MAX_VLQ_BYTE_LEN` error
    otherwise; after `put_zigzag_vlq_int(s)`, `get_zigzag_vlq_int()` returns `s` if
    `-2^34 ≤ s < 2^34` and that error otherwise. -/
theorem vlq_roundtrip (m : Nat) :
    (∀ (u : BitVec 64) (w w₀ : BitWriter) (buf : ByteBufferPtr),
      (BitWriter.new m).putVlqInt u = some (true, w) → w.consume = some (buf, w₀) →
      ∃ r r', BitReader.new buf = some r ∧
        r.getVlqInt = some (if u.toNat < 2 ^ 35 then .ok u else .error vlqTooLong, r')) ∧
    (∀ (s : BitVec 64) (w w₀ : BitWriter) (buf : ByteBufferPtr),
      (BitWriter.new m).putZigzagVlqInt s = some (true, w) → w.consume = some (buf, w₀) →
      ∃ r r', BitReader.new buf = some r ∧
        r.getZigzagVlqInt = some (if -2 ^ 34 ≤ s.toInt ∧ s.toInt < 2 ^ 34 then .ok s
          else .error vlqTooLong, r')) := by
  refine ⟨fun u w w₀ buf hw hc => getVlqInt_of_putVlqInt hw hc, fun s w w₀ buf hw hc => ?_⟩
  obtain ⟨r, r', hn, h'⟩ := getVlqInt_of_putVlqInt (u := BitWriter.zigzag s) hw hc
  refine ⟨r, r', hn, ?_⟩
  rw [BitReader.getZigzagVlqInt_eq, h']
  by_cases hs : -2 ^ 34 ≤ s.toInt ∧ s.toInt < 2 ^ 34
  · rw [if_pos ((toNat_zigzag_lt_iff s).2 hs), if_pos hs]
    simp [Except.map, unzigzag_zigzag]
  · rw [if_neg (mt (toNat_zigzag_lt_iff s).1 hs), if_neg hs]
    rfl

theorem vlq_roundtrip_300_zigzag_neg_one :
    (BitWriter.new 2).putVlqInt 300 = some (true, ⟨[172, 2], 2, 0, 2, 0⟩) ∧
      (⟨[172, 2], 2, 0, 2, 0⟩ : BitWriter).consume =
        some (ByteBufferPtr.new [172, 2], BitWriter.new 2) ∧
      (∃ r r', BitReader.new (ByteBufferPtr.new [172, 2]) = some r ∧ r.getVlqInt = some (.ok 300, r')) ∧
      (BitWriter.new 2).putZigzagVlqInt (-1) = some (true, ⟨[1, 0], 2, 0, 1, 0⟩) ∧
      (⟨[1, 0], 2, 0, 1, 0⟩ : BitWriter).consume = some (ByteBufferPtr.new [1], BitWriter.new 2) ∧
      ∃ r r', BitReader.new (ByteBufferPtr.new [1]) = some r ∧
        r.getZigzagVlqInt = some (.ok (-1), r') := by
  have hw : (BitWriter.new 2).putVlqInt 300 = some (true, ⟨[172, 2], 2, 0, 2, 0⟩) := by
    rw [BitWriter.putVlqInt, BitWriter.putVlqIntLoop_eq (BitWriter.inv_new 2),
      show vlqBytes (BitVec.toNat 300) = [172, 2] by simp [vlqBytes]]
    rfl
  have hc : (⟨[172, 2], 2, 0, 2, 0⟩ : BitWriter).consume =
      some (ByteBufferPtr.new [172, 2], BitWriter.new 2) := rfl
  have hz : (BitWriter.new 2).putZigzagVlqInt (-1) = some (true, ⟨[1, 0], 2, 0, 1, 0⟩) := by
    show (BitWriter.new 2).putVlqInt (BitWriter.zigzag (-1)) = _
    rw [BitWriter.putVlqInt, BitWriter.putVlqIntLoop_eq (BitWriter.inv_new 2),
      show (BitWriter.zigzag (-1)).toNat = 1 by decide, show vlqBytes 1 = [1] by simp [vlqBytes]]
    rfl
  have hcz : (⟨[1, 0], 2, 0, 1, 0⟩ : BitWriter).consume =
      some (ByteBufferPtr.new [1], BitWriter.new 2) := rfl
  obtain ⟨r, r', hn, h⟩ := (vlq_roundtrip 2).1 300 _ _ _ hw hc
  obtain ⟨rz, rz', hnz, h'⟩ := (vlq_roundtrip 2).2 (-1) _ _ _ hz hcz
  exact ⟨hw, hc, ⟨r, r', hn, by rw [h, if_pos (by decide)]⟩, hz, hcz, rz, rz', hnz,
    by rw [h', if_pos (by decide)]⟩

/-! ## `get_byte_offset` -/

/-- **`get_byte_offset()` against the bytes consumed.**  On every reachable reader, standing at
    bit `p` of its bytes, the reads have consumed `⌈p / 8⌉` bytes and `get_byte_offset()` is
    `⌊p / 8⌋ + 1`: the two agree inside a byte, and on a byte boundary `get_byte_offset()` is one
    more.  After the mirrored reads of a run of writes, `p` is the number of bits the writer
    wrote: the bytes consumed are the writer's `bytes_written()` before `consume()`, and
    `get_byte_offset()` is one more than that when the writer stopped on a byte boundary. -/
theorem getByteOffset_consumed :
    (∀ {buf : ByteBufferPtr} {r : BitReader}, BitReader.Reachable buf r →
      ∃ p, r.Tracks buf.asRef p ∧ r.bytesConsumed = (p + 7) / 8 ∧ r.getByteOffset = p / 8 + 1) ∧
    (∀ {m : Nat} {ops : List Op} {rs : List BitWriter.Reply} {w w₀ : BitWriter}
      {buf : ByteBufferPtr} {cs : List Read}, (∀ op ∈ ops, op.readsBack) →
      (BitWriter.new m).run ops = some (rs, w) → (∀ r ∈ rs, r = .bool true) →
      w.consume = some (buf, w₀) → List.Forall₂ (fun op c => Mirrors op c = true) ops cs →
      ∃ r r', BitReader.new buf = some r ∧
        r.readAll cs = some (ops.map fun op => .ok op.written, r') ∧
        r'.bytesConsumed = w.bytesWritten ∧
        r'.getByteOffset = w.bytesWritten + if w.bitOffset % 8 = 0 then 1 else 0) := by
  refine ⟨fun hr => ?_, fun hops hw hok hc hm => ?_⟩
  · obtain ⟨p, ht⟩ := hr.tracks
    exact ⟨p, ht, ht.bytesConsumed_eq, ht.getByteOffset_eq⟩
  · obtain ⟨r, r', hn, h', ht'⟩ := readAll_of_run hops hw hok hc hm
    have hlen := (BitWriter.Reachable.new.run hw).inv.1.length_bits
    refine ⟨r, r', hn, h', ?_⟩
    rw [ht'.bytesConsumed_eq, ht'.getByteOffset_eq, hlen, BitWriter.bytesWritten_eq]
    split_ifs <;> omega

theorem getByteOffset_consumed_byte :
    BitReader.Reachable (ByteBufferPtr.new [7]) ⟨ByteBufferPtr.new [7], 7, 0, 0, 1⟩ ∧
      (∃ p, (⟨ByteBufferPtr.new [7], 7, 0, 0, 1⟩ : BitReader).Tracks [7] p ∧
        (⟨ByteBufferPtr.new [7], 7, 0, 0, 1⟩ : BitReader).bytesConsumed = (p + 7) / 8 ∧
        (⟨ByteBufferPtr.new [7], 7, 0, 0, 1⟩ : BitReader).getByteOffset = p / 8 + 1) ∧
      (BitWriter.new 1).run [.putAligned 7 1] = some ([.bool true], ⟨[7], 1, 0, 1, 0⟩) ∧
      (⟨[7], 1, 0, 1, 0⟩ : BitWriter).consume = some (ByteBufferPtr.new [7], BitWriter.new 1) ∧
      ∃ r r', BitReader.new (ByteBufferPtr.new [7]) = some r ∧
        r.readAll [.getAligned 1] = some ([.ok 7], r') ∧
        r'.bytesConsumed = (⟨[7], 1, 0, 1, 0⟩ : BitWriter).bytesWritten ∧
        r'.getByteOffset = (⟨[7], 1, 0, 1, 0⟩ : BitWriter).bytesWritten + 1 :=
  have hr : BitReader.Reachable (ByteBufferPtr.new [7]) ⟨ByteBufferPtr.new [7], 7, 0, 0, 1⟩ :=
    .new rfl
  have hw : (BitWriter.new 1).run [.putAligned 7 1] = some ([.bool true], ⟨[7], 1, 0, 1, 0⟩) := rfl
  have hc : (⟨[7], 1, 0, 1, 0⟩ : BitWriter).consume =
      some (ByteBufferPtr.new [7], BitWriter.new 1) := rfl
  ⟨hr, getByteOffset_consumed.1 hr, hw, hc,
    getByteOffset_consumed.2 (by decide) hw (by simp) hc (by decide)⟩

end ParquetUtil
