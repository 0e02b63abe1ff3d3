/-
  Runs of `BitWriter` calls.

  `stepSpec` says once what every call does to a writer satisfying `Inv`, through the
  effects of `WriterSpec`; `step_eq_stepSpec` shows that `step` computes it.  Every
  later result reads a call off `stepSpec`:
  * `Reachable.inv`: `Inv` holds of every writer reachable from `BitWriter::new(m)`;
  * `stepSpec_keeps`: no call but `put_aligned_offset` and `consume` touches the bytes
    below the cursor.
-/
import ParquetUtil.WriterSpec

namespace ParquetUtil
namespace BitWriter

/-- `w` with `bs` stored at `o`: a write through the slice `get_next_byte_ptr` returns,
    or a `put_aligned_offset`. -/
def patch (w : BitWriter) (o : Nat) (bs : List UInt8) : BitWriter :=
  { w with buffer := writeBytes w.buffer o bs }

/-- The zigzag map of `put_zigzag_vlq_int`, `(v << 1) ^ (v >> 63)`. -/
def zigzag (v : BitVec 64) : BitVec 64 := (v <<< 1) ^^^ v.sshiftRight 63

/-- What a call does to a writer satisfying `Inv`: its reply and the writer it leaves, or
    `none` where the code panics. -/
def stepSpec (w : BitWriter) : Op → Option (Reply × BitWriter)
  | .putValue v n =>
    if n ≤ 32 ∧ v < 2 ^ n then
      some (if w.byteOffset * 8 + w.bitOffset + n > w.maxBytes * 8 then (.bool false, w)
        else (.bool true, w.putBits v n))
    else none
  | .putAligned x k =>
    if w.bytesWritten < w.maxBytes then
      some (if w.bytesWritten + k > w.maxBytes then (.bool false, w.flushed)
        else (.bool true, w.alignedWrite (leBytes x k)))
    else none
  | .putAlignedOffset x k o =>
    some (if k + o > w.maxBytes then (.bool false, w) else (.bool true, w.patch o (leBytes x k)))
  | .skip k =>
    if w.bytesWritten < w.maxBytes then
      some (if w.bytesWritten + k > w.maxBytes then (.offset (.error notEnoughBytes), w.flushed)
        else (.offset (.ok w.bytesWritten), w.reserved k))
    else none
  | .getNextBytePtr k fill =>
    if w.bytesWritten < w.maxBytes then
      if w.bytesWritten + k > w.maxBytes then some (.offset (.error notEnoughBytes), w.flushed)
      else if fill.length ≤ k then
        some (.offset (.ok w.bytesWritten), (w.reserved k).patch w.bytesWritten fill)
      else none
    else none
  | .putVlqInt v =>
    if w.bytesWritten + (vlqBytes v.toNat).length ≤ w.maxBytes then
      some (.bool true, w.alignedWrite (vlqBytes v.toNat))
    else none
  | .putZigzagVlqInt v =>
    if w.bytesWritten + (vlqBytes (zigzag v).toNat).length ≤ w.maxBytes then
      some (.bool true, w.alignedWrite (vlqBytes (zigzag v).toNat))
    else none
  | .flush => some (.unit, w.flushed)
  | .consume => some (.bytes (ByteBufferPtr.new (bitsToBytes w.bits)), new w.maxBytes)

section
variable {w w' : BitWriter} {op : Op} {r : Reply}

theorem step_eq_stepSpec (h : w.Inv) (op : Op) : w.step op = w.stepSpec op := by
  cases op with
  | putValue v n => simp only [step, stepSpec, putValue_eq h]; split_ifs <;> rfl
  | putAligned x k => simp only [step, stepSpec, putAligned_eq h]; split_ifs <;> rfl
  | putAlignedOffset x k o => simp only [step, stepSpec, putAlignedOffset_eq h]; split_ifs <;> rfl
  | skip k => simp only [step, stepSpec, skip_eq h]; split_ifs <;> rfl
  | getNextBytePtr k fill =>
    simp only [step, stepSpec, getNextBytePtr_eq h, skip_eq h]
    split_ifs <;> rfl
  | putVlqInt v => simp only [step, stepSpec, putVlqInt, putVlqIntLoop_eq h]; split_ifs <;> rfl
  | putZigzagVlqInt v =>
    simp only [step, stepSpec, putZigzagVlqInt, zigzag, putVlqInt, putVlqIntLoop_eq h]
    split_ifs <;> rfl
  | flush => simp only [step, stepSpec, flush_eq h]; rfl
  | consume => simp only [step, stepSpec, consume_eq h]; rfl

@[simp] theorem patch_maxBytes (o : Nat) (bs : List UInt8) : (w.patch o bs).maxBytes = w.maxBytes :=
  rfl

@[simp] theorem patch_byteOffset (o : Nat) (bs : List UInt8) :
    (w.patch o bs).byteOffset = w.byteOffset := rfl

@[simp] theorem putBits_maxBytes {v n : Nat} : (w.putBits v n).maxBytes = w.maxBytes := by
  unfold putBits; split <;> rfl

theorem Inv.patch (h : w.Inv) {o : Nat} {bs : List UInt8} (hk : o + bs.length ≤ w.maxBytes) :
    (w.patch o bs).Inv :=
  ⟨by rw [BitWriter.patch, length_writeBytes (by rw [h.1]; exact hk)]; exact h.1, h.2, h.3, h.4⟩

/-- Every call keeps `Inv` and the capacity. -/
theorem Inv.stepSpec (h : w.Inv) (hs : w.stepSpec op = some (r, w')) :
    w'.Inv ∧ w'.maxBytes = w.maxBytes := by
  have hb := h.bytesWritten_le
  cases op <;> simp only [BitWriter.stepSpec] at hs
  case putValue v n =>
    split_ifs at hs with h₁ <;> cases hs
    · exact ⟨h, rfl⟩
    · exact ⟨h.putBits h₁.2 h₁.1 (by omega), putBits_maxBytes⟩
  case putAligned x k =>
    split_ifs at hs <;> cases hs
    · exact ⟨h.flushed, rfl⟩
    · exact ⟨h.alignedWrite (by rw [length_leBytes]; omega), rfl⟩
  case putAlignedOffset x k o =>
    split_ifs at hs <;> cases hs
    · exact ⟨h, rfl⟩
    · exact ⟨h.patch (by rw [length_leBytes]; omega), rfl⟩
  case skip k =>
    split_ifs at hs <;> cases hs
    · exact ⟨h.flushed, rfl⟩
    · exact ⟨h.reserved (by omega), rfl⟩
  case getNextBytePtr k fill =>
    split_ifs at hs <;> cases hs
    · exact ⟨h.flushed, rfl⟩
    · exact ⟨(h.reserved (by omega)).patch (by rw [reserved_maxBytes]; omega), rfl⟩
  case putVlqInt v =>
    split_ifs at hs with h₁; cases hs
    exact ⟨h.alignedWrite h₁, rfl⟩
  case putZigzagVlqInt v =>
    split_ifs at hs with h₁; cases hs
    exact ⟨h.alignedWrite h₁, rfl⟩
  case flush => cases hs; exact ⟨h.flushed, rfl⟩
  case consume => cases hs; exact ⟨inv_new _, rfl⟩

theorem run_cons_eq_some {ops : List Op} {rs : List Reply} :
    w.run (op :: ops) = some (rs, w') ↔
      ∃ r w₁ rs₁, w.step op = some (r, w₁) ∧ w₁.run ops = some (rs₁, w') ∧ rs = r :: rs₁ := by
  simp only [run, Option.bind_eq_bind, Option.bind_eq_some, Prod.exists, Option.pure_def,
    Option.some.injEq, Prod.mk.injEq]
  constructor
  · rintro ⟨r, w₁, hs, rs₁, w₂, hr, rfl, rfl⟩; exact ⟨r, w₁, rs₁, hs, hr, rfl⟩
  · rintro ⟨r, w₁, rs₁, hs, hr, rfl⟩; exact ⟨r, w₁, hs, rs₁, w', hr, rfl, rfl⟩

end

/-! ## Reachable writers -/

/-- The writers a sequence of completed calls leads to from `BitWriter::new(m)`. -/
inductive Reachable (m : Nat) : BitWriter → Prop
  | new : Reachable m (new m)
  | step {w w' : BitWriter} {op : Op} {r : Reply} :
      Reachable m w → w.step op = some (r, w') → Reachable m w'

section
variable {m : Nat} {w w' : BitWriter}

theorem Reachable.inv (h : Reachable m w) : w.Inv ∧ w.maxBytes = m := by
  induction h with
  | new => exact ⟨inv_new m, rfl⟩
  | step _ hs ih =>
    have := ih.1.stepSpec (step_eq_stepSpec ih.1 _ ▸ hs)
    exact ⟨this.1, this.2.trans ih.2⟩

theorem Reachable.run {ops : List Op} {rs : List Reply} (h : Reachable m w)
    (hr : w.run ops = some (rs, w')) : Reachable m w' := by
  induction ops generalizing w rs with
  | nil => obtain ⟨-, rfl⟩ := Prod.mk.inj (Option.some.inj hr); exact h
  | cons op ops ih =>
    obtain ⟨r, w₁, rs₁, hs, hr, -⟩ := run_cons_eq_some.1 hr
    exact ih (h.step hs) hr

/-- **Reachable writers are safe.**  Every writer reachable from `BitWriter::new(m)` keeps
    its buffer of `m` bytes, its cursor inside it and no staged bit above `bit_offset`; so
    `put_value` within its asserted preconditions and `flush` never panic, and the bits
    `flush` pads with are zero. -/
theorem reachable_writer_safe (hw : Reachable m w) :
    w.buffer.length = m ∧ w.maxBytes = m ∧ w.bitOffset < 64 ∧
      8 * w.byteOffset + w.bitOffset ≤ 8 * m ∧ w.bufferedValues < 2 ^ w.bitOffset ∧
      (∀ v n, n ≤ 32 → v < 2 ^ n → (w.putValue v n).isSome) ∧
      w.flush = some w.flushed ∧ w.flushed.bits = pad w.bits := by
  obtain ⟨h, rfl⟩ := hw.inv
  refine ⟨h.1, rfl, h.2, h.3, h.4, fun v n hn hv => ?_, flush_eq h, bits_flushed h⟩
  rw [putValue_eq h, if_pos ⟨hn, hv⟩]
  rfl

theorem reachable_writer_safe_after_put :
    Reachable 2 ⟨[0, 0], 2, 5, 0, 3⟩ ∧
      (⟨[0, 0], 2, 5, 0, 3⟩ : BitWriter).flush = some ⟨[5, 0], 2, 0, 1, 0⟩ :=
  have hw : Reachable 2 ⟨[0, 0], 2, 5, 0, 3⟩ :=
    Reachable.step Reachable.new
      (show (new 2).step (.putValue 5 3) = some (.bool true, ⟨[0, 0], 2, 5, 0, 3⟩) from rfl)
  ⟨hw, (reachable_writer_safe hw).2.2.2.2.2.2.1⟩

end

/-- A writer filled to `max_bytes` panics in `put_aligned` (the `assert!` of `skip`), and
    `put_vlq_int` panics on its second group, where both should return `false`. -/
theorem full_writer_panics :
    (new 1).putAligned 7 1 = some (true, ⟨[7], 1, 0, 1, 0⟩) ∧
      (⟨[7], 1, 0, 1, 0⟩ : BitWriter).putAligned 7 1 = none ∧ (new 1).putVlqInt 128 = none := by
  refine ⟨by decide, by decide, ?_⟩
  rw [putVlqInt, putVlqIntLoop_eq (inv_new 1), if_neg]
  simp [vlqBytes, new]

end BitWriter
end ParquetUtil
