/-
  What a failed call and a patch below the cursor do to a run.

  * A call that reports failure leaves the writer as it was (`put_value`,
    `put_aligned_offset`) or as `flush()` leaves it (`skip`, `get_next_byte_ptr` and
    `put_aligned`, which flush before they look for room): `stepSpec_failed`.  So a run
    ends where the run with its failed calls removed, or replaced by `flush()`, ends,
    and `consume()` hands out the same bytes in both (`run_repair`).
  * No call but `put_aligned_offset` and `consume` touches the bytes below the cursor
    (`stepSpec_keeps`), and a patch below the cursor commutes with every call but
    `consume` and a `put_aligned_offset` over it (`stepSpec_patch`).
-/
import ParquetUtil.WriterRun

namespace ParquetUtil
namespace BitWriter

/-- A reply that reports failure: `false`, or an `Err`. -/
def Reply.failed : Reply → Bool
  | .bool b => !b
  | .offset (.error _) => true
  | _ => false

/-- The calls that flush before they look for room. -/
def Op.flushesFirst : Op → Bool
  | .putAligned .. | .skip _ | .getNextBytePtr .. => true
  | _ => false

/-- A run with each failed call replaced by what it did: a `flush()` for a call that
    flushes first, nothing for the others. -/
def repair : List Op → List Reply → List Op
  | op :: ops, r :: rs =>
    (if r.failed then (if op.flushesFirst then [.flush] else []) else [op]) ++ repair ops rs
  | ops, _ => ops

/-- The byte views the `consume()` calls of a run hand out. -/
def outputs (rs : List Reply) : List ByteBufferPtr :=
  rs.filterMap fun | .bytes out => some out | _ => none

section
variable {w w' : BitWriter} {op : Op} {r : Reply}

/-- A failed call leaves the writer as it was, or flushed. -/
theorem stepSpec_failed (hs : w.stepSpec op = some (r, w')) (hf : r.failed) :
    w' = if op.flushesFirst then w.flushed else w := by
  cases op <;> simp only [stepSpec] at hs <;> (try split_ifs at hs) <;>
    simp only [Option.some.injEq, Prod.mk.injEq, reduceCtorEq] at hs <;> obtain ⟨rfl, rfl⟩ := hs <;>
    simp only [Reply.failed, Op.flushesFirst, Bool.not_true, Bool.false_eq_true] at hf ⊢ <;> rfl

theorem outputs_cons_of_failed {rs : List Reply} (hf : r.failed) : outputs (r :: rs) = outputs rs := by
  cases r <;> simp_all [outputs, Reply.failed]

theorem run_repair (h : w.Inv) {ops : List Op} {rs : List Reply} (hr : w.run ops = some (rs, w')) :
    ∃ rs', w.run (repair ops rs) = some (rs', w') ∧ outputs rs' = outputs rs := by
  induction ops generalizing w rs with
  | nil => exact ⟨rs, by cases rs <;> exact hr, rfl⟩
  | cons op ops ih =>
    obtain ⟨r, w₁, rs₁, hs, hr₁, rfl⟩ := run_cons_eq_some.1 hr
    rw [step_eq_stepSpec h] at hs
    obtain ⟨rs', hr', hout⟩ := ih (h.stepSpec hs).1 hr₁
    simp only [repair]
    by_cases hf : r.failed
    · rw [if_pos hf, outputs_cons_of_failed hf, ← hout]
      have hw₁ := stepSpec_failed hs hf
      split_ifs at hw₁ ⊢ with hfl
      · subst hw₁
        exact ⟨.unit :: rs', run_cons_eq_some.2 ⟨_, _, _, step_eq_stepSpec h .flush, hr', rfl⟩, rfl⟩
      · subst hw₁
        exact ⟨rs', hr', rfl⟩
    · rw [if_neg hf]
      refine ⟨r :: rs', run_cons_eq_some.2 ⟨_, _, _, (step_eq_stepSpec h op).trans hs, hr', rfl⟩, ?_⟩
      simp only [outputs, List.filterMap_cons] at hout ⊢
      rw [hout]

end

/-- **A failed call costs at most a flush.**  On a writer reachable from
    `BitWriter::new(m)`, a call that reports failure leaves the writer as it was, or as
    `flush()` leaves it for the calls that flush first; so every run ends in the state,
    and its `consume()` calls hand out the bytes, of the same run with each failed call
    deleted, or replaced by `flush()` where it flushes first. -/
theorem failed_call_flushes_at_most {m : Nat} {w : BitWriter} (hw : Reachable m w) :
    (∀ op r w', w.step op = some (r, w') → r.failed →
      w' = if op.flushesFirst then w.flushed else w) ∧
    (∀ ops rs w', w.run ops = some (rs, w') →
      ∃ rs', w.run (repair ops rs) = some (rs', w') ∧ outputs rs' = outputs rs) := by
  have h := hw.inv.1
  exact ⟨fun op r w' hs hf => stepSpec_failed ((step_eq_stepSpec h op).symm.trans hs) hf,
    fun ops rs w' hr => run_repair h hr⟩

theorem failed_call_flushes_at_most_new :
    Reachable 2 (new 2) ∧
      ∃ rs', (new 2).run (repair [.putValue 1 1, .putAligned 0 2, .putValue 1 1, .consume]
          [.bool true, .bool false, .bool true, .bytes (ByteBufferPtr.new [1, 1])]) = some (rs', new 2) ∧
        outputs rs' = [ByteBufferPtr.new [1, 1]] :=
  ⟨.new, (failed_call_flushes_at_most .new).2 _ _ _ rfl⟩

/-- A failed `put_aligned` flushes the pending bits, and a run keeps that flush when the
    failed call is deleted from it. -/
theorem failed_putAligned_flushes :
    (new 2).run [.putValue 1 1, .putAligned 0 2, .putValue 1 1, .consume] =
        some ([.bool true, .bool false, .bool true, .bytes (ByteBufferPtr.new [1, 1])], new 2) ∧
      (new 2).run [.putValue 1 1, .putValue 1 1, .consume] =
        some ([.bool true, .bool true, .bytes (ByteBufferPtr.new [3])], new 2) :=
  ⟨rfl, rfl⟩

/-! ## Patches below the cursor -/

/-- `op` leaves the bytes `o..o+k` to a patch: it is no `consume`, and no
    `put_aligned_offset` over them. -/
def Op.Avoids (o k : Nat) : Op → Prop
  | .consume => False
  | .putAlignedOffset _ k' o' => o' + k' ≤ o ∨ o + k ≤ o'
  | _ => True

section
variable {w : BitWriter} {o : Nat} {bs : List UInt8}

@[simp] theorem patch_buffer : (w.patch o bs).buffer = writeBytes w.buffer o bs := rfl

@[simp] theorem patch_bitOffset : (w.patch o bs).bitOffset = w.bitOffset := rfl

@[simp] theorem patch_bufferedValues : (w.patch o bs).bufferedValues = w.bufferedValues := rfl

/-- The bytes `flush()` stores stay inside the buffer. -/
theorem Inv.flush_le (h : w.Inv) : w.byteOffset + (w.bitOffset + 7) / 8 ≤ w.buffer.length := by
  have := h.bytesWritten_le
  rw [bytesWritten_eq] at this
  rw [h.length_buffer]; exact this

theorem flushed_patch (h : w.Inv) (ho : o + bs.length ≤ w.byteOffset) :
    (w.patch o bs).flushed = w.flushed.patch o bs :=
  BitWriter.ext (writeBytes_comm ho (by rw [length_leBytes]; exact h.flush_le)) rfl rfl rfl rfl

theorem reserved_patch (h : w.Inv) (ho : o + bs.length ≤ w.byteOffset) (k : Nat) :
    (w.patch o bs).reserved k = (w.reserved k).patch o bs :=
  BitWriter.ext (show (w.patch o bs).flushed.buffer = (w.flushed.patch o bs).buffer from
    congrArg BitWriter.buffer (flushed_patch h ho)) rfl rfl rfl rfl

theorem alignedWrite_patch (h : w.Inv) (ho : o + bs.length ≤ w.byteOffset) (cs : List UInt8)
    (hk : w.bytesWritten + cs.length ≤ w.maxBytes) :
    (w.patch o bs).alignedWrite cs = (w.alignedWrite cs).patch o bs := by
  have hl := h.flushed.length_buffer
  rw [bytesWritten_eq] at hk
  refine BitWriter.ext ?_ rfl rfl rfl rfl
  simp only [alignedWrite_buffer, flushed_patch h ho, patch_buffer, patch_byteOffset, patch_bitOffset]
  exact writeBytes_comm (by omega) (by rw [hl, flushed_maxBytes]; exact hk)

theorem putBits_patch (h : w.Inv) (ho : o + bs.length ≤ w.byteOffset) (v n : Nat)
    (hfit : 8 * w.byteOffset + w.bitOffset + n ≤ 8 * w.maxBytes) :
    (w.patch o bs).putBits v n = (w.putBits v n).patch o bs := by
  have := h.length_buffer
  simp only [putBits, patch_bitOffset, patch_bufferedValues, patch_byteOffset, patch_buffer]
  split_ifs
  · exact BitWriter.ext (writeBytes_comm ho (by rw [length_leBytes]; omega)) rfl rfl rfl rfl
  · rfl

theorem patch_patch {o' : Nat} {cs : List UInt8}
    (hd : o' + cs.length ≤ o ∧ o + bs.length ≤ w.buffer.length ∨
      o + bs.length ≤ o' ∧ o' + cs.length ≤ w.buffer.length) :
    (w.patch o bs).patch o' cs = (w.patch o' cs).patch o bs := by
  refine BitWriter.ext ?_ rfl rfl rfl rfl
  rcases hd with ⟨h₁, h₂⟩ | ⟨h₁, h₂⟩
  · exact (writeBytes_comm h₁ h₂).symm
  · exact writeBytes_comm h₁ h₂

/-- A patch below the cursor commutes with every call that avoids it. -/
theorem stepSpec_patch (h : w.Inv) (ho : o + bs.length ≤ w.byteOffset) {op : Op}
    (hop : op.Avoids o bs.length) :
    (w.patch o bs).stepSpec op = (w.stepSpec op).map fun (r, w') => (r, w'.patch o bs) := by
  have hl := h.length_buffer
  have hfl := h.flushed.length_buffer
  have := h.fits
  cases op with
  | putValue v n =>
    simp only [stepSpec, patch_byteOffset, patch_bitOffset, patch_maxBytes]
    split_ifs
    · rfl
    · rw [putBits_patch h ho v n (by omega)]; rfl
    · rfl
  | putAligned x k =>
    simp only [stepSpec, bytesWritten_eq, patch_byteOffset, patch_bitOffset, patch_maxBytes]
    split_ifs
    · rw [flushed_patch h ho]; rfl
    · rw [alignedWrite_patch h ho _ (by simp; omega)]; rfl
    · rfl
  | putAlignedOffset x k o' =>
    simp only [stepSpec, patch_maxBytes]
    split_ifs
    · rfl
    · rw [patch_patch (by simp only [length_leBytes, Op.Avoids] at hop ⊢; omega)]; rfl
  | skip k =>
    simp only [stepSpec, bytesWritten_eq, patch_byteOffset, patch_bitOffset, patch_maxBytes]
    split_ifs
    · rw [flushed_patch h ho]; rfl
    · rw [reserved_patch h ho]; rfl
    · rfl
  | getNextBytePtr k fill =>
    simp only [stepSpec, bytesWritten_eq, patch_byteOffset, patch_bitOffset, patch_maxBytes]
    split_ifs
    · rw [flushed_patch h ho]; rfl
    · rw [reserved_patch h ho, patch_patch (Or.inr ⟨by omega, by simp at hfl ⊢; omega⟩)]; rfl
    all_goals rfl
  | putVlqInt v =>
    simp only [stepSpec, bytesWritten_eq, patch_byteOffset, patch_bitOffset, patch_maxBytes]
    split_ifs with h₁
    · rw [alignedWrite_patch h ho _ (by simpa using h₁)]; rfl
    · rfl
  | putZigzagVlqInt v =>
    simp only [stepSpec, bytesWritten_eq, patch_byteOffset, patch_bitOffset, patch_maxBytes]
    split_ifs with h₁
    · rw [alignedWrite_patch h ho _ (by simpa using h₁)]; rfl
    · rfl
  | flush => rw [stepSpec, stepSpec, flushed_patch h ho]; rfl
  | consume => exact hop.elim

theorem keeps_reserved_patch (h : w.Inv) (k : Nat) :
    Keeps w ((w.reserved k).patch w.bytesWritten bs) :=
  ⟨rfl, by simp only [patch_byteOffset, reserved_byteOffset]; omega, by
    rw [patch_buffer, take_writeBytes_of_le (by simp) (by rw [bytesWritten_eq]; exact h.flushed.byteOffset_le),
      reserved_buffer]
    exact (keeps_flushed h).take_buffer⟩

/-- No call but `put_aligned_offset` and `consume` touches the bytes below the cursor. -/
theorem stepSpec_keeps (h : w.Inv) {op : Op} {r : Reply} {w' : BitWriter}
    (hs : w.stepSpec op = some (r, w')) (hc : op ≠ .consume)
    (hp : ∀ x k o, op ≠ .putAlignedOffset x k o) : Keeps w w' := by
  cases op <;> simp only [stepSpec] at hs
  case putValue v n =>
    split_ifs at hs <;> cases hs
    · exact Keeps.refl w
    · exact keeps_putBits h _ _
  case putAligned x k =>
    split_ifs at hs <;> cases hs
    · exact keeps_flushed h
    · exact keeps_alignedWrite h _
  case putAlignedOffset x k o => exact (hp x k o rfl).elim
  case skip k =>
    split_ifs at hs <;> cases hs
    · exact keeps_flushed h
    · exact keeps_reserved h _
  case getNextBytePtr k fill =>
    split_ifs at hs <;> cases hs
    · exact keeps_flushed h
    · exact keeps_reserved_patch h _
  case putVlqInt v =>
    split_ifs at hs; cases hs
    exact keeps_alignedWrite h _
  case putZigzagVlqInt v =>
    split_ifs at hs; cases hs
    exact keeps_alignedWrite h _
  case flush => cases hs; exact keeps_flushed h
  case consume => exact (hc rfl).elim

theorem stepSpec_byteOffset_le (h : w.Inv) {op : Op} {r : Reply} {w' : BitWriter}
    (hs : w.stepSpec op = some (r, w')) (hc : op ≠ .consume) : w.byteOffset ≤ w'.byteOffset := by
  by_cases hp : ∀ x k o, op ≠ .putAlignedOffset x k o
  · exact (stepSpec_keeps h hs hc hp).byteOffset_le
  · push_neg at hp
    obtain ⟨x, k, o, rfl⟩ := hp
    simp only [stepSpec] at hs
    split_ifs at hs <;> obtain ⟨-, rfl⟩ := Prod.mk.inj (Option.some.inj hs) <;> simp

theorem run_byteOffset_le (h : w.Inv) {ops : List Op} {rs : List Reply} {w' : BitWriter}
    (hr : w.run ops = some (rs, w')) (hc : .consume ∉ ops) : w.byteOffset ≤ w'.byteOffset := by
  induction ops generalizing w rs with
  | nil => obtain ⟨-, rfl⟩ := Prod.mk.inj (Option.some.inj hr); exact le_rfl
  | cons op ops ih =>
    obtain ⟨r, w₁, rs₁, hs, hr₁, -⟩ := run_cons_eq_some.1 hr
    rw [step_eq_stepSpec h] at hs
    rw [List.mem_cons, not_or] at hc
    exact (stepSpec_byteOffset_le h hs (Ne.symm hc.1)).trans (ih (h.stepSpec hs).1 hr₁ hc.2)

/-- A patch below the cursor commutes with a run that avoids it. -/
theorem run_patch (h : w.Inv) (ho : o + bs.length ≤ w.byteOffset) {ops : List Op}
    (hops : ∀ op ∈ ops, op.Avoids o bs.length) :
    (w.patch o bs).run ops = (w.run ops).map fun (rs, w') => (rs, w'.patch o bs) := by
  induction ops generalizing w with
  | nil => rfl
  | cons op ops ih =>
    have hop := hops op (List.mem_cons_self _ _)
    have hp : (w.patch o bs).Inv := h.patch (by have := h.fits; omega)
    simp only [run, step_eq_stepSpec hp, step_eq_stepSpec h, stepSpec_patch h ho hop]
    cases hs : w.stepSpec op with
    | none => rfl
    | some p =>
      obtain ⟨r, w₁⟩ := p
      have ho₁ := ho.trans (stepSpec_byteOffset_le h hs (by rintro rfl; exact hop))
      simp only [Option.map_some', Option.bind_eq_bind, Option.some_bind]
      rw [ih (h.stepSpec hs).1 ho₁ fun op hm => hops op (List.mem_cons_of_mem _ hm)]
      cases w₁.run ops <;> rfl

/-- `consume()` after a patch below the cursor hands out the patched bytes. -/
theorem bitsToBytes_patch (h : w.Inv) (ho : o + bs.length ≤ w.byteOffset) :
    bitsToBytes (w.patch o bs).bits = writeBytes (bitsToBytes w.bits) o bs := by
  rw [← take_flushed (h.patch (by have := h.fits; omega)), ← take_flushed h, flushed_patch h ho,
    patch_buffer, patch_byteOffset,
    take_writeBytes_of_add_le (by simp; omega) h.flushed.byteOffset_le]

/-- A successful `skip(k)` or `get_next_byte_ptr(k)` returns the offset of `k` bytes below
    the new cursor. -/
theorem stepSpec_reserve {op : Op} {k : Nat} {w' : BitWriter}
    (hop : op = .skip k ∨ ∃ fill, op = .getNextBytePtr k fill)
    (hs : w.stepSpec op = some (.offset (.ok o), w')) : o + k ≤ w'.byteOffset := by
  rcases hop with rfl | ⟨fill, rfl⟩ <;> simp only [stepSpec] at hs <;> split_ifs at hs <;>
    simp only [Option.some.injEq, Prod.mk.injEq, Reply.offset.injEq, Except.ok.injEq, reduceCtorEq,
      false_and] at hs <;>
    obtain ⟨rfl, rfl⟩ := hs <;> simp

end

end BitWriter
end ParquetUtil
