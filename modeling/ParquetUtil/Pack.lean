/-
  The bytes a run of writes produces.

  `pack` is the plain bit-list encoder of the writer's output: `put_value` appends the
  `n` low bits of `v`, `flush` and every aligned call first pad to a byte, and the result
  is padded to a whole byte.  `run_bits` shows that a run of writes that all succeed
  leaves exactly `pack`'s stream in the writer, so `consume()` returns `pack ops`
  (`consume_pack`).

  * `run_frames`: a run mixing writes and `consume()` calls hands out, call by call, the
    stream cut at every `consume()` (`frames`);
  * `putVlqInt_true_or_panics`: `put_vlq_int` either writes its whole encoding, at most ten
    bytes, and returns `true`, or panics; it never returns `false`.
-/
import ParquetUtil.WriterFrame

namespace ParquetUtil
namespace BitWriter

/-- Spec reference: the bits a write appends to the stream `l`. -/
def emit (l : List Bool) : Op → List Bool
  | .putValue v n => l ++ bitsOf v n
  | .putAligned x k => pad l ++ bytesBits (leBytes x k)
  | .putVlqInt u => pad l ++ bytesBits (vlqBytes u.toNat)
  | .putZigzagVlqInt s => pad l ++ bytesBits (vlqBytes ((s <<< 1) ^^^ s.sshiftRight 63).toNat)
  | .flush => pad l
  | _ => l

/-- Spec reference: the plain bit-list encoder of a run of writes. -/
def pack (ops : List Op) : List UInt8 := bitsToBytes (ops.foldl emit [])

/-- The calls `pack` describes. -/
def Op.isWrite : Op → Bool
  | .putValue .. | .putAligned .. | .putVlqInt _ | .putZigzagVlqInt _ | .flush => true
  | _ => false

section
variable {w w' : BitWriter} {op : Op} {r : Reply}

@[simp] theorem bits_new (m : Nat) : (new m).bits = [] := by simp [bits, new, bitsOf, bytesBits]

/-- A write that goes through appends what `emit` says. -/
theorem bits_stepSpec (h : w.Inv) (hop : op.isWrite) (hs : w.stepSpec op = some (r, w'))
    (hr : r = .bool true ∨ r = .unit) : w'.bits = emit w.bits op := by
  cases op <;> simp only [Op.isWrite, Bool.false_eq_true] at hop <;> simp only [stepSpec] at hs
  case putValue v n =>
    split_ifs at hs with h₁ <;> cases hs
    · simp at hr
    · exact bits_putBits h h₁.1
  case putAligned x k =>
    split_ifs at hs <;> cases hs
    · simp at hr
    · exact bits_alignedWrite h _
  case putVlqInt u =>
    split_ifs at hs; cases hs
    exact bits_alignedWrite h _
  case putZigzagVlqInt s =>
    split_ifs at hs; cases hs
    exact bits_alignedWrite h _
  case flush =>
    cases hs
    exact bits_flushed h

theorem run_bits (h : w.Inv) {ops : List Op} {rs : List Reply} (hops : ∀ op ∈ ops, op.isWrite)
    (hr : w.run ops = some (rs, w')) (hok : ∀ r ∈ rs, r = .bool true ∨ r = .unit) :
    w'.bits = ops.foldl emit w.bits := by
  induction ops generalizing w rs with
  | nil => obtain ⟨-, rfl⟩ := Prod.mk.inj (Option.some.inj hr); rfl
  | cons op ops ih =>
    obtain ⟨r, w₁, rs₁, hs, hr₁, rfl⟩ := run_cons_eq_some.1 hr
    rw [step_eq_stepSpec h] at hs
    rw [List.foldl_cons, ← bits_stepSpec h (hops op (List.mem_cons_self _ _)) hs
      (hok r (List.mem_cons_self _ _))]
    exact ih (h.stepSpec hs).1 (fun op hm => hops op (List.mem_cons_of_mem _ hm)) hr₁
      fun r hm => hok r (List.mem_cons_of_mem _ hm)

end

/-- **The writer packs bits.**  After any run of `put_value`, `put_aligned`,
    `put_vlq_int`, `put_zigzag_vlq_int` and `flush` calls on `BitWriter::new(m)` that all
    succeed, `consume()` returns the bytes `pack` encodes, and `bytes_written()` is their
    number. -/
theorem consume_pack {m : Nat} {ops : List Op} {rs : List Reply} {w : BitWriter}
    (hops : ∀ op ∈ ops, op.isWrite) (hr : (new m).run ops = some (rs, w))
    (hok : ∀ r ∈ rs, r = .bool true ∨ r = .unit) :
    w.consume = some (ByteBufferPtr.new (pack ops), new m) ∧ w.bytesWritten = (pack ops).length := by
  obtain ⟨h, hm⟩ := (Reachable.new.run hr).inv
  have hb : w.bits = ops.foldl emit [] := by rw [run_bits (inv_new m) hops hr hok, bits_new]
  refine ⟨by rw [consume_eq h, hb, hm]; rfl, ?_⟩
  rw [pack, length_bitsToBytes, ← hb, h.length_bits, bytesWritten_eq]
  omega

theorem consume_pack_vlq_value_byte :
    (∀ op ∈ [Op.putVlqInt 300, .putValue 5 3, .flush, .putAligned 7 1], op.isWrite) ∧
      (new 4).run [.putVlqInt 300, .putValue 5 3, .flush, .putAligned 7 1] =
        some ([.bool true, .bool true, .unit, .bool true], ⟨[172, 2, 5, 7], 4, 0, 4, 0⟩) ∧
      (⟨[172, 2, 5, 7], 4, 0, 4, 0⟩ : BitWriter).consume =
        some (ByteBufferPtr.new (pack [.putVlqInt 300, .putValue 5 3, .flush, .putAligned 7 1]),
          new 4) := by
  have hops : ∀ op ∈ [Op.putVlqInt 300, .putValue 5 3, .flush, .putAligned 7 1], op.isWrite := by
    decide
  have h₁ : (new 4).step (.putVlqInt 300) = some (.bool true, ⟨[172, 2, 0, 0], 4, 0, 2, 0⟩) := by
    rw [step_eq_stepSpec (inv_new 4), stepSpec,
      show vlqBytes (BitVec.toNat 300) = [172, 2] by simp [vlqBytes], if_pos (by decide)]
    rfl
  have hr : (new 4).run [.putVlqInt 300, .putValue 5 3, .flush, .putAligned 7 1] =
      some ([.bool true, .bool true, .unit, .bool true], ⟨[172, 2, 5, 7], 4, 0, 4, 0⟩) := by
    rw [run, h₁]
    rfl
  exact ⟨hops, hr, (consume_pack hops hr (by simp)).1⟩

/-! ## Frames -/

/-- Spec reference: the byte views the `consume()` calls of a run of writes hand out,
    from a writer holding the stream `l`, and the stream it holds at the end: each
    `consume()` hands out the stream so far, packed into bytes, and starts a new one. -/
def frames (l : List Bool) : List Op → List ByteBufferPtr × List Bool
  | [] => ([], l)
  | .consume :: ops => (ByteBufferPtr.new (bitsToBytes l) :: (frames [] ops).1, (frames [] ops).2)
  | op :: ops => frames (emit l op) ops

section
variable {w w' : BitWriter} {op : Op} {r : Reply}

theorem frames_write (hop : op.isWrite) (l : List Bool) (ops : List Op) :
    frames l (op :: ops) = frames (emit l op) ops := by
  cases op <;> simp only [Op.isWrite, Bool.false_eq_true] at hop <;> rfl

/-- A write that does not report failure replies `true`, or `()` for `flush`. -/
theorem reply_of_write (hop : op.isWrite) (hs : w.stepSpec op = some (r, w'))
    (hf : r.failed = false) : r = .bool true ∨ r = .unit := by
  cases op <;> simp only [Op.isWrite, Bool.false_eq_true] at hop <;> simp only [stepSpec] at hs <;>
    (try split_ifs at hs) <;> simp only [Option.some.injEq, Prod.mk.injEq] at hs <;>
    obtain ⟨rfl, -⟩ := hs <;>
    simp only [Reply.failed, Bool.not_false, Bool.not_true, reduceCtorEq, true_or, or_true] at hf ⊢

end

/-- **`consume()` frames the stream.**  After any run of writes and `consume()` calls on a
    writer reachable from `BitWriter::new(m)`, none reporting failure, the `consume()` calls
    have handed out, in order, the stream held before the run and each write's bits, cut at
    every `consume()` and packed into bytes, and the writer holds what follows the last
    `consume()`. -/
theorem run_frames {m : Nat} {w w' : BitWriter} (hw : Reachable m w) {ops : List Op}
    {rs : List Reply} (hops : ∀ op ∈ ops, op.isWrite ∨ op = .consume)
    (hr : w.run ops = some (rs, w')) (hok : ∀ r ∈ rs, r.failed = false) :
    outputs rs = (frames w.bits ops).1 ∧ w'.bits = (frames w.bits ops).2 := by
  induction ops generalizing w rs with
  | nil =>
    obtain ⟨rfl, rfl⟩ := Prod.mk.inj (Option.some.inj hr)
    exact ⟨rfl, rfl⟩
  | cons op ops ih =>
    obtain ⟨r, w₁, rs₁, hs, hr₁, rfl⟩ := run_cons_eq_some.1 hr
    obtain ⟨hout, hbits⟩ := ih (hw.step hs) (fun op hm => hops op (List.mem_cons_of_mem _ hm)) hr₁
      fun r hm => hok r (List.mem_cons_of_mem _ hm)
    have h := hw.inv.1
    rw [step_eq_stepSpec h] at hs
    rcases hops op (List.mem_cons_self _ _) with hop | rfl
    · have hr := reply_of_write hop hs (hok r (List.mem_cons_self _ _))
      rw [frames_write hop, ← bits_stepSpec h hop hs hr]
      refine ⟨?_, hbits⟩
      rcases hr with rfl | rfl <;> exact hout
    · simp only [stepSpec, Option.some.injEq, Prod.mk.injEq] at hs
      obtain ⟨rfl, rfl⟩ := hs
      rw [bits_new] at hout hbits
      exact ⟨congrArg _ hout, hbits⟩

theorem run_frames_two :
    Reachable 2 (new 2) ∧
      (∀ op ∈ [Op.putValue 5 3, .consume, .putAligned 7 1], op.isWrite ∨ op = .consume) ∧
      (new 2).run [.putValue 5 3, .consume, .putAligned 7 1] =
        some ([.bool true, .bytes (ByteBufferPtr.new [5]), .bool true], ⟨[7, 0], 2, 0, 1, 0⟩) ∧
      outputs [.bool true, .bytes (ByteBufferPtr.new [5]), .bool true] =
        (frames [] [.putValue 5 3, .consume, .putAligned 7 1]).1 ∧
      (⟨[7, 0], 2, 0, 1, 0⟩ : BitWriter).bits = (frames [] [.putValue 5 3, .consume, .putAligned 7 1]).2 :=
  have hops : ∀ op ∈ [Op.putValue 5 3, .consume, .putAligned 7 1], op.isWrite ∨ op = .consume :=
    List.forall_mem_cons.2 ⟨.inl rfl, List.forall_mem_cons.2 ⟨.inr rfl,
      List.forall_mem_singleton.2 (.inl rfl)⟩⟩
  have hr : (new 2).run [.putValue 5 3, .consume, .putAligned 7 1] =
      some ([.bool true, .bytes (ByteBufferPtr.new [5]), .bool true], ⟨[7, 0], 2, 0, 1, 0⟩) := rfl
  ⟨.new, hops, hr, run_frames .new hops hr (by decide)⟩

/-! ## The length of a VLQ -/

theorem vlqBytes_ne_nil (u : Nat) : vlqBytes u ≠ [] := by
  rw [vlqBytes]; split <;> exact List.cons_ne_nil _ _

/-- `k + 1` VLQ bytes hold exactly the values below `2 ^ (7 (k + 1))`. -/
theorem length_vlqBytes_le_iff (u k : Nat) :
    (vlqBytes u).length ≤ k + 1 ↔ u < 2 ^ (7 * (k + 1)) := by
  induction u using vlqBytes.induct generalizing k with
  | case1 u hu =>
    rw [vlqBytes, if_pos hu, List.length_singleton]
    have : 2 ^ 7 ≤ 2 ^ (7 * (k + 1)) := Nat.pow_le_pow_right (by decide) (by omega)
    omega
  | case2 u hu ih =>
    rw [vlqBytes, if_neg hu, List.length_cons]
    cases k with
    | zero =>
      have := List.length_pos.2 (vlqBytes_ne_nil (u / 128))
      rw [show 2 ^ (7 * (0 + 1)) = 128 from rfl]
      omega
    | succ k =>
      rw [Nat.add_le_add_iff_right, ih k, Nat.div_lt_iff_lt_mul (by decide),
        show 2 ^ (7 * (k + 1 + 1)) = 2 ^ (7 * (k + 1)) * 128 by rw [Nat.mul_succ, Nat.pow_add]]

/-- **`put_vlq_int` never returns `false`.**  On every writer reachable from
    `BitWriter::new(m)`, `put_vlq_int(v)` either writes the whole encoding and returns
    `true`, or panics (in the `get_next_byte_ptr` of a group that finds the buffer full);
    it goes through exactly when the encoding fits, and the encoding takes `k + 1` bytes
    or fewer exactly when `v < 2 ^ (7 (k + 1))`, so ten bytes always suffice for a `u64`. -/
theorem putVlqInt_true_or_panics {m : Nat} {w : BitWriter} (hw : Reachable m w) (v : BitVec 64) :
    (∀ r w', w.step (.putVlqInt v) = some (r, w') → r = .bool true) ∧
      ((w.step (.putVlqInt v)).isSome ↔ w.bytesWritten + (vlqBytes v.toNat).length ≤ w.maxBytes) ∧
      (∀ k, (vlqBytes v.toNat).length ≤ k + 1 ↔ v.toNat < 2 ^ (7 * (k + 1))) ∧
      (vlqBytes v.toNat).length ≤ 10 := by
  have hten := (length_vlqBytes_le_iff v.toNat 9).2
    (lt_of_lt_of_le v.isLt (Nat.pow_le_pow_right (by decide) (by decide)))
  rw [step_eq_stepSpec hw.inv.1, stepSpec]
  by_cases hfit : w.bytesWritten + (vlqBytes v.toNat).length ≤ w.maxBytes
  · rw [if_pos hfit]
    exact ⟨fun r w' h => (Prod.mk.inj (Option.some.inj h)).1.symm, ⟨fun _ => hfit, fun _ => rfl⟩,
      length_vlqBytes_le_iff _, hten⟩
  · rw [if_neg hfit]
    exact ⟨fun _ _ h => Option.noConfusion h,
      ⟨fun h => absurd h Bool.false_ne_true, fun h => absurd h hfit⟩, length_vlqBytes_le_iff _, hten⟩

theorem putVlqInt_true_or_panics_full :
    Reachable 1 (new 1) ∧ (new 1).step (.putVlqInt 300) = none := by
  have h := putVlqInt_true_or_panics (Reachable.new : Reachable 1 (new 1)) 300
  refine ⟨.new, Option.not_isSome_iff_eq_none.1 fun hs => ?_⟩
  have hfit := h.2.1.1 hs
  rw [show (new 1).bytesWritten = 0 by decide, show (new 1).maxBytes = 1 from rfl] at hfit
  exact absurd ((h.2.2.1 0).1 (by omega)) (by decide)

end BitWriter
end ParquetUtil
