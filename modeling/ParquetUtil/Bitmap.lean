/-
  The bitmap calls `set_array_bit` and `unset_array_bit`.

  Both are the compound assignment `bits[i / 8] op= ...` on bit `i % 8` of byte `i / 8`
  (`updateByte`), and panic on the index `bits[i / 8]` past the slice (`none` here).  A
  run of calls is a list of `BitmapCall`s.

  * `bitAt_apply`: one call sets (or clears) the bit `i` in the stream order `bitAt` of
    `Bits` and leaves every other bit, the bits of the same byte included;
  * `run_isSome_iff_indices_lt`: a run panics exactly when one of its indices lies past the slice;
  * `run_read_back`: after a run, each bit is the value of the last call at its index (the
    bit before the run if there is none), and a `BitReader` on the slice returns exactly
    these bits to `get_value(1)`: both calls use the reader's bit order.
-/
import ParquetUtil.ReaderRun

namespace ParquetUtil

/-- `bits[q] = f(bits[q])`, the compound assignment of both calls; indexing past the slice
    panics. -/
def updateByte (bits : List UInt8) (q : Nat) (f : UInt8 → UInt8) : Option (List UInt8) :=
  if q < bits.length then some (bits.set q (f (bits.getD q 0))) else none

/-- `set_array_bit(bits, i)`: `bits[i / 8] |= 1 << (i % 8)`. -/
def setArrayBit (bits : List UInt8) (i : Nat) : Option (List UInt8) :=
  updateByte bits (i / 8) (· ||| 1 <<< (i % 8).toUInt8)

/-- `unset_array_bit(bits, i)`: `bits[i / 8] &= !(1 << (i % 8))`. -/
def unsetArrayBit (bits : List UInt8) (i : Nat) : Option (List UInt8) :=
  updateByte bits (i / 8) (· &&& ~~~(1 <<< (i % 8).toUInt8))

/-! ## The bits of a byte -/

/-- The mask `1 << (i % 8)` as a number. -/
theorem toNat_bit_mask (i : Nat) : (1 <<< (i % 8).toUInt8 : UInt8).toNat = 2 ^ (i % 8) := by
  have hk : (i % 8).toUInt8.toBitVec.toNat = i % 8 := by
    show (BitVec.ofNat 8 (i % 8)).toNat = i % 8
    rw [BitVec.toNat_ofNat]; omega
  have h2 : 2 ^ (i % 8) < 2 ^ 8 := Nat.pow_lt_pow_right (by decide) (Nat.mod_lt i (by decide))
  show ((1 : UInt8).toBitVec <<< ((i % 8).toUInt8.toBitVec % 8)).toNat = _
  rw [BitVec.shiftLeft_eq', BitVec.toNat_shiftLeft, BitVec.toNat_umod, hk]
  simp only [BitVec.toNat_ofNat, Nat.shiftLeft_eq]
  rw [show (UInt8.toBitVec 1).toNat = 1 from rfl, show BitVec.toNat (8 : BitVec 8) = 8 from rfl,
    Nat.mod_mod, one_mul, Nat.mod_eq_of_lt h2]

theorem testBit_bit_mask (i k : Nat) :
    (1 <<< (i % 8).toUInt8 : UInt8).toNat.testBit k = decide (i % 8 = k) := by
  rw [toNat_bit_mask, Nat.testBit_two_pow]

theorem testBit_toNat_or (a b : UInt8) (k : Nat) :
    (a ||| b).toNat.testBit k = (a.toNat.testBit k || b.toNat.testBit k) :=
  BitVec.getLsbD_or

theorem testBit_toNat_and_not (a b : UInt8) {k : Nat} (hk : k < 8) :
    (a &&& ~~~b).toNat.testBit k = (a.toNat.testBit k && !b.toNat.testBit k) := by
  show (a.toBitVec &&& ~~~b.toBitVec).getLsbD k = (a.toBitVec.getLsbD k && !b.toBitVec.getLsbD k)
  rw [BitVec.getLsbD_and, BitVec.getLsbD_not, decide_eq_true hk, Bool.true_and]

/-! ## One call -/

section
variable {bits bits' : List UInt8} {q i : Nat} {f : UInt8 → UInt8}

theorem updateByte_isSome : (updateByte bits q f).isSome ↔ q < bits.length := by
  unfold updateByte
  by_cases h : q < bits.length
  · rw [if_pos h, Option.isSome_some]; exact iff_of_true rfl h
  · rw [if_neg h, Option.isSome_none]; exact iff_of_false Bool.false_ne_true h

/-- The update of byte `q` changes the bits of byte `q` only. -/
theorem bitAt_updateByte (h : updateByte bits q f = some bits') (j : Nat) :
    bits'.length = bits.length ∧
      bitAt bits' j = if j / 8 = q then (f (bits.getD q 0)).toNat.testBit (j % 8) else bitAt bits j := by
  unfold updateByte at h
  by_cases hq : q < bits.length
  · rw [if_pos hq, Option.some.injEq] at h
    subst h
    refine ⟨List.length_set .., ?_⟩
    unfold bitAt
    by_cases hj : j / 8 = q
    · subst hj
      rw [if_pos rfl, List.getD_eq_getElem?_getD, List.getElem?_set_self hq, Option.getD_some]
    · simp only [if_neg hj, List.getD_eq_getElem?_getD, List.getElem?_set_ne (Ne.symm hj)]
  · rw [if_neg hq] at h; cases h

/-- `set_array_bit` sets bit `i` and no other. -/
theorem bitAt_setArrayBit (h : setArrayBit bits i = some bits') (j : Nat) :
    bits'.length = bits.length ∧ bitAt bits' j = (decide (i = j) || bitAt bits j) := by
  obtain ⟨hl, hb⟩ := bitAt_updateByte h j
  refine ⟨hl, hb.trans ?_⟩
  by_cases hj : j / 8 = i / 8
  · have hij : decide (i % 8 = j % 8) = decide (i = j) := decide_eq_decide.2 (by omega)
    rw [if_pos hj, testBit_toNat_or, testBit_bit_mask, hij, bitAt, hj, Bool.or_comm]
  · rw [if_neg hj, decide_eq_false (show i ≠ j by rintro rfl; exact hj rfl), Bool.false_or]

/-- `unset_array_bit` clears bit `i` and no other. -/
theorem bitAt_unsetArrayBit (h : unsetArrayBit bits i = some bits') (j : Nat) :
    bits'.length = bits.length ∧ bitAt bits' j = (!decide (i = j) && bitAt bits j) := by
  obtain ⟨hl, hb⟩ := bitAt_updateByte h j
  refine ⟨hl, hb.trans ?_⟩
  by_cases hj : j / 8 = i / 8
  · have hij : decide (i % 8 = j % 8) = decide (i = j) := decide_eq_decide.2 (by omega)
    rw [if_pos hj, testBit_toNat_and_not _ _ (Nat.mod_lt j (by decide)), testBit_bit_mask, hij,
      bitAt, hj, Bool.and_comm]
  · rw [if_neg hj, decide_eq_false (show i ≠ j by rintro rfl; exact hj rfl), Bool.not_false,
      Bool.true_and]

end

/-! ## Runs of calls -/

/-- A call on a bitmap slice. -/
inductive BitmapCall
  | set (i : Nat)
  | unset (i : Nat)
  deriving Repr, DecidableEq

namespace BitmapCall

/-- The bit index of a call. -/
def index : BitmapCall → Nat
  | set i | unset i => i

/-- The value a call leaves in its bit. -/
def value : BitmapCall → Bool
  | set _ => true
  | unset _ => false

/-- One call on `bits`. -/
def apply (bits : List UInt8) : BitmapCall → Option (List UInt8)
  | set i => setArrayBit bits i
  | unset i => unsetArrayBit bits i

/-- The calls `cs` on `bits`, in order; `none` when one of them panics. -/
def run (bits : List UInt8) : List BitmapCall → Option (List UInt8)
  | [] => some bits
  | c :: cs => (c.apply bits).bind (run · cs)

/-- Spec reference: bit `j` after the calls `cs`, from the bit `b` before them:
    the value of the last call at `j`, or `b` if there is none. -/
def lastWrite (j : Nat) (b : Bool) (cs : List BitmapCall) : Bool :=
  ((cs.filter (·.index == j)).getLast?.map value).getD b

section
variable {bits bits' : List UInt8} {c : BitmapCall} {cs : List BitmapCall}

theorem apply_isSome : (c.apply bits).isSome ↔ c.index < 8 * bits.length := by
  have h : ∀ i, i / 8 < bits.length ↔ i < 8 * bits.length := fun i => by omega
  cases c <;> rw [apply, index] <;> exact updateByte_isSome.trans (h _)

/-- **One call.** -/
theorem bitAt_apply (h : c.apply bits = some bits') (j : Nat) :
    bits'.length = bits.length ∧ bitAt bits' j = if c.index = j then c.value else bitAt bits j := by
  cases c with
  | set i => rw [index, value, Bool.if_true_left]; exact bitAt_setArrayBit h j
  | unset i => rw [index, value, Bool.if_false_left]; exact bitAt_unsetArrayBit h j

theorem run_append (bits : List UInt8) (cs ds : List BitmapCall) :
    run bits (cs ++ ds) = (run bits cs).bind (run · ds) := by
  induction cs generalizing bits with
  | nil => rfl
  | cons c cs ih =>
    simp only [List.cons_append, run]
    cases c.apply bits <;> simp [ih]

theorem lastWrite_append_call (j : Nat) (b : Bool) (cs : List BitmapCall) (c : BitmapCall) :
    lastWrite j b (cs ++ [c]) = if c.index = j then c.value else lastWrite j b cs := by
  unfold lastWrite
  by_cases hj : c.index = j <;> simp [List.filter_append, hj]

/-- **What a run leaves**: the length of the slice, and each bit as `lastWrite` says. -/
theorem run_bitAt (h : run bits cs = some bits') :
    bits'.length = bits.length ∧ ∀ j, bitAt bits' j = lastWrite j (bitAt bits j) cs := by
  induction cs using List.reverseRecOn generalizing bits' with
  | nil =>
    cases h
    exact ⟨rfl, fun _ => rfl⟩
  | append_singleton cs c ih =>
    rw [run_append] at h
    obtain ⟨mid, hmid, hc⟩ := Option.bind_eq_some.1 h
    simp only [run, Option.bind_some] at hc
    obtain ⟨hl, hb⟩ := ih hmid
    refine ⟨(bitAt_apply hc 0).1.trans hl, fun j => ?_⟩
    rw [(bitAt_apply hc j).2, lastWrite_append_call, hb]

/-- **When a run panics**: exactly when one of its indices lies past the slice. -/
theorem run_isSome_iff_indices_lt : (run bits cs).isSome ↔ ∀ c ∈ cs, c.index < 8 * bits.length := by
  induction cs generalizing bits with
  | nil => simp [run]
  | cons c cs ih =>
    rw [run, List.forall_mem_cons]
    cases hc : c.apply bits with
    | none =>
      have := apply_isSome.not.1 (by rw [hc]; decide)
      simp only [Option.none_bind, Option.isSome_none, Bool.false_eq_true, false_iff]
      exact fun h => this h.1
    | some mid =>
      rw [Option.some_bind, ih, (bitAt_apply hc 0).1]
      exact ⟨fun h => ⟨apply_isSome.1 (by rw [hc]; rfl), h⟩, And.right⟩

end

end BitmapCall

/-! ## Reading a bitmap back -/

namespace Cursor

/-- `n` reads of one bit each from `p`. -/
theorem readAll_bits {b : List UInt8} {p n : Nat} (h : p + n ≤ 8 * b.length) :
    readAll b p (List.replicate n (.getValue 1 1)) =
      ((List.range' p n).map fun j => .ok (bitAt b j).toNat, p + n) := by
  induction n generalizing p with
  | zero => rfl
  | succ n ih =>
    rw [List.replicate_succ, readAll, List.range'_succ, List.map_cons]
    have h₁ : read b p (.getValue 1 1) = (.ok (bitAt b p).toNat, p + 1) := by
      rw [read, getValue, if_neg (by omega), bitsValue, bitsValue, bit_eq, Nat.mul_zero,
        Nat.add_zero]
    rw [h₁, ih (by omega), Nat.add_right_comm, Nat.add_assoc]

end Cursor

namespace BitmapCall

/-- **A run, read back.**  After a run of calls that does not panic, the slice keeps its
    length and a `BitReader` on it returns, to `n` calls of `get_value(1)`, the bits `0 .. n`
    that `lastWrite` gives. -/
theorem run_read_back {bits bits' : List UInt8} {cs : List BitmapCall}
    (h : run bits cs = some bits') {n : Nat} (hn : n ≤ 8 * bits.length) :
    bits'.length = bits.length ∧ ∃ r r', BitReader.new (ByteBufferPtr.new bits') = some r ∧
      r.readAll (List.replicate n (.getValue 1 1)) =
        some ((List.range n).map fun j => .ok (lastWrite j (bitAt bits j) cs).toNat, r') := by
  obtain ⟨hl, hb⟩ := run_bitAt h
  have hcs : ∀ c ∈ List.replicate n (BitReader.Read.getValue 1 1), c.valid := by
    intro c hc
    rw [List.eq_of_mem_replicate hc]
    rfl
  obtain ⟨r', hr, -⟩ := (BitReader.tracks_new (ByteBufferPtr.new bits')).readAll hcs
  refine ⟨hl, _, r', BitReader.new_eq _, ?_⟩
  rw [hr, ByteBufferPtr.asRef_new, Cursor.readAll_bits (by omega), List.range_eq_range']
  simp only [hb]

theorem run_read_back_two_bytes :
    run [0x0F, 0] [.set 9, .unset 1, .set 1, .unset 3] = some [0x07, 0x02] ∧
      ([0x07, 0x02] : List UInt8).length = ([0x0F, 0] : List UInt8).length ∧
      ∃ r r', BitReader.new (ByteBufferPtr.new [0x07, 0x02]) = some r ∧
        r.readAll (List.replicate 16 (.getValue 1 1)) =
          some ((List.range 16).map fun j =>
            .ok (lastWrite j (bitAt [0x0F, 0] j) [.set 9, .unset 1, .set 1, .unset 3]).toNat, r') :=
  have h : run [0x0F, 0] [.set 9, .unset 1, .set 1, .unset 3] = some [0x07, 0x02] := by decide
  ⟨h, run_read_back h (by decide)⟩

end BitmapCall

end ParquetUtil
