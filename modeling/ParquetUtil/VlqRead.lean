/-
  What `get_vlq_int` returns, in terms of the bytes from the cursor.

  For the bytes `l` from byte `byte_offset + ⌈bit_offset / 8⌉` on, `continuationBit l i` is
  bit 7 of byte `i` if that byte exists, `EndsAt l j` says that bytes `0..j` exist, that bytes
  `0..j-1` carry the continuation bit and that byte `j` does not, and `groupsValue l j` is
  `Σ_{i ≤ j} (l_i & 0x7F) · 2^(7i)`.

  * `vlqScan_of_endsAt`, `vlqScan_error`: the loop returns `groupsValue l j` after `j + 1`
    bytes when the read ends at a byte `j` within the groups left, and an error otherwise;
  * `not_endsAt_cause`: a read that ends nowhere below `n` has its first `n` bytes all
    carrying the continuation bit, or runs out of bytes before a terminating one;
  * `getVlqInt_groups`: on every reachable reader, `get_vlq_int` returns `Ok(groupsValue l j)`,
    byte-aligned right after byte `j`, exactly when the read ends at some `j < 5`, and an
    error otherwise;
  * `getVlqInt_putVlqInt`: `put_vlq_int` of the value read goes through on a new writer with
    room for the bytes read, and writes them back exactly when they are the shortest
    encoding.
-/
import ParquetUtil.RoundTrip

namespace ParquetUtil

/-! ## The bytes from the cursor -/

/-- Spec reference: bit 7, the continuation bit, of byte `i` of `l`, if there is one. -/
def continuationBit (l : List UInt8) (i : Nat) : Option Bool :=
  l[i]?.map fun byte => byte.toNat.testBit 7

/-- Spec reference: a VLQ read of `l` ends at byte `j`: bytes `0..j` exist, bytes
    `0..j-1` carry the continuation bit and byte `j` does not. -/
def EndsAt (l : List UInt8) (j : Nat) : Prop :=
  (∀ i < j, continuationBit l i = some true) ∧ continuationBit l j = some false

instance (l : List UInt8) (j : Nat) : Decidable (EndsAt l j) :=
  inferInstanceAs (Decidable (_ ∧ _))

/-- Spec reference: the seven-bit groups of bytes `0..j` of `l`, the least significant
    first, `Σ_{i ≤ j} (l_i & 0x7F) · 2^(7i)`. -/
def groupsValue (l : List UInt8) (j : Nat) : Nat :=
  ∑ i in Finset.range (j + 1), ((l.getD i 0).toNat &&& 0x7F) * 2 ^ (7 * i)

section
variable {byte : UInt8} {bs : List UInt8}

@[simp] theorem continuationBit_nil (i : Nat) : continuationBit [] i = none := rfl

@[simp] theorem continuationBit_cons_zero :
    continuationBit (byte :: bs) 0 = some (byte.toNat.testBit 7) := by
  simp [continuationBit]

@[simp] theorem continuationBit_cons_succ (i : Nat) :
    continuationBit (byte :: bs) (i + 1) = continuationBit bs i := by
  simp [continuationBit]

theorem endsAt_cons_zero : EndsAt (byte :: bs) 0 ↔ byte.toNat.testBit 7 = false := by
  simp [EndsAt]

theorem endsAt_cons_succ {j : Nat} :
    EndsAt (byte :: bs) (j + 1) ↔ byte.toNat.testBit 7 = true ∧ EndsAt bs j := by
  simp only [EndsAt, Nat.forall_lt_succ_left, continuationBit_cons_zero, continuationBit_cons_succ,
    Option.some.injEq, and_assoc]

theorem groupsValue_cons_zero : groupsValue (byte :: bs) 0 = byte.toNat % 128 := by
  simp [groupsValue, and_0x7F]

theorem groupsValue_cons_succ (j : Nat) :
    groupsValue (byte :: bs) (j + 1) = byte.toNat % 128 + 128 * groupsValue bs j := by
  have hg (i : Nat) : ((byte :: bs).getD (i + 1) 0).toNat % 128 * 2 ^ (7 * (i + 1)) =
      128 * ((bs.getD i 0).toNat % 128 * 2 ^ (7 * i)) := by
    rw [List.getD_cons_succ, Nat.mul_succ, pow_add]; ring
  simp only [groupsValue, and_0x7F, Finset.sum_range_succ' _ (j + 1), hg, ← Finset.mul_sum]
  rw [List.getD_cons_zero, Nat.mul_zero, pow_zero, mul_one, add_comm]

end

/-- The test of `get_vlq_int` on a byte, `byte & 0x80 == 0`, is bit 7 clear. -/
theorem and_0x80_eq_zero_iff (byte : UInt8) : byte.toNat &&& 0x80 = 0 ↔ byte.toNat.testBit 7 = false := by
  rw [show (0x80 : Nat) = 2 ^ 7 from rfl, Nat.and_two_pow]
  cases byte.toNat.testBit 7 <;> simp

/-! ## The scan -/

/-- A read that ends at byte `j` within the groups left returns the groups of bytes `0..j`
    after `j + 1` bytes. -/
theorem vlqScan_of_endsAt {l : List UInt8} {j k : Nat} (he : EndsAt l j) (hk : k + j < 5)
    (v : BitVec 64) :
    vlqScan l (7 * k) v = (.ok (v ||| BitVec.ofNat 64 (groupsValue l j) <<< (7 * k)), j + 1) := by
  induction l generalizing j k v with
  | nil => simp [EndsAt] at he
  | cons byte bs ih =>
    have hs : ¬7 * k + 7 > maxVlqByteLen * 7 := by simp only [maxVlqByteLen]; omega
    cases j with
    | zero =>
      simp only [vlqScan, if_neg hs, (and_0x80_eq_zero_iff byte).2 (endsAt_cons_zero.1 he), if_true,
        groupsValue_cons_zero, and_0x7F]
    | succ j =>
      obtain ⟨hb, he'⟩ := endsAt_cons_succ.1 he
      have hc : ¬byte.toNat &&& 0x80 = 0 := by rw [and_0x80_eq_zero_iff, hb]; decide
      have hg := group_shiftLeft (byte.toNat % 128 + 128 * groupsValue bs j) (7 * k)
      rw [show (byte.toNat % 128 + 128 * groupsValue bs j) % 128 = byte.toNat % 128 by omega,
        show (byte.toNat % 128 + 128 * groupsValue bs j) / 128 = groupsValue bs j by omega] at hg
      have ih' := ih he' (k := k + 1) (by omega)
      rw [Nat.mul_succ] at ih'
      simp only [vlqScan, if_neg hs, if_neg hc, ih', groupsValue_cons_succ, and_0x7F,
        BitVec.or_assoc, hg]

/-- A read that ends nowhere within the groups left fails. -/
theorem vlqScan_error {l : List UInt8} {k : Nat} (hk : k ≤ 5) (h : ∀ j, k + j < 5 → ¬EndsAt l j)
    (v : BitVec 64) : ∃ e, (vlqScan l (7 * k) v).1 = .error e := by
  induction l generalizing k v with
  | nil => exact ⟨_, rfl⟩
  | cons byte bs ih =>
    by_cases hs : 7 * k + 7 > maxVlqByteLen * 7
    · simp only [vlqScan, if_pos hs]
      exact ⟨_, rfl⟩
    have hb : byte.toNat.testBit 7 = true := by
      by_contra hb
      exact h 0 (by simp only [maxVlqByteLen] at hs; omega) (endsAt_cons_zero.2 (by simpa using hb))
    have hc : ¬byte.toNat &&& 0x80 = 0 := by rw [and_0x80_eq_zero_iff, hb]; decide
    have ih' := ih (k := k + 1) (by simp only [maxVlqByteLen] at hs; omega)
      (fun j hj he => h (j + 1) (by omega) (endsAt_cons_succ.2 ⟨hb, he⟩))
      (v ||| BitVec.ofNat 64 (byte.toNat &&& 0x7F) <<< (7 * k))
    rw [Nat.mul_succ] at ih'
    simpa only [vlqScan, if_neg hs, if_neg hc] using ih'

/-- A read that ends nowhere below `n` finds the continuation bit on its first `n` bytes, or
    runs out of bytes before a terminating one. -/
theorem not_endsAt_cause {l : List UInt8} {n : Nat} (h : ∀ j < n, ¬EndsAt l j) :
    (∀ i < n, continuationBit l i = some true) ∨
      ∃ m, (∀ i < m, continuationBit l i = some true) ∧ continuationBit l m = none := by
  induction l generalizing n with
  | nil => exact .inr ⟨0, fun _ h => absurd h (Nat.not_lt_zero _), rfl⟩
  | cons byte bs ih =>
    cases n with
    | zero => exact .inl fun _ h => absurd h (Nat.not_lt_zero _)
    | succ n =>
      have hb : byte.toNat.testBit 7 = true := by
        by_contra hb
        exact h 0 (Nat.succ_pos n) (endsAt_cons_zero.2 (by simpa using hb))
      rcases ih (n := n) fun j hj he => h (j + 1) (by omega) (endsAt_cons_succ.2 ⟨hb, he⟩) with
        h' | ⟨m, hm, hnone⟩
      · exact .inl (Nat.forall_lt_succ_left.2 ⟨by simpa using hb, by simpa using h'⟩)
      · exact .inr ⟨m + 1, Nat.forall_lt_succ_left.2 ⟨by simpa using hb, by simpa using hm⟩,
          by simpa using hnone⟩

/-! ## Decoding, then encoding -/

theorem testBit_seven_eq_false_iff (byte : UInt8) :
    byte.toNat.testBit 7 = false ↔ byte.toNat < 128 := by
  rw [← and_0x80_eq_zero_iff, and_0x80_eq byte.toNat_lt]
  split_ifs with h <;> simp [h]

theorem ofNat_toNat_uint8 (byte : UInt8) : UInt8.ofNat byte.toNat = byte :=
  UInt8.toNat.inj (UInt8.toNat_ofNat_of_lt byte.toNat_lt)

/-- Byte `i` exists and carries the bit `continuationBit` reports. -/
theorem getD_of_continuationBit {l : List UInt8} {i : Nat} {c : Bool}
    (h : continuationBit l i = some c) : i < l.length ∧ (l.getD i 0).toNat.testBit 7 = c := by
  unfold continuationBit at h
  cases hl : l[i]? with
  | none => simp [hl] at h
  | some b =>
    simp only [hl, Option.map_some', Option.some.injEq] at h
    refine ⟨(by by_contra hc; rw [List.getElem?_eq_none (by omega)] at hl; cases hl), ?_⟩
    rw [List.getD_eq_getElem?_getD, hl, Option.getD_some, h]

theorem groupsValue_lt (l : List UInt8) (j : Nat) : groupsValue l j < 2 ^ (7 * (j + 1)) := by
  induction j with
  | zero => simp [groupsValue, and_0x7F]; omega
  | succ j ih =>
    rw [groupsValue, Finset.sum_range_succ, ← groupsValue, and_0x7F]
    have h := Nat.mod_lt (l.getD (j + 1) 0).toNat (show 0 < 128 by decide)
    have hA := Nat.mul_le_mul_right (2 ^ (7 * (j + 1))) (Nat.le_of_lt_succ h)
    have hp : 2 ^ (7 * (j + 1 + 1)) = 128 * 2 ^ (7 * (j + 1)) := by
      rw [show 7 * (j + 1 + 1) = 7 + 7 * (j + 1) by omega, pow_add]; rfl
    rw [hp]
    omega

/-- The last byte of a read that ends at `j` is `0` if all its groups are. -/
theorem getD_eq_zero_of_groupsValue {l : List UInt8} {j : Nat} (he : EndsAt l j)
    (h : groupsValue l j = 0) : l.getD j 0 = 0 := by
  have hle : ((l.getD j 0).toNat &&& 0x7F) * 2 ^ (7 * j) ≤ groupsValue l j :=
    Finset.single_le_sum (f := fun i => ((l.getD i 0).toNat &&& 0x7F) * 2 ^ (7 * i))
      (fun _ _ => Nat.zero_le _) (Finset.self_mem_range_succ j)
  have hlt := (testBit_seven_eq_false_iff _).1 (getD_of_continuationBit he.2).2
  rw [h, and_0x7F, Nat.mod_eq_of_lt hlt, Nat.le_zero, Nat.mul_eq_zero] at hle
  exact UInt8.toNat.inj (hle.resolve_right (Nat.pos_pow_of_pos _ (by decide)).ne')

/-- Encoding the groups of a read that ends at `j` gives back the bytes it read exactly when
    they are the shortest encoding: one byte, or a last byte other than `0`. -/
theorem vlqBytes_groupsValue {l : List UInt8} {j : Nat} (he : EndsAt l j) :
    vlqBytes (groupsValue l j) = l.take (j + 1) ↔ j = 0 ∨ l.getD j 0 ≠ 0 := by
  induction l generalizing j with
  | nil => simp [EndsAt] at he
  | cons byte bs ih =>
    cases j with
    | zero =>
      have hb := (testBit_seven_eq_false_iff byte).1 (endsAt_cons_zero.1 he)
      rw [groupsValue_cons_zero, Nat.mod_eq_of_lt hb, vlqBytes, if_pos hb, ofNat_toNat_uint8]
      simp only [Nat.zero_add, List.take_succ_cons, List.take_zero, true_or]
    | succ j =>
      obtain ⟨hb, he'⟩ := endsAt_cons_succ.1 he
      have hb' : 128 ≤ byte.toNat := by
        by_contra h
        rw [(testBit_seven_eq_false_iff byte).2 (by omega)] at hb
        cases hb
      have hlen := (getD_of_continuationBit he'.2).1
      rw [groupsValue_cons_succ, List.take_succ_cons, List.getD_cons_succ]
      by_cases hg : groupsValue bs j = 0
      · have hz := getD_eq_zero_of_groupsValue he' hg
        have hne : bs.take (j + 1) ≠ [] := List.ne_nil_of_length_pos (by rw [List.length_take]; omega)
        rw [hg, Nat.mul_zero, Nat.add_zero, vlqBytes, if_pos (Nat.mod_lt _ (by decide))]
        simp only [List.getD_eq_getElem?_getD] at hz
        simp only [List.cons.injEq, List.getD_eq_getElem?_getD, hz, ne_eq, not_true_eq_false,
          Nat.add_one_ne_zero, or_false, iff_false, not_and]
        exact fun _ h => hne h.symm
      · have hbyte : (byte.toNat % 128 + 128 * groupsValue bs j) % 128 + 128 = byte.toNat := by
          have : byte.toNat < 256 := byte.toNat_lt
          rw [Nat.add_mul_mod_self_left, Nat.mod_mod]
          omega
        rw [vlqBytes, if_neg (show ¬byte.toNat % 128 + 128 * groupsValue bs j < 128 by omega), hbyte,
          ofNat_toNat_uint8,
          show (byte.toNat % 128 + 128 * groupsValue bs j) / 128 = groupsValue bs j by omega,
          List.cons.injEq, ih he']
        simp only [true_and, Nat.add_one_ne_zero, false_or]
        refine or_iff_right_of_imp fun hj hz => hg ?_
        subst hj
        simp only [List.getD_eq_getElem?_getD] at hz
        simp only [groupsValue, Nat.zero_add, Finset.range_one, Finset.sum_singleton, Nat.mul_zero,
          pow_zero, Nat.mul_one, List.getD_eq_getElem?_getD, hz]
        rfl

/-! ## On a reachable reader -/

namespace BitReader

/-- On a reachable reader, `get_vlq_int` is the scan of the bytes from the cursor; after a scan
    that read bytes, the reader stands byte-aligned right after them. -/
theorem Reachable.getVlqInt {buf : ByteBufferPtr} {r : BitReader} (hr : Reachable buf r) :
    ∃ r', r.getVlqInt = some ((vlqScan (buf.asRef.drop r.bytesConsumed) 0 0).1, r') ∧
      ((vlqScan (buf.asRef.drop r.bytesConsumed) 0 0).2 ≠ 0 →
        r'.byteOffset = r.bytesConsumed + (vlqScan (buf.asRef.drop r.bytesConsumed) 0 0).2 ∧
          r'.bitOffset = 0) := by
  obtain ⟨p, ht⟩ := hr.tracks
  have hq := ht.bytesConsumed_eq
  obtain ⟨r', h', hr'⟩ := ht.getVlqIntLoop (l := buf.asRef.drop r.bytesConsumed) (by rw [hq]) 0 0
  refine ⟨r', h', fun hc => ?_⟩
  rw [if_neg hc] at hr'
  have := hr'.1.pos
  exact ⟨by omega, hr'.2⟩

/-- **What `get_vlq_int` returns.**  On every reachable reader, with `l` the bytes from
    `byte_offset + ⌈bit_offset / 8⌉` on: if the read ends at a byte `j < 5`, `get_vlq_int`
    returns `Ok(Σ_{i ≤ j} (l_i & 0x7F) · 2^(7i))` and leaves the reader byte-aligned right
    after byte `j`; if it ends at no `j < 5`, then the first five bytes carry the continuation
    bit or the bytes run out before a terminating one, and `get_vlq_int` returns an error.
    Every value it returns is one of the first kind. -/
theorem getVlqInt_groups {buf : ByteBufferPtr} {r : BitReader} {l : List UInt8}
    (hr : Reachable buf r) (hl : buf.asRef.drop r.bytesConsumed = l) :
    (∀ j < 5, EndsAt l j →
      ∃ r', r.getVlqInt = some (.ok (BitVec.ofNat 64 (groupsValue l j)), r') ∧
        r'.byteOffset = r.bytesConsumed + j + 1 ∧ r'.bitOffset = 0) ∧
    ((¬∃ j < 5, EndsAt l j) →
      ((∀ i < 5, continuationBit l i = some true) ∨
        ∃ m, (∀ i < m, continuationBit l i = some true) ∧ continuationBit l m = none) ∧
      ∃ e r', r.getVlqInt = some (.error e, r')) ∧
    (∀ v r', r.getVlqInt = some (.ok v, r') →
      ∃ j < 5, EndsAt l j ∧ v = BitVec.ofNat 64 (groupsValue l j)) := by
  subst hl
  obtain ⟨r', h', hpos⟩ := hr.getVlqInt
  have hok : ∀ j < 5, EndsAt (buf.asRef.drop r.bytesConsumed) j →
      vlqScan (buf.asRef.drop r.bytesConsumed) 0 0 =
        (.ok (BitVec.ofNat 64 (groupsValue (buf.asRef.drop r.bytesConsumed) j)), j + 1) := by
    intro j hj he
    have h0 : (0 : BitVec 64) ||| BitVec.ofNat 64 (groupsValue (buf.asRef.drop r.bytesConsumed) j) = _ :=
      BitVec.zero_or
    have := vlqScan_of_endsAt (k := 0) he (by omega) 0
    rwa [Nat.mul_zero, BitVec.shiftLeft_zero, h0] at this
  have herr : (¬∃ j < 5, EndsAt (buf.asRef.drop r.bytesConsumed) j) →
      ∃ e, (vlqScan (buf.asRef.drop r.bytesConsumed) 0 0).1 = .error e :=
    fun hn => vlqScan_error (k := 0) (by omega) (fun j hj he => hn ⟨j, by omega, he⟩) 0
  refine ⟨fun j hj he => ?_, fun hn => ⟨not_endsAt_cause fun j hj he => hn ⟨j, hj, he⟩, ?_⟩, ?_⟩
  · rw [hok j hj he] at h' hpos
    exact ⟨r', h', hpos (Nat.succ_ne_zero j)⟩
  · obtain ⟨e, he⟩ := herr hn
    exact ⟨e, r', he ▸ h'⟩
  · intro v r'' hv
    by_cases hn : ∃ j < 5, EndsAt (buf.asRef.drop r.bytesConsumed) j
    · obtain ⟨j, hj, he⟩ := hn
      rw [hok j hj he, hv] at h'
      simp only [Option.some.injEq, Prod.mk.injEq, Except.ok.injEq] at h'
      exact ⟨j, hj, he, h'.1⟩
    · obtain ⟨e, he⟩ := herr hn
      rw [hv, he] at h'
      simp at h'

theorem getVlqInt_groups_300 :
    Reachable (ByteBufferPtr.new [0xAC, 0x02]) ⟨ByteBufferPtr.new [0xAC, 0x02], 684, 0, 0, 2⟩ ∧
      EndsAt [0xAC, 0x02] 1 ∧ groupsValue [0xAC, 0x02] 1 = 300 ∧
      ∃ r', (⟨ByteBufferPtr.new [0xAC, 0x02], 684, 0, 0, 2⟩ : BitReader).getVlqInt =
        some (.ok (BitVec.ofNat 64 (groupsValue [0xAC, 0x02] 1)), r') ∧
        r'.byteOffset = 0 + 1 + 1 ∧ r'.bitOffset = 0 :=
  have hr : Reachable (ByteBufferPtr.new [0xAC, 0x02]) ⟨ByteBufferPtr.new [0xAC, 0x02], 684, 0, 0, 2⟩ :=
    Reachable.new rfl
  have he : EndsAt [0xAC, 0x02] 1 := by decide
  ⟨hr, he, by decide, (getVlqInt_groups hr rfl).1 1 (by decide) he⟩

/-- **Decoding, then encoding, a VLQ.**  On every reachable reader whose bytes from the
    cursor end a VLQ read at a byte `j < 5`, `get_vlq_int` returns a value, `put_vlq_int` of
    that value goes through on every new writer with room for the `j + 1` bytes read, and it
    writes exactly those bytes if and only if they are the shortest encoding: a single byte,
    or a last byte other than `0`. -/
theorem getVlqInt_putVlqInt {buf : ByteBufferPtr} {r : BitReader} {l : List UInt8} {j : Nat}
    (hr : Reachable buf r) (hl : buf.asRef.drop r.bytesConsumed = l) (hj : j < 5)
    (he : EndsAt l j) :
    ∃ v r', r.getVlqInt = some (.ok v, r') ∧
      ∀ m, j + 1 ≤ m → ∃ w w₀ out, (BitWriter.new m).putVlqInt v = some (true, w) ∧
        w.consume = some (out, w₀) ∧ (out.asRef = l.take (j + 1) ↔ j = 0 ∨ l.getD j 0 ≠ 0) := by
  subst hl
  obtain ⟨r', h', -⟩ := hr.getVlqInt
  have h0 : (0 : BitVec 64) ||| BitVec.ofNat 64 (groupsValue (buf.asRef.drop r.bytesConsumed) j) =
      _ := BitVec.zero_or
  have hscan := vlqScan_of_endsAt (k := 0) he (by omega) 0
  rw [Nat.mul_zero, BitVec.shiftLeft_zero, h0] at hscan
  rw [hscan] at h'
  refine ⟨_, r', h', fun m hm => ?_⟩
  have hv : (BitVec.ofNat 64 (groupsValue (buf.asRef.drop r.bytesConsumed) j)).toNat =
      groupsValue (buf.asRef.drop r.bytesConsumed) j := by
    rw [BitVec.toNat_ofNat, Nat.mod_eq_of_lt (lt_of_lt_of_le (groupsValue_lt _ j)
      (Nat.pow_le_pow_right (by decide) (by omega)))]
  have hfit := ((BitWriter.length_vlqBytes_le_iff _ j).2
    (groupsValue_lt (buf.asRef.drop r.bytesConsumed) j)).trans hm
  rw [← hv] at hfit
  obtain ⟨w, hw, hc⟩ := putVlqInt_new_of_fits hfit
  refine ⟨w, _, _, hw, hc, ?_⟩
  rw [ByteBufferPtr.asRef_new, hv]
  exact vlqBytes_groupsValue he

theorem getVlqInt_putVlqInt_300 :
    Reachable (ByteBufferPtr.new [0xAC, 0x02]) ⟨ByteBufferPtr.new [0xAC, 0x02], 684, 0, 0, 2⟩ ∧
      EndsAt [0xAC, 0x02] 1 ∧
      ∃ v r', (⟨ByteBufferPtr.new [0xAC, 0x02], 684, 0, 0, 2⟩ : BitReader).getVlqInt =
        some (.ok v, r') ∧
        ∃ w w₀ out, (BitWriter.new 2).putVlqInt v = some (true, w) ∧
          w.consume = some (out, w₀) ∧ out.asRef = [0xAC, 0x02] :=
  have hr : Reachable (ByteBufferPtr.new [0xAC, 0x02]) ⟨ByteBufferPtr.new [0xAC, 0x02], 684, 0, 0, 2⟩ :=
    Reachable.new rfl
  have he : EndsAt [0xAC, 0x02] 1 := by decide
  have ⟨v, r', h, hput⟩ := getVlqInt_putVlqInt (l := [0xAC, 0x02]) hr rfl (by decide) he
  have ⟨w, w₀, out, hw, hc, hiff⟩ := hput 2 le_rfl
  ⟨hr, he, v, r', h, w, w₀, out, hw, hc, hiff.2 (.inr (by decide))⟩

end BitReader

end ParquetUtil
