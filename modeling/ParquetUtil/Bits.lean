/-
  Bits and bytes: the vocabulary shared by the writer, the reader and their
  specifications.

  * `bitsOf x n` is the list of the `n` low bits of `x`, least significant first,
    and `ofBits` reads a bit list back as a number;
  * `leBytes x k` are the `k` low-order bytes of `x` in little-endian order, what
    `memcpy_value` copies out of a value on a little-endian host, and `leValue`
    reads bytes back, as `read_num_bytes!` does;
  * `bitAt bs i` is bit `i % 8` of byte `i / 8`: the stream order of both the
    `BitWriter` and the `BitReader`.  Byte lists are compared through `bitAt`
    (`bytes_ext`), bit lists through `streamBit` (`bits_ext`).
-/
import Mathlib

namespace ParquetUtil

/-! ## Bit lists -/

/-- The `n` low bits of `x`, least significant first. -/
def bitsOf (x : Nat) : Nat → List Bool
  | 0 => []
  | n + 1 => x.testBit 0 :: bitsOf (x / 2) n

/-- A bit list read back as a number, its first bit the least significant. -/
def ofBits : List Bool → Nat
  | [] => 0
  | b :: l => b.toNat + 2 * ofBits l

/-- Bit `i` of a bit list; bits past its end are clear. -/
def streamBit (l : List Bool) (i : Nat) : Bool := l.getD i false

@[simp] theorem length_bitsOf (x n : Nat) : (bitsOf x n).length = n := by
  induction n generalizing x <;> simp [bitsOf, *]

theorem streamBit_of_ge {l : List Bool} {i : Nat} (h : l.length ≤ i) : streamBit l i = false :=
  List.getD_eq_default _ _ h

@[simp] theorem streamBit_nil (i : Nat) : streamBit [] i = false := rfl

@[simp] theorem streamBit_cons_zero (b : Bool) (l : List Bool) : streamBit (b :: l) 0 = b := rfl

@[simp] theorem streamBit_cons_succ (b : Bool) (l : List Bool) (i : Nat) :
    streamBit (b :: l) (i + 1) = streamBit l i := rfl

theorem streamBit_append (l₁ l₂ : List Bool) (i : Nat) :
    streamBit (l₁ ++ l₂) i =
      if i < l₁.length then streamBit l₁ i else streamBit l₂ (i - l₁.length) := by
  unfold streamBit
  split
  · exact List.getD_append _ _ _ _ ‹_›
  · exact List.getD_append_right _ _ _ _ (by omega)

@[simp] theorem streamBit_replicate (k i : Nat) : streamBit (List.replicate k false) i = false := by
  simp [streamBit, List.getElem?_replicate]
  split <;> rfl

@[simp] theorem streamBit_bitsOf (x n i : Nat) :
    streamBit (bitsOf x n) i = (decide (i < n) && x.testBit i) := by
  induction n generalizing x i with
  | zero => rfl
  | succ n ih =>
    cases i with
    | zero => simp [bitsOf]
    | succ i => simp [bitsOf, ih, Nat.testBit_div_two]

/-- Two bit lists of one length agree when every bit does. -/
theorem bits_ext {l₁ l₂ : List Bool} (hl : l₁.length = l₂.length)
    (h : ∀ i < l₁.length, streamBit l₁ i = streamBit l₂ i) : l₁ = l₂ := by
  apply List.ext_getElem hl
  intro i h₁ h₂
  have := h i h₁
  simp only [streamBit, List.getD_eq_getElem?_getD, List.getElem?_eq_getElem h₁,
    List.getElem?_eq_getElem h₂, Option.getD_some] at this
  exact this

theorem bitsOf_add (x m n : Nat) : bitsOf x (m + n) = bitsOf x m ++ bitsOf (x >>> m) n :=
  bits_ext (by simp) fun i hi => by
    simp only [length_bitsOf] at hi
    simp only [streamBit_bitsOf, streamBit_append, length_bitsOf, Nat.testBit_shiftRight]
    split
    · simp [hi, *]
    · rw [show m + (i - m) = i by omega]; simp [hi, show i - m < n by omega]

theorem bitsOf_zero_left (n : Nat) : bitsOf 0 n = List.replicate n false :=
  bits_ext (by simp) fun i _ => by simp

/-- The bits of a value below `2 ^ m`, read past `m`, are clear. -/
theorem bitsOf_of_lt {x m : Nat} (n : Nat) (h : x < 2 ^ m) :
    bitsOf x (m + n) = bitsOf x m ++ List.replicate n false := by
  rw [bitsOf_add, Nat.shiftRight_eq_div_pow, Nat.div_eq_of_lt h, bitsOf_zero_left]

theorem testBit_ofBits (l : List Bool) (i : Nat) : (ofBits l).testBit i = streamBit l i := by
  induction l generalizing i with
  | nil => simp [ofBits]
  | cons b l ih =>
    cases i with
    | zero => cases b <;> simp [ofBits, Nat.add_mod]
    | succ i =>
      rw [Nat.testBit_succ, streamBit_cons_succ, ← ih]
      congr 1
      cases b <;> simp [ofBits]; omega

/-! ## Little-endian bytes -/

/-- The `k` low-order bytes of `x`, little-endian. -/
def leBytes (x : Nat) : Nat → List UInt8
  | 0 => []
  | k + 1 => UInt8.ofNat x :: leBytes (x / 256) k

/-- Bytes read as a little-endian number. -/
def leValue : List UInt8 → Nat
  | [] => 0
  | b :: bs => b.toNat + 256 * leValue bs

/-- Bit `i` of a byte stream: bit `i % 8` of byte `i / 8`, clear past the end. -/
def bitAt (bs : List UInt8) (i : Nat) : Bool := (bs.getD (i / 8) 0).toNat.testBit (i % 8)

@[simp] theorem length_leBytes (x k : Nat) : (leBytes x k).length = k := by
  induction k generalizing x <;> simp [leBytes, *]

theorem bitAt_cons (a : UInt8) (bs : List UInt8) (i : Nat) :
    bitAt (a :: bs) i = if i < 8 then a.toNat.testBit i else bitAt bs (i - 8) := by
  unfold bitAt
  split
  · rw [Nat.div_eq_of_lt ‹_›, Nat.mod_eq_of_lt ‹_›]; rfl
  · obtain ⟨j, rfl⟩ : ∃ j, i = j + 8 := ⟨i - 8, by omega⟩
    simp [Nat.add_div_right, Nat.add_mod_right]

@[simp] theorem bitAt_nil (i : Nat) : bitAt [] i = false := by simp [bitAt]

theorem bitAt_append (bs cs : List UInt8) (i : Nat) :
    bitAt (bs ++ cs) i = if i < 8 * bs.length then bitAt bs i else bitAt cs (i - 8 * bs.length) := by
  induction bs generalizing i with
  | nil => simp
  | cons a bs ih =>
    simp only [List.cons_append, bitAt_cons, ih, List.length_cons]
    split_ifs <;> first | rfl | omega | (congr 1; omega)

theorem testBit_byte_add {a x : Nat} (ha : a < 256) (i : Nat) :
    (a + 256 * x).testBit i = if i < 8 then a.testBit i else x.testBit (i - 8) := by
  rw [show a + 256 * x = 2 ^ 8 * x + a by omega, Nat.testBit_mul_pow_two_add _ (by simpa using ha)]

theorem testBit_leValue (bs : List UInt8) (i : Nat) : (leValue bs).testBit i = bitAt bs i := by
  induction bs generalizing i with
  | nil => simp [leValue]
  | cons b bs ih => rw [leValue, testBit_byte_add b.toNat_lt, bitAt_cons, ih]

theorem leValue_lt (bs : List UInt8) : leValue bs < 2 ^ (8 * bs.length) := by
  induction bs with
  | nil => simp [leValue]
  | cons b bs ih =>
    have hb : b.toNat < 256 := b.toNat_lt
    have : 2 ^ (8 * (bs.length + 1)) = 2 ^ (8 * bs.length) * 256 := by
      rw [Nat.mul_succ, Nat.pow_add]
    rw [leValue, List.length_cons, this]
    omega

@[simp] theorem bitAt_leBytes (x k i : Nat) :
    bitAt (leBytes x k) i = (decide (i < 8 * k) && x.testBit i) := by
  induction k generalizing x i with
  | zero => simp [leBytes]
  | succ k ih =>
    rw [leBytes, bitAt_cons, ih]
    split
    · rw [show (UInt8.ofNat x).toNat = x % 2 ^ 8 from rfl, Nat.testBit_mod_two_pow]
      simp [*, show i < 8 * (k + 1) by omega]
    · rw [show x / 256 = x >>> 8 by rw [Nat.shiftRight_eq_div_pow], Nat.testBit_shiftRight,
        show 8 + (i - 8) = i by omega]
      congr 1; simp; omega

theorem leBytes_leValue (bs : List UInt8) : leBytes (leValue bs) bs.length = bs := by
  induction bs with
  | nil => rfl
  | cons b bs ih =>
    have := b.toNat_lt
    simp only [leValue, List.length_cons, leBytes, List.cons.injEq]
    refine ⟨UInt8.toNat.inj ?_, ?_⟩
    · show (b.toNat + 256 * leValue bs) % 256 = b.toNat; omega
    · rwa [show (b.toNat + 256 * leValue bs) / 256 = leValue bs by omega]

/-- Two byte lists of one length agree when every bit does. -/
theorem bytes_ext {bs cs : List UInt8} (hl : bs.length = cs.length)
    (h : ∀ i, bitAt bs i = bitAt cs i) : bs = cs := by
  have : leValue bs = leValue cs :=
    Nat.eq_of_testBit_eq fun i => by rw [testBit_leValue, testBit_leValue, h]
  rw [← leBytes_leValue bs, ← leBytes_leValue cs, this, hl]

theorem leValue_leBytes (x k : Nat) : leValue (leBytes x k) = x % 2 ^ (8 * k) :=
  Nat.eq_of_testBit_eq fun i => by simp [testBit_leValue, Nat.testBit_mod_two_pow]

/-! ## Bytes as bit lists -/

/-- The bits of a byte stream, in stream order. -/
def bytesBits (bs : List UInt8) : List Bool := bs.flatMap fun b => bitsOf b.toNat 8

/-- A bit list as bytes, zero-padded to a whole byte. -/
def bitsToBytes (l : List Bool) : List UInt8 := leBytes (ofBits l) ((l.length + 7) / 8)

@[simp] theorem length_bytesBits (bs : List UInt8) : (bytesBits bs).length = 8 * bs.length := by
  induction bs <;> simp_all [bytesBits, Nat.mul_succ]; omega

@[simp] theorem bytesBits_append (bs cs : List UInt8) :
    bytesBits (bs ++ cs) = bytesBits bs ++ bytesBits cs :=
  List.flatMap_append _ _ _

@[simp] theorem streamBit_bytesBits (bs : List UInt8) (i : Nat) :
    streamBit (bytesBits bs) i = bitAt bs i := by
  induction bs generalizing i with
  | nil => simp [bytesBits]
  | cons b bs ih =>
    rw [bytesBits, List.flatMap_cons, streamBit_append, length_bitsOf, streamBit_bitsOf, bitAt_cons]
    split
    · simp [*]
    · exact ih _

theorem bytesBits_leBytes (x k : Nat) : bytesBits (leBytes x k) = bitsOf x (8 * k) :=
  bits_ext (by simp) fun i _ => by simp

@[simp] theorem length_bitsToBytes (l : List Bool) : (bitsToBytes l).length = (l.length + 7) / 8 :=
  length_leBytes _ _

@[simp] theorem bitAt_bitsToBytes (l : List Bool) (i : Nat) :
    bitAt (bitsToBytes l) i = streamBit l i := by
  simp only [bitsToBytes, bitAt_leBytes, testBit_ofBits, Bool.and_iff_right_iff_imp,
    decide_eq_true_eq]
  intro h
  by_contra hi
  rw [streamBit_of_ge (by omega)] at h
  exact absurd h (by simp)

theorem bitsToBytes_bytesBits (bs : List UInt8) : bitsToBytes (bytesBits bs) = bs :=
  bytes_ext (by simp; omega) fun i => by simp

/-! ## Alignment and varints -/

/-- A bit list zero-padded to a whole byte. -/
def pad (l : List Bool) : List Bool := l ++ List.replicate ((8 - l.length % 8) % 8) false

/-- The VLQ bytes of `u`: its base-128 groups, low group first, bit 7 set on every byte
    but the last. -/
def vlqBytes (u : Nat) : List UInt8 :=
  if u < 128 then [UInt8.ofNat u] else UInt8.ofNat (u % 128 + 128) :: vlqBytes (u / 128)
termination_by u
decreasing_by omega

@[simp] theorem length_pad (l : List Bool) : (pad l).length = (l.length + 7) / 8 * 8 := by
  simp [pad]; omega

theorem streamBit_pad (l : List Bool) (i : Nat) : streamBit (pad l) i = streamBit l i := by
  rw [pad, streamBit_append, streamBit_replicate]
  split
  · rfl
  · exact (streamBit_of_ge (by omega)).symm

theorem bitsToBytes_pad (l : List Bool) : bitsToBytes (pad l) = bitsToBytes l :=
  bytes_ext (by simp; omega) fun i => by simp [streamBit_pad]

end ParquetUtil
