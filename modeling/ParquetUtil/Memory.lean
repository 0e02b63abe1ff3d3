/-
  `util/memory.rs`: the shared byte view the reader reads through, the byte buffers and
  the memory pool.

  * `ByteBufferPtr` is used by `bit_util.rs` but not defined in the sources; it
    is modelled from the spec's description of a shared immutable buffer: a view
    `(data, start, len)` of one byte sequence, sub-sliced without copying.
  * `ByteBuffer` owns a `Vec<u8>` that `resize`, `set_data` and writes through `mut_data`
    change; `ImmutableByteBuffer` shares one.  `run_capacity_le`: over any run of `resize`
    calls and writes, `capacity()` never decreases and ends at least every size asked
    for, so `resize(new_cap)` sets the size, not the capacity, to `new_cap`.
  * `MemoryPool` owns every vector it adopts (`acquire`, `consume`) for its whole
    lifetime and counts their capacities in two `i64` cells.  `pool_run`
    proves that, while the total fits in `i64`, the current count is the sum of
    the adopted capacities and the peak equals it.

  A `Vec` is its bytes and the capacity of its allocation; an allocation never fails
  here (an allocator that cannot serve a request aborts the process).
-/
import ParquetUtil.BitUtil

namespace ParquetUtil

/-! ## Shared byte views -/

/-- Modelled from the spec: `ByteBufferPtr` (not defined in the sources), a view of
    `len` bytes from `start` of a shared byte sequence `data`. -/
structure ByteBufferPtr where
  data : List UInt8
  start : Nat
  len : Nat
  bounded : start + len ≤ data.length
  deriving DecidableEq

namespace ByteBufferPtr

/-- Modelled from the spec: `ByteBufferPtr::new(v)`, the view of all of `v`. -/
def new (data : List UInt8) : ByteBufferPtr := ⟨data, 0, data.length, by simp⟩

/-- Modelled from the spec: `as_ref()`, the viewed bytes. -/
def asRef (p : ByteBufferPtr) : List UInt8 := (p.data.drop p.start).take p.len

/-- Modelled from the spec: `start_from(start)`, the view from `start` to the end of
    this one; a start past the end panics. -/
def startFrom (p : ByteBufferPtr) (start : Nat) : Option ByteBufferPtr :=
  if h : start ≤ p.len then
    some ⟨p.data, p.start + start, p.len - start, by have := p.bounded; omega⟩
  else none

@[simp] theorem length_asRef (p : ByteBufferPtr) : p.asRef.length = p.len := by
  have := p.bounded
  simp [asRef]; omega

@[simp] theorem asRef_new (data : List UInt8) : (new data).asRef = data := by
  simp [new, asRef]

@[simp] theorem len_new (data : List UInt8) : (new data).len = data.length := rfl

theorem startFrom_eq_some {p : ByteBufferPtr} {start : Nat} (h : start ≤ p.len) :
    ∃ q, p.startFrom start = some q ∧ q.asRef = p.asRef.drop start := by
  refine ⟨_, dif_pos h, ?_⟩
  simp only [asRef, List.drop_take, List.drop_drop]

end ByteBufferPtr

/-! ## Vectors -/

/-- A `Vec<u8>`: its bytes and the capacity of its allocation. -/
structure Vec where
  data : List UInt8
  capacity : Nat
  le_capacity : data.length ≤ capacity

/-- `vec![0; size]`, whose capacity is exactly `size`. -/
def Vec.zeros (size : Nat) : Vec := ⟨List.replicate size 0, size, by simp⟩

/-- `Vec::resize(new_len, 0)`: the first `new_len` bytes, then zeros up to `new_len`.  A
    shrink (`truncate`) keeps the allocation, and so does a growth within it; a growth past
    the capacity reallocates to `grown`, the allocator's choice, at least `new_len`. -/
def Vec.resize (v : Vec) (newLen grown : Nat) : Vec where
  data := v.data.take newLen ++ List.replicate (newLen - v.data.length) 0
  capacity := if newLen ≤ v.capacity then v.capacity else max grown newLen
  le_capacity := by
    simp only [List.length_append, List.length_take, List.length_replicate]
    split <;> omega

section
variable (v : Vec) (newLen grown : Nat)

@[simp] theorem Vec.length_resize : (v.resize newLen grown).data.length = newLen := by
  simp only [Vec.resize, List.length_append, List.length_take, List.length_replicate]
  omega

theorem Vec.capacity_resize :
    v.capacity ≤ (v.resize newLen grown).capacity ∧ newLen ≤ (v.resize newLen grown).capacity := by
  simp only [Vec.resize]
  split <;> omega

end

/-! ## Byte buffers -/

/-- `ImmutableByteBuffer`: the shared vector `data` (`BytePtr`, an `Rc<Vec<u8>>`; the
    sharing itself is not modelled). -/
structure ImmutableByteBuffer where
  data : Vec

namespace ImmutableByteBuffer

/-- `ImmutableByteBuffer::new(data)`. -/
def new (data : Vec) : ImmutableByteBuffer := ⟨data⟩

/-- `capacity()`: `data.len()`, the length and not the vector's capacity. -/
def capacity (b : ImmutableByteBuffer) : Nat := b.data.data.length

/-- `size()`: `data.len()`. -/
def size (b : ImmutableByteBuffer) : Nat := b.data.data.length

end ImmutableByteBuffer

/-- `ByteBuffer`: the vector `data`; `data()` and `mut_data()` are its bytes `data.data`. -/
structure ByteBuffer where
  data : Vec

namespace ByteBuffer

/-- `ByteBuffer::new(size)`: `vec![0; size]`. -/
def new (size : Nat) : ByteBuffer := ⟨Vec.zeros size⟩

/-- `to_immutable()`: the vector, now shared. -/
def toImmutable (b : ByteBuffer) : ImmutableByteBuffer := ImmutableByteBuffer.new b.data

/-- `capacity()`: `data.capacity()`. -/
def capacity (b : ByteBuffer) : Nat := b.data.capacity

/-- `size()`: `data.len()`. -/
def size (b : ByteBuffer) : Nat := b.data.data.length

/-- `mut_data()`, written through: the caller stores `bs` at `offset` of the slice
    `data.as_mut_slice()`; a store past its end panics. -/
def mutData (b : ByteBuffer) (offset : Nat) (bs : List UInt8) : Option ByteBuffer :=
  if h : offset + bs.length ≤ b.data.data.length then
    some ⟨⟨writeBytes b.data.data offset bs, b.data.capacity,
      (length_writeBytes h).symm ▸ b.data.le_capacity⟩⟩
  else none

/-- `set_data(new_data)`: the old vector is dropped. -/
def setData (_b : ByteBuffer) (newData : Vec) : ByteBuffer := ⟨newData⟩

/-- `resize(new_cap)`: `data.resize(new_cap, 0)`, then `Ok(())`; `grown` is the capacity
    the allocator gives the vector if it has to grow. -/
def resize (b : ByteBuffer) (newCap grown : Nat) : Except String Unit × ByteBuffer :=
  (.ok (), ⟨b.data.resize newCap grown⟩)

/-- The calls that change a `ByteBuffer`: `set_data`, `resize` and a store through the
    slice `mut_data()` returns. -/
inductive Call
  | setData (newData : Vec)
  | resize (newCap grown : Nat)
  | write (offset : Nat) (bs : List UInt8)

/-- The calls that keep the vector: all but `set_data`. -/
def Call.keepsVec : Call → Bool
  | .setData _ => false
  | _ => true

/-- One call; `none` if it panics. -/
def step (b : ByteBuffer) : Call → Option ByteBuffer
  | .setData v => some (b.setData v)
  | .resize n g => some (b.resize n g).2
  | .write o bs => b.mutData o bs

/-- A sequence of calls; `none` at the first that panics. -/
def run (b : ByteBuffer) : List Call → Option ByteBuffer
  | [] => some b
  | c :: cs => (b.step c).bind (run · cs)

/-- Both buffers keep the invariant the `Buffer` trait documents, `capacity >= size`;
    sharing the vector makes the two equal. -/
theorem size_le_capacity (b : ByteBuffer) :
    b.size ≤ b.capacity ∧ b.toImmutable.size = b.size ∧ b.toImmutable.capacity = b.size :=
  ⟨b.data.le_capacity, rfl, rfl⟩

theorem size_resize (b : ByteBuffer) (n g : Nat) : (b.resize n g).2.size = n :=
  Vec.length_resize b.data n g

/-- A call other than `set_data` never lowers the capacity, and `resize(n)` leaves it at
    least `n`. -/
theorem capacity_step {b b' : ByteBuffer} {c : Call} (hc : c.keepsVec) (h : b.step c = some b') :
    b.capacity ≤ b'.capacity ∧ ∀ n g, c = .resize n g → n ≤ b'.capacity := by
  cases c with
  | setData v => cases hc
  | resize n g =>
    cases h
    exact ⟨(Vec.capacity_resize b.data n g).1, fun _ _ he => by
      cases he; exact (Vec.capacity_resize b.data _ _).2⟩
  | write o bs =>
    simp only [step, mutData] at h
    split at h
    · cases h
      exact ⟨le_rfl, fun _ _ he => by cases he⟩
    · cases h

end ByteBuffer

/-! ## The memory pool -/

/-- `n as i64` for a `usize` `n`: the two's-complement wrap. -/
def asI64 (n : Nat) : Int := Int.bmod n (2 ^ 64)

/-- `a + b` on `i64`; an overflow panics, as in a build with overflow checks (a release
    build wraps instead). -/
def addI64 (a b : Int) : Option Int :=
  if -2 ^ 63 ≤ a + b ∧ a + b < 2 ^ 63 then some (a + b) else none

/-- `MemoryPool`: the arena of adopted vectors and the `cur_bytes_allocated` and
    `max_bytes_allocated` cells. -/
structure MemoryPool where
  arena : List Vec
  curBytesAllocated : Int
  maxBytesAllocated : Int

namespace MemoryPool

/-- `MemoryPool::new()`. -/
def new : MemoryPool := ⟨[], 0, 0⟩

/-- `consume(data)`: the arena adopts `data` (the returned slice is its index there),
    `cur_bytes_allocated` grows by its capacity and `max_bytes_allocated` follows. -/
def consume (p : MemoryPool) (data : Vec) : Option (Nat × MemoryPool) := do
  let bytesAllocated := data.capacity
  let result := p.arena.length
  let arena := p.arena ++ [data]
  let cur ← addI64 p.curBytesAllocated (asI64 bytesAllocated)
  pure (result, ⟨arena, cur, max p.maxBytesAllocated cur⟩)

/-- `acquire(size)`: `consume(vec![0; size])`. -/
def acquire (p : MemoryPool) (size : Nat) : Option (Nat × MemoryPool) :=
  p.consume (Vec.zeros size)

/-- `cur_allocated()`. -/
def curAllocated (p : MemoryPool) : Int := p.curBytesAllocated

/-- `max_allocated()`. -/
def maxAllocated (p : MemoryPool) : Int := p.maxBytesAllocated

/-- The two calls that allocate. -/
inductive Op
  | acquire (size : Nat)
  | consume (data : Vec)

/-- The vector a call adopts. -/
def Op.adopted : Op → Vec
  | .acquire size => Vec.zeros size
  | .consume data => data

/-- One call. -/
def step (p : MemoryPool) : Op → Option (Nat × MemoryPool)
  | .acquire size => p.acquire size
  | .consume data => p.consume data

/-- A sequence of calls, with the handles they return. -/
def run (p : MemoryPool) : List Op → Option (List Nat × MemoryPool)
  | [] => some ([], p)
  | op :: ops => do
    let (h, p) ← p.step op
    let (hs, p) ← run p ops
    pure (h :: hs, p)

/-- The total capacity the calls adopt. -/
def total (ops : List Op) : Nat := (ops.map fun op => op.adopted.capacity).sum

theorem step_eq (p : MemoryPool) (op : Op) : p.step op = p.consume op.adopted := by
  cases op <;> rfl

theorem asI64_of_lt {n : Nat} (h : n < 2 ^ 63) : asI64 n = n := by
  rw [asI64, Int.bmod_pos _ _ (by rw [Int.emod_eq_of_lt] <;> omega), Int.emod_eq_of_lt] <;> omega

theorem consume_of_fits {p : MemoryPool} {data : Vec} (h₀ : 0 ≤ p.curBytesAllocated)
    (h : p.curBytesAllocated + data.capacity < 2 ^ 63) :
    p.consume data = some (p.arena.length,
      ⟨p.arena ++ [data], p.curBytesAllocated + data.capacity,
        max p.maxBytesAllocated (p.curBytesAllocated + data.capacity)⟩) := by
  simp only [consume, asI64_of_lt (show data.capacity < 2 ^ 63 by omega), addI64]
  rw [if_pos ⟨by omega, h⟩]
  rfl

theorem total_cons (op : Op) (ops : List Op) :
    total (op :: ops) = op.adopted.capacity + total ops := List.sum_cons

theorem run_of_fits (p : MemoryPool) (ops : List Op) (h₀ : 0 ≤ p.curBytesAllocated)
    (hmax : p.maxBytesAllocated = p.curBytesAllocated)
    (h : p.curBytesAllocated + total ops < 2 ^ 63) :
    p.run ops = some (List.range' p.arena.length ops.length,
      ⟨p.arena ++ ops.map Op.adopted, p.curBytesAllocated + total ops,
        p.curBytesAllocated + total ops⟩) := by
  induction ops generalizing p with
  | nil => cases p; simp_all [run, total]
  | cons op ops ih =>
    rw [total_cons, Nat.cast_add] at h ⊢
    rw [run, step_eq, consume_of_fits h₀ (by omega)]
    simp only [Option.bind_eq_bind, Option.some_bind]
    rw [ih _ (by dsimp only; omega) (by dsimp only; omega) (by dsimp only; omega)]
    simp [List.range'_succ, Int.add_assoc]

/-- **The pool's counters.**  After any sequence of `acquire` and `consume` calls on a new
    pool whose capacities sum below `2 ^ 63` (every prefix of it is such a sequence),
    the `i`-th call has returned handle `i`, the arena holds every adopted vector,
    `cur_allocated()` is the sum of their capacities and `max_allocated()` equals it. -/
theorem pool_run (ops : List Op) (h : total ops < 2 ^ 63) :
    ∃ p, new.run ops = some (List.range ops.length, p) ∧ p.arena = ops.map Op.adopted ∧
      p.curAllocated = total ops ∧ p.maxAllocated = p.curAllocated := by
  refine ⟨⟨ops.map Op.adopted, total ops, total ops⟩, ?_, rfl, rfl, rfl⟩
  simpa [new, List.range_eq_range'] using run_of_fits new ops le_rfl rfl (by simpa [new] using h)

theorem pool_run_two :
    total [.acquire 3, .consume ⟨[1, 2], 4, by decide⟩] < 2 ^ 63 ∧
      ∃ p, new.run [.acquire 3, .consume ⟨[1, 2], 4, by decide⟩] = some ([0, 1], p) ∧
        p.arena = [Vec.zeros 3, ⟨[1, 2], 4, by decide⟩] ∧ p.curAllocated = 7 ∧
        p.maxAllocated = p.curAllocated :=
  have h : total [.acquire 3, .consume ⟨[1, 2], 4, by decide⟩] < 2 ^ 63 := by decide
  ⟨h, pool_run _ h⟩

end MemoryPool

end ParquetUtil
