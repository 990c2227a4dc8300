import Rizzos.HeapBacking
import Rizzos.HeapProgram

set_option autoImplicit false

/-!
# Calls of `MEM_Malloc` that run out of frames

The heap's headers lie behind the page tables, in frames that the allocator handed out. A request
that returns null maps a page to frame 0 or makes page 0 a table, and the call goes on.
-/
namespace Rizzos.HeapExhaustion
open ByteMemory Memory PageFrameAllocator PageTableManager HeapProgram
open KernelHeap (roundUp)

/-! ### The machine -/

/-- The addresses that the processor translates; any other one is a fault. -/
def Canonical (a : ℕ) : Prop := a < 2 ^ 47 ∨ 2 ^ 64 - 2 ^ 47 ≤ a ∧ a < 2 ^ 64

instance (a : ℕ) : Decidable (Canonical a) := inferInstanceAs (Decidable (_ ∨ _))

def pageBytes (t : Translation) : ℕ := 4096 * 512 ^ (4 - t.entries.length)

def physical (m : Mem) (pml4 a : ℕ) : Option ℕ :=
  if Canonical a then
    (translate m pml4 a).map fun t => t.frame / pageBytes t * pageBytes t + a % pageBytes t
  else none

/-- The bytes of an access. The first and the last of them are translated before any is touched. -/
def physicals (m : Mem) (pml4 a n : ℕ) : Option (List ℕ) := do
  let first ← physical m pml4 (wrap a)
  let last ← physical m pml4 (wrap (a + (n - 1)))
  some ((List.range n).map fun i =>
    if a % 4096 + i < 4096 then first + i else last - (n - 1 - i))

def fetch (m : Mem) : List ℕ → ℕ
  | [] => 0
  | x :: xs => (load8 m x).toNat + 256 * fetch m xs

def put : Mem → List ℕ → ℕ → Mem
  | m, [], _ => m
  | m, x :: xs, value => put (store8 m x (BitVec.ofNat 8 value)) xs (value / 256)

/-- The memory that the tables at `pml4` show. The tables themselves and the bitmap are used
    through the identity mapping of the kernel. -/
def pagedMemory (pml4 : ℕ) : HeapMemory (Machine Pfa) where
  load a n s := (physicals s.mem pml4 a n).map (fetch s.mem)
  store a n value s := (physicals s.mem pml4 a n).map fun xs => ⟨put s.mem xs value, s.alloc⟩
  mapPage := HeapBacking.mapPage pml4

def NullRequested (s s' : Machine Pfa) : Prop :=
  ∃ l, s'.alloc.requested = l ++ s.alloc.requested ∧ 0 ∈ l

structure Segment where
  address : ℕ
  lenght : ℕ
  last : ℕ
  free : ℕ

inductive Listed (pml4 : ℕ) (s : Machine Pfa) : ℕ → List Segment → Prop
  | last {seg lenght last free : ℕ} (hlenght : (pagedMemory pml4).load seg 8 s = some lenght)
      (hnext : (pagedMemory pml4).load (seg + 8) 8 s = some 0)
      (hlast : (pagedMemory pml4).load (seg + 16) 8 s = some last)
      (hfree : (pagedMemory pml4).load (seg + 24) 1 s = some free) :
      Listed pml4 s seg [⟨seg, lenght, last, free⟩]
  | cons {seg lenght next last free : ℕ} {rest : List Segment}
      (hlenght : (pagedMemory pml4).load seg 8 s = some lenght)
      (hnext : (pagedMemory pml4).load (seg + 8) 8 s = some next)
      (hlast : (pagedMemory pml4).load (seg + 16) 8 s = some last)
      (hfree : (pagedMemory pml4).load (seg + 24) 1 s = some free) (hne : next ≠ 0)
      (hrest : Listed pml4 s next rest) : Listed pml4 s seg (⟨seg, lenght, last, free⟩ :: rest)

/-- What a call that runs out of frames is to do: return null and leave the heap and the
    translations alone, with every page of the heap on a frame of its own other than frame 0. -/
structure Refused (pml4 : ℕ) (s : HeapState (Machine Pfa)) (p : ℕ) (s' : HeapState (Machine Pfa)) :
    Prop where
  null : p = 0
  segments : ∀ l, Listed pml4 s'.memory s'.heapStart l ↔ Listed pml4 s.memory s.heapStart l
  heapEnd : s'.heapEnd = s.heapEnd
  lastHdr : s'.lastHdr = s.lastHdr
  translations : ∀ a, translate s'.memory.mem pml4 a = translate s.memory.mem pml4 a
  backed : ∀ a t, s'.heapStart ≤ a → a < s'.heapEnd →
    translate s'.memory.mem pml4 a = some t → t.frame ≠ 0
  apart : ∀ a b t u, s'.heapStart ≤ a → a < s'.heapEnd → s'.heapStart ≤ b → b < s'.heapEnd →
    a / 4096 ≠ b / 4096 → translate s'.memory.mem pml4 a = some t →
    translate s'.memory.mem pml4 b = some u → t.frame ≠ u.frame

/-- A call that has not returned has refused nothing. -/
def Refuses (pml4 : ℕ) (s : HeapState (Machine Pfa)) : Except Halt ℕ × HeapState (Machine Pfa) → Prop
  | (.ok p, s') => Refused pml4 s p s'
  | (.error _, _) => False

/-! ### Every call fails -/

/-- Equal steps that come back to where they began do so over an address half the address space
    away. -/
theorem exists_opposite {R n : ℕ} (hR : 0 < R) (hlt : R < 2 ^ 64) (hn : 0 < n)
    (hback : 2 ^ 64 ∣ n * R) : ∃ i < n, wrap (i * R) = 2 ^ 63 := by
  obtain ⟨k, m, hodd, rfl⟩ := Nat.exists_eq_two_pow_mul_odd hR.ne'
  have hk : k < 64 := by
    by_contra hle
    have hpow : 2 ^ 64 ≤ 2 ^ k := Nat.pow_le_pow_right (by decide) (not_lt.1 hle)
    have hmul : 2 ^ k * 1 ≤ 2 ^ k * m := Nat.mul_le_mul_left _ hodd.pos
    omega
  have hcoprime : Nat.Coprime (2 ^ 64) m := Nat.Coprime.pow_left _ hodd.coprime_two_left
  have hdvd : 2 ^ 64 ∣ n * 2 ^ k := by
    rw [← Nat.mul_assoc] at hback
    exact hcoprime.dvd_of_dvd_mul_right hback
  have hpow : 2 ^ 64 = 2 ^ (63 - k) * 2 * 2 ^ k := by
    rw [Nat.mul_assoc, ← pow_succ', ← pow_add]
    congr 1
    omega
  have hturns : 2 ^ (63 - k) * 2 ∣ n := by
    rw [hpow] at hdvd
    exact Nat.dvd_of_mul_dvd_mul_right (Nat.two_pow_pos k) hdvd
  refine ⟨2 ^ (63 - k), ?_, ?_⟩
  · have hle := Nat.le_of_dvd hn hturns
    have hpos := Nat.two_pow_pos (63 - k)
    omega
  · obtain ⟨j, rfl⟩ := hodd
    have hhalf : 2 ^ (63 - k) * (2 ^ k * (2 * j + 1)) = 2 ^ 64 * j + 2 ^ 63 := by
      rw [← Nat.mul_assoc, ← pow_add, show 63 - k + k = 63 by omega]
      ring
    rw [hhalf, wrap]
    omega

theorem not_canonical_opposite {a : ℕ} (h : Canonical (wrap a)) : ¬ Canonical (wrap (a + 2 ^ 63)) := by
  unfold Canonical wrap at *
  omega

section Malloc
variable {pml4 : ℕ} {s s' : HeapState (Machine Pfa)}

theorem physicals_canonical {m : Mem} {a n : ℕ} {xs : List ℕ}
    (h : physicals m pml4 a n = some xs) : Canonical (wrap a) := by
  obtain ⟨first, hfirst, -⟩ := Option.bind_eq_some_iff.1 h
  by_contra hnot
  rw [physical, if_neg hnot] at hfirst
  cases hfirst

theorem stored_canonical {a : ℕ} (h : Stored (pagedMemory pml4) a) : Canonical (wrap a) := by
  obtain ⟨value, m, m', hstore⟩ := h
  obtain ⟨xs, hxs, -⟩ := Option.map_eq_some_iff.1 hstore
  exact physicals_canonical hxs

theorem pagedMemory_keeps : StoresKeep (pagedMemory pml4) Machine.alloc := by
  intro a n value m m' hstore
  obtain ⟨xs, -, rfl⟩ := Option.map_eq_some_iff.1 hstore
  rfl

theorem not_nullRequested_self (s : Machine Pfa) : ¬ NullRequested s s := by
  rintro ⟨l, heq, hl⟩
  rw [List.self_eq_append_left.1 heq] at hl
  cases hl

/-- A call that has requested frames and returns has moved the end of the heap: to come back to it,
    an expansion would have written a header halfway around, where no address is translated. -/
theorem memMalloc_moves {fuel size p : ℕ} (hsize : size < 2 ^ 64)
    (hcall : memMalloc (pagedMemory pml4) fuel size s = (.ok p, s'))
    (hrequested : s'.memory.alloc ≠ s.memory.alloc) : s'.heapEnd ≠ s.heapEnd := by
  obtain ⟨n, hexpanded⟩ := memMalloc_expanded pagedMemory_keeps hcall
  have hlt : roundUp frameSize (roundUp 0x10 size) < 2 ^ 64 := by
    unfold roundUp
    split <;> split <;> first | exact wrap_lt _ | exact hsize
  generalize roundUp frameSize (roundUp 0x10 size) = R at hexpanded hlt
  have hn : 0 < n := Nat.pos_of_ne_zero fun hzero => hrequested (hexpanded.view (.inl hzero))
  have hR : 0 < R := Nat.pos_of_ne_zero fun hzero => hrequested (hexpanded.view (.inr hzero))
  intro hsame
  have hback : 2 ^ 64 ∣ n * R := by
    have hwrap := hexpanded.heapEnd
    rw [hsame] at hwrap
    unfold wrap at hwrap
    omega
  obtain ⟨i, hi, hhalf⟩ := exists_opposite hR hlt hn hback
  have hcanonical : ∀ j < n, Canonical (wrap (s.heapEnd + 24 + j * R)) := by
    intro j hj
    obtain ⟨e, he, hstored⟩ := hexpanded.header j hj
    have hheader := stored_canonical hstored
    rwa [← wrap_wrap_add, he, wrap_wrap_add, Nat.add_right_comm] at hheader
  have hfirst := hcanonical 0 hn
  rw [Nat.zero_mul, Nat.add_zero] at hfirst
  apply not_canonical_opposite hfirst
  have hopposite := hcanonical i hi
  rwa [← wrap_add_wrap, hhalf] at hopposite

/-- No call during which a request returns null is refused. -/
theorem memMalloc_null_not_refused (fuel : ℕ) {size : ℕ} (hsize : size < 2 ^ 64)
    (hnull : NullRequested s.memory (memMalloc (pagedMemory pml4) fuel size s).2.memory) :
    ¬ Refuses pml4 s (memMalloc (pagedMemory pml4) fuel size s) := by
  cases hcall : memMalloc (pagedMemory pml4) fuel size s with
  | mk result s' =>
    rw [hcall] at hnull
    cases result with
    | error halt => exact id
    | ok p =>
      intro hrefused
      have hrequested : s'.memory.alloc ≠ s.memory.alloc := by
        intro hsame
        obtain ⟨l, heq, hl⟩ := hnull
        rw [hsame] at heq
        exact not_nullRequested_self s.memory ⟨l, heq, hl⟩
      exact memMalloc_moves hsize hcall hrequested hrefused.heapEnd

end Malloc

/-! ### A machine without frames -/

/-- The words of two megabytes of memory: the tables for the identity mapping and for the sixteen
    pages of the heap, and the header of its one block. -/
def exhaustedWord (x : ℕ) : ℕ :=
  if x = 0x101000 then 0x102003
  else if x = 0x101100 then 0x105003
  else if x = 0x102000 then 0x103003
  else if x = 0x103000 then 0x104003
  else if 0x104000 ≤ x ∧ x < 0x105000 then (x - 0x104000) / 8 * 4096 + 3
  else if x = 0x105000 then 0x106003
  else if x = 0x106000 then 0x107003
  else if 0x107000 ≤ x ∧ x < 0x107080 then 0x110000 + (x - 0x107000) / 8 * 4096 + 3
  else if x = 0x110000 then 65504
  else 0

/-- Every bit of the bitmap at 0x108000 is set. -/
def exhaustedMem : Mem := fun x =>
  if 0x108000 ≤ x ∧ x < 0x108041 then 0xff else .ofNat 8 (exhaustedWord (x / 8 * 8) / 256 ^ (x % 8))

/-- The heap of boot with its one block in use. -/
def exhausted : HeapState (Machine Pfa) where
  memory := ⟨exhaustedMem, { initialPfa with pageBitmap := ⟨65, 0x108000⟩, lastReservedPage := 519 }⟩
  heapStart := 0x100000000000
  heapEnd := 0x100000010000
  lastHdr := 0x100000000000

def outcome (r : Except Halt ℕ × HeapState (Machine Pfa)) : Option ℕ × List ℕ × ℕ :=
  (r.1.toOption, r.2.memory.alloc.requested, r.2.heapEnd)

theorem exhausted_malloc : outcome (memMalloc (pagedMemory 0x101000) 6 16 exhausted) =
    (some 0x100000010020, [0], 0x100000011000) := by
  decide +kernel

theorem exhausted_nullRequested : NullRequested exhausted.memory
    (memMalloc (pagedMemory 0x101000) 6 16 exhausted).2.memory := by
  obtain ⟨-, hlog⟩ := Prod.mk.inj exhausted_malloc
  obtain ⟨hlog, -⟩ := Prod.mk.inj hlog
  exact ⟨[0], hlog, List.mem_singleton_self 0⟩

theorem memMalloc_null_not_refused_exhausted : ¬ Refuses 0x101000 exhausted
    (memMalloc (pagedMemory 0x101000) 6 16 exhausted) :=
  memMalloc_null_not_refused 6 (by decide) exhausted_nullRequested

/-- A call that needs a page gets a block, although its request for a frame failed. -/
theorem not_refuses_exhausted : NullRequested exhausted.memory
      (memMalloc (pagedMemory 0x101000) 6 16 exhausted).2.memory ∧
    ¬ Refuses 0x101000 exhausted (memMalloc (pagedMemory 0x101000) 6 16 exhausted) := by
  refine ⟨exhausted_nullRequested, ?_⟩
  obtain ⟨-, hlog⟩ := Prod.mk.inj exhausted_malloc
  obtain ⟨-, hend⟩ := Prod.mk.inj hlog
  generalize memMalloc (pagedMemory 0x101000) 6 16 exhausted = result at hend
  obtain ⟨result, s'⟩ := result
  cases result with
  | error halt => exact id
  | ok p =>
    intro hrefused
    exact absurd (hend.symm.trans hrefused.heapEnd) (by decide)

end Rizzos.HeapExhaustion
