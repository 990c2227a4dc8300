import Rizzos.PageFrameInit

set_option autoImplicit false

/-! The three counters of the page frame allocator against the bits of its bitmap. -/
namespace Rizzos.PageFrameCounters
open ByteMemory Memory UtilsBitmap PageFrameAllocator PageFrameRequests PageFrameInit

inductive PageChange where
  | lockPage
  | freePage
  | reservePage
  | unreservePage
deriving DecidableEq, Repr

def PageChange.apply : PageChange → ℕ → Machine Pfa → Machine Pfa
  | lockPage => PageFrameAllocator.pfaLockPage
  | freePage => PageFrameAllocator.pfaFreePage
  | reservePage => PageFrameAllocator.reservePage
  | unreservePage => PageFrameAllocator.unreservePage

/-- One step of the allocator, or a store by other code. -/
inductive PageStep where
  | change (c : PageChange) (address : ℕ)
  | requestPage
  | store (address : ℕ) (value : Byte)

def pageStep (s : Machine Pfa) : PageStep → Machine Pfa
  | .change c address => c.apply address s
  | .requestPage => (pfaRequestPage s).2
  | .store address value => ⟨store8 s.mem address value, s.alloc⟩

def pageSteps (s : Machine Pfa) (steps : List PageStep) : Machine Pfa := steps.foldl pageStep s

def loopSteps (c : PageChange) (address pageCount : ℕ) : List PageStep :=
  (List.range pageCount).map fun i => .change c (wrap (address + wrap (i * frameSize)))

def initSteps (bufferField : ℕ) (mmap : List EFIMemoryDescriptor) : List PageStep :=
  loopSteps .reservePage 0 (totalSize mmap / frameSize + 1) ++
  (mmap.filter (·.type = 7)).flatMap (fun desc =>
    loopSteps .unreservePage desc.physAddr desc.numPages) ++
  loopSteps .reservePage 0 0x100 ++
  loopSteps .lockPage bufferField (bitmapSize mmap / frameSize + 1)

def callSteps : ClientOp → List PageStep
  | .requestPage => [.requestPage]
  | .lockPage address => [.change .lockPage address]
  | .lockPages address pageCount => loopSteps .lockPage address pageCount
  | .freePage address => [.change .freePage address]
  | .freePages address pageCount => loopSteps .freePage address pageCount
  | .store address value => [.store address value]

theorem pageSteps_append (s : Machine Pfa) (xs ys : List PageStep) :
    pageSteps s (xs ++ ys) = pageSteps (pageSteps s xs) ys := List.foldl_append

theorem pageSteps_loop (c : PageChange) (address n : ℕ) (s : Machine Pfa) :
    pageSteps s (loopSteps c address n) = forPages c.apply address n s := by
  induction n with
  | zero => rfl
  | succ n ih =>
    rw [loopSteps, List.range_succ, List.map_append, pageSteps_append]
    change pageSteps (pageSteps s (loopSteps c address n)) _ = _
    rw [ih]
    rfl

theorem pageSteps_unreserve (mmap : List EFIMemoryDescriptor) (s : Machine Pfa) :
    pageSteps s ((mmap.filter (·.type = 7)).flatMap fun desc =>
      loopSteps .unreservePage desc.physAddr desc.numPages) = unreserveLoop mmap s := by
  induction mmap generalizing s with
  | nil => rfl
  | cons desc rest ih =>
    rw [unreserveLoop]
    by_cases htype : desc.type = 7
    · rw [List.filter_cons_of_pos (by simpa using htype), List.flatMap_cons, pageSteps_append,
        pageSteps_loop, ih, if_pos htype]
      rfl
    · rw [List.filter_cons_of_neg (by simpa using htype), ih, if_neg htype]

/-- The initialization is `initBitmap` and these steps. -/
theorem initialized_steps (bufferField : ℕ) (mmap : List EFIMemoryDescriptor) (m : Mem) :
    initialized bufferField mmap m =
      pageSteps (cleared mmap m) (initSteps bufferField mmap) := by
  rw [initialized_eq, initSteps, pageSteps_append, pageSteps_append, pageSteps_append,
    pageSteps_loop, pageSteps_loop, pageSteps_loop, pageSteps_unreserve]
  rfl

theorem clientStep_steps (s : Machine Pfa) (op : ClientOp) :
    (clientStep s op).2 = pageSteps s (callSteps op) := by
  cases op with
  | requestPage => rfl
  | lockPage address => rfl
  | lockPages address pageCount => exact (pageSteps_loop .lockPage address pageCount s).symm
  | freePage address => rfl
  | freePages address pageCount => exact (pageSteps_loop .freePage address pageCount s).symm
  | store address value => rfl

theorem clientRun_steps (s : Machine Pfa) (ops : List ClientOp) :
    (clientRun s ops).2 = pageSteps s (ops.flatMap callSteps) := by
  induction ops generalizing s with
  | nil => rfl
  | cons op ops ih =>
    rw [List.flatMap_cons, pageSteps_append, ← clientStep_steps, ← ih]
    rfl

def setBits (s : Machine Pfa) (n : ℕ) : ℕ := ((Finset.range n).filter fun j => busy s j = true).card

theorem setBits_congr {s t : Machine Pfa} {n : ℕ} (h : ∀ j < n, busy t j = busy s j) :
    setBits t n = setBits s n := by
  refine congrArg Finset.card (Finset.filter_congr fun j hj => ?_)
  rw [h j (Finset.mem_range.1 hj)]

theorem setBits_flip {s t : Machine Pfa} {n i : ℕ} (hi : i < n) (hs : busy s i = false)
    (ht : busy t i = true) (h : ∀ j < n, j ≠ i → busy t j = busy s j) :
    setBits t n = setBits s n + 1 := by
  have hinsert : (Finset.range n).filter (fun j => busy t j = true) =
      insert i ((Finset.range n).filter fun j => busy s j = true) := by
    ext j
    rw [Finset.mem_insert, Finset.mem_filter, Finset.mem_filter, Finset.mem_range]
    by_cases hji : j = i
    · simp [hji, hi, ht]
    · simp only [hji, false_or]
      refine and_congr_right fun hj => ?_
      rw [h j hj hji]
  rw [setBits, hinsert, Finset.card_insert_of_notMem (by simp [hs]), setBits]

def moved (value : Bool) : ℕ := if value then frameSize else 0

/-- The bookkeeping of a bit change moves a frame's bytes from one counter to another. -/
structure Transfer (account : ℕ → Pfa → Pfa) (value : Bool) : Prop where
  free : ∀ i p, wrap ((account i p).freeMemory + moved value) = wrap (p.freeMemory + moved !value)
  taken : ∀ i p, wrap ((account i p).usedMemory + (account i p).reservedMemory + moved !value) =
    wrap (p.usedMemory + p.reservedMemory + moved value)
  bound : ∀ i p, (account i p).freeMemory < 2 ^ 64

theorem lowerHint_counters (i : ℕ) (p : Pfa) : (lowerHint i p).freeMemory = p.freeMemory ∧
    (lowerHint i p).usedMemory = p.usedMemory ∧
    (lowerHint i p).reservedMemory = p.reservedMemory := by
  unfold lowerHint
  split <;> exact ⟨rfl, rfl, rfl⟩

def PageChange.value : PageChange → Bool
  | lockPage | reservePage => true
  | freePage | unreservePage => false

theorem PageChange.op (c : PageChange) : PageOp c.apply c.value !c.value := by
  cases c with
  | lockPage => exact pfaLockPage_op
  | freePage => exact pfaFreePage_op
  | reservePage => exact reservePage_op
  | unreservePage => exact unreservePage_op

theorem transfer_set (f : Pfa → Pfa)
    (hfree : ∀ p, (f p).freeMemory = wrapSub p.freeMemory frameSize)
    (htaken : ∀ p, wrap ((f p).usedMemory + (f p).reservedMemory) =
      wrap (p.usedMemory + p.reservedMemory + frameSize)) : Transfer (fun _ p => f p) true where
  free _ p := by
    rw [hfree]
    simp only [wrap, wrapSub, moved, frameSize, Bool.not_true, if_true, Bool.false_eq_true, if_false]
    omega
  taken _ p := htaken p
  bound _ p := by
    rw [hfree]
    exact wrap_lt _

theorem transfer_clear (f : Pfa → Pfa)
    (hfree : ∀ p, (f p).freeMemory = wrap (p.freeMemory + frameSize))
    (htaken : ∀ p, wrap ((f p).usedMemory + (f p).reservedMemory + frameSize) =
      wrap (p.usedMemory + p.reservedMemory)) :
    Transfer (fun i p => lowerHint i (f p)) false where
  free i p := by
    obtain ⟨e, _⟩ := lowerHint_counters i (f p)
    rw [e, hfree, moved, moved, if_neg (by decide), if_pos (by decide), Nat.add_zero, wrap_wrap]
  taken i p := by
    obtain ⟨_, e, e'⟩ := lowerHint_counters i (f p)
    rw [e, e']
    exact htaken p
  bound i p := by
    obtain ⟨e, _⟩ := lowerHint_counters i (f p)
    rw [e, hfree]
    exact wrap_lt _

theorem PageChange.transfer (c : PageChange) :
    ∃ account, c.apply = changePage c.value account ∧ Transfer account c.value := by
  cases c with
  | lockPage =>
    change ∃ account, pfaLockPage = changePage true account ∧ Transfer account true
    refine ⟨_, rfl, transfer_set _ (fun _ => rfl) fun p => ?_⟩
    simp only [wrap, frameSize]
    omega
  | freePage =>
    change ∃ account, pfaFreePage = changePage false account ∧ Transfer account false
    refine ⟨_, rfl, transfer_clear _ (fun _ => rfl) fun p => ?_⟩
    simp only [wrap, wrapSub, frameSize]
    omega
  | reservePage =>
    change ∃ account, PageFrameAllocator.reservePage = changePage true account ∧
      Transfer account true
    refine ⟨_, rfl, transfer_set _ (fun _ => rfl) fun p => ?_⟩
    simp only [wrap, frameSize]
    omega
  | unreservePage =>
    change ∃ account, PageFrameAllocator.unreservePage = changePage false account ∧
      Transfer account false
    refine ⟨_, rfl, transfer_clear _ (fun _ => rfl) fun p => ?_⟩
    simp only [wrap, wrapSub, frameSize]
    omega

/-- From `s` to `t` the counters move as the first `n` bits do. -/
structure Conserves (n : ℕ) (s t : Machine Pfa) : Prop where
  bitmap : t.alloc.pageBitmap = s.alloc.pageBitmap
  taken : wrap (t.alloc.usedMemory + t.alloc.reservedMemory + frameSize * setBits s n) =
    wrap (s.alloc.usedMemory + s.alloc.reservedMemory + frameSize * setBits t n)
  total : wrap (t.alloc.freeMemory + t.alloc.usedMemory + t.alloc.reservedMemory) =
    wrap (s.alloc.freeMemory + s.alloc.usedMemory + s.alloc.reservedMemory)
  bound : s.alloc.freeMemory < 2 ^ 64 → t.alloc.freeMemory < 2 ^ 64
  size : t.alloc.memorySize = s.alloc.memorySize

section Conserves
variable {n : ℕ} {s t u : Machine Pfa}

theorem Conserves.trans (h : Conserves n s t) (h' : Conserves n t u) : Conserves n s u := by
  refine ⟨h'.bitmap.trans h.bitmap, ?_, h'.total.trans h.total, fun hs => h'.bound (h.bound hs),
    h'.size.trans h.size⟩
  have h1 := h.taken
  have h2 := h'.taken
  simp only [wrap, frameSize] at h1 h2 ⊢
  omega

theorem Conserves.of_same (hbitmap : t.alloc.pageBitmap = s.alloc.pageBitmap)
    (hfree : t.alloc.freeMemory = s.alloc.freeMemory)
    (hused : t.alloc.usedMemory = s.alloc.usedMemory)
    (hreserved : t.alloc.reservedMemory = s.alloc.reservedMemory)
    (hsize : t.alloc.memorySize = s.alloc.memorySize)
    (hbusy : ∀ j < n, busy t j = busy s j) : Conserves n s t := by
  refine ⟨hbitmap, ?_, ?_, fun hs => by rwa [hfree], hsize⟩
  · rw [hused, hreserved, setBits_congr hbusy]
  · rw [hfree, hused, hreserved]

/-- A change of one page's bit, when that bit is one of the first `n` or none that can be
    changed. -/
theorem conserves_change (c : PageChange) {address : ℕ} (hn : n ≤ limit s + 1)
    (hindex : address / frameSize < n ∨ limit s < address / frameSize) :
    Conserves n s (c.apply address s) := by
  have hbusy := fun j (hj : j < n) => c.op.busy address s (j := j) (by omega)
  have hbitmap := c.op.pageBitmap address s
  have hsize := c.op.memorySize address s
  obtain ⟨account, e, hacc⟩ := c.transfer
  rw [e] at hbusy hbitmap hsize ⊢
  obtain ⟨e', hkeep⟩ | ⟨e', hle, hne⟩ := changePage_cases c.value account address s
  · rw [e']
    exact .of_same rfl rfl rfl rfl rfl fun _ _ => rfl
  · have hi : address / frameSize < n := by omega
    have hset := hbusy _ hi
    rw [if_pos rfl] at hset
    have hcount : setBits (changePage c.value account address s) n + (if c.value then 0 else 1) =
        setBits s n + (if c.value then 1 else 0) := by
      have hother : ∀ j < n, j ≠ address / frameSize →
          busy (changePage c.value account address s) j = busy s j := by
        intro j hj hji
        rw [hbusy j hj, if_neg hji]
      cases hv : c.value with
      | true =>
        rw [hv] at hset hne hother
        exact setBits_flip hi (by simpa using hne) hset hother
      | false =>
        rw [hv] at hset hne hother
        exact (setBits_flip hi hset (by simpa using hne) fun j hj hji =>
          (hother j hj hji).symm).symm
    rw [e'] at hbitmap hsize hcount ⊢
    have hfree := hacc.free (address / frameSize) (touch [address / frameSize / 8]
      (touch [address / frameSize / 8] s.alloc))
    have htaken := hacc.taken (address / frameSize) (touch [address / frameSize / 8]
      (touch [address / frameSize / 8] s.alloc))
    simp only [touch] at hfree htaken hcount ⊢
    refine ⟨hbitmap, ?_, ?_, fun _ => hacc.bound _ _, hsize⟩
    · cases hv : c.value <;> rw [hv] at htaken hcount <;>
        simp only [moved, wrap, frameSize, Bool.not_true, Bool.not_false, if_true,
          Bool.false_eq_true, if_false] at htaken hcount ⊢ <;> omega
    · cases hv : c.value <;> rw [hv] at htaken hfree <;>
        simp only [moved, wrap, frameSize, Bool.not_true, Bool.not_false, if_true,
          Bool.false_eq_true, if_false] at htaken hfree ⊢ <;> omega

theorem conserves_request (hsize : s.alloc.pageBitmap.size ≤ 2 ^ 49) (hn : n = limit s ∨
    n = limit s + 1) : Conserves n s (pfaRequestPage s).2 := by
  have hlim := limit_eq hsize
  have hfound : Conserves n s (requestIndex s).2 := by
    obtain ⟨l, e, _⟩ | ⟨i, l, e, hi, _⟩ := requestIndex_cases s
    · rw [e]
      exact .of_same rfl rfl rfl rfl rfl fun _ _ => rfl
    · have hindex : wrap (i * frameSize) / frameSize = i := pointer_index (by omega)
      have hlooked : Conserves n s (looked l s) := .of_same rfl rfl rfl rfl rfl fun _ _ => rfl
      have hlock : Conserves n (looked l s) (pfaLockPage (wrap (i * frameSize)) (looked l s)) :=
        conserves_change .lockPage (by rw [looked_limit]; rcases hn with h | h <;> omega)
          (.inl (by rw [hindex]; rcases hn with h | h <;> omega))
      rw [e]
      exact (hlooked.trans hlock).trans (.of_same rfl rfl rfl rfl rfl fun _ _ => rfl)
  exact hfound.trans (.of_same rfl rfl rfl rfl rfl fun _ _ => rfl)

theorem conserves_store {address : ℕ} (value : Byte)
    (haddress : ∀ j < n, wrap address ≠ wrap (s.alloc.pageBitmap.buffer + j / 8)) :
    Conserves n s ⟨store8 s.mem address value, s.alloc⟩ := by
  refine .of_same rfl rfl rfl rfl rfl fun j hj => ?_
  apply bitmapGet_congr
  apply Function.update_of_ne
  exact (haddress j hj).symm

end Conserves

/-- The step works on one of the first `n` indices of the bitmap, or on none that the bitmap
    functions change. -/
def PageStep.Within (bitmap : Bitmap) (n : ℕ) : PageStep → Prop
  | .change _ address => address / frameSize < n ∨ 8 * bitmap.size < address / frameSize
  | .requestPage => True
  | .store address _ => ∀ j < n, wrap address ≠ wrap (bitmap.buffer + j / 8)

theorem pageSteps_conserves {n : ℕ} {s : Machine Pfa} (hsize : s.alloc.pageBitmap.size ≤ 2 ^ 49)
    (hn : n = limit s ∨ n = limit s + 1) (steps : List PageStep)
    (hsteps : ∀ step ∈ steps, step.Within s.alloc.pageBitmap n) :
    Conserves n s (pageSteps s steps) := by
  induction steps generalizing s with
  | nil => exact .of_same rfl rfl rfl rfl rfl fun _ _ => rfl
  | cons step steps ih =>
    have hlim := limit_eq hsize
    have hstep : Conserves n s (pageStep s step) := by
      have hwithin := hsteps step (by simp)
      cases step with
      | change c address =>
        change address / frameSize < n ∨ 8 * s.alloc.pageBitmap.size < _ at hwithin
        exact conserves_change c (by omega) (by omega)
      | requestPage => exact conserves_request hsize hn
      | store address value => exact conserves_store value hwithin
    have hlimit : limit (pageStep s step) = limit s := by rw [limit, hstep.bitmap, limit]
    have hrest := ih (s := pageStep s step) (by rw [hstep.bitmap]; exact hsize)
      (by rw [hlimit]; exact hn)
      fun step' hmem => by
        rw [hstep.bitmap]
        exact hsteps step' (by simp [hmem])
    exact hstep.trans hrest

/-- The used and reserved bytes are those of the set bits, and the three counters add up to
    the value of `memGetTotalSize`. -/
def CountersConserved (mmap : List EFIMemoryDescriptor) (s : Machine Pfa) : Prop :=
  wrap (s.alloc.usedMemory + s.alloc.reservedMemory) =
    wrap (4096 * setBits s (8 * s.alloc.pageBitmap.size)) ∧
  wrap (s.alloc.freeMemory + s.alloc.usedMemory + s.alloc.reservedMemory) =
    wrap (memGetTotalSize s.alloc.memorySize mmap)

section Cleared
variable (mmap : List EFIMemoryDescriptor) (m : Mem)

theorem setBits_cleared : setBits (cleared mmap m) (8 * bitmapSize mmap) = 0 := by
  rw [setBits, Finset.card_eq_zero, Finset.filter_eq_empty_iff]
  intro j hj
  rw [cleared_busy mmap m (Finset.mem_range.1 hj)]
  decide

theorem cleared_conserved {t : Machine Pfa}
    (h : Conserves (8 * bitmapSize mmap) (cleared mmap m) t) : CountersConserved mmap t := by
  have htaken := h.taken
  rw [setBits_cleared] at htaken
  have hbitmap : t.alloc.pageBitmap.size = bitmapSize mmap := by
    rw [h.bitmap]
    rfl
  have hsize : t.alloc.memorySize = totalSize mmap := h.size
  refine ⟨?_, ?_⟩
  · rw [hbitmap]
    simp only [Nat.mul_zero, Nat.add_zero] at htaken
    rw [htaken]
    change wrap (0 + 0 + frameSize * _) = _
    rw [Nat.zero_add, frameSize]
  · rw [hsize, memGetTotalSize_again, h.total]
    change wrap (totalSize mmap + 0 + 0) = _
    rw [Nat.add_zero]

end Cleared

/-- Every page that the initialization reserves, unreserves or locks is in the bitmap. -/
def InitInRange (bufferField : ℕ) (mmap : List EFIMemoryDescriptor) : Prop :=
  ∀ c address, .change c address ∈ initSteps bufferField mmap →
    address / frameSize < 8 * bitmapSize mmap

theorem within_of_inRange {bitmap : Bitmap} {op : ClientOp} (h : InRange bitmap op) :
    ∀ step ∈ callSteps op, step.Within bitmap (8 * bitmap.size) := by
  cases op with
  | requestPage => simp [callSteps, PageStep.Within]
  | lockPage address => simpa [callSteps] using .inl h
  | freePage address => simpa [callSteps] using .inl h
  | lockPages address pageCount =>
    simp only [callSteps, loopSteps, List.mem_map, List.mem_range]
    rintro _ ⟨i, hi, rfl⟩
    exact .inl (h i hi)
  | freePages address pageCount =>
    simp only [callSteps, loopSteps, List.mem_map, List.mem_range]
    rintro _ ⟨i, hi, rfl⟩
    exact .inl (h i hi)
  | store address value =>
    simp only [callSteps, List.mem_singleton, forall_eq]
    exact fun j hj => h (j / 8) (by omega)

theorem initSteps_change {bufferField : ℕ} {mmap : List EFIMemoryDescriptor} {step : PageStep}
    (h : step ∈ initSteps bufferField mmap) : ∃ c address, step = .change c address := by
  have hloop : ∀ c address n, step ∈ loopSteps c address n → ∃ c address, step = .change c address := by
    intro c address n hstep
    obtain ⟨i, _, rfl⟩ := List.mem_map.1 hstep
    exact ⟨_, _, rfl⟩
  simp only [initSteps, List.mem_append, List.mem_flatMap] at h
  obtain ((h | ⟨desc, _, h⟩) | h) | h := h <;> exact hloop _ _ _ h

/-- In every state of every run from the end of `initBitmap` on, in the loops of the
    initialization as well, the counters agree with the bitmap. -/
theorem counters_conserved (bufferField : ℕ) (mmap : List EFIMemoryDescriptor) (m : Mem)
    (ops : List ClientOp) (hinit : InitInRange bufferField mmap)
    (hops : ∀ op ∈ ops, InRange ⟨bitmapSize mmap, bitmapBuffer mmap⟩ op) :
    let steps := initSteps bufferField mmap ++ ops.flatMap callSteps
    pageSteps (cleared mmap m) (initSteps bufferField mmap) = initialized bufferField mmap m ∧
    pageSteps (cleared mmap m) steps = (clientRun (initialized bufferField mmap m) ops).2 ∧
    ∀ done, done <+: steps → CountersConserved mmap (pageSteps (cleared mmap m) done) := by
  intro steps
  have hinitialized := initialized_steps bufferField mmap m
  refine ⟨hinitialized.symm, ?_, fun done hdone => ?_⟩
  · rw [pageSteps_append, ← hinitialized, clientRun_steps]
  have hwithin : ∀ step ∈ steps, step.Within ⟨bitmapSize mmap, bitmapBuffer mmap⟩
      (8 * bitmapSize mmap) := by
    intro step hstep
    obtain hstep | hstep := List.mem_append.1 hstep
    · obtain ⟨c, address, rfl⟩ := initSteps_change hstep
      exact .inl (hinit c address hstep)
    · obtain ⟨op, hop, hstep⟩ := List.mem_flatMap.1 hstep
      exact within_of_inRange (hops op hop) step hstep
  exact cleared_conserved mmap m (pageSteps_conserves (bitmapSize_le mmap)
    (.inl (cleared_limit mmap m).symm) done fun step hstep => hwithin step (hdone.subset hstep))

theorem initInRange_of_ranges {bufferField : ℕ} {mmap : List EFIMemoryDescriptor}
    (hconventional : ∀ desc ∈ mmap, desc.type = 7 → ∀ i < desc.numPages,
      pageIndex desc.physAddr i < 8 * bitmapSize mmap) (hlow : 0x100 ≤ 8 * bitmapSize mmap)
    (hlock : ∀ i < bitmapSize mmap / frameSize + 1,
      pageIndex bufferField i < 8 * bitmapSize mmap) : InitInRange bufferField mmap := by
  have hloop : ∀ c address n, (∀ i < n, pageIndex address i < 8 * bitmapSize mmap) →
      ∀ c' address', .change c' address' ∈ loopSteps c address n →
        address' / frameSize < 8 * bitmapSize mmap := by
    intro c address n hindex c' address' hstep
    obtain ⟨i, hi, e⟩ := List.mem_map.1 hstep
    obtain ⟨_, rfl⟩ := PageStep.change.inj e
    exact hindex i (List.mem_range.1 hi)
  have hzero : ∀ n ≤ 8 * bitmapSize mmap, ∀ i < n, pageIndex 0 i < 8 * bitmapSize mmap := by
    intro n hn i hi
    have hsize := bitmapSize_le mmap
    unfold pageIndex frameSize
    rw [Nat.zero_add, wrap_wrap, wrap_of_lt (by omega)]
    omega
  intro c address hstep
  simp only [initSteps, List.mem_append, List.mem_flatMap, List.mem_filter, decide_eq_true_eq]
    at hstep
  obtain ((hstep | ⟨desc, ⟨hdesc, htype⟩, hstep⟩) | hstep) | hstep := hstep
  · exact hloop _ _ _ (hzero _ (pages_lt_limit mmap)) _ _ hstep
  · exact hloop _ _ _ (hconventional desc hdesc htype) _ _ hstep
  · exact hloop _ _ _ (hzero _ hlow) _ _ hstep
  · exact hloop _ _ _ hlock _ _ hstep

/-- A machine of `0x200` pages, with a page locked twice, freed twice and requested again. -/
theorem counters_conserved_small :
    let mmap : List EFIMemoryDescriptor := [⟨0, 0, 0x100⟩, ⟨7, 0x100000, 0x100⟩]
    let ops : List ClientOp := [.lockPage 0x180000, .lockPages 0x17f000 2, .freePage 0x180000,
      .freePages 0x180000 2, .requestPage]
    let steps := initSteps 0x108000 mmap ++ ops.flatMap callSteps
    pageSteps (cleared mmap (fun _ => 0xff#8)) (initSteps 0x108000 mmap) =
      initialized 0x108000 mmap (fun _ => 0xff#8) ∧
    pageSteps (cleared mmap (fun _ => 0xff#8)) steps =
      (clientRun (initialized 0x108000 mmap (fun _ => 0xff#8)) ops).2 ∧
    ∀ done, done <+: steps →
      CountersConserved mmap (pageSteps (cleared mmap (fun _ => 0xff#8)) done) := by
  refine counters_conserved 0x108000 _ _ _ (initInRange_of_ranges ?_ ?_ ?_) ?_
  · decide +kernel
  · decide +kernel
  · decide +kernel
  · simp only [List.mem_cons, List.not_mem_nil, or_false, forall_eq_or_imp, forall_eq, InRange]
    decide +kernel

end Rizzos.PageFrameCounters
