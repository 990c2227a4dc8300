import Rizzos.PageFrameRequests

set_option autoImplicit false

/-! What `pfaInitEfiMemoryMap` leaves in the bitmap, for every memory map. -/
namespace Rizzos.PageFrameInit
open ByteMemory Memory UtilsBitmap PageFrameAllocator PageFrameRequests

def totalSize (mmap : List EFIMemoryDescriptor) : ℕ := memGetTotalSize 0 mmap

def bitmapSize (mmap : List EFIMemoryDescriptor) : ℕ := totalSize mmap / (frameSize * 8) + 1

def bitmapBuffer (mmap : List EFIMemoryDescriptor) : ℕ := (largestFreeMem mmap (0, 0)).1

def Conventional (mmap : List EFIMemoryDescriptor) (k : ℕ) : Prop :=
  ∃ desc ∈ mmap, desc.type = 7 ∧ Named desc.physAddr desc.numPages k

instance (mmap : List EFIMemoryDescriptor) (k : ℕ) : Decidable (Conventional mmap k) :=
  inferInstanceAs (Decidable (∃ desc ∈ mmap, desc.type = 7 ∧ Named desc.physAddr desc.numPages k))

theorem totalSize_lt (mmap : List EFIMemoryDescriptor) : totalSize mmap < 2 ^ 64 := by
  rw [totalSize, memGetTotalSize, if_neg (by omega), memGetTotalSizeLoop_eq _ _ (by omega)]
  exact wrap_lt _

theorem totalSize_mod (mmap : List EFIMemoryDescriptor) : totalSize mmap % 4096 = 0 := by
  rw [totalSize, memGetTotalSize, if_neg (by omega), memGetTotalSizeLoop_eq _ _ (by omega)]
  unfold wrap
  omega

theorem memGetTotalSize_again (mmap : List EFIMemoryDescriptor) :
    memGetTotalSize (totalSize mmap) mmap = totalSize mmap := by
  by_cases h : totalSize mmap > 0
  · rw [memGetTotalSize, if_pos h]
  · rw [show totalSize mmap = 0 by omega]
    have hzero : memGetTotalSize 0 mmap = totalSize mmap := rfl
    omega

theorem bitmapSize_le (mmap : List EFIMemoryDescriptor) : bitmapSize mmap ≤ 2 ^ 49 := by
  have := totalSize_lt mmap
  unfold bitmapSize frameSize
  omega

/-- The reserve loop stops inside the bitmap. -/
theorem pages_lt_limit (mmap : List EFIMemoryDescriptor) :
    totalSize mmap / frameSize < 8 * bitmapSize mmap := by
  unfold bitmapSize frameSize
  omega

theorem conventional_cons (desc : EFIMemoryDescriptor) (rest : List EFIMemoryDescriptor) (k : ℕ) :
    Conventional (desc :: rest) k ↔
      (desc.type = 7 ∧ Named desc.physAddr desc.numPages k) ∨ Conventional rest k := by
  simp [Conventional]

theorem unreserveLoop_pageBitmap (mmap : List EFIMemoryDescriptor) (s : Machine Pfa) :
    (unreserveLoop mmap s).alloc.pageBitmap = s.alloc.pageBitmap := by
  induction mmap generalizing s with
  | nil => rfl
  | cons desc rest ih =>
    rw [unreserveLoop]
    split
    · exact (ih _).trans (forPages_pageBitmap unreservePage_op _ _ s)
    · exact ih s

theorem unreserveLoop_limit (mmap : List EFIMemoryDescriptor) (s : Machine Pfa) :
    limit (unreserveLoop mmap s) = limit s := by
  rw [limit, unreserveLoop_pageBitmap, limit]

theorem unreserveLoop_requested (mmap : List EFIMemoryDescriptor) (s : Machine Pfa) :
    (unreserveLoop mmap s).alloc.requested = s.alloc.requested := by
  induction mmap generalizing s with
  | nil => rfl
  | cons desc rest ih =>
    rw [unreserveLoop]
    split
    · exact (ih _).trans (forPages_requested unreservePage_op _ _ s)
    · exact ih s

theorem unreserveLoop_memorySize (mmap : List EFIMemoryDescriptor) (s : Machine Pfa) :
    (unreserveLoop mmap s).alloc.memorySize = s.alloc.memorySize := by
  induction mmap generalizing s with
  | nil => rfl
  | cons desc rest ih =>
    rw [unreserveLoop]
    split
    · exact (ih _).trans (forPages_memorySize unreservePage_op _ _ s)
    · exact ih s

theorem unreserveLoop_hint_le (mmap : List EFIMemoryDescriptor) (s : Machine Pfa) :
    (unreserveLoop mmap s).alloc.lastReservedPage ≤ s.alloc.lastReservedPage := by
  induction mmap generalizing s with
  | nil => exact le_rfl
  | cons desc rest ih =>
    rw [unreserveLoop]
    split
    · exact (ih _).trans (forPages_hint_le unreservePage_op _ _ s)
    · exact ih s

theorem unreserveLoop_busy (mmap : List EFIMemoryDescriptor) (s : Machine Pfa) {k : ℕ}
    (hk : k ≤ limit s) : busy (unreserveLoop mmap s) k =
      if Conventional mmap k then false else busy s k := by
  induction mmap generalizing s with
  | nil => simp [unreserveLoop, Conventional]
  | cons desc rest ih =>
    simp only [unreserveLoop, conventional_cons]
    by_cases htype : desc.type = 7
    · rw [if_pos htype, ih _ (by rwa [unreservePages, forPages_limit unreservePage_op]),
        unreservePages, forPages_busy unreservePage_op _ _ s hk]
      by_cases hnamed : Named desc.physAddr desc.numPages k <;> simp [hnamed, htype]
    · rw [if_neg htype, ih s hk]
      simp only [htype, false_and, false_or]

theorem unreserveLoop_touched (mmap : List EFIMemoryDescriptor) (s : Machine Pfa) {o : ℕ} :
    o ∈ (unreserveLoop mmap s).alloc.touched ↔
      (∃ k, Conventional mmap k ∧ o = k / 8) ∨ o ∈ s.alloc.touched := by
  induction mmap generalizing s with
  | nil => simp [unreserveLoop, Conventional]
  | cons desc rest ih =>
    simp only [unreserveLoop, conventional_cons]
    by_cases htype : desc.type = 7
    · rw [if_pos htype, ih, unreservePages, forPages_touched unreservePage_op]
      simp only [htype, true_and, or_and_right, exists_or, or_assoc]
      exact or_left_comm
    · rw [if_neg htype, ih]
      simp only [htype, false_and, false_or]

/-- The state in which the kernel calls `pfaInitEfiMemoryMap`, with arbitrary memory. -/
def entry (m : Mem) : Machine Pfa := ⟨m, initialPfa⟩

def cleared (mmap : List EFIMemoryDescriptor) (m : Mem) : Machine Pfa :=
  initBitmap (bitmapSize mmap) (bitmapBuffer mmap) ⟨m, { initialPfa with
    initialized := true, memorySize := totalSize mmap, freeMemory := totalSize mmap }⟩

def initialized (bufferField : ℕ) (mmap : List EFIMemoryDescriptor) (m : Mem) : Machine Pfa :=
  pfaInitEfiMemoryMap bufferField mmap (entry m)

def FinallyBusy (bufferField : ℕ) (mmap : List EFIMemoryDescriptor) (k : ℕ) : Prop :=
  Named bufferField (bitmapSize mmap / frameSize + 1) k ∨ k < 0x100 ∨
    (k < totalSize mmap / frameSize + 1 ∧ ¬ Conventional mmap k)

instance (bufferField : ℕ) (mmap : List EFIMemoryDescriptor) (k : ℕ) :
    Decidable (FinallyBusy bufferField mmap k) :=
  inferInstanceAs (Decidable (_ ∨ _ ∨ _))

section Cleared
variable (mmap : List EFIMemoryDescriptor) (m : Mem)

theorem cleared_pageBitmap :
    (cleared mmap m).alloc.pageBitmap = ⟨bitmapSize mmap, bitmapBuffer mmap⟩ := rfl

theorem cleared_limit : limit (cleared mmap m) = 8 * bitmapSize mmap :=
  limit_eq (bitmapSize_le mmap)

theorem cleared_busy {k : ℕ} (hk : k < 8 * bitmapSize mmap) : busy (cleared mmap m) k = false := by
  have hsize := bitmapSize_le mmap
  rw [busy, bitmapGet_eq]
  have hzero : load8 (cleared mmap m).mem (bitmapBuffer mmap + k / 8) = 0#8 :=
    memSet64_zero m (bitmapBuffer mmap) (bitmapSize mmap) (k / 8) (by omega) (by omega)
  rw [cleared_pageBitmap, hzero]
  exact BitVec.getLsbD_zero

end Cleared

section Initialized
variable (bufferField : ℕ) (mmap : List EFIMemoryDescriptor) (m : Mem)

theorem initialized_eq : initialized bufferField mmap m =
    pfaLockPages bufferField (bitmapSize mmap / frameSize + 1) (reservePages 0 0x100
      (unreserveLoop mmap (reservePages 0 (totalSize mmap / frameSize + 1) (cleared mmap m)))) := by
  have hbitmap : (reservePages 0 0x100 (unreserveLoop mmap
      (reservePages 0 (totalSize mmap / frameSize + 1) (cleared mmap m)))).alloc.pageBitmap.size =
      bitmapSize mmap := by
    rw [reservePages, forPages_pageBitmap reservePage_op, unreserveLoop_pageBitmap,
      forPages_pageBitmap reservePage_op, cleared_pageBitmap]
  conv_rhs => rw [← hbitmap]
  rfl

theorem initialized_pageBitmap :
    (initialized bufferField mmap m).alloc.pageBitmap = ⟨bitmapSize mmap, bitmapBuffer mmap⟩ := by
  rw [initialized_eq, pfaLockPages, forPages_pageBitmap pfaLockPage_op, reservePages,
    forPages_pageBitmap reservePage_op, unreserveLoop_pageBitmap,
    forPages_pageBitmap reservePage_op, cleared_pageBitmap]

theorem initialized_limit : limit (initialized bufferField mmap m) = 8 * bitmapSize mmap := by
  rw [limit_eq (by rw [initialized_pageBitmap]; exact bitmapSize_le mmap), initialized_pageBitmap]

theorem initialized_requested : (initialized bufferField mmap m).alloc.requested = [] := by
  rw [initialized_eq, pfaLockPages, forPages_requested pfaLockPage_op, reservePages,
    forPages_requested reservePage_op, unreserveLoop_requested,
    forPages_requested reservePage_op]
  rfl

theorem initialized_memorySize :
    (initialized bufferField mmap m).alloc.memorySize = totalSize mmap := by
  rw [initialized_eq, pfaLockPages, forPages_memorySize pfaLockPage_op, reservePages,
    forPages_memorySize reservePage_op, unreserveLoop_memorySize,
    forPages_memorySize reservePage_op]
  rfl

theorem initialized_hint : (initialized bufferField mmap m).alloc.lastReservedPage = 0 := by
  rw [initialized_eq]
  refine Nat.le_zero.1 ((forPages_hint_le pfaLockPage_op _ _ _).trans ?_)
  refine (forPages_hint_le reservePage_op _ _ _).trans ?_
  refine (unreserveLoop_hint_le mmap _).trans ?_
  exact forPages_hint_le reservePage_op _ _ _

theorem initialized_invariant : HintInvariant (initialized bufferField mmap m) := by
  refine ⟨by rw [initialized_pageBitmap]; exact bitmapSize_le mmap, fun j hj _ => ?_⟩
  rw [initialized_hint] at hj
  omega

theorem named_from_zero {n k : ℕ} (hn : n ≤ 2 ^ 52) : Named 0 n k ↔ k < n := by
  rw [named_iff (by unfold frameSize; omega)]
  simp

/-- The bitmap after the initialization, for every memory map. -/
theorem initialized_busy {k : ℕ} (hk : k < 8 * bitmapSize mmap) :
    busy (initialized bufferField mmap m) k = decide (FinallyBusy bufferField mmap k) := by
  have hpages := totalSize_lt mmap
  have hcl := cleared_limit mmap m
  rw [initialized_eq, pfaLockPages, forPages_busy pfaLockPage_op, reservePages,
    forPages_busy reservePage_op, unreserveLoop_busy, forPages_busy reservePage_op,
    cleared_busy mmap m hk]
  · simp only [named_from_zero (show 0x100 ≤ 2 ^ 52 by decide),
      named_from_zero (show totalSize mmap / frameSize + 1 ≤ 2 ^ 52 by unfold frameSize; omega),
      FinallyBusy]
    by_cases hlock : Named bufferField (bitmapSize mmap / frameSize + 1) k
    · simp [hlock]
    · by_cases hlow : k < 0x100
      · simp [hlow]
      · by_cases hconv : Conventional mmap k <;> simp [hlock, hlow, hconv]
  all_goals simp only [forPages_limit reservePage_op, unreserveLoop_limit, reservePages, hcl, hk.le]

theorem initialized_touched {o : ℕ} : o ∈ (initialized bufferField mmap m).alloc.touched ↔
    (∃ k, Named bufferField (bitmapSize mmap / frameSize + 1) k ∧ o = k / 8) ∨
    (∃ k, Named 0 0x100 k ∧ o = k / 8) ∨ (∃ k, Conventional mmap k ∧ o = k / 8) ∨
    (∃ k, Named 0 (totalSize mmap / frameSize + 1) k ∧ o = k / 8) ∨
    o ∈ memSet64Offsets (bitmapSize mmap) := by
  rw [initialized_eq, pfaLockPages, forPages_touched pfaLockPage_op, reservePages,
    forPages_touched reservePage_op, unreserveLoop_touched,
    forPages_touched reservePage_op]
  have hcleared : o ∈ (cleared mmap m).alloc.touched ↔ o ∈ memSet64Offsets (bitmapSize mmap) := by
    change o ∈ memSet64Offsets (bitmapSize mmap) ++ [] ↔ _
    rw [List.append_nil]
  rw [hcleared]

/-- Every run after the initialization is a run of lowest-free allocation on the indices
    below `8 * size`; in the state it ends in, the search from the hint finds what a scan from
    zero finds, which is an index that is not busy. -/
theorem initialized_run_refines (ops : List ClientOp)
    (hops : ∀ op ∈ ops, InRange (initialized bufferField mmap m).alloc.pageBitmap op) :
    let s := initialized bufferField mmap m
    let n := 8 * s.alloc.pageBitmap.size
    let t := (clientRun s ops).2
    (clientRun s ops).1 =
        (BusySet.run n (busySet s) (ops.map abstractOp)).1.map abstractResult ∧
      busySet t = (BusySet.run n (busySet s) (ops.map abstractOp)).2 ∧
      (requestIndex t).1 = (requestLoop n 0 t).1 ∧
      ∀ i, (requestIndex t).1 = some i → i ∉ busySet t := by
  intro s n t
  have hinv : HintInvariant s := initialized_invariant bufferField mmap m
  have hn : limit s = n := hinv.size_eq
  obtain ⟨hend, hlimit, hresults, hset⟩ := clientRun_refines ops hinv hops
  rw [hn] at hlimit hresults hset
  have hlowest := requestIndex_lowest hend
  refine ⟨hresults, hset, ?_, fun i hi => ?_⟩
  · have hscan := fullScan_lowest t
    rw [hlimit] at hscan
    exact (hlimit ▸ hlowest).trans hscan.symm
  · rw [hlowest] at hi
    exact (BusySet.lowest_eq_some_iff.1 hi).1.2

end Initialized

theorem bitmapSize_nil : bitmapSize [] = 1 := rfl

/-- An empty memory map gives a bitmap of eight frames. -/
theorem initialized_run_refines_empty :
    let s := initialized 0x200000 [] (fun _ => 0#8)
    let ops : List ClientOp := [.freePage 0x3000, .requestPage, .lockPages 0x1000 2, .requestPage]
    let n := 8 * s.alloc.pageBitmap.size
    let t := (clientRun s ops).2
    (clientRun s ops).1 =
        (BusySet.run n (busySet s) (ops.map abstractOp)).1.map abstractResult ∧
      busySet t = (BusySet.run n (busySet s) (ops.map abstractOp)).2 ∧
      (requestIndex t).1 = (requestLoop n 0 t).1 ∧
      ∀ i, (requestIndex t).1 = some i → i ∉ busySet t := by
  apply initialized_run_refines
  rw [initialized_pageBitmap, bitmapSize_nil]
  simp only [List.mem_cons, List.not_mem_nil, or_false, forall_eq_or_imp, forall_eq, InRange]
  decide

end Rizzos.PageFrameInit
