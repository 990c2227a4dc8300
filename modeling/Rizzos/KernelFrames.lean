import Rizzos.PageFrameInit

set_option autoImplicit false

/-! The frames that `InitializeMemory` of `kernel.c` sets aside, and what later requests return. -/
namespace Rizzos.KernelFrames
open ByteMemory Memory UtilsBitmap PageFrameAllocator PageFrameRequests PageFrameInit

/-- The linker places the kernel at two mebibytes. -/
def kernelStart : ℕ := 0x200000

/-- What the boot loader and the linker hand to the kernel: a memory map of an x86-64
    machine, the end of the kernel image, the address of the static `g_pageBitmap.buffer`
    inside the image, and the frame buffer. Physical addresses have 52 bits. -/
structure BootLayout where
  mmap : List EFIMemoryDescriptor
  kernelEnd : ℕ
  bufferField : ℕ
  baseAddress : ℕ
  bufferSize : ℕ
  descAligned : ∀ desc ∈ mmap, desc.physAddr % frameSize = 0
  descInRange : ∀ desc ∈ mmap, desc.physAddr + desc.numPages * frameSize ≤ 2 ^ 52
  kernelInRange : kernelStart ≤ kernelEnd ∧ kernelEnd ≤ 2 ^ 52
  fieldInKernel : kernelStart ≤ bufferField ∧ bufferField + 8 ≤ kernelEnd
  bufferInRange : baseAddress + bufferSize ≤ 2 ^ 52

def BootLayout.kernelPages (b : BootLayout) : ℕ := (b.kernelEnd - kernelStart) / frameSize + 1

def BootLayout.bufferPages (b : BootLayout) : ℕ := b.bufferSize / frameSize + 1

def BootLayout.fieldPages (b : BootLayout) : ℕ := bitmapSize b.mmap / frameSize + 1

/-- `InitializeMemory` up to the creation of the page table: the allocator is initialized
    and the kernel image and the frame buffer are locked. -/
def lockBootMemory (b : BootLayout) (s : Machine Pfa) : Machine Pfa :=
  let s := pfaInitEfiMemoryMap b.bufferField b.mmap s
  let s := pfaLockPages kernelStart b.kernelPages s
  pfaLockPages b.baseAddress b.bufferPages s

def afterRequests (s : Machine Pfa) : ℕ → Machine Pfa
  | 0 => s
  | n + 1 => (pfaRequestPage (afterRequests s n)).2

/-- Some later request of a sequence of requests returns the frame at `page`. -/
def Returned (s : Machine Pfa) (page : ℕ) : Prop :=
  page ≠ 0 ∧ ∃ n, (pfaRequestPage (afterRequests s n)).1 = page

theorem afterRequests_refines {s : Machine Pfa} (hsize : s.alloc.pageBitmap.size ≤ 2 ^ 49)
    (n : ℕ) : (afterRequests s n).alloc.pageBitmap = s.alloc.pageBitmap ∧
      held (afterRequests s n) = BusySet.after (limit s) (held s) n := by
  induction n with
  | zero => exact ⟨rfl, rfl⟩
  | succ n ih =>
    obtain ⟨hbitmap, hheld⟩ := ih
    have hlimit : limit (afterRequests s n) = limit s := by rw [limit, hbitmap, limit]
    refine ⟨(pfaRequestPage_pageBitmap _).trans hbitmap, ?_⟩
    rw [afterRequests, pfaRequestPage_held _ (hbitmap ▸ hsize), requestIndex_held, hlimit, hheld]
    rfl

theorem returned_iff {s : Machine Pfa} (hsize : s.alloc.pageBitmap.size ≤ 2 ^ 49) (page : ℕ) :
    Returned s page ↔ ∃ k, page = 4096 * k ∧ k ≠ 0 ∧ k < limit s ∧ k ∉ held s := by
  have hlim := limit_eq hsize
  have hfree : ∀ k, (∃ n, (requestIndex (afterRequests s n)).1 = some k) ↔
      k < limit s ∧ k ∉ held s := by
    intro k
    have hstep : ∀ n, (requestIndex (afterRequests s n)).1 =
        BusySet.lowest (limit s) (BusySet.after (limit s) (held s) n) := by
      intro n
      obtain ⟨hbitmap, hheld⟩ := afterRequests_refines hsize n
      rw [requestIndex_held, hheld, limit, hbitmap, limit]
    simp only [hstep, BusySet.returned_iff]
  constructor
  · rintro ⟨hne, n, hn⟩
    change framePointer (requestIndex (afterRequests s n)).1 = page at hn
    cases hi : (requestIndex (afterRequests s n)).1 with
    | none =>
      rw [hi] at hn
      exact absurd hn.symm hne
    | some k =>
      obtain ⟨hk, hb⟩ := (hfree k).1 ⟨n, hi⟩
      rw [hi, framePointer_some (by omega)] at hn
      exact ⟨k, hn.symm, by omega, hk, hb⟩
  · rintro ⟨k, rfl, hk0, hk, hb⟩
    obtain ⟨n, hn⟩ := (hfree k).2 ⟨hk, hb⟩
    refine ⟨by omega, n, ?_⟩
    change framePointer (requestIndex (afterRequests s n)).1 = _
    rw [hn, framePointer_some (by omega)]

/-- When the bits are known, so are the frames that a sequence of requests returns. -/
theorem returned_busy_iff {s : Machine Pfa} (h : HintInvariant s) {Busy : ℕ → Prop}
    [DecidablePred Busy] (hbusy : ∀ k < limit s, busy s k = decide (Busy k)) (hzero : Busy 0)
    (page : ℕ) : Returned s page ↔ ∃ k, page = 4096 * k ∧ k < limit s ∧ ¬ Busy k := by
  rw [returned_iff h.size, h.held_eq]
  refine exists_congr fun k => and_congr_right fun _ => ?_
  constructor
  · rintro ⟨_, hk, hfree⟩
    exact ⟨hk, fun hb => hfree ⟨hk, by rw [hbusy k hk, decide_eq_true hb]⟩⟩
  · rintro ⟨hk, hfree⟩
    refine ⟨fun hk0 => hfree (hk0 ▸ hzero), hk, fun hb => hfree ?_⟩
    exact of_decide_eq_true ((hbusy k hk).symm.trans hb.2)

def Overlaps (page lo hi : ℕ) : Prop := ∃ x, page ≤ x ∧ x < page + frameSize ∧ lo ≤ x ∧ x < hi

theorem overlaps_iff (page lo hi : ℕ) :
    Overlaps page lo hi ↔ lo < hi ∧ page < hi ∧ lo < page + frameSize := by
  have : 0 < frameSize := by decide
  constructor
  · rintro ⟨x, h⟩
    omega
  · rintro ⟨h, hp, hl⟩
    exact ⟨max page lo, by omega⟩

/-- A machine whose memory is described without gaps up to the end of the kernel; its largest
    type 7 region starts at one mebibyte and its frame buffer lies above all memory. -/
def contiguousLayout : BootLayout where
  mmap := [⟨7, 0, 0xa0⟩, ⟨0, 0xa0000, 0x60⟩, ⟨7, 0x100000, 0x100⟩, ⟨2, 0x200000, 0x10⟩]
  kernelEnd := 0x20c000
  bufferField := 0x20b008
  baseAddress := 0x80000000
  bufferSize := 0x4000
  descAligned := by decide
  descInRange := by decide
  kernelInRange := by decide
  fieldInKernel := by decide
  bufferInRange := by decide

def lowBitmapMap (kernelFrames : ℕ) : List EFIMemoryDescriptor :=
  [⟨0, 0, 0x10⟩, ⟨7, 0x10000, 0x90⟩, ⟨0, 0xa0000, 0x60⟩, ⟨7, 0x100000, 0x80⟩,
    ⟨0, 0x180000, 0x80⟩, ⟨2, 0x200000, kernelFrames⟩]

theorem lowBitmapMap_aligned (kernelFrames : ℕ) :
    ∀ desc ∈ lowBitmapMap kernelFrames, desc.physAddr % frameSize = 0 := by
  simp [lowBitmapMap, frameSize]

theorem lowBitmapMap_inRange {kernelFrames : ℕ} (h : kernelFrames ≤ 0x10) :
    ∀ desc ∈ lowBitmapMap kernelFrames, desc.physAddr + desc.numPages * frameSize ≤ 2 ^ 52 := by
  simp [lowBitmapMap, frameSize]
  omega

/-- A machine whose largest type 7 region lies in the first mebibyte, with a smaller one above
    it. The kernel's region has `kernelFrames` frames. -/
def lowBitmapLayout (kernelFrames : ℕ) (h : kernelFrames ≤ 0x10) : BootLayout where
  mmap := lowBitmapMap kernelFrames
  kernelEnd := 0x20c000
  bufferField := 0x20b008
  baseAddress := 0x80000000
  bufferSize := 0x4000
  descAligned := lowBitmapMap_aligned kernelFrames
  descInRange := lowBitmapMap_inRange h
  kernelInRange := by decide
  fieldInKernel := by decide
  bufferInRange := by decide

section Layout
variable (b : BootLayout) (m : Mem)

/-- The bits that are set when `InitializeMemory` starts to build the page tables. -/
def BootBusy (k : ℕ) : Prop :=
  FinallyBusy b.bufferField b.mmap k ∨ Named kernelStart b.kernelPages k ∨
    Named b.baseAddress b.bufferPages k

instance (k : ℕ) : Decidable (BootBusy b k) := inferInstanceAs (Decidable (_ ∨ _ ∨ _))

def booted : Machine Pfa := lockBootMemory b (entry m)

theorem booted_eq : booted b m = forPages pfaLockPage b.baseAddress b.bufferPages
    (forPages pfaLockPage kernelStart b.kernelPages (initialized b.bufferField b.mmap m)) := rfl

theorem booted_pageBitmap :
    (booted b m).alloc.pageBitmap = ⟨bitmapSize b.mmap, bitmapBuffer b.mmap⟩ := by
  rw [booted_eq, forPages_pageBitmap pfaLockPage_op, forPages_pageBitmap pfaLockPage_op,
    initialized_pageBitmap]

theorem booted_limit : limit (booted b m) = 8 * bitmapSize b.mmap := by
  rw [booted_eq, forPages_limit pfaLockPage_op, forPages_limit pfaLockPage_op, initialized_limit]

theorem booted_requested : (booted b m).alloc.requested = [] := by
  rw [booted_eq, forPages_requested pfaLockPage_op, forPages_requested pfaLockPage_op,
    initialized_requested]

theorem booted_memorySize : (booted b m).alloc.memorySize = totalSize b.mmap := by
  rw [booted_eq, forPages_memorySize pfaLockPage_op, forPages_memorySize pfaLockPage_op,
    initialized_memorySize]

theorem booted_invariant : HintInvariant (booted b m) :=
  ((initialized_invariant b.bufferField b.mmap m).forPages pfaLockPage_op (.inl rfl)
    kernelStart b.kernelPages).forPages pfaLockPage_op (.inl rfl) b.baseAddress b.bufferPages

theorem booted_busy {k : ℕ} (hk : k < 8 * bitmapSize b.mmap) :
    busy (booted b m) k = decide (BootBusy b k) := by
  have hl := initialized_limit b.bufferField b.mmap m
  rw [booted_eq, forPages_busy pfaLockPage_op, forPages_busy pfaLockPage_op,
    initialized_busy _ _ _ hk]
  · by_cases hbuf : Named b.baseAddress b.bufferPages k
    · simp [BootBusy, hbuf]
    · by_cases hker : Named kernelStart b.kernelPages k <;> simp [BootBusy, hbuf, hker]
  all_goals simp only [forPages_limit pfaLockPage_op, hl, hk.le]

theorem booted_returned_iff (page : ℕ) : Returned (booted b m) page ↔
    ∃ k, page = 4096 * k ∧ k < 8 * bitmapSize b.mmap ∧ ¬ BootBusy b k := by
  have hlimit := booted_limit b m
  rw [← hlimit]
  refine returned_busy_iff (booted_invariant b m) (fun k hk => ?_) ?_ page
  · exact booted_busy b m (hlimit ▸ hk)
  · exact .inl (.inr (.inl (by decide)))

theorem named_physical {address n k : ℕ} (h : address ≤ 2 ^ 53) (hn : n ≤ 2 ^ 50) :
    Named address n k ↔ address / frameSize ≤ k ∧ k < address / frameSize + n :=
  named_iff (by unfold frameSize; omega) k

theorem named_field (k : ℕ) : Named b.bufferField b.fieldPages k ↔
    b.bufferField / frameSize ≤ k ∧ k < b.bufferField / frameSize + b.fieldPages := by
  have hsize := bitmapSize_le b.mmap
  have hk := b.kernelInRange
  have hf := b.fieldInKernel
  exact named_physical (by omega) (by unfold BootLayout.fieldPages frameSize; omega)

theorem named_kernel (k : ℕ) : Named kernelStart b.kernelPages k ↔
    kernelStart / frameSize ≤ k ∧ k < kernelStart / frameSize + b.kernelPages := by
  have hk := b.kernelInRange
  exact named_physical (by decide) (by unfold BootLayout.kernelPages frameSize; omega)

theorem named_buffer (k : ℕ) : Named b.baseAddress b.bufferPages k ↔
    b.baseAddress / frameSize ≤ k ∧ k < b.baseAddress / frameSize + b.bufferPages := by
  have hb := b.bufferInRange
  exact named_physical (by omega) (by unfold BootLayout.bufferPages frameSize; omega)

theorem named_desc {desc : EFIMemoryDescriptor} (h : desc ∈ b.mmap) (k : ℕ) :
    Named desc.physAddr desc.numPages k ↔
      desc.physAddr / frameSize ≤ k ∧ k < desc.physAddr / frameSize + desc.numPages := by
  have hr := b.descInRange desc h
  simp only [frameSize] at hr
  exact named_physical (by omega) (by omega)

def InConventional (page : ℕ) : Prop :=
  ∃ desc ∈ b.mmap, desc.type = 7 ∧ desc.physAddr ≤ page ∧
    page + frameSize ≤ desc.physAddr + desc.numPages * frameSize

theorem conventional_iff (k : ℕ) : Conventional b.mmap k ↔ InConventional b (4096 * k) := by
  refine exists_congr fun desc => and_congr_right fun hd => and_congr_right fun _ => ?_
  have ha := b.descAligned desc hd
  rw [named_desc b hd]
  simp only [frameSize] at ha ⊢
  omega

theorem initialized_returned_iff (page : ℕ) : Returned (initialized b.bufferField b.mmap m) page ↔
    ∃ k, page = 4096 * k ∧ k < 8 * bitmapSize b.mmap ∧ ¬ FinallyBusy b.bufferField b.mmap k := by
  have hlimit := initialized_limit b.bufferField b.mmap m
  rw [← hlimit]
  refine returned_busy_iff (initialized_invariant _ _ m) (fun k hk => ?_) ?_ page
  · exact initialized_busy _ _ m (hlimit ▸ hk)
  · exact .inr (.inl (by decide))

/-! ## Frames of the kernel's own memory -/

/-- No sequence of requests returns a frame of the bitmap, the kernel or the frame buffer. -/
def KernelMemoryKept : Prop :=
  let bitmap := (booted b m).alloc.pageBitmap
  ∀ page, Returned (booted b m) page →
    ¬ Overlaps page bitmap.buffer (bitmap.buffer + bitmap.size) ∧
    ¬ Overlaps page kernelStart b.kernelEnd ∧
    ¬ Overlaps page b.baseAddress (b.baseAddress + b.bufferSize)

def HasRoom : Prop :=
  ∃ desc ∈ b.mmap, desc.type = 7 ∧ bitmapSize b.mmap ≤ desc.numPages * frameSize

/-- Every frame of the bitmap's storage is past the end of the bitmap, below `0x100`, or in one
    of the ranges that are locked. The first of these starts at the address of the static
    `g_pageBitmap.buffer`, not at the address that it holds. -/
def StorageLocked : Prop :=
  ∀ k, bitmapBuffer b.mmap / frameSize ≤ k →
    k * frameSize < bitmapBuffer b.mmap + bitmapSize b.mmap →
    8 * bitmapSize b.mmap ≤ k ∨ k < 0x100 ∨
    (b.bufferField / frameSize ≤ k ∧ k < b.bufferField / frameSize + b.fieldPages) ∨
    (kernelStart / frameSize ≤ k ∧ k < kernelStart / frameSize + b.kernelPages) ∨
    (b.baseAddress / frameSize ≤ k ∧ k < b.baseAddress / frameSize + b.bufferPages)

theorem largestFreeMem_spec (mmap : List EFIMemoryDescriptor) (largest : ℕ × ℕ) :
    (largestFreeMem mmap largest = largest ∨ ∃ desc ∈ mmap, desc.type = 7 ∧
      largestFreeMem mmap largest = (desc.physAddr, wrap (desc.numPages * frameSize))) ∧
    largest.2 ≤ (largestFreeMem mmap largest).2 ∧
    ∀ desc ∈ mmap, desc.type = 7 →
      wrap (desc.numPages * frameSize) ≤ (largestFreeMem mmap largest).2 := by
  induction mmap generalizing largest with
  | nil => simp [largestFreeMem]
  | cons desc rest ih =>
    rw [largestFreeMem]
    by_cases h : desc.type = 7 ∧ wrap (desc.numPages * frameSize) > largest.2
    · rw [if_pos h]
      obtain ⟨hfound, hge, hall⟩ := ih (desc.physAddr, wrap (desc.numPages * frameSize))
      refine ⟨.inr ?_, h.2.le.trans hge, ?_⟩
      · obtain e | ⟨d, hd, ht, e⟩ := hfound
        · exact ⟨desc, by simp, h.1, e⟩
        · exact ⟨d, by simp [hd], ht, e⟩
      · intro d hd ht
        obtain rfl | hd := List.mem_cons.1 hd
        · exact hge
        · exact hall d hd ht
    · rw [if_neg h]
      obtain ⟨hfound, hge, hall⟩ := ih largest
      refine ⟨?_, hge, ?_⟩
      · obtain e | ⟨d, hd, ht, e⟩ := hfound
        · exact .inl e
        · exact .inr ⟨d, by simp [hd], ht, e⟩
      · intro d hd ht
        obtain rfl | hd := List.mem_cons.1 hd
        · exact (Nat.le_of_not_gt fun hlt => h ⟨ht, hlt⟩).trans hge
        · exact hall d hd ht

/-- Given room, the bitmap lies inside the type 7 region it was put in. -/
theorem storage_conventional (hroom : HasRoom b) {k : ℕ}
    (hlo : bitmapBuffer b.mmap / frameSize ≤ k)
    (hhi : k * frameSize < bitmapBuffer b.mmap + bitmapSize b.mmap) : Conventional b.mmap k := by
  obtain ⟨room, hmem, htype, hsize⟩ := hroom
  have hwrap : ∀ desc ∈ b.mmap, wrap (desc.numPages * frameSize) = desc.numPages * frameSize := by
    intro desc hd
    have := b.descInRange desc hd
    exact wrap_of_lt (by omega)
  have hpos : 0 < bitmapSize b.mmap := Nat.succ_pos _
  obtain ⟨hfound, _, hall⟩ := largestFreeMem_spec b.mmap (0, 0)
  have hlargest := hall room hmem htype
  rw [hwrap room hmem] at hlargest
  obtain e | ⟨desc, hd, ht, e⟩ := hfound
  · rw [e] at hlargest
    exact absurd hlargest (by omega)
  · rw [e, hwrap desc hd] at hlargest
    have ha := b.descAligned desc hd
    have hbuf : bitmapBuffer b.mmap = desc.physAddr := by rw [bitmapBuffer, e]
    refine ⟨desc, hd, ht, (named_desc b hd k).2 ?_⟩
    rw [hbuf] at hlo hhi
    simp only [frameSize] at *
    omega

/-- The kernel image and the frame buffer are always kept; the bitmap's storage is kept
    exactly when all of its frames happen to be locked. -/
theorem kernelMemoryKept_iff_storageLocked (hroom : HasRoom b)
    (halign : b.baseAddress % frameSize = 0) : KernelMemoryKept b m ↔ StorageLocked b := by
  have hker := b.kernelInRange
  have hkernel : ∀ k, ¬ BootBusy b k → ¬ Overlaps (4096 * k) kernelStart b.kernelEnd := by
    intro k hb hov
    rw [overlaps_iff] at hov
    refine hb (.inr (.inl ((named_kernel b k).2 ?_)))
    simp only [BootLayout.kernelPages, kernelStart, frameSize] at *
    omega
  have hbuffer : ∀ k, ¬ BootBusy b k →
      ¬ Overlaps (4096 * k) b.baseAddress (b.baseAddress + b.bufferSize) := by
    intro k hb hov
    rw [overlaps_iff] at hov
    refine hb (.inr (.inr ((named_buffer b k).2 ?_)))
    simp only [BootLayout.bufferPages, frameSize] at *
    omega
  have hstorage : ∀ k, bitmapBuffer b.mmap / frameSize ≤ k →
      k * frameSize < bitmapBuffer b.mmap + bitmapSize b.mmap →
      (BootBusy b k ↔ k < 0x100 ∨
        (b.bufferField / frameSize ≤ k ∧ k < b.bufferField / frameSize + b.fieldPages) ∨
        (kernelStart / frameSize ≤ k ∧ k < kernelStart / frameSize + b.kernelPages) ∨
        (b.baseAddress / frameSize ≤ k ∧ k < b.baseAddress / frameSize + b.bufferPages)) := by
    intro k hlo hhi
    have hconv := storage_conventional b hroom hlo hhi
    rw [← named_field, ← named_kernel, ← named_buffer]
    simp only [BootBusy, FinallyBusy, BootLayout.fieldPages, hconv, not_true_eq_false, and_false,
      or_false, or_assoc]
    exact or_left_comm
  unfold KernelMemoryKept
  simp only [booted_pageBitmap, booted_returned_iff]
  constructor
  · intro hkept k hlo hhi
    by_contra hnot
    push Not at hnot
    obtain ⟨hlt, hrest⟩ := hnot
    have hfree : ¬ BootBusy b k := by
      rw [hstorage k hlo hhi]
      push Not
      exact hrest
    refine (hkept (4096 * k) ⟨k, rfl, hlt, hfree⟩).1 ((overlaps_iff _ _ _).2 ?_)
    have : 0 < bitmapSize b.mmap := Nat.succ_pos _
    simp only [frameSize] at *
    omega
  · rintro hlocked page ⟨k, rfl, hlt, hfree⟩
    refine ⟨fun hov => ?_, hkernel k hfree, hbuffer k hfree⟩
    rw [overlaps_iff] at hov
    have hlo : bitmapBuffer b.mmap / frameSize ≤ k := by
      simp only [frameSize] at *
      omega
    have hhi : k * frameSize < bitmapBuffer b.mmap + bitmapSize b.mmap := by
      simp only [frameSize] at *
      omega
    obtain hge | hcovered := hlocked k hlo hhi
    · omega
    · exact hfree ((hstorage k hlo hhi).2 hcovered)

/-- Where the bitmap lies below `0x100`, frames are returned and nothing is lost. -/
theorem kernelMemoryKept_lowBitmapLayout :
    Returned (booted (lowBitmapLayout 0x10 le_rfl) fun _ => 0#8) 0x100000 ∧
      KernelMemoryKept (lowBitmapLayout 0x10 le_rfl) (fun _ => 0#8) := by
  refine ⟨(booted_returned_iff _ _ _).2 ⟨0x100, rfl, by decide +kernel, by decide +kernel⟩, ?_⟩
  refine (kernelMemoryKept_iff_storageLocked (lowBitmapLayout 0x10 le_rfl) _
    (by unfold HasRoom; decide) rfl).2 fun k _ hhi => .inr (.inl ?_)
  change k * 0x1000 < 0x10000 + 67 at hhi
  omega

/-- The first frame requested is the first frame of the bitmap. -/
theorem kernelMemoryKept_contiguousLayout : HasRoom contiguousLayout ∧
    contiguousLayout.baseAddress % frameSize = 0 ∧
    ¬ KernelMemoryKept contiguousLayout (fun _ => 0#8) := by
  refine ⟨by unfold HasRoom; decide, by decide, fun hkept => ?_⟩
  have hreturned : Returned (booted contiguousLayout fun _ => 0#8) 0x100000 :=
    (booted_returned_iff _ _ _).2 ⟨0x100, rfl, by decide +kernel, by decide +kernel⟩
  refine (hkept _ hreturned).1 ((overlaps_iff _ _ _).2 ?_)
  rw [booted_pageBitmap]
  decide +kernel

/-! ## Frames that are not free memory -/

/-- Every frame a sequence of requests returns lies in a type 7 descriptor, above `0x100`. -/
def OnlyFreeMemory : Prop :=
  ∀ page, Returned (initialized b.bufferField b.mmap m) page →
    InConventional b page ∧ 0x100 ≤ page / frameSize

/-- The bits between the total page count and the end of the bitmap, which no loop
    reserves, are below `0x100`, in a type 7 descriptor or locked by the last loop. -/
def TrailingBitsCovered : Prop :=
  ∀ k, totalSize b.mmap / frameSize < k → k < 8 * bitmapSize b.mmap →
    k < 0x100 ∨ InConventional b (4096 * k) ∨
    (b.bufferField / frameSize ≤ k ∧ k < b.bufferField / frameSize + b.fieldPages)

theorem onlyFreeMemory_iff_covered : OnlyFreeMemory b m ↔ TrailingBitsCovered b := by
  unfold OnlyFreeMemory
  simp only [initialized_returned_iff]
  have hfinally : ∀ k, FinallyBusy b.bufferField b.mmap k ↔
      (b.bufferField / frameSize ≤ k ∧ k < b.bufferField / frameSize + b.fieldPages) ∨
      k < 0x100 ∨ (k < totalSize b.mmap / frameSize + 1 ∧ ¬ InConventional b (4096 * k)) := by
    intro k
    rw [← named_field, ← conventional_iff]
    rfl
  constructor
  · intro honly k hlo hhi
    by_contra hnot
    push Not at hnot
    obtain ⟨hlow, hconv, hfield⟩ := hnot
    refine hconv (honly (4096 * k) ⟨k, rfl, hhi, fun hb => ?_⟩).1
    obtain h | h | h := (hfinally k).1 hb
    · have := hfield h.1
      omega
    · omega
    · omega
  · rintro hcovered page ⟨k, rfl, hhi, hfree⟩
    rw [hfinally] at hfree
    push Not at hfree
    obtain ⟨hfield, hlow, hpast⟩ := hfree
    refine ⟨?_, by simp only [frameSize]; omega⟩
    by_cases hle : k < totalSize b.mmap / frameSize + 1
    · exact hpast hle
    · obtain h | h | h := hcovered k (by omega) hhi
      · omega
      · exact h
      · have := hfield h.1
        omega

/-- Frame `0x211`, past the end of memory, is returned. -/
theorem onlyFreeMemory_contiguousLayout :
    contiguousLayout.mmap.Pairwise (fun d e => d.physAddr + d.numPages * frameSize ≤ e.physAddr ∨
      e.physAddr + e.numPages * frameSize ≤ d.physAddr) ∧
    ¬ OnlyFreeMemory contiguousLayout (fun _ => 0#8) := by
  refine ⟨by decide, fun honly => ?_⟩
  have hreturned : Returned (initialized contiguousLayout.bufferField contiguousLayout.mmap
      fun _ => 0#8) 0x211000 :=
    (initialized_returned_iff _ _ _).2 ⟨0x211, rfl, by decide +kernel, by decide +kernel⟩
  have hin := (honly _ hreturned).1
  revert hin
  unfold InConventional
  decide

/-! ## Bounds of the bitmap -/

/-- Every bitmap byte that the initialization and the two later locks read or write lies in
    the bitmap, and every type 7 frame above `0x100` has a bit in it. -/
def BitmapInBounds : Prop :=
  let size := (booted b m).alloc.pageBitmap.size
  (∀ o ∈ (booted b m).alloc.touched, o < size) ∧
    ∀ k, InConventional b (4096 * k) → 0x100 ≤ k → k < 8 * size

/-- The size is a whole number of eight-byte words and at least 32, and every range that is
    unreserved or locked ends below `8 * size`. -/
structure RangesFit : Prop where
  words : bitmapSize b.mmap % 8 = 0
  low : 32 ≤ bitmapSize b.mmap
  descs : ∀ desc ∈ b.mmap, desc.type = 7 → desc.numPages = 0 ∨
    desc.physAddr / frameSize + desc.numPages ≤ 8 * bitmapSize b.mmap
  field : b.bufferField / frameSize + b.fieldPages ≤ 8 * bitmapSize b.mmap
  kernel : kernelStart / frameSize + b.kernelPages ≤ 8 * bitmapSize b.mmap
  buffer : b.baseAddress / frameSize + b.bufferPages ≤ 8 * bitmapSize b.mmap

theorem booted_touched {o : ℕ} : o ∈ (booted b m).alloc.touched ↔
    (∃ k, Named b.baseAddress b.bufferPages k ∧ o = k / 8) ∨
    (∃ k, Named kernelStart b.kernelPages k ∧ o = k / 8) ∨
    o ∈ (initialized b.bufferField b.mmap m).alloc.touched := by
  rw [booted_eq, forPages_touched pfaLockPage_op, forPages_touched pfaLockPage_op]

theorem interval_le {lo n last : ℕ} (hn : 0 < n) (h : ∀ k, lo ≤ k ∧ k < lo + n → k < last) :
    lo + n ≤ last := by
  have := h (lo + n - 1) (by omega)
  omega

theorem bitmapInBounds_iff_rangesFit : BitmapInBounds b m ↔ RangesFit b := by
  have hpages := pages_lt_limit b.mmap
  have hsize := bitmapSize_le b.mmap
  unfold BitmapInBounds
  simp only [booted_pageBitmap, booted_touched, initialized_touched]
  constructor
  · rintro ⟨htouched, _⟩
    have hindex : ∀ k, (∀ o, o = k / 8 → o < bitmapSize b.mmap) → k < 8 * bitmapSize b.mmap := by
      intro k h
      have := h _ rfl
      omega
    refine ⟨?_, ?_, ?_, ?_, ?_, ?_⟩
    · have := htouched (8 * ((bitmapSize b.mmap + 7) / 8) - 1)
        (.inr (.inr (.inr (.inr (.inr (.inr (List.mem_range.2 (by simp [bitmapSize]))))))))
      omega
    · have := htouched (0xff / 8) (.inr (.inr (.inr (.inl
        ⟨0xff, (named_from_zero (by decide)).2 (by decide), rfl⟩))))
      omega
    · intro desc hd ht
      obtain hzero | hpos := Nat.eq_zero_or_pos desc.numPages
      · exact .inl hzero
      · refine .inr (interval_le hpos fun k hk => hindex k ?_)
        exact fun o ho => htouched o
          (.inr (.inr (.inr (.inr (.inl ⟨k, ⟨desc, hd, ht, (named_desc b hd k).2 hk⟩, ho⟩)))))
    · refine interval_le (Nat.succ_pos _) fun k hk => hindex k fun o ho => htouched o ?_
      exact .inr (.inr (.inl ⟨k, (named_field b k).2 hk, ho⟩))
    · refine interval_le (Nat.succ_pos _) fun k hk => hindex k fun o ho => htouched o ?_
      exact .inr (.inl ⟨k, (named_kernel b k).2 hk, ho⟩)
    · refine interval_le (Nat.succ_pos _) fun k hk => hindex k fun o ho => htouched o ?_
      exact .inl ⟨k, (named_buffer b k).2 hk, ho⟩
  · intro hfit
    have hconv : ∀ k, Conventional b.mmap k → k < 8 * bitmapSize b.mmap := by
      rintro k ⟨desc, hd, ht, hk⟩
      rw [named_desc b hd] at hk
      obtain h | h := hfit.descs desc hd ht <;> omega
    refine ⟨?_, fun k hk _ => hconv k ((conventional_iff b k).2 hk)⟩
    rintro o (⟨k, hk, rfl⟩ | ⟨k, hk, rfl⟩ | ⟨k, hk, rfl⟩ | ⟨k, hk, rfl⟩ | ⟨k, hk, rfl⟩ |
      ⟨k, hk, rfl⟩ | ho)
    · have := (named_buffer b k).1 hk
      have := hfit.buffer
      omega
    · have := (named_kernel b k).1 hk
      have := hfit.kernel
      omega
    · have := (named_field b k).1 hk
      have := hfit.field
      omega
    · have := (named_from_zero (by decide)).1 hk
      have := hfit.low
      omega
    · have := hconv k hk
      omega
    · have := (named_from_zero (by have := totalSize_lt b.mmap; unfold frameSize; omega)).1 hk
      omega
    · have := List.mem_range.1 ho
      have := hfit.words
      omega

/-- Locking the frame buffer reads bitmap bytes far past the end. -/
theorem bitmapInBounds_contiguousLayout : ¬ BitmapInBounds contiguousLayout (fun _ => 0#8) := by
  rintro ⟨htouched, _⟩
  have hread := htouched 0x10000 ((booted_touched _ _).2
    (.inl ⟨0x80000, (named_buffer _ _).2 (by decide), rfl⟩))
  rw [booted_pageBitmap] at hread
  exact absurd hread (by decide +kernel)

end Layout

end Rizzos.KernelFrames
