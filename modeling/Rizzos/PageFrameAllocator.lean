import Rizzos.Memory
import Rizzos.UtilsBitmap

set_option autoImplicit false

/-! The page frame allocator of `paging/page_frame_allocator.c`. -/
namespace Rizzos.PageFrameAllocator
open ByteMemory Memory UtilsBitmap

/-- The statics of the allocator and the `memory_size` static of `MEM_GetTotalSize`.
    `touched` and `requested` are histories: the bitmap byte offsets read or written so
    far, and the results of `pfaRequestPage`, both newest first. -/
structure Pfa where
  freeMemory : ℕ
  reservedMemory : ℕ
  usedMemory : ℕ
  initialized : Bool
  pageBitmap : Bitmap
  lastReservedPage : ℕ
  memorySize : ℕ
  touched : List ℕ
  requested : List ℕ

def initialPfa : Pfa := ⟨0, 0, 0, false, ⟨0, 0⟩, 0, 0, [], []⟩

def touch (offsets : List ℕ) (p : Pfa) : Pfa := { p with touched := offsets ++ p.touched }

/-- The shared body of the four functions that change one page's bit: return when the bit
    has the value already, otherwise set it and adjust the counters when `bitmapSet` agrees. -/
def changePage (value : Bool) (account : ℕ → Pfa → Pfa) (address : ℕ) (s : Machine Pfa) :
    Machine Pfa :=
  let index := address / frameSize
  let p := touch [index / 8] s.alloc
  if bitmapGet s.alloc.pageBitmap s.mem index = value then ⟨s.mem, p⟩
  else
    match bitmapSet s.alloc.pageBitmap s.mem index value with
    | (false, m) => ⟨m, p⟩
    | (true, m) => ⟨m, account index (touch [index / 8] p)⟩

def lowerHint (index : ℕ) (p : Pfa) : Pfa :=
  if p.lastReservedPage > index then { p with lastReservedPage := index } else p

def pfaLockPage : ℕ → Machine Pfa → Machine Pfa :=
  changePage true fun _ p =>
    { p with freeMemory := wrapSub p.freeMemory frameSize
             usedMemory := wrap (p.usedMemory + frameSize) }

def pfaFreePage : ℕ → Machine Pfa → Machine Pfa :=
  changePage false fun index p => lowerHint index
    { p with freeMemory := wrap (p.freeMemory + frameSize)
             usedMemory := wrapSub p.usedMemory frameSize }

def reservePage : ℕ → Machine Pfa → Machine Pfa :=
  changePage true fun _ p =>
    { p with freeMemory := wrapSub p.freeMemory frameSize
             reservedMemory := wrap (p.reservedMemory + frameSize) }

def unreservePage : ℕ → Machine Pfa → Machine Pfa :=
  changePage false fun index p => lowerHint index
    { p with freeMemory := wrap (p.freeMemory + frameSize)
             reservedMemory := wrapSub p.reservedMemory frameSize }

/-- The shared loop over `pageCount` pages from `address`. -/
def forPages (change : ℕ → Machine Pfa → Machine Pfa) (address : ℕ) :
    ℕ → Machine Pfa → Machine Pfa
  | 0, s => s
  | i + 1, s => change (wrap (address + wrap (i * frameSize))) (forPages change address i s)

def pfaLockPages : ℕ → ℕ → Machine Pfa → Machine Pfa := forPages pfaLockPage
def pfaFreePages : ℕ → ℕ → Machine Pfa → Machine Pfa := forPages pfaFreePage
def reservePages : ℕ → ℕ → Machine Pfa → Machine Pfa := forPages reservePage
def unreservePages : ℕ → ℕ → Machine Pfa → Machine Pfa := forPages unreservePage

def requestLoop : ℕ → ℕ → Machine Pfa → Option ℕ × Machine Pfa
  | 0, _, s => (none, s)
  | fuel + 1, index, s =>
    let t : Machine Pfa := ⟨s.mem, touch [index / 8] s.alloc⟩
    if bitmapGet t.alloc.pageBitmap t.mem index = true then requestLoop fuel (index + 1) t
    else
      let u := pfaLockPage (wrap (index * frameSize)) t
      (some index, ⟨u.mem, { u.alloc with lastReservedPage := index }⟩)

def limit (s : Machine Pfa) : ℕ := wrap (s.alloc.pageBitmap.size * 8)

def requestIndex (s : Machine Pfa) : Option ℕ × Machine Pfa :=
  requestLoop (limit s - s.alloc.lastReservedPage) s.alloc.lastReservedPage s

/-- The pointer is null when no index is found, and also for index zero. -/
def framePointer : Option ℕ → ℕ
  | none => 0
  | some index => wrap (index * frameSize)

def pfaRequestPage (s : Machine Pfa) : ℕ × Machine Pfa :=
  let (found, t) := requestIndex s
  let page := framePointer found
  (page, ⟨t.mem, { t.alloc with requested := page :: t.alloc.requested }⟩)

def pfaGetFreeMemorySize (s : Machine Pfa) : ℕ := s.alloc.freeMemory
def pfaGetUsedMemorySize (s : Machine Pfa) : ℕ := s.alloc.usedMemory
def pfaGetReservedMemorySize (s : Machine Pfa) : ℕ := s.alloc.reservedMemory

def initBitmap (bitmapSize bufferAddress : ℕ) (s : Machine Pfa) : Machine Pfa :=
  ⟨memSet64 s.mem bufferAddress 0 bitmapSize,
    touch (memSet64Offsets bitmapSize)
      { s.alloc with pageBitmap := ⟨bitmapSize, bufferAddress⟩ }⟩

def largestFreeMem : List EFIMemoryDescriptor → ℕ × ℕ → ℕ × ℕ
  | [], largest => largest
  | desc :: rest, largest =>
    if desc.type = 7 ∧ wrap (desc.numPages * frameSize) > largest.2 then
      largestFreeMem rest (desc.physAddr, wrap (desc.numPages * frameSize))
    else largestFreeMem rest largest

def unreserveLoop : List EFIMemoryDescriptor → Machine Pfa → Machine Pfa
  | [], s => s
  | desc :: rest, s =>
    if desc.type = 7 then unreserveLoop rest (unreservePages desc.physAddr desc.numPages s)
    else unreserveLoop rest s

/-- `bufferField` is `&g_pageBitmap.buffer`, the address of the static itself. -/
def pfaInitEfiMemoryMap (bufferField : ℕ) (mmap : List EFIMemoryDescriptor) (s : Machine Pfa) :
    Machine Pfa :=
  if s.alloc.initialized then s
  else
    let totalMemorySize := memGetTotalSize s.alloc.memorySize mmap
    let s : Machine Pfa := ⟨s.mem, { s.alloc with
      initialized := true, memorySize := totalMemorySize, freeMemory := totalMemorySize }⟩
    let s := initBitmap (totalMemorySize / (frameSize * 8) + 1) (largestFreeMem mmap (0, 0)).1 s
    let s := reservePages 0 (totalMemorySize / frameSize + 1) s
    let s := unreserveLoop mmap s
    let s := reservePages 0 0x100 s
    pfaLockPages bufferField (s.alloc.pageBitmap.size / frameSize + 1) s

def busy (s : Machine Pfa) (index : ℕ) : Bool := bitmapGet s.alloc.pageBitmap s.mem index

@[simp] theorem touch_pageBitmap (l : List ℕ) (p : Pfa) :
    (touch l p).pageBitmap = p.pageBitmap := rfl

@[simp] theorem lowerHint_pageBitmap (i : ℕ) (p : Pfa) :
    (lowerHint i p).pageBitmap = p.pageBitmap := by
  unfold lowerHint
  split <;> rfl

/-- The bookkeeping of a bit change: it may lower the hint to the index, and leaves the
    bitmap's place, the histories and the total alone. -/
structure Accounting (account : ℕ → Pfa → Pfa) (lowers : Bool) : Prop where
  pageBitmap : ∀ i p, (account i p).pageBitmap = p.pageBitmap
  hint : ∀ i p, (account i p).lastReservedPage =
    if lowers then min i p.lastReservedPage else p.lastReservedPage
  touched : ∀ i p, (account i p).touched = p.touched
  requested : ∀ i p, (account i p).requested = p.requested
  memorySize : ∀ i p, (account i p).memorySize = p.memorySize

theorem keepHint_accounting (f : Pfa → Pfa) (hb : ∀ p, (f p).pageBitmap = p.pageBitmap)
    (hh : ∀ p, (f p).lastReservedPage = p.lastReservedPage)
    (ht : ∀ p, (f p).touched = p.touched) (hr : ∀ p, (f p).requested = p.requested)
    (hm : ∀ p, (f p).memorySize = p.memorySize) : Accounting (fun _ p => f p) false :=
  ⟨fun _ => hb, fun _ => hh, fun _ => ht, fun _ => hr, fun _ => hm⟩

theorem lowerHint_accounting (f : Pfa → Pfa) (hb : ∀ p, (f p).pageBitmap = p.pageBitmap)
    (hh : ∀ p, (f p).lastReservedPage = p.lastReservedPage)
    (ht : ∀ p, (f p).touched = p.touched) (hr : ∀ p, (f p).requested = p.requested)
    (hm : ∀ p, (f p).memorySize = p.memorySize) :
    Accounting (fun i p => lowerHint i (f p)) true where
  pageBitmap i p := (lowerHint_pageBitmap i (f p)).trans (hb p)
  hint i p := by
    rw [if_pos rfl, ← hh p]
    by_cases h : (f p).lastReservedPage > i
    · rw [lowerHint, if_pos h]
      exact (Nat.min_eq_left (Nat.le_of_lt h)).symm
    · rw [lowerHint, if_neg h]
      exact (Nat.min_eq_right (Nat.le_of_not_gt h)).symm
  touched i p := by unfold lowerHint; split <;> exact ht p
  requested i p := by unfold lowerHint; split <;> exact hr p
  memorySize i p := by unfold lowerHint; split <;> exact hm p

def PageOp (change : ℕ → Machine Pfa → Machine Pfa) (value lowers : Bool) : Prop :=
  ∃ account, change = changePage value account ∧ Accounting account lowers

theorem pfaLockPage_op : PageOp pfaLockPage true false :=
  ⟨_, rfl, keepHint_accounting _ (fun _ => rfl) (fun _ => rfl) (fun _ => rfl) (fun _ => rfl)
    fun _ => rfl⟩

theorem pfaFreePage_op : PageOp pfaFreePage false true :=
  ⟨_, rfl, lowerHint_accounting _ (fun _ => rfl) (fun _ => rfl) (fun _ => rfl) (fun _ => rfl)
    fun _ => rfl⟩

theorem reservePage_op : PageOp reservePage true false :=
  ⟨_, rfl, keepHint_accounting _ (fun _ => rfl) (fun _ => rfl) (fun _ => rfl) (fun _ => rfl)
    fun _ => rfl⟩

theorem unreservePage_op : PageOp unreservePage false true :=
  ⟨_, rfl, lowerHint_accounting _ (fun _ => rfl) (fun _ => rfl) (fun _ => rfl) (fun _ => rfl)
    fun _ => rfl⟩

/-- Everything that one page operation can do. -/
theorem changePage_cases (value : Bool) (account : ℕ → Pfa → Pfa) (address : ℕ)
    (s : Machine Pfa) :
    (changePage value account address s = ⟨s.mem, touch [address / frameSize / 8] s.alloc⟩ ∧
      (busy s (address / frameSize) = value ∨ limit s < address / frameSize)) ∨
    (changePage value account address s =
        ⟨(bitmapSet s.alloc.pageBitmap s.mem (address / frameSize) value).2,
          account (address / frameSize) (touch [address / frameSize / 8]
            (touch [address / frameSize / 8] s.alloc))⟩ ∧
      address / frameSize ≤ limit s ∧ busy s (address / frameSize) ≠ value) := by
  dsimp only [changePage]
  by_cases hget : bitmapGet s.alloc.pageBitmap s.mem (address / frameSize) = value
  · rw [if_pos hget]
    exact .inl ⟨rfl, .inl hget⟩
  · rw [if_neg hget]
    by_cases hlim : address / frameSize ≤ limit s
    · rw [bitmapSet_of_le _ _ _ hlim]
      exact .inr ⟨rfl, hlim, hget⟩
    · rw [bitmapSet_of_gt _ _ _ (by unfold limit at hlim; omega)]
      exact .inl ⟨rfl, .inr (by omega)⟩

section PageOps
variable {change : ℕ → Machine Pfa → Machine Pfa} {value lowers : Bool}

theorem PageOp.pageBitmap (h : PageOp change value lowers) (address : ℕ) (s : Machine Pfa) :
    (change address s).alloc.pageBitmap = s.alloc.pageBitmap := by
  obtain ⟨account, rfl, hacc⟩ := h
  obtain ⟨e, _⟩ | ⟨e, _⟩ := changePage_cases value account address s <;> rw [e]
  · rfl
  · exact hacc.pageBitmap _ _

theorem PageOp.limit (h : PageOp change value lowers) (address : ℕ) (s : Machine Pfa) :
    limit (change address s) = limit s := by
  rw [PageFrameAllocator.limit, h.pageBitmap, PageFrameAllocator.limit]

theorem PageOp.requested (h : PageOp change value lowers) (address : ℕ) (s : Machine Pfa) :
    (change address s).alloc.requested = s.alloc.requested := by
  obtain ⟨account, rfl, hacc⟩ := h
  obtain ⟨e, _⟩ | ⟨e, _⟩ := changePage_cases value account address s <;> rw [e]
  · rfl
  · exact hacc.requested _ _

theorem PageOp.memorySize (h : PageOp change value lowers) (address : ℕ) (s : Machine Pfa) :
    (change address s).alloc.memorySize = s.alloc.memorySize := by
  obtain ⟨account, rfl, hacc⟩ := h
  obtain ⟨e, _⟩ | ⟨e, _⟩ := changePage_cases value account address s <;> rw [e]
  · rfl
  · exact hacc.memorySize _ _

theorem PageOp.busy (h : PageOp change value lowers) (address : ℕ) (s : Machine Pfa) {j : ℕ}
    (hj : j ≤ PageFrameAllocator.limit s) : busy (change address s) j =
      if j = address / frameSize then value else busy s j := by
  have hj64 : j < 2 ^ 64 := hj.trans_lt (wrap_lt _)
  obtain ⟨account, rfl, hacc⟩ := h
  obtain ⟨e, hkeep⟩ | ⟨e, hle, _⟩ := changePage_cases value account address s <;> rw [e]
  · by_cases hja : j = address / frameSize
    · subst hja
      obtain hkeep | hkeep := hkeep
      · rw [if_pos rfl]
        exact hkeep
      · omega
    · rw [if_neg hja]
      rfl
  · rw [PageFrameAllocator.busy, hacc.pageBitmap]
    exact bitmapGet_bitmapSet _ _ _ hle hj64

theorem PageOp.hint (h : PageOp change value lowers) (address : ℕ) (s : Machine Pfa) :
    (change address s).alloc.lastReservedPage =
        (if lowers then min (address / frameSize) s.alloc.lastReservedPage
          else s.alloc.lastReservedPage) ∨
      (change address s).alloc.lastReservedPage = s.alloc.lastReservedPage ∧
        (PageFrameAllocator.busy s (address / frameSize) = value ∨
          PageFrameAllocator.limit s < address / frameSize) := by
  obtain ⟨account, rfl, hacc⟩ := h
  obtain ⟨e, hkeep⟩ | ⟨e, _⟩ := changePage_cases value account address s <;> rw [e]
  · exact .inr ⟨rfl, hkeep⟩
  · exact .inl (hacc.hint _ _)

theorem PageOp.hint_le (h : PageOp change value lowers) (address : ℕ) (s : Machine Pfa) :
    (change address s).alloc.lastReservedPage ≤ s.alloc.lastReservedPage := by
  obtain e | ⟨e, _⟩ := h.hint address s <;> rw [e]
  split
  · exact Nat.min_le_right _ _
  · exact le_rfl

theorem PageOp.outside (h : PageOp change value lowers) (address : ℕ) (s : Machine Pfa) {x : ℕ}
    (hx : x ≠ wrap (s.alloc.pageBitmap.buffer + address / frameSize / 8)) :
    (change address s).mem x = s.mem x := by
  obtain ⟨account, rfl, hacc⟩ := h
  obtain ⟨e, _⟩ | ⟨e, _⟩ := changePage_cases value account address s <;> rw [e]
  exact bitmapSet_outside _ _ _ hx

theorem PageOp.touched (h : PageOp change value lowers) (address : ℕ) (s : Machine Pfa) {o : ℕ} :
    o ∈ (change address s).alloc.touched ↔
      o = address / frameSize / 8 ∨ o ∈ s.alloc.touched := by
  obtain ⟨account, rfl, hacc⟩ := h
  obtain ⟨e, _⟩ | ⟨e, _⟩ := changePage_cases value account address s <;> rw [e]
  · simp [touch]
  · rw [hacc.touched]
    simp [touch]

def pageIndex (address i : ℕ) : ℕ := wrap (address + wrap (i * frameSize)) / frameSize

def Named (address pageCount j : ℕ) : Prop := ∃ i < pageCount, j = pageIndex address i

instance (address pageCount j : ℕ) : Decidable (Named address pageCount j) :=
  inferInstanceAs (Decidable (∃ i < pageCount, j = pageIndex address i))

theorem named_zero (address j : ℕ) : ¬ Named address 0 j := by
  rintro ⟨i, hi, _⟩
  omega

theorem named_succ (address n j : ℕ) :
    Named address (n + 1) j ↔ j = pageIndex address n ∨ Named address n j := by
  constructor
  · rintro ⟨i, hi, e⟩
    obtain h | rfl : i < n ∨ i = n := by omega
    · exact .inr ⟨i, h, e⟩
    · exact .inl e
  · rintro (e | ⟨i, hi, e⟩)
    · exact ⟨n, by omega, e⟩
    · exact ⟨i, by omega, e⟩

/-- A loop that does not wrap names an interval of indices. -/
theorem named_iff {address n : ℕ} (h : address + n * frameSize ≤ 2 ^ 64) (j : ℕ) :
    Named address n j ↔ address / frameSize ≤ j ∧ j < address / frameSize + n := by
  have hindex : ∀ i < n, pageIndex address i = address / frameSize + i := by
    intro i hi
    have : (i + 1) * frameSize ≤ n * frameSize := Nat.mul_le_mul_right _ hi
    simp only [frameSize] at this h
    unfold pageIndex frameSize
    rw [wrap_of_lt (a := i * 0x1000) (by omega), wrap_of_lt (by omega)]
    omega
  constructor
  · rintro ⟨i, hi, rfl⟩
    rw [hindex i hi]
    omega
  · rintro ⟨hl, hu⟩
    exact ⟨j - address / frameSize, by omega, by rw [hindex _ (by omega)]; omega⟩

theorem forPages_pageBitmap (h : PageOp change value lowers) (address n : ℕ) (s : Machine Pfa) :
    (forPages change address n s).alloc.pageBitmap = s.alloc.pageBitmap := by
  induction n with
  | zero => rfl
  | succ n ih => rw [forPages, h.pageBitmap, ih]

theorem forPages_limit (h : PageOp change value lowers) (address n : ℕ) (s : Machine Pfa) :
    limit (forPages change address n s) = limit s := by
  rw [limit, forPages_pageBitmap h, limit]

theorem forPages_requested (h : PageOp change value lowers) (address n : ℕ) (s : Machine Pfa) :
    (forPages change address n s).alloc.requested = s.alloc.requested := by
  induction n with
  | zero => rfl
  | succ n ih => rw [forPages, h.requested, ih]

theorem forPages_memorySize (h : PageOp change value lowers) (address n : ℕ) (s : Machine Pfa) :
    (forPages change address n s).alloc.memorySize = s.alloc.memorySize := by
  induction n with
  | zero => rfl
  | succ n ih => rw [forPages, h.memorySize, ih]

theorem forPages_busy (h : PageOp change value lowers) (address n : ℕ) (s : Machine Pfa) {j : ℕ}
    (hj : j ≤ limit s) : busy (forPages change address n s) j =
      if Named address n j then value else busy s j := by
  induction n with
  | zero => rw [if_neg (named_zero address j), forPages]
  | succ n ih =>
    rw [forPages, h.busy _ _ (by rwa [forPages_limit h]), ih]
    change (if j = pageIndex address n then value else _) = _
    simp only [named_succ]
    by_cases hjn : j = pageIndex address n
    · rw [if_pos hjn, if_pos (.inl hjn)]
    · rw [if_neg hjn]
      simp only [hjn, false_or]

theorem forPages_hint_le (h : PageOp change value lowers) (address n : ℕ) (s : Machine Pfa) :
    (forPages change address n s).alloc.lastReservedPage ≤ s.alloc.lastReservedPage := by
  induction n with
  | zero => exact le_rfl
  | succ n ih =>
    rw [forPages]
    exact (h.hint_le _ _).trans ih

theorem forPages_touched (h : PageOp change value lowers) (address n : ℕ) (s : Machine Pfa)
    {o : ℕ} : o ∈ (forPages change address n s).alloc.touched ↔
      (∃ j, Named address n j ∧ o = j / 8) ∨ o ∈ s.alloc.touched := by
  induction n with
  | zero => simp [forPages, named_zero]
  | succ n ih =>
    rw [forPages, h.touched, ih]
    simp only [named_succ, or_and_right, exists_or, exists_eq_left, or_assoc]
    rfl

end PageOps

end Rizzos.PageFrameAllocator
