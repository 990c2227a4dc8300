import Rizzos.PageFrameAllocator
import Rizzos.BusySet

set_option autoImplicit false

/-! The page frame allocator refines the lowest-free allocation of indices. -/
namespace Rizzos.PageFrameRequests
open ByteMemory Memory UtilsBitmap PageFrameAllocator

def take (index : ℕ) (s : Machine Pfa) : Machine Pfa :=
  let u := pfaLockPage (wrap (index * frameSize)) s
  ⟨u.mem, { u.alloc with lastReservedPage := index }⟩

def looked (offsets : List ℕ) (s : Machine Pfa) : Machine Pfa := ⟨s.mem, touch offsets s.alloc⟩

@[simp] theorem looked_busy (l : List ℕ) (s : Machine Pfa) (j : ℕ) :
    busy (looked l s) j = busy s j := rfl

@[simp] theorem looked_limit (l : List ℕ) (s : Machine Pfa) : limit (looked l s) = limit s := rfl

theorem looked_looked (l k : List ℕ) (s : Machine Pfa) :
    looked l (looked k s) = looked (l ++ k) s := by
  simp [looked, touch]

/-- The search stops at the first clear bit from `index` on, or finds all of them set. -/
theorem requestLoop_cases (fuel index : ℕ) (s : Machine Pfa) :
    (∃ l, requestLoop fuel index s = (none, looked l s) ∧
      ∀ j, index ≤ j → j < index + fuel → busy s j = true) ∨
    (∃ i l, requestLoop fuel index s = (some i, take i (looked l s)) ∧
      index ≤ i ∧ i < index + fuel ∧ busy s i = false ∧
      ∀ j, index ≤ j → j < i → busy s j = true) := by
  induction fuel generalizing index s with
  | zero =>
    exact .inl ⟨[], rfl, by omega⟩
  | succ fuel ih =>
    by_cases hb : busy s index = true
    · have hstep : requestLoop (fuel + 1) index s =
          requestLoop fuel (index + 1) (looked [index / 8] s) := if_pos hb
      obtain ⟨l, e, hall⟩ | ⟨i, l, e, hlo, hhi, hfree, hall⟩ :=
        ih (index + 1) (looked [index / 8] s)
      · refine .inl ⟨l ++ [index / 8], ?_, fun j hj hj' => ?_⟩
        · rw [hstep, e, looked_looked]
        · by_cases hji : j = index
          · exact hji ▸ hb
          · exact hall j (by omega) (by omega)
      · refine .inr ⟨i, l ++ [index / 8], ?_, by omega, by omega, hfree, fun j hj hj' => ?_⟩
        · rw [hstep, e, looked_looked]
        · by_cases hji : j = index
          · exact hji ▸ hb
          · exact hall j (by omega) hj'
    · have hstep : requestLoop (fuel + 1) index s =
          (some index, take index (looked [index / 8] s)) := if_neg hb
      exact .inr ⟨index, [index / 8], hstep, le_rfl, by omega, by simpa using hb, by omega⟩

theorem requestIndex_cases (s : Machine Pfa) :
    (∃ l, requestIndex s = (none, looked l s) ∧
      ∀ j, s.alloc.lastReservedPage ≤ j → j < limit s → busy s j = true) ∨
    (∃ i l, requestIndex s = (some i, take i (looked l s)) ∧ i < limit s ∧
      busy s i = false ∧ ∀ j, s.alloc.lastReservedPage ≤ j → j < i → busy s j = true) := by
  obtain ⟨l, e, hall⟩ | ⟨i, l, e, _, hhi, hfree, hall⟩ :=
    requestLoop_cases (limit s - s.alloc.lastReservedPage) s.alloc.lastReservedPage s
  · exact .inl ⟨l, e, fun j hj hl => hall j hj (by omega)⟩
  · exact .inr ⟨i, l, e, by omega, hfree, hall⟩

def busySet (s : Machine Pfa) : Set ℕ := {j | j < limit s ∧ busy s j = true}

/-- Every index below the hint is busy, and the bitmap is no larger than the frames of a
    64-bit address space need. -/
structure HintInvariant (s : Machine Pfa) : Prop where
  size : s.alloc.pageBitmap.size ≤ 2 ^ 49
  hint : ∀ j < s.alloc.lastReservedPage, j < limit s → busy s j = true

theorem limit_eq {s : Machine Pfa} (h : s.alloc.pageBitmap.size ≤ 2 ^ 49) :
    limit s = 8 * s.alloc.pageBitmap.size := by
  rw [limit, wrap_of_lt (by omega), Nat.mul_comm]

theorem HintInvariant.limit_le {s : Machine Pfa} (h : HintInvariant s) : limit s ≤ 2 ^ 52 := by
  rw [limit_eq h.size]
  have := h.size
  omega

theorem pointer_index {i : ℕ} (h : i < 2 ^ 52) : wrap (i * frameSize) / frameSize = i := by
  rw [frameSize, wrap_of_lt (by omega)]
  omega

theorem framePointer_some {i : ℕ} (h : i < 2 ^ 52) : framePointer (some i) = 4096 * i := by
  simp only [framePointer, frameSize]
  rw [wrap_of_lt (by omega), Nat.mul_comm]

theorem take_busy {i j : ℕ} (s : Machine Pfa) (hi : i < 2 ^ 52) (hj : j ≤ limit s) :
    busy (take i s) j = if j = i then true else busy s j := by
  have := pfaLockPage_op.busy (wrap (i * frameSize)) s hj
  rwa [pointer_index hi] at this

/-- The indices that a search from `index` cannot find. -/
def passed (s : Machine Pfa) (index : ℕ) : Set ℕ :=
  {j | j < limit s ∧ (j < index ∨ busy s j = true)}

/-- The indices that no later request finds, unless the hint is lowered. -/
def held (s : Machine Pfa) : Set ℕ := passed s s.alloc.lastReservedPage

theorem requestLoop_lowest (index : ℕ) (s : Machine Pfa) :
    (requestLoop (limit s - index) index s).1 = BusySet.lowest (limit s) (passed s index) := by
  obtain ⟨l, e, hall⟩ | ⟨i, l, e, hlo, hhi, hfree, hall⟩ :=
    requestLoop_cases (limit s - index) index s <;> rw [e]
  · refine (BusySet.lowest_eq_none_iff.2 fun j hj => (⟨hj, ?_⟩ : _ ∧ _)).symm
    by_cases hji : j < index
    · exact .inl hji
    · exact .inr (hall j (by omega) (by omega))
  · refine (BusySet.lowest_eq_some_iff.2 ⟨⟨by omega, ?_⟩, ?_⟩).symm
    · rintro ⟨_, hi | hb⟩
      · omega
      · rw [hfree] at hb
        cases hb
    · rintro j ⟨hj, hjp⟩
      by_contra hji
      refine hjp ⟨hj, ?_⟩
      by_cases hjx : j < index
      · exact .inl hjx
      · exact .inr (hall j (by omega) (by omega))

theorem requestIndex_held (s : Machine Pfa) :
    (requestIndex s).1 = BusySet.lowest (limit s) (held s) := requestLoop_lowest _ s

theorem HintInvariant.held_eq {s : Machine Pfa} (h : HintInvariant s) : held s = busySet s := by
  ext j
  refine and_congr_right fun hj => ⟨fun hb => ?_, .inr⟩
  exact hb.elim (fun hlt => h.hint j hlt hj) id

/-- The search from the hint agrees with a scan of the whole bitmap. -/
theorem requestIndex_lowest {s : Machine Pfa} (h : HintInvariant s) :
    (requestIndex s).1 = BusySet.lowest (limit s) (busySet s) := by
  rw [requestIndex_held, h.held_eq]

theorem fullScan_lowest (s : Machine Pfa) :
    (requestLoop (limit s) 0 s).1 = BusySet.lowest (limit s) (busySet s) := by
  have hpassed : passed s 0 = busySet s := by
    ext j
    simp [passed, busySet]
  exact hpassed ▸ requestLoop_lowest 0 s

theorem requestIndex_pageBitmap (s : Machine Pfa) :
    (requestIndex s).2.alloc.pageBitmap = s.alloc.pageBitmap := by
  obtain ⟨l, e, _⟩ | ⟨i, l, e, _⟩ := requestIndex_cases s <;> rw [e]
  · rfl
  · exact pfaLockPage_op.pageBitmap _ _

theorem pfaRequestPage_pageBitmap (s : Machine Pfa) :
    (pfaRequestPage s).2.alloc.pageBitmap = s.alloc.pageBitmap := requestIndex_pageBitmap s

theorem pfaRequestPage_limit (s : Machine Pfa) : limit (pfaRequestPage s).2 = limit s := by
  rw [limit, pfaRequestPage_pageBitmap, limit]

theorem pfaRequestPage_busy {s : Machine Pfa} (h : HintInvariant s) {j : ℕ} (hj : j < limit s) :
    busy (pfaRequestPage s).2 j = if (requestIndex s).1 = some j then true else busy s j := by
  change busy (requestIndex s).2 j = _
  have hlim := h.limit_le
  obtain ⟨l, e, _⟩ | ⟨i, l, e, hi, _⟩ := requestIndex_cases s <;> rw [e]
  · simp
  · change busy (take i (looked l s)) j = _
    rw [take_busy (looked l s) (by omega) hj.le, looked_busy]
    simp only [Option.some_inj, eq_comm]

theorem pfaRequestPage_hint (s : Machine Pfa) :
    s.alloc.lastReservedPage ≤ (pfaRequestPage s).2.alloc.lastReservedPage ∧
      ∀ i, (requestIndex s).1 = some i → s.alloc.lastReservedPage ≤ i ∧ i < limit s ∧
        (pfaRequestPage s).2.alloc.lastReservedPage = i := by
  change s.alloc.lastReservedPage ≤ (requestIndex s).2.alloc.lastReservedPage ∧ ∀ i, _ → _ ∧ _ ∧
    (requestIndex s).2.alloc.lastReservedPage = i
  rw [requestIndex]
  obtain ⟨l, e, _⟩ | ⟨i, l, e, hlo, hhi, _⟩ :=
    requestLoop_cases (limit s - s.alloc.lastReservedPage) s.alloc.lastReservedPage s <;> rw [e]
  · exact ⟨le_rfl, fun i hi => by cases hi⟩
  · refine ⟨hlo, fun j hj => ?_⟩
    obtain rfl : i = j := Option.some.inj hj
    exact ⟨hlo, by omega, rfl⟩

theorem pfaRequestPage_held (s : Machine Pfa) (hsize : s.alloc.pageBitmap.size ≤ 2 ^ 49) :
    held (pfaRequestPage s).2 = held s ∪ {i | (requestIndex s).1 = some i} := by
  have hlim := limit_eq hsize
  have hhint := pfaRequestPage_hint s
  ext j
  simp only [held, passed, Set.mem_ofPred_eq, Set.mem_union, pfaRequestPage_limit]
  change j < limit s ∧ (_ ∨ busy (requestIndex s).2 j = true) ↔ _
  obtain ⟨l, e, _⟩ | ⟨i, l, e, hi, _, hall⟩ := requestIndex_cases s
  · have hkeep : (pfaRequestPage s).2.alloc.lastReservedPage = s.alloc.lastReservedPage := by
      change (requestIndex s).2.alloc.lastReservedPage = _
      rw [e]
      rfl
    rw [hkeep, e]
    simp
  · obtain ⟨hlo, _, hnew⟩ := hhint.2 i (by rw [e])
    rw [hnew, e]
    simp only [Option.some_inj]
    have hbusy : j < limit s → busy (take i (looked l s)) j = if j = i then true else busy s j :=
      fun hj => take_busy (looked l s) (by omega) hj.le
    constructor
    · rintro ⟨hj, hji | hb⟩
      · refine .inl ⟨hj, ?_⟩
        by_cases hjh : j < s.alloc.lastReservedPage
        · exact .inl hjh
        · exact .inr (hall j (by omega) hji)
      · rw [hbusy hj] at hb
        by_cases hji : j = i
        · exact .inr hji.symm
        · rw [if_neg hji] at hb
          exact .inl ⟨hj, .inr hb⟩
    · rintro (⟨hj, hjh | hb⟩ | rfl)
      · exact ⟨hj, .inl (by omega)⟩
      · refine ⟨hj, .inr ?_⟩
        rw [hbusy hj, hb, ite_self]
      · exact ⟨hi, .inr (by rw [hbusy hi, if_pos rfl])⟩

theorem HintInvariant.request {s : Machine Pfa} (h : HintInvariant s) :
    HintInvariant (pfaRequestPage s).2 := by
  refine ⟨(pfaRequestPage_pageBitmap s).symm ▸ h.size, fun j hj hl => ?_⟩
  rw [pfaRequestPage_limit] at hl
  have hbusy : busy s j = true := by
    by_cases hjh : j < s.alloc.lastReservedPage
    · exact h.hint j hjh hl
    · change j < (requestIndex s).2.alloc.lastReservedPage at hj
      obtain ⟨l, e, _⟩ | ⟨i, l, e, _, _, hall⟩ := requestIndex_cases s <;> rw [e] at hj
      · exact absurd hj hjh
      · exact hall j (by omega) hj
  rw [pfaRequestPage_busy h hl, hbusy, ite_self]

theorem pfaRequestPage_busySet {s : Machine Pfa} (h : HintInvariant s) :
    busySet (pfaRequestPage s).2 = busySet s ∪ {i | (requestIndex s).1 = some i} := by
  rw [← h.request.held_eq, pfaRequestPage_held s h.size, h.held_eq]

/-- A page operation leaves the invariant: one that clears a bit below the hint lowers the
    hint to it. -/
theorem HintInvariant.pageOp {change : ℕ → Machine Pfa → Machine Pfa} {value lowers : Bool}
    (hop : PageOp change value lowers) (hfree : value = true ∨ lowers = true) (address : ℕ)
    {s : Machine Pfa} (h : HintInvariant s) : HintInvariant (change address s) := by
  refine ⟨(hop.pageBitmap address s).symm ▸ h.size, fun j hj hl => ?_⟩
  rw [hop.limit] at hl
  rw [hop.busy address s hl.le]
  have hold := h.hint j (hj.trans_le (hop.hint_le address s)) hl
  by_cases hja : j = address / frameSize
  · rw [if_pos hja]
    obtain hv | hv := hfree
    · exact hv
    · obtain e | ⟨_, hb | hb⟩ := hop.hint address s
      · rw [e, if_pos hv] at hj
        omega
      · rw [← hb, ← hja, hold]
      · omega
  · rw [if_neg hja, hold]

theorem HintInvariant.forPages {change : ℕ → Machine Pfa → Machine Pfa} {value lowers : Bool}
    (hop : PageOp change value lowers) (hfree : value = true ∨ lowers = true) (address n : ℕ)
    {s : Machine Pfa} (h : HintInvariant s) : HintInvariant (forPages change address n s) := by
  induction n with
  | zero => exact h
  | succ n ih => exact ih.pageOp hop hfree _

theorem pageOp_busySet {change : ℕ → Machine Pfa → Machine Pfa} {value lowers : Bool}
    (hop : PageOp change value lowers) (address : ℕ) (s : Machine Pfa) :
    busySet (change address s) = {j | j < limit s ∧
      if j = address / frameSize then value = true else j ∈ busySet s} := by
  ext j
  simp only [busySet, Set.mem_ofPred_eq, hop.limit]
  refine and_congr_right fun hj => ?_
  rw [hop.busy address s hj.le]
  split
  · rfl
  · simp [hj]

theorem forPages_busySet {change : ℕ → Machine Pfa → Machine Pfa} {value lowers : Bool}
    (hop : PageOp change value lowers) (address n : ℕ) (s : Machine Pfa) :
    busySet (forPages change address n s) = {j | j < limit s ∧
      if Named address n j then value = true else j ∈ busySet s} := by
  ext j
  simp only [busySet, Set.mem_ofPred_eq, forPages_limit hop]
  refine and_congr_right fun hj => ?_
  rw [forPages_busy hop address n s hj.le]
  split
  · rfl
  · simp [hj]

/-- What the users of the allocator do between its initialization and a later state. -/
inductive ClientOp where
  | requestPage
  | lockPage (address : ℕ)
  | lockPages (address pageCount : ℕ)
  | freePage (address : ℕ)
  | freePages (address pageCount : ℕ)
  | store (address : ℕ) (value : Byte)

/-- The pointer an operation returns and the index found for it. -/
def clientStep (s : Machine Pfa) : ClientOp → (ℕ × Option ℕ) × Machine Pfa
  | .requestPage => (((pfaRequestPage s).1, (requestIndex s).1), (pfaRequestPage s).2)
  | .lockPage address => ((0, none), pfaLockPage address s)
  | .lockPages address pageCount => ((0, none), pfaLockPages address pageCount s)
  | .freePage address => ((0, none), pfaFreePage address s)
  | .freePages address pageCount => ((0, none), pfaFreePages address pageCount s)
  | .store address value => ((0, none), ⟨store8 s.mem address value, s.alloc⟩)

def clientRun (s : Machine Pfa) : List ClientOp → List (ℕ × Option ℕ) × Machine Pfa
  | [] => ([], s)
  | op :: ops =>
    ((clientStep s op).1 :: (clientRun (clientStep s op).2 ops).1,
      (clientRun (clientStep s op).2 ops).2)

@[simp] theorem clientRun_nil (s : Machine Pfa) : (clientRun s []).2 = s := rfl

/-- Addresses have a frame index that the bitmap covers, and no store hits its storage. -/
def InRange (b : Bitmap) : ClientOp → Prop
  | .requestPage => True
  | .lockPage address | .freePage address => address / frameSize < 8 * b.size
  | .lockPages address pageCount | .freePages address pageCount =>
    ∀ i < pageCount, pageIndex address i < 8 * b.size
  | .store address _ => ∀ i < b.size, wrap address ≠ wrap (b.buffer + i)

/-- The operation on the set of busy indices that a call stands for. -/
def abstractOp : ClientOp → BusySet.Op
  | .requestPage => .request
  | .lockPage address => .lock {address / frameSize}
  | .lockPages address pageCount => .lock {j | Named address pageCount j}
  | .freePage address => .free {address / frameSize}
  | .freePages address pageCount => .free {j | Named address pageCount j}
  | .store _ _ => .lock ∅

/-- A call that finds index `i` returns `4096 * i`. -/
def abstractResult : Option ℕ → ℕ × Option ℕ
  | none => (0, none)
  | some i => (4096 * i, some i)

theorem HintInvariant.size_eq {s : Machine Pfa} (h : HintInvariant s) :
    limit s = 8 * s.alloc.pageBitmap.size := limit_eq h.size

theorem store_busy {s : Machine Pfa} (h : HintInvariant s) {address j : ℕ} (value : Byte)
    (ha : InRange s.alloc.pageBitmap (.store address value)) (hj : j < limit s) :
    busy ⟨store8 s.mem address value, s.alloc⟩ j = busy s j := by
  apply bitmapGet_congr
  apply Function.update_of_ne
  exact (ha (j / 8) (by rw [h.size_eq] at hj; omega)).symm

/-- One call of the allocator is one step of the abstract allocator. -/
theorem clientStep_refines {s : Machine Pfa} (h : HintInvariant s) (op : ClientOp)
    (hop : InRange s.alloc.pageBitmap op) :
    HintInvariant (clientStep s op).2 ∧
    (clientStep s op).2.alloc.pageBitmap = s.alloc.pageBitmap ∧
    (clientStep s op).1 = abstractResult (BusySet.step (limit s) (busySet s) (abstractOp op)).1 ∧
    busySet (clientStep s op).2 = (BusySet.step (limit s) (busySet s) (abstractOp op)).2 := by
  have hsize := h.size_eq
  cases op with
  | requestPage =>
    refine ⟨h.request, pfaRequestPage_pageBitmap s, ?_, ?_⟩
    · change (framePointer (requestIndex s).1, (requestIndex s).1) =
        abstractResult (BusySet.lowest (limit s) (busySet s))
      rw [← requestIndex_lowest h]
      have hlim := h.limit_le
      obtain ⟨l, e, _⟩ | ⟨i, l, e, hi, _⟩ := requestIndex_cases s <;> rw [e]
      · rfl
      · rw [framePointer_some (by omega)]
        rfl
    · change busySet (pfaRequestPage s).2 = _
      rw [pfaRequestPage_busySet h, requestIndex_lowest h]
      rfl
  | lockPage address =>
    refine ⟨h.pageOp pfaLockPage_op (.inl rfl) address, pfaLockPage_op.pageBitmap address s, rfl, ?_⟩
    change busySet (pfaLockPage address s) = busySet s ∪ {address / frameSize}
    change address / frameSize < 8 * s.alloc.pageBitmap.size at hop
    rw [pageOp_busySet pfaLockPage_op]
    ext j
    by_cases hj : j = address / frameSize
    · simp [hj, hsize, hop]
    · simp only [Set.mem_ofPred_eq, Set.mem_union, Set.mem_singleton_iff, hj, or_false]
      exact and_iff_right_of_imp fun hb => hb.1
  | lockPages address pageCount =>
    refine ⟨h.forPages pfaLockPage_op (.inl rfl) address pageCount,
      forPages_pageBitmap pfaLockPage_op address pageCount s, rfl, ?_⟩
    change busySet (forPages pfaLockPage address pageCount s) =
      busySet s ∪ {j | Named address pageCount j}
    rw [forPages_busySet pfaLockPage_op]
    ext j
    by_cases hj : Named address pageCount j
    · obtain ⟨i, hi, rfl⟩ := id hj
      simp [hj, hsize, hop i hi]
    · simp only [Set.mem_ofPred_eq, Set.mem_union, hj, or_false]
      exact and_iff_right_of_imp fun hb => hb.1
  | freePage address =>
    refine ⟨h.pageOp pfaFreePage_op (.inr rfl) address, pfaFreePage_op.pageBitmap address s, rfl, ?_⟩
    change busySet (pfaFreePage address s) = busySet s \ {address / frameSize}
    rw [pageOp_busySet pfaFreePage_op]
    ext j
    by_cases hj : j = address / frameSize
    · simp [hj]
    · simp only [Set.mem_ofPred_eq, Set.mem_sdiff, Set.mem_singleton_iff, hj,
        not_false_eq_true, and_true]
      exact and_iff_right_of_imp fun hb => hb.1
  | freePages address pageCount =>
    refine ⟨h.forPages pfaFreePage_op (.inr rfl) address pageCount,
      forPages_pageBitmap pfaFreePage_op address pageCount s, rfl, ?_⟩
    change busySet (forPages pfaFreePage address pageCount s) =
      busySet s \ {j | Named address pageCount j}
    rw [forPages_busySet pfaFreePage_op]
    ext j
    by_cases hj : Named address pageCount j
    · simp [hj]
    · simp only [Set.mem_ofPred_eq, Set.mem_sdiff, hj, not_false_eq_true, and_true]
      exact and_iff_right_of_imp fun hb => hb.1
  | store address value =>
    refine ⟨⟨h.size, fun j hj hl => ?_⟩, rfl, rfl, ?_⟩
    · exact (store_busy h value hop hl).trans (h.hint j hj hl)
    · change busySet ⟨store8 s.mem address value, s.alloc⟩ = busySet s ∪ ∅
      ext j
      simp only [busySet, Set.mem_ofPred_eq, Set.union_empty]
      exact and_congr_right fun hj => by rw [store_busy h value hop hj]

theorem clientRun_refines (ops : List ClientOp) {s : Machine Pfa} (h : HintInvariant s)
    (hops : ∀ op ∈ ops, InRange s.alloc.pageBitmap op) :
    HintInvariant (clientRun s ops).2 ∧ limit (clientRun s ops).2 = limit s ∧
    (clientRun s ops).1 =
      (BusySet.run (limit s) (busySet s) (ops.map abstractOp)).1.map abstractResult ∧
    busySet (clientRun s ops).2 = (BusySet.run (limit s) (busySet s) (ops.map abstractOp)).2 := by
  induction ops generalizing s with
  | nil => exact ⟨h, rfl, rfl, rfl⟩
  | cons op ops ih =>
    obtain ⟨hinv, hbitmap, hresult, hset⟩ := clientStep_refines h op (hops op (by simp))
    have hlimit : limit (clientStep s op).2 = limit s := by
      rw [limit, hbitmap, limit]
    obtain ⟨hend, hlast, htail, hfinal⟩ := ih hinv fun o ho => hbitmap ▸ hops o (by simp [ho])
    rw [hlimit, hset] at htail hfinal
    refine ⟨hend, hlast.trans hlimit, ?_, hfinal⟩
    change (clientStep s op).1 :: (clientRun (clientStep s op).2 ops).1 = _
    rw [htail, hresult]
    rfl

end Rizzos.PageFrameRequests
