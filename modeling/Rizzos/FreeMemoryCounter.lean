import Rizzos.PageFrameCounters
import Rizzos.StepRuns

set_option autoImplicit false

/-! The free-memory counter against the frames that can still be requested. -/
namespace Rizzos.FreeMemoryCounter
open ByteMemory Memory UtilsBitmap PageFrameAllocator PageFrameRequests PageFrameInit
  PageFrameCounters StepRuns

/-- How many of the next `fuel` requests return a frame before one returns null. -/
def framesLeft : ℕ → Machine Pfa → ℕ
  | 0, _ => 0
  | fuel + 1, s =>
    let (page, t) := pfaRequestPage s
    if page = 0 then 0 else framesLeft fuel t + 1

/-- Each request that returns a frame sets a bit, so `limit` requests are enough to exhaust
    the bitmap. -/
def FreeExact (s : Machine Pfa) : Prop :=
  pfaGetFreeMemorySize s = 4096 * framesLeft (limit s) s

/-- The requests return the free frames one after another, and null at once when the frame
    at address zero is free. -/
theorem framesLeft_eq {fuel : ℕ} {s : Machine Pfa} (h : HintInvariant s)
    (hfuel : BusySet.freeBelow (busySet s) (limit s) ≤ fuel) : framesLeft fuel s =
      if busy s 0 = true then BusySet.freeBelow (busySet s) (limit s) else 0 := by
  induction fuel generalizing s with
  | zero =>
    rw [Nat.le_zero.1 hfuel, ite_self]
    rfl
  | succ fuel ih =>
    have hlim := h.limit_le
    have hfound := requestIndex_lowest h
    have hpage : (pfaRequestPage s).1 = framePointer (requestIndex s).1 := rfl
    change (if (pfaRequestPage s).1 = 0 then 0 else framesLeft fuel (pfaRequestPage s).2 + 1) = _
    cases hi : (requestIndex s).1 with
    | none =>
      rw [hi] at hfound hpage
      have hall := BusySet.lowest_eq_none_iff.1 hfound.symm
      have hnone : BusySet.freeBelow (busySet s) (limit s) = 0 := by
        by_contra hne
        obtain ⟨j, hj, hjB, _⟩ := BusySet.exists_freeBelow_eq (Nat.pos_of_ne_zero hne)
        exact hjB (hall j hj)
      rw [hpage, framePointer, if_pos rfl, hnone, ite_self]
    | some i =>
      rw [hi] at hfound hpage
      obtain ⟨⟨hlt, hfree⟩, hleast⟩ := BusySet.lowest_eq_some_iff.1 hfound.symm
      rw [framePointer_some (by omega)] at hpage
      by_cases hzero : i = 0
      · have hclear : busy s 0 ≠ true := fun hb => hfree ⟨hlt, hzero ▸ hb⟩
        rw [if_pos (by omega), if_neg hclear]
      · have hbusy : busy s 0 = true := by
          by_contra hclear
          exact hzero (Nat.le_zero.1 (hleast ⟨by omega, fun hb => hclear hb.2⟩))
        have hset : busySet (pfaRequestPage s).2 = busySet s ∪ {i} := by
          rw [pfaRequestPage_busySet h, hi]
          ext j
          simp [eq_comm]
        have hcount := BusySet.freeBelow_insert hlt hfree
        have hbusy' : busy (pfaRequestPage s).2 0 = true := by
          rw [pfaRequestPage_busy h (by omega), hbusy, ite_self]
        rw [if_neg (by omega), ih h.request (by rw [pfaRequestPage_limit, hset]; omega),
          if_pos hbusy', if_pos hbusy, pfaRequestPage_limit, hset, hcount]

theorem setBits_add_freeBelow (s : Machine Pfa) :
    setBits s (limit s) + BusySet.freeBelow (busySet s) (limit s) = limit s := by
  classical
  have hfree : BusySet.freeBelow (busySet s) (limit s) =
      ((Finset.range (limit s)).filter fun j => ¬ busy s j = true).card := by
    unfold BusySet.freeBelow
    congr 1
    ext j
    simp only [Finset.mem_filter, Finset.mem_range, busySet, Set.mem_ofPred_eq, not_and]
    exact and_congr_right fun hj => ⟨fun h => h hj, fun h _ => h⟩
  rw [hfree, setBits, Finset.card_filter_add_card_filter_not, Finset.card_range]

theorem setBits_succ (s : Machine Pfa) (n : ℕ) :
    setBits s (n + 1) = setBits s n + if busy s n = true then 1 else 0 := by
  unfold setBits
  rw [Finset.range_add_one, Finset.filter_insert]
  by_cases h : busy s n = true <;> simp [h, Finset.card_insert_of_notMem]

/-- The bit behind the last one of the bitmap, in the byte after its storage. -/
def pastEnd (s : Machine Pfa) : ℕ := if busy s (limit s) = true then 1 else 0

section Cleared
variable {mmap : List EFIMemoryDescriptor} {m : Mem} {t : Machine Pfa}

theorem freeMemory_eq (h : Conserves (8 * bitmapSize mmap + 1) (cleared mmap m) t) :
    wrap (t.alloc.freeMemory + 4096 * (setBits t (limit t) + pastEnd t)) =
      wrap (totalSize mmap + 4096 * pastEnd (cleared mmap m)) := by
  have hlimit : limit t = 8 * bitmapSize mmap := by
    rw [limit, h.bitmap, ← cleared_limit mmap m, limit]
  have hbits : setBits t (8 * bitmapSize mmap + 1) = setBits t (limit t) + pastEnd t := by
    rw [setBits_succ, pastEnd, hlimit]
  have hcleared : setBits (cleared mmap m) (8 * bitmapSize mmap + 1) =
      pastEnd (cleared mmap m) := by
    rw [setBits_succ, setBits_cleared, Nat.zero_add, pastEnd, cleared_limit]
  have htaken := h.taken
  have htotal := h.total
  rw [hbits, hcleared] at htaken
  change _ = wrap (0 + 0 + _) at htaken
  change _ = wrap (totalSize mmap + 0 + 0) at htotal
  simp only [wrap, frameSize] at htaken htotal ⊢
  omega

/-- While the null frame is busy, the counter is exact when the bits behind the page count are
    made up for by the one past the end. -/
theorem freeExact_iff (hinv : HintInvariant t)
    (h : Conserves (8 * bitmapSize mmap + 1) (cleared mmap m) t) (hzero : busy t 0 = true) :
    FreeExact t ↔ totalSize mmap / frameSize % 8 = 7 ∧ pastEnd (cleared mmap m) = 1 ∧
      pastEnd t = 0 := by
  have hlimit : limit t = 8 * bitmapSize mmap := by
    rw [limit, h.bitmap, ← cleared_limit mmap m, limit]
  have htotal := totalSize_mod mmap
  have hlt := totalSize_lt mmap
  have hfree := freeMemory_eq h
  have hbound : t.alloc.freeMemory < 2 ^ 64 := h.bound hlt
  have hadd := setBits_add_freeBelow t
  have hlast : ∀ u, pastEnd u ≤ 1 := by
    intro u
    unfold pastEnd
    split <;> decide
  have hlast0 := hlast (cleared mmap m)
  have hlast1 := hlast t
  have hsize : bitmapSize mmap = totalSize mmap / 4096 / 8 + 1 := by
    rw [bitmapSize, frameSize, ← Nat.div_div_eq_div_mul]
  have hset : 0 < setBits t (limit t) := by
    refine Finset.card_pos.2 ⟨0, ?_⟩
    rw [Finset.mem_filter, Finset.mem_range]
    exact ⟨by omega, hzero⟩
  unfold FreeExact pfaGetFreeMemorySize
  rw [framesLeft_eq hinv (by omega), if_pos hzero]
  simp only [wrap, frameSize] at hfree ⊢
  omega

end Cleared

def Locks (k : ℕ) : ClientOp → Prop
  | .lockPage address => k = address / frameSize
  | .lockPages address pageCount => Named address pageCount k
  | _ => False

instance (k : ℕ) : (op : ClientOp) → Decidable (Locks k op)
  | .lockPage address => inferInstanceAs (Decidable (k = address / frameSize))
  | .lockPages address pageCount => inferInstanceAs (Decidable (Named address pageCount k))
  | .requestPage | .freePage _ | .freePages _ _ | .store _ _ => inferInstanceAs (Decidable False)

def Frees (k : ℕ) : ClientOp → Prop
  | .freePage address => k = address / frameSize
  | .freePages address pageCount => Named address pageCount k
  | _ => False

/-- Stores by other code leave the bitmap's bytes and the byte after them alone. -/
def OffBitmap (bitmap : Bitmap) : ClientOp → Prop
  | .store address _ => ∀ i ≤ bitmap.size, wrap address ≠ wrap (bitmap.buffer + i)
  | _ => True

/-- Every free is of a page of `A`, the pages that a request or a lock has set since the
    beginning and that are still set. -/
def ObtainedOnly : Set ℕ → Machine Pfa → List ClientOp → Prop
  | _, _, [] => True
  | A, s, op :: ops => (∀ k, Frees k op → k ∈ A) ∧
    ObtainedOnly {k | (k ∈ A ∨ busy s k = false) ∧ busy (clientStep s op).2 k = true}
      (clientStep s op).2 ops

theorem clientStep_busy {s : Machine Pfa} (h : HintInvariant s) {op : ClientOp}
    (hop : OffBitmap s.alloc.pageBitmap op) {j : ℕ} (hj : j ≤ limit s)
    (hkept : busy s j = true ∨ j = limit s) :
    (Locks j op → busy (clientStep s op).2 j = true) ∧
    (¬ Locks j op → ¬ Frees j op → busy (clientStep s op).2 j = busy s j) := by
  have hlim := h.limit_le
  have hsize := h.size_eq
  cases op with
  | requestPage =>
    refine ⟨False.elim, fun _ _ => ?_⟩
    change busy (requestIndex s).2 j = busy s j
    obtain ⟨l, e, _⟩ | ⟨i, l, e, hi, hfree, _⟩ := requestIndex_cases s <;> rw [e]
    · rfl
    · have hji : j ≠ i := by
        rintro rfl
        obtain hb | hl := hkept
        · rw [hfree] at hb
          cases hb
        · omega
      change busy (take i (looked l s)) j = _
      rw [take_busy _ (by omega) (by rw [looked_limit]; exact hj), if_neg hji, looked_busy]
  | lockPage address =>
    refine ⟨fun hlock => ?_, fun hlock _ => ?_⟩
    · exact (pfaLockPage_op.busy address s hj).trans (if_pos hlock)
    · exact (pfaLockPage_op.busy address s hj).trans (if_neg hlock)
  | lockPages address pageCount =>
    refine ⟨fun hlock => ?_, fun hlock _ => ?_⟩
    · exact (forPages_busy pfaLockPage_op address pageCount s hj).trans (if_pos hlock)
    · exact (forPages_busy pfaLockPage_op address pageCount s hj).trans (if_neg hlock)
  | freePage address =>
    refine ⟨False.elim, fun _ hfree => ?_⟩
    exact (pfaFreePage_op.busy address s hj).trans (if_neg hfree)
  | freePages address pageCount =>
    refine ⟨False.elim, fun _ hfree => ?_⟩
    exact (forPages_busy pfaFreePage_op address pageCount s hj).trans (if_neg hfree)
  | store address value =>
    refine ⟨False.elim, fun _ _ => ?_⟩
    apply bitmapGet_congr
    apply Function.update_of_ne
    exact (hop (j / 8) (by omega)).symm

theorem within_of_offBitmap {bitmap : Bitmap} {op : ClientOp} (h : OffBitmap bitmap op) :
    ∀ step ∈ callSteps op, step.Within bitmap (8 * bitmap.size + 1) := by
  have hloop : ∀ c address n, ∀ step ∈ loopSteps c address n,
      step.Within bitmap (8 * bitmap.size + 1) := by
    intro c address n step hstep
    obtain ⟨i, _, rfl⟩ := List.mem_map.1 hstep
    change _ < _ ∨ _ < _
    omega
  cases op with
  | requestPage => simp [callSteps, PageStep.Within]
  | lockPage address =>
    simp only [callSteps, List.mem_singleton, forall_eq, PageStep.Within]
    omega
  | freePage address =>
    simp only [callSteps, List.mem_singleton, forall_eq, PageStep.Within]
    omega
  | lockPages address pageCount => exact hloop _ _ _
  | freePages address pageCount => exact hloop _ _ _
  | store address value =>
    simp only [callSteps, List.mem_singleton, forall_eq]
    exact fun j hj => h (j / 8) (by omega)

/-- A state of a run in which the pages of `A` have been obtained. The null frame is none of
    them: it has been busy all the time. -/
structure Watched (mmap : List EFIMemoryDescriptor) (m : Mem) (A : Set ℕ) (s : Machine Pfa) :
    Prop where
  hint : HintInvariant s
  conserves : Conserves (8 * bitmapSize mmap + 1) (cleared mmap m) s
  zero : busy s 0 = true
  notZero : 0 ∉ A
  owned : ∀ k ∈ A, busy s k = true

section Run
variable {mmap : List EFIMemoryDescriptor} {m : Mem} {A : Set ℕ} {s : Machine Pfa}

theorem Watched.limit_eq (h : Watched mmap m A s) : limit s = 8 * bitmapSize mmap := by
  rw [limit, h.conserves.bitmap, ← cleared_limit mmap m, limit]

theorem Watched.step (h : Watched mmap m A s) {op : ClientOp}
    (hop : OffBitmap s.alloc.pageBitmap op) (hfree : ∀ k, Frees k op → k ∈ A) :
    Watched mmap m {k | (k ∈ A ∨ busy s k = false) ∧ busy (clientStep s op).2 k = true}
        (clientStep s op).2 ∧
      (pastEnd s = 0 → pastEnd (clientStep s op).2 =
        if Locks (8 * bitmapSize mmap) op then 1 else 0) := by
  have hlimit := h.limit_eq
  have hinv : HintInvariant (clientStep s op).2 := by
    cases op with
    | requestPage => exact h.hint.request
    | lockPage address => exact h.hint.pageOp pfaLockPage_op (.inl rfl) address
    | lockPages address pageCount => exact h.hint.forPages pfaLockPage_op (.inl rfl) _ _
    | freePage address => exact h.hint.pageOp pfaFreePage_op (.inr rfl) address
    | freePages address pageCount => exact h.hint.forPages pfaFreePage_op (.inr rfl) _ _
    | store address value =>
      refine ⟨h.hint.size, fun j hj hl => ?_⟩
      have hkeep := clientStep_busy h.hint hop hl.le (.inl (h.hint.hint j hj hl))
      rw [hkeep.2 id id]
      exact h.hint.hint j hj hl
  have hsteps : Conserves (8 * bitmapSize mmap + 1) s (clientStep s op).2 := by
    rw [clientStep_steps]
    refine pageSteps_conserves h.hint.size (.inr (by rw [hlimit])) _ fun step hstep => ?_
    have hsize : s.alloc.pageBitmap.size = bitmapSize mmap := by
      have := h.hint.size_eq
      omega
    have := within_of_offBitmap hop step hstep
    rwa [hsize] at this
  have hlimit' : limit (clientStep s op).2 = limit s := by rw [limit, hsteps.bitmap, limit]
  have hzero : busy (clientStep s op).2 0 = true := by
    obtain ⟨hlock, hkeep⟩ := clientStep_busy h.hint hop (Nat.zero_le _) (.inl h.zero)
    by_cases hl : Locks 0 op
    · exact hlock hl
    · rw [hkeep hl fun hf => h.notZero (hfree 0 hf), h.zero]
  refine ⟨⟨hinv, h.conserves.trans hsteps, hzero, ?_, fun k hk => hk.2⟩, fun hpast => ?_⟩
  · rintro ⟨hA | hclear, _⟩
    · exact h.notZero hA
    · rw [h.zero] at hclear
      cases hclear
  · have hclear : ¬ busy s (limit s) = true := by
      intro hb
      rw [pastEnd, if_pos hb] at hpast
      cases hpast
    obtain ⟨hlock, hkeep⟩ := clientStep_busy h.hint hop le_rfl (.inr rfl)
    rw [pastEnd, hlimit', ← hlimit]
    by_cases hl : Locks (limit s) op
    · rw [if_pos (hlock hl), if_pos hl]
    · rw [hkeep hl fun hf => hclear (h.owned _ (hfree _ hf)), if_neg hclear, if_neg hl]

theorem watched_run (ops : List ClientOp) (h : Watched mmap m A s)
    (hops : ∀ op ∈ ops, OffBitmap s.alloc.pageBitmap op) (hfrees : ObtainedOnly A s ops) :
    (∀ done, done <+: ops → FreeExact (clientRun s done).2) ↔
      (totalSize mmap / frameSize % 8 = 7 ∧ pastEnd (cleared mmap m) = 1 ∧ pastEnd s = 0) ∧
        ∀ op ∈ ops, ¬ Locks (8 * bitmapSize mmap) op := by
  induction ops generalizing A s with
  | nil =>
    have hexact := freeExact_iff h.hint h.conserves h.zero
    simp only [List.prefix_nil, forall_eq, List.not_mem_nil, false_implies, implies_true, and_true]
    exact hexact
  | cons op ops ih =>
    have hexact := freeExact_iff h.hint h.conserves h.zero
    obtain ⟨hfree, hrest⟩ := hfrees
    obtain ⟨h', hpast⟩ := h.step (hops op (by simp)) hfree
    have hbitmap : (clientStep s op).2.alloc.pageBitmap = s.alloc.pageBitmap := by
      rw [h'.conserves.bitmap, h.conserves.bitmap]
    have ih := ih h' (fun o ho => hbitmap ▸ hops o (by simp [ho])) hrest
    have hsplit : (∀ done, done <+: op :: ops → FreeExact (clientRun s done).2) ↔
        FreeExact s ∧ ∀ done, done <+: ops → FreeExact (clientRun (clientStep s op).2 done).2 :=
      forall_prefix_cons
    rw [hsplit, ih, hexact, List.forall_mem_cons]
    constructor
    · rintro ⟨⟨hfull, hset, hclear⟩, ⟨_, _, hclear'⟩, hlater⟩
      refine ⟨⟨hfull, hset, hclear⟩, fun hl => ?_, hlater⟩
      rw [hpast hclear, if_pos hl] at hclear'
      exact absurd hclear' (by decide)
    · rintro ⟨⟨hfull, hset, hclear⟩, hnow, hlater⟩
      refine ⟨⟨hfull, hset, hclear⟩, ⟨hfull, hset, ?_⟩, hlater⟩
      rw [hpast hclear, if_neg hnow]

end Run

/-- The page count is one less than a whole number of bytes' bits, and the bit past the end of
    the bitmap is set in memory and cleared for a type 7 frame there. -/
structure SpareBit (bufferField : ℕ) (mmap : List EFIMemoryDescriptor) (m : Mem) : Prop where
  pages : totalSize mmap / frameSize % 8 = 7
  whole : bitmapSize mmap % 8 = 0
  set : (load8 m (bitmapBuffer mmap + bitmapSize mmap)).getLsbD 0 = true
  conventional : Conventional mmap (8 * bitmapSize mmap)
  high : 0x100 ≤ 8 * bitmapSize mmap
  unlocked : ¬ Named bufferField (bitmapSize mmap / frameSize + 1) (8 * bitmapSize mmap)

section Initialized
variable (bufferField : ℕ) (mmap : List EFIMemoryDescriptor) (m : Mem)

/-- `initBitmap` clears whole words, and so the byte after the bitmap unless it ends with one. -/
theorem pastEnd_cleared : pastEnd (cleared mmap m) = 1 ↔ bitmapSize mmap % 8 = 0 ∧
    (load8 m (bitmapBuffer mmap + bitmapSize mmap)).getLsbD 0 = true := by
  have hsize := bitmapSize_le mmap
  have hget : busy (cleared mmap m) (limit (cleared mmap m)) =
      (load8 (memSet64 m (bitmapBuffer mmap) 0 (bitmapSize mmap))
        (bitmapBuffer mmap + bitmapSize mmap)).getLsbD 0 := by
    rw [cleared_limit, busy, bitmapGet_eq, cleared_pageBitmap, Nat.mul_mod_right,
      Nat.mul_div_cancel_left _ (by decide)]
    rfl
  have hiff : pastEnd (cleared mmap m) = 1 ↔
      busy (cleared mmap m) (limit (cleared mmap m)) = true := by
    unfold pastEnd
    split <;> simp_all
  rw [hiff, hget]
  by_cases hwhole : bitmapSize mmap % 8 = 0
  · have hkeep : load8 (memSet64 m (bitmapBuffer mmap) 0 (bitmapSize mmap))
        (bitmapBuffer mmap + bitmapSize mmap) =
        load8 m (bitmapBuffer mmap + bitmapSize mmap) := by
      refine memSet64_outside _ _ _ _ (by omega) fun i hi e => ?_
      exact absurd (wrap_offset_inj (by omega) (by omega) e) (by omega)
    rw [hkeep]
    exact ⟨fun h => ⟨hwhole, h⟩, fun h => h.2⟩
  · have hzero : load8 (memSet64 m (bitmapBuffer mmap) 0 (bitmapSize mmap))
        (bitmapBuffer mmap + bitmapSize mmap) = 0#8 :=
      memSet64_zero _ _ _ _ (by omega) (by omega)
    rw [hzero]
    simp [hwhole]

/-- What the initialization leaves of the bit past the end: it is never one of the pages that
    are reserved first. -/
theorem pastEnd_initialized (h : pastEnd (cleared mmap m) = 1) :
    pastEnd (initialized bufferField mmap m) = 0 ↔ Conventional mmap (8 * bitmapSize mmap) ∧
      0x100 ≤ 8 * bitmapSize mmap ∧
      ¬ Named bufferField (bitmapSize mmap / frameSize + 1) (8 * bitmapSize mmap) := by
  have hpages := pages_lt_limit mmap
  have hlt := totalSize_lt mmap
  have hcl := cleared_limit mmap m
  have hset : busy (cleared mmap m) (8 * bitmapSize mmap) = true := by
    by_contra hclear
    rw [pastEnd, hcl, if_neg hclear] at h
    cases h
  have hbusy : busy (initialized bufferField mmap m) (8 * bitmapSize mmap) = decide
      (Named bufferField (bitmapSize mmap / frameSize + 1) (8 * bitmapSize mmap) ∨
        8 * bitmapSize mmap < 0x100 ∨ ¬ Conventional mmap (8 * bitmapSize mmap)) := by
    rw [initialized_eq, pfaLockPages, forPages_busy pfaLockPage_op, reservePages,
      forPages_busy reservePage_op, unreserveLoop_busy, forPages_busy reservePage_op, hset]
    · simp only [named_from_zero (show 0x100 ≤ 2 ^ 52 by decide)]
      by_cases hlock : Named bufferField (bitmapSize mmap / frameSize + 1) (8 * bitmapSize mmap)
      · simp [hlock]
      · by_cases hlow : 8 * bitmapSize mmap < 0x100
        · simp [hlow]
        · by_cases hconv : Conventional mmap (8 * bitmapSize mmap) <;> simp [hlock, hlow, hconv]
    all_goals simp only [forPages_limit reservePage_op, unreserveLoop_limit, reservePages, hcl,
      le_refl]
  rw [pastEnd, initialized_limit, hbusy]
  simp only [decide_eq_true_eq, ite_eq_right_iff, one_ne_zero, imp_false, not_or, not_not, not_lt]
  tauto

theorem initialized_watched : Watched mmap m ∅ (initialized bufferField mmap m) := by
  refine ⟨initialized_invariant bufferField mmap m, ?_, ?_, fun h => h, fun k hk => hk.elim⟩
  · rw [initialized_steps]
    refine pageSteps_conserves (bitmapSize_le mmap) (.inr (by rw [cleared_limit])) _ ?_
    intro step hstep
    obtain ⟨c, address, rfl⟩ := initSteps_change hstep
    change _ < _ ∨ _ < _
    rw [cleared_pageBitmap]
    change _ < 8 * bitmapSize mmap + 1 ∨ 8 * bitmapSize mmap < _
    omega
  · have hpos : 0 < 8 * bitmapSize mmap := (Nat.zero_le _).trans_lt (pages_lt_limit mmap)
    rw [initialized_busy bufferField mmap m hpos]
    exact decide_eq_true (.inr (.inl (by decide)))

/-- The free-memory counter is exact throughout a run exactly when the bits behind the page
    count are made up for by the one past the end and no call locks the page of that bit. -/
theorem freeExact_run_iff (ops : List ClientOp)
    (hops : ∀ op ∈ ops, OffBitmap ⟨bitmapSize mmap, bitmapBuffer mmap⟩ op)
    (hfrees : ObtainedOnly ∅ (initialized bufferField mmap m) ops) :
    (∀ done, done <+: ops → FreeExact (clientRun (initialized bufferField mmap m) done).2) ↔
      SpareBit bufferField mmap m ∧ ∀ op ∈ ops, ¬ Locks (8 * bitmapSize mmap) op := by
  rw [watched_run ops (initialized_watched bufferField mmap m)
    (by rw [initialized_pageBitmap]; exact hops) hfrees]
  refine and_congr_left fun _ => ?_
  constructor
  · rintro ⟨hpages, hset, hclear⟩
    obtain ⟨hwhole, hbit⟩ := (pastEnd_cleared mmap m).1 hset
    obtain ⟨hconv, hhigh, hlock⟩ := (pastEnd_initialized bufferField mmap m hset).1 hclear
    exact ⟨hpages, hwhole, hbit, hconv, hhigh, hlock⟩
  · intro h
    have hset := (pastEnd_cleared mmap m).2 ⟨h.whole, h.set⟩
    exact ⟨h.pages, hset, (pastEnd_initialized bufferField mmap m hset).2
      ⟨h.conventional, h.high, h.unlocked⟩⟩

end Initialized

/-- A machine of `0x1ff` pages with a gap between them, so that a type 7 frame lies past the end
    of the bitmap. -/
def spareMap : List EFIMemoryDescriptor := [⟨0, 0, 0x100⟩, ⟨7, 0x102000, 0xff⟩]

theorem spareMap_obtainedOnly (m : Mem) : ObtainedOnly ∅ (initialized 0x108000 spareMap m)
    [.lockPage 0x180000, .freePage 0x180000, .requestPage] := by
  have hinv := initialized_invariant 0x108000 spareMap m
  have hlimit : limit (initialized 0x108000 spareMap m) = 512 := initialized_limit _ _ m
  have hfree : busy (initialized 0x108000 spareMap m) 0x180 = false := by
    rw [initialized_busy _ _ _ (by decide)]
    decide +kernel
  have hlocked : busy (clientStep (initialized 0x108000 spareMap m) (.lockPage 0x180000)).2 0x180 =
      true := (pfaLockPage_op.busy 0x180000 _ (by omega)).trans (if_pos rfl)
  refine ⟨fun k hk => hk.elim, fun k hk => ?_, fun k hk => hk.elim, trivial⟩
  obtain rfl : k = 0x180 := hk
  exact ⟨.inr hfree, hlocked⟩

/-- The run of a machine that meets the condition. -/
theorem freeExact_run_spareMap :
    FreeExact (clientRun (initialized 0x108000 spareMap (fun _ => 1#8))
      [.lockPage 0x180000, .freePage 0x180000, .requestPage]).2 := by
  refine (freeExact_run_iff 0x108000 spareMap (fun _ => 1#8) _ ?_ (spareMap_obtainedOnly _)).2
    ⟨⟨by decide, by decide, by decide +kernel, by decide +kernel, by decide, by decide +kernel⟩, ?_⟩
    _ (List.prefix_refl _)
  · simp [OffBitmap]
  · decide +kernel

def smallMap : List EFIMemoryDescriptor := [⟨0, 0, 0x100⟩, ⟨7, 0x100000, 0x100⟩]

/-- Right after the initialization the counter misses the seven frames behind the end of memory
    that can be requested, and has paid for the one there that is reserved. -/
theorem not_freeExact_smallMap :
    ¬ FreeExact (clientRun (initialized 0x108000 smallMap (fun _ => 0#8)) []).2 := by
  have h := initialized_watched 0x108000 smallMap (fun _ => 0#8)
  rw [clientRun_nil, freeExact_iff h.hint h.conserves h.zero]
  rintro ⟨hpages, _⟩
  exact absurd hpages (by decide)

end Rizzos.FreeMemoryCounter
