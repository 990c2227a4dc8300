import Rizzos.KernelFrames
import Rizzos.PageTableRuns

set_option autoImplicit false

/-! The page frame allocator as a supply of frames for the page tables. What lies below the
hint counts as taken, whatever its bits say. -/
namespace Rizzos.PageFrameSupply
open ByteMemory Memory UtilsBitmap PageFrameAllocator PageFrameRequests KernelFrames
  PageTableManager PageTableTree PageTableMap

theorem pfaRequestPage_outside (s : Machine Pfa) (hsize : s.alloc.pageBitmap.size ≤ 2 ^ 49)
    {x : ℕ} (hx : ∀ i, (requestIndex s).1 = some i →
      x ≠ wrap (s.alloc.pageBitmap.buffer + i / 8)) : (pfaRequestPage s).2.mem x = s.mem x := by
  have hlim := limit_eq hsize
  change (requestIndex s).2.mem x = _
  obtain ⟨l, e, _⟩ | ⟨i, l, e, hi, _⟩ := requestIndex_cases s
  · rw [e]
    rfl
  · rw [e] at hx ⊢
    have h := pfaLockPage_op.outside (wrap (i * frameSize)) (looked l s) (x := x)
    rw [pointer_index (by omega)] at h
    exact h (hx i rfl)

theorem pfaRequestPage_requested (s : Machine Pfa) : (pfaRequestPage s).2.alloc.requested =
    (pfaRequestPage s).1 :: s.alloc.requested := by
  change _ :: (requestIndex s).2.alloc.requested = _
  obtain ⟨l, e, _⟩ | ⟨i, l, e, _⟩ := requestIndex_cases s <;> rw [e]
  · rfl
  · exact congrArg _ (pfaLockPage_op.requested _ (looked l s))

/-- Every request so far returned a frame of the 52-bit physical address space that does not
    overlap the bitmap. -/
def Served (p : Pfa) : Prop :=
  ∀ page ∈ p.requested, page ≠ 0 ∧ page < 2 ^ 52 ∧
    ¬ Overlaps page p.pageBitmap.buffer (p.pageBitmap.buffer + p.pageBitmap.size)

/-- The frames `T` handed out since the state in which the indices `B` were held. -/
structure Recorded (bitmap : Bitmap) (B : Set ℕ) (s : Machine Pfa) (T : Set ℕ) : Prop where
  place : s.alloc.pageBitmap = bitmap
  size : bitmap.size ≤ 2 ^ 49
  inside : bitmap.buffer + bitmap.size ≤ 2 ^ 64
  served : Served s.alloc
  log : T = {t | t ∈ s.alloc.requested}
  nodup : s.alloc.requested.Nodup
  aligned : ∀ t ∈ s.alloc.requested, t % 4096 = 0
  taken : ∀ t ∈ s.alloc.requested, t / 4096 ∈ held s
  count : held s = BusySet.after (8 * bitmap.size) B s.alloc.requested.length

/-- The hint has passed the first `0x100` frames, whose bits may share the bytes of the index
    struct. -/
structure Handed (bitmap : Bitmap) (B : Set ℕ) (s : Machine Pfa) (T : Set ℕ) : Prop extends
    Recorded bitmap B s T where
  past : 0x100 ≤ s.alloc.lastReservedPage

theorem Served.request {s : Machine Pfa} (h : Served (pfaRequestPage s).2.alloc) :
    Served s.alloc := by
  intro page hpage
  have := h page (by rw [pfaRequestPage_requested]; exact List.mem_cons_of_mem _ hpage)
  rwa [pfaRequestPage_pageBitmap] at this

theorem pfaRequestPage_found {s : Machine Pfa} (hsize : s.alloc.pageBitmap.size ≤ 2 ^ 49)
    (hne : (pfaRequestPage s).1 ≠ 0) :
    ∃ i, (requestIndex s).1 = some i ∧ (pfaRequestPage s).1 = 4096 * i ∧ i < limit s := by
  have hlim := limit_eq hsize
  change framePointer (requestIndex s).1 ≠ 0 at hne
  cases hi : (requestIndex s).1 with
  | none =>
    rw [hi] at hne
    exact absurd rfl hne
  | some i =>
    have hlt := ((pfaRequestPage_hint s).2 i hi).2.1
    refine ⟨i, rfl, ?_, hlt⟩
    change framePointer (requestIndex s).1 = _
    rw [hi, framePointer_some (by omega)]

section Supply
variable {bitmap : Bitmap} {B : Set ℕ} {s : Machine Pfa} {T : Set ℕ}

theorem Recorded.limit_eq (h : Recorded bitmap B s T) : limit s = 8 * bitmap.size := by
  rw [PageFrameRequests.limit_eq (h.place ▸ h.size), h.place]

theorem Recorded.frame (h : Recorded bitmap B s T) {t : ℕ} (ht : t ∈ T) : FrameAddress t := by
  rw [h.log] at ht
  obtain ⟨hne, hlt, _⟩ := h.served t ht
  exact ⟨h.aligned t ht, by omega, hlt⟩

/-- A frame that was handed out shares no byte with the bitmap. -/
theorem Recorded.notMem_bitmap (h : Recorded bitmap B s T) {t o : ℕ} (ht : t ∈ T)
    (ho : o < bitmap.size) : ¬ InFrame t (bitmap.buffer + o) := by
  intro hin
  rw [h.log] at ht
  refine (h.served t ht).2.2 ⟨bitmap.buffer + o, hin.1, hin.2, ?_, ?_⟩
  · rw [h.place]
    omega
  · rw [h.place]
    omega

theorem Recorded.ncard (h : Recorded bitmap B s T) : T.ncard = s.alloc.requested.length := by
  have hT : T = (s.alloc.requested.toFinset : Set ℕ) := by
    rw [h.log]
    ext t
    simp
  rw [hT, Set.ncard_coe_finset, List.toFinset_card_of_nodup h.nodup]

theorem Handed.write (h : Handed bitmap B s T) {m' : Mem}
    (hm : ∀ x, 32 ≤ x → (∀ t ∈ T, ¬ InFrame t x) → m' x = s.mem x) :
    Handed bitmap B ⟨m', s.alloc⟩ T := by
  have hlimit := h.limit_eq
  have hheld : held ⟨m', s.alloc⟩ = held s := by
    ext j
    refine and_congr_right fun hj => or_congr_right' fun hjh => ?_
    change bitmapGet s.alloc.pageBitmap m' j = true ↔ bitmapGet s.alloc.pageBitmap s.mem j = true
    have hpast := h.past
    have hinside := h.inside
    change j < limit s at hj
    rw [hlimit] at hj
    replace hjh : s.alloc.lastReservedPage ≤ j := Nat.le_of_not_gt hjh
    rw [bitmapGet_congr]
    rw [h.place, wrap_of_lt (by omega)]
    exact hm _ (by omega) fun t ht => h.notMem_bitmap ht (by omega)
  exact { h with
    taken := fun t ht => by rw [hheld]; exact h.taken t ht
    count := hheld.trans h.count }

theorem Recorded.request (h : Recorded bitmap B s T)
    (hserved : Served (pfaRequestPage s).2.alloc) :
    Recorded bitmap B (pfaRequestPage s).2 (insert (pfaRequestPage s).1 T) ∧
      (pfaRequestPage s).1 ∉ T := by
  have hsize : s.alloc.pageBitmap.size ≤ 2 ^ 49 := h.place ▸ h.size
  have hlowest := requestIndex_held s
  have hheld := pfaRequestPage_held s hsize
  have hrequested := pfaRequestPage_requested s
  have hne := (hserved (pfaRequestPage s).1 (hrequested ▸ List.mem_cons_self)).1
  obtain ⟨i, hi, hpage, hlt⟩ := pfaRequestPage_found hsize hne
  have hnew : i ∉ held s := by
    rw [hlowest] at hi
    exact (BusySet.lowest_eq_some_iff.1 hi).1.2
  have hnotin : (pfaRequestPage s).1 ∉ s.alloc.requested := by
    intro hmem
    have := h.taken _ hmem
    rw [hpage, Nat.mul_div_cancel_left i (by decide)] at this
    exact hnew this
  refine ⟨⟨(pfaRequestPage_pageBitmap s).trans h.place, h.size, h.inside, hserved, ?_, ?_, ?_,
    ?_, ?_⟩, ?_⟩
  · rw [hrequested, h.log]
    ext t
    simp
  · rw [hrequested]
    exact List.nodup_cons.2 ⟨hnotin, h.nodup⟩
  · rw [hrequested]
    refine List.forall_mem_cons.2 ⟨?_, h.aligned⟩
    rw [hpage, Nat.mul_mod_right]
  · rw [hrequested, hheld]
    refine List.forall_mem_cons.2 ⟨.inr ?_, fun t ht => .inl (h.taken t ht)⟩
    rw [hpage, Nat.mul_div_cancel_left i (by decide)]
    exact hi
  · rw [hrequested, hheld, hlowest, h.limit_eq, List.length_cons, h.count]
    rfl
  · rw [h.log]
    exact hnotin

theorem Handed.request (h : Handed bitmap B s T) (hserved : Served (pfaRequestPage s).2.alloc) :
    Handed bitmap B (pfaRequestPage s).2 (insert (pfaRequestPage s).1 T) :=
  ⟨(h.toRecorded.request hserved).1, h.past.trans (pfaRequestPage_hint s).1⟩

theorem Handed.finite (h : Handed bitmap B s T) : T.Finite := by
  rw [h.log]
  exact s.alloc.requested.finite_toSet

/-- Fewer frames fit into the physical address space than pages into the virtual one. -/
theorem Handed.length_le (h : Handed bitmap B s T) : s.alloc.requested.length ≤ 2 ^ 40 := by
  have hsub : T ⊆ ((Finset.range (2 ^ 40)).image (4096 * ·) : Finset ℕ) := by
    intro t ht
    obtain ⟨hmod, _, hlt⟩ := h.frame ht
    rw [Finset.mem_coe, Finset.mem_image]
    exact ⟨t / 4096, Finset.mem_range.2 (by omega), by omega⟩
  have hcard := Set.ncard_le_ncard hsub (Finset.finite_toSet _)
  rw [Set.ncard_coe_finset, h.ncard] at hcard
  exact hcard.trans (Finset.card_image_le.trans (by rw [Finset.card_range]))

theorem Handed.length_mono {s' : Machine Pfa} {T' : Set ℕ} (h : Handed bitmap B s T)
    (h' : Handed bitmap B s' T') (hsub : T ⊆ T') :
    s.alloc.requested.length ≤ s'.alloc.requested.length := by
  rw [← h.ncard, ← h'.ncard]
  exact Set.ncard_le_ncard hsub (h'.finite)

/-- The first `n` indices that are not in `B` are frames of the physical address space off the
    bitmap. -/
def LowestClear (bitmap : Bitmap) (B : Set ℕ) (n : ℕ) : Prop :=
  ∀ k < 8 * bitmap.size, k ∉ B → BusySet.freeBelow B k < n → 4096 * k < 2 ^ 52 ∧
    ¬ Overlaps (4096 * k) bitmap.buffer (bitmap.buffer + bitmap.size)

theorem Recorded.serve (h : Recorded bitmap B s T) {n : ℕ} (hclear : LowestClear bitmap B n)
    (hn : s.alloc.requested.length < n) (hne : (pfaRequestPage s).1 ≠ 0) :
    Served (pfaRequestPage s).2.alloc := by
  have hsize : s.alloc.pageBitmap.size ≤ 2 ^ 49 := h.place ▸ h.size
  obtain ⟨i, hi, hpage, _⟩ := pfaRequestPage_found hsize hne
  rw [requestIndex_held, h.limit_eq, h.count] at hi
  obtain ⟨hlt, hB, hfree⟩ := BusySet.lowest_after_eq_some hi
  obtain ⟨hphysical, hoff⟩ := hclear i hlt hB (by omega)
  intro page hmem
  rw [pfaRequestPage_pageBitmap]
  rw [pfaRequestPage_requested] at hmem
  obtain rfl | hmem := List.mem_cons.1 hmem
  · refine ⟨hne, ?_, ?_⟩
    · rw [hpage]
      exact hphysical
    · rw [hpage, h.place]
      exact hoff
  · exact h.served page hmem

end Supply

/-- Requests that are served hand out fresh frames and keep the bytes of the old ones. -/
theorem pfa_supply (bitmap : Bitmap) (B : Set ℕ) :
    FrameSupply pfaRequestPage Served (Handed bitmap B) where
  good _ h := h.request
  frame _ _ h hserved := (h.request hserved).frame (Set.mem_insert _ _)
  fresh _ _ h hserved := (h.toRecorded.request hserved).2
  kept s T x h hserved hx := by
    refine pfaRequestPage_outside s (h.place ▸ h.size) fun i hi hxi => ?_
    have hlimit := h.limit_eq
    obtain ⟨hlo, hlt, _⟩ := (pfaRequestPage_hint s).2 i hi
    have hpast := h.past
    have hinside := h.inside
    rw [h.place, wrap_of_lt (by omega)] at hxi
    obtain hx | ⟨t, ht, hin⟩ := hx
    · omega
    · exact h.notMem_bitmap ht (by omega) (hxi ▸ hin)
  own _ _ h hserved := h.request hserved
  write _ _ _ h hm := h.write hm

end Rizzos.PageFrameSupply
