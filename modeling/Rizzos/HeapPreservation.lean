import Rizzos.HeapCoalescing

set_option autoImplicit false

/-! When an allocation keeps the heap well-formed. -/
namespace Rizzos.HeapPreservation
open ByteMemory Memory LinkedList KernelHeap HeapSegments HeapOperations HeapAllocation HeapMalloc
open HeapRuns HeapCoalescing

variable {β : Type} {h h' : Heap β} {segs segs' xs ys : List (ℕ × SegData)}
  {a l r lo lo' hi size fuel : ℕ}

def mallocFound (mapPage : ℕ → β → β) (fuel size : ℕ) (h : Heap β) : Option (Found β) :=
  if roundUp 0x10 size = 0 then none else mallocSearch mapPage fuel (roundUp 0x10 size) h

/-- A header that is new in `segs'` starts the second of two pieces that tile the free segment
    at `seg`. -/
def Pieces (segs : List (ℕ × SegData)) (seg : ℕ) (segs' : List (ℕ × SegData)) : Prop :=
  ∀ l, (seg, ⟨l, true⟩) ∈ segs → ∀ y ∈ segs', y.1 ∉ headers segs →
    ∃ r, (seg, ⟨r, false⟩) ∈ segs' ∧ Tiled seg [(seg, ⟨r, false⟩), y] (seg + 32 + l)

/-- The heap after a call is well-formed, with the blocks that were in use, and a split has
    divided a segment without loss. -/
structure Preserves (mapPage : ℕ → β → β) (fuel size : ℕ) (h h' : Heap β)
    (segs segs' : List (ℕ × SegData)) : Prop where
  wellFormed : WellFormed h' segs'
  kept : ∀ y ∈ segs, y.2.free = false → y ∈ segs'
  pieces : ∀ s, mallocFound mapPage fuel size h = some s → Pieces (segments s.heap) s.seg segs'

theorem tiled_start (hl : Tiled lo segs hi) (hl' : Tiled lo' segs hi) : lo = lo' := by
  cases segs with
  | nil => exact Eq.trans hl (Eq.symm hl')
  | cons x xs => exact hl.1.symm.trans hl'.1

/-- A split divides the segment at `a` without loss exactly when the rest is as long as the part
    that is taken. -/
theorem takenSegs_tiled_iff (hl : Tiled lo (xs ++ (a, ⟨l, true⟩) :: ys) hi) :
    Tiled lo (takenSegs xs a l r ys) hi ↔ (Splits l r → l - r - 32 = r) := by
  rcases tiled_append_cons.1 hl with ⟨hxs, hys⟩
  change Tiled (a + 32 + l) ys hi at hys
  rw [takenSegs]
  by_cases hsplit : Splits l r
  · have hlong := hsplit.1
    rw [if_pos hsplit, tiled_append_cons]
    constructor
    · rintro ⟨_, _, hrest⟩ _
      have hstart := tiled_start hrest hys
      change a + 32 + r + 32 + r = a + 32 + l at hstart
      omega
    · intro hrest
      have hend : a + 32 + r + 32 + r = a + 32 + l := by
        have := hrest hsplit
        omega
      rw [← hend] at hys
      exact ⟨hxs, rfl, hys⟩
  · rw [if_neg hsplit]
    exact iff_of_true (tiled_append_cons.2 ⟨hxs, hys⟩) fun hs => absurd hs hsplit

theorem takenSegs_pieces (hrest : Splits l r → l - r - 32 = r)
    (hl : Laid lo (xs ++ (a, ⟨l, true⟩) :: ys) hi) :
    Pieces (xs ++ (a, ⟨l, true⟩) :: ys) a (takenSegs xs a l r ys) := by
  intro l' hl' y hy hnew
  have hsame : l' = l := by
    rcases hl.apart hl' (show (a, ⟨l, true⟩) ∈ _ by simp) with e | e
    · simpa using e
    · change a + 32 + l' ≤ a ∨ a + 32 + l ≤ a at e
      omega
  subst hsame
  have hxs : y ∉ xs := fun hx => hnew ⟨y, by simp [hx], rfl⟩
  have hys : y ∉ ys := fun hx => hnew ⟨y, by simp [hx], rfl⟩
  have hne : ∀ d, y ≠ (a, d) := by
    rintro d rfl
    exact hnew ⟨(a, ⟨l', true⟩), by simp, rfl⟩
  rw [takenSegs] at hy ⊢
  by_cases hsplit : Splits l' r
  · have hlong := hsplit.1
    have hlen := hrest hsplit
    rw [if_pos hsplit] at hy ⊢
    have hy' : y = (a + 32 + r, ⟨r, true⟩) := by
      simpa [hxs, hys, hne] using hy
    refine ⟨r, by simp, rfl, by rw [hy'], ?_⟩
    rw [hy']
    change a + 32 + r + 32 + r = a + 32 + l'
    omega
  · rw [if_neg hsplit] at hy
    exact absurd hy (by simp [hxs, hys, hne])

theorem takenSegs_pos (h0 : ∀ x ∈ xs ++ (a, ⟨l, true⟩) :: ys, 0 < x.1) :
    ∀ x ∈ takenSegs xs a l r ys, x.1 ≠ 0 := by
  have ha : 0 < a := h0 (a, ⟨l, true⟩) (by simp)
  have hold : ∀ x, x ∈ xs ∨ x ∈ ys → x.1 ≠ 0 := by
    intro x hx
    have hx0 := h0 x (by rcases hx with hx | hx <;> simp [hx])
    omega
  rw [takenSegs]
  intro x hx
  split at hx
  · simp only [List.mem_append, List.mem_cons] at hx
    rcases hx with hx | rfl | rfl | hx
    · exact hold x (.inl hx)
    · exact ha.ne'
    · change a + 32 + r ≠ 0
      omega
    · exact hold x (.inr hx)
  · simp only [List.mem_append, List.mem_cons] at hx
    rcases hx with hx | rfl | hx
    · exact hold x (.inl hx)
    · exact ha.ne'
    · exact hold x (.inr hx)

theorem takeSegment_preserves_iff {mapPage : ℕ → β → β} {s : Found β}
    (H : Searched h segs r s xs l ys) (ht : Tiled h.heapStart segs h.heapEnd)
    (h24 : 24 ≤ h.heapStart) (hr : 16 ≤ r) (hround : roundUp 0x10 size = r)
    (hs : mallocSearch mapPage fuel r h = some s) :
    (∃ segs', Preserves mapPage fuel size h (takeSegment s.seg r s.heap).2 segs segs') ↔
      (Splits l r → l - r - 32 = r) := by
  have R := H.represents
  have htiled := H.tiled ht
  have h24' : 24 ≤ s.heap.heapStart := H.start.symm ▸ h24
  rcases takeSegment_chained R h24' hr H.fits with ⟨_, C⟩
  rcases sameBounds_takeSegment s.seg r s.heap with ⟨hstart, hend, _⟩
  have htop := R.top
  have hbase := R.base
  have hfound : mallocFound mapPage fuel size h = some s := by
    rw [mallocFound, hround, if_neg (by omega), hs]
  have hkept : ∀ y ∈ segs, y.2.free = false → y ∈ takenSegs xs s.seg l r ys :=
    fun y hy hfree => takenSegs_kept (H.kept y hy hfree) hfree
  generalize (takeSegment s.seg r s.heap).2 = h' at *
  rw [← takenSegs_tiled_iff htiled, ← hstart, ← hend]
  constructor
  · rintro ⟨segs', P⟩
    have W := P.wellFormed
    have hsegs : segs' = takenSegs xs s.seg l r ys := by
      refine links_unique W.links C.links (W.start.trans C.start.symm) (fun x hx => ?_)
        (takenSegs_pos fun x hx => R.cells_pos x.1 ⟨x, hx, rfl⟩)
      exact (W.represents.cells_pos x.1 ⟨x, hx, rfl⟩).ne'
    rw [← hsegs]
    exact W.tiled
  · intro htaken
    have hrest : Splits l r → l - r - 32 = r := by
      rw [hstart, hend] at htaken
      exact (takenSegs_tiled_iff htiled).1 htaken
    refine ⟨_, ⟨C, htaken, hstart.symm ▸ hbase, hend.symm ▸ htop⟩, hkept, fun s' hs' => ?_⟩
    obtain rfl : s = s' := Option.some.inj (hfound.symm.trans hs')
    rw [segments_eq R]
    exact takenSegs_pieces hrest R.laid

theorem memMalloc_zero (mapPage : ℕ → β → β) (hround : roundUp 0x10 size = 0) (hfuel : 0 < fuel) :
    memMalloc mapPage fuel size h = some (0, h) := by
  obtain ⟨fuel, rfl⟩ := Nat.exists_eq_add_one_of_ne_zero hfuel.ne'
  rw [memMalloc, if_pos hround]

/-- A call preserves the heap exactly when it does not split the segment that it takes, or the
    rest happens to be as long as the block: the header split off is given the length of the
    block. -/
theorem memMalloc_preserves_iff (mapPage : ℕ → β → β) (W : WellFormed h segs)
    (h24 : 24 ≤ h.heapStart) (hsize : size < 2 ^ 64)
    (hroom : Room segs h.heapEnd (roundUp 0x10 size)) (hfuel : segs.length + 5 ≤ fuel) :
    ∃ p h', memMalloc mapPage fuel size h = some (p, h') ∧
      ((∃ segs', Preserves mapPage fuel size h h' segs segs') ↔ (roundUp 0x10 size = 0 ∨
        (Splits (takenLenght segs (roundUp 0x10 size)) (roundUp 0x10 size) →
          takenLenght segs (roundUp 0x10 size) - roundUp 0x10 size - 32 = roundUp 0x10 size))) := by
  by_cases hround : roundUp 0x10 size = 0
  · refine ⟨0, h, memMalloc_zero mapPage hround (by omega), iff_of_true ⟨segs, W, ?_, ?_⟩
      (.inl hround)⟩
    · exact fun y hy _ => hy
    · intro s hs
      rw [mallocFound, if_pos hround] at hs
      cases hs
  · rcases roundUp_block size hsize hround with ⟨hr, _, hagain, _⟩
    rcases mallocSearch_spec mapPage fuel W.represents (by omega) hroom hfuel with
      ⟨s, xs, ys, e, H, _⟩
    have hcall : memMalloc mapPage fuel size h =
        some (takeSegment s.seg (roundUp 0x10 size) s.heap) := by
      rw [memMalloc_eq mapPage _ h rfl hagain hround, e]
      rfl
    refine ⟨(takeSegment s.seg (roundUp 0x10 size) s.heap).1,
      (takeSegment s.seg (roundUp 0x10 size) s.heap).2, hcall, ?_⟩
    rw [takeSegment_preserves_iff H W.tiled h24 hr rfl e]
    exact ⟨.inr, fun hc => hc.resolve_left hround⟩

theorem bootHeap_wellFormed : WellFormed bootHeap.heap [(0x100000000000, ⟨65504, true⟩)] := by
  decide +kernel

def pair : Heap Unit := memFree (0x100000010000 + 32) (allocated [65504, 4064]).heap

theorem memMalloc_preserves_iff_pair : ∃ p h',
    memMalloc (fun _ e => e) 7 2016 pair = some (p, h') ∧
      ((∃ segs', Preserves (fun _ e => e) 7 2016 pair h'
        [(0x100000000000, ⟨65504, false⟩), (0x100000010000, ⟨4064, true⟩)] segs') ↔
        (roundUp 0x10 2016 = 0 ∨
          (Splits (takenLenght [(0x100000000000, ⟨65504, false⟩), (0x100000010000, ⟨4064, true⟩)]
              (roundUp 0x10 2016)) (roundUp 0x10 2016) →
            takenLenght [(0x100000000000, ⟨65504, false⟩), (0x100000010000, ⟨4064, true⟩)]
              (roundUp 0x10 2016) - roundUp 0x10 2016 - 32 = roundUp 0x10 2016))) :=
  memMalloc_preserves_iff _ (by decide +kernel) (by decide +kernel) (by decide)
    (fun hnone => absurd hnone (by decide)) (by decide)

/-- The first small block leaves a header that claims 16 bytes where 65456 are left. -/
theorem memMalloc_loses : ∃ p h', memMalloc (fun _ e => e) 6 16 bootHeap.heap = some (p, h') ∧
    ¬ ∃ segs', Preserves (fun _ e => e) 6 16 bootHeap.heap h'
      [(0x100000000000, ⟨65504, true⟩)] segs' := by
  have hroom : Room [(0x100000000000, ⟨65504, true⟩)] bootHeap.heap.heapEnd 16 :=
    fun hnone => absurd hnone (by decide)
  rcases mallocSearch_spec (fun _ e => e) 6 bootHeap_wellFormed.represents (by decide) hroom
    (by decide) with ⟨s, xs, ys, e, H, _⟩
  have hcall : memMalloc (fun _ e => e) 6 16 bootHeap.heap = some (takeSegment s.seg 16 s.heap) := by
    rw [memMalloc_eq _ _ _ (show roundUp 0x10 16 = 16 by decide) (by decide) (by decide), e]
    rfl
  refine ⟨(takeSegment s.seg 16 s.heap).1, (takeSegment s.seg 16 s.heap).2, hcall, ?_⟩
  rw [takeSegment_preserves_iff H bootHeap_wellFormed.tiled (by decide) le_rfl (by decide) e]
  decide

end Rizzos.HeapPreservation
