import Rizzos.HeapPreservation

set_option autoImplicit false

/-! The recursion of `memMalloc` and the segment that it ends at, also where the segment of a
second expansion runs past the end of the address space. -/
namespace Rizzos.HeapFirstFit
open ByteMemory Memory LinkedList KernelHeap HeapSegments HeapOperations HeapAllocation HeapMalloc
open HeapRuns HeapCoalescing HeapPreservation

variable {β : Type} {h h' : Heap β} {segs segs' xs ys : List (ℕ × SegData)}
  {a c d l r R p fuel size : ℕ}

section Wrapped
variable (mapPage : ℕ → β → β)

/-- An expansion behind a free tail. The length of the merged segment is taken in 64 bits. -/
theorem memExpandHeap_chained (hrep : Represents h (xs ++ [(c, ⟨d, true⟩)]))
    (hR : roundUp frameSize r = R) (hR0 : 32 ≤ R) (hlt : R < 2 ^ 64)
    (htop : h.heapEnd + 32 ≤ 2 ^ 64) :
    Chained (memExpandHeap mapPage r h) (xs ++ [(c, ⟨wrap (d + R), true⟩)]) := by
  have hS := extendedCells hrep htop
  have hlinks := extended_links mapPage hrep htop hR0 hlt
  have hcE := (hrep.laid.mem (x := (c, ⟨d, true⟩)) (by simp)).2
  change c + 32 + d ≤ h.heapEnd at hcE
  have hc0 := hrep.cells_pos c ⟨(c, ⟨d, true⟩), by simp, rfl⟩
  rw [memExpandHeap_eq mapPage (by omega) hR]
  have hlastHdr : (extended mapPage R h).lastHdr = h.heapEnd := rfl
  have hstart : (extended mapPage R h).heapStart = h.heapStart := rfl
  generalize extended mapPage R h = h1 at *
  generalize h.heapEnd = E at *
  rw [List.append_assoc] at hlinks
  have hnode : header h1.mem c = ⟨⟨d, true⟩, E, final 0 xs⟩ := hlinks.node
  have hnodeE : header h1.mem E = ⟨⟨R - 32, true⟩, 0, c⟩ := (links_append.1 hlinks).2.2.1
  have hlast : hdrLast h1 E = c := by rw [hdrLast_eq, hnodeE]
  have hfree : hdrFree h1 c = true := by rw [hdrFree_eq, hnode]
  rw [combineBackward_some hlast hc0.ne', if_pos hfree]
  have hmem : (visit c (visit E h1)).mem = h1.mem := by rw [mem_visit, mem_visit]
  have hlastHdr' : (visit c (visit E h1)).lastHdr = E := hlastHdr
  have hstart' : (visit c (visit E h1)).heapStart = h.heapStart := hstart
  rw [← hmem] at hnode hnodeE hlinks
  generalize visit c (visit E h1) = h2 at *
  have hlast' : (memHeapSegHdrCombineForward c h2).lastHdr = c := by
    rw [combineForward_lastHdr (b := E) (by rw [hdrNext_eq, hnode]) (by omega)
      (by rw [hdrFree_eq, hnode])]
    exact if_pos hlastHdr'.symm
  have hbounds := sameBounds_combineForward c h2
  set S : ℕ → Prop := fun a => (∃ x ∈ xs ++ [(c, ⟨d, true⟩)], x.1 = a) ∨ a = E
  have hc : S c := .inl ⟨(c, ⟨d, true⟩), by simp, rfl⟩
  have hE : S E := .inr rfl
  have hpos : ∀ b, S b → 0 < b := by
    rintro b (hb | rfl)
    · exact hrep.cells_pos b hb
    · omega
  have hlen : wrap (d + wrap (R - 32 + hdrSize)) = wrap (d + R) := by
    rw [hdrSize, wrap_add_wrap, show d + (R - 32 + 32) = d + R by omega]
  have hheader : ∀ b, S b → header (memHeapSegHdrCombineForward c h2).mem b =
      if b = c then ⟨⟨wrap (d + R), true⟩, 0, final 0 xs⟩
      else if b = 0 then { header h2.mem b with last := c } else header h2.mem b := by
    intro b hb
    rw [header_combineForward hS hpos hc hE (.inl rfl) hnode hnodeE (by omega) (by omega)
      (by omega) hb]
    dsimp only
    rw [hlen]
  generalize memHeapSegHdrCombineForward c h2 = h3 at *
  refine ⟨?_, by simp, ?_, ?_⟩
  · refine hlinks.removeAfter ?_ (fun x hx => ?_) ⟨by simp, by simp⟩
    · rw [hheader c hc, if_pos rfl]
      rfl
    · have hxc := (hrep.placed.before.mem hx).2
      have hx0 := hrep.cells_pos x.1 ⟨x, by simp [hx], rfl⟩
      rw [hheader x.1 (.inl ⟨x, by simp [hx], rfl⟩), if_neg (by omega), if_neg (by omega)]
  · rw [hbounds.heapStart, hstart', ← hrep.start, first_append_cons, first_append_cons]
  · rw [hlast', final_append_cons]
    rfl

/-- Behind a tail in use the first expansion is too short by its header when less than 32 bytes
    of its last page are left, and a second one is merged into it. -/
theorem mallocSearch_twice (fuel : ℕ) (hrep : Represents h (xs ++ [(c, ⟨d, false⟩)]))
    (hnone : ∀ x ∈ xs ++ [(c, ⟨d, false⟩)], ¬ Fits r x) (hR : roundUp frameSize r = R)
    (hr : 0 < r) (hrR : r ≤ R) (hshort : R < r + 32) (htop : h.heapEnd + R + 32 ≤ 2 ^ 64)
    (hfuel : xs.length + 2 ≤ fuel) :
    ∃ h2, Chained h2 (xs ++ [(c, ⟨d, false⟩)] ++ [(h.heapEnd, ⟨wrap (R - 32 + R), true⟩)]) ∧
      mallocSearch mapPage (fuel + 2) r h = (mallocSearch mapPage fuel r h2).map fun s =>
        { s with expansions := s.expansions + 2 } := by
  obtain ⟨_, hpos⟩ := roundUp_page hr (hR ▸ hrR)
  rw [hR] at hpos
  have hmerge : ∀ l, mergeInto (xs ++ [(c, ⟨d, false⟩)]) (h.heapEnd, ⟨l, true⟩) =
      xs ++ [(c, ⟨d, false⟩)] ++ [(h.heapEnd, ⟨l, true⟩)] := by
    intro l
    rw [mergeInto_append, if_neg (by simp), List.append_assoc]
    rfl
  obtain ⟨ds, _, e⟩ := mallocSearch_grow mapPage (fuel + 1) hrep.chained hrep.addr_ne hnone
    (by rw [List.length_append, List.length_singleton]; omega)
  obtain ⟨R1, _, hend, _⟩ :=
    memExpandHeap_spec mapPage (hrep.looked ds) hR hr hrR (show h.heapEnd + R < 2 ^ 64 by omega)
  change Represents _ (mergeInto _ (h.heapEnd, _)) at R1
  change _ = h.heapEnd + R at hend
  rw [hmerge] at R1
  generalize memExpandHeap mapPage r (looked ds h) = h1 at *
  have hnone1 : ∀ x ∈ xs ++ [(c, ⟨d, false⟩)] ++ [(h.heapEnd, ⟨R - 32, true⟩)], ¬ Fits r x := by
    intro x hx
    rcases List.mem_append.1 hx with hx | hx
    · exact hnone x hx
    · rw [List.mem_singleton.1 hx]
      rintro ⟨_, hle⟩
      change r ≤ R - 32 at hle
      omega
  obtain ⟨ds', _, e'⟩ := mallocSearch_grow mapPage fuel R1.chained R1.addr_ne hnone1
    (by simp only [List.length_append, List.length_singleton]; omega)
  refine ⟨_, memExpandHeap_chained mapPage (R1.looked ds') hR (by omega) (by omega) ?_, ?_⟩
  · change h1.heapEnd + 32 ≤ 2 ^ 64
    omega
  · rw [e, e', Option.map_map]
    rfl

end Wrapped

theorem split_tail_lenght (hnode : header h.mem a = ⟨⟨l, true⟩, 0, p⟩) (h24 : 24 ≤ a)
    (hr : 16 ≤ r) (hrl : r < l) (htop : a + r + 64 ≤ 2 ^ 64) :
    r ≤ hdrLenght (memHeapSegHdrSplit a r h).2 a := by
  have hlen : hdrLenght h a = l := by rw [hdrLenght_eq, hnode]
  have hl : l < 2 ^ 64 := by
    rw [← hlen]
    exact load64_lt _ _
  by_cases hsplit : Splits l r
  · have hwrap : wrap (a + r + hdrSize) = a + 32 + r := by
      rw [hdrSize, wrap_of_lt (by omega)]
      omega
    have hS : Cells fun z => z = a ∨ z = a + 32 + r := by
      refine ⟨?_, ?_⟩
      · rintro z (rfl | rfl) <;> omega
      · rintro z z' (rfl | rfl) (rfl | rfl) <;> omega
    have hge : ∀ z, z = a ∨ z = a + 32 + r → 24 ≤ z := by
      rintro z (rfl | rfl) <;> omega
    have hheader := header_split hS hge (.inl rfl) (.inr rfl) (.inl rfl) hnode (by omega) (by omega)
      (by omega) hr hsplit hwrap (c := a) (.inl rfl)
    rw [if_pos rfl] at hheader
    rw [hdrLenght_eq, hheader]
  · rw [split_none hr hrl hl hlen hsplit, hdrLenght_eq, mem_visit, hnode]
    exact hrl.le

theorem takeSegment_tail (hnode : header h.mem a = ⟨⟨l, true⟩, 0, p⟩) (h24 : 24 ≤ a)
    (hr : 16 ≤ r) (hrl : r ≤ l) (htop : a + r + 64 ≤ 2 ^ 64) :
    hdrFree (takeSegment a r h).2 a = false ∧ r ≤ hdrLenght (takeSegment a r h).2 a := by
  have hlen : hdrLenght h a = l := by rw [hdrLenght_eq, hnode]
  have hS : Cells (· = a) := by
    refine ⟨?_, ?_⟩
    · rintro z rfl
      omega
    · rintro z z' rfl rfl
      exact .inl rfl
  have hkept : ∀ h' : Heap β, r ≤ hdrLenght h' a →
      hdrFree (setFree a false h') a = false ∧ r ≤ hdrLenght (setFree a false h') a := by
    intro h' hle
    rw [hdrFree_eq, hdrLenght_eq, header_setFree hS rfl rfl, if_pos rfl]
    exact ⟨rfl, hle⟩
  have htake : (takeSegment a r h).2 =
      setFree a false (if hdrLenght h a > r then (memHeapSegHdrSplit a r h).2 else h) := rfl
  rw [htake]
  apply hkept
  rw [hlen]
  split
  · exact split_tail_lenght hnode h24 hr ‹_› htop
  · rw [hlen]
    exact hrl

def wholeBlocks (size : ℕ) : ℕ := (size + 15) / 16 * 16

theorem roundUp_wholeBlocks (hwrap : wholeBlocks size < 2 ^ 64) :
    roundUp 0x10 size = wholeBlocks size := by
  unfold roundUp wholeBlocks at *
  by_cases hmod : size % 0x10 > 0
  · rw [if_pos hmod, wrap_of_lt (by omega)]
    omega
  · rw [if_neg hmod]
    omega

def TailLive (segs : List (ℕ × SegData)) : Prop := ∃ x ∈ segs.getLast?, x.2.free = false

/-- The search for `r` bytes in `h` has ended in a heap with the segments `segs'`, and the call
    returns `p` and `h'`. -/
structure ServedFirstFit (segs segs' : List (ℕ × SegData)) (r : ℕ) (s : Found β) (p : ℕ)
    (h' : Heap β) : Prop where
  chained : Chained s.heap segs'
  first : ∃ l, firstFit segs' r = some (s.seg, ⟨l, true⟩)
  few : s.expansions ≤ 2
  second : s.expansions = 2 → TailLive segs ∧ (r % 4096 = 0 ∨ r % 4096 = 4080)
  pointer : p = s.seg + 32
  aligned : p % 16 = 0
  taken : hdrFree h' s.seg = false ∧ r ≤ hdrLenght h' s.seg

theorem tiled_aligned {lo hi : ℕ} (hl : Tiled lo segs hi) (hlo : lo % 16 = 0)
    (halign : ∀ x ∈ segs, x.2.lenght % 16 = 0) : hi % 16 = 0 := by
  induction segs generalizing lo with
  | nil =>
    have e : lo = hi := hl
    rwa [← e]
  | cons x xs ih =>
    have hx := halign x (by simp)
    have hstart := hl.1
    exact ih hl.2 (by omega) fun y hy => halign y (by simp [hy])

theorem heapEnd_aligned (W : WellFormed h segs)
    (halign : ∀ x ∈ segs, x.1 % 16 = 0 ∧ x.2.lenght % 16 = 0) : h.heapEnd % 16 = 0 := by
  have hstart : h.heapStart % 16 = 0 := by
    rcases first_mem segs 0 W.nonempty with ⟨x, hx, e⟩
    rw [← W.start, e]
    exact (halign x hx).1
  exact tiled_aligned W.tiled hstart fun x hx => (halign x hx).2

theorem searched_served {s : Found β} (H : Searched h segs r s xs l ys)
    (h24 : 24 ≤ h.heapStart) (hr : 16 ≤ r) (hfew : s.expansions ≤ 2)
    (hsecond : s.expansions = 2 → TailLive segs ∧ (r % 4096 = 0 ∨ r % 4096 = 4080))
    (hseg : s.seg % 16 = 0) :
    ServedFirstFit segs (xs ++ (s.seg, ⟨l, true⟩) :: ys) r s (takeSegment s.seg r s.heap).1
      (takeSegment s.seg r s.heap).2 := by
  rcases takeSegment_chained H.represents (H.start.symm ▸ h24) hr H.fits with ⟨hp, C⟩
  have hlinks := C.links
  generalize takeSegment s.seg r s.heap = q at *
  refine ⟨H.represents.chained, ⟨l, firstFit_append ys ⟨rfl, H.fits⟩ H.first⟩, hfew, hsecond, hp,
    by omega, ?_⟩
  rw [takenSegs] at hlinks
  rw [hdrFree_eq, hdrLenght_eq]
  split at hlinks
  · rw [hlinks.node]
    exact ⟨rfl, le_rfl⟩
  · rw [hlinks.node]
    exact ⟨rfl, H.fits⟩

theorem known_aligned {n : ℕ} (hend : h.heapEnd % 16 = 0)
    (halign : ∀ x ∈ segs, x.1 % 16 = 0 ∧ x.2.lenght % 16 = 0)
    (hR : roundUp frameSize r % 16 = 0) (ha : Known h segs r n a) : a % 16 = 0 := by
  rcases ha with ⟨x, hx, rfl⟩ | ⟨k, _, rfl⟩
  · exact (halign x hx).1
  · have hmul : k * roundUp frameSize r % 16 = 0 := by rw [Nat.mul_mod, hR, Nat.mul_zero]
    omega

theorem growth_snoc (f : Bool) : growth (xs ++ [(c, ⟨d, f⟩)]) r =
    if f = true then (roundUp frameSize r, d + roundUp frameSize r)
    else if r + 32 ≤ roundUp frameSize r then (roundUp frameSize r, roundUp frameSize r - 32)
    else (2 * roundUp frameSize r, 2 * roundUp frameSize r - 32) := by
  unfold growth
  cases f <;> simp

theorem expansions_snoc (f : Bool) : expansions (xs ++ [(c, ⟨d, f⟩)]) r =
    if f = true then 1 else if r + 32 ≤ roundUp frameSize r then 1 else 2 := by
  unfold expansions
  cases f <;> simp

theorem served_twice (mapPage : ℕ → β → β) (hrep : Represents h (xs ++ [(c, ⟨d, false⟩)]))
    (hnone : ∀ x ∈ xs ++ [(c, ⟨d, false⟩)], ¬ Fits r x) (h24 : 24 ≤ h.heapStart)
    (hend : h.heapEnd % 16 = 0) (hr : 16 ≤ r) (hrmod : r % 16 = 0)
    (hR : roundUp frameSize r = R) (hrR : r ≤ R) (hRmod : R % 4096 = 0) (hshort : R < r + 32)
    (hbig : r ≤ 2 ^ 63) (htop : h.heapEnd + r + 8192 < 2 ^ 64) (hfuel : xs.length + 6 ≤ fuel) :
    ∃ s segs', mallocSearch mapPage fuel r h = some s ∧
      ServedFirstFit (xs ++ [(c, ⟨d, false⟩)]) segs' r s (takeSegment s.seg r s.heap).1
        (takeSegment s.seg r s.heap).2 := by
  obtain ⟨fuel, rfl⟩ : ∃ n, fuel = n + 1 + 2 := ⟨fuel - 3, by omega⟩
  rcases mallocSearch_twice mapPage (fuel + 1) hrep hnone hR (by omega) hrR hshort (by omega)
    (by omega) with ⟨h2, C, e⟩
  have hmod : r % 4096 = 0 ∨ r % 4096 = 4080 := by omega
  have hwrap : wrap (R - 32 + R) = 2 * R - 32 := by
    rw [wrap_of_lt (by omega)]
    omega
  rw [hwrap] at C
  have hE := hrep.laid.le
  have h0 : ∀ x ∈ xs ++ [(c, ⟨d, false⟩)] ++ [(h.heapEnd, ⟨2 * R - 32, true⟩)], x.1 ≠ 0 := by
    intro x hx
    rcases List.mem_append.1 hx with hx | hx
    · exact hrep.addr_ne x hx
    · rw [List.mem_singleton.1 hx]
      change h.heapEnd ≠ 0
      omega
  rcases mallocSearch_stop mapPage fuel C h0 (show r ≤ 2 * R - 32 by omega) hnone
    (by simp only [List.length_append, List.length_singleton]; omega) with ⟨ds, _, e'⟩
  have hnode : header (looked ds h2).mem h.heapEnd =
      ⟨⟨2 * R - 32, true⟩, 0, final 0 (xs ++ [(c, ⟨d, false⟩)])⟩ := C.links.node
  have hfits : Fits r (h.heapEnd, ⟨2 * R - 32, true⟩) :=
    ⟨rfl, show r ≤ 2 * R - 32 by omega⟩
  have hfound := firstFit_append [] hfits hnone
  have htaken := takeSegment_tail hnode (by omega) hr (by omega) (by omega)
  have hp : (takeSegment h.heapEnd r (looked ds h2)).1 = h.heapEnd + 32 := by
    rw [takeSegment, hdrSize, wrap_of_lt (by omega)]
  have hC : Chained (looked ds h2) _ := ⟨C.links, C.nonempty, C.start, C.last⟩
  have hlive : TailLive (xs ++ [(c, ⟨d, false⟩)]) := ⟨(c, ⟨d, false⟩), by simp, rfl⟩
  refine ⟨⟨2, h.heapEnd, looked ds h2⟩, _, by rw [e, e']; rfl, hC, ⟨_, hfound⟩, le_rfl,
    fun _ => ⟨hlive, hmod⟩, hp, ?_, htaken⟩
  change (takeSegment h.heapEnd r (looked ds h2)).1 % 16 = 0
  omega

/-- A call ends after at most two expansions with the first segment that fits, unless nothing
    fits, the tail is in use and more than half the address space is asked for in whole pages:
    then the length of the merged segment wraps. -/
theorem memMalloc_first_fit (mapPage : ℕ → β → β) (W : WellFormed h segs)
    (h24 : 24 ≤ h.heapStart) (halign : ∀ x ∈ segs, x.1 % 16 = 0 ∧ x.2.lenght % 16 = 0)
    (hsize : 0 < size) (htop : h.heapEnd + wholeBlocks size + 8192 < 2 ^ 64)
    (hbig : firstFit segs (wholeBlocks size) = none → TailLive segs →
      wholeBlocks size % 4096 = 0 ∨ wholeBlocks size % 4096 = 4080 → wholeBlocks size ≤ 2 ^ 63)
    (hfuel : segs.length + 5 ≤ fuel) :
    ∃ s segs' p h', mallocSearch mapPage fuel (wholeBlocks size) h = some s ∧
      memMalloc mapPage fuel size h = some (p, h') ∧
      ServedFirstFit segs segs' (wholeBlocks size) s p h' := by
  have hr : 16 ≤ wholeBlocks size := by
    unfold wholeBlocks
    omega
  have hrmod : wholeBlocks size % 16 = 0 := by
    unfold wholeBlocks
    omega
  have hround := roundUp_wholeBlocks (show wholeBlocks size < 2 ^ 64 by omega)
  generalize wholeBlocks size = r at *
  have hagain : roundUp 0x10 r = r := by
    rw [roundUp, if_neg (by omega)]
  suffices hserved : ∃ s segs', mallocSearch mapPage fuel r h = some s ∧
      ServedFirstFit segs segs' r s (takeSegment s.seg r s.heap).1
        (takeSegment s.seg r s.heap).2 by
    rcases hserved with ⟨s, segs', e, H⟩
    refine ⟨s, segs', (takeSegment s.seg r s.heap).1, (takeSegment s.seg r s.heap).2, e, ?_, H⟩
    rw [memMalloc_eq mapPage _ h hround hagain (by omega), e]
    rfl
  have hend := heapEnd_aligned W halign
  have hR : roundUp frameSize r = wholePages r := roundUp_wholePages (by
    unfold wholePages
    omega)
  have hrR : r ≤ wholePages r := by
    unfold wholePages
    omega
  have hRle : wholePages r ≤ r + 4095 := by
    unfold wholePages
    omega
  have hRmod : wholePages r % 4096 = 0 := by
    unfold wholePages
    omega
  generalize wholePages r = R at *
  have hR16 : roundUp frameSize r % 16 = 0 := by
    rw [hR]
    omega
  have hrep := W.represents
  cases hfirst : firstFit segs r with
  | some x =>
    obtain ⟨fuel, rfl⟩ : ∃ n, fuel = n + 1 := ⟨fuel - 1, by omega⟩
    rcases mallocSearch_first mapPage fuel hrep hfirst (by omega) with ⟨s, xs, l, ys, e, H, hn, _, _⟩
    exact ⟨s, _, e, searched_served H h24 hr (by omega) (by omega)
      (known_aligned hend halign hR16 H.place)⟩
  | none =>
    obtain ⟨xs, ⟨c, d, f⟩, rfl⟩ : ∃ xs x, segs = xs ++ [x] := by
      rcases List.eq_nil_or_concat segs with hnil | ⟨xs, x, e⟩
      · exact absurd hnil hrep.nonempty
      · exact ⟨xs, x, by rw [e, List.concat_eq_append]⟩
    have hnone : ∀ x ∈ xs ++ [(c, ⟨d, f⟩)], ¬ Fits r x := fun x hx => by
      simpa using List.find?_eq_none.1 hfirst x hx
    have hlen : (xs ++ [(c, (⟨d, f⟩ : SegData))]).length = xs.length + 1 := by simp
    by_cases honce : f = true ∨ r + 32 ≤ R
    · obtain ⟨fuel, rfl⟩ : ∃ n, fuel = n + 1 := ⟨fuel - 1, by omega⟩
      have hgrowth : (growth (xs ++ [(c, ⟨d, f⟩)]) r).1 = R := by
        rw [growth_snoc, hR]
        rcases honce with rfl | hfit
        · rfl
        · cases f <;> simp [hfit]
      have hexp : expansions (xs ++ [(c, ⟨d, f⟩)]) r = 1 := by
        rw [expansions_snoc, hR]
        rcases honce with rfl | hfit
        · rfl
        · rw [if_pos hfit, ite_self]
      rcases mallocSearch_none mapPage fuel hrep (by omega) hfirst (by omega)
        (by rw [hgrowth]; omega) (by omega) with ⟨s, zs, e, H, hn⟩
      rw [hexp] at hn
      exact ⟨s, _, e, searched_served H h24 hr (by omega) (by omega)
        (known_aligned hend halign hR16 H.place)⟩
    · obtain ⟨hf, hshort⟩ := not_or.1 honce
      obtain rfl : f = false := by simpa using hf
      have hmod : r % 4096 = 0 ∨ r % 4096 = 4080 := by omega
      have hlive : TailLive (xs ++ [(c, ⟨d, false⟩)]) := ⟨(c, ⟨d, false⟩), by simp, rfl⟩
      exact served_twice mapPage hrep hnone h24 hend hr hrmod hR hrR hRmod (by omega)
        (hbig hfirst hlive hmod) htop (by omega)

/-- A call for a page behind a block in use expands the heap twice. -/
theorem memMalloc_first_fit_full : ∃ s segs' p h',
    mallocSearch (fun _ e => e) 6 (wholeBlocks 4096) (allocated [65504]).heap = some s ∧
      memMalloc (fun _ e => e) 6 4096 (allocated [65504]).heap = some (p, h') ∧
        ServedFirstFit [(0x100000000000, ⟨65504, false⟩)] segs' (wholeBlocks 4096) s p h' :=
  memMalloc_first_fit _ (by decide +kernel) (by decide +kernel) (by decide) (by decide)
    (by decide +kernel) (fun _ _ _ => by decide) (by decide)

/-- Behind a tail in use, a call for one page more than half the address space expands the heap
    a third time: the merged segment counts as 8160 bytes. -/
theorem mallocSearch_third : ∃ (h : Heap Unit) (segs : List (ℕ × SegData)) (size : ℕ),
    WellFormed h segs ∧ 24 ≤ h.heapStart ∧ (∀ x ∈ segs, x.1 % 16 = 0 ∧ x.2.lenght % 16 = 0) ∧
      0 < size ∧ h.heapEnd + wholeBlocks size + 8192 < 2 ^ 64 ∧ ∀ fuel s, segs.length + 5 ≤ fuel →
        mallocSearch (fun _ e => e) fuel (wholeBlocks size) h = some s → 3 ≤ s.expansions := by
  have W : WellFormed (allocated [65504]).heap ([] ++ [(0x100000000000, ⟨65504, false⟩)]) := by
    decide +kernel
  have hend : (allocated [65504]).heap.heapEnd = 0x100000010000 := by decide +kernel
  refine ⟨(allocated [65504]).heap, _, 2 ^ 63 + 4096, W, by decide +kernel, by decide, by decide,
    by rw [hend]; decide, fun fuel s hfuel hs => ?_⟩
  obtain ⟨fuel, rfl⟩ : ∃ n, fuel = n + 1 + 2 := ⟨fuel - 3, by omega⟩
  have hsize : wholeBlocks (2 ^ 63 + 4096) = 2 ^ 63 + 4096 := by decide
  rw [hsize] at hs
  rw [List.nil_append, List.length_singleton] at hfuel
  have hnone : ∀ x ∈ [] ++ [(0x100000000000, (⟨65504, false⟩ : SegData))],
      ¬ Fits (2 ^ 63 + 4096) x := by decide
  rcases mallocSearch_twice (fun _ e => e) (fuel + 1) W.represents hnone
    (show roundUp frameSize (2 ^ 63 + 4096) = 2 ^ 63 + 4096 by decide) (by decide) le_rfl
    (by decide) (by rw [hend]; decide) (by rw [List.length_nil]; omega) with ⟨h2, C, e⟩
  rw [hend, show wrap (2 ^ 63 + 4096 - 32 + (2 ^ 63 + 4096)) = 8160 by decide] at C
  rcases mallocSearch_grow (fun _ e => e) fuel C (by decide) (show ∀ x ∈ _,
    ¬ Fits (2 ^ 63 + 4096) x by decide) (show 2 ≤ fuel by omega) with ⟨ds, _, e'⟩
  rw [e, e', Option.map_map] at hs
  rcases Option.map_eq_some_iff.1 hs with ⟨s', _, rfl⟩
  change 3 ≤ s'.expansions + 1 + 2
  omega

end Rizzos.HeapFirstFit
