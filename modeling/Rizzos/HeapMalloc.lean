import Rizzos.HeapDerefs

set_option autoImplicit false

/-! The expansion of the heap and the whole of `memMalloc`. -/
namespace Rizzos.HeapMalloc
open ByteMemory Memory LinkedList KernelHeap HeapSegments HeapOperations HeapAllocation HeapDerefs

variable {β : Type} {h : Heap β} {segs xs ys : List (ℕ × SegData)} {a l r R : ℕ} {f : Bool}

theorem roundUp_page (hr : 0 < r) (h : r ≤ roundUp frameSize r) :
    roundUp frameSize r % 4096 = 0 ∧ 4096 ≤ roundUp frameSize r := by
  unfold roundUp frameSize at *
  by_cases hmod : r % 0x1000 > 0
  · rw [if_pos hmod] at h ⊢
    unfold wrap at *
    omega
  · rw [if_neg hmod] at h ⊢
    omega

/-- Rounding up to 16 gives zero only for zero and for sizes that wrap. -/
theorem roundUp_block (size : ℕ) (hsize : size < 2 ^ 64) (h : roundUp 0x10 size ≠ 0) :
    16 ≤ roundUp 0x10 size ∧ size ≤ roundUp 0x10 size ∧
      roundUp 0x10 (roundUp 0x10 size) = roundUp 0x10 size ∧ roundUp 0x10 size < 2 ^ 64 := by
  have hmul : roundUp 0x10 size % 16 = 0 ∧ size ≤ roundUp 0x10 size ∧
      roundUp 0x10 size < 2 ^ 64 := by
    unfold roundUp at *
    by_cases hmod : size % 0x10 > 0
    · rw [if_pos hmod] at h ⊢
      unfold wrap at *
      omega
    · rw [if_neg hmod] at h ⊢
      omega
  refine ⟨by omega, hmul.2.1, ?_, hmul.2.2⟩
  conv_lhs => rw [roundUp]
  rw [if_neg (by omega)]

theorem header_append {S : ℕ → Prop} {new c v : ℕ} (hS : Cells S) (hnew : S new) (hc : S c)
    (hne : c ≠ new) (hv : v < 2 ^ 64) (ha : S a) :
    header (setLenght new v (setNext new 0 (setLastHdr new
        (setNext c new (setLast new c (setFree new true h)))))).mem a =
      if a = new then ⟨⟨v, true⟩, 0, c⟩
      else if a = c then { header h.mem c with next := new } else header h.mem a := by
  have hnew64 : new < 2 ^ 64 := by
    have := hS.bound new hnew
    omega
  have hc64 : c < 2 ^ 64 := by
    have := hS.bound c hc
    omega
  set h1 := setFree new true h
  set h2 := setLast new c h1
  set h3 := setNext c new h2
  set h4 := setLastHdr new h3
  set h5 := setNext new 0 h4
  have e1 : ∀ a, S a → header h1.mem a = _ := fun a ha => header_setFree hS hnew ha true
  have e2 : ∀ a, S a → header h2.mem a = _ := fun a ha => header_setLast hS hnew ha hc64
  have e3 : ∀ a, S a → header h3.mem a = _ := fun a ha => header_setNext hS hc ha hnew64
  have e5 : ∀ a, S a → header h5.mem a = _ :=
    fun a ha => header_setNext (h := h4) hS hnew ha (by decide)
  have e4 : ∀ a, header h4.mem a = header h3.mem a := fun _ => rfl
  rw [header_setLenght hS hnew ha hv]
  by_cases han : a = new
  · rw [if_pos han, if_pos han, e5 new hnew, if_pos rfl, e4, e3 new hnew, if_neg (Ne.symm hne),
      e2 new hnew, if_pos rfl, e1 new hnew, if_pos rfl]
  · rw [if_neg han, if_neg han, e5 a ha, if_neg han, e4, e3 a ha, e2 a ha, if_neg han, e1 a ha,
      if_neg han, e2 c hc, if_neg hne, e1 c hc, if_neg hne]

section Expand
variable (mapPage : ℕ → β → β)

/-- The heap after the pages are mapped and the new header is written, before the merge. -/
def extended (mapPage : ℕ → β → β) (R : ℕ) (h : Heap β) : Heap β :=
  setLenght h.heapEnd (wrapSub R hdrSize) (setNext h.heapEnd 0 (setLastHdr h.heapEnd
    (setNext h.lastHdr h.heapEnd (setLast h.heapEnd h.lastHdr (setFree h.heapEnd true
      { h with env := mapEnv mapPage h.heapEnd (R / frameSize) h.env
               heapEnd := wrap (h.heapEnd + R / frameSize * frameSize) })))))

theorem memExpandHeap_eq (hend : h.heapEnd < 2 ^ 64) (hR : roundUp frameSize r = R) :
    memExpandHeap mapPage r h = memHeapSegHdrCombineBackward h.heapEnd (extended mapPage R h) := by
  rw [memExpandHeap]
  simp only [hR, mapPages_eq mapPage _ h hend]
  rfl

theorem extendedCells (hrep : Represents h segs) (htop : h.heapEnd + 32 ≤ 2 ^ 64) :
    Cells fun a => (∃ x ∈ segs, x.1 = a) ∨ a = h.heapEnd := by
  have hS := hrep.cells
  have hgap : ∀ x ∈ segs, x.1 + 32 ≤ h.heapEnd := fun x hx => by
    have := (hrep.laid.mem hx).2
    omega
  refine ⟨?_, ?_⟩
  · rintro a (ha | rfl)
    · exact hS.bound a ha
    · exact htop
  · rintro a a' (ha | rfl) (ha' | rfl)
    · exact hS.apart a a' ha ha'
    · obtain ⟨x, hx, rfl⟩ := ha
      exact .inr (.inl (hgap x hx))
    · obtain ⟨x, hx, rfl⟩ := ha'
      exact .inr (.inr (hgap x hx))
    · exact .inl rfl

/-- The new header is linked in behind the last one, also where its segment runs past the end
    of the address space. -/
theorem extended_links (hrep : Represents h segs) (htop : h.heapEnd + 32 ≤ 2 ^ 64) (hR0 : 32 ≤ R)
    (hR : R < 2 ^ 64) :
    Links (header (extended mapPage R h).mem) 0 (segs ++ [(h.heapEnd, ⟨R - 32, true⟩)]) 0 := by
  obtain ⟨xs, ⟨c, d⟩, rfl⟩ : ∃ xs x, segs = xs ++ [x] := by
    obtain hnil | ⟨xs, x, e⟩ := List.eq_nil_or_concat segs
    · exact absurd hnil hrep.nonempty
    · exact ⟨xs, x, by rw [e, List.concat_eq_append]⟩
  have hlast : h.lastHdr = c := by
    rw [hrep.last, final_append_cons]
    rfl
  have hlaid := hrep.laid
  have hS := extendedCells hrep htop
  set E := h.heapEnd with hE
  set S : ℕ → Prop := fun a => (∃ x ∈ xs ++ [(c, d)], x.1 = a) ∨ a = E
  have hc : S c := .inl ⟨(c, d), by simp, rfl⟩
  have hES : S E := .inr rfl
  have hcE : c + 32 + d.lenght ≤ E := (hlaid.mem (x := (c, d)) (by simp)).2
  have hlen : wrapSub R hdrSize = R - 32 := by
    rw [hdrSize, wrapSub_of_le hR0 hR]
  have hheader : ∀ a, S a → header (extended mapPage R h).mem a =
      if a = E then ⟨⟨R - 32, true⟩, 0, c⟩
      else if a = c then { header h.mem c with next := E } else header h.mem a := by
    intro a ha
    rw [extended, hlen, hlast]
    exact header_append hS hES hc (by omega) (by omega) ha
  rw [List.append_assoc]
  refine hrep.links.insertAfter ?_ ?_ ?_ ⟨by simp, by simp⟩
  · rw [hheader c hc, if_neg (by omega), if_pos rfl, hrep.placed.node]
  · rw [hheader E hES, if_pos rfl]
    rfl
  · intro x hx
    have hxc := (hrep.placed.before.mem hx).2
    rw [hheader x.1 (.inl ⟨x, by simp [hx], rfl⟩), if_neg (by omega), if_neg (by omega)]

theorem extended_spec (hrep : Represents h segs) (hR : R % 4096 = 0) (hR0 : 4096 ≤ R)
    (htop : h.heapEnd + R < 2 ^ 64) :
    Represents (extended mapPage R h) (segs ++ [(h.heapEnd, ⟨R - 32, true⟩)]) ∧
      (extended mapPage R h).heapStart = h.heapStart ∧
      (extended mapPage R h).heapEnd = h.heapEnd + R ∧
      (extended mapPage R h).env = mapEnv mapPage h.heapEnd (R / frameSize) h.env := by
  have hend : (extended mapPage R h).heapEnd = h.heapEnd + R := by
    change wrap (h.heapEnd + R / frameSize * frameSize) = _
    rw [frameSize, wrap_of_lt (by omega)]
    omega
  have hlinks := extended_links mapPage hrep (by omega) (by omega) (show R < 2 ^ 64 by omega)
  refine ⟨⟨hlinks, by simp, ?_, ?_, ?_, hrep.base, hend.symm ▸ htop⟩, rfl, hend, rfl⟩
  · have hstart := hrep.start
    cases segs with
    | nil => exact absurd rfl hrep.nonempty
    | cons x xs => exact hstart
  · rw [final_append_cons]
    rfl
  · rw [hend]
    refine laid_append_cons.2 ⟨hrep.laid, ?_⟩
    change h.heapEnd + 32 + (R - 32) ≤ h.heapEnd + R
    omega

/-- Expanding by `R` bytes: a free segment of `R` bytes, header included, is put behind the
    others. -/
theorem memExpandHeap_spec (hrep : Represents h segs) (hR : roundUp frameSize r = R)
    (hr : 0 < r) (hrR : r ≤ R) (htop : h.heapEnd + R < 2 ^ 64) :
    Represents (memExpandHeap mapPage r h) (mergeInto segs (h.heapEnd, ⟨R - 32, true⟩)) ∧
      (memExpandHeap mapPage r h).heapStart = h.heapStart ∧
      (memExpandHeap mapPage r h).heapEnd = h.heapEnd + R ∧
      (memExpandHeap mapPage r h).env = mapEnv mapPage h.heapEnd (R / frameSize) h.env := by
  obtain ⟨hmod, hpos⟩ := roundUp_page hr (hR ▸ hrR)
  rw [hR] at hmod hpos
  obtain ⟨R1, hstart, hend, henv⟩ := extended_spec mapPage hrep hmod hpos htop
  obtain ⟨R2, hb⟩ := combineBackward_spec R1
  rw [List.append_nil] at R2
  rw [memExpandHeap_eq mapPage (by omega) hR]
  exact ⟨R2, hb.heapStart.trans hstart, hb.heapEnd.trans hend, hb.env.trans henv⟩

theorem derefs_memExpandHeap {A : ℕ → Prop} (hrep : Represents h segs)
    (hR : roundUp frameSize r = R) (hr : 0 < r) (hrR : r ≤ R) (htop : h.heapEnd + R < 2 ^ 64)
    (hlast : A h.lastHdr) (hend : A h.heapEnd) : Derefs A h (memExpandHeap mapPage r h) := by
  obtain ⟨hmod, hpos⟩ := roundUp_page hr (hR ▸ hrR)
  rw [hR] at hmod hpos
  obtain ⟨R1, _⟩ := extended_spec mapPage hrep hmod hpos htop
  have hE := hrep.laid.le.trans' hrep.base
  rw [memExpandHeap_eq mapPage (by omega) hR]
  have hextended : Derefs A h (extended mapPage R h) :=
    ⟨[h.heapEnd, h.heapEnd, h.lastHdr, h.heapEnd, h.heapEnd], rfl, by simp [hlast, hend]⟩
  obtain ⟨xs, ⟨c, d⟩, rfl⟩ : ∃ xs x, segs = xs ++ [x] := by
    obtain hnil | ⟨xs, x, e⟩ := List.eq_nil_or_concat segs
    · exact absurd hnil hrep.nonempty
    · exact ⟨xs, x, by rw [e, List.concat_eq_append]⟩
  have hc : h.lastHdr = c := by
    rw [hrep.last, final_append_cons]
    rfl
  have hnodeE := R1.placed.node
  rw [List.append_assoc] at R1
  have hnodec := R1.placed.node
  generalize extended mapPage R h = h1 at *
  have hlast1 : hdrLast h1 h.heapEnd = h.lastHdr := by
    rw [hdrLast_eq, hnodeE, final_append_cons, hc]
    rfl
  have hnext1 : hdrNext h1 h.lastHdr = h.heapEnd := by
    rw [hc, hdrNext_eq, hnodec]
    rfl
  have hnext2 : hdrNext h1 h.heapEnd = 0 := by
    rw [hdrNext_eq, hnodeE]
    rfl
  refine hextended.trans (derefs_combineBackward hend ?_ ?_ ?_)
  · rw [hlast1]
    exact fun _ => hlast
  · rw [hlast1, hnext1]
    exact fun _ _ => hend
  · rw [hlast1, hnext1, hnext2]
    exact fun _ _ h0 => absurd rfl h0

end Expand

def firstFit (segs : List (ℕ × SegData)) (r : ℕ) : Option (ℕ × SegData) :=
  segs.find? fun x => decide (Fits r x)

theorem firstFit_append {x : ℕ × SegData} (ys : List (ℕ × SegData)) (hx : Fits r x)
    (hxs : ∀ x ∈ xs, ¬ Fits r x) : firstFit (xs ++ x :: ys) r = some x := by
  refine List.find?_eq_some_iff_append.2 ⟨decide_eq_true hx, xs, ys, rfl, fun y hy => ?_⟩
  simpa using hxs y hy

/-- By how much the heap grows when no segment fits, and how long the segment is that fits
    then. -/
def growth (segs : List (ℕ × SegData)) (r : ℕ) : ℕ × ℕ :=
  let R := roundUp frameSize r
  match segs.getLast? with
  | some (_, ⟨l, true⟩) => (R, l + R)
  | _ => if r + 32 ≤ R then (R, R - 32) else (2 * R, 2 * R - 32)

section Search
variable (mapPage : ℕ → β → β)

/-- The end of a search: how often the heap has been expanded, the segment found and the heap
    in which it was found. -/
structure Found (β : Type) where
  expansions : ℕ
  seg : ℕ
  heap : Heap β

/-- `memMalloc` up to the segment that it takes. -/
def mallocSearch : ℕ → ℕ → Heap β → Option (Found β)
  | 0, _, _ => none
  | fuel + 1, size, h =>
    match findSegment size fuel h.heapStart h with
    | (none, _) => none
    | (some (some currentSeg), h) => some ⟨0, currentSeg, h⟩
    | (some none, h) =>
      (mallocSearch fuel size (memExpandHeap mapPage size h)).map fun s =>
        { s with expansions := s.expansions + 1 }

theorem memMalloc_eq {size : ℕ} (fuel : ℕ) (h : Heap β) (hsize : roundUp 0x10 size = r)
    (hround : roundUp 0x10 r = r) (hr : r ≠ 0) : memMalloc mapPage fuel size h =
      (mallocSearch mapPage fuel r h).map fun s => takeSegment s.seg r s.heap := by
  induction fuel generalizing size h with
  | zero => rfl
  | succ fuel ih =>
    rw [memMalloc, mallocSearch]
    simp only [hsize, if_neg hr]
    generalize findSegment r fuel h.heapStart h = found
    obtain ⟨_ | (_ | seg), h1⟩ := found
    · rfl
    · dsimp only
      rw [ih (memExpandHeap mapPage r h1) hround, Option.map_map]
      rfl
    · rfl

def Known (h : Heap β) (segs : List (ℕ × SegData)) (r n a : ℕ) : Prop :=
  (∃ y ∈ segs, y.1 = a) ∨ ∃ k < n, a = h.heapEnd + k * roundUp frameSize r

/-- The search has ended at the first segment that fits, of length `l` between `xs` and `ys`. -/
structure Searched (h : Heap β) (segs : List (ℕ × SegData)) (r : ℕ) (s : Found β)
    (xs : List (ℕ × SegData)) (l : ℕ) (ys : List (ℕ × SegData)) : Prop where
  represents : Represents s.heap (xs ++ (s.seg, ⟨l, true⟩) :: ys)
  fits : r ≤ l
  first : ∀ x ∈ xs, ¬ Fits r x
  start : s.heap.heapStart = h.heapStart
  grown : s.heap.heapEnd = h.heapEnd + s.expansions * roundUp frameSize r
  kept : ∀ y ∈ segs, y.2.free = false → y ∈ xs ++ (s.seg, ⟨l, true⟩) :: ys
  place : Known h segs r s.expansions s.seg
  tiled : Tiled h.heapStart segs h.heapEnd →
    Tiled s.heap.heapStart (xs ++ (s.seg, ⟨l, true⟩) :: ys) s.heap.heapEnd
  derefs : Derefs (Known h segs r s.expansions) h s.heap

theorem mallocSearch_stop (fuel : ℕ) (C : Chained h (xs ++ (a, ⟨l, true⟩) :: ys))
    (h0 : ∀ x ∈ xs ++ (a, ⟨l, true⟩) :: ys, x.1 ≠ 0) (hrl : r ≤ l) (hxs : ∀ x ∈ xs, ¬ Fits r x)
    (hfuel : (xs ++ (a, ⟨l, true⟩) :: ys).length ≤ fuel) :
    ∃ ds, (∀ z ∈ ds, ∃ y ∈ xs ++ (a, ⟨l, true⟩) :: ys, y.1 = z) ∧
      mallocSearch mapPage (fuel + 1) r h = some ⟨0, a, looked ds h⟩ := by
  rw [mallocSearch]
  obtain ⟨ds, hds, ⟨zs, x, us, e, hx, hzs, hfound⟩ | ⟨hnone, _⟩⟩ :=
    findSegment_spec (r := r) C.links C.nonempty h0 hfuel
  · rw [C.start] at hfound
    rw [hfound]
    have hxa : (a, ⟨l, true⟩) = x := by
      have hfirst := firstFit_append (x := (a, ⟨l, true⟩)) ys ⟨rfl, hrl⟩ hxs
      rw [e, firstFit_append us hx hzs] at hfirst
      exact (Option.some.inj hfirst).symm
    exact ⟨ds, hds, by rw [← hxa]⟩
  · exact absurd ⟨rfl, hrl⟩ (hnone (a, ⟨l, true⟩) (by simp))

theorem mallocSearch_here (fuel : ℕ) (hrep : Represents h (xs ++ (a, ⟨l, true⟩) :: ys))
    (hrl : r ≤ l) (hxs : ∀ x ∈ xs, ¬ Fits r x)
    (hfuel : (xs ++ (a, ⟨l, true⟩) :: ys).length ≤ fuel) :
    ∃ h', mallocSearch mapPage (fuel + 1) r h = some ⟨0, a, h'⟩ ∧
      Searched h (xs ++ (a, ⟨l, true⟩) :: ys) r ⟨0, a, h'⟩ xs l ys := by
  obtain ⟨ds, hds, e⟩ := mallocSearch_stop mapPage fuel hrep.chained hrep.addr_ne hrl hxs hfuel
  refine ⟨looked ds h, e, hrep.looked ds, hrl, hxs, rfl, ?_, fun y hy _ => hy,
    .inl ⟨(a, ⟨l, true⟩), by simp, rfl⟩, id, ds, rfl, fun z hz => .inl (hds z hz)⟩
  change h.heapEnd = h.heapEnd + 0 * _
  omega

theorem mergeInto_kept {x y : ℕ × SegData} (hy : y ∈ segs) (hfree : y.2.free = false) :
    y ∈ mergeInto segs x := by
  obtain rfl | ⟨xs, c, rfl⟩ := List.eq_nil_or_concat segs
  · cases hy
  · rw [List.concat_eq_append] at hy ⊢
    rw [mergeInto_append]
    obtain hy | hy := List.mem_append.1 hy
    · simp [hy]
    · rw [List.mem_singleton.1 hy] at hfree ⊢
      simp [hfree]

theorem mergeInto_place {x y : ℕ × SegData} (hy : y ∈ mergeInto segs x) :
    (∃ z ∈ segs, z.1 = y.1) ∨ y.1 = x.1 := by
  obtain rfl | ⟨xs, c, rfl⟩ := List.eq_nil_or_concat segs
  · exact .inr (by rw [List.mem_singleton.1 hy])
  · rw [List.concat_eq_append] at hy ⊢
    rw [mergeInto_append] at hy
    obtain hy | hy := List.mem_append.1 hy
    · exact .inl ⟨y, by simp [hy], rfl⟩
    · split at hy
      · exact .inl ⟨c, by simp, by rw [List.mem_singleton.1 hy]⟩
      · obtain rfl | hy := List.mem_cons.1 hy
        · exact .inl ⟨y, by simp, rfl⟩
        · exact .inr (by rw [List.mem_singleton.1 hy])

theorem mergeInto_tiled {lo hi : ℕ} {x : ℕ × SegData} (hl : Tiled lo (segs ++ [x]) hi) :
    Tiled lo (mergeInto segs x) hi := by
  obtain rfl | ⟨xs, c, rfl⟩ := List.eq_nil_or_concat segs
  · exact hl
  · rw [List.concat_eq_append] at hl ⊢
    rw [mergeInto_append]
    split
    · rw [List.append_assoc] at hl
      obtain ⟨hxs, hx, hend⟩ := tiled_append_cons.1 hl
      refine tiled_append_cons.2 ⟨hxs, ?_⟩
      change x.1 + 32 + x.2.lenght = hi at hend
      change c.1 + 32 + (c.2.lenght + 32 + x.2.lenght) = hi
      omega
    · rwa [List.append_assoc] at hl

theorem tiled_snoc {lo hi : ℕ} {x : ℕ × SegData} (hl : Tiled lo segs x.1)
    (hx : x.1 + 32 + x.2.lenght = hi) : Tiled lo (segs ++ [x]) hi :=
  tiled_append_cons.2 ⟨hl, hx⟩

theorem Searched.grow {ds : List ℕ} {s : Found β} (hrep : Represents h segs)
    (hds : ∀ z ∈ ds, ∃ y ∈ segs, y.1 = z) (hR : roundUp frameSize r = R) (hr : 0 < r) (hrR : r ≤ R)
    (htop : h.heapEnd + R < 2 ^ 64)
    (H : Searched (memExpandHeap mapPage r (looked ds h))
      (mergeInto segs (h.heapEnd, ⟨R - 32, true⟩)) r s xs l ys) :
    Searched h segs r { s with expansions := s.expansions + 1 } xs l ys := by
  obtain ⟨hmod, hpos⟩ := roundUp_page hr (hR ▸ hrR)
  rw [hR] at hmod hpos
  have hE : (looked ds h).heapEnd = h.heapEnd := rfl
  obtain ⟨_, hstart, hend, _⟩ :=
    memExpandHeap_spec mapPage (hrep.looked ds) hR hr hrR (by rw [hE]; exact htop)
  have hlast : Known h segs r (s.expansions + 1) h.lastHdr := by
    obtain ⟨y, hy, e⟩ := final_mem 0 segs hrep.nonempty
    exact .inl ⟨y, hy, by rw [hrep.last, e]⟩
  have hnew : Known h segs r (s.expansions + 1) h.heapEnd :=
    .inr ⟨0, Nat.succ_pos _, by omega⟩
  have hknown : ∀ a, Known (memExpandHeap mapPage r (looked ds h))
      (mergeInto segs (h.heapEnd, ⟨R - 32, true⟩)) r s.expansions a →
      Known h segs r (s.expansions + 1) a := by
    rintro a (⟨y, hy, rfl⟩ | ⟨k, hk, rfl⟩)
    · obtain hold | e := mergeInto_place hy
      · exact .inl hold
      · rw [e]
        exact hnew
    · refine .inr ⟨k + 1, Nat.succ_lt_succ hk, ?_⟩
      rw [hend, hE, hR, Nat.succ_mul]
      omega
  have hlooked : Derefs (Known h segs r (s.expansions + 1)) h (looked ds h) :=
    ⟨ds, rfl, fun z hz => .inl (hds z hz)⟩
  have hexpand := derefs_memExpandHeap mapPage (hrep.looked ds) hR hr hrR htop hlast hnew
  refine ⟨H.represents, H.fits, H.first, H.start.trans hstart, ?_,
    fun y hy hfree => H.kept y (mergeInto_kept hy hfree) hfree, hknown _ H.place, fun ht => ?_,
    hlooked.trans (hexpand.trans (H.derefs.mono hknown))⟩
  · change s.heap.heapEnd = h.heapEnd + (s.expansions + 1) * _
    rw [H.grown, hend, hE, hR, Nat.succ_mul]
    omega
  · refine H.tiled (mergeInto_tiled ?_)
    rw [hstart, hend]
    refine tiled_snoc ht ?_
    change h.heapEnd + 32 + (R - 32) = h.heapEnd + R
    omega

theorem mallocSearch_grow (fuel : ℕ) (C : Chained h segs) (h0 : ∀ x ∈ segs, x.1 ≠ 0)
    (hnone : ∀ x ∈ segs, ¬ Fits r x) (hfuel : segs.length ≤ fuel) :
    ∃ ds, (∀ z ∈ ds, ∃ y ∈ segs, y.1 = z) ∧ mallocSearch mapPage (fuel + 1) r h =
      (mallocSearch mapPage fuel r (memExpandHeap mapPage r (looked ds h))).map fun s =>
        { s with expansions := s.expansions + 1 } := by
  rw [mallocSearch]
  obtain ⟨ds, hds, ⟨zs, x, us, rfl, hx, _⟩ | ⟨_, hfound⟩⟩ :=
    findSegment_spec (r := r) C.links C.nonempty h0 hfuel
  · exact absurd hx (hnone x (by simp))
  · rw [C.start] at hfound
    rw [hfound]
    exact ⟨ds, hds, rfl⟩

theorem mallocSearch_first (fuel : ℕ) (hrep : Represents h segs) {x : ℕ × SegData}
    (hfirst : firstFit segs r = some x) (hfuel : segs.length ≤ fuel) :
    ∃ s xs l ys, mallocSearch mapPage (fuel + 1) r h = some s ∧ Searched h segs r s xs l ys ∧
      s.expansions = 0 ∧ segs = xs ++ (s.seg, ⟨l, true⟩) :: ys ∧ x.2.lenght = l := by
  obtain ⟨hx, xs, ys, rfl, hxs⟩ := List.find?_eq_some_iff_append.1 hfirst
  obtain ⟨a, l, f⟩ := x
  obtain ⟨rfl, hrl⟩ : f = true ∧ r ≤ l := of_decide_eq_true hx
  obtain ⟨h', e, H⟩ := mallocSearch_here mapPage fuel hrep hrl
    (fun x hx => by simpa using hxs x hx) hfuel
  exact ⟨_, xs, l, ys, e, H, rfl, rfl, rfl⟩

theorem mergeInto_length (segs : List (ℕ × SegData)) (x : ℕ × SegData) :
    (mergeInto segs x).length ≤ segs.length + 1 := by
  obtain rfl | ⟨xs, c, rfl⟩ := List.eq_nil_or_concat segs
  · exact le_rfl
  · rw [List.concat_eq_append, mergeInto_append]
    split <;> simp

theorem mallocSearch_once (fuel : ℕ) (hrep : Represents h segs) (hnone : ∀ x ∈ segs, ¬ Fits r x)
    (hR : roundUp frameSize r = R) (hr : 0 < r) (hrR : r ≤ R) (htop : h.heapEnd + R < 2 ^ 64)
    (hmerge : mergeInto segs (h.heapEnd, ⟨R - 32, true⟩) = xs ++ [(a, ⟨l, true⟩)]) (hrl : r ≤ l)
    (hxs : ∀ x ∈ xs, ¬ Fits r x) (hfuel : segs.length + 1 ≤ fuel) :
    ∃ s, mallocSearch mapPage (fuel + 2) r h = some s ∧ Searched h segs r s xs l [] ∧
      s.expansions = 1 := by
  obtain ⟨ds, hds, e⟩ :=
    mallocSearch_grow mapPage (fuel + 1) hrep.chained hrep.addr_ne hnone (by omega)
  obtain ⟨R1, _⟩ := memExpandHeap_spec mapPage (hrep.looked ds) hR hr hrR htop
  change Represents _ (mergeInto segs (h.heapEnd, ⟨R - 32, true⟩)) at R1
  have hlen := mergeInto_length segs (h.heapEnd, ⟨R - 32, true⟩)
  rw [hmerge] at R1 hlen
  obtain ⟨h', e', H⟩ := mallocSearch_here mapPage fuel R1 hrl hxs (by omega)
  rw [e, e']
  rw [← hmerge] at H
  exact ⟨_, rfl, H.grow mapPage hrep hds hR hr hrR htop, rfl⟩

/-- The expansions that a search makes when no segment fits: a second one when the first makes
    a segment that is too short by its header. -/
def expansions (segs : List (ℕ × SegData)) (r : ℕ) : ℕ :=
  match segs.getLast? with
  | some (_, ⟨_, true⟩) => 1
  | _ => if r + 32 ≤ roundUp frameSize r then 1 else 2

theorem mallocSearch_none (fuel : ℕ) (hrep : Represents h segs) (hr : 0 < r)
    (hfirst : firstFit segs r = none) (hrR : r ≤ roundUp frameSize r)
    (htop : h.heapEnd + (growth segs r).1 < 2 ^ 64) (hfuel : segs.length + 4 ≤ fuel) :
    ∃ s xs, mallocSearch mapPage (fuel + 1) r h = some s ∧
      Searched h segs r s xs (growth segs r).2 [] ∧ s.expansions = expansions segs r := by
  have hnone : ∀ x ∈ segs, ¬ Fits r x := fun x hx => by
    simpa using List.find?_eq_none.1 hfirst x hx
  obtain ⟨hmod, hpos⟩ := roundUp_page hr hrR
  obtain ⟨fuel, rfl⟩ : ∃ n, fuel = n + 2 := ⟨fuel - 2, by omega⟩
  unfold growth at htop
  unfold growth expansions
  generalize hR : roundUp frameSize r = R at *
  obtain ⟨xs, ⟨c, l, f⟩, rfl⟩ : ∃ xs x, segs = xs ++ [x] := by
    obtain hnil | ⟨xs, x, e⟩ := List.eq_nil_or_concat segs
    · exact absurd hnil hrep.nonempty
    · exact ⟨xs, x, by rw [e, List.concat_eq_append]⟩
  have hxs : ∀ x ∈ xs, ¬ Fits r x := fun x hx => hnone x (by simp [hx])
  simp only [List.getLast?_append, List.getLast?_singleton, Option.some_or] at htop ⊢
  cases f with
  | true =>
    -- the last segment is free and takes in the new pages
    dsimp only at htop ⊢
    have hmerge : mergeInto (xs ++ [(c, ⟨l, true⟩)]) (h.heapEnd, ⟨R - 32, true⟩) =
        xs ++ [(c, ⟨l + R, true⟩)] := by
      rw [mergeInto_append, if_pos rfl]
      simp only [show l + 32 + (R - 32) = l + R by omega]
    obtain ⟨s, e, H, hn⟩ := mallocSearch_once mapPage (fuel + 1) hrep hnone hR hr hrR htop hmerge
      (by omega) hxs (by omega)
    exact ⟨s, xs, e, H, hn⟩
  | false =>
    have htopR : h.heapEnd + R < 2 ^ 64 := by
      split_ifs at htop
      · exact htop
      · change h.heapEnd + 2 * R < 2 ^ 64 at htop
        omega
    have hmerge : mergeInto (xs ++ [(c, ⟨l, false⟩)]) (h.heapEnd, ⟨R - 32, true⟩) =
        (xs ++ [(c, ⟨l, false⟩)]) ++ [(h.heapEnd, ⟨R - 32, true⟩)] := by
      rw [mergeInto_append, if_neg (by simp), List.append_assoc]
      rfl
    by_cases hfit : r + 32 ≤ R
    · simp only [if_pos hfit]
      obtain ⟨s, e, H, hn⟩ := mallocSearch_once mapPage (fuel + 1) hrep hnone hR hr hrR htopR
        hmerge (by omega) hnone (by omega)
      exact ⟨s, _, e, H, hn⟩
    · -- the new segment is too short by its header, and a second one is merged into it
      simp only [if_neg hfit] at htop ⊢
      obtain ⟨ds, hds, e⟩ :=
        mallocSearch_grow mapPage (fuel + 2) hrep.chained hrep.addr_ne hnone (by omega)
      obtain ⟨R1, _, hend, _⟩ := memExpandHeap_spec mapPage (hrep.looked ds) hR hr hrR htopR
      change Represents _ (mergeInto (xs ++ [(c, ⟨l, false⟩)]) (h.heapEnd, ⟨R - 32, true⟩)) at R1
      change _ = h.heapEnd + R at hend
      have hnone1 : ∀ x ∈ mergeInto (xs ++ [(c, ⟨l, false⟩)]) (h.heapEnd, ⟨R - 32, true⟩),
          ¬ Fits r x := by
        rw [hmerge]
        intro x hx
        obtain hx | hx := List.mem_append.1 hx
        · exact hnone x hx
        · rw [List.mem_singleton.1 hx]
          rintro ⟨_, hle⟩
          change r ≤ R - 32 at hle
          omega
      have hmerge1 : ∀ E, mergeInto (mergeInto (xs ++ [(c, ⟨l, false⟩)])
          (h.heapEnd, ⟨R - 32, true⟩)) (E, ⟨R - 32, true⟩) =
            (xs ++ [(c, ⟨l, false⟩)]) ++ [(h.heapEnd, ⟨2 * R - 32, true⟩)] := by
        intro E
        rw [hmerge, mergeInto_append, if_pos rfl]
        simp only [show R - 32 + 32 + (R - 32) = 2 * R - 32 by omega]
      have hlen := mergeInto_length (xs ++ [(c, ⟨l, false⟩)]) (h.heapEnd, ⟨R - 32, true⟩)
      obtain ⟨s, e', H, hn⟩ := mallocSearch_once mapPage fuel R1 hnone1 hR hr hrR
        (by rw [hend]; change h.heapEnd + 2 * R < 2 ^ 64 at htop; omega) (hmerge1 _) (by omega)
        hnone (by omega)
      rw [e, e']
      exact ⟨_, _, rfl, H.grow mapPage hrep hds hR hr hrR htopR, congrArg (· + 1) hn⟩

/-- The segment that `memMalloc` takes is split well, and the heap stays below `2 ^ 64`. -/
def MallocSafe (segs : List (ℕ × SegData)) (heapEnd size : ℕ) : Prop :=
  let r := roundUp 0x10 size
  r = 0 ∨ match firstFit segs r with
    | some x => SplitsWell x.2.lenght r
    | none => r ≤ roundUp frameSize r ∧ heapEnd + (growth segs r).1 < 2 ^ 64 ∧
        SplitsWell (growth segs r).2 r

/-- The expansions of a call stay below `2 ^ 64`, and so does the rounding to pages. -/
def Room (segs : List (ℕ × SegData)) (heapEnd r : ℕ) : Prop :=
  firstFit segs r = none → r ≤ roundUp frameSize r ∧ heapEnd + (growth segs r).1 < 2 ^ 64

def takenLenght (segs : List (ℕ × SegData)) (r : ℕ) : ℕ :=
  match firstFit segs r with
  | some x => x.2.lenght
  | none => (growth segs r).2

/-- With room every search ends. -/
theorem mallocSearch_spec (fuel : ℕ) (hrep : Represents h segs) (hr : 0 < r)
    (hroom : Room segs h.heapEnd r) (hfuel : segs.length + 5 ≤ fuel) :
    ∃ s xs ys, mallocSearch mapPage fuel r h = some s ∧
      Searched h segs r s xs (takenLenght segs r) ys ∧ ∀ x, firstFit segs r = some x →
        segs = xs ++ (s.seg, ⟨takenLenght segs r, true⟩) :: ys ∧ x.1 = s.seg := by
  obtain ⟨fuel, rfl⟩ : ∃ n, fuel = n + 1 := ⟨fuel - 1, by omega⟩
  unfold takenLenght
  cases hfirst : firstFit segs r with
  | some x =>
    obtain ⟨s, xs, l, ys, e, H, _, hsegs, rfl⟩ :=
      mallocSearch_first mapPage fuel hrep hfirst (by omega)
    refine ⟨s, xs, ys, e, H, fun y hy => ⟨hsegs, ?_⟩⟩
    have hfound := firstFit_append (x := (s.seg, ⟨x.2.lenght, true⟩)) ys ⟨rfl, H.fits⟩ H.first
    rw [← hsegs, hfirst, hy] at hfound
    rw [Option.some.inj hfound]
  | none =>
    obtain ⟨hrR, htop⟩ := hroom hfirst
    obtain ⟨s, xs, e, H, _⟩ :=
      mallocSearch_none mapPage fuel hrep hr hfirst hrR htop (by omega)
    exact ⟨s, xs, [], e, H, fun x hx => by cases hx⟩

theorem MallocSafe.room {heapEnd size : ℕ} (hsafe : MallocSafe segs heapEnd size)
    (hround : roundUp 0x10 size ≠ 0) : Room segs heapEnd (roundUp 0x10 size) ∧
      SplitsWell (takenLenght segs (roundUp 0x10 size)) (roundUp 0x10 size) := by
  have hsafe := hsafe.resolve_left hround
  unfold takenLenght Room
  cases hfirst : firstFit segs (roundUp 0x10 size) with
  | some x =>
    rw [hfirst] at hsafe
    exact ⟨(fun hnone => by cases hnone), hsafe⟩
  | none =>
    rw [hfirst] at hsafe
    exact ⟨fun _ => ⟨hsafe.1, hsafe.2.1⟩, hsafe.2.2⟩

end Search

/-- A call that returns a block of at least `r` bytes behind the header at `p - 32`: blocks in
    use stay as they are, and none of them was there. -/
structure Allocated (h h' : Heap β) (segs : List (ℕ × SegData)) (p r : ℕ)
    (segs' : List (ℕ × SegData)) : Prop where
  represents : Represents h' segs'
  start : h'.heapStart = h.heapStart
  grown : h.heapEnd ≤ h'.heapEnd
  block : ∃ x ∈ segs', x.1 + 32 = p ∧ x.2.free = false ∧ r ≤ x.2.lenght
  fresh : ∀ y ∈ segs, y.2.free = false → y.1 + 32 ≠ p
  kept : ∀ y ∈ segs, y.2.free = false → y ∈ segs'

theorem takeSegment_allocated (hrep : Represents h (xs ++ (a, ⟨l, true⟩) :: ys))
    (h24 : 24 ≤ h.heapStart) (hr : 16 ≤ r) (hrl : r ≤ l) (hwell : SplitsWell l r) :
    Allocated h (takeSegment a r h).2 (xs ++ (a, ⟨l, true⟩) :: ys) (takeSegment a r h).1 r
      (takenSegs xs a l r ys) := by
  obtain ⟨hp, hrep', hb⟩ := takeSegment_spec hrep h24 hr hrl hwell
  rw [hp]
  refine ⟨hrep', hb.heapStart, hb.heapEnd.ge, ?_, ?_, fun y hy hfree => takenSegs_kept hy hfree⟩
  · rw [takenSegs]
    split
    · exact ⟨(a, ⟨r, false⟩), by simp, rfl, rfl, le_rfl⟩
    · exact ⟨(a, ⟨l, false⟩), by simp, rfl, rfl, hrl⟩
  · intro y hy hfree e
    obtain hya | hya := hrep.laid.apart hy (show (a, ⟨l, true⟩) ∈ _ by simp)
    · rw [hya] at hfree
      cases hfree
    · change y.1 + 32 + y.2.lenght ≤ a ∨ a + 32 + l ≤ y.1 at hya
      omega

theorem Allocated.before {h1 h' : Heap β} {segs1 segs' : List (ℕ × SegData)} {p : ℕ}
    (H : Allocated h1 h' segs1 p r segs') (hstart : h1.heapStart = h.heapStart)
    (hgrown : h.heapEnd ≤ h1.heapEnd)
    (hkept : ∀ y ∈ segs, y.2.free = false → y ∈ segs1) : Allocated h h' segs p r segs' :=
  ⟨H.represents, H.start.trans hstart, hgrown.trans H.grown, H.block,
    fun y hy hfree => H.fresh y (hkept y hy hfree) hfree,
    fun y hy hfree => H.kept y (hkept y hy hfree) hfree⟩

section Malloc
variable (mapPage : ℕ → β → β) {size : ℕ} (fuel : ℕ)

theorem Searched.allocated {s : Found β} (H : Searched h segs r s xs l ys)
    (h24 : 24 ≤ h.heapStart) (hr : 16 ≤ r) (hwell : SplitsWell l r) :
    Allocated h (takeSegment s.seg r s.heap).2 segs (takeSegment s.seg r s.heap).1 r
      (takenSegs xs s.seg l r ys) :=
  (takeSegment_allocated H.represents (H.start.symm ▸ h24) hr H.fits hwell).before H.start
    (H.grown ▸ Nat.le_add_right _ _) H.kept

/-- A safe call returns a block, after at most two expansions. -/
theorem memMalloc_spec (hrep : Represents h segs) (h24 : 24 ≤ h.heapStart) (hsize : size < 2 ^ 64)
    (hr : roundUp 0x10 size ≠ 0) (hsafe : MallocSafe segs h.heapEnd size)
    (hfuel : segs.length + 5 ≤ fuel) :
    ∃ p h' segs', memMalloc mapPage fuel size h = some (p, h') ∧
      Allocated h h' segs p (roundUp 0x10 size) segs' := by
  obtain ⟨hr16, _, hround, _⟩ := roundUp_block size hsize hr
  obtain ⟨hroom, hwell⟩ := hsafe.room hr
  generalize hrdef : roundUp 0x10 size = r at *
  obtain ⟨s, xs, ys, e, H, _⟩ := mallocSearch_spec mapPage fuel hrep (by omega) hroom hfuel
  rw [memMalloc_eq mapPage _ h hrdef hround hr, e]
  exact ⟨_, _, _, rfl, H.allocated h24 hr16 hwell⟩

end Malloc

end Rizzos.HeapMalloc
