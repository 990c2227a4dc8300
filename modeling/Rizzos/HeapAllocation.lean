import Rizzos.HeapOperations

set_option autoImplicit false

/-! Splitting, searching and expanding: what `memMalloc` does to the list of segments. -/
namespace Rizzos.HeapAllocation
open ByteMemory Memory LinkedList KernelHeap HeapSegments HeapOperations

variable {β : Type} {h : Heap β} {xs ys : List (ℕ × SegData)} {a b l r n c : ℕ} {d e : SegData}

section Cells
variable {S : ℕ → Prop}

theorem header_linkSplitHdr (hS : Cells S) (h24 : ∀ c, S c → 24 ≤ c) (ha : S a) (hb : S b)
    (hn : n = 0 ∨ S n) (hnext : (header h.mem a).next = n) (hab : a ≠ b) (han : a ≠ n)
    (hbn : b ≠ n) (hc : S c) : header (linkSplitHdr a b h).mem c =
      if c = a then { header h.mem a with next := b }
      else if c = b then { header h.mem b with next := n, last := a }
      else if c = n then { header h.mem c with last := b } else header h.mem c := by
  have ha64 := hS.bound a ha
  have hb64 := hS.bound b hb
  have hn64 : n < 2 ^ 64 := by
    rw [← hnext]
    exact load64_lt _ _
  have h1 : ∀ c, S c → header (setLast n b h).mem c =
      if c = n then { header h.mem c with last := b } else header h.mem c :=
    fun c hc => header_setLast_next hS h24 hn (by omega) hc
  have hnext1 : hdrNext (setLast n b h) a = n := by
    rw [hdrNext_eq, h1 a ha, if_neg han, hnext]
  rw [linkSplitHdr, hdrNext_eq h a, hnext]
  simp only [hnext1]
  rw [header_setLast hS hb hc (by omega), header_setNext hS ha hb (by omega),
    header_setNext hS ha hc (by omega), header_setNext hS hb hb (by omega),
    header_setNext hS hb hc (by omega), header_setNext hS hb ha (by omega), h1 a ha, h1 b hb, h1 c hc,
    if_neg han, if_neg hbn, if_neg hab, if_neg (Ne.symm hab), if_pos rfl]
  by_cases hcb : c = b
  · subst hcb
    rw [if_pos rfl, if_neg (Ne.symm hab), if_pos rfl]
  · by_cases hca : c = a
    · rw [if_neg hcb, if_pos hca, if_pos hca]
    · rw [if_neg hcb, if_neg hca, if_neg hca, if_neg hcb, if_neg hcb]

theorem header_fillSplitHdr (hS : Cells S) (ha : S a) (hb : S b) (hab : a ≠ b) (hr : r < 2 ^ 64)
    (hc : S c) : header (fillSplitHdr a b r h).mem c =
      if c = a then { header h.mem a with data := ⟨r, (header h.mem a).data.free⟩ }
      else if c = b then { header h.mem b with data := ⟨r, (header h.mem a).data.free⟩ }
      else header h.mem c := by
  have hfree : hdrFree (setLenght b r h) a = (header h.mem a).data.free := by
    rw [hdrFree_eq, header_setLenght hS hb ha hr, if_neg hab]
  rw [fillSplitHdr]
  simp only [hfree]
  rw [header_setLenght hS ha hc hr, header_setFree hS hb ha, header_setFree hS hb hc,
    header_setLenght hS hb ha hr, header_setLenght hS hb hb hr, header_setLenght hS hb hc hr,
    if_neg hab, if_neg hab, if_pos rfl]
  by_cases hca : c = a
  · rw [if_pos hca, if_pos hca]
  · by_cases hcb : c = b
    · rw [if_neg hca, if_pos hcb, if_neg hca, if_pos hcb]
    · rw [if_neg hca, if_neg hcb, if_neg hcb, if_neg hca, if_neg hcb]

end Cells

/-- The rest of a segment of length `l` after `r` bytes and a header are cut off is worth
    splitting off, as `memHeapSegHdrSplit` sees it. -/
def Splits (l r : ℕ) : Prop := r + 48 ≤ l ∧ l - r - 32 < 2 ^ 63

instance (l r : ℕ) : Decidable (Splits l r) := inferInstanceAs (Decidable (_ ∧ _))

theorem splitCells (R : Represents h (xs ++ (a, ⟨l, true⟩) :: ys))
    (hb : a + 32 ≤ b) (hbl : b + 32 ≤ a + 32 + l) :
    Cells fun c => (∃ x ∈ xs ++ (a, ⟨l, true⟩) :: ys, x.1 = c) ∨ c = b := by
  have hS := R.cells
  obtain ⟨_, hbefore, hafter⟩ := R.placed
  change Laid (a + 32 + l) ys h.heapEnd at hafter
  have htop := R.top
  have hend := hafter.le
  have hold : ∀ c, (∃ x ∈ xs ++ (a, ⟨l, true⟩) :: ys, x.1 = c) → c + 32 ≤ b ∨ b + 32 ≤ c := by
    rintro c ⟨x, hx, rfl⟩
    obtain hx | hx := List.mem_append.1 hx
    · have := (hbefore.mem hx).2
      omega
    · obtain rfl | hx := List.mem_cons.1 hx
      · exact .inl hb
      · have := (hafter.mem hx).1
        omega
  refine ⟨?_, ?_⟩
  · rintro c (hc | rfl)
    · exact hS.bound c hc
    · omega
  · rintro c c' (hc | rfl) (hc' | rfl)
    · exact hS.apart c c' hc hc'
    · exact .inr (hold c hc)
    · exact .inr (hold c' hc').symm
    · exact .inl rfl

theorem splitSeqLenght_eq (hr : r < l) (hl : l < 2 ^ 64) :
    (2 ^ 63 ≤ wrapSub (wrapSub l r) hdrSize ∨ wrapSub (wrapSub l r) hdrSize < 0x10) ↔
      ¬ Splits l r := by
  have hsub : wrapSub l r = l - r := wrapSub_of_le (by omega) hl
  rw [hsub, Splits, hdrSize]
  by_cases h32 : 32 ≤ l - r
  · rw [wrapSub_of_le h32 (by omega)]
    omega
  · rw [wrapSub_of_lt (by omega) (by omega)]
    omega

theorem split_none (hr : 16 ≤ r) (hrl : r < l) (hl : l < 2 ^ 64) (hlen : hdrLenght h a = l)
    (hsplit : ¬ Splits l r) : (memHeapSegHdrSplit a r h).2 = visit a h := by
  have hlen' : hdrLenght (visit a h) a = l := hlen
  rw [memHeapSegHdrSplit, if_neg (by omega)]
  simp only [hlen']
  rw [if_pos ((splitSeqLenght_eq hrl hl).2 hsplit)]

theorem split_eq (hr : 16 ≤ r) (hl : l < 2 ^ 64) (hlen : hdrLenght h a = l)
    (hsplit : Splits l r) (hb : wrap (a + r + hdrSize) = b) :
    (memHeapSegHdrSplit a r h).2 =
      setLastHdr (if h.lastHdr = a then b else h.lastHdr)
        (fillSplitHdr a b r (linkSplitHdr a b (visit a h))) := by
  have hrl : r < l := by
    have := hsplit.1
    omega
  have hlen' : hdrLenght (visit a h) a = l := hlen
  have hlast : (fillSplitHdr a b r (linkSplitHdr a b (visit a h))).lastHdr = h.lastHdr := rfl
  rw [memHeapSegHdrSplit, if_neg (by omega)]
  simp only [hlen', hb]
  rw [if_neg fun hc => (splitSeqLenght_eq hrl hl).1 hc hsplit]
  simp only [hlast]

theorem sameBounds_split (a r : ℕ) (h : Heap β) (hr : r < hdrLenght h a) :
    SameBounds h (memHeapSegHdrSplit a r h).2 := by
  have hl : hdrLenght h a < 2 ^ 64 := load64_lt _ _
  by_cases h16 : 16 ≤ r
  · by_cases hsplit : Splits (hdrLenght h a) r
    · rw [split_eq h16 hl rfl hsplit rfl]
      exact (sameBounds_visit a h).trans ((sameBounds_linkSplitHdr a _ _).trans
        ((sameBounds_fillSplitHdr a _ r _).trans (sameBounds_setLastHdr _ _)))
    · rw [split_none h16 hr hl rfl hsplit]
      exact sameBounds_visit a h
  · rw [memHeapSegHdrSplit, if_pos (by omega)]
    exact .refl h

theorem sameBounds_takeSegment (a r : ℕ) (h : Heap β) : SameBounds h (takeSegment a r h).2 := by
  have htake : (takeSegment a r h).2 =
      setFree a false (if hdrLenght h a > r then (memHeapSegHdrSplit a r h).2 else h) := rfl
  rw [htake]
  refine SameBounds.trans ?_ (sameBounds_setFree a false _)
  by_cases hlong : hdrLenght h a > r
  · rw [if_pos hlong]
    exact sameBounds_split a r h hlong
  · rw [if_neg hlong]
    exact .refl h

theorem header_split {S : ℕ → Prop} {p : ℕ} (hS : Cells S) (h24 : ∀ c, S c → 24 ≤ c) (ha : S a)
    (hb : S b) (hn : n = 0 ∨ S n) (hnode : header h.mem a = ⟨⟨l, true⟩, n, p⟩) (hab : a ≠ b)
    (han : a ≠ n) (hbn : b ≠ n) (hr : 16 ≤ r) (hsplit : Splits l r)
    (hwrap : wrap (a + r + hdrSize) = b) (hc : S c) :
    header (memHeapSegHdrSplit a r h).2.mem c =
      if c = a then ⟨⟨r, true⟩, b, p⟩
      else if c = b then ⟨⟨r, true⟩, n, a⟩
      else if c = n then { header h.mem c with last := b } else header h.mem c := by
  have hlen : hdrLenght h a = l := by rw [hdrLenght_eq, hnode]
  have hl : l < 2 ^ 64 := by
    rw [← hlen]
    exact load64_lt _ _
  have hlong := hsplit.1
  have hlink : ∀ c, S c → header (linkSplitHdr a b (visit a h)).mem c =
      if c = a then { header h.mem a with next := b }
      else if c = b then { header h.mem b with next := n, last := a }
      else if c = n then { header h.mem c with last := b } else header h.mem c :=
    fun c hc => header_linkSplitHdr (h := visit a h) hS h24 ha hb hn
      (by change (header h.mem a).next = _; rw [hnode]) hab han hbn hc
  rw [split_eq hr hl hlen hsplit hwrap]
  change header (fillSplitHdr a b r (linkSplitHdr a b (visit a h))).mem c = _
  rw [header_fillSplitHdr hS ha hb hab (by omega) hc, hlink a ha, hlink b hb, hlink c hc,
    if_pos rfl, if_neg (Ne.symm hab), if_pos rfl, hnode]
  by_cases hca : c = a
  · rw [if_pos hca, if_pos hca]
  · by_cases hcb : c = b
    · rw [if_neg hca, if_pos hcb, if_neg hca, if_pos hcb]
    · simp only [if_neg hca, if_neg hcb]

/-- Splitting a free segment links the new header in behind it, also when the new header does
    not have the length of the rest. -/
theorem split_chained (R : Represents h (xs ++ (a, ⟨l, true⟩) :: ys)) (h24 : 24 ≤ h.heapStart)
    (hr : 16 ≤ r) (hsplit : Splits l r) :
    Chained (memHeapSegHdrSplit a r h).2
      (xs ++ (a, ⟨r, true⟩) :: (a + 32 + r, ⟨r, true⟩) :: ys) := by
  have hlong := hsplit.1
  obtain ⟨hnode, hbefore, hafter⟩ := R.placed
  change Laid (a + 32 + l) ys h.heapEnd at hafter
  have hlen : hdrLenght h a = l := by rw [hdrLenght_eq, hnode]
  have htop := R.top
  have hend := hafter.le
  have ha0 := R.cells_pos a ⟨(a, ⟨l, true⟩), by simp, rfl⟩
  set b := a + 32 + r with hbdef
  have hS := splitCells R (b := b) (by omega) (by omega)
  set S : ℕ → Prop := fun c => (∃ x ∈ xs ++ (a, ⟨l, true⟩) :: ys, x.1 = c) ∨ c = b
  have ha : S a := .inl ⟨(a, ⟨l, true⟩), by simp, rfl⟩
  have hb : S b := .inr rfl
  have hge : ∀ c, S c → 24 ≤ c := by
    have ha24 := h24.trans (R.cells_ge a ⟨(a, ⟨l, true⟩), by simp, rfl⟩)
    rintro c (hc | rfl)
    · exact h24.trans (R.cells_ge c hc)
    · omega
  have hn : first ys 0 = 0 ∨ S (first ys 0) :=
    (first_cell ys).imp_right fun ⟨y, hy, e⟩ => .inl ⟨y, by simp [hy], e⟩
  have han : a ≠ first ys 0 := ne_first hafter (by omega) (by omega)
  have hbn : b ≠ first ys 0 := ne_first hafter (by omega) (by omega)
  have hab : a ≠ b := by omega
  have hwrap : wrap (a + r + hdrSize) = b := by
    rw [hdrSize, wrap_of_lt (by omega)]
    omega
  have hsplits : ∀ c, S c → header (memHeapSegHdrSplit a r h).2.mem c =
      if c = a then ⟨⟨r, true⟩, b, final 0 xs⟩
      else if c = b then ⟨⟨r, true⟩, first ys 0, a⟩
      else if c = first ys 0 then { header h.mem c with last := b } else header h.mem c :=
    fun c hc => header_split hS hge ha hb hn hnode hab han hbn hr hsplit hwrap hc
  have hlastHdr : (memHeapSegHdrSplit a r h).2.lastHdr =
      if h.lastHdr = a then b else h.lastHdr := by
    rw [split_eq hr (by omega) hlen hsplit hwrap]
    rfl
  have hbounds := sameBounds_split a r h (by omega)
  generalize (memHeapSegHdrSplit a r h).2 = h' at *
  refine ⟨?_, by simp, ?_, ?_⟩
  · refine R.links.insertAfter ?_ ?_ ?_ (relinked_of_laid hafter ?_)
    · exact (hsplits a ha).trans (if_pos rfl)
    · exact (hsplits b hb).trans (by rw [if_neg (Ne.symm hab), if_pos rfl])
    · intro x hx
      have hxa := (hbefore.mem hx).2
      have hx0 := R.cells_pos x.1 ⟨x, by simp [hx], rfl⟩
      refine (hsplits x.1 (.inl ⟨x, by simp [hx], rfl⟩)).trans ?_
      rw [if_neg (by omega), if_neg (by omega), if_neg (ne_first hafter (by omega) (by omega))]
    · intro y hy
      have hya := (hafter.mem hy).1
      refine (hsplits y.1 (.inl ⟨y, by simp [hy], rfl⟩)).trans ?_
      rw [if_neg (by omega), if_neg (by omega)]
  · have hstart := R.start
    rw [first_append_cons] at hstart ⊢
    exact hstart.trans hbounds.heapStart.symm
  · have hlast := R.last
    rw [final_append_cons] at hlast
    rw [hlastHdr, hlast, final_append_cons]
    cases ys with
    | nil => exact if_pos rfl
    | cons y ys =>
      obtain ⟨z, hz, e⟩ := final_mem a (y :: ys) (by simp)
      have hza := (hafter.mem hz).1
      refine if_neg ?_
      change final a (y :: ys) ≠ a
      omega

def takenSegs (xs : List (ℕ × SegData)) (a l r : ℕ) (ys : List (ℕ × SegData)) :
    List (ℕ × SegData) :=
  if Splits l r then xs ++ (a, ⟨r, false⟩) :: (a + 32 + r, ⟨r, true⟩) :: ys
  else xs ++ (a, ⟨l, false⟩) :: ys

theorem takenSegs_kept {y : ℕ × SegData} (hy : y ∈ xs ++ (a, ⟨l, true⟩) :: ys)
    (hfree : y.2.free = false) : y ∈ takenSegs xs a l r ys := by
  rw [takenSegs]
  rcases List.mem_append.1 hy with hx | hx
  · split <;> simp [hx]
  · rcases List.mem_cons.1 hx with rfl | hx
    · cases hfree
    · split <;> simp [hx]

theorem takeSegment_chained (R : Represents h (xs ++ (a, ⟨l, true⟩) :: ys))
    (h24 : 24 ≤ h.heapStart) (hr : 16 ≤ r) (hrl : r ≤ l) :
    (takeSegment a r h).1 = a + 32 ∧
      Chained (takeSegment a r h).2 (takenSegs xs a l r ys) := by
  have hnode := R.placed.node
  obtain ⟨_, hbefore, hafter⟩ := R.placed
  have hend := hafter.le
  change a + 32 + l ≤ h.heapEnd at hend
  have htop := R.top
  have hlen : hdrLenght h a = l := by rw [hdrLenght_eq, hnode]
  have hxs : ∀ x ∈ xs, x.1 ≠ a := fun x hx => by
    have := (hbefore.mem hx).2
    omega
  have hys : ∀ y ∈ ys, y.1 ≠ a := fun y hy => by
    have := (hafter.mem hy).1
    omega
  refine ⟨by rw [takeSegment, hdrSize, wrap_of_lt (by omega)], ?_⟩
  rw [takeSegment, takenSegs, hlen]
  by_cases hlt : r < l
  · rw [if_pos hlt]
    by_cases hsplit : Splits l r
    · have hlong := hsplit.1
      rw [if_pos hsplit]
      have hcells := splitCells R (b := a + 32 + r) (by omega) (by omega)
      have hmem : ∀ c, (∃ x ∈ xs ++ (a, ⟨r, true⟩) :: (a + 32 + r, ⟨r, true⟩) :: ys, x.1 = c) →
          (∃ x ∈ xs ++ (a, ⟨l, true⟩) :: ys, x.1 = c) ∨ c = a + 32 + r := by
        rintro c ⟨x, hx, rfl⟩
        simp only [List.mem_append, List.mem_cons] at hx
        obtain hx | rfl | rfl | hx := hx
        · exact .inl ⟨x, by simp [hx], rfl⟩
        · exact .inl ⟨(a, ⟨l, true⟩), by simp, rfl⟩
        · exact .inr rfl
        · exact .inl ⟨x, by simp [hx], rfl⟩
      refine setFree_chained (split_chained R h24 hr hsplit) (hcells.mono hmem) hxs ?_ false
      intro y hy
      obtain rfl | hy := List.mem_cons.1 hy
      · change a + 32 + r ≠ a
        omega
      · exact hys y hy
    · rw [if_neg hsplit, split_none hr hlt (by omega) hlen hsplit]
      exact setFree_chained (R.visit a).chained R.cells hxs hys false
  · have hsplit : ¬ Splits l r := fun hs => hlt (by have := hs.1; omega)
    rw [if_neg hlt, if_neg hsplit]
    exact setFree_chained R.chained R.cells hxs hys false

/-- A split leaves a rest that is at least as long as the part split off. -/
def SplitsWell (l r : ℕ) : Prop := Splits l r → r ≤ l - r - 32

instance (l r : ℕ) : Decidable (SplitsWell l r) := inferInstanceAs (Decidable (_ → _))

theorem takenSegs_laid {lo hi : ℕ} (hl : Laid lo (xs ++ (a, ⟨l, true⟩) :: ys) hi)
    (hwell : SplitsWell l r) : Laid lo (takenSegs xs a l r ys) hi := by
  obtain ⟨hbefore, hafter⟩ := laid_append_cons.1 hl
  change Laid (a + 32 + l) ys hi at hafter
  rw [takenSegs]
  by_cases hsplit : Splits l r
  · have hrest := hwell hsplit
    have hlong := hsplit.1
    rw [if_pos hsplit]
    refine laid_append_cons.2 ⟨hbefore, le_rfl, hafter.mono ?_ le_rfl⟩
    change a + 32 + r + 32 + r ≤ a + 32 + l
    omega
  · rw [if_neg hsplit]
    exact laid_append_cons.2 ⟨hbefore, hafter⟩

theorem takeSegment_spec (R : Represents h (xs ++ (a, ⟨l, true⟩) :: ys))
    (h24 : 24 ≤ h.heapStart) (hr : 16 ≤ r) (hrl : r ≤ l) (hwell : SplitsWell l r) :
    (takeSegment a r h).1 = a + 32 ∧
      Represents (takeSegment a r h).2 (takenSegs xs a l r ys) ∧
      SameBounds h (takeSegment a r h).2 := by
  obtain ⟨hp, hlinks, hne, hstart, hlast⟩ := takeSegment_chained R h24 hr hrl
  have hbounds := sameBounds_takeSegment a r h
  have hlaid := takenSegs_laid R.laid hwell
  rw [← hbounds.heapStart, ← hbounds.heapEnd] at hlaid
  exact ⟨hp, ⟨hlinks, hne, hstart, hlast, hlaid, hbounds.heapStart.symm ▸ R.base,
    hbounds.heapEnd.symm ▸ R.top⟩, hbounds⟩

def Fits (r : ℕ) (x : ℕ × SegData) : Prop := x.2.free = true ∧ r ≤ x.2.lenght

instance (r : ℕ) (x : ℕ × SegData) : Decidable (Fits r x) := inferInstanceAs (Decidable (_ ∧ _))

/-- The search returns the first segment that fits. -/
theorem findSegment_spec {p fuel : ℕ} (hl : Links (header h.mem) p ys 0)
    (hne : ys ≠ []) (h0 : ∀ y ∈ ys, y.1 ≠ 0) (hfuel : ys.length ≤ fuel) :
    ∃ l, (∀ z ∈ l, ∃ y ∈ ys, y.1 = z) ∧
      ((∃ zs x us, ys = zs ++ x :: us ∧ Fits r x ∧ (∀ z ∈ zs, ¬ Fits r z) ∧
        findSegment r fuel (first ys 0) h = (some (some x.1), looked l h)) ∨
      ((∀ y ∈ ys, ¬ Fits r y) ∧
        findSegment r fuel (first ys 0) h = (some none, looked l h))) := by
  induction ys generalizing p h fuel with
  | nil => exact absurd rfl hne
  | cons y ys ih =>
    obtain ⟨fuel, rfl⟩ := Nat.exists_eq_add_one_of_ne_zero (show fuel ≠ 0 by
      rw [List.length_cons] at hfuel
      omega)
    rw [List.length_cons] at hfuel
    obtain ⟨hnode, htail⟩ := hl
    have hfree : hdrFree (visit y.1 h) y.1 = y.2.free := by
      change (header h.mem y.1).data.free = _
      rw [hnode]
    have hlen : hdrLenght (visit y.1 h) y.1 = y.2.lenght := by
      change (header h.mem y.1).data.lenght = _
      rw [hnode]
    have hnext : hdrNext (visit y.1 h) y.1 = first ys 0 := by
      change (header h.mem y.1).next = _
      rw [hnode]
    change ∃ l, _ ∧ ((∃ zs x us, y :: ys = zs ++ x :: us ∧ Fits r x ∧ (∀ z ∈ zs, ¬ Fits r z) ∧
      findSegment r (fuel + 1) y.1 h = _) ∨ (_ ∧ findSegment r (fuel + 1) y.1 h = _))
    rw [findSegment]
    simp only [hfree, hlen, hnext]
    by_cases hfit : Fits r y
    · exact ⟨[y.1], by simp, .inl ⟨[], y, ys, rfl, hfit, by simp, if_pos hfit⟩⟩
    · have hfit' : ¬ (y.2.free = true ∧ y.2.lenght ≥ r) := hfit
      rw [if_neg hfit']
      cases ys with
      | nil => exact ⟨[y.1], by simp, .inr ⟨by simpa using hfit, if_pos rfl⟩⟩
      | cons z zs =>
        have hz0 : first (z :: zs) 0 ≠ 0 := h0 z (by simp)
        rw [if_neg hz0]
        obtain ⟨l, hl, hend⟩ :=
          ih (h := visit y.1 h) htail (by simp) (fun u hu => h0 u (List.mem_cons_of_mem _ hu))
            (show (z :: zs).length ≤ fuel by omega)
        refine ⟨l ++ [y.1], fun u hu => ?_, ?_⟩
        · obtain hu | hu := List.mem_append.1 hu
          · obtain ⟨v, hv, e⟩ := hl u hu
            exact ⟨v, List.mem_cons_of_mem _ hv, e⟩
          · exact ⟨y, by simp, (List.mem_singleton.1 hu).symm⟩
        · obtain ⟨us, x, vs, e, hx, hus, hfound⟩ | ⟨hnone, hfound⟩ := hend
          · refine .inl ⟨y :: us, x, vs, by rw [e]; rfl, hx, ?_, ?_⟩
            · intro u hu
              obtain rfl | hu := List.mem_cons.1 hu
              · exact hfit
              · exact hus u hu
            · rw [hfound]
              simp [looked, visit]
          · refine .inr ⟨?_, ?_⟩
            · intro u hu
              obtain rfl | hu := List.mem_cons.1 hu
              · exact hfit
              · exact hnone u hu
            · rw [hfound]
              simp [looked, visit]

section Expand
variable (mapPage : ℕ → β → β)

def mapEnv (pos : ℕ) : ℕ → β → β
  | 0, env => env
  | i + 1, env => mapPage (wrap (pos + i * frameSize)) (mapEnv pos i env)

theorem mapPages_eq (n : ℕ) {pos : ℕ} (h : Heap β) (hpos : pos < 2 ^ 64) :
    mapPages mapPage pos n h =
      (wrap (pos + n * frameSize), { h with env := mapEnv mapPage pos n h.env }) := by
  induction n with
  | zero =>
    rw [Nat.zero_mul, Nat.add_zero, wrap_of_lt hpos]
    rfl
  | succ n ih =>
    have hsum : pos + n * frameSize + frameSize = pos + (n + 1) * frameSize := by
      rw [Nat.succ_mul]
      omega
    rw [mapPages, ih]
    simp only [wrap_wrap_add, hsum]
    rfl

end Expand

end Rizzos.HeapAllocation
