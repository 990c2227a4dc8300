import Rizzos.HeapSegments

set_option autoImplicit false

/-! What each heap operation does to the list of segments. -/
namespace Rizzos.HeapOperations
open ByteMemory Memory LinkedList KernelHeap HeapSegments

variable {β : Type} {h : Heap β} {xs ys : List (ℕ × SegData)} {a b l : ℕ} {d e : SegData}

/-- The operation leaves the bounds of the heap and the rest of the machine alone. -/
structure SameBounds (h h' : Heap β) : Prop where
  heapStart : h'.heapStart = h.heapStart
  heapEnd : h'.heapEnd = h.heapEnd
  env : h'.env = h.env

theorem SameBounds.refl (h : Heap β) : SameBounds h h := ⟨rfl, rfl, rfl⟩

theorem SameBounds.trans {h h' h'' : Heap β} (H : SameBounds h h') (H' : SameBounds h' h'') :
    SameBounds h h'' :=
  ⟨H'.heapStart.trans H.heapStart, H'.heapEnd.trans H.heapEnd, H'.env.trans H.env⟩

theorem sameBounds_visit (seg : ℕ) (h : Heap β) : SameBounds h (visit seg h) := ⟨rfl, rfl, rfl⟩

theorem SameBounds.ite {p : Prop} [Decidable p] {h x y : Heap β} (hx : SameBounds h x)
    (hy : SameBounds h y) : SameBounds h (if p then x else y) := by
  split
  · exact hx
  · exact hy

theorem SameBounds.ite_snd {γ : Type} {p : Prop} [Decidable p] {h : Heap β}
    {x y : γ × Heap β}
    (hx : SameBounds h x.2) (hy : SameBounds h y.2) : SameBounds h (if p then x else y).2 := by
  split
  · exact hx
  · exact hy

theorem sameBounds_setLenght (a v : ℕ) (h : Heap β) : SameBounds h (setLenght a v h) :=
  ⟨rfl, rfl, rfl⟩

theorem sameBounds_setNext (a v : ℕ) (h : Heap β) : SameBounds h (setNext a v h) :=
  ⟨rfl, rfl, rfl⟩

theorem sameBounds_setLast (a v : ℕ) (h : Heap β) : SameBounds h (setLast a v h) :=
  ⟨rfl, rfl, rfl⟩

theorem sameBounds_setFree (a : ℕ) (v : Bool) (h : Heap β) : SameBounds h (setFree a v h) :=
  ⟨rfl, rfl, rfl⟩

theorem sameBounds_setLastHdr (a : ℕ) (h : Heap β) : SameBounds h (setLastHdr a h) :=
  ⟨rfl, rfl, rfl⟩

theorem sameBounds_linkSplitHdr (a b : ℕ) (h : Heap β) : SameBounds h (linkSplitHdr a b h) :=
  (sameBounds_setLast _ _ _).trans ((sameBounds_setNext _ _ _).trans
    ((sameBounds_setNext _ _ _).trans (sameBounds_setLast _ _ _)))

theorem sameBounds_fillSplitHdr (a b n : ℕ) (h : Heap β) : SameBounds h (fillSplitHdr a b n h) :=
  (sameBounds_setLenght _ _ _).trans ((sameBounds_setFree _ _ _).trans (sameBounds_setLenght _ _ _))

theorem sameBounds_linkBack (next a : ℕ) (h : Heap β) : SameBounds h (linkBack next a h) :=
  .ite (sameBounds_setLast _ _ _) (.refl h)

theorem sameBounds_absorbNext (a : ℕ) (h : Heap β) : SameBounds h (absorbNext a h) :=
  (sameBounds_setLenght _ _ _).trans (sameBounds_setNext _ _ _)

theorem sameBounds_combineForward (a : ℕ) (h : Heap β) :
    SameBounds h (memHeapSegHdrCombineForward a h) := by
  unfold memHeapSegHdrCombineForward
  extract_lets h1 h2 h3
  refine .ite (sameBounds_visit a h) (.ite (sameBounds_visit a h) ?_)
  exact (sameBounds_visit a h).trans ((sameBounds_setLastHdr _ _).trans
    ((sameBounds_visit _ _).trans ((sameBounds_linkBack _ _ _).trans (sameBounds_absorbNext _ _))))

theorem sameBounds_combineBackward (a : ℕ) (h : Heap β) :
    SameBounds h (memHeapSegHdrCombineBackward a h) := by
  unfold memHeapSegHdrCombineBackward
  extract_lets h1 h2
  refine .ite ?_ (sameBounds_visit a h)
  refine .ite ?_ ((sameBounds_visit a h).trans (sameBounds_visit _ _))
  exact (sameBounds_visit a h).trans ((sameBounds_visit _ _).trans (sameBounds_combineForward _ _))

theorem sameBounds_findSegment (n fuel a : ℕ) (h : Heap β) :
    SameBounds h (findSegment n fuel a h).2 := by
  induction fuel generalizing a h with
  | zero => exact .refl h
  | succ fuel ih =>
    rw [findSegment]
    refine .ite_snd (sameBounds_visit a h) (.ite_snd (sameBounds_visit a h) ?_)
    exact (sameBounds_visit a h).trans (ih _ _)

section Cells
variable {S : ℕ → Prop} {n c v : ℕ}

theorem header_setLast_next (hS : Cells S) (h24 : ∀ c, S c → 24 ≤ c) (hn : n = 0 ∨ S n)
    (hv : v < 2 ^ 64) (hc : S c) : header (setLast n v h).mem c =
      if c = n then { header h.mem c with last := v } else header h.mem c := by
  obtain rfl | hn := hn
  · have := h24 c hc
    rw [if_neg (by omega)]
    exact header_setLast_null (hS.bound c hc) this
  · rw [header_setLast hS hn hc hv]
    by_cases hcn : c = n
    · rw [if_pos hcn, if_pos hcn, hcn]
    · rw [if_neg hcn, if_neg hcn]

theorem header_linkBack (hS : Cells S) (hpos : ∀ c, S c → 0 < c) (hn : n = 0 ∨ S n)
    (ha : S a) (hc : S c) : header (linkBack n a h).mem c =
      if c = n then { header h.mem c with last := a } else header h.mem c := by
  have hab := hS.bound a ha
  rw [linkBack]
  by_cases hn0 : n ≠ 0
  · rw [if_pos hn0, header_setLast hS (hn.resolve_left hn0) hc (by omega)]
    by_cases hcn : c = n
    · rw [if_pos hcn, if_pos hcn, hcn]
    · rw [if_neg hcn, if_neg hcn]
  · have := hpos c hc
    rw [if_neg hn0, if_neg (by omega)]

theorem header_absorbNext (hS : Cells S) (ha : S a) (hb : S b) (hab : b ≠ a) (hc : S c)
    (hnext : (header h.mem a).next = b) : header (absorbNext a h).mem c =
      if c = a then ⟨⟨wrap ((header h.mem a).data.lenght +
        wrap ((header h.mem b).data.lenght + hdrSize)), (header h.mem a).data.free⟩,
        (header h.mem b).next, (header h.mem a).last⟩ else header h.mem c := by
  rw [absorbNext]
  set v := wrap (hdrLenght h a + wrap (hdrLenght h (hdrNext h a) + hdrSize)) with hv
  have hvlt : v < 2 ^ 64 := wrap_lt _
  have hset : ∀ c, S c → header (setLenght a v h).mem c =
      if c = a then { header h.mem a with data := ⟨v, (header h.mem a).data.free⟩ }
      else header h.mem c := fun c hc => header_setLenght hS ha hc hvlt
  have hnext' : hdrNext (setLenght a v h) (hdrNext (setLenght a v h) a) = (header h.mem b).next := by
    rw [hdrNext_eq, hdrNext_eq, hset a ha, if_pos rfl, hnext, hset b hb, if_neg hab]
  rw [hdrNext_eq, hnext, hdrLenght_eq, hdrLenght_eq] at hv
  have hlt : (header h.mem b).next < 2 ^ 64 := load64_lt _ _
  rw [hnext', header_setNext hS ha hc hlt, hset a ha, if_pos rfl, hset c hc]
  by_cases hca : c = a
  · rw [if_pos hca, if_pos hca, hv]
  · rw [if_neg hca, if_neg hca, if_neg hca]

end Cells

theorem hdrNext_visit (seg a : ℕ) (h : Heap β) : hdrNext (visit seg h) a = hdrNext h a := rfl
theorem hdrNext_setLastHdr (seg a : ℕ) (h : Heap β) :
    hdrNext (setLastHdr seg h) a = hdrNext h a := rfl
theorem mem_visit (seg : ℕ) (h : Heap β) : (visit seg h).mem = h.mem := rfl
theorem lastHdr_visit (seg : ℕ) (h : Heap β) : (visit seg h).lastHdr = h.lastHdr := rfl

theorem combineForward_eq (hnext : hdrNext h a = b) (hb : b ≠ 0) (hfree : hdrFree h a = true) :
    memHeapSegHdrCombineForward a h = absorbNext a (linkBack (hdrNext h b) a
      (visit b (setLastHdr (if b = h.lastHdr then a else h.lastHdr) (visit a h)))) := by
  subst hnext
  have hb' : ¬ hdrNext (visit a h) a = 0 := hb
  have hfree' : ¬ hdrFree (visit a h) a = false := by
    change ¬ hdrFree h a = false
    simp [hfree]
  rw [memHeapSegHdrCombineForward, if_neg hb', if_neg hfree']
  simp only [hdrNext_visit, hdrNext_setLastHdr, lastHdr_visit]
  rfl

theorem header_combineForward {S : ℕ → Prop} {n p c : ℕ} (hS : Cells S)
    (hpos : ∀ c, S c → 0 < c) (ha : S a) (hb : S b) (hn : n = 0 ∨ S n)
    (hnode : header h.mem a = ⟨⟨l, true⟩, b, p⟩) (hnodeb : header h.mem b = ⟨e, n, a⟩)
    (hab : a ≠ b) (han : a ≠ n) (hbn : b ≠ n) (hc : S c) :
    header (memHeapSegHdrCombineForward a h).mem c =
      if c = a then ⟨⟨wrap (l + wrap (e.lenght + hdrSize)), true⟩, n, p⟩
      else if c = n then { header h.mem c with last := a } else header h.mem c := by
  have hnextb : hdrNext h a = b := by rw [hdrNext_eq, hnode]
  have hnextb' : hdrNext h b = n := by rw [hdrNext_eq, hnodeb]
  have hfree : hdrFree h a = true := by rw [hdrFree_eq, hnode]
  have hb0 := hpos b hb
  rw [combineForward_eq hnextb (by omega) hfree, hnextb']
  set h1 : Heap β :=
    visit b (setLastHdr (if b = h.lastHdr then a else h.lastHdr) (visit a h)) with hh1
  have hback : ∀ c, S c → header (linkBack n a h1).mem c =
      if c = n then { header h.mem c with last := a } else header h.mem c :=
    fun c hc => header_linkBack (h := h1) hS hpos hn ha hc
  have hbacka : header (linkBack n a h1).mem a = header h.mem a := by
    rw [hback a ha, if_neg han]
  have hbackb : header (linkBack n a h1).mem b = header h.mem b := by
    rw [hback b hb, if_neg hbn]
  rw [header_absorbNext hS ha hb (Ne.symm hab) hc (by rw [hbacka, hnode]), hbacka, hbackb,
    hnode, hnodeb, hback c hc]

theorem combineForward_lastHdr (hnext : hdrNext h a = b) (hb : b ≠ 0)
    (hfree : hdrFree h a = true) :
    (memHeapSegHdrCombineForward a h).lastHdr = if b = h.lastHdr then a else h.lastHdr := by
  rw [combineForward_eq hnext hb hfree]
  simp only [absorbNext, linkBack]
  split <;> rfl

theorem relinked_of_laid {store store' : ℕ → Node SegData} {lo hi q : ℕ} (hl : Laid lo ys hi)
    (hs : ∀ y ∈ ys, store' y.1 =
      if y.1 = first ys 0 then { store y.1 with last := q } else store y.1) :
    Relinked store store' q ys := by
  cases ys with
  | nil => exact ⟨by simp, by simp⟩
  | cons y ys =>
    refine ⟨fun x hx => ?_, fun z hz => ?_⟩
    · obtain rfl : y = x := by simpa using hx
      exact (hs y (by simp)).trans (if_pos rfl)
    · have hz' : z ∈ ys := hz
      have hlt := (hl.2.mem hz').1
      rw [hs z (by simp [hz']), if_neg]
      change z.1 ≠ y.1
      omega

theorem combineForward_spec (R : Represents h (xs ++ (a, ⟨l, true⟩) :: (b, e) :: ys)) :
    Represents (memHeapSegHdrCombineForward a h) (xs ++ (a, ⟨l + 32 + e.lenght, true⟩) :: ys) ∧
      SameBounds h (memHeapSegHdrCombineForward a h) := by
  have hS := R.cells
  have hpos := R.cells_pos
  set S : ℕ → Prop := fun c => ∃ x ∈ xs ++ (a, ⟨l, true⟩) :: (b, e) :: ys, x.1 = c with hSdef
  obtain ⟨hnode, hbefore, hab, hafter⟩ := R.placed
  have hnodeb : header h.mem b = ⟨e, first ys 0, a⟩ := (links_append.1 R.links).2.2.1
  change header h.mem a = ⟨⟨l, true⟩, b, final 0 xs⟩ at hnode
  change a + 32 + l ≤ b at hab
  change Laid (b + 32 + e.lenght) ys h.heapEnd at hafter
  have htop := R.top
  have hbtop := hafter.le
  have ha : S a := ⟨(a, ⟨l, true⟩), by simp, rfl⟩
  have hb : S b := ⟨(b, e), by simp, rfl⟩
  have ha0 := hpos a ha
  have hb0 := hpos b hb
  have hn : first ys 0 = 0 ∨ S (first ys 0) :=
    (first_cell ys).imp_right fun ⟨y, hy, e⟩ => ⟨y, by simp [hy], e⟩
  have hafirst : a ≠ first ys 0 := ne_first hafter (by omega) (by omega)
  have hbfirst : b ≠ first ys 0 := ne_first hafter (by omega) (by omega)
  have hlast : (memHeapSegHdrCombineForward a h).lastHdr =
      if b = h.lastHdr then a else h.lastHdr :=
    combineForward_lastHdr (by rw [hdrNext_eq, hnode]) (by omega) (by rw [hdrFree_eq, hnode])
  have habsorb : ∀ c, S c → header (memHeapSegHdrCombineForward a h).mem c =
      if c = a then ⟨⟨l + 32 + e.lenght, true⟩, first ys 0, final 0 xs⟩
      else if c = first ys 0 then { header h.mem c with last := a } else header h.mem c := by
    intro c hc
    have hlen : wrap (l + wrap (e.lenght + hdrSize)) = l + 32 + e.lenght := by
      rw [hdrSize, wrap_add_wrap, wrap_of_lt (by omega)]
      omega
    rw [header_combineForward hS hpos ha hb hn hnode hnodeb (by omega) hafirst hbfirst hc, hlen]
  have hbounds := sameBounds_combineForward a h
  generalize memHeapSegHdrCombineForward a h = h' at *
  obtain ⟨hstart, hend, henv⟩ := id hbounds
  refine ⟨⟨?_, by simp, ?_, ?_, ?_, hstart.symm ▸ R.base, hend.symm ▸ R.top⟩, hbounds⟩
  · refine R.links.removeAfter ?_ ?_ (relinked_of_laid hafter ?_)
    · rw [habsorb a ha, if_pos rfl]
    · intro x hx
      have hxa := (hbefore.mem hx).2
      have hx0 := hpos x.1 ⟨x, by simp [hx], rfl⟩
      rw [habsorb x.1 ⟨x, by simp [hx], rfl⟩, if_neg (by omega),
        if_neg (ne_first hafter (by omega) (by omega))]
    · intro y hy
      have hya := (hafter.mem hy).1
      rw [habsorb y.1 ⟨y, by simp [hy], rfl⟩, if_neg (by omega)]
  · rw [hstart, ← R.start]
    simp
  · rw [hlast, R.last]
    simp only [final_append_cons]
    cases ys with
    | nil => exact if_pos rfl
    | cons y ys =>
      obtain ⟨z, hz, e⟩ := final_mem b (y :: ys) (by simp)
      have hzb := (hafter.mem hz).1
      refine if_neg ?_
      change b ≠ final b (y :: ys)
      omega
  · rw [hstart, hend]
    refine laid_append_cons.2 ⟨hbefore, hafter.mono ?_ le_rfl⟩
    change a + 32 + (l + 32 + e.lenght) ≤ b + 32 + e.lenght
    omega

theorem laid_setData {lo hi : ℕ} {d' : SegData} (hl : Laid lo (xs ++ (a, d) :: ys) hi)
    (hd : d'.lenght = d.lenght) : Laid lo (xs ++ (a, d') :: ys) hi := by
  obtain ⟨hx, hy⟩ := laid_append_cons.1 hl
  change Laid (a + 32 + d.lenght) ys hi at hy
  rw [← hd] at hy
  exact laid_append_cons.2 ⟨hx, hy⟩

theorem setFree_chained (C : Chained h (xs ++ (a, d) :: ys))
    (hS : Cells fun c => ∃ x ∈ xs ++ (a, d) :: ys, x.1 = c) (hxs : ∀ x ∈ xs, x.1 ≠ a)
    (hys : ∀ y ∈ ys, y.1 ≠ a) (free : Bool) :
    Chained (setFree a free h) (xs ++ (a, ⟨d.lenght, free⟩) :: ys) := by
  have ha : ∃ x ∈ xs ++ (a, d) :: ys, x.1 = a := ⟨(a, d), by simp, rfl⟩
  have hset := fun c hc => header_setFree (h := h) (c := c) hS ha hc free
  refine ⟨?_, by simp, ?_, ?_⟩
  · refine C.links.setData ?_ ?_ ?_
    · rw [hset a ha, if_pos rfl, C.links.node]
    · intro x hx
      rw [hset x.1 ⟨x, by simp [hx], rfl⟩, if_neg (hxs x hx)]
    · intro y hy
      rw [hset y.1 ⟨y, by simp [hy], rfl⟩, if_neg (hys y hy)]
  · have hstart := C.start
    rw [first_append_cons] at hstart ⊢
    exact hstart
  · have hlast := C.last
    rw [final_append_cons] at hlast ⊢
    exact hlast

theorem setFree_spec (R : Represents h (xs ++ (a, d) :: ys)) (free : Bool) :
    Represents (setFree a free h) (xs ++ (a, ⟨d.lenght, free⟩) :: ys) ∧
      SameBounds h (setFree a free h) := by
  obtain ⟨_, hbefore, hafter⟩ := R.placed
  have hxs : ∀ x ∈ xs, x.1 ≠ a := fun x hx => by
    have := (hbefore.mem hx).2
    omega
  have hys : ∀ y ∈ ys, y.1 ≠ a := fun y hy => by
    have := (hafter.mem hy).1
    omega
  obtain ⟨hlinks, hne, hstart, hlast⟩ := setFree_chained R.chained R.cells hxs hys free
  exact ⟨⟨hlinks, hne, hstart, hlast, laid_setData R.laid rfl, R.base, R.top⟩,
    sameBounds_setFree a free h⟩

theorem combineForward_tail (R : Represents h (xs ++ [(a, d)])) :
    memHeapSegHdrCombineForward a h = visit a h := by
  have hnext : hdrNext (visit a h) a = 0 := by
    rw [hdrNext_visit, hdrNext_eq, R.placed.node]
    rfl
  rw [memHeapSegHdrCombineForward, if_pos hnext]

/-- A segment put behind a list, merged with the last one if that is free. -/
def mergeInto : List (ℕ × SegData) → ℕ × SegData → List (ℕ × SegData)
  | [], x => [x]
  | [c], x => if c.2.free then [(c.1, ⟨c.2.lenght + 32 + x.2.lenght, true⟩)] else [c, x]
  | c :: c' :: xs, x => c :: mergeInto (c' :: xs) x

theorem mergeInto_append (xs : List (ℕ × SegData)) (c x : ℕ × SegData) :
    mergeInto (xs ++ [c]) x =
      xs ++ if c.2.free then [(c.1, ⟨c.2.lenght + 32 + x.2.lenght, true⟩)] else [c, x] := by
  induction xs with
  | nil => rfl
  | cons y xs ih =>
    obtain ⟨z, zs, e⟩ := List.exists_cons_of_ne_nil (show xs ++ [c] ≠ [] by simp)
    rw [List.cons_append, List.cons_append, ← ih, e]
    rfl

theorem combineBackward_none (hlast : hdrLast h a = 0) :
    memHeapSegHdrCombineBackward a h = visit a h := by
  have hlast' : ¬ hdrLast (visit a h) a ≠ 0 := not_not.2 hlast
  rw [memHeapSegHdrCombineBackward, if_neg hlast']

theorem combineBackward_some {c : ℕ} (hlast : hdrLast h a = c) (hc : c ≠ 0) :
    memHeapSegHdrCombineBackward a h =
      if hdrFree h c = true then memHeapSegHdrCombineForward c (visit c (visit a h))
      else visit c (visit a h) := by
  subst hlast
  have hlast' : hdrLast (visit a h) a ≠ 0 := hc
  have hvisit : ∀ seg, hdrLast (visit seg (visit a h)) a = hdrLast h a := fun _ => rfl
  have hvisit' : hdrLast (visit a h) a = hdrLast h a := rfl
  have hfree : ∀ seg c, hdrFree (visit seg (visit a h)) c = hdrFree h c := fun _ _ => rfl
  rw [memHeapSegHdrCombineBackward, if_pos hlast']
  simp only [hvisit, hvisit', hfree]

theorem combineBackward_spec (R : Represents h (xs ++ (a, d) :: ys)) :
    Represents (memHeapSegHdrCombineBackward a h) (mergeInto xs (a, d) ++ ys) ∧
      SameBounds h (memHeapSegHdrCombineBackward a h) := by
  have hlast : hdrLast h a = final 0 xs := by rw [hdrLast_eq, R.placed.node]
  obtain rfl | ⟨xs, ⟨c, l, f⟩, rfl⟩ := List.eq_nil_or_concat xs
  · rw [combineBackward_none hlast]
    exact ⟨R.visit a, sameBounds_visit a h⟩
  · rw [List.concat_eq_append] at hlast R ⊢
    rw [final_append_cons] at hlast
    change hdrLast h a = c at hlast
    rw [List.append_assoc, List.singleton_append] at R
    have hc0 := R.cells_pos c ⟨(c, ⟨l, f⟩), by simp, rfl⟩
    have hfree : hdrFree h c = f := by rw [hdrFree_eq, R.placed.node]
    rw [mergeInto_append, combineBackward_some hlast (by omega), hfree,
      List.append_assoc]
    cases f with
    | false =>
      simp only [Bool.false_eq_true, if_false]
      exact ⟨(R.visit a).visit c, (sameBounds_visit a h).trans (sameBounds_visit c _)⟩
    | true =>
      simp only [if_true]
      obtain ⟨R', hb⟩ := combineForward_spec ((R.visit a).visit c)
      exact ⟨R', (sameBounds_visit a h).trans ((sameBounds_visit c _).trans hb)⟩

/-- The segments after a free: the freed segment takes in the one behind it, whatever that is,
    and goes into the one before it if that is free. -/
def freedSegs (xs : List (ℕ × SegData)) (a lenght : ℕ) :
    List (ℕ × SegData) → List (ℕ × SegData)
  | [] => mergeInto xs (a, ⟨lenght, true⟩)
  | (_, e) :: ys => mergeInto xs (a, ⟨lenght + 32 + e.lenght, true⟩) ++ ys

theorem memFree_spec (R : Represents h (xs ++ (a, d) :: ys)) :
    Represents (memFree (a + 32) h) (freedSegs xs a d.lenght ys) ∧
      SameBounds h (memFree (a + 32) h) := by
  have hseg : wrapSub (a + 32) hdrSize = a := by
    have hend := R.placed.after.le
    have htop := R.top
    rw [hdrSize, wrapSub_of_le (by omega) (by omega)]
    omega
  rw [memFree, hseg]
  obtain ⟨R1, hb1⟩ := setFree_spec R true
  cases ys with
  | nil =>
    rw [combineForward_tail R1]
    obtain ⟨R2, hb2⟩ := combineBackward_spec (R1.visit a)
    rw [List.append_nil] at R2
    exact ⟨R2, hb1.trans ((sameBounds_visit a _).trans hb2)⟩
  | cons y ys =>
    obtain ⟨R2, hb2⟩ := combineForward_spec R1
    obtain ⟨R3, hb3⟩ := combineBackward_spec R2
    exact ⟨R3, hb1.trans (hb2.trans hb3)⟩

end Rizzos.HeapOperations
