import Rizzos.HeapPreservation

set_option autoImplicit false

/-! Which header pointers the heap operations use along a run. -/
namespace Rizzos.HeapHeaders
open ByteMemory Memory LinkedList KernelHeap HeapSegments HeapOperations HeapAllocation HeapDerefs
open HeapMalloc HeapRuns HeapCoalescing HeapPreservation

variable {β : Type} {h : Heap β} {segs xs ys : List (ℕ × SegData)} {a l r : ℕ} {d : SegData}
  {A : ℕ → Prop} {mapPage : ℕ → β → β} {fuel : ℕ} {c : Client β}

/-- The headers that a call makes: the ends of the heap at its expansions, and the header that
    a split puts behind the block. -/
def Created (mapPage : ℕ → β → β) (fuel : ℕ) (c : Client β) : HeapOp → ℕ → Prop
  | .malloc size, z => ∃ s, mallocFound mapPage fuel size c.heap = some s ∧
      ((∃ k < s.expansions, z = c.heap.heapEnd + k * roundUp frameSize (roundUp 0x10 size)) ∨
        Splits (hdrLenght s.heap s.seg) (roundUp 0x10 size) ∧
          z = s.seg + 32 + roundUp 0x10 size)
  | _, _ => False

/-- All header pointers that a step uses are non-null and lead to segments of the list or to
    headers that the step makes. -/
def HeadersInList (mapPage : ℕ → β → β) (fuel : ℕ) (c : Client β) (op : HeapOp) : Prop :=
  ∀ c', heapStep mapPage fuel c op = some c' →
    Derefs (fun z => z ≠ 0 ∧ (z ∈ headers (segments c.heap) ∨ Created mapPage fuel c op z))
      c.heap c'.heap

/-- An allocation splits no segment that has none behind it. -/
def LeavesTail (c : Client β) : HeapOp → Prop
  | .malloc size =>
    let r := roundUp 0x10 size
    r = 0 ∨ (Splits (takenLenght (segments c.heap) r) r →
      ∃ x, firstFit (segments c.heap) r = some x ∧ x.1 ≠ c.heap.lastHdr)
  | _ => True

theorem next_header (R : Represents h segs) (ha : a ∈ headers segs) (h0 : hdrNext h a ≠ 0) :
    hdrNext h a ∈ headers segs := by
  rcases ha with ⟨x, hx, rfl⟩
  rcases List.append_of_mem hx with ⟨xs, ys, rfl⟩
  rw [hdrNext_eq, R.links.node] at h0 ⊢
  cases ys with
  | nil => exact absurd rfl h0
  | cons y ys => exact ⟨y, by simp, rfl⟩

theorem last_header (R : Represents h segs) (ha : a ∈ headers segs) (h0 : hdrLast h a ≠ 0) :
    hdrLast h a ∈ headers segs := by
  rcases ha with ⟨x, hx, rfl⟩
  rcases List.append_of_mem hx with ⟨xs, ys, rfl⟩
  rw [hdrLast_eq, R.links.node] at h0 ⊢
  change final 0 xs ≠ 0 at h0
  change final 0 xs ∈ _
  have hne : xs ≠ [] := by
    rintro rfl
    exact h0 rfl
  rcases final_mem 0 xs hne with ⟨z, hz, e⟩
  exact ⟨z, by simp [hz], e.symm⟩

theorem combineForward_headers (R : Represents h segs) (ha : a ∈ headers segs) :
    Derefs (· ∈ headers segs) h (memHeapSegHdrCombineForward a h) :=
  derefs_combineForward ha (next_header R ha) fun hb => next_header R (next_header R ha hb)

theorem combineBackward_headers (R : Represents h segs) (ha : a ∈ headers segs) :
    Derefs (· ∈ headers segs) h (memHeapSegHdrCombineBackward a h) := by
  refine derefs_combineBackward ha (last_header R ha) ?_ ?_
  · exact fun hc => next_header R (last_header R ha hc)
  · exact fun hc hb => next_header R (next_header R (last_header R ha hc) hb)

theorem memFree_headers (R : Represents h (xs ++ (a, d) :: ys)) :
    Derefs (· ∈ headers (xs ++ (a, d) :: ys)) h (memFree (a + 32) h) := by
  have hseg : wrapSub (a + 32) hdrSize = a := by
    have hend := R.placed.after.le
    have htop := R.top
    rw [hdrSize, wrapSub_of_le (by omega) (by omega)]
    omega
  have ha : ∀ d' zs, a ∈ headers (xs ++ (a, d') :: zs) := fun d' zs => ⟨(a, d'), by simp, rfl⟩
  rw [memFree, hseg]
  have hset := derefs_setFree (A := (· ∈ headers (xs ++ (a, d) :: ys))) (ha d ys) true h
  rcases setFree_spec R true with ⟨R1, _⟩
  have hforward := combineForward_headers R1 (ha _ ys)
  rw [headers_setFree xs ys ⟨d.lenght, true⟩ d] at hforward
  refine (hset.trans hforward).trans ?_
  cases ys with
  | nil =>
    rw [combineForward_tail R1]
    have hback := combineBackward_headers (R1.visit a) (ha _ [])
    rwa [headers_setFree xs [] ⟨d.lenght, true⟩ d] at hback
  | cons y ys =>
    rcases combineForward_spec R1 with ⟨R2, _⟩
    refine (combineBackward_headers R2 (ha _ ys)).mono fun z hz => ?_
    rcases hz with ⟨x, hx, rfl⟩
    rcases List.mem_append.1 hx with hx | hx
    · exact ⟨x, by simp [hx], rfl⟩
    · rcases List.mem_cons.1 hx with rfl | hx
      · exact ha _ _
      · exact ⟨x, by simp [hx], rfl⟩

theorem takeSegment_derefs (R : Represents h (xs ++ (a, ⟨l, true⟩) :: ys)) (hr : 16 ≤ r)
    (ha : A a) (hsplit : Splits l r → A (a + 32 + r) ∧ A (first ys 0)) :
    Derefs A h (takeSegment a r h).2 := by
  have hlen : hdrLenght h a = l := by rw [hdrLenght_eq, R.placed.node]
  have hnext : hdrNext h a = first ys 0 := by rw [hdrNext_eq, R.placed.node]
  have hend := R.placed.after.le
  change a + 32 + l ≤ h.heapEnd at hend
  have htop := R.top
  have htake : (takeSegment a r h).2 =
      setFree a false (if hdrLenght h a > r then (memHeapSegHdrSplit a r h).2 else h) := rfl
  rw [htake, hlen]
  refine Derefs.trans (.ite (fun hlong => ?_) fun _ => .same rfl) (derefs_setFree ha false _)
  refine derefs_split hr (by omega) hlong hlen ha fun hs => ?_
  have hlong := hs.1
  have hwrap : wrap (a + r + hdrSize) = a + 32 + r := by
    rw [hdrSize, wrap_of_lt (by omega)]
    omega
  rw [hwrap, hnext]
  exact hsplit hs

theorem malloc_headers (I : ClientInvariant c segs) (hfuel : 2 ^ 64 ≤ fuel) {size : ℕ}
    (hallowed : Allowed c (.malloc size)) (htruthful : Truthful c (.malloc size))
    (htail : LeavesTail c (.malloc size)) : HeadersInList mapPage fuel c (.malloc size) := by
  have hlen := I.represents.laid.length
  have htop := I.represents.top
  have hbase := I.represents.base
  rw [Truthful, segments_eq I.represents] at htruthful
  rw [LeavesTail, segments_eq I.represents] at htail
  intro c' hstep
  rw [heapStep] at hstep
  by_cases hround : roundUp 0x10 size = 0
  · rw [memMalloc_zero mapPage hround (by omega)] at hstep
    obtain rfl := Option.some.inj hstep
    exact .same rfl
  · rcases htruthful.room hround with ⟨hroom, _⟩
    rcases roundUp_block size hallowed hround with ⟨hr, _, hagain, _⟩
    rcases mallocSearch_spec mapPage fuel I.represents (by omega) hroom (by omega) with
      ⟨s, xs, ys, e, H, hfirst⟩
    rw [memMalloc_eq mapPage _ _ rfl hagain hround, e] at hstep
    obtain rfl := Option.some.inj hstep
    have hfound : mallocFound mapPage fuel size c.heap = some s := by
      rw [mallocFound, if_neg hround, e]
    have hseg : hdrLenght s.heap s.seg = takenLenght segs (roundUp 0x10 size) := by
      rw [hdrLenght_eq, H.represents.placed.node]
    rw [segments_eq I.represents]
    have hknown : ∀ z, Known c.heap segs (roundUp 0x10 size) s.expansions z →
        z ≠ 0 ∧ (z ∈ headers segs ∨ Created mapPage fuel c (.malloc size) z) := by
      rintro z (hz | ⟨k, hk, rfl⟩)
      · exact ⟨(I.represents.cells_pos z hz).ne', .inl hz⟩
      · exact ⟨by omega, .inr ⟨s, hfound, .inl ⟨k, hk, rfl⟩⟩⟩
    refine (H.derefs.mono hknown).trans
      (takeSegment_derefs H.represents hr (hknown _ H.place) fun hsplit => ⟨⟨by omega, ?_⟩, ?_⟩)
    · exact .inr ⟨s, hfound, .inr ⟨hseg.symm ▸ hsplit, rfl⟩⟩
    · rcases htail.resolve_left hround hsplit with ⟨x, hx, hlast⟩
      rcases hfirst x hx with ⟨hsegs, hxs⟩
      cases ys with
      | nil =>
        rw [I.represents.last, hsegs, final_append_cons] at hlast
        exact absurd hxs hlast
      | cons y ys =>
        exact hknown _ (.inl ⟨y, by rw [hsegs]; simp, rfl⟩)

theorem free_headers (I : ClientInvariant c segs) {addr : ℕ} (hallowed : Allowed c (.free addr)) :
    HeadersInList mapPage fuel c (.free addr) := by
  rcases hallowed with ⟨b, hb, rfl⟩
  rcases I.blocks b hb with ⟨⟨a, d⟩, hx, hxb, _, _⟩
  rcases List.append_of_mem hx with ⟨xs, ys, rfl⟩
  change a + 32 = b.1 at hxb
  have hfree := memFree_headers I.represents
  rw [hxb] at hfree
  intro c' hstep
  have hheap : c'.heap = memFree b.1 c.heap := by rw [← Option.some.inj hstep]
  rw [segments_eq I.represents, hheap]
  refine hfree.mono fun z hz => ⟨?_, .inl hz⟩
  exact (I.represents.cells_pos z hz).ne'

theorem step_headers (I : ClientInvariant c segs) (hfuel : 2 ^ 64 ≤ fuel) (op : HeapOp)
    (hallowed : Allowed c op) (htruthful : Truthful c op) (htail : LeavesTail c op) :
    HeadersInList mapPage fuel c op := by
  cases op with
  | malloc size => exact malloc_headers I hfuel hallowed htruthful htail
  | free addr => exact free_headers I hallowed
  | write address value =>
    intro c' hstep
    have hheap : c'.heap.derefs = c.heap.derefs := by rw [← Option.some.inj hstep]
    exact .same hheap

theorem along_headers (I : ClientInvariant c segs) (hfuel : 2 ^ 64 ≤ fuel) (ops : List HeapOp)
    (hops : Along mapPage fuel (fun c op => Allowed c op ∧ Truthful c op ∧ LeavesTail c op)
      ops c) : Along mapPage fuel (HeadersInList mapPage fuel) ops c := by
  induction ops generalizing c segs with
  | nil => trivial
  | cons op ops ih =>
    rcases hops with ⟨⟨hallowed, htruthful, htail⟩, hrest⟩
    refine ⟨step_headers I hfuel op hallowed htruthful htail, fun c' hc' => ?_⟩
    obtain ⟨c1, segs1, e1, I1⟩ : ∃ c1 segs1,
        heapStep mapPage fuel c op = some c1 ∧ ClientInvariant c1 segs1 :=
      heapStep_spec I hfuel op hallowed htruthful
    obtain rfl := Option.some.inj (e1.symm.trans hc')
    exact ih I1 (hrest c1 hc')

/-- In every run whose calls keep the headers truthful and split no last segment, every header
    pointer used is that of a segment. -/
theorem heapRun_headers (mapPage : ℕ → β → β) (h : Heap β) (base pageCount fuel : ℕ)
    (ops : List HeapOp) (hcount : 1 ≤ pageCount) (hbase : 24 ≤ base)
    (htop : base + pageCount * 4096 < 2 ^ 64) (hfuel : 2 ^ 64 ≤ fuel)
    (hops : Along mapPage fuel (fun c op => Allowed c op ∧ Truthful c op ∧ LeavesTail c op) ops
      (started mapPage base pageCount h)) :
    Along mapPage fuel (HeadersInList mapPage fuel) ops (started mapPage base pageCount h) ∧
      ∃ c, heapRun mapPage fuel ops (started mapPage base pageCount h) = some c := by
  have I := started_invariant mapPage h hcount hbase htop
  have hsafe := hops.mono (Q := fun c op => Allowed c op ∧ Truthful c op)
    fun _ _ hop => ⟨hop.1, hop.2.1⟩
  rcases heapRun_spec I hfuel ops hsafe with ⟨c, _, e, _⟩
  exact ⟨along_headers I hfuel ops hops, c, e⟩

theorem heapRun_headers_whole : Along (fun _ e => e) (2 ^ 64)
    (HeadersInList (fun _ e => e) (2 ^ 64)) [.malloc 65504, .free 0x100000000020] bootHeap ∧
      ∃ c, heapRun (fun _ e => e) (2 ^ 64) [.malloc 65504, .free 0x100000000020] bootHeap =
        some c := by
  have hsegs : segments bootHeap.heap = [(0x100000000000, ⟨65504, true⟩)] :=
    segments_eq bootHeap_wellFormed.represents
  have hmalloc : Truthful bootHeap (.malloc 65504) ∧ LeavesTail bootHeap (.malloc 65504) := by
    rw [Truthful, LeavesTail, hsegs]
    have hwell : SplitsWell 65504 65504 := by decide
    exact ⟨.inr hwell, .inr fun hsplit => absurd hsplit (by decide)⟩
  have hfree : (heapStep (fun _ e => e) (2 ^ 64) bootHeap (.malloc 65504)).all (fun c =>
      decide (Allowed c (.free 0x100000000020) ∧ Truthful c (.free 0x100000000020))) := by
    decide +kernel
  have hops : Along (fun _ e => e) (2 ^ 64) (fun c op => Allowed c op ∧ Truthful c op ∧
      LeavesTail c op) [.malloc 65504, .free 0x100000000020] bootHeap := by
    refine ⟨⟨show 65504 < 2 ^ 64 by decide, hmalloc⟩, fun c hc => ⟨?_, fun _ _ => trivial⟩⟩
    rw [hc] at hfree
    rcases of_decide_eq_true hfree with ⟨hallowed, htruthful⟩
    exact ⟨hallowed, htruthful, trivial⟩
  exact heapRun_headers (fun _ e => e) blankHeap 0x100000000000 0x10 (2 ^ 64) _ (by decide)
    (by decide) (by decide) le_rfl hops

/-- The first small block already makes the split write through a null pointer. -/
theorem heapRun_null : ∃ ops : List HeapOp, Along (fun _ e => e) (2 ^ 64) Allowed ops bootHeap ∧
    ¬ Along (fun _ e => e) (2 ^ 64) (HeadersInList (fun _ e => e) (2 ^ 64)) ops bootHeap := by
  refine ⟨[.malloc 16], ⟨show 16 < 2 ^ 64 by decide, fun _ _ => trivial⟩, ?_⟩
  have hrun : (heapStep (fun _ e => e) (2 ^ 64) bootHeap (.malloc 16)).map
      (fun c => decide (0 ∈ c.heap.derefs)) = some true := by
    decide +kernel
  have hboot : 0 ∉ bootHeap.heap.derefs := by decide +kernel
  rcases Option.map_eq_some_iff.1 hrun with ⟨c, hc, hzero⟩
  rintro ⟨hstep, _⟩
  rcases hstep c hc with ⟨l, hl, hlist⟩
  have hmem := of_decide_eq_true hzero
  rw [hl] at hmem
  rcases List.mem_append.1 hmem with hmem | hmem
  · exact (hlist 0 hmem).1 rfl
  · exact hboot hmem

end Rizzos.HeapHeaders
