import Rizzos.HeapMalloc

set_option autoImplicit false

/-! Runs of the heap's clients: which runs keep live blocks apart from each other and from the
headers. -/
namespace Rizzos.HeapRuns
open ByteMemory Memory LinkedList KernelHeap HeapSegments HeapOperations HeapAllocation HeapMalloc

variable {β : Type}

/-- The heap and the blocks in use: the pointers that `memMalloc` returned and the sizes that
    were asked for. -/
structure Client (β : Type) where
  heap : Heap β
  live : List (ℕ × ℕ)

inductive HeapOp where
  | malloc (size : ℕ)
  | free (addr : ℕ)
  | write (address : ℕ) (value : Byte)
deriving DecidableEq

/-- A null result of `memMalloc` is no block. -/
def heapStep (mapPage : ℕ → β → β) (fuel : ℕ) (c : Client β) : HeapOp → Option (Client β)
  | .malloc size =>
    match memMalloc mapPage fuel size c.heap with
    | none => none
    | some (p, h) => some ⟨h, if p = 0 then c.live else (p, size) :: c.live⟩
  | .free addr => some ⟨memFree addr c.heap, c.live.filter (·.1 ≠ addr)⟩
  | .write address value =>
    some ⟨{ c.heap with mem := store8 c.heap.mem address value }, c.live⟩

def heapRun (mapPage : ℕ → β → β) (fuel : ℕ) : List HeapOp → Client β → Option (Client β)
  | [], c => some c
  | op :: ops, c =>
    match heapStep mapPage fuel c op with
    | none => none
    | some c => heapRun mapPage fuel ops c

/-- Only live blocks are freed, and clients write inside their own blocks. -/
def Allowed (c : Client β) : HeapOp → Prop
  | .malloc size => size < 2 ^ 64
  | .free addr => ∃ b ∈ c.live, b.1 = addr
  | .write address _ => ∃ b ∈ c.live, b.1 ≤ address ∧ address < b.1 + b.2

def segmentsFrom (m : Mem) : ℕ → ℕ → List (ℕ × SegData)
  | 0, _ => []
  | fuel + 1, a =>
    (a, (header m a).data) ::
      if (header m a).next = 0 then [] else segmentsFrom m fuel (header m a).next

def segments (h : Heap β) : List (ℕ × SegData) := segmentsFrom h.mem h.heapEnd h.heapStart

/-- The steps that keep the headers truthful: an allocation that splits leaves a rest of at
    least its own length, and a free finds nothing in use behind it. -/
def Truthful (c : Client β) : HeapOp → Prop
  | .malloc size => MallocSafe (segments c.heap) c.heap.heapEnd size
  | .free addr =>
    let next := hdrNext c.heap (wrapSub addr hdrSize)
    next = 0 ∨ hdrFree c.heap next = true
  | .write _ _ => True

def Along (mapPage : ℕ → β → β) (fuel : ℕ) (P : Client β → HeapOp → Prop) :
    List HeapOp → Client β → Prop
  | [], _ => True
  | op :: ops, c =>
    P c op ∧ ∀ c', heapStep mapPage fuel c op = some c' → Along mapPage fuel P ops c'

/-- Live blocks are disjoint, lie inside the heap and overlap no header reachable from
    `g_HeapStart`. -/
structure HeapSafe (c : Client β) : Prop where
  disjoint : c.live.Pairwise fun b b' => b.1 + b.2 ≤ b'.1 ∨ b'.1 + b'.2 ≤ b.1
  inside : ∀ b ∈ c.live, c.heap.heapStart ≤ b.1 ∧ b.1 + b.2 ≤ c.heap.heapEnd
  headers : ∀ b ∈ c.live, ∀ a, Reachable (header c.heap.mem) c.heap.heapStart a →
    b.1 + b.2 ≤ a ∨ a + 32 ≤ b.1

/-- Every live block lies in a segment of its own that is in use. -/
structure ClientInvariant (c : Client β) (segs : List (ℕ × SegData)) : Prop where
  represents : Represents c.heap segs
  low : 24 ≤ c.heap.heapStart
  blocks : ∀ b ∈ c.live, ∃ x ∈ segs, x.1 + 32 = b.1 ∧ x.2.free = false ∧ b.2 ≤ x.2.lenght
  distinct : c.live.Pairwise fun b b' => b.1 ≠ b'.1

theorem ClientInvariant.safe {c : Client β} {segs : List (ℕ × SegData)}
    (I : ClientInvariant c segs) : HeapSafe c := by
  have hlaid := I.represents.laid
  refine ⟨?_, ?_, ?_⟩
  · refine I.distinct.imp_of_mem fun {b b'} hb hb' hne => ?_
    obtain ⟨x, hx, hxb, _, hxl⟩ := I.blocks b hb
    obtain ⟨y, hy, hyb, _, hyl⟩ := I.blocks b' hb'
    obtain rfl | hxy := hlaid.apart hx hy
    · exact absurd (hxb.symm.trans hyb) hne
    · omega
  · intro b hb
    obtain ⟨x, hx, hxb, _, hxl⟩ := I.blocks b hb
    have := hlaid.mem hx
    omega
  · intro b hb a ha
    obtain ⟨x, hx, hxb, _, hxl⟩ := I.blocks b hb
    rw [← I.represents.start] at ha
    obtain ⟨y, hy, rfl⟩ := I.represents.links.reachable I.represents.nonempty ha
    obtain rfl | hxy := hlaid.apart hx hy
    · omega
    · omega

theorem segmentsFrom_eq {m : Mem} {p fuel : ℕ} {segs : List (ℕ × SegData)}
    (hl : Links (header m) p segs 0) (hne : segs ≠ []) (h0 : ∀ x ∈ segs, x.1 ≠ 0)
    (hfuel : segs.length ≤ fuel) : segmentsFrom m fuel (first segs 0) = segs := by
  induction segs generalizing p fuel with
  | nil => exact absurd rfl hne
  | cons x xs ih =>
    obtain ⟨fuel, rfl⟩ := Nat.exists_eq_add_one_of_ne_zero (show fuel ≠ 0 by
      rw [List.length_cons] at hfuel
      omega)
    rw [List.length_cons] at hfuel
    change segmentsFrom m (fuel + 1) x.1 = _
    rw [segmentsFrom, hl.1]
    cases xs with
    | nil => rfl
    | cons y ys =>
      have hy0 : first (y :: ys) 0 ≠ 0 := h0 y (by simp)
      simp only [if_neg hy0]
      rw [ih hl.2 (by simp) (fun z hz => h0 z (List.mem_cons_of_mem _ hz)) (by omega)]

theorem segments_eq {h : Heap β} {segs : List (ℕ × SegData)} (R : Represents h segs) :
    segments h = segs := by
  have hlen := R.laid.length
  rw [segments, ← R.start]
  exact segmentsFrom_eq R.links R.nonempty R.addr_ne (by omega)

theorem freedSegs_kept {xs ys : List (ℕ × SegData)} {a : ℕ} {d : SegData} {y : ℕ × SegData}
    (hy : y ∈ xs ++ (a, d) :: ys) (hya : y.1 ≠ a) (hfree : y.2.free = false)
    (hnext : ∀ z ∈ ys.head?, z.2.free = true) : y ∈ freedSegs xs a d.lenght ys := by
  obtain hx | hx := List.mem_append.1 hy
  · cases ys with
    | nil => exact mergeInto_kept hx hfree
    | cons z ys => exact List.mem_append_left _ (mergeInto_kept hx hfree)
  · obtain rfl | hx := List.mem_cons.1 hx
    · exact absurd rfl hya
    · cases ys with
      | nil => cases hx
      | cons z ys =>
        obtain rfl | hx := List.mem_cons.1 hx
        · rw [hnext y rfl] at hfree
          cases hfree
        · exact List.mem_append_right _ hx

section Steps
variable {mapPage : ℕ → β → β} {fuel : ℕ} {c : Client β} {segs : List (ℕ × SegData)}

theorem malloc_step (I : ClientInvariant c segs) (hfuel : 2 ^ 64 ≤ fuel) {size : ℕ}
    (hallowed : Allowed c (.malloc size)) (htruthful : Truthful c (.malloc size)) :
    ∃ c' segs', heapStep mapPage fuel c (.malloc size) = some c' ∧ ClientInvariant c' segs' := by
  rw [Truthful, segments_eq I.represents] at htruthful
  by_cases hr : roundUp 0x10 size = 0
  · obtain ⟨fuel, rfl⟩ := Nat.exists_eq_add_one_of_ne_zero (show fuel ≠ 0 by omega)
    have hnull : memMalloc mapPage (fuel + 1) size c.heap = some (0, c.heap) := by
      rw [memMalloc, if_pos hr]
    exact ⟨c, segs, by rw [heapStep, hnull]; rfl, I⟩
  · have hlen := I.represents.laid.length
    have htop := I.represents.top
    obtain ⟨p, h', segs', e, H⟩ := memMalloc_spec mapPage fuel
      I.represents I.low hallowed hr htruthful (by have := I.represents.base; omega)
    obtain ⟨x, hx, hxp, hxf, hxl⟩ := H.block
    have hsize := (roundUp_block size hallowed hr).2.1
    have hp : p ≠ 0 := by omega
    refine ⟨⟨h', (p, size) :: c.live⟩, segs', ?_, H.represents, H.start ▸ I.low, ?_, ?_⟩
    · rw [heapStep, e]
      simp only [if_neg hp]
    · intro b hb
      obtain rfl | hb := List.mem_cons.1 hb
      · exact ⟨x, hx, hxp, hxf, hsize.trans hxl⟩
      · obtain ⟨y, hy, hyb, hyf, hyl⟩ := I.blocks b hb
        exact ⟨y, H.kept y hy hyf, hyb, hyf, hyl⟩
    · refine List.pairwise_cons.2 ⟨fun b hb => ?_, I.distinct⟩
      obtain ⟨y, hy, hyb, hyf, _⟩ := I.blocks b hb
      rw [← hyb]
      exact (H.fresh y hy hyf).symm

theorem free_step (I : ClientInvariant c segs) {addr : ℕ} (hallowed : Allowed c (.free addr))
    (htruthful : Truthful c (.free addr)) :
    ∃ c' segs', heapStep mapPage fuel c (.free addr) = some c' ∧ ClientInvariant c' segs' := by
  obtain ⟨b, hb, rfl⟩ := hallowed
  obtain ⟨⟨a, d⟩, hx, hxb, hxf, _⟩ := I.blocks b hb
  change a + 32 = b.1 at hxb
  obtain ⟨xs, ys, rfl⟩ := List.append_of_mem hx
  have hplaced := I.represents.placed
  have hend := hplaced.after.le
  have htop := I.represents.top
  have hseg : wrapSub b.1 hdrSize = a := by
    rw [hdrSize, wrapSub_of_le (by omega) (by omega)]
    omega
  have hnext : ∀ z ∈ ys.head?, z.2.free = true := by
    intro z hz
    have hnode : hdrNext c.heap a = first ys 0 := by rw [hdrNext_eq, hplaced.node]
    rw [Truthful, hseg, hnode] at htruthful
    cases ys with
    | nil => cases hz
    | cons y ys =>
      obtain rfl : y = z := by simpa using hz
      change y.1 = 0 ∨ hdrFree c.heap y.1 = true at htruthful
      have hy0 := I.represents.cells_pos y.1 ⟨y, by simp, rfl⟩
      have hfree := htruthful.resolve_left hy0.ne'
      have hy := (links_append.1 I.represents.links).2.2.1
      rw [hdrFree_eq, hy] at hfree
      exact hfree
  obtain ⟨R, hbounds⟩ := memFree_spec I.represents
  rw [hxb] at R hbounds
  have hlow := hbounds.heapStart.symm ▸ I.low
  have hblocks : ∀ b' ∈ c.live.filter (·.1 ≠ b.1), ∃ x ∈ freedSegs xs a d.lenght ys,
      x.1 + 32 = b'.1 ∧ x.2.free = false ∧ b'.2 ≤ x.2.lenght := by
    intro b' hb'
    obtain ⟨hb', hne⟩ := List.mem_filter.1 hb'
    obtain ⟨y, hy, hyb, hyf, hyl⟩ := I.blocks b' hb'
    have hne' : b'.1 ≠ b.1 := by simpa using hne
    exact ⟨y, freedSegs_kept hy (by omega) hyf hnext, hyb, hyf, hyl⟩
  generalize hfreed : memFree b.1 c.heap = freed at R hlow
  refine ⟨⟨freed, c.live.filter (·.1 ≠ b.1)⟩, freedSegs xs a d.lenght ys, ?_, R, hlow, hblocks,
    I.distinct.filter _⟩
  rw [heapStep, hfreed]

theorem write_step (I : ClientInvariant c segs) {address : ℕ} {value : Byte}
    (hallowed : Allowed c (.write address value)) :
    ∃ c' segs', heapStep mapPage fuel c (.write address value) = some c' ∧
      ClientInvariant c' segs' := by
  obtain ⟨b, hb, hlo, hhi⟩ := hallowed
  obtain ⟨x, hx, hxb, _, hxl⟩ := I.blocks b hb
  have hlaid := I.represents.laid
  have htop := I.represents.top
  have hxend := (hlaid.mem hx).2
  have hheader : ∀ y ∈ segs,
      header (store8 c.heap.mem address value) y.1 = header c.heap.mem y.1 := by
    intro y hy
    have hyend := (hlaid.mem hy).2
    refine header_congr (fun z hz hz' => Function.update_of_ne ?_ _ _) (by omega)
    rw [wrap_of_lt (by omega)]
    obtain rfl | hxy := hlaid.apart hx hy <;> omega
  have R := I.represents
  exact ⟨_, segs, rfl, ⟨R.links.congr hheader, R.nonempty, R.start, R.last, R.laid, R.base, R.top⟩,
    I.low, I.blocks, I.distinct⟩

theorem heapStep_spec (I : ClientInvariant c segs) (hfuel : 2 ^ 64 ≤ fuel) (op : HeapOp)
    (hallowed : Allowed c op) (htruthful : Truthful c op) :
    ∃ c' segs', heapStep mapPage fuel c op = some c' ∧ ClientInvariant c' segs' := by
  cases op with
  | malloc size => exact malloc_step I hfuel hallowed htruthful
  | free addr => exact free_step I hallowed htruthful
  | write address value => exact write_step I hallowed

theorem heapRun_spec (I : ClientInvariant c segs) (hfuel : 2 ^ 64 ≤ fuel) (ops : List HeapOp)
    (hops : Along mapPage fuel (fun c op => Allowed c op ∧ Truthful c op) ops c) :
    ∃ c' segs', heapRun mapPage fuel ops c = some c' ∧ ClientInvariant c' segs' := by
  induction ops generalizing c segs with
  | nil => exact ⟨c, segs, rfl, I⟩
  | cons op ops ih =>
    obtain ⟨⟨hallowed, htruthful⟩, hrest⟩ := hops
    obtain ⟨c1, segs1, e1, I1⟩ := heapStep_spec I hfuel op hallowed htruthful
    obtain ⟨c2, segs2, e2, I2⟩ := ih I1 (hrest c1 e1)
    exact ⟨c2, segs2, by rw [heapRun, e1]; exact e2, I2⟩

theorem Along.take {P : Client β → HeapOp → Prop} {ops : List HeapOp} {c : Client β}
    (h : Along mapPage fuel P ops c) (k : ℕ) : Along mapPage fuel P (ops.take k) c := by
  induction ops generalizing c k with
  | nil => rwa [List.take_nil]
  | cons op ops ih =>
    cases k with
    | zero => trivial
    | succ k => exact ⟨h.1, fun c' hc' => ih (h.2 c' hc') k⟩

theorem Along.mono {P Q : Client β → HeapOp → Prop} {ops : List HeapOp}
    (h : Along mapPage fuel P ops c) (hPQ : ∀ c op, P c op → Q c op) :
    Along mapPage fuel Q ops c := by
  induction ops generalizing c with
  | nil => trivial
  | cons op ops ih => exact ⟨hPQ c op h.1, fun c' hc' => ih (h.2 c' hc')⟩

end Steps

def started (mapPage : ℕ → β → β) (base pageCount : ℕ) (h : Heap β) : Client β :=
  ⟨memInitializeHeap mapPage base pageCount h, []⟩

theorem memInitializeHeap_represents (mapPage : ℕ → β → β) {base pageCount : ℕ} (h : Heap β)
    (hbase : 24 ≤ base) (hcount : 1 ≤ pageCount) (htop : base + pageCount * 4096 < 2 ^ 64) :
    Represents (memInitializeHeap mapPage base pageCount h)
      [(base, ⟨pageCount * 4096 - 32, true⟩)] := by
  have hlen : wrap (pageCount * frameSize) = pageCount * 4096 := wrap_of_lt (by
    unfold frameSize
    omega)
  have hend : wrap (base + pageCount * 4096) = base + pageCount * 4096 := wrap_of_lt htop
  have hrest : wrapSub (pageCount * 4096) hdrSize = pageCount * 4096 - 32 := by
    rw [hdrSize, wrapSub_of_le (by omega) (by omega)]
  rw [memInitializeHeap]
  simp only [hlen, hend, hrest, mapPages_eq mapPage _ h (show base < 2 ^ 64 by omega)]
  set h0 : Heap β := ⟨h.mem, base, base + pageCount * 4096, h.lastHdr, h.derefs,
    mapEnv mapPage base pageCount h.env⟩
  have hS : Cells (· = base) := by
    refine ⟨?_, ?_⟩
    · rintro a rfl
      omega
    · rintro a c rfl rfl
      exact .inl rfl
  have hset : header (setFree base true (setLast base 0 (setNext base 0
      (setLenght base (pageCount * 4096 - 32) h0)))).mem base =
      ⟨⟨pageCount * 4096 - 32, true⟩, 0, 0⟩ := by
    rw [header_setFree hS rfl rfl, if_pos rfl, header_setLast hS rfl rfl (by decide), if_pos rfl,
      header_setNext hS rfl rfl (by decide), if_pos rfl,
      header_setLenght hS rfl rfl (by omega), if_pos rfl]
  have hfit : base + 32 + (pageCount * 4096 - 32) ≤ base + pageCount * 4096 := by omega
  have hpos : 0 < base := by omega
  exact ⟨⟨hset, trivial⟩, by simp, rfl, rfl, ⟨le_rfl, hfit⟩, hpos, htop⟩

theorem started_invariant (mapPage : ℕ → β → β) (h : Heap β) {base pageCount : ℕ}
    (hcount : 1 ≤ pageCount) (hbase : 24 ≤ base) (htop : base + pageCount * 4096 < 2 ^ 64) :
    ClientInvariant (started mapPage base pageCount h)
      [(base, ⟨pageCount * 4096 - 32, true⟩)] := by
  have R := memInitializeHeap_represents mapPage h hbase hcount htop
  have hstart : base = (memInitializeHeap mapPage base pageCount h).heapStart := R.start
  have hlow : 24 ≤ (memInitializeHeap mapPage base pageCount h).heapStart := hstart ▸ hbase
  exact ⟨R, hlow, (fun b hb => by cases hb), .nil⟩

/-- In every run whose steps keep the headers truthful, the live blocks are safe in every state
    reached, and every call returns. -/
theorem heapRun_safe (mapPage : ℕ → β → β) (h : Heap β) (base pageCount fuel : ℕ)
    (ops : List HeapOp) (hcount : 1 ≤ pageCount) (hbase : 24 ≤ base)
    (htop : base + pageCount * 4096 < 2 ^ 64) (hfuel : 2 ^ 64 ≤ fuel)
    (hops : Along mapPage fuel (fun c op => Allowed c op ∧ Truthful c op) ops
      (started mapPage base pageCount h)) :
    ∀ k, ∃ c, heapRun mapPage fuel (ops.take k) (started mapPage base pageCount h) = some c ∧
      HeapSafe c := by
  intro k
  have I := started_invariant mapPage h hcount hbase htop
  obtain ⟨c, segs, e, I'⟩ := heapRun_spec I hfuel (ops.take k) (hops.take k)
  exact ⟨c, e, I'.safe⟩

section Examples

def blankHeap : Heap Unit := ⟨fun _ => 0#8, 0, 0, 0, [], ()⟩

def bootHeap : Client Unit := started (fun _ e => e) 0x100000000000 0x10 blankHeap

instance (c : Client β) (addr : ℕ) : Decidable (Allowed c (.free addr)) :=
  inferInstanceAs (Decidable (∃ b ∈ c.live, b.1 = addr))

instance (c : Client β) (addr : ℕ) : Decidable (Truthful c (.free addr)) :=
  inferInstanceAs (Decidable (_ ∨ _))

theorem heapRun_safe_reuse : ∃ c, heapRun (fun _ e => e) (2 ^ 64)
    [.malloc 32000, .free 0x100000000020] bootHeap = some c ∧ HeapSafe c := by
  have hmalloc : Truthful bootHeap (.malloc 32000) := by
    rw [Truthful, bootHeap, started, segments_eq (memInitializeHeap_represents _ blankHeap
      (by decide) (by decide) (by decide))]
    exact .inr (show SplitsWell (16 * 4096 - 32) (roundUp 0x10 32000) by decide)
  have hfree : (heapStep (fun _ e => e) (2 ^ 64) bootHeap (.malloc 32000)).all (fun c =>
      decide (Allowed c (.free 0x100000000020) ∧ Truthful c (.free 0x100000000020))) := by
    decide +kernel
  have hops : Along (fun _ e => e) (2 ^ 64) (fun c op => Allowed c op ∧ Truthful c op)
      [.malloc 32000, .free 0x100000000020] bootHeap := by
    refine ⟨⟨show 32000 < 2 ^ 64 by decide, hmalloc⟩, fun c hc => ⟨?_, fun _ _ => trivial⟩⟩
    rw [hc] at hfree
    exact of_decide_eq_true hfree
  exact heapRun_safe (fun _ e => e) blankHeap 0x100000000000 0x10 (2 ^ 64) _ (by decide)
    (by decide) (by decide) le_rfl hops 2

/-- The header that the first call splits off claims to be as long as the block, so the second
    block ends behind the heap. -/
theorem heapRun_unsafe : ∃ ops : List HeapOp, Along (fun _ e => e) (2 ^ 64) Allowed ops bootHeap ∧
    ∃ c, heapRun (fun _ e => e) (2 ^ 64) ops bootHeap = some c ∧ ¬ HeapSafe c := by
  have hsize : 65000 < 2 ^ 64 := by decide
  refine ⟨[.malloc 65000, .malloc 65000],
    ⟨hsize, fun _ _ => ⟨hsize, fun _ _ => trivial⟩⟩, ?_⟩
  have hrun : (heapRun (fun _ e => e) (2 ^ 64) [.malloc 65000, .malloc 65000] bootHeap).map
      (fun c => (c.live, c.heap.heapEnd)) =
        some ([(0x10000000fe30, 65000), (0x100000000020, 65000)], 0x100000010000) := by
    decide +kernel
  obtain ⟨c, hc, hfacts⟩ := Option.map_eq_some_iff.1 hrun
  obtain ⟨hlive, hend⟩ := Prod.mk.inj hfacts
  refine ⟨c, hc, fun hsafe => ?_⟩
  have hinside := (hsafe.inside (0x10000000fe30, 65000) (by simp [hlive])).2
  rw [hend] at hinside
  omega

end Examples

end Rizzos.HeapRuns
