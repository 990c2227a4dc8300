import Rizzos.KernelMemory
import Rizzos.HeapAllocation

set_option autoImplicit false

/-! The kernel after boot: the heap, the page tables and the page frame allocator together. -/
namespace Rizzos.HeapBacking
open ByteMemory Memory UtilsBitmap PageFrameAllocator PageFrameRequests PageFrameInit KernelFrames
  TableTree Paging PageTableManager PageTableTree PageTableMap PageTableRuns PageFrameSupply
  KernelMemory KernelHeap HeapOperations HeapAllocation

section Bounds
variable {β : Type}

def expansionPages (lenght : ℕ) : ℕ := roundUp frameSize lenght / frameSize

theorem memExpandHeap_bounds (mapPage : ℕ → β → β) (lenght : ℕ) {h : Heap β}
    (hend : h.heapEnd < 2 ^ 64) :
    (memExpandHeap mapPage lenght h).heapStart = h.heapStart ∧
      (memExpandHeap mapPage lenght h).heapEnd =
        wrap (h.heapEnd + expansionPages lenght * frameSize) ∧
      (memExpandHeap mapPage lenght h).env =
        mapEnv mapPage h.heapEnd (expansionPages lenght) h.env := by
  set h' : Heap β := { h with
    env := mapEnv mapPage h.heapEnd (expansionPages lenght) h.env
    heapEnd := wrap (h.heapEnd + expansionPages lenght * frameSize) } with hh'
  have hbounds : SameBounds h' (memExpandHeap mapPage lenght h) := by
    rw [memExpandHeap]
    simp only [mapPages_eq mapPage _ h hend]
    exact (sameBounds_setFree _ _ _).trans ((sameBounds_setLast _ _ _).trans
      ((sameBounds_setNext _ _ _).trans ((sameBounds_setLastHdr _ _).trans
      ((sameBounds_setNext _ _ _).trans ((sameBounds_setLenght _ _ _).trans
      (sameBounds_combineBackward _ _))))))
  exact ⟨hbounds.heapStart, hbounds.heapEnd, hbounds.env⟩

end Bounds

/-- A fresh page for the heap: its frame is requested before the call that maps it. -/
def mapPage (pml4 virtualMemory : ℕ) (s : Machine Pfa) : Machine Pfa :=
  let (page, s) := pfaRequestPage s
  ptmMapMemory pfaRequestPage pml4 virtualMemory page s

/-- The heap in the machine around it, and the frames that other callers of `pfaRequestPage`
    got from it, newest first. -/
structure Kernel where
  heap : Heap (Machine Pfa)
  handed : List ℕ

/-- What happens after boot. The last case is a write through an address of the heap, by the
    heap itself or by its users. -/
inductive KernelOp where
  | malloc (size : ℕ)
  | expandHeap (lenght : ℕ)
  | requestPage
  | mapMemory (virtualMemory physicalMemory : ℕ)
  | heapStore (virtualAddress : ℕ) (value : Byte)

/-- A call that does not return and a write to an address without translation give `none`. -/
def kernelStep (pml4 fuel : ℕ) (k : Kernel) : KernelOp → Option Kernel
  | .malloc size =>
    match memMalloc (mapPage pml4) fuel size k.heap with
    | none => none
    | some (_, heap) => some ⟨heap, k.handed⟩
  | .expandHeap lenght => some ⟨memExpandHeap (mapPage pml4) lenght k.heap, k.handed⟩
  | .requestPage =>
    let (page, s) := pfaRequestPage k.heap.env
    some ⟨{ k.heap with env := s }, page :: k.handed⟩
  | .mapMemory virtualMemory physicalMemory =>
    let s := ptmMapMemory pfaRequestPage pml4 virtualMemory physicalMemory k.heap.env
    some ⟨{ k.heap with env := s }, k.handed⟩
  | .heapStore virtualAddress value =>
    match translate k.heap.env.mem pml4 virtualAddress with
    | none => none
    | some t =>
      let m := store8 k.heap.env.mem (t.frame + virtualAddress % 4096) value
      some ⟨{ k.heap with env := ⟨m, k.heap.env.alloc⟩ }, k.handed⟩

def kernelRun (pml4 fuel : ℕ) : List KernelOp → Kernel → Option Kernel
  | [], k => some k
  | op :: ops, k =>
    match kernelStep pml4 fuel k op with
    | none => none
    | some k => kernelRun pml4 fuel ops k

def heapBase : ℕ := 0x100000000000

/-- The top table and the kernel after `InitializeMemory` and `MEM_InitializeHeap`. -/
def kernelBoot (b : BootLayout) (m heapMem : Mem) : ℕ × Kernel :=
  let (pml4, s) := initializeMemory b (entry m)
  (pml4, ⟨memInitializeHeap (mapPage pml4) heapBase 0x10 ⟨heapMem, 0, 0, 0, [], s⟩, []⟩)

/-- Other callers map addresses outside the heap; the processor looks at 48 bits of them. -/
def Permitted (k : Kernel) : KernelOp → Prop
  | .malloc _ | .expandHeap _ | .requestPage => True
  | .mapMemory virtualMemory _ =>
    virtualMemory % 2 ^ 48 < k.heap.heapStart ∨ k.heap.heapEnd ≤ virtualMemory % 2 ^ 48
  | .heapStore virtualAddress _ =>
    k.heap.heapStart ≤ virtualAddress ∧ virtualAddress < k.heap.heapEnd

/-- The end of the heap stays below `2 ^ 47` and every step is permitted. -/
def PermittedRun (pml4 fuel : ℕ) : List KernelOp → Kernel → Prop
  | [], k => k.heap.heapEnd < 2 ^ 47
  | op :: ops, k => k.heap.heapEnd < 2 ^ 47 ∧ Permitted k op ∧
    ∀ k', kernelStep pml4 fuel k op = some k' → PermittedRun pml4 fuel ops k'

section Backing
variable {bitmap : Bitmap} {B : Set ℕ} {pml4 : ℕ} {s : Machine Pfa} {T : Set ℕ} {n : ℕ}
  {handed : List ℕ}

def leaf (pml4 : ℕ) (m : Mem) (i : ℕ) : Option ℕ :=
  lookup (entries m) pml4 (path (heapBase + 4096 * i))

/-- Each of the `n` pages of the heap has a frame of its own, which is no table and was given
    to nobody else. -/
structure Backed (bitmap : Bitmap) (B : Set ℕ) (pml4 : ℕ) (s : Machine Pfa) (handed : List ℕ)
    (T : Set ℕ) (n : ℕ) : Prop where
  own : Handed bitmap B s T
  tree : TreeInvariant pml4 T s.mem
  few : n ≤ s.alloc.requested.length
  elsewhere : ∀ page ∈ handed, page ∈ T
  pages : heapBase + 4096 * n ≤ 2 ^ 47 → ∀ i < n, ∃ f, leaf pml4 s.mem i = some f ∧ f ∈ T ∧
    ¬ IsTable (entries s.mem) pml4 4 f ∧ f ∉ handed
  apart : heapBase + 4096 * n ≤ 2 ^ 47 → ∀ i < n, ∀ j < n,
    leaf pml4 s.mem i = leaf pml4 s.mem j → i = j

theorem request_tree (own : Handed bitmap B s T) (tree : TreeInvariant pml4 T s.mem)
    (hserved : Served (pfaRequestPage s).2.alloc) :
    TreeInvariant pml4 (insert (pfaRequestPage s).1 T) (pfaRequestPage s).2.mem ∧
      (∀ t, IsTable (entries (pfaRequestPage s).2.mem) pml4 4 t ↔
        IsTable (entries s.mem) pml4 4 t) ∧
      ∀ q : List ℕ, q.length ≤ 4 →
        lookup (entries (pfaRequestPage s).2.mem) pml4 q = lookup (entries s.mem) pml4 q := by
  have hagree : ∀ t, IsTable (entries s.mem) pml4 4 t →
      Agree s.mem (pfaRequestPage s).2.mem t 4096 := fun t ht x hlo hhi =>
    (pfa_supply bitmap B).kept s T x own hserved (.inr ⟨t, tree.owned t ht, hlo, hhi⟩)
  have hentries := tree.entries_congr hagree
  obtain ⟨_, howned, hseparate, hflags⟩ := tree.congr hagree
  have hown := own.request hserved
  exact ⟨⟨fun t ht => hown.frame ht, fun t ht => .inr (howned t ht), hseparate, hflags⟩,
    fun t => isTable_congr hentries, fun q hq => lookup_congr hentries hq⟩

theorem Backed.grow (h : Backed bitmap B pml4 s handed T n) {s' : Machine Pfa} {T' : Set ℕ}
    {handed' : List ℕ} (own : Handed bitmap B s' T') (tree : TreeInvariant pml4 T' s'.mem)
    (hsub : T ⊆ T') (htables : ∀ f ∈ T, IsTable (entries s'.mem) pml4 4 f →
      IsTable (entries s.mem) pml4 4 f)
    (hhanded : ∀ page ∈ handed', page ∈ handed ∨ page ∈ T' ∧ page ∉ T)
    (hleaf : heapBase + 4096 * n ≤ 2 ^ 47 → ∀ i < n, leaf pml4 s'.mem i = leaf pml4 s.mem i) :
    Backed bitmap B pml4 s' handed' T' n := by
  refine ⟨own, tree, h.few.trans (h.own.length_mono own hsub), ?_, ?_, ?_⟩
  · intro page hpage
    obtain hold | ⟨hnew, _⟩ := hhanded page hpage
    · exact hsub (h.elsewhere page hold)
    · exact hnew
  · intro hend i hi
    obtain ⟨f, hf, hT, htable, hnot⟩ := h.pages hend i hi
    refine ⟨f, by rw [hleaf hend i hi, hf], hsub hT, fun ht => htable (htables f hT ht), ?_⟩
    intro hf'
    obtain hold | ⟨_, hnew⟩ := hhanded f hf'
    · exact hnot hold
    · exact hnew hT
  · intro hend i hi j hj e
    rw [hleaf hend i hi, hleaf hend j hj] at e
    exact h.apart hend i hi j hj e

theorem Backed.request (h : Backed bitmap B pml4 s handed T n) {handed' : List ℕ}
    (hhanded : ∀ page ∈ handed', page ∈ handed ∨ page = (pfaRequestPage s).1)
    (hserved : Served (pfaRequestPage s).2.alloc) :
    Backed bitmap B pml4 (pfaRequestPage s).2 handed' (insert (pfaRequestPage s).1 T) n := by
  obtain ⟨htree, htables, hlookup⟩ := request_tree h.own h.tree hserved
  have hfresh := (h.own.toRecorded.request hserved).2
  refine h.grow (h.own.request hserved) htree (Set.subset_insert _ _)
    (fun f _ hf => (htables f).1 hf) (fun page hpage => ?_) fun _ i _ => hlookup _ (by simp [path])
  obtain hold | rfl := hhanded page hpage
  · exact .inl hold
  · exact .inr ⟨Set.mem_insert _ _, hfresh⟩

theorem Backed.mapMemory (h : Backed bitmap B pml4 s handed T n)
    (virtualMemory physicalMemory : ℕ)
    (hserved : Served (ptmMapMemory pfaRequestPage pml4 virtualMemory physicalMemory s).alloc)
    (houtside : heapBase + 4096 * n ≤ 2 ^ 47 → virtualMemory % 2 ^ 48 < heapBase ∨
      heapBase + 4096 * n ≤ virtualMemory % 2 ^ 48) :
    ∃ T', Backed bitmap B pml4
      (ptmMapMemory pfaRequestPage pml4 virtualMemory physicalMemory s) handed T' n := by
  obtain ⟨T', ha, hleaf, _⟩ := ptmMapMemory_spec (pfa_supply bitmap B) virtualMemory
    physicalMemory h.own h.tree hserved
  refine ⟨T', h.grow ha.own ha.tree ha.sub (fun f hf ht => ?_) (fun _ => .inl) fun hend i hi => ?_⟩
  · exact ((ha.tables f).1 ht).resolve_right fun hnew => hnew.2 hf
  · have hout := houtside hend
    refine (hleaf _ rfl).trans (if_neg ?_)
    rw [← samePage_iff_path, SamePage]
    unfold heapBase at *
    omega

theorem Backed.mapPage (h : Backed bitmap B pml4 s handed T n)
    (hserved : Served (mapPage pml4 (heapBase + 4096 * n) s).alloc) :
    ∃ T', Backed bitmap B pml4 (mapPage pml4 (heapBase + 4096 * n) s) handed T' (n + 1) := by
  have sup := pfa_supply bitmap B
  change Served (ptmMapMemory pfaRequestPage pml4 (heapBase + 4096 * n) (pfaRequestPage s).1
    (pfaRequestPage s).2).alloc at hserved
  change ∃ T', Backed bitmap B pml4 (ptmMapMemory pfaRequestPage pml4 (heapBase + 4096 * n)
    (pfaRequestPage s).1 (pfaRequestPage s).2) handed T' (n + 1)
  have hserved1 := ptmMapMemory_good sup.good _ _ _ hserved
  have hfresh := (h.own.toRecorded.request hserved1).2
  have h1 := h.request (fun page (hpage : page ∈ handed) => .inl hpage) hserved1
  have htable1 := mt ((request_tree h.own h.tree hserved1).2.1 (pfaRequestPage s).1).1
    fun ht => hfresh (h.tree.owned _ ht)
  have hlog : (pfaRequestPage s).2.alloc.requested.length = s.alloc.requested.length + 1 := by
    rw [pfaRequestPage_requested, List.length_cons]
  have hleaf1 : ∀ i, leaf pml4 (pfaRequestPage s).2.mem i = leaf pml4 s.mem i :=
    fun i => (request_tree h.own h.tree hserved1).2.2 _ (by simp [path])
  generalize hp : (pfaRequestPage s).1 = p at *
  generalize (pfaRequestPage s).2 = s1 at *
  obtain ⟨T2, ha, hleaf, _⟩ :=
    ptmMapMemory_spec sup (heapBase + 4096 * n) p h1.own h1.tree hserved
  set s2 := ptmMapMemory pfaRequestPage pml4 (heapBase + 4096 * n) p s1
  have hpage : FrameAddress p := h1.own.frame (Set.mem_insert _ _)
  have hold : heapBase + 4096 * n ≤ 2 ^ 47 → ∀ i < n, leaf pml4 s2.mem i = leaf pml4 s1.mem i := by
    intro hend i hi
    refine (hleaf _ rfl).trans (if_neg ?_)
    rw [← samePage_iff_path, SamePage]
    unfold heapBase at *
    omega
  have hnew : leaf pml4 s2.mem n = some p := by
    refine (hleaf _ rfl).trans ?_
    rw [if_pos rfl, hpage.frameOf]
  have h2 : Backed bitmap B pml4 s2 handed T2 n :=
    h1.grow ha.own ha.tree ha.sub (fun f hf ht => ((ha.tables f).1 ht).resolve_right
      fun hnew => hnew.2 hf) (fun _ => .inl) hold
  -- the new frame is none of those of the other pages
  have hother : heapBase + 4096 * n ≤ 2 ^ 47 → ∀ i < n, leaf pml4 s2.mem i ≠ some p := by
    intro hend i hi e
    obtain ⟨f, hf, hT, _⟩ := h.pages hend i hi
    rw [hold hend i hi, hleaf1, hf] at e
    obtain rfl := Option.some.inj e
    exact hfresh hT
  have hfew := h.few
  have hgrow := h1.own.length_mono h2.own ha.sub
  refine ⟨T2, h2.own, h2.tree, by omega, h2.elsewhere, fun hend i hi => ?_,
    fun hend i hi j hj e => ?_⟩
  · obtain hi | rfl := Nat.lt_succ_iff_lt_or_eq.1 hi
    · exact h2.pages (by omega) i hi
    · refine ⟨p, hnew, ha.sub (Set.mem_insert _ _), fun ht => ?_, fun hmem => ?_⟩
      · obtain ht | ⟨_, hnot⟩ := (ha.tables p).1 ht
        · exact htable1 ht
        · exact hnot (Set.mem_insert _ _)
      · exact hfresh (h.elsewhere p hmem)
  · obtain hi | rfl := Nat.lt_succ_iff_lt_or_eq.1 hi
    · obtain hj | rfl := Nat.lt_succ_iff_lt_or_eq.1 hj
      · exact h2.apart (by omega) i hi j hj e
      · exact absurd (e.trans hnew) (hother (by omega) i hi)
    · obtain hj | rfl := Nat.lt_succ_iff_lt_or_eq.1 hj
      · exact absurd (e.symm.trans hnew) (hother (by omega) j hj)
      · rfl

theorem mapPage_served {virtualMemory : ℕ} {s : Machine Pfa}
    (h : Served (HeapBacking.mapPage pml4 virtualMemory s).alloc) : Served s.alloc :=
  (ptmMapMemory_good (pfa_supply ⟨0, 0⟩ ∅).good _ _ _ h).request

theorem mapEnv_served {pos i : ℕ} (h : Served (mapEnv (HeapBacking.mapPage pml4) pos i s).alloc) :
    Served s.alloc := by
  induction i with
  | zero => exact h
  | succ i ih => exact ih (mapPage_served h)

theorem Backed.mapEnv (h : Backed bitmap B pml4 s handed T n) (i : ℕ)
    (hserved : Served (mapEnv (HeapBacking.mapPage pml4) (heapBase + 4096 * n) i s).alloc) :
    ∃ T', Backed bitmap B pml4
      (mapEnv (HeapBacking.mapPage pml4) (heapBase + 4096 * n) i s) handed T' (n + i) := by
  induction i with
  | zero => exact ⟨T, h⟩
  | succ i ih =>
    obtain ⟨T1, h1⟩ := ih (mapPage_served hserved)
    have hfew := h1.few.trans h1.own.length_le
    have hpos : wrap (heapBase + 4096 * n + i * frameSize) = heapBase + 4096 * (n + i) := by
      rw [frameSize, heapBase, wrap_of_lt (by omega)]
      omega
    rw [HeapAllocation.mapEnv, hpos] at hserved ⊢
    exact h1.mapPage hserved

theorem Backed.store (h : Backed bitmap B pml4 s handed T n) {virtualAddress : ℕ}
    (hend : heapBase + 4096 * n ≤ 2 ^ 47) (hlo : heapBase ≤ virtualAddress)
    (hhi : virtualAddress < heapBase + 4096 * n) (value : Byte) :
    ∃ t, translate s.mem pml4 virtualAddress = some t ∧
      Backed bitmap B pml4
        ⟨store8 s.mem (t.frame + virtualAddress % 4096) value, s.alloc⟩ handed T n := by
  obtain ⟨i, hi, hsame⟩ : ∃ i < n, SamePage virtualAddress (heapBase + 4096 * i) := by
    refine ⟨(virtualAddress - heapBase) / 4096, by omega, ?_⟩
    unfold SamePage heapBase at *
    omega
  obtain ⟨f, hf, hT, htable, _⟩ := h.pages hend i hi
  rw [leaf, ← samePage_iff_path.1 hsame] at hf
  obtain ⟨t, ht, hframe, _⟩ := (translate_spec h.tree virtualAddress).1 f hf
  obtain ⟨_, _, hlt⟩ := id (h.own.frame hT)
  set m' := store8 s.mem (t.frame + virtualAddress % 4096) value
  have hoff : ∀ x, ¬ InFrame f x → m' x = s.mem x := by
    intro x hx
    refine Function.update_of_ne (fun e => hx ?_) _ _
    rw [e, hframe, wrap_of_lt (by omega), InFrame]
    omega
  have hagree : ∀ u, IsTable (entries s.mem) pml4 4 u → Agree s.mem m' u 4096 := by
    intro u hu x hxlo hxhi
    refine hoff x fun hin => ?_
    have hne : u ≠ f := fun e => htable (e ▸ hu)
    have := (h.tree.frames u (h.tree.owned u hu)).disjoint (h.own.frame hT) hne
    rw [InFrame] at hin
    omega
  have hentries := h.tree.entries_congr hagree
  have hown : Handed bitmap B ⟨m', s.alloc⟩ T := h.own.write fun x _ hx => hoff x (hx f hT)
  refine ⟨t, ht, h.grow hown (h.tree.congr hagree) subset_rfl
    (fun u _ hu => (isTable_congr hentries).1 hu) (fun _ => .inl) fun _ j _ => ?_⟩
  exact lookup_congr hentries (by simp [path])

end Backing

section Runs
variable {bitmap : Bitmap} {B : Set ℕ} {pml4 fuel : ℕ} {h h' : Heap (Machine Pfa)}
  {handed : List ℕ} {k k' : Kernel}

/-- The heap lies on `n` pages that are backed. -/
def KernelInvariant (bitmap : Bitmap) (B : Set ℕ) (pml4 : ℕ) (h : Heap (Machine Pfa))
    (handed : List ℕ) : Prop :=
  ∃ T n, Backed bitmap B pml4 h.env handed T n ∧ h.heapStart = heapBase ∧
    h.heapEnd = heapBase + 4096 * n

theorem KernelInvariant.heapEnd_lt (H : KernelInvariant bitmap B pml4 h handed) :
    h.heapEnd < 2 ^ 64 := by
  obtain ⟨T, n, hb, _, hend⟩ := H
  have := hb.few.trans hb.own.length_le
  rw [hend, heapBase]
  omega

theorem KernelInvariant.sameBounds (H : KernelInvariant bitmap B pml4 h handed)
    (hs : SameBounds h h') : KernelInvariant bitmap B pml4 h' handed := by
  obtain ⟨T, n, hb, hstart, hend⟩ := H
  refine ⟨T, n, ?_, hs.heapStart.trans hstart, hs.heapEnd.trans hend⟩
  rw [hs.env]
  exact hb

theorem memExpandHeap_invariant (H : KernelInvariant bitmap B pml4 h handed) (lenght : ℕ)
    (hserved : Served (memExpandHeap (mapPage pml4) lenght h).env.alloc) :
    KernelInvariant bitmap B pml4 (memExpandHeap (mapPage pml4) lenght h) handed := by
  obtain ⟨hstart', hend', henv'⟩ := memExpandHeap_bounds (mapPage pml4) lenght H.heapEnd_lt
  obtain ⟨T, n, hb, hstart, hend⟩ := H
  rw [henv', hend] at hserved
  obtain ⟨T', hb'⟩ := hb.mapEnv (expansionPages lenght) hserved
  have hfew := hb'.few.trans hb'.own.length_le
  refine ⟨T', n + expansionPages lenght, ?_, hstart'.trans hstart, ?_⟩
  · rw [henv', hend]
    exact hb'
  · rw [hend', hend, frameSize, heapBase, wrap_of_lt (by omega)]
    omega

theorem memExpandHeap_served (lenght : ℕ) (hend : h.heapEnd < 2 ^ 64)
    (hserved : Served (memExpandHeap (mapPage pml4) lenght h).env.alloc) :
    Served h.env.alloc ∧ (memExpandHeap (mapPage pml4) lenght h).heapEnd < 2 ^ 64 := by
  obtain ⟨_, hend', henv⟩ := memExpandHeap_bounds (mapPage pml4) lenght hend
  rw [henv] at hserved
  exact ⟨mapEnv_served hserved, hend' ▸ wrap_lt _⟩

/-- What one call of `memMalloc` does: nothing, take a segment, or expand the heap and start
    again. -/
theorem memMalloc_cases {mapPage : ℕ → Machine Pfa → Machine Pfa} {size p : ℕ}
    (e : memMalloc mapPage (fuel + 1) size h = some (p, h')) :
    SameBounds h h' ∨ ∃ h1 size', SameBounds h h1 ∧
      memMalloc mapPage fuel size' (memExpandHeap mapPage size' h1) = some (p, h') := by
  rw [memMalloc] at e
  by_cases hzero : roundUp 0x10 size = 0
  · rw [if_pos hzero] at e
    cases e
    exact .inl (.refl _)
  · rw [if_neg hzero] at e
    have hfind := sameBounds_findSegment (roundUp 0x10 size) fuel h.heapStart h
    generalize findSegment (roundUp 0x10 size) fuel h.heapStart h = r at e hfind
    obtain ⟨_ | (_ | seg), h1⟩ := r
    · cases e
    · exact .inr ⟨h1, roundUp 0x10 size, hfind, e⟩
    · obtain ⟨_, rfl⟩ := Prod.mk.inj (Option.some.inj e)
      exact .inl (hfind.trans (sameBounds_takeSegment _ _ _))

theorem memMalloc_served {size p : ℕ} (hend : h.heapEnd < 2 ^ 64)
    (e : memMalloc (mapPage pml4) fuel size h = some (p, h')) (hserved : Served h'.env.alloc) :
    Served h.env.alloc := by
  induction fuel generalizing size h with
  | zero => cases e
  | succ fuel ih =>
    obtain hs | ⟨h1, size', hs, e'⟩ := memMalloc_cases e
    · rwa [hs.env] at hserved
    · rw [← hs.heapEnd] at hend
      rw [← hs.env]
      have hend' : (memExpandHeap (mapPage pml4) size' h1).heapEnd < 2 ^ 64 :=
        (memExpandHeap_bounds (mapPage pml4) size' hend).2.1 ▸ wrap_lt _
      exact (memExpandHeap_served size' hend (ih hend' e')).1

theorem memMalloc_invariant {size p : ℕ} (H : KernelInvariant bitmap B pml4 h handed)
    (e : memMalloc (mapPage pml4) fuel size h = some (p, h')) (hserved : Served h'.env.alloc) :
    KernelInvariant bitmap B pml4 h' handed := by
  induction fuel generalizing size h with
  | zero => cases e
  | succ fuel ih =>
    obtain hs | ⟨h1, size', hs, e'⟩ := memMalloc_cases e
    · exact H.sameBounds hs
    · have H1 := H.sameBounds hs
      have hend : (memExpandHeap (mapPage pml4) size' h1).heapEnd < 2 ^ 64 :=
        (memExpandHeap_bounds (mapPage pml4) size' H1.heapEnd_lt).2.1 ▸ wrap_lt _
      exact ih (memExpandHeap_invariant H1 size' (memMalloc_served hend e' hserved)) e'

theorem kernelStep_cases {op : KernelOp} (e : kernelStep pml4 fuel k op = some k') :
    (∃ size p, op = .malloc size ∧
      memMalloc (mapPage pml4) fuel size k.heap = some (p, k'.heap) ∧ k'.handed = k.handed) ∨
    (∃ lenght, op = .expandHeap lenght ∧
      k'.heap = memExpandHeap (mapPage pml4) lenght k.heap ∧ k'.handed = k.handed) ∨
    (k'.heap.heapStart = k.heap.heapStart ∧ k'.heap.heapEnd = k.heap.heapEnd ∧
      ((op = .requestPage ∧ k'.heap.env = (pfaRequestPage k.heap.env).2 ∧
          k'.handed = (pfaRequestPage k.heap.env).1 :: k.handed) ∨
        (∃ virtualMemory physicalMemory, op = .mapMemory virtualMemory physicalMemory ∧
          k'.heap.env =
            ptmMapMemory pfaRequestPage pml4 virtualMemory physicalMemory k.heap.env ∧
          k'.handed = k.handed) ∨
        ∃ virtualAddress value t, op = .heapStore virtualAddress value ∧
          translate k.heap.env.mem pml4 virtualAddress = some t ∧
          k'.heap.env = ⟨store8 k.heap.env.mem (t.frame + virtualAddress % 4096) value,
            k.heap.env.alloc⟩ ∧
          k'.handed = k.handed)) := by
  cases op with
  | malloc size =>
    rw [kernelStep] at e
    cases hm : memMalloc (mapPage pml4) fuel size k.heap with
    | none =>
      rw [hm] at e
      cases e
    | some r =>
      rw [hm] at e
      have hk := Option.some.inj e
      subst hk
      exact .inl ⟨size, r.1, rfl, hm, rfl⟩
  | expandHeap lenght =>
    rw [kernelStep] at e
    have hk := (Option.some.inj e).symm
    exact .inr (.inl ⟨lenght, rfl, by simp only [hk], by simp only [hk]⟩)
  | requestPage =>
    rw [kernelStep] at e
    have hk := Option.some.inj e
    subst hk
    exact .inr (.inr ⟨rfl, rfl, .inl ⟨rfl, rfl, rfl⟩⟩)
  | mapMemory virtualMemory physicalMemory =>
    rw [kernelStep] at e
    have hk := Option.some.inj e
    subst hk
    exact .inr (.inr ⟨rfl, rfl, .inr (.inl ⟨_, _, rfl, rfl, rfl⟩)⟩)
  | heapStore virtualAddress value =>
    rw [kernelStep] at e
    cases ht : translate k.heap.env.mem pml4 virtualAddress with
    | none =>
      rw [ht] at e
      cases e
    | some t =>
      rw [ht] at e
      have hk := Option.some.inj e
      subst hk
      exact .inr (.inr ⟨rfl, rfl, .inr (.inr ⟨_, _, t, rfl, ht, rfl, rfl⟩)⟩)

/-- Requests are not taken back: if they are served after a step they were before it. -/
theorem kernelStep_served {op : KernelOp} (hend : k.heap.heapEnd < 2 ^ 64)
    (e : kernelStep pml4 fuel k op = some k') (hserved : Served k'.heap.env.alloc) :
    Served k.heap.env.alloc := by
  have sup := pfa_supply ⟨0, 0⟩ ∅
  obtain ⟨size, p, -, hm, -⟩ | ⟨lenght, -, hheap, -⟩ | ⟨-, -, ⟨-, henv, -⟩ |
    ⟨va, pa, -, henv, -⟩ | ⟨va, value, t, -, -, henv, -⟩⟩ := kernelStep_cases e
  · exact memMalloc_served hend hm hserved
  · rw [hheap] at hserved
    exact (memExpandHeap_served lenght hend hserved).1
  · rw [henv] at hserved
    exact hserved.request
  · rw [henv] at hserved
    exact ptmMapMemory_good sup.good va pa _ hserved
  · rw [henv] at hserved
    exact hserved

theorem kernelStep_invariant {op : KernelOp}
    (H : KernelInvariant bitmap B pml4 k.heap k.handed) (hend : k.heap.heapEnd < 2 ^ 47)
    (hop : Permitted k op) (e : kernelStep pml4 fuel k op = some k')
    (hserved : Served k'.heap.env.alloc) : KernelInvariant bitmap B pml4 k'.heap k'.handed := by
  obtain ⟨size, p, rfl, hm, hhanded⟩ | ⟨lenght, rfl, hheap, hhanded⟩ | ⟨hs, hf, hcase⟩ :=
    kernelStep_cases e
  · rw [hhanded]
    exact memMalloc_invariant H hm hserved
  · rw [hhanded]
    rw [hheap] at hserved ⊢
    exact memExpandHeap_invariant H lenght hserved
  obtain ⟨T, n, hb, hstart, hfinish⟩ := H
  obtain ⟨rfl, henv, hhanded⟩ | ⟨va, pa, rfl, henv, hhanded⟩ |
    ⟨va, value, t, rfl, ht, henv, hhanded⟩ := hcase
  · rw [henv] at hserved
    refine ⟨insert (pfaRequestPage k.heap.env).1 T, n, ?_, hs.trans hstart, hf.trans hfinish⟩
    rw [henv, hhanded]
    exact hb.request (fun page hpage => (List.mem_cons.1 hpage).symm) hserved
  · rw [henv] at hserved
    rw [Permitted, hstart, hfinish] at hop
    obtain ⟨T', hb'⟩ := hb.mapMemory va pa hserved fun _ => hop
    refine ⟨T', n, ?_, hs.trans hstart, hf.trans hfinish⟩
    rw [henv, hhanded]
    exact hb'
  · rw [Permitted, hstart, hfinish] at hop
    rw [hfinish] at hend
    obtain ⟨t', ht', hb'⟩ := hb.store hend.le hop.1 hop.2 value
    obtain rfl := Option.some.inj (ht.symm.trans ht')
    refine ⟨T, n, ?_, hs.trans hstart, hf.trans hfinish⟩
    rw [henv, hhanded]
    exact hb'

theorem kernelRun_served {ops : List KernelOp} (hpermitted : PermittedRun pml4 fuel ops k)
    (e : kernelRun pml4 fuel ops k = some k') (hserved : Served k'.heap.env.alloc) :
    Served k.heap.env.alloc := by
  induction ops generalizing k with
  | nil =>
    obtain rfl := Option.some.inj e
    exact hserved
  | cons op ops ih =>
    obtain ⟨hend, _, hrest⟩ := hpermitted
    rw [kernelRun] at e
    cases hs : kernelStep pml4 fuel k op with
    | none =>
      rw [hs] at e
      cases e
    | some k1 =>
      rw [hs] at e
      exact kernelStep_served (by omega) hs (ih (hrest k1 hs) e)

theorem kernelRun_invariant {ops : List KernelOp}
    (H : KernelInvariant bitmap B pml4 k.heap k.handed)
    (hpermitted : PermittedRun pml4 fuel ops k) (e : kernelRun pml4 fuel ops k = some k')
    (hserved : Served k'.heap.env.alloc) :
    KernelInvariant bitmap B pml4 k'.heap k'.handed ∧ k'.heap.heapEnd < 2 ^ 47 := by
  induction ops generalizing k with
  | nil =>
    obtain rfl := Option.some.inj e
    exact ⟨H, hpermitted⟩
  | cons op ops ih =>
    obtain ⟨hend, hop, hrest⟩ := hpermitted
    rw [kernelRun] at e
    cases hs : kernelStep pml4 fuel k op with
    | none =>
      rw [hs] at e
      cases e
    | some k1 =>
      rw [hs] at e
      exact ih (kernelStep_invariant H hend hop hs (kernelRun_served (hrest k1 hs) e hserved))
        (hrest k1 hs) e

end Runs

section Boot
variable (b : BootLayout) (m heapMem : Mem)

theorem memInitializeHeap_bounds {β : Type} (mapPage : ℕ → β → β) (pageCount : ℕ) (h : Heap β) :
    (memInitializeHeap mapPage heapBase pageCount h).heapStart = heapBase ∧
      (memInitializeHeap mapPage heapBase pageCount h).heapEnd =
        wrap (heapBase + wrap (pageCount * frameSize)) ∧
      (memInitializeHeap mapPage heapBase pageCount h).env =
        mapEnv mapPage heapBase pageCount h.env := by
  set h' : Heap β := { h with
    heapStart := heapBase
    heapEnd := wrap (heapBase + wrap (pageCount * frameSize))
    env := mapEnv mapPage heapBase pageCount h.env }
  have hbounds : SameBounds h' (memInitializeHeap mapPage heapBase pageCount h) := by
    rw [memInitializeHeap]
    simp only [mapPages_eq mapPage _ h (show heapBase < 2 ^ 64 by decide)]
    exact (sameBounds_setLenght _ _ _).trans ((sameBounds_setNext _ _ _).trans
      ((sameBounds_setLast _ _ _).trans ((sameBounds_setFree _ _ _).trans
      (sameBounds_setLastHdr _ _))))
  exact ⟨hbounds.heapStart, hbounds.heapEnd, hbounds.env⟩

theorem kernelBoot_eq : kernelBoot b m heapMem = ((initializeMemory b (entry m)).1,
    ⟨memInitializeHeap (mapPage (initializeMemory b (entry m)).1) heapBase 0x10
      ⟨heapMem, 0, 0, 0, [], (initializeMemory b (entry m)).2⟩, []⟩) := by
  simp only [kernelBoot]

theorem kernelBoot_env : (kernelBoot b m heapMem).2.heap.env =
    mapEnv (mapPage (initializeMemory b (entry m)).1) heapBase 0x10
      (initializeMemory b (entry m)).2 := by
  rw [kernelBoot_eq]
  exact (memInitializeHeap_bounds _ _ _).2.2

theorem booted_backed (hserved : Served (initializeMemory b (entry m)).2.alloc) :
    ∃ T, Backed (bootBitmap b) (bootHeld b) (initializeMemory b (entry m)).1
      (initializeMemory b (entry m)).2 [] T 0 := by
  obtain ⟨T, hb⟩ := initializeMemory_booted b m hserved
  exact ⟨T, hb.handed, hb.tree, Nat.zero_le _, fun page hpage => (List.not_mem_nil hpage).elim,
    fun _ i hi => absurd hi (Nat.not_lt_zero i), fun _ i hi => absurd hi (Nat.not_lt_zero i)⟩

/-- Boot leaves sixteen pages that are backed. -/
theorem kernelBoot_invariant (hserved : Served (kernelBoot b m heapMem).2.heap.env.alloc) :
    KernelInvariant (bootBitmap b) (bootHeld b) (kernelBoot b m heapMem).1
      (kernelBoot b m heapMem).2.heap (kernelBoot b m heapMem).2.handed := by
  rw [kernelBoot_env] at hserved
  obtain ⟨T, hb⟩ := booted_backed b m (mapEnv_served hserved)
  obtain ⟨T', hb'⟩ := hb.mapEnv 0x10 hserved
  have henv := kernelBoot_env b m heapMem
  rw [kernelBoot_eq] at henv ⊢
  obtain ⟨hstart, hend, _⟩ := memInitializeHeap_bounds
    (mapPage (initializeMemory b (entry m)).1) 0x10
    ⟨heapMem, 0, 0, 0, [], (initializeMemory b (entry m)).2⟩
  refine ⟨T', 0x10, ?_, hstart, hend.trans (by decide)⟩
  dsimp only at henv ⊢
  rw [henv]
  exact hb'

end Boot

/-! ## How many frames are enough -/

section Enough
variable {bitmap : Bitmap} {B : Set ℕ} {pml4 n : ℕ} {s : Machine Pfa} {T : Set ℕ}
  {handed : List ℕ}

def Enough (bitmap : Bitmap) (B : Set ℕ) (n : ℕ) : Prop :=
  ∀ s T, Handed bitmap B s T → s.alloc.requested.length < n →
    Served (pfaRequestPage s).2.alloc

theorem Enough.level (hn : Enough bitmap B n) (hown : Handed bitmap B s T)
    (table field : ℕ) (hlog : s.alloc.requested.length < n) :
    Served (nextTable pfaRequestPage table field s).2.alloc ∧
      (nextTable pfaRequestPage table field s).2.alloc.requested.length ≤
        s.alloc.requested.length + 1 := by
  cases hpresent : pdeGetFlag (readEntry s.mem table (load64 s.mem field)) .present with
  | true =>
    rw [nextTable_present hpresent]
    exact ⟨hown.served, Nat.le_succ _⟩
  | false =>
    rw [nextTable_absent hpresent]
    refine ⟨hn s T hown hlog, ?_⟩
    dsimp only
    rw [pfaRequestPage_requested, List.length_cons]

theorem Enough.descend (hn : Enough bitmap B n) {virtualMemory field index : ℕ} {p : List ℕ}
    {r : ℕ × Machine Pfa} {T' : Set ℕ}
    (h : Descended (Handed bitmap B) pml4 virtualMemory s T p r T') (hp : p.length < 3)
    (hi : index < 512) (hfield : field + 8 ≤ 32) (hindex : load64 r.2.mem field = index)
    (hlog : r.2.alloc.requested.length < n) :
    ∃ r' T'', nextTable pfaRequestPage r.1 field r.2 = r' ∧ Served r'.2.alloc ∧
      r'.2.alloc.requested.length ≤ r.2.alloc.requested.length + 1 ∧
      Descended (Handed bitmap B) pml4 virtualMemory s T (index :: p) r' T'' := by
  obtain ⟨hserved, hlength⟩ := hn.level h.advance.own r.1 field hlog
  obtain ⟨T'', h'⟩ := h.next (pfa_supply bitmap B) hp hi hfield hindex hserved
  exact ⟨_, T'', rfl, hserved, hlength, h'⟩

theorem Enough.mapMemory (hn : Enough bitmap B n) (hown : Handed bitmap B s T)
    (htree : TreeInvariant pml4 T s.mem) (virtualMemory physicalMemory : ℕ)
    (hlog : s.alloc.requested.length + 3 ≤ n) :
    Served (ptmMapMemory pfaRequestPage pml4 virtualMemory physicalMemory s).alloc ∧
      (ptmMapMemory pfaRequestPage pml4 virtualMemory physicalMemory s).alloc.requested.length ≤
        s.alloc.requested.length + 3 := by
  obtain ⟨hindexed, hadvance, hlookup⟩ := indexed_spec (pfa_supply bitmap B) virtualMemory hown htree
  have h0 : Descended (Handed bitmap B) pml4 virtualMemory s T []
      (pml4, indexed virtualMemory s) T :=
    ⟨hadvance, hindexed, rfl, fun q hq _ => hlookup q hq⟩
  have l0 : (indexed virtualMemory s).alloc.requested.length = s.alloc.requested.length := rfl
  obtain ⟨r1, T1, e1, g1, l1, h1⟩ := hn.descend h0 (by decide) (tableIndex_lt 3 virtualMemory)
    (by decide) hindexed.pdp (by dsimp only; omega)
  obtain ⟨r2, T2, e2, g2, l2, h2⟩ := hn.descend h1 (by simp) (tableIndex_lt 2 virtualMemory)
    (by decide) h1.indexed.pd (by dsimp only at l1; omega)
  obtain ⟨r3, T3, e3, g3, l3, h3⟩ := hn.descend h2 (by simp) (tableIndex_lt 1 virtualMemory)
    (by decide) h2.indexed.pt (by dsimp only at l1; omega)
  have hleaf : leafTable pfaRequestPage pml4 virtualMemory s = r3 := by
    rw [← e3, ← e2, ← e1]
    rfl
  rw [ptmMapMemory_eq, hleaf]
  dsimp only at l1 ⊢
  exact ⟨g3, by omega⟩

theorem Enough.mapPage (hn : Enough bitmap B n) (hown : Handed bitmap B s T)
    (htree : TreeInvariant pml4 T s.mem) (virtualMemory : ℕ)
    (hlog : s.alloc.requested.length + 4 ≤ n) :
    Served (mapPage pml4 virtualMemory s).alloc ∧
      (mapPage pml4 virtualMemory s).alloc.requested.length ≤ s.alloc.requested.length + 4 := by
  have hserved := hn s T hown (by omega)
  have hrequested := congrArg List.length (pfaRequestPage_requested s)
  rw [List.length_cons] at hrequested
  have h := hn.mapMemory (hown.request hserved) (request_tree hown htree hserved).1 virtualMemory
    (pfaRequestPage s).1 (by omega)
  exact ⟨h.1, h.2.trans (by omega)⟩

theorem Enough.mapEnv (hn : Enough bitmap B n) (h : Backed bitmap B pml4 s handed T 0) (i : ℕ)
    (hlog : s.alloc.requested.length + 4 * i ≤ n) :
    Served (mapEnv (HeapBacking.mapPage pml4) heapBase i s).alloc ∧
      (mapEnv (HeapBacking.mapPage pml4) heapBase i s).alloc.requested.length ≤
        s.alloc.requested.length + 4 * i := by
  induction i with
  | zero => exact ⟨h.own.served, le_rfl⟩
  | succ i ih =>
    obtain ⟨hserved, hlength⟩ := ih (by omega)
    obtain ⟨T', h'⟩ := h.mapEnv i hserved
    rw [Nat.mul_zero, Nat.add_zero] at h'
    have hpage := hn.mapPage h'.own h'.tree (wrap (heapBase + i * frameSize))
      (show (HeapAllocation.mapEnv (HeapBacking.mapPage pml4) heapBase i s).alloc.requested.length
        + 4 ≤ n by omega)
    exact ⟨hpage.1, hpage.2.trans (by omega)⟩

/-- With `n` clear frames past the first `0x100`, the first `n` requests are served. -/
theorem enough_of_clear (hclear : LowestClear bitmap B n) (hlow : 0 ∈ B)
    (hn : n ≤ BusySet.freeBelow B (8 * bitmap.size)) : Enough bitmap B n := by
  intro s T h hlog
  have hsize : bitmap.size ≤ 2 ^ 49 := h.size
  refine h.toRecorded.serve hclear hlog ?_
  have hsome : (requestIndex s).1.isSome := by
    rw [requestIndex_held, h.limit_eq, h.count]
    refine (BusySet.lowest_after_isSome_iff _).2 ?_
    omega
  obtain ⟨i, hi⟩ := Option.isSome_iff_exists.1 hsome
  change framePointer (requestIndex s).1 ≠ 0
  have hlt := ((pfaRequestPage_hint s).2 i hi).2.1
  rw [h.limit_eq] at hlt
  rw [hi, framePointer_some (by omega)]
  rw [requestIndex_held, h.limit_eq, h.count] at hi
  obtain ⟨_, hfree, _⟩ := BusySet.lowest_after_eq_some hi
  have hi0 : i ≠ 0 := by
    rintro rfl
    exact hfree hlow
  omega

end Enough

def HeapPage (k : Kernel) (page : ℕ) : Prop :=
  page % 4096 = 0 ∧ k.heap.heapStart ≤ page ∧ page < k.heap.heapEnd

/-- Every page of the heap has a frame to itself: it was requested once, is no table, was given
    to no other caller and is behind no other page of the heap. -/
def HeapBacked (pml4 : ℕ) (k : Kernel) : Prop :=
  ∀ page, HeapPage k page → ∃ f, MapsTo k.heap.env.mem pml4 page f ∧
    k.heap.env.alloc.requested.count f = 1 ∧ ¬ IsTable (entries k.heap.env.mem) pml4 4 f ∧
    f ∉ k.handed ∧
    ∀ other, HeapPage k other → other ≠ page → ¬ MapsTo k.heap.env.mem pml4 other f

theorem KernelInvariant.heapBacked {bitmap : Bitmap} {B : Set ℕ} {pml4 : ℕ} {k : Kernel}
    (H : KernelInvariant bitmap B pml4 k.heap k.handed) (hend : k.heap.heapEnd < 2 ^ 47) :
    HeapBacked pml4 k := by
  obtain ⟨T, n, hb, hstart, hfinish⟩ := H
  have hn : heapBase + 4096 * n ≤ 2 ^ 47 := by omega
  have hpage : ∀ page, HeapPage k page → ∃ i < n, page = heapBase + 4096 * i := by
    rintro page ⟨hmod, hlo, hhi⟩
    rw [hstart] at hlo
    rw [hfinish] at hhi
    refine ⟨(page - heapBase) / 4096, by omega, ?_⟩
    unfold heapBase at *
    omega
  intro page hp
  obtain ⟨i, hi, rfl⟩ := hpage page hp
  obtain ⟨f, hf, hT, htable, hnot⟩ := hb.pages hn i hi
  have hrequested : f ∈ k.heap.env.alloc.requested := by
    have := hb.own.log ▸ hT
    exact this
  refine ⟨f, (translate_spec hb.tree _).1 f hf,
    List.count_eq_one_of_mem hb.own.nodup hrequested, htable, hnot, ?_⟩
  rintro other ho hne ⟨t, ht, rfl, -⟩
  obtain ⟨j, hj, rfl⟩ := hpage other ho
  obtain ⟨g, hg, -⟩ := hb.pages hn j hj
  obtain ⟨t', ht', hframe, -⟩ := (translate_spec hb.tree _).1 g hg
  obtain rfl := Option.some.inj (ht.symm.trans ht')
  have : j = i := hb.apart hn j hj i hi (by rw [hg, hf, hframe])
  exact hne (by rw [this])

/-- After boot and any permitted calls of which no request failed, the heap is backed. -/
theorem heap_backed (b : BootLayout) (m heapMem : Mem) (fuel : ℕ) (ops : List KernelOp)
    (k : Kernel)
    (hpermitted : PermittedRun (kernelBoot b m heapMem).1 fuel ops (kernelBoot b m heapMem).2)
    (hrun : kernelRun (kernelBoot b m heapMem).1 fuel ops (kernelBoot b m heapMem).2 = some k)
    (hserved : Served k.heap.env.alloc) : HeapBacked (kernelBoot b m heapMem).1 k := by
  have hboot := kernelBoot_invariant b m heapMem (kernelRun_served hpermitted hrun hserved)
  obtain ⟨H, hend⟩ := kernelRun_invariant hboot hpermitted hrun hserved
  exact H.heapBacked hend

theorem initialized_served (b : BootLayout) (m : Mem) {n : ℕ} (hclear : TablesClear b)
    (hfail : NoBootFailure b m) (hn : Enough (bootBitmap b) (bootHeld b) n) (i : ℕ)
    (hlog : tableCount b + 4 * i ≤ n) :
    Served (mapEnv (mapPage (initializeMemory b (entry m)).1) heapBase i
      (initializeMemory b (entry m)).2).alloc := by
  have hserved := hfail.served b m hclear
  obtain ⟨T, hbooted⟩ := initializeMemory_booted b m hserved
  obtain ⟨T', hb⟩ := booted_backed b m hserved
  have hcount : (initializeMemory b (entry m)).2.alloc.requested.length = tableCount b :=
    hbooted.count
  exact (hn.mapEnv hb i (by omega)).1

theorem kernelBoot_heapEnd (b : BootLayout) (m heapMem : Mem) :
    (kernelBoot b m heapMem).2.heap.heapEnd = heapBase + 4096 * 0x10 := by
  rw [kernelBoot_eq]
  exact (memInitializeHeap_bounds _ _ _).2.1.trans (by decide)

theorem kernelBoot_expanded (b : BootLayout) (m heapMem : Mem) :
    (memExpandHeap (mapPage (kernelBoot b m heapMem).1) 1 (kernelBoot b m heapMem).2.heap).heapEnd =
        heapBase + 4096 * 0x11 ∧
      (memExpandHeap (mapPage (kernelBoot b m heapMem).1) 1 (kernelBoot b m heapMem).2.heap).env =
        mapEnv (mapPage (initializeMemory b (entry m)).1) heapBase 0x11
          (initializeMemory b (entry m)).2 := by
  have hend := kernelBoot_heapEnd b m heapMem
  obtain ⟨-, hend', henv⟩ := memExpandHeap_bounds (mapPage (kernelBoot b m heapMem).1) 1
    (h := (kernelBoot b m heapMem).2.heap) (by rw [hend]; decide)
  have hpages : expansionPages 1 = 1 := by decide
  have hnext : wrap (heapBase + 4096 * 0x10 + 0 * frameSize) = wrap (heapBase + 0x10 * frameSize) := by
    decide
  have hturn : ∀ (mapPage : ℕ → Machine Pfa → Machine Pfa) (s : Machine Pfa),
      mapEnv mapPage (heapBase + 4096 * 0x10) 1 (mapEnv mapPage heapBase 0x10 s) =
        mapEnv mapPage heapBase 0x11 s := fun mapPage s => by
    change mapPage (wrap (heapBase + 4096 * 0x10 + 0 * frameSize)) _ = mapPage _ _
    rw [hnext]
    rfl
  rw [hend', henv, hend, kernelBoot_env, hpages, kernelBoot_eq]
  exact ⟨by decide, hturn _ _⟩

theorem kernelRun_expandHeap (pml4 fuel lenght : ℕ) (k : Kernel) :
    kernelRun pml4 fuel [.expandHeap lenght] k =
      some ⟨memExpandHeap (mapPage pml4) lenght k.heap, k.handed⟩ := by
  simp only [kernelRun, kernelStep]

theorem expandHeap_permitted (pml4 fuel lenght : ℕ) {k : Kernel} (hend : k.heap.heapEnd < 2 ^ 47)
    (hend' : (memExpandHeap (mapPage pml4) lenght k.heap).heapEnd < 2 ^ 47) :
    PermittedRun pml4 fuel [.expandHeap lenght] k := by
  refine ⟨hend, trivial, fun k' hk' => ?_⟩
  obtain ⟨size, p, hop, -⟩ | ⟨lenght', hop, hheap, -⟩ | ⟨-, -, hcase⟩ := kernelStep_cases hk'
  · cases hop
  · cases hop
    rw [PermittedRun, hheap]
    exact hend'
  · obtain ⟨hop, -⟩ | ⟨_, _, hop, -⟩ | ⟨_, _, _, hop, -⟩ := hcase <;> cases hop

def roomyLayout : BootLayout := lowBitmapLayout 0xf (by decide)

theorem roomyLayout_served {m heapMem : Mem} {k : Kernel}
    (hrun : kernelRun (kernelBoot roomyLayout m heapMem).1 1 [.expandHeap 1]
      (kernelBoot roomyLayout m heapMem).2 = some k) : Served k.heap.env.alloc := by
  rw [kernelRun_expandHeap] at hrun
  obtain rfl := Option.some.inj hrun
  have hle : 0xf ≤ 0x10 := by decide
  have hlow := lowBitmapLayout_low hle
  have hcount := lowBitmapLayout_tableCount hle
  have hfree := lowBitmapLayout_free hle (k := 8 * bitmapSize (lowBitmapLayout 0xf hle).mmap)
    (by rw [bitmapSize, lowBitmapLayout_total, frameSize]; omega)
  dsimp only
  rw [(kernelBoot_expanded roomyLayout m heapMem).2, roomyLayout]
  generalize lowBitmapLayout 0xf hle = b at *
  have hclear := tablesClear_of_low b hlow
  have hfail := noBootFailure_of_enough b m hclear (by omega)
  have hpos : 0 < 8 * bitmapSize b.mmap := Nat.mul_pos (by decide) (Nat.succ_pos _)
  have hn : Enough (bootBitmap b) (bootHeld b) (tableCount b + 68) := by
    refine enough_of_clear (lowestClear_of_low b hlow _) ?_ ?_
    · exact ⟨hpos, .inl (.inr (.inl (by decide)))⟩
    · change _ ≤ BusySet.freeBelow _ (8 * bitmapSize b.mmap)
      rw [freeBefore_eq b le_rfl]
      omega
  exact initialized_served b m hclear hfail hn 0x11 (by omega)

theorem expandHeap_booted (b : BootLayout) (m heapMem : Mem) :
    PermittedRun (kernelBoot b m heapMem).1 1 [.expandHeap 1] (kernelBoot b m heapMem).2 :=
  expandHeap_permitted _ 1 1 ((kernelBoot_heapEnd b m heapMem).trans_lt (by decide))
    ((kernelBoot_expanded b m heapMem).1.trans_lt (by decide))

/-- An expansion after boot, over cleared memory. -/
theorem heap_backed_roomyLayout : ∃ k,
    kernelRun (kernelBoot roomyLayout (fun _ => 0#8) fun _ => 0#8).1 1 [.expandHeap 1]
      (kernelBoot roomyLayout (fun _ => 0#8) fun _ => 0#8).2 = some k ∧
    HeapBacked (kernelBoot roomyLayout (fun _ => 0#8) fun _ => 0#8).1 k := by
  have hpermitted := expandHeap_booted roomyLayout (fun _ => 0#8) fun _ => 0#8
  obtain ⟨k, hrun⟩ : ∃ k, kernelRun (kernelBoot roomyLayout (fun _ => 0#8) fun _ => 0#8).1 1
      [.expandHeap 1] (kernelBoot roomyLayout (fun _ => 0#8) fun _ => 0#8).2 = some k :=
    ⟨_, kernelRun_expandHeap _ 1 1 _⟩
  exact ⟨k, hrun, heap_backed roomyLayout _ _ 1 [.expandHeap 1] k hpermitted hrun
    (roomyLayout_served hrun)⟩

end Rizzos.HeapBacking
