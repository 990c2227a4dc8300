import Rizzos.PageFrameSupply
import Rizzos.PageTableCount

set_option autoImplicit false

/-! `InitializeMemory` of `kernel.c` as a whole, and whether the frames it leaves to the
allocator are mapped. -/
namespace Rizzos.KernelMemory
open ByteMemory Memory UtilsBitmap PageFrameAllocator PageFrameRequests PageFrameInit KernelFrames
  TableTree Paging PageTableManager PageTableTree PageTableMap PageTableRuns PageTableCount PageFrameSupply

def mapIdentity (pml4 last : ℕ) : ℕ → ℕ → Machine Pfa → Machine Pfa
  | 0, _, s => s
  | fuel + 1, i, s =>
    if i < last then
      mapIdentity pml4 last fuel (wrap (i + frameSize)) (ptmMapMemory pfaRequestPage pml4 i i s)
    else s

def turns (size : ℕ) : ℕ := (size + 0xfff) / frameSize

/-- The value loaded into `cr3` and the state in which that happens. -/
def initializeMemory (b : BootLayout) (s : Machine Pfa) : ℕ × Machine Pfa :=
  let s := lockBootMemory b s
  let (pml4, s) := pfaRequestPage s
  let s : Machine Pfa := ⟨memSet64 s.mem pml4 0 frameSize, s.alloc⟩
  let memorySize := memGetTotalSize s.alloc.memorySize b.mmap
  let s : Machine Pfa := ⟨s.mem, { s.alloc with memorySize := memorySize }⟩
  let s := mapIdentity pml4 memorySize (turns memorySize) 0 s
  let bufferEnd := wrap (b.baseAddress + b.bufferSize)
  (pml4, mapIdentity pml4 bufferEnd (turns b.bufferSize) b.baseAddress s)

def identityCalls : ℕ → ℕ → List (ℕ × ℕ)
  | _, 0 => []
  | i, n + 1 => (i, i) :: identityCalls (i + 4096) n

theorem mem_identityCalls {i n : ℕ} {call : ℕ × ℕ} :
    call ∈ identityCalls i n ↔ ∃ k < n, call = (i + 4096 * k, i + 4096 * k) := by
  induction n generalizing i with
  | zero => simp [identityCalls]
  | succ n ih =>
    rw [identityCalls, List.mem_cons, ih]
    constructor
    · rintro (rfl | ⟨k, hk, rfl⟩)
      · exact ⟨0, by omega, rfl⟩
      · exact ⟨k + 1, by omega, by rw [show i + 4096 + 4096 * k = i + 4096 * (k + 1) by omega]⟩
    · rintro ⟨_ | k, hk, rfl⟩
      · exact .inl rfl
      · exact .inr ⟨k, by omega, by rw [show i + 4096 + 4096 * k = i + 4096 * (k + 1) by omega]⟩

theorem mapIdentity_eq (pml4 : ℕ) {last fuel i : ℕ} (s : Machine Pfa)
    (hi : i + 4096 * fuel < last + 4096) (hlast : last + 4096 ≤ 2 ^ 64) :
    mapIdentity pml4 last fuel i s = mapRun pfaRequestPage pml4 (identityCalls i fuel) s := by
  induction fuel generalizing i s with
  | zero => rfl
  | succ fuel ih =>
    have hlt : i < last := by omega
    have hnext : wrap (i + frameSize) = i + 4096 :=
      wrap_of_lt ((Nat.add_lt_add_right hlt 4096).trans_le hlast)
    rw [mapIdentity, if_pos hlt, hnext, ih _ (by omega), identityCalls,
      mapRun_cons pfaRequestPage pml4 (i, i)]

theorem turns_lt (size : ℕ) : 4096 * turns size < size + 4096 := by
  unfold turns frameSize
  omega

section Layout
variable (b : BootLayout) (m : Mem)

def bootCalls : List (ℕ × ℕ) :=
  identityCalls 0 (turns (totalSize b.mmap)) ++ identityCalls b.baseAddress (turns b.bufferSize)

def bootBitmap : Bitmap := ⟨bitmapSize b.mmap, bitmapBuffer b.mmap⟩

def bootHeld : Set ℕ := {k | k < 8 * bitmapSize b.mmap ∧ BootBusy b k}

def rooted : Machine Pfa :=
  ⟨memSet64 (pfaRequestPage (booted b m)).2.mem (pfaRequestPage (booted b m)).1 0 frameSize,
    (pfaRequestPage (booted b m)).2.alloc⟩

theorem rooted_alloc : (rooted b m).alloc = (pfaRequestPage (booted b m)).2.alloc := rfl

theorem pfaRequestPage_memorySize (s : Machine Pfa) :
    (pfaRequestPage s).2.alloc.memorySize = s.alloc.memorySize := by
  change (requestIndex s).2.alloc.memorySize = _
  obtain ⟨l, e, _⟩ | ⟨i, l, e, _⟩ := requestIndex_cases s <;> rw [e]
  · rfl
  · exact pfaLockPage_op.memorySize _ (looked l s)

theorem initializeMemory_eq : initializeMemory b (entry m) = ((pfaRequestPage (booted b m)).1,
    mapRun pfaRequestPage (pfaRequestPage (booted b m)).1 (bootCalls b) (rooted b m)) := by
  have hsize : (pfaRequestPage (booted b m)).2.alloc.memorySize = totalSize b.mmap :=
    (pfaRequestPage_memorySize _).trans (booted_memorySize b m)
  have hstatic : { (pfaRequestPage (booted b m)).2.alloc with memorySize := totalSize b.mmap } =
      (pfaRequestPage (booted b m)).2.alloc := by
    rw [← hsize]
  have htotal := totalSize_lt b.mmap
  have hmod := totalSize_mod b.mmap
  have hbuffer := b.bufferInRange
  have hturns := turns_lt (totalSize b.mmap)
  have hturns' := turns_lt b.bufferSize
  have hlock : lockBootMemory b (entry m) = booted b m := rfl
  have hend : wrap (b.baseAddress + b.bufferSize) = b.baseAddress + b.bufferSize :=
    wrap_of_lt (by omega)
  simp only [initializeMemory, hlock, hsize, memGetTotalSize_again, hstatic, hend]
  rw [mapIdentity_eq _ _ (by omega) (by omega), mapIdentity_eq _ _ (by omega) (by omega),
    bootCalls, mapRun_append]
  rfl

theorem booted_held : held (booted b m) = bootHeld b := by
  have hlimit := booted_limit b m
  rw [(booted_invariant b m).held_eq]
  ext k
  simp only [busySet, bootHeld, Set.mem_ofPred_eq, hlimit]
  refine and_congr_right fun hk => ?_
  rw [booted_busy b m hk, decide_eq_true_iff]

theorem bitmapBuffer_le : bitmapBuffer b.mmap ≤ 2 ^ 52 := by
  obtain ⟨e | ⟨desc, hd, _, e⟩, _⟩ := largestFreeMem_spec b.mmap (0, 0)
  · rw [bitmapBuffer, e]
    omega
  · rw [bitmapBuffer, e]
    have := b.descInRange desc hd
    omega

theorem booted_recorded : Recorded (bootBitmap b) (bootHeld b) (booted b m) ∅ := by
  have hsize := bitmapSize_le b.mmap
  have hbuffer := bitmapBuffer_le b
  have hrequested := booted_requested b m
  have hnone : ∀ {P : ℕ → Prop}, ∀ t ∈ (booted b m).alloc.requested, P t := by
    intro P t ht
    rw [hrequested] at ht
    cases ht
  refine ⟨booted_pageBitmap b m, hsize, ?_, hnone, ?_, ?_, hnone, hnone, ?_⟩
  · change bitmapBuffer b.mmap + bitmapSize b.mmap ≤ 2 ^ 64
    omega
  · ext t
    simp [hrequested]
  · rw [hrequested]
    exact .nil
  · rw [hrequested]
    exact booted_held b m

/-- The first request passes the first `0x100` frames, which are reserved. -/
theorem rooted_handed (hserved : Served (pfaRequestPage (booted b m)).2.alloc) :
    Handed (bootBitmap b) (bootHeld b) (rooted b m) {(pfaRequestPage (booted b m)).1} := by
  obtain ⟨hrecorded, _⟩ := (booted_recorded b m).request hserved
  rw [insert_empty_eq] at hrecorded
  have hne := (hserved _ (by rw [pfaRequestPage_requested]; exact List.mem_cons_self)).1
  obtain ⟨i, hi, _, hlt⟩ := pfaRequestPage_found (booted_invariant b m).size hne
  have hpast : 0x100 ≤ (pfaRequestPage (booted b m)).2.alloc.lastReservedPage := by
    rw [((pfaRequestPage_hint _).2 i hi).2.2]
    rw [requestIndex_held, booted_held] at hi
    obtain ⟨⟨_, hfree⟩, _⟩ := BusySet.lowest_eq_some_iff.1 hi
    by_contra hlow
    rw [booted_limit] at hlt
    exact hfree ⟨hlt, .inl (.inr (.inl (by omega)))⟩
  have hhanded : Handed (bootBitmap b) (bootHeld b) (pfaRequestPage (booted b m)).2
      {(pfaRequestPage (booted b m)).1} := ⟨hrecorded, hpast⟩
  refine hhanded.write fun x _ hx => ?_
  obtain ⟨_, _, hphysical⟩ := hhanded.frame (Set.mem_singleton _)
  exact memSet64_outside_frame _ (by omega) (hx _ (Set.mem_singleton _))

/-- What `InitializeMemory` leaves behind when all its requests are served. -/
structure Booted (b : BootLayout) (pml4 : ℕ) (s : Machine Pfa) (T : Set ℕ) : Prop where
  handed : Handed (bootBitmap b) (bootHeld b) s T
  tree : TreeInvariant pml4 T s.mem
  tables : ∀ t, IsTable (entries s.mem) pml4 4 t ↔ t ∈ T
  count : s.alloc.requested.length = (neededTables (bootCalls b)).card
  leaves : ∀ virtualAddress, lookup (entries s.mem) pml4 (path virtualAddress) =
    lastMapped virtualAddress (bootCalls b) none

theorem rooted_counted (hserved : Served (pfaRequestPage (booted b m)).2.alloc) :
    let pml4 := (pfaRequestPage (booted b m)).1
    TreeInvariant pml4 {pml4} (rooted b m).mem ∧
      (∀ index, entries (rooted b m).mem pml4 index = none) ∧
      Counted Served (Handed (bootBitmap b) (bootHeld b)) pml4 (neededTables (bootCalls b))
        (rooted b m) {pml4} := by
  intro pml4
  have hhanded := rooted_handed b m hserved
  have hframe : FrameAddress pml4 := hhanded.frame (Set.mem_singleton _)
  have hzero : ∀ index < 512, readEntry (rooted b m).mem pml4 index = 0#64 := by
    intro index hi
    dsimp only [rooted]
    exact readEntry_memSet64 _ hframe hi
  have hempty := entries_of_zero hzero
  have htree := TreeInvariant.of_zero hframe hzero
  refine ⟨htree, hempty, hserved, hhanded, htree, fun t => ?_, ?_⟩
  · exact ⟨fun ht => isTable_of_empty hempty ht, fun ht => ht ▸ isTable_root (by decide)⟩
  · rintro q ⟨hlen, hsome⟩
    refine mem_neededTables.2 ⟨hlen, .inl ?_⟩
    by_contra hne
    rw [lookup_of_empty hempty q hne] at hsome
    cases hsome

theorem initializeMemory_booted (hserved : Served (initializeMemory b (entry m)).2.alloc) :
    ∃ T, Booted b (initializeMemory b (entry m)).1 (initializeMemory b (entry m)).2 T := by
  have sup := pfa_supply (bootBitmap b) (bootHeld b)
  rw [initializeMemory_eq] at hserved ⊢
  dsimp only at hserved ⊢
  have hroot := mapRun_good sup.good _ _ hserved
  rw [rooted_alloc] at hroot
  obtain ⟨htree, hempty, hcounted⟩ := rooted_counted b m hroot
  obtain ⟨T, hhanded, htree', hcard, htables, hleaves⟩ :=
    mapRun_tables sup (bootCalls b) hcounted.own htree hempty hserved
  exact ⟨T, hhanded, htree', htables, hhanded.ncard.symm.trans hcard, hleaves⟩

/-! ## The frames left to later requests -/

def freeBefore (k : ℕ) : ℕ := ((Finset.range k).filter fun j => ¬ BootBusy b j).card

/-- How many tables the calls of `InitializeMemory` need. -/
def tableCount : ℕ := (neededTables (bootCalls b)).card

/-- Frame `k` is one of those that the page tables are put in: the lowest free ones. -/
def TakenAtBoot (k : ℕ) : Prop :=
  k < 8 * bitmapSize b.mmap ∧ ¬ BootBusy b k ∧ freeBefore b k < tableCount b

/-- Frame `k` is free and left for later. -/
def LeftByBoot (k : ℕ) : Prop :=
  k < 8 * bitmapSize b.mmap ∧ ¬ BootBusy b k ∧ tableCount b ≤ freeBefore b k

/-- The page tables are put in frames of the physical address space, and none of these
    frames is one of the bitmap's. -/
def TablesClear : Prop :=
  ∀ k, TakenAtBoot b k → 4096 * k < 2 ^ 52 ∧
    ¬ Overlaps (4096 * k) (bitmapBuffer b.mmap) (bitmapBuffer b.mmap + bitmapSize b.mmap)

/-- Of the pages that are mapped at boot and agree with page `k` in bits 12 to 47, the last
    one is page `k` itself. -/
def SelfMapped (k : ℕ) : Prop := lastMapped (4096 * k) (bootCalls b) none = some (4096 * k)

/-- The frames left for later and the pages of the frame buffer are among the pages that are
    mapped at boot. The loop stops at the total size, the bitmap goes on to a whole byte. -/
def Covered : Prop :=
  (∀ k, LeftByBoot b k → SelfMapped b k) ∧
    ∀ i < turns b.bufferSize, SelfMapped b (b.baseAddress / 4096 + i)

/-- No request of `InitializeMemory` returns null. -/
def NoBootFailure : Prop :=
  ∀ page ∈ (initializeMemory b (entry m)).2.alloc.requested, page ≠ 0

/-- In the tables loaded into `cr3`, each frame that later requests return and each page of the
    frame buffer translates to itself. -/
def IdentityMapAgrees : Prop :=
  let r := initializeMemory b (entry m)
  (∀ page, Returned r.2 page → (translate r.2.mem r.1 page).map (·.frame) = some page) ∧
    ∀ page, page % 4096 = 0 → b.baseAddress ≤ page → page < b.baseAddress + b.bufferSize →
      (translate r.2.mem r.1 page).map (·.frame) = some page

theorem freeBefore_eq {k : ℕ} (hk : k ≤ 8 * bitmapSize b.mmap) :
    BusySet.freeBelow (bootHeld b) k = freeBefore b k := by
  classical
  unfold BusySet.freeBelow freeBefore
  congr 1
  refine Finset.filter_congr fun j hj => not_congr ?_
  have := Finset.mem_range.1 hj
  exact and_iff_right (by omega)

theorem tablesClear_iff : TablesClear b ↔
    LowestClear (bootBitmap b) (bootHeld b) (tableCount b) := by
  have hheld : ∀ k, k < 8 * bitmapSize b.mmap → (k ∉ bootHeld b ↔ ¬ BootBusy b k) :=
    fun k hk => not_congr (and_iff_right hk)
  constructor
  · intro h k hk hfree hbelow
    rw [freeBefore_eq b hk.le] at hbelow
    exact h k ⟨hk, (hheld k hk).1 hfree, hbelow⟩
  · rintro h k ⟨hk, hfree, hbelow⟩
    rw [← freeBefore_eq b hk.le] at hbelow
    exact h k hk ((hheld k hk).2 hfree) hbelow

theorem mem_requested (s : Machine Pfa) {P : ℕ → Prop}
    (h : ∀ page ∈ (pfaRequestPage s).2.alloc.requested, P page) :
    P (pfaRequestPage s).1 ∧ ∀ page ∈ s.alloc.requested, P page := by
  rw [pfaRequestPage_requested] at h
  exact List.forall_mem_cons.1 h

/-- When the frames that the page tables need are clear, boot is served if none of its requests
    can fail. -/
theorem initializeMemory_served (Fine : Pfa → Prop)
    (hback : ∀ s, Fine (pfaRequestPage s).2.alloc → Fine s.alloc)
    (hne : ∀ s T, Recorded (bootBitmap b) (bootHeld b) s T →
      s.alloc.requested.length < tableCount b → Fine (pfaRequestPage s).2.alloc →
        (pfaRequestPage s).1 ≠ 0)
    (hclear : TablesClear b) (hfine : Fine (initializeMemory b (entry m)).2.alloc) :
    Served (initializeMemory b (entry m)).2.alloc := by
  have sup := pfa_supply (bootBitmap b) (bootHeld b)
  have hlowest := (tablesClear_iff b).1 hclear
  rw [initializeMemory_eq] at hfine ⊢
  dsimp only at hfine ⊢
  have hsuffices : Suffices pfaRequestPage Served Fine (Handed (bootBitmap b) (bootHeld b))
      (neededTables (bootCalls b)) := by
    intro s T hown _ hcard hfine
    rw [hown.ncard] at hcard
    exact hown.toRecorded.serve hlowest hcard (hne s T hown.toRecorded hcard hfine)
  have hpos : (booted b m).alloc.requested.length < tableCount b := by
    rw [booted_requested]
    exact Finset.card_pos.2 ⟨[], mem_neededTables.2 (by simp)⟩
  have hroot := mapRun_good hback _ _ hfine
  rw [rooted_alloc] at hroot
  have hrecorded := booted_recorded b m
  have hserved := hrecorded.serve hlowest hpos (hne _ _ hrecorded hpos hroot)
  exact (rooted_counted b m hserved).2.2.mapRun sup hsuffices hback (bootCalls b) subset_rfl hfine

theorem NoBootFailure.served (hfail : NoBootFailure b m) (hclear : TablesClear b) :
    Served (initializeMemory b (entry m)).2.alloc :=
  initializeMemory_served b m (fun p => ∀ page ∈ p.requested, page ≠ 0)
    (fun s h => (mem_requested s h).2) (fun s _ _ _ h => (mem_requested s h).1) hclear hfail

theorem noBootFailure_of_enough (hclear : TablesClear b)
    (henough : tableCount b ≤ freeBefore b (8 * bitmapSize b.mmap)) : NoBootFailure b m := by
  intro page hpage
  have hserved : Served (initializeMemory b (entry m)).2.alloc := by
    refine initializeMemory_served b m (fun _ => True) (fun _ _ => trivial) ?_ hclear trivial
    intro s T h hcount _
    have hlimit : limit s = 8 * bitmapSize b.mmap := h.limit_eq
    have hsize := bitmapSize_le b.mmap
    have hsome : (requestIndex s).1.isSome := by
      rw [requestIndex_held, hlimit, h.count]
      refine (BusySet.lowest_after_isSome_iff _).2 ?_
      rw [freeBefore_eq b le_rfl]
      omega
    obtain ⟨i, hi⟩ := Option.isSome_iff_exists.1 hsome
    have hpointer : (pfaRequestPage s).1 = framePointer (requestIndex s).1 := rfl
    have hlt := ((pfaRequestPage_hint s).2 i hi).2.1
    rw [hpointer, hi, framePointer_some (by omega)]
    rw [requestIndex_held, h.limit_eq, h.count] at hi
    obtain ⟨_, hfree, _⟩ := BusySet.lowest_after_eq_some hi
    have hi0 : i ≠ 0 := by
      rintro rfl
      exact hfree ⟨by omega, .inl (.inr (.inl (by decide)))⟩
    omega
  exact (hserved page hpage).1

theorem lowestClear_of_low (hlow : bitmapBuffer b.mmap + bitmapSize b.mmap ≤ 0x100000) (n : ℕ) :
    LowestClear (bootBitmap b) (bootHeld b) n := by
  intro k hk hfree _
  change k < 8 * bitmapSize b.mmap at hk
  have hk100 : 0x100 ≤ k := by
    by_contra hlt
    exact hfree ⟨hk, .inl (.inr (.inl (by omega)))⟩
  refine ⟨by omega, fun hov => ?_⟩
  change Overlaps (4096 * k) (bitmapBuffer b.mmap) (bitmapBuffer b.mmap + bitmapSize b.mmap) at hov
  rw [overlaps_iff] at hov
  omega

theorem tablesClear_of_low (hlow : bitmapBuffer b.mmap + bitmapSize b.mmap ≤ 0x100000) :
    TablesClear b :=
  (tablesClear_iff b).2 (lowestClear_of_low b hlow _)

theorem initializeMemory_returned_iff {pml4 : ℕ} {s : Machine Pfa} {T : Set ℕ}
    (h : Booted b pml4 s T) (page : ℕ) : Returned s page ↔ ∃ k, page = 4096 * k ∧ LeftByBoot b k := by
  have hsize : s.alloc.pageBitmap.size ≤ 2 ^ 49 := by
    rw [h.handed.place]
    exact bitmapSize_le b.mmap
  have hlimit : limit s = 8 * bitmapSize b.mmap := h.handed.limit_eq
  rw [returned_iff hsize, hlimit, h.handed.count, h.count]
  refine exists_congr fun k => and_congr_right fun _ => ?_
  change k ≠ 0 ∧ k < 8 * bitmapSize b.mmap ∧
    k ∉ BusySet.after (8 * bitmapSize b.mmap) (bootHeld b) (tableCount b) ↔ _
  constructor
  · rintro ⟨_, hk, hfree⟩
    obtain ⟨hheld, hcount⟩ := (BusySet.notMem_after_iff _ k hk).1 hfree
    rw [freeBefore_eq b hk.le] at hcount
    exact ⟨hk, fun hb => hheld ⟨hk, hb⟩, hcount⟩
  · rintro ⟨hk, hfree, hcount⟩
    rw [← freeBefore_eq b hk.le] at hcount
    refine ⟨?_, hk, (BusySet.notMem_after_iff _ k hk).2 ⟨fun hb => hfree hb.2, hcount⟩⟩
    rintro rfl
    exact hfree (.inl (.inr (.inl (by decide))))

theorem translate_self_iff {pml4 : ℕ} {s : Machine Pfa} {T : Set ℕ} (h : Booted b pml4 s T)
    (k : ℕ) : (translate s.mem pml4 (4096 * k)).map (·.frame) = some (4096 * k) ↔
      SelfMapped b k := by
  obtain ⟨hsome, hnone⟩ := translate_spec h.tree (4096 * k)
  rw [SelfMapped, ← h.leaves]
  cases hl : lookup (entries s.mem) pml4 (path (4096 * k)) with
  | none => simp [hnone hl]
  | some f =>
    obtain ⟨t, ht, hf, _⟩ := hsome f hl
    simp [ht, hf]

theorem identityMapAgrees_iff (halign : b.baseAddress % frameSize = 0) {T : Set ℕ}
    (h : Booted b (initializeMemory b (entry m)).1 (initializeMemory b (entry m)).2 T) :
    IdentityMapAgrees b m ↔ Covered b := by
  have halign' : b.baseAddress % 4096 = 0 := halign
  unfold IdentityMapAgrees Covered
  refine and_congr ?_ ?_
  · constructor
    · intro hmap k hk
      exact (translate_self_iff b h k).1
        (hmap _ ((initializeMemory_returned_iff b h _).2 ⟨k, rfl, hk⟩))
    · intro hmap page hpage
      obtain ⟨k, rfl, hk⟩ := (initializeMemory_returned_iff b h _).1 hpage
      exact (translate_self_iff b h k).2 (hmap k hk)
  · constructor
    · intro hmap i hi
      have hpage : 4096 * (b.baseAddress / 4096 + i) < b.baseAddress + b.bufferSize := by
        unfold turns frameSize at hi
        omega
      exact (translate_self_iff b h _).1 (hmap _ (by omega) (by omega) hpage)
    · intro hmap page hmod hlo hhi
      obtain ⟨i, rfl⟩ : ∃ i, page = 4096 * (b.baseAddress / 4096 + i) :=
        ⟨page / 4096 - b.baseAddress / 4096, by omega⟩
      refine (translate_self_iff b h _).2 (hmap i ?_)
      unfold turns frameSize
      omega

theorem lastMapped_identity {calls : List (ℕ × ℕ)} {k : ℕ} (hk : k < 2 ^ 36)
    (hcalls : ∀ call ∈ calls, call.2 = call.1 ∧ call.1 < 2 ^ 48) {found : Option ℕ}
    (hfound : found = none ∨ found = some (4096 * k)) :
    lastMapped (4096 * k) calls found = some (4096 * k) ↔
      found = some (4096 * k) ∨ ∃ call ∈ calls, call.1 / 4096 = k := by
  induction calls generalizing found with
  | nil => simp [lastMapped]
  | cons call calls ih =>
    obtain ⟨hself, hlow⟩ := hcalls call (by simp)
    have hsame : SamePage (4096 * k) call.1 ↔ call.1 / 4096 = k := by
      unfold SamePage
      omega
    have hrest : ∀ c ∈ calls, c.2 = c.1 ∧ c.1 < 2 ^ 48 := fun c hc => hcalls c (by simp [hc])
    rw [lastMapped]
    simp only [hsame, List.mem_cons, exists_eq_or_imp]
    by_cases hpage : call.1 / 4096 = k
    · have hframe : frameOf call.2 = 4096 * k := by
        unfold frameOf
        omega
      rw [if_pos hpage, hframe, ih hrest (.inr rfl)]
      simp [hpage]
    · rw [if_neg hpage, ih hrest hfound]
      simp [hpage]

/-- On a machine whose memory and frame buffer end below `2 ^ 48`, a frame is mapped to itself
    when it is below the page count or one of the frame buffer's. -/
theorem selfMapped_iff (halign : b.baseAddress % frameSize = 0)
    (htotal : totalSize b.mmap ≤ 2 ^ 48) (hbuffer : b.baseAddress + b.bufferSize ≤ 2 ^ 48)
    {k : ℕ} (hk : k < 2 ^ 36) : SelfMapped b k ↔ k < turns (totalSize b.mmap) ∨
      (b.baseAddress / 4096 ≤ k ∧ k < b.baseAddress / 4096 + turns b.bufferSize) := by
  have hmod := totalSize_mod b.mmap
  have hturns := turns_lt (totalSize b.mmap)
  have hturns' := turns_lt b.bufferSize
  have halign' : b.baseAddress % 4096 = 0 := halign
  have hcalls : ∀ call ∈ bootCalls b, call.2 = call.1 ∧ call.1 < 2 ^ 48 := by
    intro call hcall
    obtain hcall | hcall := List.mem_append.1 hcall
    · obtain ⟨i, hi, rfl⟩ := mem_identityCalls.1 hcall
      refine ⟨rfl, ?_⟩
      dsimp only
      omega
    · obtain ⟨i, hi, rfl⟩ := mem_identityCalls.1 hcall
      refine ⟨rfl, ?_⟩
      dsimp only
      omega
  rw [SelfMapped, lastMapped_identity hk hcalls (.inl rfl)]
  simp only [reduceCtorEq, false_or, bootCalls, List.mem_append, mem_identityCalls]
  constructor
  · rintro ⟨call, ⟨i, hi, rfl⟩ | ⟨i, hi, rfl⟩, h⟩
    · dsimp only at h
      omega
    · dsimp only at h
      omega
  · rintro (h | h)
    · exact ⟨_, .inl ⟨k, h, rfl⟩, by omega⟩
    · exact ⟨_, .inr ⟨k - b.baseAddress / 4096, by omega, rfl⟩, by dsimp only; omega⟩

theorem freeBefore_mono {k l : ℕ} (h : k ≤ l) : freeBefore b k ≤ freeBefore b l :=
  Finset.card_le_card (Finset.filter_subset_filter _ (Finset.range_subset_range.2 h))

theorem freeBefore_ge {lo n : ℕ} (h : ∀ j < n, ¬ BootBusy b (lo + j)) :
    n ≤ freeBefore b (lo + n) := by
  have hsub : (Finset.range n).map (addLeftEmbedding lo) ⊆
      (Finset.range (lo + n)).filter fun j => ¬ BootBusy b j := by
    intro k hk
    obtain ⟨j, hj, rfl⟩ := Finset.mem_map.1 hk
    have hj := Finset.mem_range.1 hj
    rw [Finset.mem_filter, Finset.mem_range, addLeftEmbedding_apply]
    exact ⟨by omega, h j hj⟩
  have hcard := Finset.card_le_card hsub
  rwa [Finset.card_map, Finset.card_range] at hcard

/-- With the page tables clear of the bitmap, the allocator and the identity map agree exactly
    when what boot leaves to the allocator is mapped. -/
theorem identityMapAgrees_iff_covered (halign : b.baseAddress % frameSize = 0)
    (hfail : NoBootFailure b m) (hclear : TablesClear b) : IdentityMapAgrees b m ↔ Covered b := by
  obtain ⟨T, hbooted⟩ := initializeMemory_booted b m (hfail.served b m hclear)
  exact identityMapAgrees_iff b m halign hbooted

end Layout

section Examples
variable {kernelFrames : ℕ} (h : kernelFrames ≤ 0x10)

theorem lowBitmapLayout_total :
    totalSize (lowBitmapLayout kernelFrames h).mmap = 4096 * (0x200 + kernelFrames) := by
  rw [totalSize, memGetTotalSize, if_neg (by omega), memGetTotalSizeLoop_eq _ _ (by omega)]
  simp only [lowBitmapLayout, lowBitmapMap, List.map_cons, List.map_nil, List.sum_cons, List.sum_nil]
  rw [wrap_of_lt (by omega)]
  omega

theorem lowBitmapLayout_low : bitmapBuffer (lowBitmapLayout kernelFrames h).mmap +
    bitmapSize (lowBitmapLayout kernelFrames h).mmap ≤ 0x100000 := by
  have hbuffer : bitmapBuffer (lowBitmapLayout kernelFrames h).mmap = 0x10000 := by
    simp [bitmapBuffer, largestFreeMem, lowBitmapLayout, lowBitmapMap, wrap, frameSize]
  rw [hbuffer, bitmapSize, lowBitmapLayout_total, frameSize]
  omega

theorem lowBitmapLayout_clear : TablesClear (lowBitmapLayout kernelFrames h) :=
  tablesClear_of_low _ (lowBitmapLayout_low h)

theorem lowBitmapLayout_tableCount : tableCount (lowBitmapLayout kernelFrames h) ≤ 7 := by
  have hneeded : neededTables (bootCalls (lowBitmapLayout kernelFrames h)) ⊆
      {[], [0], [0, 0], [2, 0], [0, 0, 0], [1, 0, 0], [0, 2, 0]} := by
    intro q hq
    obtain ⟨hlen, rfl | ⟨call, hcall, hsuffix⟩⟩ := mem_neededTables.1 hq
    · decide
    have hpath : (path call.1).tail = [0, 0, 0] ∨ (path call.1).tail = [1, 0, 0] ∨
        (path call.1).tail = [0, 2, 0] := by
      obtain hcall | hcall := List.mem_append.1 hcall
      · obtain ⟨k, hk, rfl⟩ := mem_identityCalls.1 hcall
        have hturns := turns_lt (totalSize (lowBitmapLayout kernelFrames h).mmap)
        rw [lowBitmapLayout_total] at hk hturns
        simp only [path, tableIndex, List.tail_cons, List.cons.injEq, and_true]
        omega
      · obtain ⟨k, hk, rfl⟩ := mem_identityCalls.1 hcall
        have hsize : (lowBitmapLayout kernelFrames h).bufferSize = 0x4000 := rfl
        rw [hsize, turns, frameSize] at hk
        simp only [path, tableIndex, List.tail_cons, List.cons.injEq, and_true, lowBitmapLayout]
        omega
    have hall : ∀ l ∈ [[0, 0, 0], [1, 0, 0], [0, 2, 0]], ∀ q ∈ l.tails,
        q ∈ ({[], [0], [0, 0], [2, 0], [0, 0, 0], [1, 0, 0], [0, 2, 0]} : Finset (List ℕ)) := by
      decide
    refine hall (path call.1).tail (by simpa using hpath) q ?_
    exact (List.mem_tails _ _).2 (suffix_tail_iff.2 ⟨hlen, hsuffix⟩)
  exact Finset.card_le_card hneeded

theorem lowBitmapLayout_free {k : ℕ} (hk : 0x180 ≤ k) :
    0x80 ≤ freeBefore (lowBitmapLayout kernelFrames h) k := by
  have hfree : ∀ j < 0x80, ¬ BootBusy (lowBitmapLayout kernelFrames h) (0x100 + j) := by
    have hconventional : (⟨7, 0x100000, 0x80⟩ : EFIMemoryDescriptor) ∈
        (lowBitmapLayout kernelFrames h).mmap := by simp [lowBitmapLayout, lowBitmapMap]
    rintro j hj ((hfield | hlow | hpast) | hkernel | hbuffer)
    · have hlo := ((named_field (lowBitmapLayout kernelFrames h) _).1 hfield).1
      have haddress : (lowBitmapLayout kernelFrames h).bufferField = 0x20b008 := rfl
      rw [haddress, frameSize] at hlo
      omega
    · omega
    · refine hpast.2 ⟨_, hconventional, rfl, (named_desc _ hconventional _).2 ?_⟩
      simp only [frameSize]
      omega
    · have hlo := ((named_kernel (lowBitmapLayout kernelFrames h) _).1 hkernel).1
      change 0x200 ≤ 0x100 + j at hlo
      omega
    · have hlo := ((named_buffer (lowBitmapLayout kernelFrames h) _).1 hbuffer).1
      have haddress : (lowBitmapLayout kernelFrames h).baseAddress = 0x80000000 := rfl
      rw [haddress, frameSize] at hlo
      omega
  exact (freeBefore_ge _ hfree).trans (freeBefore_mono _ hk)

theorem lowBitmapLayout_noBootFailure (m : Mem) :
    NoBootFailure (lowBitmapLayout kernelFrames h) m := by
  refine noBootFailure_of_enough _ m (lowBitmapLayout_clear h) ?_
  have hcount := lowBitmapLayout_tableCount h
  have hfree := lowBitmapLayout_free h (k := 8 * bitmapSize (lowBitmapLayout kernelFrames h).mmap)
    (by rw [bitmapSize, lowBitmapLayout_total, frameSize]; omega)
  omega

/-- Where the page count is one less than a multiple of eight the bitmap has no bits past it. -/
theorem identityMapAgrees_lowBitmapLayout :
    IdentityMapAgrees (lowBitmapLayout 0xf (by decide)) (fun _ => 0#8) := by
  refine (identityMapAgrees_iff_covered _ _ rfl (lowBitmapLayout_noBootFailure _ _)
    (lowBitmapLayout_clear _)).2 ?_
  have hself := fun k (hk : k < 2 ^ 36) => selfMapped_iff (lowBitmapLayout 0xf (by decide)) rfl
    (by decide) (by decide) hk
  refine ⟨fun k hk => ?_, fun i hi => ?_⟩
  · obtain ⟨hlt, hfree, _⟩ := hk
    change k < 0x210 at hlt
    rw [hself k (by omega)]
    refine .inl ?_
    change k < 0x20f
    by_contra hge
    obtain rfl : k = 0x20f := by omega
    exact hfree (by decide +kernel)
  · have hlt : i < 4 := hi
    rw [hself _ (by change 0x80000 + i < _; omega)]
    exact .inr ⟨by omega, by omega⟩

/-- Frame `0x211`, past the end of memory, is returned and not mapped. -/
theorem identityMapAgrees_lowBitmapLayout_full :
    NoBootFailure (lowBitmapLayout 0x10 le_rfl) (fun _ => 0#8) ∧
    ¬ IdentityMapAgrees (lowBitmapLayout 0x10 le_rfl) (fun _ => 0#8) := by
  have hfail := lowBitmapLayout_noBootFailure (le_refl 0x10) (fun _ => 0#8)
  have hclear := lowBitmapLayout_clear (le_refl 0x10)
  refine ⟨hfail, fun hmap => ?_⟩
  obtain ⟨T, hbooted⟩ := initializeMemory_booted _ _ (hfail.served _ _ hclear)
  have hcovered := (identityMapAgrees_iff _ _ rfl hbooted).1 hmap
  have hcount := (lowBitmapLayout_tableCount (le_refl 0x10)).trans
    ((by decide : 7 ≤ 0x80).trans (lowBitmapLayout_free (le_refl 0x10) (k := 0x211) (by decide)))
  have hleft : LeftByBoot (lowBitmapLayout 0x10 le_rfl) 0x211 :=
    ⟨by decide +kernel, by decide +kernel, hcount⟩
  have hself := hcovered.1 0x211 hleft
  rw [selfMapped_iff _ rfl (by decide) (by decide) (by decide)] at hself
  revert hself
  decide

end Examples

end Rizzos.KernelMemory
