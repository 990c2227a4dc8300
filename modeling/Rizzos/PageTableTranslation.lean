import Rizzos.PageTableRuns

set_option autoImplicit false

/-! Translation after any run of `ptmMapMemory`, for any allocator whose requests in that
run return fresh frames. -/
namespace Rizzos.PageTableTranslation
open ByteMemory Memory Paging TableTree PageTableManager PageTableTree PageTableMap PageTableRuns

variable {α : Type}

structure Request where
  page : ℕ
  before : Mem
  after : Mem

def logged (pfaRequestPage : Machine α → ℕ × Machine α) (s : Machine (α × List Request)) :
    ℕ × Machine (α × List Request) :=
  let r := pfaRequestPage ⟨s.mem, s.alloc.1⟩
  (r.1, ⟨r.2.mem, (r.2.alloc, ⟨r.1, s.mem, r.2.mem⟩ :: s.alloc.2)⟩)

/-- Every request of a log returned a frame that is neither the top table nor one returned
    before it, and left those frames and the index struct at address zero alone. -/
inductive FreshRequests (pml4 : ℕ) : List Request → Prop
  | nil : FreshRequests pml4 []
  | cons {r : Request} {log : List Request} (earlier : FreshRequests pml4 log)
      (frame : FrameAddress r.page) (root : r.page ≠ pml4) (new : ∀ r' ∈ log, r'.page ≠ r.page)
      (kept : ∀ x, (x < 32 ∨ InFrame pml4 x ∨ ∃ r' ∈ log, InFrame r'.page x) →
        r.after x = r.before x) : FreshRequests pml4 (r :: log)

def unlogged (s : Machine (α × List Request)) : Machine α := ⟨s.mem, s.alloc.1⟩

section Logged
variable (pfaRequestPage : Machine α → ℕ × Machine α)

theorem nextTable_logged (table field : ℕ) (s : Machine (α × List Request)) :
    nextTable pfaRequestPage table field (unlogged s) =
      ((nextTable (logged pfaRequestPage) table field s).1,
        unlogged (nextTable (logged pfaRequestPage) table field s).2) := by
  cases h : pdeGetFlag (readEntry s.mem table (load64 s.mem field)) .present with
  | false =>
    rw [nextTable_absent h, nextTable_absent (s := unlogged s) h]
    simp only [logged, unlogged]
  | true =>
    rw [nextTable_present h, nextTable_present (s := unlogged s) h]
    simp only [unlogged]

theorem leafTable_logged (pml4 virtualMemory : ℕ) (s : Machine (α × List Request)) :
    leafTable pfaRequestPage pml4 virtualMemory (unlogged s) =
      ((leafTable (logged pfaRequestPage) pml4 virtualMemory s).1,
        unlogged (leafTable (logged pfaRequestPage) pml4 virtualMemory s).2) := by
  have hindexed : indexed virtualMemory (unlogged s) = unlogged (indexed virtualMemory s) := rfl
  simp only [leafTable, hindexed, nextTable_logged]

theorem ptmMapMemory_logged (pml4 virtualMemory physicalMemory : ℕ)
    (s : Machine (α × List Request)) :
    unlogged (ptmMapMemory (logged pfaRequestPage) pml4 virtualMemory physicalMemory s) =
      ptmMapMemory pfaRequestPage pml4 virtualMemory physicalMemory (unlogged s) := by
  rw [ptmMapMemory_eq, ptmMapMemory_eq, leafTable_logged]
  simp only [unlogged]

theorem mapRun_logged (pml4 : ℕ) (calls : List (ℕ × ℕ)) (s : Machine (α × List Request)) :
    unlogged (mapRun (logged pfaRequestPage) pml4 calls s) =
      mapRun pfaRequestPage pml4 calls (unlogged s) := by
  induction calls generalizing s with
  | nil => rfl
  | cons call calls ih => rw [mapRun, mapRun, ih, ptmMapMemory_logged]

def loggedFrames (pml4 : ℕ) (log : List Request) : Set ℕ :=
  insert pml4 {t | ∃ r ∈ log, r.page = t}

theorem logged_supply (pml4 : ℕ) : FrameSupply (logged pfaRequestPage)
    (fun a => FreshRequests pml4 a.2) (fun s T => T = loggedFrames pml4 s.alloc.2) where
  good _ h := by
    cases h with
    | cons earlier _ _ _ _ => exact earlier
  frame _ _ _ h := by
    cases h with
    | cons _ frame _ _ _ => exact frame
  fresh s T hT h := by
    obtain _ | ⟨_, _, hroot, hother, _⟩ := h
    rw [hT]
    rintro (e | ⟨r, hr, e⟩)
    · exact hroot e
    · exact hother r hr e
  kept s T x hT h hx := by
    obtain _ | ⟨_, _, _, _, hkept⟩ := h
    refine hkept x (hx.imp id ?_)
    rw [hT]
    rintro ⟨t, rfl | ⟨r, hr, rfl⟩, hin⟩
    · exact .inl hin
    · exact .inr ⟨r, hr, hin⟩
  own s T hT _ := by
    change insert _ T = loggedFrames pml4 (_ :: s.alloc.2)
    rw [hT]
    ext t
    simp only [loggedFrames, Set.mem_insert_iff, Set.mem_ofPred_eq, List.mem_cons,
      exists_eq_or_imp]
    rw [or_left_comm]
    refine or_congr_right (or_congr_left ?_)
    exact eq_comm
  write _ _ _ hT _ := hT

end Logged

/-- From a cleared top table, any sequence of calls translates each address as the last call
    for its page says, and no other address. -/
theorem mapRun_translates (pfaRequestPage : Machine α → ℕ × Machine α) (pml4 : ℕ)
    (calls : List (ℕ × ℕ)) (memory : Mem) (alloc : α) (hpml4 : FrameAddress pml4)
    (hzero : ∀ x, InFrame pml4 x → memory x = 0#8) (hphysical : ∀ call ∈ calls, call.2 < 2 ^ 52)
    (hfresh : FreshRequests pml4
      (mapRun (logged pfaRequestPage) pml4 calls ⟨memory, (alloc, [])⟩).alloc.2) :
    let m := (mapRun pfaRequestPage pml4 calls ⟨memory, alloc⟩).mem
    (∀ virtualAddress i, ∀ hi : i < calls.length, SamePage virtualAddress calls[i].1 →
      (∀ j, ∀ hj : j < calls.length, i < j → ¬ SamePage virtualAddress calls[j].1) →
      MapsTo m pml4 virtualAddress (calls[i].2 / 4096 * 4096)) ∧
    (∀ virtualAddress, (∀ call ∈ calls, ¬ SamePage virtualAddress call.1) →
      translate m pml4 virtualAddress = none) := by
  have hentry : ∀ index < 512, readEntry memory pml4 index = 0#64 := by
    intro index hi
    obtain ⟨_, _, hlt⟩ := hpml4
    have hload : load64 memory (pml4 + 8 * index) = 0 := by
      apply loadLE_zero
      intro i hi'
      rw [wrap_of_lt (by omega)]
      exact hzero _ ⟨by omega, by omega⟩
    rw [readEntry, hload]
  have htree := TreeInvariant.of_zero hpml4 hentry
  have hroot : {pml4} = loggedFrames pml4 [] := by
    simp [loggedFrames]
  have hempty := entries_of_zero hentry
  obtain ⟨T, hadvance, hleaf, _⟩ := mapRun_spec (logged_supply pfaRequestPage pml4) calls
    (s := ⟨memory, (alloc, [])⟩) hroot htree hfresh
  have hmem : (mapRun pfaRequestPage pml4 calls ⟨memory, alloc⟩).mem =
      (mapRun (logged pfaRequestPage) pml4 calls ⟨memory, (alloc, [])⟩).mem := by
    have h := mapRun_logged pfaRequestPage pml4 calls ⟨memory, (alloc, [])⟩
    exact (congrArg Machine.mem h).symm
  intro m
  have htree' : TreeInvariant pml4 T m := by
    rw [show m = _ from hmem]
    exact hadvance.tree
  have hbefore : ∀ virtualAddress, lookup (entries memory) pml4 (path virtualAddress) = none :=
    fun virtualAddress => lookup_of_empty hempty _ (by simp [path])
  have htranslate := translate_spec htree'
  refine ⟨fun virtualAddress i hi hsame hlast => ?_, fun virtualAddress hnone => ?_⟩
  · have hpa : frameOf calls[i].2 = calls[i].2 / 4096 * 4096 := by
      have := hphysical _ (List.getElem_mem hi)
      unfold frameOf
      omega
    refine (htranslate virtualAddress).1 _ ?_
    rw [show m = _ from hmem, hleaf, lastMapped_of_last virtualAddress calls _ i hi hsame hlast, hpa]
  · refine (htranslate virtualAddress).2 ?_
    rw [show m = _ from hmem, hleaf, lastMapped_of_none virtualAddress calls _ hnone, hbefore]

/-- What each request makes true of the allocator after one more request holds after a run,
    which makes at most three requests in a call. -/
theorem mapRun_alloc (pfaRequestPage : Machine α → ℕ × Machine α) (P : ℕ → α → Prop)
    (hrequest : ∀ n s, P n s.alloc → P (n + 1) (pfaRequestPage s).2.alloc)
    (hmono : ∀ n a, P n a → P (n + 1) a) (pml4 : ℕ) (calls : List (ℕ × ℕ)) {n : ℕ}
    {s : Machine α} (h : P n s.alloc) :
    P (n + 3 * calls.length) (mapRun pfaRequestPage pml4 calls s).alloc := by
  have hnext : ∀ n table field s, P n s.alloc →
      P (n + 1) (nextTable pfaRequestPage table field s).2.alloc := by
    intro n table field s hs
    cases he : pdeGetFlag (readEntry s.mem table (load64 s.mem field)) .present with
    | false =>
      rw [nextTable_absent he]
      exact hrequest n s hs
    | true =>
      rw [nextTable_present he]
      exact hmono n _ hs
  induction calls generalizing n s with
  | nil => exact h
  | cons call calls ih =>
    have hcall : P (n + 3) (ptmMapMemory pfaRequestPage pml4 call.1 call.2 s).alloc := by
      rw [ptmMapMemory_eq]
      exact hnext _ _ _ _ (hnext _ _ _ _ (hnext _ _ _ (indexed call.1 s) h))
    have := ih hcall
    rwa [show n + 3 + 3 * calls.length = n + 3 * (calls.length + 1) by omega] at this

def counting (s : Machine ℕ) : ℕ × Machine ℕ := (0x2000 + 0x1000 * s.alloc, ⟨s.mem, s.alloc + 1⟩)

theorem counting_fresh (calls : List (ℕ × ℕ)) (hcalls : calls.length ≤ 2 ^ 20) (m : Mem) :
    FreshRequests 0x1000 (mapRun (logged counting) 0x1000 calls ⟨m, (0, [])⟩).alloc.2 := by
  have h := mapRun_alloc (logged counting)
    (fun n a => a.1 ≤ n ∧
      (∀ r ∈ a.2, 0x2000 ≤ r.page ∧ r.page < 0x2000 + 0x1000 * a.1) ∧
      (n ≤ 2 ^ 30 → FreshRequests 0x1000 a.2)) ?_ ?_ 0x1000 calls (n := 0)
      (s := ⟨m, (0, [])⟩) ⟨le_rfl, by simp, fun _ => .nil⟩
  · exact h.2.2 (by omega)
  · rintro n s ⟨hn, hpages, hfresh⟩
    refine ⟨Nat.succ_le_succ hn, ?_, fun hle => .cons (hfresh (by omega)) ?_ ?_ ?_ fun _ _ => rfl⟩
    · intro r hr
      obtain rfl | hr := List.mem_cons.1 hr
      · dsimp only [counting, logged]
        omega
      · have := hpages r hr
        dsimp only [counting, logged]
        omega
    · dsimp only [counting, FrameAddress]
      omega
    · dsimp only [counting]
      omega
    · intro r hr
      have := hpages r hr
      dsimp only [counting]
      omega
  · rintro n a ⟨hn, hpages, hfresh⟩
    exact ⟨by omega, hpages, fun hle => hfresh (by omega)⟩

/-- The first page is mapped twice, the second time to the highest frame. -/
theorem mapRun_translates_counting :
    let m := (mapRun counting 0x1000
      [(0x400000, 0x5000), (0x7fff00001000, 0x9000), (0x400abc, 0xfffffffffffff)]
      ⟨fun _ => 0#8, 0⟩).mem
    MapsTo m 0x1000 0x400123 0xffffffffff000 ∧ MapsTo m 0x1000 0x7fff00001fff 0x9000 ∧
      translate m 0x1000 0x401000 = none := by
  have hfresh := counting_fresh
    [(0x400000, 0x5000), (0x7fff00001000, 0x9000), (0x400abc, 0xfffffffffffff)] (by simp)
    (fun _ => 0#8)
  have h := mapRun_translates counting 0x1000
    [(0x400000, 0x5000), (0x7fff00001000, 0x9000), (0x400abc, 0xfffffffffffff)]
    (fun _ => 0#8) 0 ⟨by decide, by decide, by decide⟩ (fun _ _ => rfl) (by simp) hfresh
  refine ⟨?_, ?_, h.2 0x401000 (by decide)⟩
  · have hlast := h.1 0x400123 2 (by decide) (by decide) fun j hj hij => by
      simp only [List.length_cons, List.length_nil] at hj
      omega
    simpa using hlast
  · have hlast := h.1 0x7fff00001fff 1 (by decide) (by decide) fun j hj hij => by
      simp only [List.length_cons, List.length_nil] at hj
      obtain rfl : j = 2 := by omega
      exact (by decide : ¬ SamePage 0x7fff00001fff 0x400abc)
    simpa using hlast

end Rizzos.PageTableTranslation
