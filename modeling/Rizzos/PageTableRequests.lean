import Rizzos.PageFrameSupply
import Rizzos.PageTableTranslation

set_option autoImplicit false

/-! One call of `ptmMapMemory` with the log of its requests, some of which may return null. -/
namespace Rizzos.PageTableRequests
open ByteMemory Memory Paging TableTree PageTableManager PageTableTree PageTableMap
  PageTableTranslation

variable {α : Type} {T : Set ℕ}

/-- The frames in use after the requests of a log, `T` being in use before them. -/
def inUse (T : Set ℕ) (log : List Request) : Set ℕ := T ∪ {t | t ≠ 0 ∧ ∃ r ∈ log, r.page = t}

/-- Every request of a log returned null or a frame that was not in use, and left the frames
    in use and the index struct at address zero alone. -/
inductive HonestRequests (T : Set ℕ) : List Request → Prop
  | nil : HonestRequests T []
  | cons {r : Request} {log : List Request} (earlier : HonestRequests T log)
      (page : r.page ≠ 0 → FrameAddress r.page ∧ r.page ∉ inUse T log)
      (kept : ∀ x, (x < 32 ∨ ∃ t ∈ inUse T log, InFrame t x) → r.after x = r.before x) :
      HonestRequests T (r :: log)

theorem inUse_nil : inUse T [] = T := by
  simp [inUse]

theorem inUse_cons {r : Request} {log : List Request} (h : r.page ≠ 0) :
    inUse T (r :: log) = insert r.page (inUse T log) := by
  ext t
  simp only [inUse, Set.mem_union, Set.mem_ofPred_eq, Set.mem_insert_iff, List.mem_cons,
    exists_eq_or_imp]
  constructor
  · rintro (ht | ⟨_, rfl | hlog⟩)
    · exact .inr (.inl ht)
    · exact .inl rfl
    · exact .inr (.inr ⟨by assumption, hlog⟩)
  · rintro (rfl | ht | ⟨hne, hlog⟩)
    · exact .inr ⟨h, .inl rfl⟩
    · exact .inl ht
    · exact .inr ⟨hne, .inr hlog⟩

theorem inUse_subset_cons (r : Request) (log : List Request) :
    inUse T log ⊆ inUse T (r :: log) := by
  rintro t (ht | ⟨hne, r', hr', rfl⟩)
  · exact .inl ht
  · exact .inr ⟨hne, r', List.mem_cons_of_mem _ hr', rfl⟩

theorem HonestRequests.tail {r : Request} {log : List Request} (h : HonestRequests T (r :: log)) :
    HonestRequests T log := by
  cases h with
  | cons earlier _ _ => exact earlier

theorem HonestRequests.page {r : Request} {log : List Request} (h : HonestRequests T (r :: log))
    (hne : r.page ≠ 0) : FrameAddress r.page ∧ r.page ∉ inUse T log := by
  cases h with
  | cons _ page _ => exact page hne

theorem HonestRequests.kept {r : Request} {log : List Request} (h : HonestRequests T (r :: log))
    {x : ℕ} (hx : x < 32 ∨ ∃ t ∈ inUse T log, InFrame t x) : r.after x = r.before x := by
  cases h with
  | cons _ _ kept => exact kept x hx

theorem HonestRequests.kept_all {log : List Request} (h : HonestRequests T log) {x : ℕ}
    (hx : x < 32 ∨ ∃ t ∈ T, InFrame t x) : ∀ r ∈ log, r.after x = r.before x := by
  induction h with
  | nil => simp
  | cons earlier page kept ih =>
    refine List.forall_mem_cons.2 ⟨kept x (hx.imp id ?_), ih⟩
    rintro ⟨t, ht, hin⟩
    exact ⟨t, .inl ht, hin⟩

theorem HonestRequests.page_all {log : List Request} (h : HonestRequests T log) :
    ∀ r ∈ log, r.page ≠ 0 → FrameAddress r.page ∧ r.page ∉ T := by
  induction h with
  | nil => simp
  | cons earlier page kept ih =>
    refine List.forall_mem_cons.2 ⟨fun hne => ?_, ih⟩
    exact ⟨(page hne).1, fun ht => (page hne).2 (.inl ht)⟩

def Available (log : List Request) : Prop := ∀ r ∈ log, r.page ≠ 0

variable (pfaRequestPage : Machine α → ℕ × Machine α)

def callLog (pml4 virtualMemory physicalMemory : ℕ) (s : Machine α) : List Request :=
  (ptmMapMemory (logged pfaRequestPage) pml4 virtualMemory physicalMemory
    ⟨s.mem, (s.alloc, [])⟩).alloc.2

theorem ptmMapMemory_mem (pml4 virtualMemory physicalMemory : ℕ) (s : Machine α) :
    (ptmMapMemory pfaRequestPage pml4 virtualMemory physicalMemory s).mem =
      (ptmMapMemory (logged pfaRequestPage) pml4 virtualMemory physicalMemory
        ⟨s.mem, (s.alloc, [])⟩).mem := by
  have h := ptmMapMemory_logged pfaRequestPage pml4 virtualMemory physicalMemory
    ⟨s.mem, (s.alloc, [])⟩
  exact (congrArg Machine.mem h).symm

theorem logged_log (s : Machine (α × List Request)) : (logged pfaRequestPage s).2.alloc.2 =
    ⟨(logged pfaRequestPage s).1, s.mem, (logged pfaRequestPage s).2.mem⟩ :: s.alloc.2 := rfl

def AllServed (T : Set ℕ) (a : α × List Request) : Prop := HonestRequests T a.2 ∧ Available a.2

def LoggedFrames (T : Set ℕ) (s : Machine (α × List Request)) (U : Set ℕ) : Prop :=
  U = inUse T s.alloc.2

/-- While every request is served, the log is a supply of frames. -/
theorem honest_supply (T : Set ℕ) :
    FrameSupply (logged pfaRequestPage) (AllServed T) (LoggedFrames T) where
  good _ h := ⟨h.1.tail, fun r hr => h.2 r (List.mem_cons_of_mem _ hr)⟩
  frame _ _ _ h := (h.1.page (h.2 _ List.mem_cons_self)).1
  fresh _ _ hU h := by
    rw [LoggedFrames] at hU
    rw [hU]
    exact (h.1.page (h.2 _ List.mem_cons_self)).2
  kept s U x hU h hx := by
    rw [LoggedFrames] at hU
    rw [hU] at hx
    exact h.1.kept hx
  own s U hU h := by
    rw [LoggedFrames] at hU ⊢
    rw [hU]
    exact (inUse_cons (h.2 _ List.mem_cons_self)).symm
  write _ _ _ hU _ := hU

structure Accounted (Own : Machine α → Set ℕ → Prop) (T : Set ℕ)
    (s : Machine (α × List Request)) (U : Set ℕ) : Prop where
  own : Own (unlogged s) U
  logged : U = inUse T s.alloc.2
  honest : HonestRequests T s.alloc.2
  available : Available s.alloc.2

variable {pfaRequestPage} {Good : α → Prop} {Own : Machine α → Set ℕ → Prop}

theorem Accounted.request {s : Machine (α × List Request)} {U : Set ℕ}
    (sup : FrameSupply pfaRequestPage Good Own) (h : Accounted Own T s U)
    (hgood : Good (PageTableTranslation.logged pfaRequestPage s).2.alloc.1) :
    Accounted Own T (PageTableTranslation.logged pfaRequestPage s).2
      (insert (PageTableTranslation.logged pfaRequestPage s).1 U) := by
  have hframe := sup.frame _ U h.own hgood
  have hfresh := sup.fresh _ U h.own hgood
  have hne : (pfaRequestPage (unlogged s)).1 ≠ 0 := by
    obtain ⟨_, hpos, _⟩ := hframe
    omega
  refine ⟨sup.own _ U h.own hgood, ?_, .cons h.honest (fun _ => ⟨hframe, ?_⟩) fun x hx => ?_,
    List.forall_mem_cons.2 ⟨hne, h.available⟩⟩
  · rw [h.logged, logged_log, inUse_cons]
    exact hne
  · rw [← h.logged]
    exact hfresh
  · rw [← h.logged] at hx
    exact sup.kept _ U x h.own hgood hx

theorem accounted_supply (sup : FrameSupply pfaRequestPage Good Own) (T : Set ℕ) :
    FrameSupply (logged pfaRequestPage) (fun a => Good a.1) (Accounted Own T) where
  good s h := sup.good (unlogged s) h
  frame _ U h hgood := sup.frame _ U h.own hgood
  fresh _ U h hgood := sup.fresh _ U h.own hgood
  kept _ U x h hgood hx := sup.kept _ U x h.own hgood hx
  own _ _ h hgood := h.request sup hgood
  write _ U m' h hm := ⟨sup.write _ U m' h.own hm, h.logged, h.honest, h.available⟩

theorem supply_honest (sup : FrameSupply pfaRequestPage Good Own) {pml4 : ℕ}
    (virtualMemory physicalMemory : ℕ) {s : Machine α} (hown : Own s T)
    (htree : TreeInvariant pml4 T s.mem)
    (hgood : Good (ptmMapMemory pfaRequestPage pml4 virtualMemory physicalMemory s).alloc) :
    HonestRequests T (callLog pfaRequestPage pml4 virtualMemory physicalMemory s) ∧
      Available (callLog pfaRequestPage pml4 virtualMemory physicalMemory s) := by
  have hlogged : unlogged (ptmMapMemory (logged pfaRequestPage) pml4 virtualMemory
      physicalMemory ⟨s.mem, (s.alloc, [])⟩) =
      ptmMapMemory pfaRequestPage pml4 virtualMemory physicalMemory s :=
    ptmMapMemory_logged pfaRequestPage pml4 virtualMemory physicalMemory ⟨s.mem, (s.alloc, [])⟩
  rw [← hlogged] at hgood
  have hstart : Accounted Own T ⟨s.mem, (s.alloc, [])⟩ T :=
    ⟨hown, inUse_nil.symm, .nil, by simp [Available]⟩
  obtain ⟨T', hadvance, _⟩ := ptmMapMemory_spec (accounted_supply sup T) virtualMemory
    physicalMemory hstart htree hgood
  exact ⟨hadvance.own.honest, hadvance.own.available⟩

theorem pfaRequestPage_honest {bitmap : UtilsBitmap.Bitmap} {B : Set ℕ}
    {s : Machine PageFrameAllocator.Pfa} {pml4 : ℕ} (virtualMemory physicalMemory : ℕ)
    (hown : PageFrameSupply.Handed bitmap B s T) (htree : TreeInvariant pml4 T s.mem)
    (hserved : PageFrameSupply.Served
      (ptmMapMemory PageFrameAllocator.pfaRequestPage pml4 virtualMemory physicalMemory s).alloc) :
    HonestRequests T
        (callLog PageFrameAllocator.pfaRequestPage pml4 virtualMemory physicalMemory s) ∧
      Available (callLog PageFrameAllocator.pfaRequestPage pml4 virtualMemory physicalMemory s) :=
  supply_honest (PageFrameSupply.pfa_supply bitmap B) virtualMemory physicalMemory hown htree
    hserved

theorem blank_tree : TreeInvariant 0x1000 {0x1000} fun _ => 0#8 :=
  TreeInvariant.of_zero ⟨by decide, by decide, by decide⟩ fun _ _ => by
    rw [readEntry, load64, loadLE_zero fun _ _ => rfl]

end Rizzos.PageTableRequests
