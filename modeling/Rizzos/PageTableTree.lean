import Rizzos.PageTableManager

set_option autoImplicit false

/-! The tables that `ptmMapMemory` builds stay a tree: one call adds one leaf. -/
namespace Rizzos.PageTableTree
open ByteMemory Memory Paging TableTree PageTableManager

/-- The four levels of tables below `pml4` lie in separate frames of `T`, and their entries
    map no large pages and are writable where they are present. -/
structure TreeInvariant (pml4 : ℕ) (T : Set ℕ) (m : Mem) : Prop where
  frames : ∀ t ∈ T, FrameAddress t
  owned : ∀ t, IsTable (entries m) pml4 4 t → t ∈ T
  separate : Separate (entries m) pml4 4
  flags : ∀ t index, IsTable (entries m) pml4 4 t → index < 512 →
    pdeGetFlag (readEntry m t index) .largePages = false ∧
    (pdeGetFlag (readEntry m t index) .present = true →
      pdeGetFlag (readEntry m t index) .readWrite = true)

theorem entries_of_present {m : Mem} {t index : ℕ} (hi : index < 512)
    (h : pdeGetFlag (readEntry m t index) .present = true) :
    entries m t index = some (pdeFrame (readEntry m t index)) := by
  rw [entries, if_pos ⟨hi, h⟩]

theorem entries_of_absent {m : Mem} {t index : ℕ}
    (h : pdeGetFlag (readEntry m t index) .present = false) : entries m t index = none := by
  rw [entries, if_neg]
  rintro ⟨_, hp⟩
  rw [h] at hp
  cases hp

theorem entries_of_zero {m : Mem} {t : ℕ} (h : ∀ index < 512, readEntry m t index = 0#64)
    (index : ℕ) : entries m t index = none := by
  by_cases hi : index < 512
  · apply entries_of_absent
    rw [h index hi]
    rfl
  · rw [entries, if_neg fun hc => hi hc.1]

theorem entries_congr {m m' : Mem} {t : ℕ}
    (h : ∀ index < 512, readEntry m' t index = readEntry m t index) :
    entries m' t = entries m t := by
  funext index
  by_cases hi : index < 512
  · rw [entries, entries, h index hi]
  · rw [entries, entries, if_neg fun hc => hi hc.1, if_neg fun hc => hi hc.1]

section Invariant
variable {pml4 : ℕ} {T : Set ℕ} {m m' : Mem}

theorem TreeInvariant.readEntry_congr (h : TreeInvariant pml4 T m)
    (hm : ∀ t, IsTable (entries m) pml4 4 t → Agree m m' t 4096) {t index : ℕ}
    (ht : IsTable (entries m) pml4 4 t) (hi : index < 512) :
    readEntry m' t index = readEntry m t index := by
  obtain ⟨_, _, hlt⟩ := h.frames t (h.owned t ht)
  exact PageTableManager.readEntry_congr (hm t ht) (by omega) hi

theorem TreeInvariant.entries_congr (h : TreeInvariant pml4 T m)
    (hm : ∀ t, IsTable (entries m) pml4 4 t → Agree m m' t 4096) :
    ∀ t, IsTable (entries m) pml4 4 t → entries m' t = entries m t :=
  fun _ ht => PageTableTree.entries_congr fun _ hi => h.readEntry_congr hm ht hi

theorem TreeInvariant.congr (h : TreeInvariant pml4 T m)
    (hm : ∀ t, IsTable (entries m) pml4 4 t → Agree m m' t 4096) : TreeInvariant pml4 T m' := by
  have he := h.entries_congr hm
  refine ⟨h.frames, fun t ht => h.owned t ((isTable_congr he).1 ht), h.separate.congr he, ?_⟩
  intro t index ht hi
  have ht' := (isTable_congr he).1 ht
  rw [h.readEntry_congr hm ht' hi]
  exact h.flags t index ht' hi

theorem TreeInvariant.of_zero (hframe : FrameAddress pml4)
    (hzero : ∀ index < 512, readEntry m pml4 index = 0#64) : TreeInvariant pml4 {pml4} m := by
  have hempty := entries_of_zero hzero
  refine ⟨?_, fun t ht => isTable_of_empty hempty ht, separate_of_empty hempty, ?_⟩
  · rintro t rfl
    exact hframe
  · intro t index ht hi
    rw [isTable_of_empty hempty ht, hzero index hi]
    exact ⟨rfl, fun h => by cases h⟩

/-- What writing one linked entry does to the memory of the tree. -/
structure EntryWritten (pml4 : ℕ) (T : Set ℕ) (m m' : Mem) (p : List ℕ) (index table x : ℕ) :
    Prop where
  short : p.length < 4
  index_lt : index < 512
  parent : lookup (entries m) pml4 p = some table
  written : readEntry m' table index = linkEntry (readEntry m table index) x
  kept : ∀ t ∈ T, ∀ j < 512, t ≠ table ∨ j ≠ index → readEntry m' t j = readEntry m t j
  target : p.length = 3 ∨ (entries m table index = none ∧ x ∉ T ∧ FrameAddress x ∧
    ∀ j < 512, readEntry m' x j = 0#64)

variable {p : List ℕ} {index table x : ℕ}

theorem EntryWritten.linked (hw : EntryWritten pml4 T m m' p index table x)
    (h : TreeInvariant pml4 T m) :
    Linked (entries m) (entries m') pml4 4 p index table (frameOf x) where
  short := hw.short
  table := hw.parent
  set := by
    rw [entries_of_present hw.index_lt, hw.written, pdeFrame_linkEntry]
    rw [hw.written]
    exact linkEntry_present _ _
  keep t j ht hne := by
    by_cases hj : j < 512
    · rw [entries, entries, hw.kept t (h.owned t ht) j hj hne]
    · rw [entries, entries, if_neg fun hc => hj hc.1, if_neg fun hc => hj hc.1]
  target := by
    obtain hleaf | ⟨hnone, hx, hframe, hzero⟩ := hw.target
    · exact .inl (by omega)
    · rw [hframe.frameOf]
      exact .inr ⟨hnone, fun ht => hx (h.owned x ht), entries_of_zero hzero⟩

theorem EntryWritten.tree (hw : EntryWritten pml4 T m m' p index table x)
    (h : TreeInvariant pml4 T m) {T' : Set ℕ} (hsub : T ⊆ T') (hframes : ∀ t ∈ T', FrameAddress t)
    (hx : p.length = 3 ∨ x ∈ T') : TreeInvariant pml4 T' m' := by
  have hl := hw.linked h
  have hnew : ∀ t, IsTable (entries m') pml4 4 t →
      IsTable (entries m) pml4 4 t ∨ t = x ∧ x ∈ T' ∧ ∀ j < 512, readEntry m' x j = 0#64 := by
    intro t ht
    by_cases hleaf : p.length = 3
    · -- a leaf is no table: its path has full length
      obtain ⟨q, hq, e⟩ := ht
      rw [hl.lookup h.separate (by omega)] at e
      by_cases hqp : q = index :: p
      · rw [hqp, List.length_cons] at hq
        omega
      · rw [if_neg hqp] at e
        exact .inl ⟨q, hq, e⟩
    · obtain ⟨_, _, hframe, hzero⟩ := hw.target.resolve_left hleaf
      obtain hold | ⟨rfl, _⟩ := hl.isTable h.separate ht
      · exact .inl hold
      · exact .inr ⟨hframe.frameOf, hx.resolve_left hleaf, hzero⟩
  refine ⟨hframes, ?_, hl.separate h.separate, ?_⟩
  · intro t ht
    obtain hold | ⟨rfl, hx, _⟩ := hnew t ht
    · exact hsub (h.owned t hold)
    · exact hx
  · intro t j ht hj
    obtain hold | ⟨rfl, _, hzero⟩ := hnew t ht
    · by_cases hhere : t = table ∧ j = index
      · obtain ⟨rfl, rfl⟩ := hhere
        rw [hw.written, linkEntry_largePages]
        exact ⟨(h.flags t j hold hj).1, fun _ => linkEntry_readWrite _ _⟩
      · rw [hw.kept t (h.owned t hold) j hj (by tauto)]
        exact h.flags t j hold hj
    · rw [hzero j hj]
      exact ⟨rfl, fun h => by cases h⟩

end Invariant

end Rizzos.PageTableTree
