import Rizzos.PageTableMap

set_option autoImplicit false

/-! Runs of `ptmMapMemory`: what the processor finds after any sequence of calls. -/
namespace Rizzos.PageTableRuns
open ByteMemory Memory Paging TableTree PageTableManager PageTableTree PageTableMap

def SamePage (a b : ℕ) : Prop := a / 4096 % 2 ^ 36 = b / 4096 % 2 ^ 36

instance (a b : ℕ) : Decidable (SamePage a b) := inferInstanceAs (Decidable (_ = _))

theorem samePage_iff_path {a b : ℕ} : SamePage a b ↔ path a = path b := by
  simp only [SamePage, path, tableIndex, List.cons.injEq, and_true]
  norm_num
  omega

def mapRun {α : Type} (pfaRequestPage : Machine α → ℕ × Machine α) (pml4 : ℕ) :
    List (ℕ × ℕ) → Machine α → Machine α
  | [], s => s
  | (virtualMemory, physicalMemory) :: calls, s =>
    mapRun pfaRequestPage pml4 calls
      (ptmMapMemory pfaRequestPage pml4 virtualMemory physicalMemory s)

theorem mapRun_cons {α : Type} (pfaRequestPage : Machine α → ℕ × Machine α) (pml4 : ℕ)
    (call : ℕ × ℕ) (calls : List (ℕ × ℕ)) (s : Machine α) :
    mapRun pfaRequestPage pml4 (call :: calls) s =
      mapRun pfaRequestPage pml4 calls (ptmMapMemory pfaRequestPage pml4 call.1 call.2 s) := rfl

theorem mapRun_append {α : Type} (pfaRequestPage : Machine α → ℕ × Machine α) (pml4 : ℕ)
    (calls calls' : List (ℕ × ℕ)) (s : Machine α) :
    mapRun pfaRequestPage pml4 (calls ++ calls') s =
      mapRun pfaRequestPage pml4 calls' (mapRun pfaRequestPage pml4 calls s) := by
  induction calls generalizing s with
  | nil => rfl
  | cons call calls ih => exact ih _

/-- The frame that the last call for the page of `virtualAddress` gives it. -/
def lastMapped (virtualAddress : ℕ) : List (ℕ × ℕ) → Option ℕ → Option ℕ
  | [], found => found
  | (virtualMemory, physicalMemory) :: calls, found =>
    lastMapped virtualAddress calls
      (if SamePage virtualAddress virtualMemory then some (frameOf physicalMemory) else found)

theorem lastMapped_of_none (virtualAddress : ℕ) (calls : List (ℕ × ℕ)) (found : Option ℕ)
    (h : ∀ call ∈ calls, ¬ SamePage virtualAddress call.1) :
    lastMapped virtualAddress calls found = found := by
  induction calls generalizing found with
  | nil => rfl
  | cons call calls ih =>
    rw [lastMapped, if_neg (h call (by simp))]
    exact ih found fun c hc => h c (by simp [hc])

theorem lastMapped_of_last (virtualAddress : ℕ) (calls : List (ℕ × ℕ)) (found : Option ℕ) (i : ℕ)
    (hi : i < calls.length) (hsame : SamePage virtualAddress calls[i].1)
    (hlast : ∀ j (hj : j < calls.length), i < j → ¬ SamePage virtualAddress calls[j].1) :
    lastMapped virtualAddress calls found = some (frameOf calls[i].2) := by
  induction calls generalizing found i with
  | nil => cases hi
  | cons call calls ih =>
    cases i with
    | zero =>
      rw [List.getElem_cons_zero] at hsame
      rw [lastMapped, if_pos hsame]
      refine lastMapped_of_none virtualAddress calls _ fun c hc => ?_
      obtain ⟨j, hj, rfl⟩ := List.mem_iff_getElem.1 hc
      exact hlast (j + 1) (by rw [List.length_cons]; omega) (by omega)
    | succ i =>
      rw [List.length_cons] at hi
      refine ih _ i (by omega) hsame fun j hj hij => ?_
      exact hlast (j + 1) (by rw [List.length_cons]; omega) (by omega)

section Run
variable {α : Type} {pfaRequestPage : Machine α → ℕ × Machine α} {Good : α → Prop}
  {Own : Machine α → Set ℕ → Prop} {pml4 : ℕ}

theorem ptmMapMemory_good (hback : ∀ s, Good (pfaRequestPage s).2.alloc → Good s.alloc)
    (virtualMemory physicalMemory : ℕ) (s : Machine α)
    (h : Good (ptmMapMemory pfaRequestPage pml4 virtualMemory physicalMemory s).alloc) :
    Good s.alloc := by
  rw [ptmMapMemory_eq] at h
  exact leafTable_good hback virtualMemory s h

theorem mapRun_good (hback : ∀ s, Good (pfaRequestPage s).2.alloc → Good s.alloc)
    (calls : List (ℕ × ℕ))
    (s : Machine α) (h : Good (mapRun pfaRequestPage pml4 calls s).alloc) : Good s.alloc := by
  induction calls generalizing s with
  | nil => exact h
  | cons call calls ih => exact ptmMapMemory_good hback _ _ _ (ih _ h)

/-- After a run a leaf is what the last call for its page made it, and the tables are those
    on the way to the leaves. -/
theorem mapRun_spec (sup : FrameSupply pfaRequestPage Good Own) (calls : List (ℕ × ℕ))
    {s : Machine α} {T : Set ℕ} (hown : Own s T) (htree : TreeInvariant pml4 T s.mem)
    (hgood : Good (mapRun pfaRequestPage pml4 calls s).alloc) :
    let s' := mapRun pfaRequestPage pml4 calls s
    ∃ T', Advance Own pml4 s T s' T' ∧
      (∀ virtualAddress, lookup (entries s'.mem) pml4 (path virtualAddress) =
        lastMapped virtualAddress calls (lookup (entries s.mem) pml4 (path virtualAddress))) ∧
      (∀ q : List ℕ, q.length < 4 → ((lookup (entries s'.mem) pml4 q).isSome ↔
        (lookup (entries s.mem) pml4 q).isSome ∨ ∃ call ∈ calls, q <:+ path call.1)) := by
  induction calls generalizing s T with
  | nil => exact ⟨T, .refl hown htree, fun _ => rfl, fun q _ => by simp [mapRun]⟩
  | cons call calls ih =>
    obtain ⟨T1, ha1, hleaf1, hnew1, hold1⟩ := ptmMapMemory_spec sup call.1 call.2 hown htree
      (mapRun_good sup.good calls _ hgood)
    obtain ⟨T2, ha2, hleaf2, hnode2⟩ := ih ha1.own ha1.tree hgood
    refine ⟨T2, ha1.trans ha2, fun virtualAddress => ?_, fun q hq => ?_⟩
    · refine (hleaf2 virtualAddress).trans ?_
      rw [hleaf1 _ rfl]
      simp only [lastMapped, samePage_iff_path]
    · refine (hnode2 q hq).trans ?_
      by_cases hsuffix : q <:+ path call.1
      · simp [hnew1 q hq hsuffix, hsuffix]
      · rw [hold1 q hq hsuffix]
        simp [hsuffix]

end Run

theorem walk_spec {pml4 : ℕ} {T : Set ℕ} {m : Mem} (htree : TreeInvariant pml4 T m)
    (rest : List ℕ) {p : List ℕ} {t : ℕ} (read : List PageDirEntry)
    (ht : lookup (entries m) pml4 p = some t) (hlength : p.length + rest.length = 4)
    (hrest : ∀ index ∈ rest, index < 512) :
    (∀ f, lookup (entries m) pml4 (rest.reverse ++ p) = some f →
      ∃ l : List PageDirEntry, walk m t rest read = some ⟨f, l ++ read⟩ ∧
        l.length = rest.length ∧ ∀ e ∈ l, e.getLsbD 0 = true ∧ e.getLsbD 1 = true) ∧
    (lookup (entries m) pml4 (rest.reverse ++ p) = none → walk m t rest read = none) := by
  induction rest generalizing p t read with
  | nil =>
    rw [List.reverse_nil, List.nil_append, ht]
    refine ⟨fun f hf => ⟨[], ?_, rfl, by simp⟩, fun h => by cases h⟩
    cases hf
    rfl
  | cons index rest ih =>
    rw [List.length_cons] at hlength
    have hi : index < 512 := hrest index (by simp)
    rw [List.reverse_cons, List.append_assoc, List.singleton_append]
    obtain ⟨hlarge, hwritable⟩ := htree.flags t index ⟨p, by omega, ht⟩ hi
    simp only [pdeGetFlag_eq, PtFlag.bit] at hlarge hwritable
    cases hpresent : pdeGetFlag (readEntry m t index) .present with
    | false =>
      have hnone : lookup (entries m) pml4 (index :: p) = none := by
        rw [lookup_cons_of_some ht, entries_of_absent hpresent]
      have hbelow : lookup (entries m) pml4 (rest.reverse ++ index :: p) = none := by
        rw [← Option.not_isSome_iff_eq_none]
        intro h
        have := lookup_suffix_isSome (List.suffix_append rest.reverse (index :: p)) h
        rw [hnone] at this
        cases this
      simp only [pdeGetFlag_eq, PtFlag.bit] at hpresent
      refine ⟨fun f hf => ?_, fun _ => by rw [walk, if_pos hpresent]⟩
      rw [hbelow] at hf
      cases hf
    | true =>
      have hnext : lookup (entries m) pml4 (index :: p) =
          some (entryFrame (readEntry m t index)) := by
        rw [lookup_cons_of_some ht, entries_of_present hi hpresent, pdeFrame_eq]
      simp only [pdeGetFlag_eq, PtFlag.bit] at hpresent
      have hwalk : walk m t (index :: rest) read =
          walk m (entryFrame (readEntry m t index)) rest (readEntry m t index :: read) := by
        rw [walk, if_neg (fun h => by rw [hpresent] at h; cases h),
          if_neg (fun h => by rw [hlarge] at h; cases h.2)]
      obtain ⟨hsome, hnone⟩ := ih (readEntry m t index :: read) hnext
        (by rw [List.length_cons]; omega) fun j hj => hrest j (by simp [hj])
      rw [hwalk]
      refine ⟨fun f hf => ?_, hnone⟩
      obtain ⟨l, hl, hlen, hall⟩ := hsome f hf
      refine ⟨l ++ [readEntry m t index], by simpa using hl, by simp [hlen], ?_⟩
      intro e he
      obtain he | he := List.mem_append.1 he
      · exact hall e he
      · rw [List.mem_singleton.1 he]
        exact ⟨hpresent, hwritable hpresent⟩

/-- The address translates to `f` through four entries that are present and writable. -/
def MapsTo (m : Mem) (pml4 virtualAddress f : ℕ) : Prop :=
  ∃ t, translate m pml4 virtualAddress = some t ∧ t.frame = f ∧ t.entries.length = 4 ∧
    ∀ e ∈ t.entries, e.getLsbD 0 = true ∧ e.getLsbD 1 = true

theorem translate_spec {pml4 : ℕ} {T : Set ℕ} {m : Mem} (htree : TreeInvariant pml4 T m)
    (virtualAddress : ℕ) :
    (∀ f, lookup (entries m) pml4 (path virtualAddress) = some f → MapsTo m pml4 virtualAddress f) ∧
    (lookup (entries m) pml4 (path virtualAddress) = none →
      translate m pml4 virtualAddress = none) := by
  obtain ⟨hsome, hnone⟩ := walk_spec htree [tableIndex 3 virtualAddress,
    tableIndex 2 virtualAddress, tableIndex 1 virtualAddress, tableIndex 0 virtualAddress]
    (p := []) [] rfl rfl (by simp [tableIndex_lt])
  refine ⟨fun f hf => ?_, hnone⟩
  obtain ⟨l, hl, hlength, hall⟩ := hsome f hf
  rw [List.append_nil] at hl
  exact ⟨⟨f, l⟩, hl, rfl, hlength, hall⟩

end Rizzos.PageTableRuns
