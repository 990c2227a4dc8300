import Rizzos.PageTableRuns

set_option autoImplicit false

/-! How many tables a run of `ptmMapMemory` requests: one for every prefix of an address that
it maps. -/
namespace Rizzos.PageTableCount
open ByteMemory Memory Paging TableTree PageTableManager PageTableTree PageTableMap PageTableRuns

def nodes (m : Mem) (pml4 : ℕ) : Set (List ℕ) :=
  {q | q.length < 4 ∧ (lookup (entries m) pml4 q).isSome}

/-- The paths of the tables that a sequence of calls needs, the top table's among them. -/
def neededTables (calls : List (ℕ × ℕ)) : Finset (List ℕ) :=
  ([] :: calls.flatMap fun call => (path call.1).tail.tails).toFinset

theorem suffix_tail_iff {q : List ℕ} {virtualAddress : ℕ} :
    q <:+ (path virtualAddress).tail ↔ q.length < 4 ∧ q <:+ path virtualAddress := by
  constructor
  · intro h
    have := h.length_le
    rw [path_tail_length] at this
    exact ⟨by omega, h.trans (List.tail_suffix _)⟩
  · rintro ⟨hlen, h⟩
    obtain rfl | h := List.suffix_cons_iff.1 h
    · exact absurd hlen (by simp)
    · exact h

theorem mem_neededTables {calls : List (ℕ × ℕ)} {q : List ℕ} : q ∈ neededTables calls ↔
    q.length < 4 ∧ (q = [] ∨ ∃ call ∈ calls, q <:+ path call.1) := by
  simp only [neededTables, List.mem_toFinset, List.mem_cons, List.mem_flatMap, List.mem_tails,
    suffix_tail_iff]
  constructor
  · rintro (rfl | ⟨call, hcall, hlen, h⟩)
    · exact ⟨by simp, .inl rfl⟩
    · exact ⟨hlen, .inr ⟨call, hcall, h⟩⟩
  · rintro ⟨hlen, hnil | ⟨call, hcall, h⟩⟩
    · exact .inl hnil
    · exact .inr ⟨call, hcall, hlen, h⟩

theorem tables_ncard {m : Mem} {pml4 : ℕ} {T : Set ℕ} (hs : Separate (entries m) pml4 4)
    (hT : ∀ t, IsTable (entries m) pml4 4 t ↔ t ∈ T) : T.ncard = (nodes m pml4).ncard := by
  have himage : T = (fun q => (lookup (entries m) pml4 q).getD 0) '' nodes m pml4 := by
    ext t
    rw [← hT]
    constructor
    · rintro ⟨q, hq, e⟩
      exact ⟨q, ⟨hq, by rw [e]; rfl⟩, by simp only [e]; rfl⟩
    · rintro ⟨q, ⟨hq, hsome⟩, rfl⟩
      obtain ⟨t, e⟩ := Option.isSome_iff_exists.1 hsome
      exact ⟨q, hq, by simp only [e]; rfl⟩
  have hinj : Set.InjOn (fun q => (lookup (entries m) pml4 q).getD 0) (nodes m pml4) := by
    rintro p ⟨hp, hpsome⟩ q ⟨hq, hqsome⟩ e
    obtain ⟨t, et⟩ := Option.isSome_iff_exists.1 hpsome
    obtain ⟨u, eu⟩ := Option.isSome_iff_exists.1 hqsome
    simp only [et, eu, Option.getD_some] at e
    exact hs p q t hp hq et (e ▸ eu)
  rw [himage, hinj.ncard_image]

section Counted
variable {α : Type} {pfaRequestPage : Machine α → ℕ × Machine α} {Good Fine : α → Prop}
  {Own : Machine α → Set ℕ → Prop} {pml4 : ℕ} {N : Finset (List ℕ)}

/-- Every frame handed out is a table, and every table lies at one of the paths `N`. -/
structure Counted (Good : α → Prop) (Own : Machine α → Set ℕ → Prop) (pml4 : ℕ)
    (N : Finset (List ℕ)) (s : Machine α) (T : Set ℕ) : Prop where
  good : Good s.alloc
  own : Own s T
  tree : TreeInvariant pml4 T s.mem
  tables : ∀ t, IsTable (entries s.mem) pml4 4 t ↔ t ∈ T
  within : ∀ q ∈ nodes s.mem pml4, q ∈ N

/-- As long as fewer frames than `N` has paths have been handed out, a request is good. -/
def Suffices (pfaRequestPage : Machine α → ℕ × Machine α) (Good Fine : α → Prop)
    (Own : Machine α → Set ℕ → Prop) (N : Finset (List ℕ)) : Prop :=
  ∀ s T, Own s T → Good s.alloc → T.ncard < N.card → Fine (pfaRequestPage s).2.alloc →
    Good (pfaRequestPage s).2.alloc

variable {s : Machine α} {T : Set ℕ}

theorem Counted.advance {s' : Machine α} {T' : Set ℕ} (h : Counted Good Own pml4 N s T)
    (ha : Advance Own pml4 s T s' T') (hgood : Good s'.alloc)
    (hwithin : ∀ q ∈ nodes s'.mem pml4, q ∈ N) : Counted Good Own pml4 N s' T' := by
  refine ⟨hgood, ha.own, ha.tree, fun t => ?_, hwithin⟩
  rw [ha.tables, h.tables]
  refine ⟨fun ht => ht.elim (fun ht => ha.sub ht) fun ht => ht.1, fun ht => ?_⟩
  by_cases hT : t ∈ T
  · exact .inl hT
  · exact .inr ⟨ht, hT⟩

theorem Counted.next (h : Counted Good Own pml4 N s T)
    (hN : Suffices pfaRequestPage Good Fine Own N) {p : List ℕ} {table field index : ℕ}
    (htable : lookup (entries s.mem) pml4 p = some table) (hindex : load64 s.mem field = index)
    (hmem : index :: p ∈ N) (hfine : Fine (nextTable pfaRequestPage table field s).2.alloc) :
    Good (nextTable pfaRequestPage table field s).2.alloc := by
  cases hpresent : pdeGetFlag (readEntry s.mem table (load64 s.mem field)) .present with
  | true =>
    rw [nextTable_present hpresent]
    exact h.good
  | false =>
    rw [nextTable_absent hpresent] at hfine ⊢
    have hnew : index :: p ∉ nodes s.mem pml4 := by
      rintro ⟨_, hsome⟩
      rw [lookup_cons_of_some htable, ← hindex, entries_of_absent hpresent] at hsome
      cases hsome
    have hfinite : (nodes s.mem pml4).Finite := N.finite_toSet.subset h.within
    have hsub : insert (index :: p) (nodes s.mem pml4) ⊆ (N : Set (List ℕ)) :=
      Set.insert_subset hmem h.within
    have hcard := Set.ncard_le_ncard hsub N.finite_toSet
    rw [Set.ncard_insert_of_notMem hnew hfinite, Set.ncard_coe_finset] at hcard
    have htables := tables_ncard h.tree.separate h.tables
    exact hN s T h.own h.good (by omega) hfine

theorem Counted.descended (h : Counted Good Own pml4 N s T) {virtualMemory : ℕ} {p : List ℕ}
    {r : ℕ × Machine α} {T' : Set ℕ} (hd : Descended Own pml4 virtualMemory s T p r T')
    (hp : p <:+ (path virtualMemory).tail)
    (hN : ∀ q : List ℕ, q <:+ (path virtualMemory).tail → q ∈ N) (hgood : Good r.2.alloc) :
    Counted Good Own pml4 N r.2 T' := by
  refine h.advance hd.advance hgood fun q hq => ?_
  by_cases hqp : q <:+ p
  · exact hN q (hqp.trans hp)
  · obtain ⟨hlen, hsome⟩ := hq
    rw [hd.kept q (by omega) hqp] at hsome
    exact h.within q ⟨hlen, hsome⟩

theorem Counted.leafTable (h : Counted Good Own pml4 N s T)
    (sup : FrameSupply pfaRequestPage Good Own) (hN : Suffices pfaRequestPage Good Fine Own N)
    (hback : ∀ s, Fine (pfaRequestPage s).2.alloc → Fine s.alloc) (virtualMemory : ℕ)
    (hpath : ∀ q : List ℕ, q <:+ (path virtualMemory).tail → q ∈ N)
    (hfine : Fine (leafTable pfaRequestPage pml4 virtualMemory s).2.alloc) :
    Good (leafTable pfaRequestPage pml4 virtualMemory s).2.alloc := by
  have hfine2 := nextTable_good hback _ _ _ hfine
  have hfine1 := nextTable_good hback _ _ _ hfine2
  obtain ⟨hindexed, hadvance, hlookup⟩ := indexed_spec sup virtualMemory h.own h.tree
  have h0 : Descended Own pml4 virtualMemory s T [] (pml4, indexed virtualMemory s) T :=
    ⟨hadvance, hindexed, rfl, fun q hq _ => hlookup q hq⟩
  have hs1 : [tableIndex 3 virtualMemory] <:+ (path virtualMemory).tail := ⟨[_, _], rfl⟩
  have hs2 : [tableIndex 2 virtualMemory, tableIndex 3 virtualMemory] <:+
      (path virtualMemory).tail := ⟨[_], rfl⟩
  have c0 := h.descended h0 (List.nil_suffix) hpath h.good
  have g1 := c0.next hN (p := []) rfl hindexed.pdp (hpath _ hs1) hfine1
  obtain ⟨T1, h1⟩ := h0.next sup (by decide) (tableIndex_lt 3 virtualMemory) (by decide)
    hindexed.pdp g1
  have c1 := h.descended h1 hs1 hpath g1
  have g2 := c1.next hN h1.found h1.indexed.pd (hpath _ hs2) hfine2
  obtain ⟨T2, h2⟩ := h1.next sup (by simp) (tableIndex_lt 2 virtualMemory) (by decide)
    h1.indexed.pd g2
  have c2 := h.descended h2 hs2 hpath g2
  exact c2.next hN h2.found h2.indexed.pt (hpath _ List.suffix_rfl) hfine

/-- A run whose addresses have their paths in `N` makes no request too many. -/
theorem Counted.mapRun (h : Counted Good Own pml4 N s T)
    (sup : FrameSupply pfaRequestPage Good Own) (hN : Suffices pfaRequestPage Good Fine Own N)
    (hback : ∀ s, Fine (pfaRequestPage s).2.alloc → Fine s.alloc) (calls : List (ℕ × ℕ))
    (hcalls : neededTables calls ⊆ N)
    (hfine : Fine (mapRun pfaRequestPage pml4 calls s).alloc) :
    Good (mapRun pfaRequestPage pml4 calls s).alloc := by
  induction calls generalizing s T with
  | nil => exact h.good
  | cons call calls ih =>
    have hfine1 := mapRun_good hback calls _ hfine
    have hpath : ∀ q : List ℕ, q <:+ (path call.1).tail → q ∈ N := by
      intro q hq
      obtain ⟨hlen, hq⟩ := suffix_tail_iff.1 hq
      exact hcalls (mem_neededTables.2 ⟨hlen, .inr ⟨call, by simp, hq⟩⟩)
    have hgood : Good (ptmMapMemory pfaRequestPage pml4 call.1 call.2 s).alloc := by
      rw [ptmMapMemory_eq] at hfine1 ⊢
      exact h.leafTable sup hN hback call.1 hpath hfine1
    obtain ⟨T1, ha, _, _, hold⟩ := ptmMapMemory_spec sup call.1 call.2 h.own h.tree hgood
    refine ih (h.advance ha hgood fun q hq => ?_) (fun q hq => hcalls ?_) hfine
    · obtain ⟨hlen, hsome⟩ := hq
      by_cases hsuffix : q <:+ path call.1
      · exact hpath q (suffix_tail_iff.2 ⟨hlen, hsuffix⟩)
      · rw [hold q hlen hsuffix] at hsome
        exact h.within q ⟨hlen, hsome⟩
    · obtain ⟨hlen, hnil | ⟨c, hc, hq⟩⟩ := mem_neededTables.1 hq
      · exact mem_neededTables.2 ⟨hlen, .inl hnil⟩
      · exact mem_neededTables.2 ⟨hlen, .inr ⟨c, by simp [hc], hq⟩⟩

theorem mapRun_tables (sup : FrameSupply pfaRequestPage Good Own) (calls : List (ℕ × ℕ))
    (hown : Own s {pml4}) (htree : TreeInvariant pml4 {pml4} s.mem)
    (hempty : ∀ index, entries s.mem pml4 index = none)
    (hgood : Good (PageTableRuns.mapRun pfaRequestPage pml4 calls s).alloc) :
    let s' := PageTableRuns.mapRun pfaRequestPage pml4 calls s
    ∃ T, Own s' T ∧ TreeInvariant pml4 T s'.mem ∧ T.ncard = (neededTables calls).card ∧
      (∀ t, IsTable (entries s'.mem) pml4 4 t ↔ t ∈ T) ∧
      ∀ virtualAddress, lookup (entries s'.mem) pml4 (path virtualAddress) =
        lastMapped virtualAddress calls none := by
  intro s'
  obtain ⟨T, ha, hleaf, hnode⟩ := mapRun_spec sup calls hown htree hgood
  have htables : ∀ t, IsTable (entries s'.mem) pml4 4 t ↔ t ∈ T := by
    intro t
    rw [ha.tables]
    have hroot : IsTable (entries s.mem) pml4 4 t ↔ t = pml4 :=
      ⟨isTable_of_empty hempty, fun e => e ▸ isTable_root (by decide)⟩
    rw [hroot]
    refine ⟨fun ht => ht.elim (fun e => e ▸ ha.sub rfl) fun ht => ht.1, fun ht => ?_⟩
    by_cases h : t = pml4
    · exact .inl h
    · exact .inr ⟨ht, h⟩
  have hnodes : nodes s'.mem pml4 = (neededTables calls : Set (List ℕ)) := by
    ext q
    rw [Finset.mem_coe, mem_neededTables]
    refine and_congr_right fun hq => ?_
    rw [hnode q hq]
    refine or_congr_left ⟨fun h => ?_, fun h => by rw [h]; rfl⟩
    by_contra hne
    rw [lookup_of_empty hempty q hne] at h
    cases h
  refine ⟨T, ha.own, ha.tree, ?_, htables, fun virtualAddress => ?_⟩
  · rw [tables_ncard ha.tree.separate htables, hnodes, Set.ncard_coe_finset]
  · rw [hleaf, lookup_of_empty hempty _ (by simp [path])]

end Counted

end Rizzos.PageTableCount
