import Rizzos.PageTableTree

set_option autoImplicit false

/-! One call of `ptmMapMemory`, for any allocator that hands out fresh frames. -/
namespace Rizzos.PageTableMap
open ByteMemory Memory Paging TableTree PageTableManager PageTableTree

variable {α : Type}

/-- Frames are requested while `Good` holds of the allocator. Each is none of the frames `T`
    handed out before, and requesting it keeps their bytes and the 32 bytes of the index
    struct at address zero. -/
structure FrameSupply (pfaRequestPage : Machine α → ℕ × Machine α) (Good : α → Prop)
    (Own : Machine α → Set ℕ → Prop) : Prop where
  good : ∀ s, Good (pfaRequestPage s).2.alloc → Good s.alloc
  frame : ∀ s T, Own s T → Good (pfaRequestPage s).2.alloc → FrameAddress (pfaRequestPage s).1
  fresh : ∀ s T, Own s T → Good (pfaRequestPage s).2.alloc → (pfaRequestPage s).1 ∉ T
  kept : ∀ s T x, Own s T → Good (pfaRequestPage s).2.alloc →
    (x < 32 ∨ ∃ t ∈ T, InFrame t x) → (pfaRequestPage s).2.mem x = s.mem x
  own : ∀ s T, Own s T → Good (pfaRequestPage s).2.alloc →
    Own (pfaRequestPage s).2 (insert (pfaRequestPage s).1 T)
  write : ∀ s T m', Own s T → (∀ x, 32 ≤ x → (∀ t ∈ T, ¬ InFrame t x) → m' x = s.mem x) →
    Own ⟨m', s.alloc⟩ T

/-- The tree after some calls: the tables are the old ones and the newly requested frames. -/
structure Advance (Own : Machine α → Set ℕ → Prop) (pml4 : ℕ) (s : Machine α) (T : Set ℕ)
    (s' : Machine α) (T' : Set ℕ) : Prop where
  own : Own s' T'
  tree : TreeInvariant pml4 T' s'.mem
  sub : T ⊆ T'
  tables : ∀ t, IsTable (entries s'.mem) pml4 4 t ↔
    IsTable (entries s.mem) pml4 4 t ∨ (t ∈ T' ∧ t ∉ T)

section Calls
variable {pfaRequestPage : Machine α → ℕ × Machine α} {Good : α → Prop}
  {Own : Machine α → Set ℕ → Prop} {pml4 : ℕ}

theorem Advance.refl {s : Machine α} {T : Set ℕ} (hown : Own s T)
    (htree : TreeInvariant pml4 T s.mem) : Advance Own pml4 s T s T :=
  ⟨hown, htree, subset_rfl, fun _ => ⟨.inl, fun h => h.elim id fun h => absurd h.1 h.2⟩⟩

theorem Advance.trans {s s' s'' : Machine α} {T T' T'' : Set ℕ}
    (h : Advance Own pml4 s T s' T') (h' : Advance Own pml4 s' T' s'' T'') :
    Advance Own pml4 s T s'' T'' := by
  refine ⟨h'.own, h'.tree, h.sub.trans h'.sub, fun t => ?_⟩
  rw [h'.tables, h.tables]
  constructor
  · rintro ((hold | ⟨ht, hT⟩) | ⟨ht, hT⟩)
    · exact .inl hold
    · exact .inr ⟨h'.sub ht, hT⟩
    · exact .inr ⟨ht, fun hT' => hT (h.sub hT')⟩
  · rintro (hold | ⟨ht, hT⟩)
    · exact .inl (.inl hold)
    · by_cases hT' : t ∈ T'
      · exact .inl (.inr ⟨hT', hT⟩)
      · exact .inr ⟨ht, hT'⟩

variable {s : Machine α} {T : Set ℕ} {p : List ℕ} {table field index : ℕ}

theorem nextTable_present (h : pdeGetFlag (readEntry s.mem table (load64 s.mem field)) .present =
    true) : nextTable pfaRequestPage table field s =
      (pdeFrame (readEntry s.mem table (load64 s.mem field)), s) := by
  rw [nextTable, if_neg (by simp [h])]

theorem nextTable_absent (h : pdeGetFlag (readEntry s.mem table (load64 s.mem field)) .present =
    false) : nextTable pfaRequestPage table field s =
      ((pfaRequestPage s).1,
        ⟨writeEntry (memSet64 (pfaRequestPage s).2.mem (pfaRequestPage s).1 0 frameSize) table
          (load64 (memSet64 (pfaRequestPage s).2.mem (pfaRequestPage s).1 0 frameSize) field)
          (linkEntry (readEntry s.mem table (load64 s.mem field)) (pfaRequestPage s).1),
          (pfaRequestPage s).2.alloc⟩) := by
  rw [nextTable, if_pos h]

theorem nextTable_present_at (hindex : load64 s.mem field = index)
    (h : pdeGetFlag (readEntry s.mem table index) .present = true) :
    nextTable pfaRequestPage table field s = (pdeFrame (readEntry s.mem table index), s) := by
  subst hindex
  exact nextTable_present h

theorem nextTable_absent_at (hindex : load64 s.mem field = index)
    (h : pdeGetFlag (readEntry s.mem table index) .present = false) :
    nextTable pfaRequestPage table field s =
      ((pfaRequestPage s).1,
        ⟨writeEntry (memSet64 (pfaRequestPage s).2.mem (pfaRequestPage s).1 0 frameSize) table
          (load64 (memSet64 (pfaRequestPage s).2.mem (pfaRequestPage s).1 0 frameSize) field)
          (linkEntry (readEntry s.mem table index) (pfaRequestPage s).1),
          (pfaRequestPage s).2.alloc⟩) := by
  subst hindex
  exact nextTable_absent h

theorem nextTable_good (hback : ∀ s, Good (pfaRequestPage s).2.alloc → Good s.alloc)
    (table field : ℕ)
    (s : Machine α) (h : Good (nextTable pfaRequestPage table field s).2.alloc) :
    Good s.alloc := by
  cases hp : pdeGetFlag (readEntry s.mem table (load64 s.mem field)) .present with
  | false =>
    rw [nextTable_absent hp] at h
    exact hback s h
  | true => rwa [nextTable_present hp] at h

theorem cleared_scratch {t : ℕ} {m m' : Mem} (ht : FrameAddress t)
    (hkept : ∀ x < 32, m' x = m x) : Agree m (memSet64 m' t 0 frameSize) 0 32 := by
  intro x _ hx
  obtain ⟨_, _, hlt⟩ := id ht
  rw [memSet64_outside_frame _ (by omega), hkept x (by omega)]
  rintro ⟨hle, _⟩
  obtain ⟨ht, hpos, _⟩ := ht
  omega

theorem nextTable_linked (hindex : load64 s.mem field = index)
    (habsent : pdeGetFlag (readEntry s.mem table index) .present = false)
    (hscratch : Agree s.mem (memSet64 (pfaRequestPage s).2.mem (pfaRequestPage s).1 0 frameSize)
      0 32) (hfield : field + 8 ≤ 32) :
    nextTable pfaRequestPage table field s = ((pfaRequestPage s).1,
      ⟨writeEntry (memSet64 (pfaRequestPage s).2.mem (pfaRequestPage s).1 0 frameSize) table index
        (linkEntry (readEntry s.mem table index) (pfaRequestPage s).1),
        (pfaRequestPage s).2.alloc⟩) := by
  have hfield8 := hscratch.mono (show 0 ≤ field by omega) (show field + 8 ≤ 0 + 32 by omega)
  have hindex' : load64 (memSet64 (pfaRequestPage s).2.mem (pfaRequestPage s).1 0 frameSize)
      field = index := by
    rw [← hindex]
    exact hfield8.loadLE_eq (by omega)
  rw [nextTable_absent_at hindex habsent, hindex']

theorem nextTable_written (sup : FrameSupply pfaRequestPage Good Own) (hown : Own s T)
    (htree : TreeInvariant pml4 T s.mem) (hp : p.length < 3) (hi : index < 512)
    (htable : lookup (entries s.mem) pml4 p = some table) (hfield : field + 8 ≤ 32)
    (hindex : load64 s.mem field = index)
    (habsent : pdeGetFlag (readEntry s.mem table index) .present = false)
    (hgood : Good (pfaRequestPage s).2.alloc) :
    let next := (pfaRequestPage s).1
    let s' := (nextTable pfaRequestPage table field s).2
    EntryWritten pml4 T s.mem s'.mem p index table next ∧ Agree s.mem s'.mem 0 32 ∧
      Own s' (insert next T) := by
  intro next s'
  have hnext : FrameAddress next := sup.frame s T hown hgood
  have hfresh : next ∉ T := sup.fresh s T hown hgood
  have hT : table ∈ T := htree.owned table ⟨p, by omega, htable⟩
  have hframe := htree.frames table hT
  have hlow : ∀ {t x}, FrameAddress t → x < 32 → ¬ InFrame t x := by
    rintro t x ⟨ht, hpos, _⟩ hx ⟨hle, _⟩
    omega
  have hother : ∀ {t u x}, FrameAddress t → FrameAddress u → t ≠ u → InFrame t x →
      ¬ InFrame u x := by
    rintro t u x ht hu hne ⟨h1, h2⟩ ⟨h3, h4⟩
    have := ht.disjoint hu hne
    omega
  obtain ⟨_, _, hnextlt⟩ := id hnext
  obtain ⟨_, _, htablelt⟩ := id hframe
  -- clearing the new frame touches neither the old frames nor the indices
  have hclear : ∀ x, ¬ InFrame next x →
      memSet64 (pfaRequestPage s).2.mem next 0 frameSize x = (pfaRequestPage s).2.mem x :=
    fun x hx => memSet64_outside_frame _ (by omega) hx
  have hkeep : ∀ x, (x < 32 ∨ ∃ t ∈ T, InFrame t x) →
      memSet64 (pfaRequestPage s).2.mem next 0 frameSize x = s.mem x := by
    intro x hx
    rw [hclear, sup.kept s T x hown hgood hx]
    obtain hx | ⟨t, ht, hin⟩ := hx
    · exact hlow hnext hx
    · exact hother (htree.frames t ht) hnext (fun e => hfresh (e ▸ ht)) hin
  have hscratch : Agree s.mem (memSet64 (pfaRequestPage s).2.mem next 0 frameSize) 0 32 :=
    cleared_scratch hnext fun x hx => sup.kept s T x hown hgood (.inl hx)
  have he := nextTable_linked hindex habsent hscratch hfield
  have hmem : s'.mem = writeEntry (memSet64 (pfaRequestPage s).2.mem next 0 frameSize) table index
      (linkEntry (readEntry s.mem table index) next) := by
    change (nextTable pfaRequestPage table field s).2.mem = _
    rw [he]
  have halloc : s'.alloc = (pfaRequestPage s).2.alloc := by
    change (nextTable pfaRequestPage table field s).2.alloc = _
    rw [he]
  refine ⟨⟨by omega, hi, htable, ?_, ?_, .inr ⟨entries_of_absent habsent, hfresh, hnext, ?_⟩⟩,
    ?_, ?_⟩
  · rw [hmem, readEntry_writeEntry]
  · intro t ht j hj hne
    have htf := htree.frames t ht
    obtain ⟨_, _, htlt⟩ := id htf
    rw [hmem, readEntry_writeEntry_ne _ _ hframe htf hi hj hne]
    exact readEntry_congr (fun x h1 h2 => hkeep x (.inr ⟨t, ht, h1, h2⟩)) (by omega) hj
  · intro j hj
    rw [hmem, readEntry_writeEntry_ne _ _ hframe hnext hi hj (.inl fun e => hfresh (e ▸ hT)),
      readEntry_memSet64 _ hnext hj]
  · intro x h1 h2
    rw [hmem, writeEntry_outside _ _ (by omega) hi (hlow hframe (by omega))]
    exact hscratch x h1 h2
  · have hs' : s' = ⟨s'.mem, (pfaRequestPage s).2.alloc⟩ := by rw [← halloc]
    rw [hs']
    refine sup.write _ _ _ (sup.own s T hown hgood) fun x _ hx => ?_
    rw [hmem, writeEntry_outside _ _ (by omega) hi (hx table (Set.mem_insert_of_mem _ hT)),
      hclear x (hx next (Set.mem_insert _ _))]

/-- One level of the walk: afterwards the table is there, and no other path has changed. -/
theorem nextTable_spec (sup : FrameSupply pfaRequestPage Good Own) (hown : Own s T)
    (htree : TreeInvariant pml4 T s.mem) (hp : p.length < 3) (hi : index < 512)
    (htable : lookup (entries s.mem) pml4 p = some table) (hfield : field + 8 ≤ 32)
    (hindex : load64 s.mem field = index)
    (hgood : Good (nextTable pfaRequestPage table field s).2.alloc) :
    let next := (nextTable pfaRequestPage table field s).1
    let s' := (nextTable pfaRequestPage table field s).2
    ∃ T', Advance Own pml4 s T s' T' ∧ Agree s.mem s'.mem 0 32 ∧
      (∀ q : List ℕ, q.length ≤ 4 → lookup (entries s'.mem) pml4 q =
        if q = index :: p then some next else lookup (entries s.mem) pml4 q) := by
  intro next s'
  cases hpresent : pdeGetFlag (readEntry s.mem table index) .present with
  | true =>
    have he : nextTable pfaRequestPage table field s = _ := nextTable_present_at hindex hpresent
    have hs' : s' = s := congrArg Prod.snd he
    have hnext : next = pdeFrame (readEntry s.mem table index) := congrArg Prod.fst he
    rw [hs']
    refine ⟨T, .refl hown htree, .refl _ _ _, fun q _ => ?_⟩
    by_cases hq : q = index :: p
    · rw [if_pos hq, hq, lookup_cons_of_some htable, entries_of_present hi hpresent, hnext]
    · rw [if_neg hq]
  | false =>
    have he : nextTable pfaRequestPage table field s = _ := nextTable_absent_at hindex hpresent
    have hnext : next = (pfaRequestPage s).1 := by
      change (nextTable pfaRequestPage table field s).1 = _
      rw [he]
    have hgood' : Good (pfaRequestPage s).2.alloc := by rwa [he] at hgood
    obtain ⟨hw, hscratch, hown'⟩ :=
      nextTable_written sup hown htree hp hi htable hfield hindex hpresent hgood'
    rw [← hnext] at hw hown'
    obtain ⟨hnone, hfresh, hframe, _⟩ := hw.target.resolve_left (by omega)
    have hl := hw.linked htree
    rw [hframe.frameOf] at hl
    have htree' : TreeInvariant pml4 (insert next T) s'.mem := by
      refine hw.tree htree (Set.subset_insert _ _) ?_ (.inr (Set.mem_insert _ _))
      rintro t (rfl | ht)
      · exact hframe
      · exact htree.frames t ht
    have hlookup : ∀ q : List ℕ, q.length ≤ 4 → lookup (entries s'.mem) pml4 q =
        if q = index :: p then some next else lookup (entries s.mem) pml4 q :=
      fun q hq => hl.lookup htree.separate hq
    refine ⟨insert next T, ⟨hown', htree', Set.subset_insert _ _, fun t => ?_⟩, hscratch, hlookup⟩
    constructor
    · intro ht
      obtain hold | ⟨rfl, _⟩ := hl.isTable htree.separate ht
      · exact .inl hold
      · exact .inr ⟨Set.mem_insert _ _, hfresh⟩
    · rintro (⟨q, hq, e⟩ | ⟨rfl | ht, hT⟩)
      · refine ⟨q, hq, ?_⟩
        rw [hlookup q (by omega), if_neg, e]
        rintro rfl
        rw [lookup_cons_of_some htable, hnone] at e
        cases e
      · refine ⟨index :: p, by rw [List.length_cons]; omega, ?_⟩
        rw [hlookup _ (by rw [List.length_cons]; omega), if_pos rfl]
      · exact absurd ht hT

structure Indexed (virtualMemory : ℕ) (m : Mem) : Prop where
  pdp : load64 m pdpField = tableIndex 3 virtualMemory
  pd : load64 m pdField = tableIndex 2 virtualMemory
  pt : load64 m ptField = tableIndex 1 virtualMemory
  p : load64 m pField = tableIndex 0 virtualMemory

theorem Indexed.congr {virtualMemory : ℕ} {m m' : Mem} (h : Indexed virtualMemory m)
    (ha : Agree m m' 0 32) : Indexed virtualMemory m' := by
  have hload : ∀ field, field + 8 ≤ 32 → load64 m' field = load64 m field := by
    intro field hfield
    have h8 := ha.mono (show 0 ≤ field by omega) (show field + 8 ≤ 0 + 32 by omega)
    exact h8.loadLE_eq (by omega)
  refine ⟨?_, ?_, ?_, ?_⟩
  · rw [hload _ (by decide), h.pdp]
  · rw [hload _ (by decide), h.pd]
  · rw [hload _ (by decide), h.pt]
  · rw [hload _ (by decide), h.p]

def indexed (virtualMemory : ℕ) (s : Machine α) : Machine α :=
  ⟨(pmiCreate virtualMemory s.mem).2, s.alloc⟩

theorem indexed_spec (sup : FrameSupply pfaRequestPage Good Own) (virtualMemory : ℕ)
    (hown : Own s T) (htree : TreeInvariant pml4 T s.mem) :
    Indexed virtualMemory (indexed virtualMemory s).mem ∧
      Advance Own pml4 s T (indexed virtualMemory s) T ∧
      ∀ q : List ℕ, q.length ≤ 4 → lookup (entries (indexed virtualMemory s).mem) pml4 q =
        lookup (entries s.mem) pml4 q := by
  have hagree : ∀ t, IsTable (entries s.mem) pml4 4 t →
      Agree s.mem (indexed virtualMemory s).mem t 4096 := by
    intro t ht x hx _
    obtain ⟨_, _, _⟩ := htree.frames t (htree.owned t ht)
    exact pmiCreate_outside _ _ (by omega)
  have he := htree.entries_congr hagree
  obtain ⟨_, h3, h2, h1, h0⟩ := pmiCreate_fields virtualMemory s.mem
  refine ⟨⟨h3, h2, h1, h0⟩, ⟨?_, htree.congr hagree, subset_rfl, fun t => ?_⟩,
    fun q hq => lookup_congr he hq⟩
  · exact sup.write s T _ hown fun x hx _ => pmiCreate_outside _ _ hx
  · rw [isTable_congr he]
    exact ⟨.inl, fun h => h.elim id fun h => absurd h.1 h.2⟩

def leafTable (pfaRequestPage : Machine α → ℕ × Machine α) (pml4 virtualMemory : ℕ)
    (s : Machine α) : ℕ × Machine α :=
  let pdp := nextTable pfaRequestPage pml4 pdpField (indexed virtualMemory s)
  let pd := nextTable pfaRequestPage pdp.1 pdField pdp.2
  nextTable pfaRequestPage pd.1 ptField pd.2

theorem ptmMapMemory_eq (virtualMemory physicalMemory : ℕ) (s : Machine α) :
    ptmMapMemory pfaRequestPage pml4 virtualMemory physicalMemory s =
      let t := leafTable pfaRequestPage pml4 virtualMemory s
      ⟨writeEntry t.2.mem t.1 (load64 t.2.mem pField)
        (linkEntry (readEntry t.2.mem t.1 (load64 t.2.mem pField)) physicalMemory),
        t.2.alloc⟩ := by
  have hpmi := (pmiCreate_fields virtualMemory s.mem).1
  simp only [ptmMapMemory, hpmi, Nat.zero_add]
  rfl

theorem leafTable_good (hback : ∀ s, Good (pfaRequestPage s).2.alloc → Good s.alloc)
    (virtualMemory : ℕ)
    (s : Machine α) (h : Good (leafTable pfaRequestPage pml4 virtualMemory s).2.alloc) :
    Good s.alloc := by
  have hpd := nextTable_good hback _ _ _ h
  have hpdp := nextTable_good hback _ _ _ hpd
  exact nextTable_good hback pml4 pdpField (indexed virtualMemory s) hpdp

theorem path_tail_length (virtualMemory : ℕ) : (path virtualMemory).tail.length = 3 := rfl

/-- The walk has come down the path `p` to the table `r.1`; paths that do not lead there are
    as they were. -/
structure Descended (Own : Machine α → Set ℕ → Prop) (pml4 virtualMemory : ℕ) (s : Machine α)
    (T : Set ℕ) (p : List ℕ) (r : ℕ × Machine α) (T' : Set ℕ) : Prop where
  advance : Advance Own pml4 s T r.2 T'
  indexed : Indexed virtualMemory r.2.mem
  found : lookup (entries r.2.mem) pml4 p = some r.1
  kept : ∀ q : List ℕ, q.length ≤ 4 → ¬ q <:+ p →
    lookup (entries r.2.mem) pml4 q = lookup (entries s.mem) pml4 q

theorem Descended.next (sup : FrameSupply pfaRequestPage Good Own) {virtualMemory : ℕ}
    {r : ℕ × Machine α} {T' : Set ℕ} (h : Descended Own pml4 virtualMemory s T p r T')
    (hp : p.length < 3) (hi : index < 512) (hfield : field + 8 ≤ 32)
    (hindex : load64 r.2.mem field = index)
    (hgood : Good (nextTable pfaRequestPage r.1 field r.2).2.alloc) :
    ∃ T'', Descended Own pml4 virtualMemory s T (index :: p)
      (nextTable pfaRequestPage r.1 field r.2) T'' := by
  obtain ⟨T'', ha, hscratch, hl⟩ :=
    nextTable_spec sup h.advance.own h.advance.tree hp hi h.found hfield hindex hgood
  refine ⟨T'', h.advance.trans ha, h.indexed.congr hscratch, ?_, fun q hq hnot => ?_⟩
  · rw [hl _ (by rw [List.length_cons]; omega), if_pos rfl]
  · rw [List.suffix_cons_iff, not_or] at hnot
    rw [hl q hq, if_neg hnot.1, h.kept q hq hnot.2]

theorem leafTable_spec (sup : FrameSupply pfaRequestPage Good Own) (virtualMemory : ℕ)
    (hown : Own s T) (htree : TreeInvariant pml4 T s.mem)
    (hgood : Good (leafTable pfaRequestPage pml4 virtualMemory s).2.alloc) :
    ∃ T', Descended Own pml4 virtualMemory s T (path virtualMemory).tail
      (leafTable pfaRequestPage pml4 virtualMemory s) T' := by
  have hgood2 := nextTable_good sup.good _ _ _ hgood
  have hgood1 := nextTable_good sup.good _ _ _ hgood2
  obtain ⟨hindexed, hadvance, hlookup⟩ := indexed_spec sup virtualMemory hown htree
  have h0 : Descended Own pml4 virtualMemory s T [] (pml4, indexed virtualMemory s) T :=
    ⟨hadvance, hindexed, rfl, fun q hq _ => hlookup q hq⟩
  obtain ⟨T1, h1⟩ := h0.next sup (by decide) (tableIndex_lt 3 virtualMemory) (by decide)
    hindexed.pdp hgood1
  obtain ⟨T2, h2⟩ := h1.next sup (by simp) (tableIndex_lt 2 virtualMemory) (by decide)
    h1.indexed.pd hgood2
  exact h2.next sup (by simp) (tableIndex_lt 1 virtualMemory) (by decide) h2.indexed.pt hgood

/-- One call maps one page: of the leaves, that of `virtualMemory` alone changes, and of the
    other nodes those on the way to it may be new. -/
theorem ptmMapMemory_spec (sup : FrameSupply pfaRequestPage Good Own)
    (virtualMemory physicalMemory : ℕ) (hown : Own s T) (htree : TreeInvariant pml4 T s.mem)
    (hgood : Good (ptmMapMemory pfaRequestPage pml4 virtualMemory physicalMemory s).alloc) :
    let s' := ptmMapMemory pfaRequestPage pml4 virtualMemory physicalMemory s
    ∃ T', Advance Own pml4 s T s' T' ∧
      (∀ q : List ℕ, q.length = 4 → lookup (entries s'.mem) pml4 q =
        if q = path virtualMemory then some (frameOf physicalMemory)
        else lookup (entries s.mem) pml4 q) ∧
      (∀ q : List ℕ, q.length < 4 → q <:+ path virtualMemory →
        (lookup (entries s'.mem) pml4 q).isSome) ∧
      (∀ q : List ℕ, q.length < 4 → ¬ q <:+ path virtualMemory →
        lookup (entries s'.mem) pml4 q = lookup (entries s.mem) pml4 q) := by
  intro s'
  rw [ptmMapMemory_eq] at hgood
  obtain ⟨T', hd⟩ := leafTable_spec sup virtualMemory hown htree hgood
  have hs' : s' = _ := ptmMapMemory_eq virtualMemory physicalMemory s
  set t := leafTable pfaRequestPage pml4 virtualMemory s
  have hleaf := hd.advance.tree.owned t.1 ⟨_, by rw [path_tail_length]; omega, hd.found⟩
  have hframe := hd.advance.tree.frames t.1 hleaf
  obtain ⟨_, _, hlt⟩ := id hframe
  have hi := tableIndex_lt 0 virtualMemory
  have hmem : s'.mem = writeEntry t.2.mem t.1 (tableIndex 0 virtualMemory)
      (linkEntry (readEntry t.2.mem t.1 (tableIndex 0 virtualMemory)) physicalMemory) := by
    rw [hs', ← hd.indexed.p]
  have hw : EntryWritten pml4 T' t.2.mem s'.mem (path virtualMemory).tail
      (tableIndex 0 virtualMemory) t.1 physicalMemory := by
    refine ⟨by rw [path_tail_length]; omega, hi, hd.found, ?_, ?_, .inl rfl⟩
    · rw [hmem, readEntry_writeEntry]
    · intro u hu j hj hne
      rw [hmem, readEntry_writeEntry_ne _ _ hframe (hd.advance.tree.frames u hu) hi hj hne]
  have hl := hw.linked hd.advance.tree
  have hlookup : ∀ q : List ℕ, q.length ≤ 4 → lookup (entries s'.mem) pml4 q =
      if q = path virtualMemory then some (frameOf physicalMemory)
      else lookup (entries t.2.mem) pml4 q := fun q hq => hl.lookup hd.advance.tree.separate hq
  have htables : ∀ q : List ℕ, q.length < 4 →
      lookup (entries s'.mem) pml4 q = lookup (entries t.2.mem) pml4 q := by
    intro q hq
    rw [hlookup q (by omega), if_neg]
    rintro rfl
    rw [path_length] at hq
    omega
  have hadvance : Advance Own pml4 t.2 T' s' T' := by
    refine ⟨?_, hw.tree hd.advance.tree subset_rfl hd.advance.tree.frames (.inl rfl), subset_rfl,
      fun u => ?_⟩
    · have hm := sup.write t.2 T' s'.mem hd.advance.own fun x _ hx => by
        rw [hmem, writeEntry_outside _ _ (by omega) hi (hx t.1 hleaf)]
      rwa [hs'] at hm ⊢
    · constructor
      · rintro ⟨q, hq, e⟩
        exact .inl ⟨q, hq, by rwa [htables q hq] at e⟩
      · rintro (⟨q, hq, e⟩ | ⟨h, h'⟩)
        · exact ⟨q, hq, by rwa [htables q hq]⟩
        · exact absurd h h'
  refine ⟨T', hd.advance.trans hadvance, ?_, ?_, ?_⟩
  · intro q hq
    rw [hlookup q (by omega)]
    by_cases hqp : q = path virtualMemory
    · rw [if_pos hqp, if_pos hqp]
    · rw [if_neg hqp, if_neg hqp, hd.kept q (by omega)]
      intro hsuffix
      have := hsuffix.length_le
      rw [path_tail_length] at this
      omega
  · intro q hq hsuffix
    have htail : q <:+ (path virtualMemory).tail := by
      obtain rfl | h := List.suffix_cons_iff.1 hsuffix
      · exact absurd hq (by simp)
      · exact h
    rw [htables q hq]
    exact lookup_suffix_isSome htail (by rw [hd.found]; rfl)
  · intro q hq hsuffix
    rw [htables q hq, hd.kept q (by omega) fun h => hsuffix (h.trans (List.tail_suffix _))]

end Calls

end Rizzos.PageTableMap
