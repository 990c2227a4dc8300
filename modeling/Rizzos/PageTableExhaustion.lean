import Rizzos.PageFrameAllocator
import Rizzos.PageTableRequests

set_option autoImplicit false

/-! One call of `ptmMapMemory` in which a request returns null: page 0 becomes a table. -/
namespace Rizzos.PageTableExhaustion
open ByteMemory Memory Paging TableTree PageTableManager PageTableTree PageTableMap
  PageTableTranslation PageTableRequests PageFrameAllocator

/-- What a call whose request fails is to leave: no table at address zero, page 0 and the
    translations as they were. -/
structure FailsCleanly (pml4 : ℕ) (m m' : Mem) : Prop where
  unlinked : IsTable (entries m') pml4 4 0 → IsTable (entries m) pml4 4 0
  page : ∀ x < 4096, m' x = m x
  translations : ∀ virtualAddress,
    translate m' pml4 virtualAddress = translate m pml4 virtualAddress

/-- Entry 0 of the table on path `p` links page 0; the tables above it lie in frames of `U`. -/
structure ZeroLinked (pml4 : ℕ) (U : Set ℕ) (p : List ℕ) (m : Mem) : Prop where
  short : p.length < 3
  frames : ∀ t ∈ U, FrameAddress t
  owned : ∀ q t, q <:+ p → lookup (entries m) pml4 q = some t → t ∈ U
  zero : lookup (entries m) pml4 (0 :: p) = some 0

section ZeroLinked
variable {pml4 : ℕ} {U : Set ℕ} {p : List ℕ} {m m' : Mem}

theorem entries_agree {t : ℕ} (ht : FrameAddress t) (h : Agree m m' t 4096) :
    entries m' t = entries m t := by
  obtain ⟨_, _, hlt⟩ := ht
  exact PageTableTree.entries_congr fun _ hi => PageTableManager.readEntry_congr h (by omega) hi

theorem ZeroLinked.congr (h : ZeroLinked pml4 U p m) (hm : ∀ t ∈ U, Agree m m' t 4096) :
    ZeroLinked pml4 U p m' := by
  have hlookup : ∀ q : List ℕ, (∀ q', q' <:+ q → q' ≠ q → q' <:+ p) →
      lookup (entries m') pml4 q = lookup (entries m) pml4 q := by
    intro q hq
    apply lookup_congr_suffix
    intro q' t hq' hne ht
    have hU := h.owned q' t (hq q' hq' hne) ht
    exact entries_agree (h.frames t hU) (hm t hU)
  refine ⟨h.short, h.frames, fun q t hq ht => ?_, ?_⟩
  · rw [hlookup q fun q' hq' _ => hq'.trans hq] at ht
    exact h.owned q t hq ht
  · rw [hlookup (0 :: p) fun q' hq' hne => (List.suffix_cons_iff.1 hq').resolve_left hne]
    exact h.zero

theorem ZeroLinked.isTable (h : ZeroLinked pml4 U p m) : IsTable (entries m) pml4 4 0 :=
  ⟨0 :: p, by rw [List.length_cons]; have := h.short; omega, h.zero⟩

end ZeroLinked

theorem written_agree {m m' : Mem} {t page table index : ℕ} (pde : PageDirEntry)
    (ht : FrameAddress t) (hm : Agree m m' t 4096) (hpage : page = 0 ∨ FrameAddress page ∧ page ≠ t)
    (htable : table = 0 ∨ FrameAddress table ∧ table ≠ t) (hi : index < 512) :
    Agree m (writeEntry (memSet64 m' page 0 frameSize) table index pde) t 4096 := by
  have hapart : ∀ u, (u = 0 ∨ FrameAddress u ∧ u ≠ t) → ∀ x, t ≤ x → x < t + 4096 →
      u + 4096 ≤ 2 ^ 64 ∧ ¬ InFrame u x := by
    rintro u (rfl | ⟨hu, hne⟩) x h1 h2
    · obtain ⟨ht, hpos, _⟩ := ht
      unfold InFrame
      omega
    · have := hu.disjoint ht hne
      obtain ⟨_, _, hlt⟩ := hu
      unfold InFrame
      omega
  intro x h1 h2
  obtain ⟨htable, htable'⟩ := hapart table htable x h1 h2
  obtain ⟨hpage, hpage'⟩ := hapart page hpage x h1 h2
  rw [writeEntry_outside _ _ htable hi htable', memSet64_outside_frame _ hpage hpage', hm x h1 h2]

theorem cleared_page (m : Mem) {x : ℕ} (hx : x < 4096) : memSet64 m 0 0 frameSize x = 0#8 := by
  have h := memSet64_zero m 0 frameSize x (by unfold frameSize; omega) (by unfold frameSize; omega)
  rwa [Nat.zero_add, wrap_of_lt (by omega)] at h

section Walk
variable {α : Type} {pfaRequestPage : Machine α → ℕ × Machine α} {pml4 virtualMemory : ℕ}
  {T T' U : Set ℕ} {s : Machine (α × List Request)} {p : List ℕ} {field index : ℕ}
  {r : ℕ × Machine (α × List Request)}

/-- The walk after a null request: it reads index zero everywhere, from page 0 and from frames
    that are new. -/
structure Collapsed (T : Set ℕ) (pml4 : ℕ) (U : Set ℕ) (p : List ℕ)
    (r : ℕ × Machine (α × List Request)) : Prop where
  linked : ZeroLinked pml4 U p r.2.mem
  used : U ⊆ inUse T r.2.alloc.2
  current : r.1 = 0 ∨ FrameAddress r.1 ∧ r.1 ∉ U ∧ r.1 ∈ inUse T r.2.alloc.2
  indices : ∀ x, 8 ≤ x → x < 32 → r.2.mem x = 0#8
  entry : readEntry r.2.mem r.1 0 = 0#64 ∨
    r.1 = 0 ∧ pdeGetFlag (readEntry r.2.mem 0 0) .present = true ∧
      pdeFrame (readEntry r.2.mem 0 0) = 0

theorem load64_zero {m : Mem} {a : ℕ} (ha : a + 8 ≤ 2 ^ 64)
    (h : ∀ x, a ≤ x → x < a + 8 → m x = 0#8) : load64 m a = 0 := by
  apply loadLE_zero
  intro i hi
  rw [wrap_of_lt (by omega)]
  exact h _ (by omega) (by omega)

theorem Collapsed.next (h : Collapsed T pml4 U p r) (hfield : 8 ≤ field ∧ field + 8 ≤ 32)
    (hhonest : HonestRequests T (nextTable (logged pfaRequestPage) r.1 field r.2).2.alloc.2) :
    Collapsed T pml4 U p (nextTable (logged pfaRequestPage) r.1 field r.2) := by
  have hindex : load64 r.2.mem field = 0 :=
    load64_zero (by omega) fun x h1 h2 => h.indices x (by omega) (by omega)
  obtain hzero | ⟨hcurrent, hpresent, hback⟩ := h.entry
  · have habsent : pdeGetFlag (readEntry r.2.mem r.1 0) .present = false := by
      rw [hzero]
      rfl
    have he : nextTable (logged pfaRequestPage) r.1 field r.2 = _ :=
      nextTable_absent_at hindex habsent
    have hlog : (nextTable (logged pfaRequestPage) r.1 field r.2).2.alloc.2 =
        ⟨(logged pfaRequestPage r.2).1, r.2.mem, (logged pfaRequestPage r.2).2.mem⟩ ::
          r.2.alloc.2 := by rw [he, logged_log]
    rw [hlog] at hhonest
    have hpage : (logged pfaRequestPage r.2).1 = 0 ∨ FrameAddress (logged pfaRequestPage r.2).1 ∧
        (logged pfaRequestPage r.2).1 ∉ inUse T r.2.alloc.2 := by
      by_cases hne : (logged pfaRequestPage r.2).1 = 0
      · exact .inl hne
      · exact .inr (hhonest.page hne)
    have hkept : ∀ {x}, (x < 32 ∨ ∃ t ∈ inUse T r.2.alloc.2, InFrame t x) →
        (logged pfaRequestPage r.2).2.mem x = r.2.mem x := fun hx => hhonest.kept hx
    set page := (logged pfaRequestPage r.2).1
    set c := memSet64 (logged pfaRequestPage r.2).2.mem page 0 frameSize with hc
    have hcleared : ∀ x, 8 ≤ x → x < 32 → c x = 0#8 := by
      intro x h1 h2
      obtain hpage | ⟨hframe, _⟩ := hpage
      · rw [hc, hpage]
        exact cleared_page _ (by omega)
      · obtain ⟨hmod, hpos, hlt⟩ := hframe
        rw [hc, memSet64_outside_frame _ (by omega), hkept (.inl h2), h.indices x h1 h2]
        rintro ⟨hle, _⟩
        omega
    have hindex' : load64 c field = 0 :=
      load64_zero (by omega) fun x h1 h2 => hcleared x (by omega) (by omega)
    have hstate : nextTable (logged pfaRequestPage) r.1 field r.2 =
        (page, ⟨writeEntry c r.1 0 (linkEntry 0#64 page), (logged pfaRequestPage r.2).2.alloc⟩) := by
      rw [he, hindex', hzero]
    have hused : U ⊆ inUse T (logged pfaRequestPage r.2).2.alloc.2 :=
      h.used.trans (inUse_subset_cons _ _)
    have hcurrent : r.1 + 4096 ≤ 2 ^ 64 ∧ (r.1 = 0 ∨ 4096 ≤ r.1) := by
      obtain h0 | ⟨⟨hmod, hpos, hlt⟩, _⟩ := h.current <;> omega
    have hother : ∀ x, ¬ InFrame r.1 x → writeEntry c r.1 0 (linkEntry 0#64 page) x = c x :=
      fun x hx => writeEntry_outside _ _ hcurrent.1 (show 0 < 512 by decide) hx
    rw [hstate]
    refine ⟨h.linked.congr fun t ht => ?_, hused, ?_, ?_, ?_⟩
    · have hagree : Agree r.2.mem (logged pfaRequestPage r.2).2.mem t 4096 :=
        fun x h1 h2 => hkept (.inr ⟨t, h.used ht, h1, h2⟩)
      dsimp only
      rw [hc]
      refine written_agree _ (h.linked.frames t ht) hagree ?_ ?_ ?_
      · exact hpage.imp id fun hp => ⟨hp.1, fun e => hp.2 (e ▸ h.used ht)⟩
      · exact h.current.imp id fun hp => ⟨hp.1, fun e => hp.2.1 (e ▸ ht)⟩
      · decide
    · refine hpage.imp id fun hp => ⟨hp.1, fun hU => hp.2 (h.used hU), ?_⟩
      obtain ⟨_, hpos, _⟩ := hp.1
      exact .inr ⟨by omega, _, List.mem_cons_self, rfl⟩
    · intro x h1 h2
      dsimp only
      rw [writeEntry_outside_bytes _ _ (by omega) (by omega), hcleared x h1 h2]
    · dsimp only
      obtain hpage | ⟨hframe, hnew⟩ := hpage
      · rw [hpage]
        obtain hr | hr := hcurrent.2
        · -- page 0 links itself
          rw [hr, readEntry_writeEntry]
          refine .inr ⟨rfl, linkEntry_present _ _, ?_⟩
          rw [pdeFrame_linkEntry]
          rfl
        · refine .inl ?_
          rw [readEntry, load64_zero (by omega)]
          intro x _ h2
          have hbyte := hother x fun hin => by
            have := hin.1
            omega
          rw [hpage] at hbyte
          rw [hbyte, hc, hpage]
          exact cleared_page _ (by omega)
      · refine .inl ?_
        have hne : r.1 = 0 ∨ FrameAddress r.1 ∧ r.1 ≠ page :=
          h.current.imp id fun hp => ⟨hp.1, fun e => hnew (e ▸ hp.2.2)⟩
        obtain ⟨hmod, hpos, hlt⟩ := id hframe
        rw [PageTableManager.readEntry_congr (m := c) (fun x h1 h2 => hother x fun hin => ?_)
          (by omega) (by decide), hc, readEntry_memSet64 _ hframe (by decide)]
        obtain h0 | ⟨hr, hne⟩ := hne
        · have := hin.2
          omega
        · have := hr.disjoint hframe hne
          unfold InFrame at hin
          omega
  · have he : nextTable (logged pfaRequestPage) r.1 field r.2 = _ :=
      nextTable_present_at hindex (by rw [hcurrent]; exact hpresent)
    rw [he, hcurrent, hback]
    exact ⟨h.linked, h.used, .inl rfl, h.indices, .inr ⟨rfl, hpresent, hback⟩⟩

/-- The first null request: page 0 is cleared with the indices in it, so that entry 0 of the
    table comes to link it. -/
theorem collapse (hd : Descended (LoggedFrames T) pml4 virtualMemory s T p r T')
    (hp : p.length < 3) (hindex : load64 r.2.mem field = index) (hfield : field + 8 ≤ 32)
    (habsent : pdeGetFlag (readEntry r.2.mem r.1 index) .present = false)
    (hnull : (logged pfaRequestPage r.2).1 = 0)
    (hhonest : HonestRequests T (nextTable (logged pfaRequestPage) r.1 field r.2).2.alloc.2) :
    Collapsed T pml4 T' p (nextTable (logged pfaRequestPage) r.1 field r.2) := by
  have htree := hd.advance.tree
  have hT' : T' = inUse T r.2.alloc.2 := hd.advance.own
  have htable := htree.owned r.1 ⟨p, by omega, hd.found⟩
  have hframe := htree.frames r.1 htable
  obtain ⟨hmod, hpos, hlt⟩ := id hframe
  have he : nextTable (logged pfaRequestPage) r.1 field r.2 = _ :=
    nextTable_absent_at hindex habsent
  rw [he, logged_log, hnull] at hhonest
  rw [he, hnull]
  set c := memSet64 (logged pfaRequestPage r.2).2.mem 0 0 frameSize with hc
  have hindex' : load64 c field = 0 :=
    load64_zero (by omega) fun x _ h2 => cleared_page _ (by omega)
  rw [hindex']
  set pde := readEntry r.2.mem r.1 index
  set m' := writeEntry c r.1 0 (linkEntry pde 0) with hm'
  have hother : ∀ x, ¬ InFrame r.1 x → m' x = c x :=
    fun x hx => writeEntry_outside _ _ (by omega) (show 0 < 512 by decide) hx
  have hlow : ∀ x < 4096, m' x = 0#8 := by
    intro x hx
    rw [hother x fun hin => by have := hin.1; omega]
    exact cleared_page _ hx
  -- the tables above are other frames
  have hentries : ∀ t ∈ T', t ≠ r.1 → entries m' t = entries r.2.mem t := by
    intro t ht hne
    have hagree : Agree r.2.mem (logged pfaRequestPage r.2).2.mem t 4096 :=
      fun x h1 h2 => hhonest.kept (.inr ⟨t, hT' ▸ ht, h1, h2⟩)
    refine entries_agree (htree.frames t ht) ?_
    rw [hm', hc]
    refine written_agree _ (htree.frames t ht) hagree (.inl rfl) (.inr ⟨hframe, hne.symm⟩) ?_
    decide
  have hlookup : ∀ q, q <:+ p → lookup (entries m') pml4 q = lookup (entries r.2.mem) pml4 q := by
    intro q hq
    apply lookup_congr_suffix
    intro q' t hq' hne ht
    have hlength := (hq'.trans hq).length_le
    refine hentries t (htree.owned t ⟨q', by omega, ht⟩) ?_
    rintro rfl
    have hsame := htree.separate q' p _ (by omega) (by omega) ht hd.found
    rw [hsame] at hq' hne
    exact hne (List.IsSuffix.eq_of_length_le hq' hq.length_le)
  have hzero : entries m' r.1 0 = some 0 := by
    have hwritten : readEntry m' r.1 0 = linkEntry pde 0 := readEntry_writeEntry _ _ _ _
    rw [entries_of_present (by decide) (by rw [hwritten]; exact linkEntry_present _ _), hwritten,
      pdeFrame_linkEntry]
    rfl
  refine ⟨⟨hp, htree.frames, fun q t hq ht => ?_, ?_⟩, ?_, .inl rfl, fun x _ h2 => hlow x (by omega),
    .inl ?_⟩
  · rw [hlookup q hq] at ht
    have hlength := hq.length_le
    exact htree.owned t ⟨q, by omega, ht⟩
  · rw [lookup_cons_of_some ((hlookup p List.suffix_rfl).trans hd.found)]
    exact hzero
  · rw [hT']
    exact inUse_subset_cons _ _
  · rw [readEntry, load64_zero (by omega) fun x _ h2 => hlow x (by omega)]

/-- A level of the walk goes on or collapses. -/
theorem descend_or_collapse (hd : Descended (LoggedFrames T) pml4 virtualMemory s T p r T')
    (hp : p.length < 3) (hi : index < 512) (hindex : load64 r.2.mem field = index)
    (hfield : field + 8 ≤ 32) (havailable : Available r.2.alloc.2)
    (hhonest : HonestRequests T (nextTable (logged pfaRequestPage) r.1 field r.2).2.alloc.2) :
    (Available (nextTable (logged pfaRequestPage) r.1 field r.2).2.alloc.2 ∧
      ∃ T'', Descended (LoggedFrames T) pml4 virtualMemory s T (index :: p)
        (nextTable (logged pfaRequestPage) r.1 field r.2) T'') ∨
    ∃ U q, Collapsed T pml4 U q (nextTable (logged pfaRequestPage) r.1 field r.2) := by
  have hgo : Available (nextTable (logged pfaRequestPage) r.1 field r.2).2.alloc.2 →
      ∃ T'', Descended (LoggedFrames T) pml4 virtualMemory s T (index :: p)
        (nextTable (logged pfaRequestPage) r.1 field r.2) T'' := fun h =>
    hd.next (honest_supply pfaRequestPage T) hp hi hfield hindex ⟨hhonest, h⟩
  cases hpresent : pdeGetFlag (readEntry r.2.mem r.1 index) .present with
  | true =>
    have he : nextTable (logged pfaRequestPage) r.1 field r.2 = _ :=
      nextTable_present_at hindex hpresent
    have hsame : Available (nextTable (logged pfaRequestPage) r.1 field r.2).2.alloc.2 := by
      rw [he]
      exact havailable
    exact .inl ⟨hsame, hgo hsame⟩
  | false =>
    by_cases hnull : (logged pfaRequestPage r.2).1 = 0
    · exact .inr ⟨T', p, collapse hd hp hindex hfield hpresent hnull hhonest⟩
    · have he : nextTable (logged pfaRequestPage) r.1 field r.2 = _ :=
        nextTable_absent_at hindex hpresent
      have hmore : Available (nextTable (logged pfaRequestPage) r.1 field r.2).2.alloc.2 := by
        rw [he, logged_log]
        exact List.forall_mem_cons.2 ⟨hnull, havailable⟩
      exact .inl ⟨hmore, hgo hmore⟩

theorem leafTable_outcome {a : α} {m : Mem} (htree : TreeInvariant pml4 T m)
    (hhonest : HonestRequests T (leafTable (logged pfaRequestPage) pml4 virtualMemory
      ⟨m, (a, [])⟩).2.alloc.2) :
    Available (leafTable (logged pfaRequestPage) pml4 virtualMemory ⟨m, (a, [])⟩).2.alloc.2 ∨
      ∃ U q, Collapsed T pml4 U q
        (leafTable (logged pfaRequestPage) pml4 virtualMemory ⟨m, (a, [])⟩) := by
  have sup := honest_supply pfaRequestPage T
  have hback : ∀ s, HonestRequests T (logged pfaRequestPage s).2.alloc.2 →
      HonestRequests T s.alloc.2 := fun s h => h.tail
  have hhonest2 :=
    @nextTable_good _ _ (fun a : α × List Request => HonestRequests T a.2) hback _ _ _ hhonest
  have hhonest1 :=
    @nextTable_good _ _ (fun a : α × List Request => HonestRequests T a.2) hback _ _ _ hhonest2
  obtain ⟨hindexed, hadvance, hlookup⟩ :=
    indexed_spec sup virtualMemory (s := ⟨m, (a, [])⟩) inUse_nil.symm htree
  have h0 : Descended (LoggedFrames T) pml4 virtualMemory _ T []
      (pml4, indexed virtualMemory ⟨m, (a, [])⟩) T :=
    ⟨hadvance, hindexed, rfl, fun q hq _ => hlookup q hq⟩
  have hempty : Available (indexed virtualMemory ⟨m, (a, ([] : List Request))⟩).alloc.2 := by
    intro r hr
    cases hr
  obtain ⟨hav1, T1, h1⟩ | ⟨U, q, h1⟩ := descend_or_collapse h0 (by decide)
    (tableIndex_lt 3 virtualMemory) hindexed.pdp (by decide) hempty hhonest1
  · obtain ⟨hav2, T2, h2⟩ | ⟨U, q, h2⟩ := descend_or_collapse h1 (by simp)
      (tableIndex_lt 2 virtualMemory) h1.indexed.pd (by decide) hav1 hhonest2
    · exact (descend_or_collapse h2 (by simp) (tableIndex_lt 1 virtualMemory) h2.indexed.pt
        (by decide) hav2 hhonest).imp And.left id
    · exact .inr ⟨U, q, h2.next (by decide) hhonest⟩
  · exact .inr ⟨U, q, (h1.next (by decide) hhonest2).next (by decide) hhonest⟩

end Walk

section Call
variable {α : Type} {pfaRequestPage : Machine α → ℕ × Machine α}
  {pml4 virtualMemory physicalMemory : ℕ} {T : Set ℕ} {s : Machine α}

theorem isTable_zero (htree : TreeInvariant pml4 T s.mem)
    (hhonest : HonestRequests T (callLog pfaRequestPage pml4 virtualMemory physicalMemory s))
    (hnull : ∃ r ∈ callLog pfaRequestPage pml4 virtualMemory physicalMemory s, r.page = 0) :
    IsTable (entries (ptmMapMemory pfaRequestPage pml4 virtualMemory physicalMemory s).mem)
      pml4 4 0 := by
  rw [callLog, ptmMapMemory_eq] at hhonest hnull
  rw [ptmMapMemory_mem, ptmMapMemory_eq]
  obtain havailable | ⟨U, q, hcollapsed⟩ := leafTable_outcome htree hhonest
  · obtain ⟨r, hr, hnull⟩ := hnull
    exact absurd hnull (havailable r hr)
  · set r := leafTable (logged pfaRequestPage) pml4 virtualMemory ⟨s.mem, (s.alloc, [])⟩
    have hindex : load64 r.2.mem pField = 0 :=
      load64_zero (by decide) fun x h1 h2 => hcollapsed.indices x
        (Nat.le_trans (by decide) h1) (Nat.lt_of_lt_of_le h2 (by decide))
    dsimp only
    rw [hindex]
    have hlinked := hcollapsed.linked
    refine ZeroLinked.isTable (hlinked.congr fun t ht x h1 h2 => ?_)
    have hframe := hlinked.frames t ht
    obtain ⟨_, hpos, _⟩ := id hframe
    refine writeEntry_outside _ _ ?_ (by decide) ?_
    · obtain h0 | ⟨⟨_, _, _⟩, _⟩ := hcollapsed.current <;> omega
    · rintro ⟨hle, hlt⟩
      obtain h0 | ⟨hcurrent, hnot, _⟩ := hcollapsed.current
      · have := hframe.1
        omega
      · have := hcurrent.disjoint hframe fun e => hnot (e ▸ ht)
        omega

end Call

section Exhausted

theorem pfaRequestPage_exhausted {s : Machine Pfa} (h : s.alloc.pageBitmap.size = 0) :
    pfaRequestPage s = (0, ⟨s.mem, { s.alloc with requested := 0 :: s.alloc.requested }⟩) := by
  have hlimit : limit s = 0 := by
    rw [limit, h]
    rfl
  rw [pfaRequestPage, requestIndex, hlimit, Nat.zero_sub]
  rfl

theorem nextTable_log_mem {α : Type} (pfaRequestPage : Machine α → ℕ × Machine α)
    (table field : ℕ) {s : Machine (α × List Request)} {r : Request} (h : r ∈ s.alloc.2) :
    r ∈ (nextTable (logged pfaRequestPage) table field s).2.alloc.2 := by
  cases hp : pdeGetFlag (readEntry s.mem table (load64 s.mem field)) .present with
  | true =>
    rw [nextTable_present hp]
    exact h
  | false =>
    rw [nextTable_absent hp, logged_log]
    exact List.mem_cons_of_mem _ h

theorem callLog_preserved {α : Type} (pfaRequestPage : Machine α → ℕ × Machine α)
    (P : α → List Request → Prop)
    (hrequest : ∀ s, P s.alloc.1 s.alloc.2 →
      P (logged pfaRequestPage s).2.alloc.1 (logged pfaRequestPage s).2.alloc.2)
    (pml4 virtualMemory physicalMemory : ℕ) {s : Machine α} (h : P s.alloc []) :
    ∃ a, P a (callLog pfaRequestPage pml4 virtualMemory physicalMemory s) :=
  ⟨_, mapRun_alloc (logged pfaRequestPage) (fun _ a => P a.1 a.2) (fun _ => hrequest)
    (fun _ _ h => h) pml4 [(virtualMemory, physicalMemory)] (n := 0)
    (s := ⟨s.mem, (s.alloc, [])⟩) h⟩

theorem callLog_of_absent {α : Type} (pfaRequestPage : Machine α → ℕ × Machine α)
    {pml4 virtualMemory : ℕ} (physicalMemory : ℕ) {s : Machine α}
    (habsent : pdeGetFlag (readEntry (pmiCreate virtualMemory s.mem).2 pml4
      (load64 (pmiCreate virtualMemory s.mem).2 pdpField)) .present = false) :
    ∃ r, r ∈ callLog pfaRequestPage pml4 virtualMemory physicalMemory s := by
  obtain ⟨u, hu⟩ : ∃ u : Machine (α × List Request),
      u = indexed virtualMemory ⟨s.mem, (s.alloc, [])⟩ := ⟨_, rfl⟩
  have hmem : u.mem = (pmiCreate virtualMemory s.mem).2 := congrArg Machine.mem hu
  rw [← hmem] at habsent
  obtain ⟨r, hr⟩ : ∃ r, r ∈ (nextTable (logged pfaRequestPage) pml4 pdpField u).2.alloc.2 := by
    rw [nextTable_absent habsent, logged_log]
    exact ⟨_, List.mem_cons_self⟩
  have hlog : callLog pfaRequestPage pml4 virtualMemory physicalMemory s =
      (leafTable (logged pfaRequestPage) pml4 virtualMemory ⟨s.mem, (s.alloc, [])⟩).2.alloc.2 := by
    rw [callLog, ptmMapMemory_eq]
  refine ⟨r, ?_⟩
  rw [hlog, leafTable, ← hu]
  exact nextTable_log_mem _ _ _ (nextTable_log_mem _ _ _ hr)

theorem exhausted_log (virtualMemory physicalMemory : ℕ) :
    HonestRequests {0x1000} (callLog pfaRequestPage 0x1000 virtualMemory physicalMemory
      ⟨fun _ => 0#8, initialPfa⟩) ∧
    ∃ r ∈ callLog pfaRequestPage 0x1000 virtualMemory physicalMemory
      ⟨fun _ => 0#8, initialPfa⟩, r.page = 0 := by
  have hpreserved : ∀ s : Machine (Pfa × List Request), (s.alloc.1.pageBitmap.size = 0 ∧
      HonestRequests {0x1000} s.alloc.2 ∧ ∀ r ∈ s.alloc.2, r.page = 0) →
      (logged pfaRequestPage s).2.alloc.1.pageBitmap.size = 0 ∧
        HonestRequests {0x1000} (logged pfaRequestPage s).2.alloc.2 ∧
        ∀ r ∈ (logged pfaRequestPage s).2.alloc.2, r.page = 0 := by
    rintro s ⟨hsize, hhonest, hnull⟩
    have hrequest : logged pfaRequestPage s =
        (0, ⟨s.mem, ({ s.alloc.1 with requested := 0 :: s.alloc.1.requested },
          ⟨0, s.mem, s.mem⟩ :: s.alloc.2)⟩) := by
      rw [logged, pfaRequestPage_exhausted hsize]
    rw [hrequest]
    exact ⟨hsize, .cons hhonest (fun hne => absurd rfl hne) fun _ _ => rfl,
      List.forall_mem_cons.2 ⟨rfl, hnull⟩⟩
  obtain ⟨_, _, hhonest, hnull⟩ := callLog_preserved pfaRequestPage
    (fun a log => a.pageBitmap.size = 0 ∧ HonestRequests {0x1000} log ∧ ∀ r ∈ log, r.page = 0)
    hpreserved 0x1000 virtualMemory physicalMemory (s := ⟨fun _ => 0#8, initialPfa⟩)
    ⟨rfl, .nil, by simp⟩
  obtain ⟨r, hr⟩ : ∃ r, r ∈ callLog pfaRequestPage 0x1000 virtualMemory physicalMemory
      ⟨fun _ => 0#8, initialPfa⟩ := by
    apply callLog_of_absent
    rw [(pmiCreate_fields _ _).2.1, readEntry, load64_zero]
    · rfl
    · have := tableIndex_lt 3 virtualMemory
      omega
    · intro x h1 _
      exact pmiCreate_outside _ _ (by omega)
  exact ⟨hhonest, r, hr, hnull r hr⟩

end Exhausted

/-- No call with a null request fails cleanly. -/
theorem ptmMapMemory_null_unclean {α : Type} (pfaRequestPage : Machine α → ℕ × Machine α)
    (pml4 virtualMemory physicalMemory : ℕ) (T : Set ℕ) (s : Machine α)
    (htree : TreeInvariant pml4 T s.mem)
    (hhonest : HonestRequests T (callLog pfaRequestPage pml4 virtualMemory physicalMemory s))
    (hnull : ∃ r ∈ callLog pfaRequestPage pml4 virtualMemory physicalMemory s, r.page = 0) :
    ¬ FailsCleanly pml4 s.mem
      (ptmMapMemory pfaRequestPage pml4 virtualMemory physicalMemory s).mem := by
  intro h
  have hzero := htree.owned 0 (h.unlinked (isTable_zero htree hhonest hnull))
  obtain ⟨_, hpos, _⟩ := htree.frames 0 hzero
  omega

/-- The first call before the allocator has any frames. -/
theorem ptmMapMemory_null_unclean_exhausted : ¬ FailsCleanly 0x1000 (fun _ => 0#8)
    (ptmMapMemory pfaRequestPage 0x1000 0x400000 0x9000 ⟨fun _ => 0#8, initialPfa⟩).mem := by
  have hlog := exhausted_log 0x400000 0x9000
  exact ptmMapMemory_null_unclean pfaRequestPage 0x1000 0x400000 0x9000 {0x1000}
    ⟨fun _ => 0#8, initialPfa⟩ blank_tree hlog.1 hlog.2

theorem not_failsCleanly_exhausted :
    (∃ r ∈ callLog pfaRequestPage 0x1000 0 0x9000 ⟨fun _ => 0#8, initialPfa⟩, r.page = 0) ∧
      ¬ FailsCleanly 0x1000 (fun _ => 0#8)
        (ptmMapMemory pfaRequestPage 0x1000 0 0x9000 ⟨fun _ => 0#8, initialPfa⟩).mem := by
  have hlog := exhausted_log 0 0x9000
  refine ⟨hlog.2, fun h => ?_⟩
  have hzero := blank_tree.owned 0 (h.unlinked (isTable_zero (s := ⟨fun _ => 0#8, initialPfa⟩)
    blank_tree hlog.1 hlog.2))
  exact absurd hzero (by simp)

end Rizzos.PageTableExhaustion
