import Rizzos.PageTableRequests

set_option autoImplicit false

/-! The memory that one call of `ptmMapMemory` changes. -/
namespace Rizzos.PageTableEffect
open ByteMemory Memory Paging TableTree PageTableManager PageTableTree PageTableMap
  PageTableTranslation PageTableRequests

def InEntry (table index x : ℕ) : Prop := table + 8 * index ≤ x ∧ x < table + 8 * index + 8

/-- The bytes that the allocator changed for itself and those of the frames it returned. -/
def Requested (log : List Request) (x : ℕ) : Prop :=
  ∃ r ∈ log, r.after x ≠ r.before x ∨ InFrame r.page x

/-- What a call is to leave of the memory `m`: besides what was requested, one entry on the way
    to the page changes, the link to the first new table or else the leaf. The entries that
    were there keep their flags. -/
structure Framed (pml4 virtualMemory : ℕ) (log : List Request) (m m' : Mem) : Prop where
  entry : ∃ p index table, index :: p <:+ path virtualMemory ∧
    lookup (entries m) pml4 p = some table ∧ (log = [] → p.length = 3) ∧
    (∀ first, log.getLast? = some first →
      entries m table index = none ∧ entries m' table index = some first.page) ∧
    ∀ x, ¬ Requested log x → ¬ InEntry table index x → m' x = m x
  flags : ∀ t index flag, IsTable (entries m) pml4 4 t → index < 512 → flag ≠ .present →
    flag ≠ .readWrite →
      pdeGetFlag (readEntry m' t index) flag = pdeGetFlag (readEntry m t index) flag

def indexByte (virtualMemory x : ℕ) : Byte :=
  BitVec.ofNat 8 (tableIndex (3 - x / 8) virtualMemory / 256 ^ (x % 8))

theorem linkEntry_flag (pde : PageDirEntry) (address : ℕ) {flag : PtFlag} (hp : flag ≠ .present)
    (hw : flag ≠ .readWrite) :
    pdeGetFlag (linkEntry pde address) flag = pdeGetFlag pde flag := by
  rw [linkEntry, pdeGetFlag_setFlag, if_neg hw, pdeGetFlag_setFlag, if_neg hp,
    pdeGetFlag_setAddress]

theorem writeEntry_outside_entry (m : Mem) {table index x : ℕ} (pde : PageDirEntry)
    (ht : table + 4096 ≤ 2 ^ 64) (hi : index < 512) (hx : ¬ InEntry table index x) :
    writeEntry m table index pde x = m x := by
  rw [InEntry] at hx
  exact writeEntry_outside_bytes _ _ (by omega) (by omega)

theorem InEntry.inFrame {table index x : ℕ} (h : InEntry table index x) (hi : index < 512) :
    InFrame table x := by
  obtain ⟨h1, h2⟩ := h
  exact ⟨by omega, by omega⟩

theorem Requested.cons {r : Request} {log : List Request} {x : ℕ} (h : ¬ Requested (r :: log) x) :
    r.after x = r.before x ∧ ¬ InFrame r.page x ∧ ¬ Requested log x := by
  refine ⟨?_, fun hin => h ⟨r, List.mem_cons_self, .inr hin⟩, ?_⟩
  · by_contra hne
    exact h ⟨r, List.mem_cons_self, .inl hne⟩
  · rintro ⟨r', hr', hx⟩
    exact h ⟨r', List.mem_cons_of_mem _ hr', hx⟩

section Walk
variable {α : Type} {pfaRequestPage : Machine α → ℕ × Machine α} {pml4 virtualMemory : ℕ}
  {T T' : Set ℕ} {s : Machine (α × List Request)} {m : Mem} {p : List ℕ} {index : ℕ}
  {r : ℕ × Machine (α × List Request)}

/-- The walk has left the tables of `m` through the entry `index` of `table`, which now links
    the first frame obtained. The table reached is a new one without entries. -/
structure Departed (m : Mem) (index table : ℕ) (r : ℕ × Machine (α × List Request)) : Prop where
  linked : ∃ first, r.2.alloc.2.getLast? = some first ∧ FrameAddress first.page ∧
    readEntry r.2.mem table index = linkEntry (readEntry m table index) first.page
  outside : ∀ x, ¬ Requested r.2.alloc.2 x → ¬ InEntry table index x → r.2.mem x = m x
  current : ∃ request ∈ r.2.alloc.2, request.page = r.1
  empty : ∀ j < 512, readEntry r.2.mem r.1 j = 0#64

/-- Either nothing has been written yet or the walk has departed from a table on its way. -/
def Walked (m : Mem) (pml4 : ℕ) (p : List ℕ) (r : ℕ × Machine (α × List Request)) : Prop :=
  (r.2.mem = m ∧ r.2.alloc.2 = []) ∨
  ∃ q index table, index :: q <:+ p ∧ lookup (entries m) pml4 q = some table ∧
    entries m table index = none ∧ index < 512 ∧ Departed m index table r

theorem nextTable_outside {field table : ℕ}
    (hindex : load64 s.mem field = index) (hi : index < 512) (hfield : field + 8 ≤ 32)
    (habsent : pdeGetFlag (readEntry s.mem table index) .present = false)
    (htable : FrameAddress table) (hpage : FrameAddress (logged pfaRequestPage s).1)
    (hlow : ∀ x < 32, (logged pfaRequestPage s).2.mem x = s.mem x) {x : ℕ}
    (hx : ¬ Requested (nextTable (logged pfaRequestPage) table field s).2.alloc.2 x)
    (hentry : ¬ InEntry table index x) :
    (nextTable (logged pfaRequestPage) table field s).2.mem x = s.mem x := by
  obtain ⟨_, _, htablelt⟩ := id htable
  obtain ⟨_, _, hpagelt⟩ := id hpage
  rw [nextTable_linked hindex habsent (cleared_scratch hpage hlow) hfield] at hx ⊢
  obtain ⟨hafter, hframe, _⟩ := Requested.cons hx
  change ¬ InFrame (logged pfaRequestPage s).1 x at hframe
  dsimp only
  rw [writeEntry_outside_entry _ _ (by omega) hi hentry, memSet64_outside_frame _ (by omega) hframe]
  exact hafter

theorem Walked.next
    (hd : Descended (LoggedFrames T) pml4 virtualMemory s T p r T')
    (htree : TreeInvariant pml4 T m) (hw : Walked m pml4 p r) (hp : p.length < 3)
    (hi : index < 512) {field : ℕ} (hfield : field + 8 ≤ 32) (hindex : load64 r.2.mem field = index)
    (hgood : AllServed T (nextTable (logged pfaRequestPage) r.1 field r.2).2.alloc) :
    Walked m pml4 (index :: p) (nextTable (logged pfaRequestPage) r.1 field r.2) := by
  cases hpresent : pdeGetFlag (readEntry r.2.mem r.1 index) .present with
  | true =>
    have he : nextTable (logged pfaRequestPage) r.1 field r.2 = _ :=
      nextTable_present_at hindex hpresent
    rw [he]
    obtain hold | ⟨q, j, table, _, _, _, _, hdep⟩ := hw
    · exact .inl hold
    · rw [hdep.empty index hi] at hpresent
      cases hpresent
  | false =>
    have he : nextTable (logged pfaRequestPage) r.1 field r.2 = _ :=
      nextTable_absent_at hindex hpresent
    have hlog : (nextTable (logged pfaRequestPage) r.1 field r.2).2.alloc =
        (logged pfaRequestPage r.2).2.alloc := by rw [he]
    have hnext : (nextTable (logged pfaRequestPage) r.1 field r.2).1 =
        (logged pfaRequestPage r.2).1 := by rw [he]
    have hgood' : AllServed T (logged pfaRequestPage r.2).2.alloc := by rwa [hlog] at hgood
    have hpage := (hgood'.1.page (hgood'.2 _ List.mem_cons_self)).1
    have htableT := hd.advance.tree.owned r.1 ⟨p, by omega, hd.found⟩
    have hframe := hd.advance.tree.frames r.1 htableT
    obtain ⟨hwritten, -, -⟩ := nextTable_written (honest_supply pfaRequestPage T)
      hd.advance.own hd.advance.tree hp hi hd.found hfield hindex hpresent hgood'
    have hempty := (hwritten.target.resolve_left (by omega)).2.2.2
    have houtside := fun x => nextTable_outside (x := x) hindex hi hfield hpresent hframe hpage
      fun x hx => hgood'.1.kept (.inl hx)
    refine .inr ?_
    obtain ⟨hmem, hnil⟩ | ⟨q, j, table, hsuffix, hparent, hnone, hj, hdep⟩ := hw
    · -- the first table that was not there
      refine ⟨p, index, r.1, List.suffix_rfl, hmem ▸ hd.found, ?_, hi, ?_, ?_, ?_, ?_⟩
      · rw [← hmem, entries_of_absent hpresent]
      · refine ⟨⟨(logged pfaRequestPage r.2).1, r.2.mem, (logged pfaRequestPage r.2).2.mem⟩, ?_,
          hpage, ?_⟩
        · rw [hlog, logged_log, hnil]
          rfl
        · rw [hwritten.written, hmem]
      · intro x hx hentry
        rw [houtside x hx hentry, hmem]
      · rw [hlog, logged_log, hnext]
        exact ⟨_, List.mem_cons_self, rfl⟩
      · rw [hnext]
        exact hempty
    · -- the table above is new as well
      have hold := hgood'.1.tail
      have havail : Available r.2.alloc.2 := fun r' hr' => hgood'.2 r' (List.mem_cons_of_mem _ hr')
      have hq : q.length < 4 := by
        have := hsuffix.length_le
        rw [List.length_cons] at this
        omega
      obtain ⟨request, hrequest, hcurrent⟩ := hdep.current
      obtain ⟨first, hfirst, hfirstFrame, hlink⟩ := hdep.linked
      refine ⟨q, j, table, hsuffix.trans (List.suffix_cons _ _), hparent, hnone, hj, ?_, ?_, ?_, ?_⟩
      · refine ⟨first, ?_, hfirstFrame, ?_⟩
        · rw [hlog, logged_log, List.getLast?_cons, hfirst]
          rfl
        · have hne : table ≠ r.1 := by
            intro e
            refine (hold.page_all request hrequest (havail request hrequest)).2 ?_
            rw [hcurrent, ← e]
            exact htree.owned table ⟨q, hq, hparent⟩
          rw [hwritten.kept table (hd.advance.sub (htree.owned table ⟨q, hq, hparent⟩)) j hj
            (.inl hne), hlink]
      · intro x hx hentry
        have hx' := hx
        rw [hlog, logged_log] at hx'
        obtain ⟨_, _, hbefore⟩ := Requested.cons hx'
        rw [houtside x hx, hdep.outside x hbefore hentry]
        intro hin
        exact hbefore ⟨request, hrequest, .inr (hcurrent ▸ hin.inFrame hi)⟩
      · rw [hlog, logged_log, hnext]
        exact ⟨_, List.mem_cons_self, rfl⟩
      · rw [hnext]
        exact hempty

theorem leafTable_walked {a : α} (htree : TreeInvariant pml4 T m)
    (hgood : AllServed T (leafTable (logged pfaRequestPage) pml4 virtualMemory
      ⟨m, (a, [])⟩).2.alloc) :
    let r := leafTable (logged pfaRequestPage) pml4 virtualMemory ⟨m, (a, [])⟩
    Walked (pmiCreate virtualMemory m).2 pml4 (path virtualMemory).tail r ∧
      TreeInvariant pml4 T (pmiCreate virtualMemory m).2 ∧
      lookup (entries r.2.mem) pml4 (path virtualMemory).tail = some r.1 ∧
      FrameAddress r.1 ∧ load64 r.2.mem pField = tableIndex 0 virtualMemory := by
  intro r
  have sup := honest_supply pfaRequestPage T
  have hgood2 := nextTable_good sup.good _ _ _ hgood
  have hgood1 := nextTable_good sup.good _ _ _ hgood2
  obtain ⟨hindexed, hadvance, hlookup⟩ :=
    indexed_spec sup virtualMemory (s := ⟨m, (a, [])⟩) inUse_nil.symm htree
  have htree0 := hadvance.tree
  have h0 : Descended (LoggedFrames T) pml4 virtualMemory _ T []
      (pml4, indexed virtualMemory ⟨m, (a, [])⟩) T :=
    ⟨hadvance, hindexed, rfl, fun q hq _ => hlookup q hq⟩
  have hw0 : Walked (pmiCreate virtualMemory m).2 pml4 []
      (pml4, indexed virtualMemory ⟨m, (a, [])⟩) := .inl ⟨rfl, rfl⟩
  have hw1 := hw0.next h0 htree0 (by decide) (tableIndex_lt 3 virtualMemory) (by decide)
    hindexed.pdp hgood1
  obtain ⟨T1, h1⟩ := h0.next sup (by decide) (tableIndex_lt 3 virtualMemory) (by decide)
    hindexed.pdp hgood1
  have hw2 := hw1.next h1 htree0 (by simp) (tableIndex_lt 2 virtualMemory) (by decide)
    h1.indexed.pd hgood2
  obtain ⟨T2, h2⟩ := h1.next sup (by simp) (tableIndex_lt 2 virtualMemory) (by decide)
    h1.indexed.pd hgood2
  have hw3 := hw2.next h2 htree0 (by simp) (tableIndex_lt 1 virtualMemory) (by decide)
    h2.indexed.pt hgood
  obtain ⟨T3, h3⟩ := h2.next sup (by simp) (tableIndex_lt 1 virtualMemory) (by decide)
    h2.indexed.pt hgood
  exact ⟨hw3, htree0, h3.found,
    h3.advance.tree.frames _ (h3.advance.tree.owned _ ⟨_, by simp, h3.found⟩), h3.indexed.p⟩

end Walk

theorem readEntry_congr_entry {m m' : Mem} {t index : ℕ} (ht : t + 4096 ≤ 2 ^ 64)
    (hi : index < 512) (h : ∀ x, InEntry t index x → m' x = m x) :
    readEntry m' t index = readEntry m t index := by
  have hagree : Agree m m' (t + 8 * index) 8 := fun x h1 h2 => h x ⟨h1, h2⟩
  rw [readEntry, readEntry, load64, hagree.loadLE_eq (by omega)]

theorem flags_kept {pml4 : ℕ} {T : Set ℕ} {m m' : Mem} {log : List Request} {index table y : ℕ}
    (htree : TreeInvariant pml4 T m) (hlog : HonestRequests T log) (havail : Available log)
    (htable : IsTable (entries m) pml4 4 table) (hi : index < 512)
    (houtside : ∀ x, ¬ Requested log x → ¬ InEntry table index x → m' x = m x)
    (hlinked : readEntry m' table index = linkEntry (readEntry m table index) y) {t j : ℕ}
    {flag : PtFlag} (ht : IsTable (entries m) pml4 4 t) (hj : j < 512) (hp : flag ≠ .present)
    (hw : flag ≠ .readWrite) :
    pdeGetFlag (readEntry m' t j) flag = pdeGetFlag (readEntry m t j) flag := by
  by_cases hhere : t = table ∧ j = index
  · obtain ⟨rfl, rfl⟩ := hhere
    rw [hlinked, linkEntry_flag _ _ hp hw]
  · have hframe := htree.frames t (htree.owned t ht)
    have hother := htree.frames table (htree.owned table htable)
    obtain ⟨_, _, hlt⟩ := id hframe
    rw [readEntry_congr_entry (by omega) hj]
    intro x hx
    have hin := hx.inFrame hj
    apply houtside
    · rintro ⟨r, hr, hchanged | hpage⟩
      · exact hchanged (hlog.kept_all (.inr ⟨t, htree.owned t ht, hin⟩) r hr)
      · obtain ⟨hnew, hnot⟩ := hlog.page_all r hr (havail r hr)
        have hne : t ≠ r.page := fun e => hnot (e ▸ htree.owned t ht)
        have := hframe.disjoint hnew hne
        unfold InFrame at hin hpage
        omega
    · intro hx'
      have hin' := hx'.inFrame hi
      have hsame : t = table := by
        by_contra hne
        have := hframe.disjoint hother hne
        unfold InFrame at hin hin'
        omega
      unfold InEntry at hx hx'
      omega

section Call
variable {α : Type} (pfaRequestPage : Machine α → ℕ × Machine α) {pml4 : ℕ} {T : Set ℕ}
  (virtualMemory physicalMemory : ℕ) (s : Machine α)

theorem framed_indexed (htree : TreeInvariant pml4 T s.mem)
    (hhonest : HonestRequests T (callLog pfaRequestPage pml4 virtualMemory physicalMemory s))
    (havailable : Available (callLog pfaRequestPage pml4 virtualMemory physicalMemory s)) :
    Framed pml4 virtualMemory (callLog pfaRequestPage pml4 virtualMemory physicalMemory s)
      (pmiCreate virtualMemory s.mem).2
      (ptmMapMemory pfaRequestPage pml4 virtualMemory physicalMemory s).mem := by
  have hlog : callLog pfaRequestPage pml4 virtualMemory physicalMemory s =
      (leafTable (logged pfaRequestPage) pml4 virtualMemory ⟨s.mem, (s.alloc, [])⟩).2.alloc.2 := by
    rw [callLog, ptmMapMemory_eq]
  have hgood : AllServed T (leafTable (logged pfaRequestPage) pml4 virtualMemory
      ⟨s.mem, (s.alloc, [])⟩).2.alloc := by
    rw [hlog] at hhonest havailable
    exact ⟨hhonest, havailable⟩
  obtain ⟨hwalked, htree0, hfound, hframe, hindex⟩ := leafTable_walked htree hgood
  rw [ptmMapMemory_mem, ptmMapMemory_eq, hlog]
  set r := leafTable (logged pfaRequestPage) pml4 virtualMemory ⟨s.mem, (s.alloc, [])⟩
  set m := (pmiCreate virtualMemory s.mem).2
  have hi := tableIndex_lt 0 virtualMemory
  obtain ⟨_, _, hlt⟩ := id hframe
  dsimp only
  rw [hindex]
  set m' := writeEntry r.2.mem r.1 (tableIndex 0 virtualMemory)
    (linkEntry (readEntry r.2.mem r.1 (tableIndex 0 virtualMemory)) physicalMemory)
  have hleaf : ∀ x, ¬ InEntry r.1 (tableIndex 0 virtualMemory) x → m' x = r.2.mem x :=
    fun x hx => writeEntry_outside_entry _ _ (by omega) hi hx
  obtain ⟨hmem, hnil⟩ | ⟨q, index, table, hsuffix, hparent, hnone, hj, hdep⟩ := hwalked
  · -- every table was there
    rw [hmem] at hfound hleaf
    have hwritten : readEntry m' r.1 (tableIndex 0 virtualMemory) =
        linkEntry (readEntry m r.1 (tableIndex 0 virtualMemory)) physicalMemory := by
      rw [readEntry_writeEntry, hmem]
    have houtside : ∀ x, ¬ Requested r.2.alloc.2 x →
        ¬ InEntry r.1 (tableIndex 0 virtualMemory) x → m' x = m x := fun x _ hx => hleaf x hx
    refine ⟨⟨(path virtualMemory).tail, _, r.1, List.suffix_rfl, hfound, fun _ => rfl, ?_,
      houtside⟩, fun t j flag ht hj hp hw => flags_kept htree0 hgood.1 hgood.2
        ⟨_, by rw [path_tail_length]; omega, hfound⟩ hi houtside hwritten ht hj hp hw⟩
    intro first hfirst
    rw [hnil] at hfirst
    cases hfirst
  · -- the leaf lies in a new table
    obtain ⟨first, hfirst, hfirstFrame, hlink⟩ := hdep.linked
    obtain ⟨request, hrequest, hcurrent⟩ := hdep.current
    have hq : q.length < 4 := by
      have := hsuffix.length_le
      rw [List.length_cons, path_tail_length] at this
      omega
    have htable : IsTable (entries m) pml4 4 table := ⟨q, hq, hparent⟩
    have htableT := htree0.owned table htable
    have hne : table ≠ r.1 := by
      intro e
      refine (hgood.1.page_all request hrequest (hgood.2 request hrequest)).2 ?_
      rw [hcurrent, ← e]
      exact htableT
    have houtside : ∀ x, ¬ Requested r.2.alloc.2 x → ¬ InEntry table index x → m' x = m x := by
      intro x hx hentry
      rw [hleaf x, hdep.outside x hx hentry]
      intro hin
      exact hx ⟨request, hrequest, .inr (hcurrent ▸ hin.inFrame hi)⟩
    have hlink' : readEntry m' table index = linkEntry (readEntry m table index) first.page := by
      rw [readEntry_writeEntry_ne _ _ hframe (htree0.frames table htableT) hi hj (.inl hne), hlink]
    refine ⟨⟨q, index, table, hsuffix.trans (List.tail_suffix _), hparent, ?_, ?_, houtside⟩,
      fun t j flag ht hj' hp hw => flags_kept htree0 hgood.1 hgood.2 htable hj houtside hlink' ht
        hj' hp hw⟩
    · intro hnil
      rw [hnil] at hfirst
      cases hfirst
    · intro first' hfirst'
      rw [hfirst, Option.some_inj] at hfirst'
      rw [← hfirst']
      refine ⟨hnone, ?_⟩
      have hpresent : pdeGetFlag (readEntry m' table index) .present = true := by
        rw [hlink']
        exact linkEntry_present _ _
      rw [entries_of_present hj hpresent, hlink', pdeFrame_linkEntry, hfirstFrame.frameOf]

theorem pmiCreate_apply (m : Mem) {x : ℕ} (hx : x < 32) :
    (pmiCreate virtualMemory m).2 x = indexByte virtualMemory x := by
  obtain ⟨_, h3, h2, h1, h0⟩ := pmiCreate_fields virtualMemory m
  have hbyte : ∀ field i, field + i < 32 → i < 8 → (pmiCreate virtualMemory m).2 (field + i) =
      BitVec.ofNat 8 (load64 (pmiCreate virtualMemory m).2 field / 256 ^ i) := by
    intro field i hlt hi
    rw [load64, ← loadLE_apply _ hi, wrap_of_lt (by omega)]
  have hlevel : ∀ field level, field % 8 = 0 → field / 8 + level = 3 →
      load64 (pmiCreate virtualMemory m).2 field = tableIndex level virtualMemory →
      x / 8 = field / 8 → (pmiCreate virtualMemory m).2 x = indexByte virtualMemory x := by
    intro field level hfield hlevel hload hdiv
    have h := hbyte field (x % 8) (by omega) (by omega)
    rw [hload, show field + x % 8 = x by omega, show level = 3 - x / 8 by omega] at h
    exact h
  have hcases : x / 8 = 0 ∨ x / 8 = 1 ∨ x / 8 = 2 ∨ x / 8 = 3 := by omega
  obtain hc | hc | hc | hc := hcases
  · exact hlevel pdpField 3 rfl rfl h3 hc
  · exact hlevel pdField 2 rfl rfl h2 hc
  · exact hlevel ptField 1 rfl rfl h1 hc
  · exact hlevel pField 0 rfl rfl h0 hc

variable {pfaRequestPage virtualMemory physicalMemory s}

theorem Framed.indexed (htree : TreeInvariant pml4 T s.mem)
    (hhonest : HonestRequests T (callLog pfaRequestPage pml4 virtualMemory physicalMemory s))
    (havailable : Available (callLog pfaRequestPage pml4 virtualMemory physicalMemory s))
    (h : Framed pml4 virtualMemory (callLog pfaRequestPage pml4 virtualMemory physicalMemory s)
      s.mem (ptmMapMemory pfaRequestPage pml4 virtualMemory physicalMemory s).mem) :
    ∀ x < 32, s.mem x = indexByte virtualMemory x := by
  intro x hx
  have hlow : ∀ {t}, FrameAddress t → ¬ InFrame t x := by
    rintro t ⟨ht, hpos, _⟩ ⟨hle, _⟩
    omega
  have hrequested : ¬ Requested (callLog pfaRequestPage pml4 virtualMemory physicalMemory s) x := by
    rintro ⟨r, hr, hchanged | hin⟩
    · exact hchanged (hhonest.kept_all (.inl hx) r hr)
    · exact hlow (hhonest.page_all r hr (havailable r hr)).1 hin
  have hentry : ∀ {m : Mem} {p : List ℕ} {index table : ℕ}, TreeInvariant pml4 T m →
      index :: p <:+ path virtualMemory → lookup (entries m) pml4 p = some table →
      ¬ InEntry table index x := by
    intro m p index table htree hsuffix hparent hin
    have hlength := hsuffix.length_le
    rw [List.length_cons, path_length] at hlength
    have hi : index < 512 := by
      have hmem := hsuffix.subset List.mem_cons_self
      simp only [path, List.mem_cons, List.not_mem_nil, or_false] at hmem
      obtain rfl | rfl | rfl | rfl := hmem <;> exact tableIndex_lt _ _
    exact hlow (htree.frames table (htree.owned table ⟨p, by omega, hparent⟩)) (hin.inFrame hi)
  have hindexed := framed_indexed pfaRequestPage virtualMemory physicalMemory s htree hhonest
    havailable
  have htree0 := (indexed_spec (honest_supply pfaRequestPage T) virtualMemory
    (s := ⟨s.mem, (s.alloc, [])⟩) inUse_nil.symm htree).2.1.tree
  obtain ⟨p, index, table, hsuffix, hparent, _, _, houtside⟩ := h.entry
  obtain ⟨p0, index0, table0, hsuffix0, hparent0, _, _, houtside0⟩ := hindexed.entry
  rw [← houtside x hrequested (hentry htree hsuffix hparent),
    houtside0 x hrequested (hentry htree0 hsuffix0 hparent0), pmiCreate_apply _ _ hx]

/-- A call that finds its own indices in the first bytes is framed. -/
theorem framed_of_indexed (htree : TreeInvariant pml4 T s.mem)
    (hhonest : HonestRequests T (callLog pfaRequestPage pml4 virtualMemory physicalMemory s))
    (havailable : Available (callLog pfaRequestPage pml4 virtualMemory physicalMemory s))
    (h : ∀ x < 32, s.mem x = indexByte virtualMemory x) :
    Framed pml4 virtualMemory (callLog pfaRequestPage pml4 virtualMemory physicalMemory s)
      s.mem (ptmMapMemory pfaRequestPage pml4 virtualMemory physicalMemory s).mem := by
  have hsame : (pmiCreate virtualMemory s.mem).2 = s.mem := by
    funext x
    by_cases hx : x < 32
    · rw [pmiCreate_apply _ _ hx, h x hx]
    · exact pmiCreate_outside _ _ (by omega)
  have hframed := framed_indexed pfaRequestPage virtualMemory physicalMemory s htree hhonest
    havailable
  rwa [hsame] at hframed

end Call

/-- A call changes no more than its frame exactly when the first 32 bytes of the memory already
    hold the four indices of the page. -/
theorem ptmMapMemory_framed_iff {α : Type} (pfaRequestPage : Machine α → ℕ × Machine α)
    (pml4 virtualMemory physicalMemory : ℕ) (T : Set ℕ) (s : Machine α)
    (htree : TreeInvariant pml4 T s.mem)
    (hhonest : HonestRequests T (callLog pfaRequestPage pml4 virtualMemory physicalMemory s))
    (havailable : Available (callLog pfaRequestPage pml4 virtualMemory physicalMemory s)) :
    Framed pml4 virtualMemory (callLog pfaRequestPage pml4 virtualMemory physicalMemory s) s.mem
      (ptmMapMemory pfaRequestPage pml4 virtualMemory physicalMemory s).mem ↔
      ∀ x < 32, s.mem x = indexByte virtualMemory x := by
  constructor
  · exact fun h => h.indexed htree hhonest havailable
  · exact framed_of_indexed htree hhonest havailable

/-- The same of the allocator's own frames while its requests are served. -/
theorem pfaRequestPage_framed_iff {bitmap : UtilsBitmap.Bitmap} {B T : Set ℕ}
    {s : Machine PageFrameAllocator.Pfa} {pml4 : ℕ} (virtualMemory physicalMemory : ℕ)
    (hown : PageFrameSupply.Handed bitmap B s T) (htree : TreeInvariant pml4 T s.mem)
    (hserved : PageFrameSupply.Served
      (ptmMapMemory PageFrameAllocator.pfaRequestPage pml4 virtualMemory physicalMemory s).alloc) :
    Framed pml4 virtualMemory
        (callLog PageFrameAllocator.pfaRequestPage pml4 virtualMemory physicalMemory s) s.mem
        (ptmMapMemory PageFrameAllocator.pfaRequestPage pml4 virtualMemory physicalMemory s).mem ↔
      ∀ x < 32, s.mem x = indexByte virtualMemory x := by
  obtain ⟨hhonest, havailable⟩ :=
    pfaRequestPage_honest virtualMemory physicalMemory hown htree hserved
  exact ⟨fun h => h.indexed htree hhonest havailable, framed_of_indexed htree hhonest havailable⟩

theorem counting_served (virtualMemory physicalMemory : ℕ) (m : Mem) :
    HonestRequests {0x1000} (callLog counting 0x1000 virtualMemory physicalMemory ⟨m, 0⟩) ∧
      Available (callLog counting 0x1000 virtualMemory physicalMemory ⟨m, 0⟩) := by
  have h := mapRun_alloc (logged counting)
    (fun n a => a.1 ≤ n ∧ (∀ r ∈ a.2, 0x2000 ≤ r.page ∧ r.page < 0x2000 + 0x1000 * a.1) ∧
      (n ≤ 2 ^ 30 → HonestRequests {0x1000} a.2)) ?_ ?_ 0x1000 [(virtualMemory, physicalMemory)]
      (n := 0) (s := ⟨m, (0, [])⟩) ⟨le_rfl, by simp, fun _ => .nil⟩
  · refine ⟨h.2.2 (by simp), fun r hr => ?_⟩
    have := h.2.1 r hr
    omega
  · rintro n s ⟨hn, hpages, hhonest⟩
    refine ⟨Nat.succ_le_succ hn, ?_, fun hle => .cons (hhonest (by omega)) (fun _ => ?_)
      fun _ _ => rfl⟩
    · intro r hr
      obtain rfl | hr := List.mem_cons.1 hr
      · dsimp only [counting, logged]
        omega
      · have := hpages r hr
        dsimp only [counting, logged]
        omega
    · dsimp only [counting]
      refine ⟨⟨by omega, by omega, by omega⟩, ?_⟩
      rintro (hroot | ⟨_, r, hr, hpage⟩)
      · have hroot : 0x2000 + 0x1000 * s.alloc.1 = 0x1000 := hroot
        omega
      · have := hpages r hr
        omega
  · rintro n a ⟨hn, hpages, hhonest⟩
    exact ⟨by omega, hpages, fun hle => hhonest (by omega)⟩

/-- The first page has index zero at every level, as a blank memory says. -/
theorem ptmMapMemory_framed_blank :
    Framed 0x1000 0 (callLog counting 0x1000 0 0x9000 ⟨fun _ => 0#8, 0⟩) (fun _ => 0#8)
      (ptmMapMemory counting 0x1000 0 0x9000 ⟨fun _ => 0#8, 0⟩).mem := by
  have hserved := counting_served 0 0x9000 fun _ => 0#8
  refine (ptmMapMemory_framed_iff counting 0x1000 0 0x9000 {0x1000} ⟨fun _ => 0#8, 0⟩ blank_tree
    hserved.1 hserved.2).2 ?_
  decide

/-- Mapping the second page leaves a one at address 24. -/
theorem not_framed_blank :
    ¬ Framed 0x1000 0x1000 (callLog counting 0x1000 0x1000 0x9000 ⟨fun _ => 0#8, 0⟩)
      (fun _ => 0#8) (ptmMapMemory counting 0x1000 0x1000 0x9000 ⟨fun _ => 0#8, 0⟩).mem := by
  intro h
  have hserved := counting_served 0x1000 0x9000 fun _ => 0#8
  have hbyte := Framed.indexed (s := ⟨fun _ => 0#8, 0⟩) blank_tree hserved.1 hserved.2 h 24
    (by decide)
  exact absurd hbyte (by decide)

end Rizzos.PageTableEffect
