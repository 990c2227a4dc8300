import Rizzos.HeapRuns

set_option autoImplicit false

/-! Free segments that lie next to each other: what an expansion and a free make of a heap that
has none. -/
namespace Rizzos.HeapCoalescing
open ByteMemory Memory LinkedList KernelHeap HeapSegments HeapOperations HeapAllocation HeapMalloc
open HeapRuns

variable {β : Type} {h : Heap β} {segs segs' xs ys : List (ℕ × SegData)} {a b l lo hi : ℕ}

/-- No two neighbours in the list are both free. -/
def Coalesced (segs : List (ℕ × SegData)) : Prop :=
  segs.IsChain fun x y => ¬ (x.2.free = true ∧ y.2.free = true)

def freeBytes (segs : List (ℕ × SegData)) : Set ℕ :=
  {z | ∃ x ∈ segs, x.2.free = true ∧ x.1 + 32 ≤ z ∧ z < x.1 + 32 + x.2.lenght}

def headers (segs : List (ℕ × SegData)) : Set ℕ := {a | ∃ x ∈ segs, x.1 = a}

/-- The bytes of the headers that a change of the list drops. -/
def absorbed (segs segs' : List (ℕ × SegData)) : Set ℕ :=
  {z | ∃ a ∈ headers segs \ headers segs', a ≤ z ∧ z < a + 32}

theorem tiled_append : Tiled lo (xs ++ ys) hi ↔ ∃ m, Tiled lo xs m ∧ Tiled m ys hi := by
  induction xs generalizing lo with
  | nil =>
    constructor
    · intro hy
      exact ⟨lo, rfl, hy⟩
    · rintro ⟨m, rfl, hy⟩
      exact hy
  | cons x xs ih =>
    change x.1 = lo ∧ Tiled _ (xs ++ ys) hi ↔ ∃ m, (x.1 = lo ∧ Tiled _ xs m) ∧ Tiled m ys hi
    rw [ih]
    constructor
    · rintro ⟨hx, m, hxs, hys⟩
      exact ⟨m, ⟨hx, hxs⟩, hys⟩
    · rintro ⟨m, ⟨hx, hxs⟩, hys⟩
      exact ⟨hx, m, hxs, hys⟩

theorem mergeInto_tiled_append {x : ℕ × SegData} (hl : Tiled lo (xs ++ x :: ys) hi) :
    Tiled lo (mergeInto xs x ++ ys) hi := by
  rw [List.append_cons] at hl
  rcases tiled_append.1 hl with ⟨m, hxs, hys⟩
  exact tiled_append.2 ⟨m, mergeInto_tiled hxs, hys⟩

/-- A free segment merged into a list has no free neighbour when the one behind it is in use. -/
theorem mergeInto_coalesced (hxs : Coalesced xs) (hys : Coalesced ys)
    (hhead : ∀ y ∈ ys.head?, y.2.free = false) (a l : ℕ) :
    Coalesced (mergeInto xs (a, ⟨l, true⟩) ++ ys) := by
  have hcons : ∀ x : ℕ × SegData, Coalesced (x :: ys) := by
    intro x
    refine List.isChain_cons.2 ⟨fun y hy hfree => ?_, hys⟩
    rw [hhead y hy] at hfree
    cases hfree.2
  rcases List.eq_nil_or_concat xs with rfl | ⟨zs, c, rfl⟩
  · exact hcons _
  · rw [List.concat_eq_append] at hxs ⊢
    rcases List.isChain_append.1 hxs with ⟨hzs, _, hlast⟩
    rw [mergeInto_append, List.append_assoc]
    refine List.isChain_append.2 ⟨hzs, ?_, ?_⟩
    · split
      · exact hcons _
      · rename_i hc
        refine List.isChain_cons_cons.2 ⟨fun hfree => hc hfree.1, hcons _⟩
    · intro z hz y hy hfree
      refine hlast z hz c rfl ⟨hfree.1, ?_⟩
      split at hy <;> rename_i hc
      · exact hc
      · cases hy
        exact absurd hfree.2 hc

theorem mergeInto_cover (hxs : Tiled lo xs a) (l : ℕ) :
    ∃ z ∈ mergeInto xs (a, ⟨l, true⟩), z.1 ≤ a ∧ z.1 + 32 + z.2.lenght = a + 32 + l := by
  rcases List.eq_nil_or_concat xs with rfl | ⟨zs, c, rfl⟩
  · exact ⟨(a, ⟨l, true⟩), by simp [mergeInto], le_rfl, rfl⟩
  · rw [List.concat_eq_append] at hxs ⊢
    rw [mergeInto_append]
    split
    · have hc : c.1 + 32 + c.2.lenght = a := (tiled_append_cons.1 hxs).2
      refine ⟨(c.1, ⟨c.2.lenght + 32 + l, true⟩), by simp, ?_, ?_⟩
      · change c.1 ≤ a
        omega
      · change c.1 + 32 + (c.2.lenght + 32 + l) = a + 32 + l
        omega
    · exact ⟨(a, ⟨l, true⟩), by simp, le_rfl, rfl⟩

/-- A change that only turns headers of free segments into free bytes. -/
structure Merged (segs segs' : List (ℕ × SegData)) : Prop where
  headers : headers segs' ⊆ headers segs
  bytes : freeBytes segs' = freeBytes segs ∪ absorbed segs segs'

theorem Merged.refl (segs : List (ℕ × SegData)) : Merged segs segs := by
  refine ⟨subset_rfl, ?_⟩
  have hnone : absorbed segs segs = ∅ := by
    ext z
    simp [absorbed]
  rw [hnone, Set.union_empty]

theorem Merged.trans {segs'' : List (ℕ × SegData)} (H : Merged segs segs')
    (H' : Merged segs' segs'') : Merged segs segs'' := by
  refine ⟨H'.headers.trans H.headers, ?_⟩
  have hunion : absorbed segs segs'' = absorbed segs segs' ∪ absorbed segs' segs'' := by
    ext z
    constructor
    · rintro ⟨a, ⟨ha, hgone⟩, hz⟩
      by_cases ha' : a ∈ HeapCoalescing.headers segs'
      · exact .inr ⟨a, ⟨ha', hgone⟩, hz⟩
      · exact .inl ⟨a, ⟨ha, ha'⟩, hz⟩
    · rintro (⟨a, ⟨ha, hgone⟩, hz⟩ | ⟨a, ⟨ha, hgone⟩, hz⟩)
      · exact ⟨a, ⟨ha, fun ha'' => hgone (H'.headers ha'')⟩, hz⟩
      · exact ⟨a, ⟨H.headers ha, hgone⟩, hz⟩
  rw [H'.bytes, H.bytes, hunion, Set.union_assoc]

theorem merged_pair {d e : ℕ} (hl : Tiled lo (xs ++ (a, ⟨d, true⟩) :: (b, ⟨e, true⟩) :: ys) hi) :
    Merged (xs ++ (a, ⟨d, true⟩) :: (b, ⟨e, true⟩) :: ys)
      (xs ++ (a, ⟨d + 32 + e, true⟩) :: ys) := by
  rcases tiled_append_cons.1 hl with ⟨hxs, rfl, hys⟩
  change Tiled (a + 32 + d + 32 + e) ys hi at hys
  have hgone : a + 32 + d ∉ headers (xs ++ (a, ⟨d + 32 + e, true⟩) :: ys) := by
    rintro ⟨x, hx, hxb⟩
    rcases List.mem_append.1 hx with hx | hx
    · have := (hxs.laid.mem hx).2
      omega
    · rcases List.mem_cons.1 hx with rfl | hx
      · change a = _ at hxb
        omega
      · have := (hys.laid.mem hx).1
        omega
  have habsorbed : ∀ z, z ∈ absorbed (xs ++ (a, ⟨d, true⟩) :: (a + 32 + d, ⟨e, true⟩) :: ys)
      (xs ++ (a, ⟨d + 32 + e, true⟩) :: ys) ↔ a + 32 + d ≤ z ∧ z < a + 32 + d + 32 := by
    intro z
    constructor
    · rintro ⟨c, ⟨⟨x, hx, rfl⟩, hnone⟩, hz⟩
      rcases List.mem_append.1 hx with hx | hx
      · exact absurd ⟨x, by simp [hx], rfl⟩ hnone
      · rcases List.mem_cons.1 hx with rfl | hx
        · exact absurd ⟨(a, ⟨d + 32 + e, true⟩), by simp, rfl⟩ hnone
        · rcases List.mem_cons.1 hx with rfl | hx
          · exact hz
          · exact absurd ⟨x, by simp [hx], rfl⟩ hnone
    · intro hz
      exact ⟨_, ⟨⟨(a + 32 + d, ⟨e, true⟩), by simp, rfl⟩, hgone⟩, hz⟩
  refine ⟨?_, ?_⟩
  · rintro c ⟨x, hx, rfl⟩
    rcases List.mem_append.1 hx with hx | hx
    · exact ⟨x, by simp [hx], rfl⟩
    · rcases List.mem_cons.1 hx with rfl | hx
      · exact ⟨(a, ⟨d, true⟩), by simp, rfl⟩
      · exact ⟨x, by simp [hx], rfl⟩
  · ext z
    rw [Set.mem_union, habsorbed]
    simp only [freeBytes, Set.mem_ofPred_eq, List.mem_append, List.mem_cons, or_and_right, exists_or,
      exists_eq_left]
    have hbytes : a + 32 ≤ z ∧ z < a + 32 + (d + 32 + e) ↔ (a + 32 ≤ z ∧ z < a + 32 + d) ∨
        (a + 32 + d ≤ z ∧ z < a + 32 + d + 32) ∨
          (a + 32 + d + 32 ≤ z ∧ z < a + 32 + d + 32 + e) := by omega
    have hjoin : ∀ A B C D E : Prop, A ∨ (B ∨ E ∨ C) ∨ D ↔ (A ∨ B ∨ C ∨ D) ∨ E := by
      intro A B C D E
      simp only [or_comm, or_left_comm]
    simp only [true_and, hbytes]
    exact hjoin _ _ _ _ _

theorem mergeInto_merged (hl : Tiled lo (xs ++ (a, ⟨l, true⟩) :: ys) hi) :
    Merged (xs ++ (a, ⟨l, true⟩) :: ys) (mergeInto xs (a, ⟨l, true⟩) ++ ys) := by
  rcases List.eq_nil_or_concat xs with rfl | ⟨zs, ⟨c, d, f⟩, rfl⟩
  · exact .refl _
  · rw [List.concat_eq_append] at hl ⊢
    rw [mergeInto_append]
    cases f with
    | true =>
      rw [List.append_assoc] at hl
      simp only [if_true, List.append_assoc]
      exact merged_pair hl
    | false =>
      simp only [Bool.false_eq_true, if_false, List.append_assoc]
      exact .refl _

/-- The free bytes grow by the segment that is set free and by the headers absorbed. -/
structure Freed (segs segs' : List (ℕ × SegData)) (a l : ℕ) : Prop where
  bytes : freeBytes segs' =
    freeBytes segs ∪ {z | a + 32 ≤ z ∧ z < a + 32 + l} ∪ absorbed segs segs'
  others : ∀ y ∈ segs, y.2.free = false → y.1 ≠ a → y ∈ segs'

theorem headers_setFree (xs ys : List (ℕ × SegData)) (d e : SegData) :
    headers (xs ++ (a, d) :: ys) = headers (xs ++ (a, e) :: ys) := by
  ext c
  simp only [headers, Set.mem_ofPred_eq, List.mem_append, List.mem_cons, or_and_right, exists_or,
    exists_eq_left]

theorem freeBytes_setFree (xs ys : List (ℕ × SegData)) :
    freeBytes (xs ++ (a, ⟨l, true⟩) :: ys) =
      freeBytes (xs ++ (a, ⟨l, false⟩) :: ys) ∪ {z | a + 32 ≤ z ∧ z < a + 32 + l} := by
  ext z
  have hjoin : ∀ A B C : Prop, A ∨ B ∨ C ↔ (A ∨ C) ∨ B := by
    intro A B C
    simp only [or_comm, or_left_comm]
  simp only [freeBytes, Set.mem_union, Set.mem_ofPred_eq, List.mem_append, List.mem_cons,
    or_and_right, exists_or, exists_eq_left, true_and, Bool.false_eq_true, false_and, false_or]
  exact hjoin _ _ _

theorem mergeInto_freed (H : Merged (xs ++ (a, ⟨l, true⟩) :: ys) segs')
    (hothers : ∀ y ∈ xs ++ (a, ⟨l, false⟩) :: ys, y.2.free = false → y.1 ≠ a → y ∈ segs') :
    Freed (xs ++ (a, ⟨l, false⟩) :: ys) segs' a l := by
  refine ⟨?_, hothers⟩
  have hsame : absorbed (xs ++ (a, ⟨l, false⟩) :: ys) segs' =
      absorbed (xs ++ (a, ⟨l, true⟩) :: ys) segs' := by
    unfold absorbed
    rw [headers_setFree xs ys ⟨l, false⟩ ⟨l, true⟩]
  rw [hsame, ← freeBytes_setFree]
  exact H.bytes

theorem freedSegs_spec (hl : Tiled lo (xs ++ (a, ⟨l, false⟩) :: ys) hi)
    (hco : Coalesced (xs ++ (a, ⟨l, false⟩) :: ys)) (hnext : ∀ z ∈ ys.head?, z.2.free = true) :
    Tiled lo (freedSegs xs a l ys) hi ∧ Coalesced (freedSegs xs a l ys) ∧
      Freed (xs ++ (a, ⟨l, false⟩) :: ys) (freedSegs xs a l ys) a l := by
  have hothers : ∀ y ∈ xs ++ (a, ⟨l, false⟩) :: ys, y.2.free = false → y.1 ≠ a →
      y ∈ freedSegs xs a l ys := fun y hy hfree hya => freedSegs_kept hy hya hfree hnext
  rcases List.isChain_append.1 hco with ⟨hxs, hays, _⟩
  have hys := (List.isChain_cons.1 hays).2
  have hset : Tiled lo (xs ++ (a, ⟨l, true⟩) :: ys) hi := by
    rcases tiled_append_cons.1 hl with ⟨hx, hy⟩
    exact tiled_append_cons.2 ⟨hx, hy⟩
  cases ys with
  | nil =>
    have ht := mergeInto_tiled_append hset
    have hc := mergeInto_coalesced hxs hys (by simp) a l
    have hm := mergeInto_merged hset
    rw [List.append_nil] at ht hc hm
    exact ⟨ht, hc, mergeInto_freed hm hothers⟩
  | cons z ys =>
    rcases z with ⟨b, e, f⟩
    obtain rfl : f = true := hnext _ rfl
    have hhead : ∀ y ∈ ys.head?, y.2.free = false := by
      intro y hy
      have hnot := (List.isChain_cons.1 hys).1 y hy
      rw [Bool.eq_false_iff]
      exact fun hfree => hnot ⟨rfl, hfree⟩
    rcases tiled_append_cons.1 hset with ⟨hx, rfl, hy⟩
    change Tiled (a + 32 + l + 32 + e) ys hi at hy
    have hpair : Tiled lo (xs ++ (a, ⟨l + 32 + e, true⟩) :: ys) hi := by
      refine tiled_append_cons.2 ⟨hx, ?_⟩
      have hend : a + 32 + (l + 32 + e) = a + 32 + l + 32 + e := by omega
      change Tiled (a + 32 + (l + 32 + e)) ys hi
      rw [hend]
      exact hy
    exact ⟨mergeInto_tiled_append hpair,
      mergeInto_coalesced hxs (List.isChain_cons.1 hys).2 hhead a _,
      mergeInto_freed ((merged_pair hset).trans (mergeInto_merged hpair)) hothers⟩

/-- What `memFree` is for: the heap has one block in use less, and is otherwise as it was. -/
def FreesOne (h' : Heap β) (segs : List (ℕ × SegData)) (a l : ℕ) : Prop :=
  ∃ segs', WellFormed h' segs' ∧ Coalesced segs' ∧ Freed segs segs' a l

theorem represents_unique (R : Represents h segs) (R' : Represents h segs') : segs = segs' :=
  (segments_eq R).symm.trans (segments_eq R')

theorem memFree_frees_one (W : WellFormed h (xs ++ (a, ⟨l, false⟩) :: ys))
    (hco : Coalesced (xs ++ (a, ⟨l, false⟩) :: ys)) (hnext : ∀ z ∈ ys.head?, z.2.free = true) :
    FreesOne (memFree (a + 32) h) (xs ++ (a, ⟨l, false⟩) :: ys) a l := by
  rcases memFree_spec W.represents with ⟨R, hbounds⟩
  have htiled := W.tiled
  rw [← hbounds.heapStart, ← hbounds.heapEnd] at htiled
  rcases freedSegs_spec htiled hco hnext with ⟨ht, hc, hf⟩
  exact ⟨_, R.wellFormed ht, hc, hf⟩

/-- A block in use behind the freed one is absorbed, so that its header leaves the list. -/
theorem memFree_absorbs {e : ℕ}
    (W : WellFormed h (xs ++ (a, ⟨l, false⟩) :: (b, ⟨e, false⟩) :: ys)) :
    ¬ FreesOne (memFree (a + 32) h) (xs ++ (a, ⟨l, false⟩) :: (b, ⟨e, false⟩) :: ys) a l := by
  rcases memFree_spec W.represents with ⟨R, _⟩
  rcases tiled_append_cons.1 W.tiled with ⟨hxs, hab, _⟩
  change b = a + 32 + l at hab
  generalize memFree (a + 32) h = h' at *
  rintro ⟨segs', W', _, hf⟩
  obtain rfl := represents_unique W'.represents R
  have hmem := hf.others (b, ⟨e, false⟩) (by simp) rfl (by change b ≠ a; omega)
  rcases mergeInto_cover hxs (l + 32 + e) with ⟨z, hz, hza, hzend⟩
  have hz' : z ∈ freedSegs xs a l ((b, ⟨e, false⟩) :: ys) := List.mem_append_left _ hz
  rcases R.laid.apart hz' hmem with rfl | hzb
  · change b ≤ a at hza
    omega
  · change z.1 + 32 + z.2.lenght ≤ b ∨ b + 32 + e ≤ z.1 at hzb
    omega

/-- A free destroys no block exactly when nothing in use lies behind the freed one. -/
theorem memFree_frees_one_iff (W : WellFormed h segs) (hco : Coalesced segs)
    (hlive : (a, ⟨l, false⟩) ∈ segs) : FreesOne (memFree (a + 32) h) segs a l ↔
      hdrNext h a = 0 ∨ hdrFree h (hdrNext h a) = true := by
  rcases List.append_of_mem hlive with ⟨xs, ys, rfl⟩
  have hnode : hdrNext h a = first ys 0 := by rw [hdrNext_eq, W.represents.placed.node]
  rw [hnode]
  cases ys with
  | nil => exact iff_of_true (memFree_frees_one W hco (by simp)) (.inl rfl)
  | cons y ys =>
    rcases y with ⟨b, e, f⟩
    have hb : hdrFree h b = f := by
      have hnodeb := (links_append.1 W.links).2.2.1
      rw [hdrFree_eq, hnodeb]
    have hb0 := W.represents.cells_pos b ⟨(b, ⟨e, f⟩), by simp, rfl⟩
    change _ ↔ b = 0 ∨ hdrFree h b = true
    rw [hb]
    cases f with
    | true => exact iff_of_true (memFree_frees_one W hco (by simp)) (.inr rfl)
    | false => exact iff_of_false (memFree_absorbs W) (by simp; omega)

section Blocks

instance (segs : List (ℕ × SegData)) : Decidable (Coalesced segs) :=
  inferInstanceAs (Decidable (List.IsChain _ _))

def allocated (sizes : List ℕ) : Client Unit :=
  (heapRun (fun _ e => e) (2 ^ 64) (sizes.map .malloc) bootHeap).getD bootHeap

/-- The second of two blocks has been freed again. -/
theorem memFree_frees_one_iff_pair : FreesOne (memFree (0x100000000000 + 32)
      (memFree (0x100000010000 + 32) (allocated [65504, 4064]).heap))
    [(0x100000000000, ⟨65504, false⟩), (0x100000010000, ⟨4064, true⟩)] 0x100000000000 65504 :=
  (memFree_frees_one_iff (by decide +kernel) (by decide) (by decide)).2 (by decide +kernel)

theorem memFree_destroys : ∃ h : Heap Unit, ∃ segs a l, WellFormed h segs ∧ Coalesced segs ∧
    (a, ⟨l, false⟩) ∈ segs ∧ ¬ FreesOne (memFree (a + 32) h) segs a l := by
  have W : WellFormed (allocated [65504, 4064]).heap
      [(0x100000000000, ⟨65504, false⟩), (0x100000010000, ⟨4064, false⟩)] := by decide +kernel
  refine ⟨_, _, 0x100000000000, 65504, W, by decide, by decide, ?_⟩
  exact @memFree_absorbs _ _ [] _ _ _ _ _ W

end Blocks

def wholePages (lenght : ℕ) : ℕ := (lenght + 4095) / 4096 * 4096

theorem roundUp_wholePages {lenght : ℕ} (hwrap : wholePages lenght < 2 ^ 64) :
    roundUp frameSize lenght = wholePages lenght := by
  unfold roundUp frameSize wholePages at *
  by_cases hmod : lenght % 0x1000 > 0
  · rw [if_pos hmod, wrap_of_lt (by omega)]
    omega
  · rw [if_neg hmod]
    omega

/-- An expansion puts one free segment at the end of the heap, or makes the free one there
    longer. -/
structure Expanded (h h' : Heap β) (segs segs' : List (ℕ × SegData)) (lenght : ℕ) : Prop where
  wellFormed : WellFormed h' segs'
  coalesced : Coalesced segs'
  grown : h'.heapEnd = h.heapEnd + wholePages lenght
  tail : ∃ x ∈ segs'.getLast?, x.2.free = true ∧ h'.lastHdr = x.1
  kept : ∀ y ∈ segs, y.2.free = false → y ∈ segs'

theorem mergeInto_getLast (segs : List (ℕ × SegData)) (a l : ℕ) :
    ∃ x ∈ (mergeInto segs (a, ⟨l, true⟩)).getLast?, x.2.free = true := by
  rcases List.eq_nil_or_concat segs with rfl | ⟨xs, c, rfl⟩
  · exact ⟨_, rfl, rfl⟩
  · rw [List.concat_eq_append, mergeInto_append]
    split
    · exact ⟨(c.1, ⟨c.2.lenght + 32 + l, true⟩), by simp, rfl⟩
    · exact ⟨(a, ⟨l, true⟩), by simp, rfl⟩

theorem memExpandHeap_wellFormed (mapPage : ℕ → β → β) (W : WellFormed h segs)
    (hco : Coalesced segs) {lenght : ℕ} (hpos : 0 < lenght)
    (hwrap : h.heapEnd + wholePages lenght < 2 ^ 64) :
    ∃ segs', Expanded h (memExpandHeap mapPage lenght h) segs segs' lenght := by
  have hR := roundUp_wholePages (show wholePages lenght < 2 ^ 64 by omega)
  have hle : lenght ≤ wholePages lenght := by
    unfold wholePages
    omega
  have hpage : 4096 ≤ wholePages lenght := by
    unfold wholePages
    omega
  rcases memExpandHeap_spec mapPage W.represents hR hpos hle hwrap with ⟨R, hstart, hend, _⟩
  generalize memExpandHeap mapPage lenght h = h' at *
  refine ⟨_, R.wellFormed ?_, ?_, hend, ?_, fun y hy hfree => mergeInto_kept hy hfree⟩
  · rw [hstart, hend]
    refine mergeInto_tiled (tiled_snoc W.tiled ?_)
    change h.heapEnd + 32 + (wholePages lenght - 32) = h.heapEnd + wholePages lenght
    omega
  · have hmerged := mergeInto_coalesced hco .nil (by simp) h.heapEnd (wholePages lenght - 32)
    rwa [List.append_nil] at hmerged
  · rcases mergeInto_getLast segs h.heapEnd (wholePages lenght - 32) with ⟨x, hx, hfree⟩
    refine ⟨x, hx, hfree, ?_⟩
    rcases List.getLast?_eq_some_iff.1 hx with ⟨zs, hzs⟩
    rw [R.last, hzs, final_append_cons]
    rfl

theorem memExpandHeap_wellFormed_boot : ∃ segs', Expanded bootHeap.heap
    (memExpandHeap (fun _ e => e) 1 bootHeap.heap) [(0x100000000000, ⟨65504, true⟩)] segs' 1 :=
  memExpandHeap_wellFormed _ (by decide +kernel) (by decide) (by decide) (by decide)

end Rizzos.HeapCoalescing
