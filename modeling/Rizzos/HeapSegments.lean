import Rizzos.KernelHeap

set_option autoImplicit false

/-! The segment headers of the heap as a doubly linked list, laid out in order. -/
namespace Rizzos.HeapSegments
open ByteMemory Memory LinkedList KernelHeap

structure SegData where
  lenght : ℕ
  free : Bool
deriving DecidableEq, Repr

def header (m : Mem) (seg : ℕ) : Node SegData :=
  ⟨⟨load64 m seg, load8 m (seg + 24) != 0#8⟩, load64 m (seg + 8), load64 m (seg + 16)⟩

theorem header_congr {m m' : Mem} {seg : ℕ} (h : Agree m m' seg 32) (hs : seg + 32 ≤ 2 ^ 64) :
    header m' seg = header m seg := by
  have hload : ∀ o, o + 8 ≤ 32 → load64 m' (seg + o) = load64 m (seg + o) := fun o ho =>
    (h.mono (show seg ≤ seg + o by omega) (show seg + o + 8 ≤ seg + 32 by omega)).loadLE_eq
      (by omega)
  have hbyte : load8 m' (seg + 24) = load8 m (seg + 24) := by
    rw [load8, load8, wrap_of_lt (by omega)]
    exact h _ (by omega) (by omega)
  have h0 := hload 0 (by omega)
  rw [Nat.add_zero] at h0
  rw [header, header, h0, hload 8 (by omega), hload 16 (by omega), hbyte]

/-- A set of header addresses that fit below `2 ^ 64` and do not overlap. -/
structure Cells (S : ℕ → Prop) : Prop where
  bound : ∀ a, S a → a + 32 ≤ 2 ^ 64
  apart : ∀ a c, S a → S c → c = a ∨ a + 32 ≤ c ∨ c + 32 ≤ a

theorem Cells.mono {S S' : ℕ → Prop} (h : Cells S) (hsub : ∀ a, S' a → S a) : Cells S' :=
  ⟨fun a ha => h.bound a (hsub a ha), fun a c ha hc => h.apart a c (hsub a ha) (hsub c hc)⟩

section Setters
variable {β : Type} {h : Heap β} {S : ℕ → Prop} {a c v : ℕ}

theorem hdrLenght_eq (h : Heap β) (seg : ℕ) : hdrLenght h seg = (header h.mem seg).data.lenght := rfl
theorem hdrNext_eq (h : Heap β) (seg : ℕ) : hdrNext h seg = (header h.mem seg).next := rfl
theorem hdrLast_eq (h : Heap β) (seg : ℕ) : hdrLast h seg = (header h.mem seg).last := rfl
theorem hdrFree_eq (h : Heap β) (seg : ℕ) : hdrFree h seg = (header h.mem seg).data.free := rfl

theorem header_setLenght (hS : Cells S) (ha : S a) (hc : S c) (hv : v < 2 ^ 64) :
    header (setLenght a v h).mem c =
      if c = a then { header h.mem a with data := ⟨v, (header h.mem a).data.free⟩ }
      else header h.mem c := by
  have hab := hS.bound a ha
  have hcb := hS.bound c hc
  by_cases hca : c = a
  · subst hca
    rw [if_pos rfl]
    simp only [header, setLenght, visit]
    rw [load64_store64 _ _ hv, load64_store64_disjoint _ _ (by omega) (by omega) (by omega),
      load64_store64_disjoint _ _ (by omega) (by omega) (by omega), load8, load8,
      wrap_of_lt (by omega), store64_outside _ _ (by omega) (by omega)]
  · rw [if_neg hca]
    have hd := (hS.apart a c ha hc).resolve_left hca
    exact header_congr (Agree.store64 _ _ (by omega) (by omega)) hcb

theorem header_setNext (hS : Cells S) (ha : S a) (hc : S c) (hv : v < 2 ^ 64) :
    header (setNext a v h).mem c =
      if c = a then { header h.mem a with next := v } else header h.mem c := by
  have hab := hS.bound a ha
  have hcb := hS.bound c hc
  by_cases hca : c = a
  · subst hca
    rw [if_pos rfl]
    simp only [header, setNext, visit]
    rw [load64_store64 _ _ hv, load64_store64_disjoint _ _ (by omega) (by omega) (by omega),
      load64_store64_disjoint _ _ (by omega) (by omega) (by omega), load8, load8,
      wrap_of_lt (by omega), store64_outside _ _ (by omega) (by omega)]
  · rw [if_neg hca]
    have hd := (hS.apart a c ha hc).resolve_left hca
    exact header_congr (Agree.store64 _ _ (by omega) (by omega)) hcb

theorem header_setLast (hS : Cells S) (ha : S a) (hc : S c) (hv : v < 2 ^ 64) :
    header (setLast a v h).mem c =
      if c = a then { header h.mem a with last := v } else header h.mem c := by
  have hab := hS.bound a ha
  have hcb := hS.bound c hc
  by_cases hca : c = a
  · subst hca
    rw [if_pos rfl]
    simp only [header, setLast, visit]
    rw [load64_store64 _ _ hv, load64_store64_disjoint _ _ (by omega) (by omega) (by omega),
      load64_store64_disjoint _ _ (by omega) (by omega) (by omega), load8, load8,
      wrap_of_lt (by omega), store64_outside _ _ (by omega) (by omega)]
  · rw [if_neg hca]
    have hd := (hS.apart a c ha hc).resolve_left hca
    exact header_congr (Agree.store64 _ _ (by omega) (by omega)) hcb

theorem setFree_outside (free : Bool) {x : ℕ} (ha : a + 32 ≤ 2 ^ 64) (hx : x ≠ a + 24) :
    (setFree a free h).mem x = h.mem x := by
  refine Function.update_of_ne ?_ _ _
  rwa [wrap_of_lt (by omega)]

theorem header_setFree (hS : Cells S) (ha : S a) (hc : S c) (free : Bool) :
    header (setFree a free h).mem c =
      if c = a then { header h.mem a with data := ⟨(header h.mem a).data.lenght, free⟩ }
      else header h.mem c := by
  have hab := hS.bound a ha
  have hcb := hS.bound c hc
  by_cases hca : c = a
  · subst hca
    rw [if_pos rfl]
    have hload : ∀ o, o + 8 ≤ 24 →
        load64 (setFree c free h).mem (c + o) = load64 h.mem (c + o) := by
      intro o ho
      have hagree : Agree h.mem (setFree c free h).mem (c + o) 8 :=
        fun x _ _ => setFree_outside free (by omega) (by omega)
      exact hagree.loadLE_eq (by omega)
    have h0 := hload 0 (by omega)
    rw [Nat.add_zero] at h0
    have hbyte : load8 (setFree c free h).mem (c + 24) = if free then 1#8 else 0#8 :=
      load8_store8 _ _ _
    rw [header, h0, hload 8 (by omega), hload 16 (by omega), hbyte]
    cases free <;> rfl
  · rw [if_neg hca]
    have hd := (hS.apart a c ha hc).resolve_left hca
    exact header_congr (fun x _ _ => setFree_outside free (by omega) (by omega)) hcb

/-- A store through a null header pointer touches no header at 24 or above. -/
theorem header_setLast_null (hc : c + 32 ≤ 2 ^ 64) (h24 : 24 ≤ c) :
    header (setLast 0 v h).mem c = header h.mem c :=
  header_congr (Agree.store64 _ _ (by omega) (by omega)) hc

end Setters

/-- Segments follow one another in `[lo, hi)`, each header with its `lenght` bytes behind it. -/
def Laid : ℕ → List (ℕ × SegData) → ℕ → Prop
  | lo, [], hi => lo ≤ hi
  | lo, x :: xs, hi => lo ≤ x.1 ∧ Laid (x.1 + 32 + x.2.lenght) xs hi

theorem Laid.le {lo hi : ℕ} {xs : List (ℕ × SegData)} (h : Laid lo xs hi) : lo ≤ hi := by
  induction xs generalizing lo with
  | nil => exact h
  | cons x xs ih =>
    have := ih h.2
    have := h.1
    omega

theorem laid_append_cons {lo hi : ℕ} {xs ys : List (ℕ × SegData)} {y : ℕ × SegData} :
    Laid lo (xs ++ y :: ys) hi ↔ Laid lo xs y.1 ∧ Laid (y.1 + 32 + y.2.lenght) ys hi := by
  induction xs generalizing lo with
  | nil => rfl
  | cons x xs ih =>
    change lo ≤ x.1 ∧ Laid (x.1 + 32 + x.2.lenght) (xs ++ y :: ys) hi ↔
      (lo ≤ x.1 ∧ Laid (x.1 + 32 + x.2.lenght) xs y.1) ∧ _
    rw [ih, and_assoc]

theorem Laid.mono {lo lo' hi hi' : ℕ} {xs : List (ℕ × SegData)} (h : Laid lo xs hi)
    (hlo : lo' ≤ lo) (hhi : hi ≤ hi') : Laid lo' xs hi' := by
  induction xs generalizing lo lo' with
  | nil => exact hlo.trans (h.trans hhi)
  | cons x xs ih => exact ⟨hlo.trans h.1, ih h.2 le_rfl⟩

theorem Laid.mem {lo hi : ℕ} {xs : List (ℕ × SegData)} (h : Laid lo xs hi) {x : ℕ × SegData}
    (hx : x ∈ xs) : lo ≤ x.1 ∧ x.1 + 32 + x.2.lenght ≤ hi := by
  obtain ⟨l, r, rfl⟩ := List.append_of_mem hx
  obtain ⟨hl, hr⟩ := laid_append_cons.1 h
  exact ⟨hl.le, hr.le⟩

/-- Two segments of a laid list are the same or lie one behind the other. -/
theorem Laid.apart {lo hi : ℕ} {xs : List (ℕ × SegData)} (h : Laid lo xs hi)
    {x y : ℕ × SegData} (hx : x ∈ xs) (hy : y ∈ xs) :
    x = y ∨ x.1 + 32 + x.2.lenght ≤ y.1 ∨ y.1 + 32 + y.2.lenght ≤ x.1 := by
  obtain ⟨l, r, rfl⟩ := List.append_of_mem hx
  obtain ⟨hl, hr⟩ := laid_append_cons.1 h
  obtain hyl | hyr := List.mem_append.1 hy
  · exact .inr (.inr (hl.mem hyl).2)
  · obtain rfl | hyr := List.mem_cons.1 hyr
    · exact .inl rfl
    · exact .inr (.inl (hr.mem hyr).1)

theorem Laid.length {lo hi : ℕ} {xs : List (ℕ × SegData)} (h : Laid lo xs hi) :
    lo + 32 * xs.length ≤ hi := by
  induction xs generalizing lo with
  | nil => exact h
  | cons x xs ih =>
    have h1 := h.1
    have h2 := ih h.2
    rw [List.length_cons]
    omega

theorem Laid.cells {lo hi : ℕ} {xs : List (ℕ × SegData)} (h : Laid lo xs hi)
    (hi64 : hi ≤ 2 ^ 64) : Cells fun a => ∃ x ∈ xs, x.1 = a where
  bound := by
    rintro a ⟨x, hx, rfl⟩
    have := (h.mem hx).2
    omega
  apart := by
    rintro a c ⟨x, hx, rfl⟩ ⟨y, hy, rfl⟩
    obtain rfl | hxy := h.apart hx hy
    · exact .inl rfl
    · omega

/-- Each segment starts where the one before it ends. -/
def Tiled : ℕ → List (ℕ × SegData) → ℕ → Prop
  | lo, [], hi => lo = hi
  | lo, x :: xs, hi => x.1 = lo ∧ Tiled (x.1 + 32 + x.2.lenght) xs hi

instance tiledDecidable : ∀ lo xs hi, Decidable (Tiled lo xs hi)
  | lo, [], hi => inferInstanceAs (Decidable (lo = hi))
  | lo, x :: xs, hi =>
    have := tiledDecidable (x.1 + 32 + x.2.lenght) xs hi
    inferInstanceAs (Decidable (x.1 = lo ∧ Tiled (x.1 + 32 + x.2.lenght) xs hi))

theorem Tiled.laid {lo hi : ℕ} {xs : List (ℕ × SegData)} (h : Tiled lo xs hi) : Laid lo xs hi := by
  induction xs generalizing lo with
  | nil => exact le_of_eq h
  | cons x xs ih => exact ⟨h.1.ge, ih h.2⟩

theorem tiled_append_cons {lo hi : ℕ} {xs ys : List (ℕ × SegData)} {y : ℕ × SegData} :
    Tiled lo (xs ++ y :: ys) hi ↔ Tiled lo xs y.1 ∧ Tiled (y.1 + 32 + y.2.lenght) ys hi := by
  induction xs generalizing lo with
  | nil => exact and_congr_left' eq_comm
  | cons x xs ih =>
    change x.1 = lo ∧ Tiled (x.1 + 32 + x.2.lenght) (xs ++ y :: ys) hi ↔
      (x.1 = lo ∧ Tiled (x.1 + 32 + x.2.lenght) xs y.1) ∧ _
    rw [ih, and_assoc]

/-- The list of headers that `next` leads through from `g_HeapStart` to `g_LastHdr`. -/
structure Chained {β : Type} (h : Heap β) (segs : List (ℕ × SegData)) : Prop where
  links : Links (header h.mem) 0 segs 0
  nonempty : segs ≠ []
  start : first segs 0 = h.heapStart
  last : h.lastHdr = final 0 segs

/-- The list of segments that the memory and the statics of a heap spell out. -/
structure Represents {β : Type} (h : Heap β) (segs : List (ℕ × SegData)) : Prop where
  links : Links (header h.mem) 0 segs 0
  nonempty : segs ≠ []
  start : first segs 0 = h.heapStart
  last : h.lastHdr = final 0 segs
  laid : Laid h.heapStart segs h.heapEnd
  base : 0 < h.heapStart
  top : h.heapEnd < 2 ^ 64

/-- The headers of the heap are linked both ways and the segments tile it. -/
structure WellFormed {β : Type} (h : Heap β) (segs : List (ℕ × SegData)) : Prop extends
    Chained h segs where
  tiled : Tiled h.heapStart segs h.heapEnd
  base : 0 < h.heapStart
  top : h.heapEnd < 2 ^ 64

theorem wellFormed_iff {β : Type} (h : Heap β) (segs : List (ℕ × SegData)) :
    WellFormed h segs ↔ Links (header h.mem) 0 segs 0 ∧ segs ≠ [] ∧ first segs 0 = h.heapStart ∧
      h.lastHdr = final 0 segs ∧ Tiled h.heapStart segs h.heapEnd ∧ 0 < h.heapStart ∧
        h.heapEnd < 2 ^ 64 := by
  constructor
  · intro W
    exact ⟨W.links, W.nonempty, W.start, W.last, W.tiled, W.base, W.top⟩
  · rintro ⟨hlinks, hne, hstart, hlast, ht, hbase, htop⟩
    exact ⟨⟨hlinks, hne, hstart, hlast⟩, ht, hbase, htop⟩

instance {β : Type} (h : Heap β) (segs : List (ℕ × SegData)) : Decidable (WellFormed h segs) :=
  decidable_of_iff' _ (wellFormed_iff h segs)

section Representation
variable {β : Type} {h : Heap β} {xs ys : List (ℕ × SegData)} {a : ℕ} {d : SegData}

theorem Represents.chained (R : Represents h xs) : Chained h xs :=
  ⟨R.links, R.nonempty, R.start, R.last⟩

theorem WellFormed.represents (W : WellFormed h xs) : Represents h xs :=
  ⟨W.links, W.nonempty, W.start, W.last, W.tiled.laid, W.base, W.top⟩

theorem Represents.wellFormed (R : Represents h xs) (ht : Tiled h.heapStart xs h.heapEnd) :
    WellFormed h xs :=
  ⟨R.chained, ht, R.base, R.top⟩

theorem Represents.cells (R : Represents h xs) : Cells fun c => ∃ x ∈ xs, x.1 = c :=
  R.laid.cells R.top.le

theorem Represents.cells_ge (R : Represents h xs) : ∀ c, (∃ x ∈ xs, x.1 = c) → h.heapStart ≤ c := by
  rintro c ⟨x, hx, rfl⟩
  exact (R.laid.mem hx).1

theorem Represents.cells_pos (R : Represents h xs) : ∀ c, (∃ x ∈ xs, x.1 = c) → 0 < c :=
  fun c hc => R.base.trans_le (R.cells_ge c hc)

theorem Represents.addr_ne (R : Represents h xs) : ∀ x ∈ xs, x.1 ≠ 0 :=
  fun x hx => (R.cells_pos x.1 ⟨x, hx, rfl⟩).ne'

theorem Represents.visit (R : Represents h xs) (seg : ℕ) :
    Represents (visit seg h) xs :=
  ⟨R.links, R.nonempty, R.start, R.last, R.laid, R.base, R.top⟩

def looked (l : List ℕ) (h : Heap β) : Heap β := { h with derefs := l ++ h.derefs }

theorem Represents.looked (R : Represents h xs) (l : List ℕ) : Represents (looked l h) xs :=
  ⟨R.links, R.nonempty, R.start, R.last, R.laid, R.base, R.top⟩

structure Placed (h : Heap β) (xs : List (ℕ × SegData)) (a : ℕ) (d : SegData)
    (ys : List (ℕ × SegData)) : Prop where
  node : header h.mem a = ⟨d, first ys 0, final 0 xs⟩
  before : Laid h.heapStart xs a
  after : Laid (a + 32 + d.lenght) ys h.heapEnd

theorem Represents.placed (R : Represents h (xs ++ (a, d) :: ys)) : Placed h xs a d ys := by
  obtain ⟨hx, hy⟩ := laid_append_cons.1 R.laid
  exact ⟨R.links.node, hx, hy⟩

theorem ne_first {lo hi c : ℕ} (hl : Laid lo ys hi) (h0 : 0 < c) (hc : c < lo) :
    c ≠ first ys 0 := by
  cases ys with
  | nil => exact Nat.ne_of_gt h0
  | cons y ys =>
    have := hl.1
    change c ≠ y.1
    omega

theorem first_cell (ys : List (ℕ × SegData)) : first ys 0 = 0 ∨ ∃ y ∈ ys, y.1 = first ys 0 := by
  cases ys with
  | nil => exact .inl rfl
  | cons y ys => exact .inr ⟨y, by simp, rfl⟩

end Representation

end Rizzos.HeapSegments
