import Rizzos.KernelHeap

set_option autoImplicit false

/-!
# The heap over any memory

The functions of `memory/heap.c` over a memory whose accesses can fault. On a flat memory they are
the functions of `KernelHeap`; behind page tables two addresses may show the same byte, and a
header without a translation stops the call.
-/
namespace Rizzos.HeapProgram
open ByteMemory Memory
open KernelHeap (hdrSize roundUp Heap)

/-- Loads and stores of some bytes at an address, and the mapping of a fresh page. -/
structure HeapMemory (σ : Type) where
  load : ℕ → ℕ → σ → Option ℕ
  store : ℕ → ℕ → ℕ → σ → Option σ
  mapPage : ℕ → σ → σ

structure HeapState (σ : Type) where
  memory : σ
  heapStart : ℕ
  heapEnd : ℕ
  lastHdr : ℕ

/-- Why a call has not returned. -/
inductive Halt where
  | fault
  | fuel
deriving DecidableEq, Repr

def HeapM (σ α : Type) : Type := HeapState σ → Except Halt α × HeapState σ

section Code
variable {σ α : Type}

def HeapM.bind {β : Type} (x : HeapM σ α) (f : α → HeapM σ β) : HeapM σ β := fun s =>
  match x s with
  | (.ok a, s) => f a s
  | (.error halt, s) => (.error halt, s)

instance : Monad (HeapM σ) where
  pure a := fun s => (.ok a, s)
  bind := HeapM.bind

def halt (h : Halt) : HeapM σ α := fun s => (.error h, s)

def getLastHdr : HeapM σ ℕ := fun s => (.ok s.lastHdr, s)
def setLastHdr (seg : ℕ) : HeapM σ Unit := fun s => (.ok (), { s with lastHdr := seg })
def getHeapStart : HeapM σ ℕ := fun s => (.ok s.heapStart, s)
def getHeapEnd : HeapM σ ℕ := fun s => (.ok s.heapEnd, s)

variable (mem : HeapMemory σ)

def load (a n : ℕ) : HeapM σ ℕ := fun s =>
  match mem.load a n s.memory with
  | some value => (.ok value, s)
  | none => (.error .fault, s)

def store (a n value : ℕ) : HeapM σ Unit := fun s =>
  match mem.store a n value s.memory with
  | some memory => (.ok (), { s with memory })
  | none => (.error .fault, s)

def hdrLenght (seg : ℕ) : HeapM σ ℕ := load mem seg 8
def hdrNext (seg : ℕ) : HeapM σ ℕ := load mem (seg + 8) 8
def hdrLast (seg : ℕ) : HeapM σ ℕ := load mem (seg + 16) 8
def hdrFree (seg : ℕ) : HeapM σ Bool := do return (← load mem (seg + 24) 1) != 0

def setLenght (seg lenght : ℕ) : HeapM σ Unit := store mem seg 8 lenght
def setNext (seg next : ℕ) : HeapM σ Unit := store mem (seg + 8) 8 next
def setLast (seg last : ℕ) : HeapM σ Unit := store mem (seg + 16) 8 last
def setFree (seg : ℕ) (free : Bool) : HeapM σ Unit := store mem (seg + 24) 1 free.toNat

def memHeapSegHdrSplit (hshdr splitLenght : ℕ) : HeapM σ ℕ := do
  if splitLenght < 0x10 then return 0
  else
    let splitSeqLenght := wrapSub (wrapSub (← hdrLenght mem hshdr) splitLenght) hdrSize
    if 2 ^ 63 ≤ splitSeqLenght ∨ splitSeqLenght < 0x10 then return 0
    else
      let newSplitHdr := wrap (hshdr + splitLenght + hdrSize)
      setLast mem (← hdrNext mem hshdr) newSplitHdr
      setNext mem newSplitHdr (← hdrNext mem hshdr)
      setNext mem hshdr newSplitHdr
      setLast mem newSplitHdr hshdr
      setLenght mem newSplitHdr splitLenght
      setFree mem newSplitHdr (← hdrFree mem hshdr)
      setLenght mem hshdr splitLenght
      let lastHdr ← getLastHdr
      setLastHdr (if lastHdr = hshdr then newSplitHdr else lastHdr)
      return newSplitHdr

def linkBack (next hshdr : ℕ) : HeapM σ Unit :=
  if next ≠ 0 then setLast mem next hshdr else pure ()

def memHeapSegHdrCombineForward (hshdr : ℕ) : HeapM σ Unit := do
  if (← hdrNext mem hshdr) = 0 then return
  else if (← hdrFree mem hshdr) = false then return
  else
    let lastHdr ← getLastHdr
    setLastHdr (if (← hdrNext mem hshdr) = lastHdr then hshdr else lastHdr)
    linkBack mem (← hdrNext mem (← hdrNext mem hshdr)) hshdr
    setLenght mem hshdr (wrap ((← hdrLenght mem hshdr) +
      wrap ((← hdrLenght mem (← hdrNext mem hshdr)) + hdrSize)))
    setNext mem hshdr (← hdrNext mem (← hdrNext mem hshdr))

def memHeapSegHdrCombineBackward (hshdr : ℕ) : HeapM σ Unit := do
  if (← hdrLast mem hshdr) ≠ 0 then
    if (← hdrFree mem (← hdrLast mem hshdr)) = true then
      memHeapSegHdrCombineForward mem (← hdrLast mem hshdr)
    else return
  else return

/-- The length is looked at only where the segment is free. -/
def fits (size currentSeg : ℕ) : HeapM σ Bool := do
  if (← hdrFree mem currentSeg) = true then return (← hdrLenght mem currentSeg) ≥ size
  else return false

def findSegment (size : ℕ) : ℕ → ℕ → HeapM σ (Option ℕ)
  | 0, _ => halt .fuel
  | fuel + 1, currentSeg => do
    if (← fits mem size currentSeg) = true then return some currentSeg
    else
      let next ← hdrNext mem currentSeg
      if next = 0 then return none else findSegment size fuel next

def takeSegment (currentSeg size : ℕ) : HeapM σ ℕ := do
  if (← hdrLenght mem currentSeg) > size then
    let _ ← memHeapSegHdrSplit mem currentSeg size
    setFree mem currentSeg false
    return wrap (currentSeg + hdrSize)
  else
    setFree mem currentSeg false
    return wrap (currentSeg + hdrSize)

def growHeap : HeapM σ Unit := fun s =>
  (.ok (), { s with
    memory := mem.mapPage s.heapEnd s.memory
    heapEnd := wrap (s.heapEnd + frameSize) })

def mapPages : ℕ → HeapM σ Unit
  | 0 => pure ()
  | i + 1 => do
    mapPages i
    growHeap mem

def memExpandHeap (lenght : ℕ) : HeapM σ Unit := do
  let lenght := roundUp frameSize lenght
  let newSegment ← getHeapEnd
  mapPages mem (lenght / frameSize)
  setFree mem newSegment true
  setLast mem newSegment (← getLastHdr)
  setNext mem (← getLastHdr) newSegment
  setLastHdr newSegment
  setNext mem newSegment 0
  setLenght mem newSegment (wrapSub lenght hdrSize)
  memHeapSegHdrCombineBackward mem newSegment

def memMalloc : ℕ → ℕ → HeapM σ ℕ
  | 0, _ => halt .fuel
  | fuel + 1, size => do
    let size := roundUp 0x10 size
    if size = 0 then return 0
    else
      match ← findSegment mem size fuel (← getHeapStart) with
      | some currentSeg => takeSegment mem currentSeg size
      | none =>
        memExpandHeap mem size
        memMalloc fuel size

end Code

/-! ### On a flat memory -/

section Flat
variable {β : Type} (mapPage : ℕ → β → β)

/-- A memory that never faults, next to what pages are mapped in. -/
def flatMemory : HeapMemory (Mem × β) where
  load a n s := some (loadLE s.1 a n)
  store a n value s := some (storeLE s.1 a n value, s.2)
  mapPage virtualMemory s := (s.1, mapPage virtualMemory s.2)

def flat (h : Heap β) : HeapState (Mem × β) := ⟨(h.mem, h.env), h.heapStart, h.heapEnd, h.lastHdr⟩

def Returns {α : Type} (x : HeapM (Mem × β) α) (h : Heap β) (r : α × Heap β) : Prop :=
  x (flat h) = (.ok r.1, flat r.2)

section Runs
variable {α γ : Type} {x y : HeapM (Mem × β) α} {h h' : Heap β}

theorem Returns.bind_eq {f : α → HeapM (Mem × β) γ} {a : α} (hx : Returns x h (a, h')) :
    (x >>= f) (flat h) = f a (flat h') := by
  change HeapM.bind x f (flat h) = _
  rw [HeapM.bind, hx]

theorem Returns.bind {f : α → HeapM (Mem × β) γ} {a : α} {r : γ × Heap β}
    (hx : Returns x h (a, h')) (hf : Returns (f a) h' r) : Returns (x >>= f) h r :=
  hx.bind_eq.trans hf

theorem Returns.ite {c : Prop} [Decidable c] {r r' : α × Heap β} (hx : c → Returns x h r)
    (hy : ¬ c → Returns y h r') : Returns (if c then x else y) h (if c then r else r') := by
  split
  · exact hx ‹_›
  · exact hy ‹_›

theorem Returns.ite_heap {c : Prop} [Decidable c] {a : α} {h₁ h₂ : Heap β}
    (hx : c → Returns x h (a, h₁)) (hy : ¬ c → Returns y h (a, h₂)) :
    Returns (if c then x else y) h (a, if c then h₁ else h₂) := by
  split
  · exact hx ‹_›
  · exact hy ‹_›

theorem Returns.visit (seg : ℕ) {r : α × Heap β} (hx : Returns x (KernelHeap.visit seg h) r) :
    Returns x h r := hx

end Runs

section Headers
variable {mapPage} (h : Heap β) (seg : ℕ)

theorem flat_hdrLenght : Returns (hdrLenght (flatMemory mapPage) seg) h
    (KernelHeap.hdrLenght h seg, h) := rfl

theorem flat_hdrNext : Returns (hdrNext (flatMemory mapPage) seg) h
    (KernelHeap.hdrNext h seg, h) := rfl

theorem flat_hdrLast : Returns (hdrLast (flatMemory mapPage) seg) h
    (KernelHeap.hdrLast h seg, h) := rfl

theorem flat_hdrFree : Returns (hdrFree (flatMemory mapPage) seg) h
    (KernelHeap.hdrFree h seg, h) := by
  have hbyte : (loadLE h.mem (seg + 24) 1 != 0) = (load8 h.mem (seg + 24) != 0#8) := by
    rw [loadLE, loadLE, Nat.mul_zero, Nat.add_zero]
    generalize load8 h.mem (seg + 24) = b
    rw [Bool.eq_iff_iff]
    simp [← BitVec.toNat_inj]
  change (Except.ok (loadLE h.mem (seg + 24) 1 != 0), flat h) = _
  rw [hbyte]
  rfl

theorem flat_setLenght (lenght : ℕ) : Returns (setLenght (flatMemory mapPage) seg lenght) h
    ((), KernelHeap.setLenght seg lenght h) := rfl

theorem flat_setNext (next : ℕ) : Returns (setNext (flatMemory mapPage) seg next) h
    ((), KernelHeap.setNext seg next h) := rfl

theorem flat_setLast (last : ℕ) : Returns (setLast (flatMemory mapPage) seg last) h
    ((), KernelHeap.setLast seg last h) := rfl

theorem flat_setFree (free : Bool) : Returns (setFree (flatMemory mapPage) seg free) h
    ((), KernelHeap.setFree seg free h) := by
  cases free <;> rfl

theorem flat_setLastHdr : Returns (setLastHdr (σ := Mem × β) seg) h
    ((), KernelHeap.setLastHdr seg h) := rfl

theorem flat_getLastHdr : Returns (getLastHdr (σ := Mem × β)) h (h.lastHdr, h) := rfl

theorem flat_split (splitLenght : ℕ) :
    Returns (memHeapSegHdrSplit (flatMemory mapPage) seg splitLenght) h
      (KernelHeap.memHeapSegHdrSplit seg splitLenght h) := by
  rw [memHeapSegHdrSplit, KernelHeap.memHeapSegHdrSplit]
  refine .ite (fun _ => rfl) fun _ => .visit seg ((flat_hdrLenght _ seg).bind
    (.ite (fun _ => rfl) fun _ => ?_))
  refine (flat_hdrNext _ seg).bind ((flat_setLast _ _ _).bind ((flat_hdrNext _ _).bind
    ((flat_setNext _ _ _).bind ((flat_setNext _ _ _).bind ((flat_setLast _ _ _).bind
    ((flat_setLenght _ _ _).bind ((flat_hdrFree _ _).bind ((flat_setFree _ _ _).bind
    ((flat_setLenght _ _ _).bind ?_)))))))))
  exact (flat_getLastHdr _).bind ((flat_setLastHdr _ _).bind rfl)

theorem flat_linkBack (next : ℕ) : Returns (linkBack (flatMemory mapPage) next seg) h
    ((), KernelHeap.linkBack next seg h) :=
  .ite_heap (fun _ => flat_setLast h next seg) fun _ => rfl

theorem flat_combineForward : Returns (memHeapSegHdrCombineForward (flatMemory mapPage) seg) h
    ((), KernelHeap.memHeapSegHdrCombineForward seg h) := by
  rw [memHeapSegHdrCombineForward, KernelHeap.memHeapSegHdrCombineForward]
  refine .visit seg ((flat_hdrNext _ seg).bind (.ite_heap (fun _ => rfl) fun _ =>
    (flat_hdrFree _ seg).bind (.ite_heap (fun _ => rfl) fun _ => ?_)))
  refine (flat_getLastHdr _).bind ((flat_hdrNext _ seg).bind ((flat_setLastHdr _ _).bind ?_))
  dsimp only
  generalize KernelHeap.setLastHdr _ (KernelHeap.visit seg h) = h'
  refine .visit (KernelHeap.hdrNext h' seg) ((flat_hdrNext _ seg).bind ((flat_hdrNext _ _).bind
    ((flat_linkBack _ _ _).bind ((flat_hdrLenght _ _).bind ((flat_hdrNext _ _).bind
    ((flat_hdrLenght _ _).bind ((flat_setLenght _ _ _).bind ((flat_hdrNext _ _).bind
    ((flat_hdrNext _ _).bind ?_)))))))))
  exact flat_setNext _ _ _

theorem flat_combineBackward : Returns (memHeapSegHdrCombineBackward (flatMemory mapPage) seg) h
    ((), KernelHeap.memHeapSegHdrCombineBackward seg h) := by
  rw [memHeapSegHdrCombineBackward, KernelHeap.memHeapSegHdrCombineBackward]
  refine .visit seg ((flat_hdrLast _ seg).bind (.ite_heap (fun _ => ?_) fun _ => rfl))
  refine .visit (KernelHeap.hdrLast h seg) ((flat_hdrLast _ seg).bind ((flat_hdrFree _ _).bind
    (.ite_heap (fun _ => ?_) fun _ => rfl)))
  exact (flat_hdrLast _ seg).bind (flat_combineForward _ _)

theorem flat_fits (size : ℕ) : Returns (fits (flatMemory mapPage) size seg) h
    (decide (KernelHeap.hdrFree h seg = true ∧ KernelHeap.hdrLenght h seg ≥ size), h) := by
  refine (flat_hdrFree h seg).bind ?_
  cases hfree : KernelHeap.hdrFree h seg with
  | false => rfl
  | true =>
    refine (flat_hdrLenght h seg).bind ?_
    simp only [true_and]
    rfl

theorem flat_findSegment (size fuel : ℕ) {found : Option ℕ} {h' : Heap β}
    (hfound : KernelHeap.findSegment size fuel seg h = (some found, h')) :
    Returns (findSegment (flatMemory mapPage) size fuel seg) h (found, h') := by
  induction fuel generalizing h seg with
  | zero => cases hfound
  | succ fuel ih =>
    rw [KernelHeap.findSegment] at hfound
    refine (flat_fits h seg size).bind ?_
    by_cases hfits : KernelHeap.hdrFree h seg = true ∧ KernelHeap.hdrLenght h seg ≥ size
    · cases (if_pos hfits).symm.trans hfound
      rw [if_pos (decide_eq_true hfits)]
      rfl
    have hrest := (if_neg hfits).symm.trans hfound
    rw [if_neg (by rwa [decide_eq_true_eq])]
    refine (flat_hdrNext h seg).bind ?_
    by_cases hnull : KernelHeap.hdrNext h seg = 0
    · cases (if_pos hnull).symm.trans hrest
      rw [if_pos hnull]
      rfl
    · rw [if_neg hnull]
      exact .visit seg (ih _ _ ((if_neg hnull).symm.trans hrest))

theorem flat_takeSegment (size : ℕ) : Returns (takeSegment (flatMemory mapPage) seg size) h
    (KernelHeap.takeSegment seg size h) := by
  refine (flat_hdrLenght h seg).bind ?_
  rw [KernelHeap.takeSegment]
  by_cases hlonger : KernelHeap.hdrLenght h seg > size
  · rw [if_pos hlonger, if_pos hlonger]
    exact (flat_split h seg size).bind ((flat_setFree _ _ _).bind rfl)
  · rw [if_neg hlonger, if_neg hlonger]
    exact (flat_setFree _ _ _).bind rfl

end Headers

section Growth
variable {mapPage}

theorem flat_mapPages (n : ℕ) (h : Heap β) : Returns (mapPages (flatMemory mapPage) n) h
    ((), { (KernelHeap.mapPages mapPage h.heapEnd n h).2 with
      heapEnd := (KernelHeap.mapPages mapPage h.heapEnd n h).1 }) := by
  induction n with
  | zero => rfl
  | succ n ih => exact ih.bind rfl

theorem flat_expandHeap (lenght : ℕ) (h : Heap β) :
    Returns (memExpandHeap (flatMemory mapPage) lenght) h
      ((), KernelHeap.memExpandHeap mapPage lenght h) := by
  have hend : Returns (getHeapEnd (σ := Mem × β)) h (h.heapEnd, h) := rfl
  refine hend.bind ((flat_mapPages _ h).bind
    ((flat_setFree _ _ _).bind ((flat_getLastHdr _).bind ((flat_setLast _ _ _).bind
    ((flat_getLastHdr _).bind ((flat_setNext _ _ _).bind ((flat_setLastHdr _ _).bind
    ((flat_setNext _ _ _).bind ((flat_setLenght _ _ _).bind ?_)))))))))
  exact flat_combineBackward _ _

/-- On a flat memory a call that returns does what the heap's model does. -/
theorem flat_malloc {fuel size p : ℕ} {h h' : Heap β}
    (hcall : KernelHeap.memMalloc mapPage fuel size h = some (p, h')) :
    Returns (memMalloc (flatMemory mapPage) fuel size) h (p, h') := by
  induction fuel generalizing size h with
  | zero => cases hcall
  | succ fuel ih =>
    rw [KernelHeap.memMalloc] at hcall
    rw [memMalloc]
    split at hcall
    · cases hcall
      rw [if_pos ‹_›]
      rfl
    rw [if_neg ‹_›]
    have hstart : Returns (getHeapStart (σ := Mem × β)) h (h.heapStart, h) := rfl
    refine hstart.bind ?_
    cases hfind : KernelHeap.findSegment (roundUp 0x10 size) fuel h.heapStart h with
    | mk found h₁ =>
      rw [hfind] at hcall
      match found, hcall with
      | some (some seg), hcall =>
        refine (flat_findSegment h _ _ fuel hfind).bind ?_
        rw [← Option.some.inj hcall]
        exact flat_takeSegment _ _ _
      | some none, hcall =>
        refine (flat_findSegment h _ _ fuel hfind).bind ?_
        exact (flat_expandHeap _ h₁).bind (ih hcall)

end Growth

end Flat

/-! ### What a call leaves alone -/

section Keeps
variable {σ α γ : Type} {mem : HeapMemory σ} {view : σ → γ}

/-- The bounds of the heap and a part of the memory are as before. -/
structure SameBounds (view : σ → γ) (s s' : HeapState σ) : Prop where
  heapStart : s'.heapStart = s.heapStart
  heapEnd : s'.heapEnd = s.heapEnd
  view : view s'.memory = view s.memory

theorem SameBounds.refl (s : HeapState σ) : SameBounds view s s := ⟨rfl, rfl, rfl⟩

theorem SameBounds.trans {s s' s'' : HeapState σ} (h : SameBounds view s s')
    (h' : SameBounds view s' s'') : SameBounds view s s'' :=
  ⟨h'.heapStart.trans h.heapStart, h'.heapEnd.trans h.heapEnd, h'.view.trans h.view⟩

def Keeps (view : σ → γ) (x : HeapM σ α) : Prop := ∀ s, SameBounds view s (x s).2

/-- Stores leave the part alone. -/
def StoresKeep (mem : HeapMemory σ) (view : σ → γ) : Prop :=
  ∀ a n value m m', mem.store a n value m = some m' → view m' = view m

theorem keeps_pure (a : α) : Keeps view (pure a : HeapM σ α) := fun s => .refl s

theorem Keeps.bind {β : Type} {x : HeapM σ α} {f : α → HeapM σ β} (hx : Keeps view x)
    (hf : ∀ a, Keeps view (f a)) : Keeps view (x >>= f) := by
  intro s
  have hfirst := hx s
  change SameBounds view s (HeapM.bind x f s).2
  rw [HeapM.bind]
  cases hrun : x s with
  | mk result s' =>
    rw [hrun] at hfirst
    cases result with
    | error halt => exact hfirst
    | ok a => exact hfirst.trans (hf a s')

theorem Keeps.ite {c : Prop} [Decidable c] {x y : HeapM σ α} (hx : Keeps view x)
    (hy : Keeps view y) : Keeps view (if c then x else y) := by
  split
  · exact hx
  · exact hy

theorem keeps_halt (h : Halt) : Keeps view (halt h : HeapM σ α) := fun s => .refl s
theorem keeps_getLastHdr : Keeps view (getLastHdr : HeapM σ ℕ) := fun s => .refl s
theorem keeps_getHeapStart : Keeps view (getHeapStart : HeapM σ ℕ) := fun s => .refl s
theorem keeps_setLastHdr (seg : ℕ) : Keeps view (setLastHdr seg : HeapM σ Unit) :=
  fun _ => ⟨rfl, rfl, rfl⟩

theorem keeps_load (a n : ℕ) : Keeps view (load mem a n) := by
  intro s
  unfold load
  split <;> exact .refl s

theorem keeps_hdrFree (seg : ℕ) : Keeps view (hdrFree mem seg) :=
  (keeps_load _ _).bind fun _ => keeps_pure _

theorem keeps_fits (size seg : ℕ) : Keeps view (fits mem size seg) :=
  (keeps_hdrFree seg).bind fun _ => .ite ((keeps_load _ _).bind fun _ => keeps_pure _) (keeps_pure _)

theorem keeps_findSegment (size fuel seg : ℕ) : Keeps view (findSegment mem size fuel seg) := by
  induction fuel generalizing seg with
  | zero => exact keeps_halt _
  | succ fuel ih =>
    exact (keeps_fits size seg).bind fun _ => .ite (keeps_pure _) ((keeps_load _ _).bind fun next =>
      .ite (keeps_pure _) (ih next))

section Stores
variable (hstore : StoresKeep mem view)
include hstore

theorem keeps_store (a n value : ℕ) : Keeps view (store mem a n value) := by
  intro s
  unfold store
  split
  · exact ⟨rfl, rfl, hstore _ _ _ _ _ ‹_›⟩
  · exact .refl s

theorem keeps_split (hshdr splitLenght : ℕ) :
    Keeps view (memHeapSegHdrSplit mem hshdr splitLenght) :=
  have hput := keeps_store hstore
  .ite (keeps_pure _) ((keeps_load _ _).bind fun _ => .ite (keeps_pure _)
    ((keeps_load _ _).bind fun _ => (hput _ _ _).bind fun _ => (keeps_load _ _).bind fun _ =>
    (hput _ _ _).bind fun _ => (hput _ _ _).bind fun _ => (hput _ _ _).bind fun _ =>
    (hput _ _ _).bind fun _ => (keeps_hdrFree _).bind fun _ => (hput _ _ _).bind fun _ =>
    (hput _ _ _).bind fun _ => keeps_getLastHdr.bind fun _ => (keeps_setLastHdr _).bind fun _ =>
    keeps_pure _))

theorem keeps_combineForward (hshdr : ℕ) : Keeps view (memHeapSegHdrCombineForward mem hshdr) :=
  have hput := keeps_store hstore
  (keeps_load _ _).bind fun _ => .ite (keeps_pure _) ((keeps_hdrFree _).bind fun _ =>
    .ite (keeps_pure _) (keeps_getLastHdr.bind fun _ => (keeps_load _ _).bind fun _ =>
    (keeps_setLastHdr _).bind fun _ => (keeps_load _ _).bind fun _ => (keeps_load _ _).bind fun _ =>
    Keeps.bind (.ite (hput _ _ _) (keeps_pure _)) fun _ => (keeps_load _ _).bind fun _ =>
    (keeps_load _ _).bind fun _ => (keeps_load _ _).bind fun _ => (hput _ _ _).bind fun _ =>
    (keeps_load _ _).bind fun _ => (keeps_load _ _).bind fun _ => hput _ _ _))

theorem keeps_combineBackward (hshdr : ℕ) : Keeps view (memHeapSegHdrCombineBackward mem hshdr) :=
  (keeps_load _ _).bind fun _ => .ite ((keeps_load _ _).bind fun _ => (keeps_hdrFree _).bind fun _ =>
    .ite ((keeps_load _ _).bind fun _ => keeps_combineForward hstore _) (keeps_pure _)) (keeps_pure _)

theorem keeps_takeSegment (seg size : ℕ) : Keeps view (takeSegment mem seg size) :=
  have htake : Keeps view (do setFree mem seg false; return wrap (seg + hdrSize)) :=
    (keeps_store hstore _ _ _).bind fun _ => keeps_pure _
  (keeps_load _ _).bind fun _ => .ite ((keeps_split hstore _ _).bind fun _ => htake) htake

end Stores

end Keeps

/-! ### How a call moves the end of the heap -/

section Growth
variable {σ γ α : Type} {mem : HeapMemory σ} {view : σ → γ} {s s' : HeapState σ}

/-- Some memory takes a byte at an address. -/
def Stored (mem : HeapMemory σ) (a : ℕ) : Prop := ∃ value m m', mem.store a 1 value m = some m'

/-- `n` expansions by `R` bytes: each wrote the header at the end of the heap as it was then. -/
structure Expanded (mem : HeapMemory σ) (view : σ → γ) (R n : ℕ) (s s' : HeapState σ) : Prop where
  heapEnd : wrap s'.heapEnd = wrap (s.heapEnd + n * R)
  header : ∀ i < n, ∃ e, wrap e = wrap (s.heapEnd + i * R) ∧ Stored mem (e + 24)
  view : n = 0 ∨ R = 0 → view s'.memory = view s.memory

theorem SameBounds.expanded (h : SameBounds view s s') (R : ℕ) : Expanded mem view R 0 s s' where
  heapEnd := by rw [h.heapEnd, Nat.zero_mul, Nat.add_zero]
  header i hi := absurd hi (Nat.not_lt_zero i)
  view _ := h.view

theorem Expanded.trans {R n k : ℕ} {s'' : HeapState σ} (h : Expanded mem view R n s s')
    (h' : Expanded mem view R k s' s'') : Expanded mem view R (n + k) s s'' where
  heapEnd := by
    rw [h'.heapEnd, ← wrap_wrap_add, h.heapEnd, wrap_wrap_add, Nat.add_mul, Nat.add_assoc]
  header i hi := by
    by_cases hlt : i < n
    · exact h.header i hlt
    · obtain ⟨j, rfl⟩ := Nat.exists_eq_add_of_le (not_lt.1 hlt)
      obtain ⟨e, he, hstored⟩ := h'.header j (by omega)
      refine ⟨e, ?_, hstored⟩
      rw [he, ← wrap_wrap_add, h.heapEnd, wrap_wrap_add, Nat.add_mul, Nat.add_assoc]
  view hnone := (h'.view (by omega)).trans (h.view (by omega))

theorem bind_returned {β : Type} {x : HeapM σ α} {f : α → HeapM σ β} {b : β}
    (h : (x >>= f) s = (.ok b, s')) : ∃ a s₁, x s = (.ok a, s₁) ∧ f a s₁ = (.ok b, s') := by
  change HeapM.bind x f s = _ at h
  rw [HeapM.bind] at h
  cases hrun : x s with
  | mk result s₁ =>
    rw [hrun] at h
    cases result with
    | error halt => cases h
    | ok a => exact ⟨a, s₁, rfl, h⟩

theorem Keeps.returned {x : HeapM σ α} {a : α} (hx : Keeps view x) (h : x s = (.ok a, s')) :
    SameBounds view s s' := by
  have hkept := hx s
  rwa [h] at hkept

theorem stored_of_store {a value : ℕ} (h : store mem a 1 value s = (.ok (), s')) :
    Stored mem a := by
  unfold store at h
  split at h
  · exact ⟨_, _, _, ‹_›⟩
  · cases h

theorem mapPages_returned {n : ℕ} {u : Unit} (h : mapPages mem n s = (.ok u, s')) :
    wrap s'.heapEnd = wrap (s.heapEnd + n * frameSize) ∧ (n = 0 → s'.memory = s.memory) := by
  induction n generalizing u s' with
  | zero =>
    cases h
    exact ⟨by rw [Nat.zero_mul, Nat.add_zero], fun _ => rfl⟩
  | succ n ih =>
    obtain ⟨v, s₁, hfirst, hlast⟩ := bind_returned h
    cases hlast
    refine ⟨?_, fun hn => absurd hn (Nat.succ_ne_zero n)⟩
    change wrap (wrap (s₁.heapEnd + frameSize)) = _
    rw [wrap_wrap, ← wrap_wrap_add, (ih hfirst).1, wrap_wrap_add, Nat.succ_mul, Nat.add_assoc]

theorem roundUp_mod {unit : ℕ} (hunit : unit ∣ 2 ^ 64) (size : ℕ) : roundUp unit size % unit = 0 := by
  rw [roundUp]
  split
  · have hmultiple : unit ∣ size - size % unit + unit :=
      Nat.dvd_add (Nat.dvd_sub_mod size) (dvd_refl unit)
    exact Nat.mod_eq_zero_of_dvd ((Nat.dvd_mod_iff hunit).2 hmultiple)
  · omega

theorem roundUp_roundUp {unit : ℕ} (hunit : unit ∣ 2 ^ 64) (size : ℕ) :
    roundUp unit (roundUp unit size) = roundUp unit size := by
  rw [roundUp, roundUp_mod hunit]
  rfl

theorem memExpandHeap_expanded (hstore : StoresKeep mem view) {lenght : ℕ} {u : Unit}
    (h : memExpandHeap mem lenght s = (.ok u, s')) :
    Expanded mem view (roundUp frameSize lenght) 1 s s' := by
  have hput := keeps_store hstore
  obtain ⟨newSegment, s₁, hend, h⟩ := bind_returned h
  cases hend
  obtain ⟨u₂, s₂, hmap, h⟩ := bind_returned h
  obtain ⟨u₃, s₃, hfree, h⟩ := bind_returned h
  have hrest : Keeps view (do
      setLast mem s.heapEnd (← getLastHdr)
      setNext mem (← getLastHdr) s.heapEnd
      setLastHdr s.heapEnd
      setNext mem s.heapEnd 0
      setLenght mem s.heapEnd (wrapSub (roundUp frameSize lenght) hdrSize)
      memHeapSegHdrCombineBackward mem s.heapEnd) :=
    keeps_getLastHdr.bind fun _ => (hput _ _ _).bind fun _ => keeps_getLastHdr.bind fun _ =>
    (hput _ _ _).bind fun _ => (keeps_setLastHdr _).bind fun _ => (hput _ _ _).bind fun _ =>
    (hput _ _ _).bind fun _ => keeps_combineBackward hstore _
  have hbounds := ((hput _ _ _).returned hfree).trans (hrest.returned h)
  have hpages : roundUp frameSize lenght / frameSize * frameSize = roundUp frameSize lenght :=
    Nat.div_mul_cancel (Nat.dvd_of_mod_eq_zero (roundUp_mod (by decide) lenght))
  obtain ⟨hmoved, hkept⟩ := mapPages_returned hmap
  rw [hpages] at hmoved
  refine ⟨?_, fun i hi => ?_, fun hnone => ?_⟩
  · rw [hbounds.heapEnd, hmoved, Nat.one_mul]
  · rw [Nat.lt_one_iff.1 hi, Nat.zero_mul, Nat.add_zero]
    exact ⟨s.heapEnd, rfl, stored_of_store hfree⟩
  · rw [hbounds.view, hkept]
    rw [hnone.resolve_left Nat.one_ne_zero, Nat.zero_div]

/-- A call that returns has made some expansions, all by the same size. -/
theorem memMalloc_expanded (hstore : StoresKeep mem view) {fuel size p : ℕ}
    (h : memMalloc mem fuel size s = (.ok p, s')) :
    ∃ n, Expanded mem view (roundUp frameSize (roundUp 0x10 size)) n s s' := by
  induction fuel generalizing size s with
  | zero => cases h
  | succ fuel ih =>
    rw [memMalloc] at h
    split at h
    · cases h
      exact ⟨0, (SameBounds.refl _).expanded _⟩
    obtain ⟨start, s₁, hstart, h⟩ := bind_returned h
    cases hstart
    obtain ⟨found, s₂, hfind, h⟩ := bind_returned h
    have hkeeps : Keeps view (findSegment mem (roundUp 0x10 size) fuel s.heapStart) :=
      keeps_findSegment _ _ _
    have hfirst := hkeeps.returned hfind
    cases found with
    | some seg =>
      have htake := (keeps_takeSegment hstore _ _).returned h
      exact ⟨0, (hfirst.trans htake).expanded _⟩
    | none =>
      obtain ⟨u, s₃, hexpand, h⟩ := bind_returned h
      obtain ⟨n, hrest⟩ := ih h
      rw [roundUp_roundUp (by decide)] at hrest
      have hone := memExpandHeap_expanded hstore hexpand
      exact ⟨0 + (1 + n), (hfirst.expanded _).trans (hone.trans hrest)⟩

end Growth

end Rizzos.HeapProgram
