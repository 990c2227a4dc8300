import Rizzos.HeapProgram

set_option autoImplicit false

/-!
# Calls of the heap on two memories

A call that returns on one memory returns the same on every memory that simulates it. The use of
this is a memory that refuses to touch some blocks: whatever those hold, and whatever their owners
write there, the call is the same.
-/
namespace Rizzos.HeapSimulation
open ByteMemory Memory HeapProgram
open KernelHeap (hdrSize roundUp Heap)

/-! ### Simulation -/

section Follows
variable {σ τ α β : Type} {mem : HeapMemory σ} {mem' : HeapMemory τ} {R : σ → τ → Prop}

/-- Accesses that do not fault in the one memory do the same in the other. -/
structure Simulates (mem : HeapMemory σ) (mem' : HeapMemory τ) (R : σ → τ → Prop) : Prop where
  load : ∀ a n value m m', R m m' → mem.load a n m = some value → mem'.load a n m' = some value
  store : ∀ a n value m m' m₁, R m m' → mem.store a n value m = some m₁ →
    ∃ m₁', mem'.store a n value m' = some m₁' ∧ R m₁ m₁'
  mapPage : ∀ virtualMemory m m', R m m' →
    R (mem.mapPage virtualMemory m) (mem'.mapPage virtualMemory m')

structure Related (R : σ → τ → Prop) (s : HeapState σ) (s' : HeapState τ) : Prop where
  memory : R s.memory s'.memory
  heapStart : s'.heapStart = s.heapStart
  heapEnd : s'.heapEnd = s.heapEnd
  lastHdr : s'.lastHdr = s.lastHdr

/-- What the first program returns the second one returns too, from related states. -/
def Follows (R : σ → τ → Prop) (x : HeapM σ α) (y : HeapM τ α) : Prop :=
  ∀ s s' a s₁, Related R s s' → x s = (.ok a, s₁) → ∃ s₁', y s' = (.ok a, s₁') ∧ Related R s₁ s₁'

theorem follows_pure (a : α) : Follows R (pure a : HeapM σ α) (pure a) := by
  intro s s' b s₁ hrel hrun
  cases hrun
  exact ⟨s', rfl, hrel⟩

theorem follows_halt (h : Halt) : Follows R (halt h : HeapM σ α) (halt h) := by
  intro s s' b s₁ hrel hrun
  cases hrun

theorem Follows.bind {x : HeapM σ α} {y : HeapM τ α} {f : α → HeapM σ β} {g : α → HeapM τ β}
    (hx : Follows R x y) (hf : ∀ a, Follows R (f a) (g a)) : Follows R (x >>= f) (y >>= g) := by
  intro s s' b s₂ hrel hrun
  obtain ⟨a, s₁, hfirst, hrest⟩ := bind_returned hrun
  obtain ⟨s₁', hfirst', hrel₁⟩ := hx s s' a s₁ hrel hfirst
  obtain ⟨s₂', hrest', hrel₂⟩ := hf a s₁ s₁' b s₂ hrel₁ hrest
  refine ⟨s₂', ?_, hrel₂⟩
  change HeapM.bind y g s' = _
  rw [HeapM.bind, hfirst']
  exact hrest'

theorem Follows.ite {c : Prop} [Decidable c] {x x' : HeapM σ α} {y y' : HeapM τ α}
    (hx : Follows R x y) (hx' : Follows R x' y') :
    Follows R (if c then x else x') (if c then y else y') := by
  split
  · exact hx
  · exact hx'

theorem follows_getLastHdr : Follows R (getLastHdr : HeapM σ ℕ) getLastHdr := by
  intro s s' a s₁ hrel hrun
  cases hrun
  exact ⟨s', by rw [← hrel.lastHdr]; rfl, hrel⟩

theorem follows_setLastHdr (seg : ℕ) : Follows R (setLastHdr seg : HeapM σ Unit)
    (setLastHdr seg) := by
  intro s s' a s₁ hrel hrun
  cases hrun
  exact ⟨{ s' with lastHdr := seg }, rfl, ⟨hrel.memory, hrel.heapStart, hrel.heapEnd, rfl⟩⟩

theorem follows_getHeapStart : Follows R (getHeapStart : HeapM σ ℕ) getHeapStart := by
  intro s s' a s₁ hrel hrun
  cases hrun
  exact ⟨s', by rw [← hrel.heapStart]; rfl, hrel⟩

theorem follows_getHeapEnd : Follows R (getHeapEnd : HeapM σ ℕ) getHeapEnd := by
  intro s s' a s₁ hrel hrun
  cases hrun
  exact ⟨s', by rw [← hrel.heapEnd]; rfl, hrel⟩

section Accesses
variable (sim : Simulates mem mem' R)
include sim

theorem follows_load (a n : ℕ) : Follows R (load mem a n) (load mem' a n) := by
  intro s s' value s₁ hrel hrun
  unfold load at hrun ⊢
  split at hrun
  · cases hrun
    rw [sim.load _ _ _ _ _ hrel.memory ‹_›]
    exact ⟨s', rfl, hrel⟩
  · cases hrun

theorem follows_store (a n value : ℕ) : Follows R (store mem a n value) (store mem' a n value) := by
  intro s s' u s₁ hrel hrun
  unfold store at hrun ⊢
  split at hrun
  · cases hrun
    obtain ⟨memory', hstore, hmemory⟩ := sim.store _ _ _ _ _ _ hrel.memory ‹_›
    rw [hstore]
    exact ⟨{ s' with memory := memory' }, rfl, ⟨hmemory, hrel.heapStart, hrel.heapEnd, hrel.lastHdr⟩⟩
  · cases hrun

theorem follows_growHeap : Follows R (growHeap mem) (growHeap mem') := by
  intro s s' u s₁ hrel hrun
  cases hrun
  refine ⟨_, rfl, ?_, hrel.heapStart, ?_, hrel.lastHdr⟩
  · dsimp only
    rw [hrel.heapEnd]
    exact sim.mapPage _ _ _ hrel.memory
  · dsimp only
    rw [hrel.heapEnd]

theorem follows_hdrFree (seg : ℕ) : Follows R (hdrFree mem seg) (hdrFree mem' seg) :=
  (follows_load sim _ _).bind fun _ => follows_pure _

theorem follows_split (hshdr splitLenght : ℕ) :
    Follows R (memHeapSegHdrSplit mem hshdr splitLenght)
      (memHeapSegHdrSplit mem' hshdr splitLenght) :=
  have hget := follows_load sim
  have hput := follows_store sim
  .ite (follows_pure _) ((hget _ _).bind fun _ => .ite (follows_pure _)
    ((hget _ _).bind fun _ => (hput _ _ _).bind fun _ => (hget _ _).bind fun _ =>
    (hput _ _ _).bind fun _ => (hput _ _ _).bind fun _ => (hput _ _ _).bind fun _ =>
    (hput _ _ _).bind fun _ => (follows_hdrFree sim _).bind fun _ => (hput _ _ _).bind fun _ =>
    (hput _ _ _).bind fun _ => follows_getLastHdr.bind fun _ => (follows_setLastHdr _).bind fun _ =>
    follows_pure _))

theorem follows_combineForward (hshdr : ℕ) :
    Follows R (memHeapSegHdrCombineForward mem hshdr) (memHeapSegHdrCombineForward mem' hshdr) :=
  have hget := follows_load sim
  have hput := follows_store sim
  (hget _ _).bind fun _ => .ite (follows_pure _) ((follows_hdrFree sim _).bind fun _ =>
    .ite (follows_pure _) (follows_getLastHdr.bind fun _ => (hget _ _).bind fun _ =>
    (follows_setLastHdr _).bind fun _ => (hget _ _).bind fun _ => (hget _ _).bind fun _ =>
    Follows.bind (.ite (hput _ _ _) (follows_pure _)) fun _ => (hget _ _).bind fun _ =>
    (hget _ _).bind fun _ => (hget _ _).bind fun _ => (hput _ _ _).bind fun _ =>
    (hget _ _).bind fun _ => (hget _ _).bind fun _ => hput _ _ _))

theorem follows_combineBackward (hshdr : ℕ) :
    Follows R (memHeapSegHdrCombineBackward mem hshdr) (memHeapSegHdrCombineBackward mem' hshdr) :=
  have hget := follows_load sim
  (hget _ _).bind fun _ => .ite ((hget _ _).bind fun _ => (follows_hdrFree sim _).bind fun _ =>
    .ite ((hget _ _).bind fun _ => follows_combineForward sim _) (follows_pure _)) (follows_pure _)

theorem follows_fits (size seg : ℕ) : Follows R (fits mem size seg) (fits mem' size seg) :=
  (follows_hdrFree sim seg).bind fun _ =>
    .ite ((follows_load sim _ _).bind fun _ => follows_pure _) (follows_pure _)

theorem follows_findSegment (size fuel seg : ℕ) :
    Follows R (findSegment mem size fuel seg) (findSegment mem' size fuel seg) := by
  induction fuel generalizing seg with
  | zero => exact follows_halt _
  | succ fuel ih =>
    exact (follows_fits sim size seg).bind fun _ => .ite (follows_pure _)
      ((follows_load sim _ _).bind fun next => .ite (follows_pure _) (ih next))

theorem follows_takeSegment (seg size : ℕ) :
    Follows R (takeSegment mem seg size) (takeSegment mem' seg size) :=
  have htake : Follows R (do setFree mem seg false; return wrap (seg + hdrSize))
      (do setFree mem' seg false; return wrap (seg + hdrSize)) :=
    (follows_store sim _ _ _).bind fun _ => follows_pure _
  (follows_load sim _ _).bind fun _ => .ite ((follows_split sim _ _).bind fun _ => htake) htake

theorem follows_mapPages (n : ℕ) : Follows R (mapPages mem n) (mapPages mem' n) := by
  induction n with
  | zero => exact follows_pure _
  | succ n ih => exact ih.bind fun _ => follows_growHeap sim

theorem follows_expandHeap (lenght : ℕ) :
    Follows R (memExpandHeap mem lenght) (memExpandHeap mem' lenght) :=
  have hput := follows_store sim
  follows_getHeapEnd.bind fun _ => (follows_mapPages sim _).bind fun _ => (hput _ _ _).bind fun _ =>
    follows_getLastHdr.bind fun _ => (hput _ _ _).bind fun _ => follows_getLastHdr.bind fun _ =>
    (hput _ _ _).bind fun _ => (follows_setLastHdr _).bind fun _ => (hput _ _ _).bind fun _ =>
    (hput _ _ _).bind fun _ => follows_combineBackward sim _

/-- A call of `MEM_Malloc` that returns does so on every memory that simulates the one it ran on. -/
theorem follows_malloc (fuel size : ℕ) :
    Follows R (memMalloc mem fuel size) (memMalloc mem' fuel size) := by
  induction fuel generalizing size with
  | zero => exact follows_halt _
  | succ fuel ih =>
    refine .ite (follows_pure _) (follows_getHeapStart.bind fun start =>
      (follows_findSegment sim _ _ _).bind fun found => ?_)
    cases found with
    | some seg => exact follows_takeSegment sim _ _
    | none => exact (follows_expandHeap sim _).bind fun _ => ih _

end Accesses

end Follows

/-! ### Back to the heap's model -/

section Flat
variable {β : Type} {mapPage : ℕ → β → β}

theorem flat_findSegment_fuel {size fuel seg : ℕ} {h h' : Heap β}
    (hfind : KernelHeap.findSegment size fuel seg h = (none, h')) :
    (findSegment (flatMemory mapPage) size fuel seg (flat h)).1 = .error .fuel := by
  induction fuel generalizing seg h with
  | zero => rfl
  | succ fuel ih =>
    rw [KernelHeap.findSegment] at hfind
    rw [findSegment, (flat_fits h seg size).bind_eq]
    by_cases hfits : KernelHeap.hdrFree h seg = true ∧ KernelHeap.hdrLenght h seg ≥ size
    · cases (if_pos hfits).symm.trans hfind
    have hrest := (if_neg hfits).symm.trans hfind
    rw [if_neg (by rwa [decide_eq_true_eq])]
    have hnext : Returns (hdrNext (flatMemory mapPage) seg) h (KernelHeap.hdrNext h seg, h) :=
      flat_hdrNext h seg
    rw [hnext.bind_eq]
    by_cases hnull : KernelHeap.hdrNext h seg = 0
    · cases (if_pos hnull).symm.trans hrest
    · have hsearch : KernelHeap.findSegment size fuel (KernelHeap.hdrNext h seg)
          (KernelHeap.visit seg h) = (none, h') := (if_neg hnull).symm.trans hrest
      rw [if_neg hnull]
      have hfuel := ih hsearch
      exact hfuel

theorem malloc_of_flat {fuel size p : ℕ} {h : Heap β} {s' : HeapState (Mem × β)}
    (hrun : memMalloc (flatMemory mapPage) fuel size (flat h) = (.ok p, s')) :
    ∃ h', KernelHeap.memMalloc mapPage fuel size h = some (p, h') ∧ flat h' = s' := by
  induction fuel generalizing size h with
  | zero => cases hrun
  | succ fuel ih =>
    rw [memMalloc] at hrun
    rw [KernelHeap.memMalloc]
    split at hrun
    · cases hrun
      rw [if_pos ‹_›]
      exact ⟨h, rfl, rfl⟩
    rw [if_neg ‹_›]
    have hstart : Returns (getHeapStart (σ := Mem × β)) h (h.heapStart, h) := rfl
    rw [hstart.bind_eq] at hrun
    cases hfind : KernelHeap.findSegment (roundUp 0x10 size) fuel h.heapStart h with
    | mk found h₁ =>
      cases found with
      | none =>
        obtain ⟨a, s₁, hsearch, -⟩ := bind_returned hrun
        have hfuel : (findSegment (flatMemory mapPage) (roundUp 0x10 size) fuel h.heapStart
            (flat h)).1 = .error .fuel := flat_findSegment_fuel hfind
        rw [hsearch] at hfuel
        cases hfuel
      | some next =>
        rw [(flat_findSegment h _ _ fuel hfind).bind_eq] at hrun
        cases next with
        | none => exact ih ((flat_expandHeap _ h₁).bind_eq.symm.trans hrun)
        | some seg =>
          obtain ⟨hvalue, hstate⟩ := Prod.mk.inj ((flat_takeSegment h₁ seg _).symm.trans hrun)
          cases hvalue
          exact ⟨_, rfl, hstate⟩

end Flat

/-! ### A memory with guarded blocks -/

section Guarded

def Within (L : List (ℕ × ℕ)) (x : ℕ) : Prop := ∃ b ∈ L, b.1 ≤ x ∧ x < b.1 + b.2

instance (L : List (ℕ × ℕ)) (x : ℕ) : Decidable (Within L x) :=
  inferInstanceAs (Decidable (∃ b ∈ L, _ ∧ _))

def Touches (L : List (ℕ × ℕ)) (a n : ℕ) : Prop := ∃ i < n, Within L (wrap (a + i))

instance (L : List (ℕ × ℕ)) (a n : ℕ) : Decidable (Touches L a n) :=
  inferInstanceAs (Decidable (∃ i < n, _))

/-- A flat memory that faults where an access touches a block. -/
def guardedMemory (L : List (ℕ × ℕ)) : HeapMemory Mem where
  load a n m := if Touches L a n then none else some (loadLE m a n)
  store a n value m := if Touches L a n then none else some (storeLE m a n value)
  mapPage _ m := m

def overlay (L : List (ℕ × ℕ)) (blocks m : Mem) : Mem := fun x => if Within L x then blocks x else m x

variable {L : List (ℕ × ℕ)} {blocks m : Mem}

theorem overlay_within {x : ℕ} (h : Within L x) : overlay L blocks m x = blocks x := if_pos h
theorem overlay_outside {x : ℕ} (h : ¬ Within L x) : overlay L blocks m x = m x := if_neg h

theorem not_within_of_not_touches {a n i : ℕ} (h : ¬ Touches L a n) (hi : i < n) :
    ¬ Within L (wrap (a + i)) := fun hwithin => h ⟨i, hi, hwithin⟩

theorem loadLE_overlay {a n : ℕ} (h : ¬ Touches L a n) :
    loadLE (overlay L blocks m) a n = loadLE m a n :=
  loadLE_congr fun _ hi => overlay_outside (not_within_of_not_touches h hi)

theorem store8_overlay {a : ℕ} (value : Byte) (h : ¬ Within L (wrap a)) :
    store8 (overlay L blocks m) a value = overlay L blocks (store8 m a value) := by
  funext x
  by_cases hx : x = wrap a
  · rw [hx, overlay_outside h]
    rw [store8, store8, Function.update_self, Function.update_self]
  · have hstored : ∀ mem : Mem, store8 mem a value x = mem x := fun _ => Function.update_of_ne hx _ _
    rw [hstored, overlay, overlay, hstored]

theorem storeLE_overlay {a n : ℕ} (value : ℕ) (h : ¬ Touches L a n) :
    storeLE (overlay L blocks m) a n value = overlay L blocks (storeLE m a n value) := by
  induction n generalizing m a value with
  | zero => rfl
  | succ n ih =>
    have htail : ¬ Touches L (a + 1) n := fun ⟨i, hi, hwithin⟩ =>
      h ⟨i + 1, by omega, by rwa [← Nat.add_assoc, Nat.add_right_comm]⟩
    have hfirst : ¬ Within L (wrap a) := not_within_of_not_touches h (Nat.succ_pos n)
    rw [storeLE, store8_overlay _ hfirst, ih _ htail]
    rfl

/-- What is outside the blocks decides a call, and the blocks keep their bytes. -/
theorem guarded_simulates {β : Type} (mapPage : ℕ → β → β) (L : List (ℕ × ℕ)) (blocks : Mem) :
    Simulates (guardedMemory L) (flatMemory mapPage) fun m s => s.1 = overlay L blocks m where
  load a n value m s hrel hload := by
    obtain ⟨htouches, hvalue⟩ := Option.ite_none_left_eq_some.1 hload
    change some (loadLE s.1 a n) = _
    rw [hrel, loadLE_overlay htouches, hvalue]
  store a n value m s m₁ hrel hstore := by
    obtain ⟨htouches, hvalue⟩ := Option.ite_none_left_eq_some.1 hstore
    refine ⟨(storeLE s.1 a n value, s.2), rfl, ?_⟩
    dsimp only
    rw [hrel, storeLE_overlay value htouches, Option.some.inj hvalue]
  mapPage _ _ _ hrel := hrel

end Guarded

/-! ### Calls next to blocks in use -/

/-- Blocks given by address and length that share no byte. -/
def BlocksApart (b b' : ℕ × ℕ) : Prop := b.1 + b.2 ≤ b'.1 ∨ b'.1 + b'.2 ≤ b.1

instance (b b' : ℕ × ℕ) : Decidable (BlocksApart b b') := inferInstanceAs (Decidable (_ ∨ _))

instance : Std.Symm BlocksApart := ⟨fun _ _ h => Or.symm h⟩

def Granted (size : ℕ) (L : List (ℕ × ℕ)) (rest : ℕ → HeapState Mem → Prop) :
    Except Halt ℕ × HeapState Mem → Prop
  | (.ok p, s) => p + size ≤ 2 ^ 64 ∧ (∀ b ∈ L, BlocksApart (p, size) b) ∧ rest p s
  | (.error _, _) => False

instance (size : ℕ) (L : List (ℕ × ℕ)) (rest : ℕ → HeapState Mem → Prop)
    [∀ p s, Decidable (rest p s)] : DecidablePred (Granted size L rest)
  | (.ok _, _) => inferInstanceAs (Decidable (_ ∧ _ ∧ _))
  | (.error _, _) => isFalse id

/-- Calls of `MEM_Malloc` for these sizes return blocks that lie apart from each other and from
    the blocks in use, and touch no block in use. -/
def Supplied (fuel : ℕ) : List ℕ → List (ℕ × ℕ) → HeapState Mem → Prop
  | [], _, _ => True
  | size :: sizes, L, s => Granted size L (fun p => Supplied fuel sizes ((p, size) :: L))
      (memMalloc (guardedMemory L) fuel size s)

instance decidableSupplied (fuel : ℕ) :
    (sizes : List ℕ) → (L : List (ℕ × ℕ)) → DecidablePred (Supplied fuel sizes L)
  | [], _ => fun _ => isTrue trivial
  | size :: sizes, L => fun s =>
    have := fun p : ℕ => decidableSupplied fuel sizes ((p, size) :: L)
    inferInstanceAs (Decidable (Granted size L _ (memMalloc (guardedMemory L) fuel size s)))

section Supply
variable {β : Type} {mapPage : ℕ → β → β} {fuel size : ℕ} {L : List (ℕ × ℕ)} {sizes : List ℕ}
  {h : Heap β}

def memoryOf (h : Heap β) (m : Mem) : HeapState Mem := ⟨m, h.heapStart, h.heapEnd, h.lastHdr⟩

/-- A heap with the blocks `L` in use that supplies blocks of these sizes, whatever those in use
    hold. -/
structure Supply (fuel : ℕ) (L : List (ℕ × ℕ)) (sizes : List ℕ) (h : Heap β) : Prop where
  space : ∀ b ∈ L, b.1 + b.2 ≤ 2 ^ 64
  apart : L.Pairwise BlocksApart
  supplied : ∃ m, Supplied fuel sizes L (memoryOf h m) ∧ h.mem = overlay L h.mem m

theorem supply_of_supplied (hs : Supplied fuel sizes [] (memoryOf h h.mem)) :
    Supply fuel [] sizes h where
  space _ hb := absurd hb List.not_mem_nil
  apart := .nil
  supplied := ⟨h.mem, hs, funext fun _ => (ite_self _).symm⟩

theorem Supply.write (hs : Supply fuel L sizes h) {mem : Mem}
    (hmem : ∀ x, ¬ Within L x → mem x = h.mem x) : Supply fuel L sizes { h with mem } where
  space := hs.space
  apart := hs.apart
  supplied := by
    obtain ⟨m, hsupplied, hm⟩ := hs.supplied
    refine ⟨m, hsupplied, funext fun x => ?_⟩
    by_cases hx : Within L x
    · exact (overlay_within hx).symm
    · rw [overlay_outside hx]
      change mem x = m x
      rw [hmem x hx, hm, overlay_outside hx]

theorem Supply.env (hs : Supply fuel L sizes h) (env : β) : Supply fuel L sizes { h with env } :=
  ⟨hs.space, hs.apart, hs.supplied⟩

/-- The next call returns, and the blocks in use keep what they hold. -/
theorem Supply.malloc (mapPage : ℕ → β → β) (hs : Supply fuel L (size :: sizes) h) :
    ∃ p h', KernelHeap.memMalloc mapPage fuel size h = some (p, h') ∧
      Supply fuel ((p, size) :: L) sizes h' ∧ ∀ x, Within L x → h'.mem x = h.mem x := by
  obtain ⟨m, hsupplied, hm⟩ := hs.supplied
  rw [Supplied] at hsupplied
  cases hcall : memMalloc (guardedMemory L) fuel size (memoryOf h m) with
  | mk result s' =>
    rw [hcall] at hsupplied
    cases result with
    | error halt => exact hsupplied.elim
    | ok p =>
      obtain ⟨hspace, hapart, hrest⟩ := hsupplied
      obtain ⟨s₁, hflat, hrel⟩ := follows_malloc (guarded_simulates mapPage L h.mem) fuel size
        (memoryOf h m) (flat h) p s' ⟨hm, rfl, rfl, rfl⟩ hcall
      obtain ⟨h', hmalloc, rfl⟩ := malloc_of_flat hflat
      obtain ⟨hmem, hstart, hend, hlast⟩ := hrel
      change h'.mem = _ at hmem
      refine ⟨p, h', hmalloc, ⟨List.forall_mem_cons.2 ⟨hspace, hs.space⟩,
        List.pairwise_cons.2 ⟨hapart, hs.apart⟩, s'.memory, ?_, funext fun x => ?_⟩, ?_⟩
      · change Supplied fuel sizes _ ⟨s'.memory, h'.heapStart, h'.heapEnd, h'.lastHdr⟩
        change h'.heapStart = _ at hstart
        change h'.heapEnd = _ at hend
        change h'.lastHdr = _ at hlast
        rwa [hstart, hend, hlast]
      · by_cases hx : Within ((p, size) :: L) x
        · exact (overlay_within hx).symm
        · have hold : ¬ Within L x := fun ⟨b, hb, hin⟩ => hx ⟨b, List.mem_cons_of_mem _ hb, hin⟩
          rw [overlay_outside hx, hmem, overlay_outside hold]
      · intro x hx
        rw [hmem, overlay_within hx]

end Supply

end Rizzos.HeapSimulation
