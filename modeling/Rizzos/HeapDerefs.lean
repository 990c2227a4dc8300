import Rizzos.HeapAllocation

set_option autoImplicit false

/-! The header pointers that the heap operations read or write through. -/
namespace Rizzos.HeapDerefs
open ByteMemory Memory LinkedList KernelHeap HeapSegments HeapOperations HeapAllocation

variable {β : Type} {h h' h'' : Heap β} {A : ℕ → Prop} {a b n r v : ℕ}

def Derefs (A : ℕ → Prop) (h h' : Heap β) : Prop :=
  ∃ l, h'.derefs = l ++ h.derefs ∧ ∀ x ∈ l, A x

theorem Derefs.same (e : h'.derefs = h.derefs) : Derefs A h h' := ⟨[], e, by simp⟩

theorem Derefs.trans (H : Derefs A h h') (H' : Derefs A h' h'') : Derefs A h h'' := by
  obtain ⟨l, e, hl⟩ := H
  obtain ⟨l', e', hl'⟩ := H'
  refine ⟨l' ++ l, by rw [e', e, List.append_assoc], fun x hx => ?_⟩
  exact (List.mem_append.1 hx).elim (hl' x) (hl x)

theorem Derefs.mono {A' : ℕ → Prop} (H : Derefs A h h') (hA : ∀ x, A x → A' x) :
    Derefs A' h h' := by
  obtain ⟨l, e, hl⟩ := H
  exact ⟨l, e, fun x hx => hA x (hl x hx)⟩

theorem Derefs.ite {p : Prop} [Decidable p] {x y : Heap β} (hx : p → Derefs A h x)
    (hy : ¬ p → Derefs A h y) : Derefs A h (if p then x else y) := by
  by_cases hp : p
  · rw [if_pos hp]
    exact hx hp
  · rw [if_neg hp]
    exact hy hp

theorem derefs_visit (ha : A a) (h : Heap β) : Derefs A h (visit a h) :=
  ⟨[a], rfl, by simpa using ha⟩

theorem derefs_setLenght (ha : A a) (v : ℕ) (h : Heap β) : Derefs A h (setLenght a v h) :=
  ⟨[a], rfl, by simpa using ha⟩

theorem derefs_setNext (ha : A a) (v : ℕ) (h : Heap β) : Derefs A h (setNext a v h) :=
  ⟨[a], rfl, by simpa using ha⟩

theorem derefs_setLast (ha : A a) (v : ℕ) (h : Heap β) : Derefs A h (setLast a v h) :=
  ⟨[a], rfl, by simpa using ha⟩

theorem derefs_setFree (ha : A a) (v : Bool) (h : Heap β) : Derefs A h (setFree a v h) :=
  ⟨[a], rfl, by simpa using ha⟩

theorem derefs_linkBack (hn : n ≠ 0 → A n) (a : ℕ) (h : Heap β) : Derefs A h (linkBack n a h) :=
  .ite (fun hn0 => derefs_setLast (hn hn0) a h) fun _ => .same rfl

theorem derefs_absorbNext (ha : A a) (h : Heap β) : Derefs A h (absorbNext a h) :=
  (derefs_setLenght ha _ _).trans (derefs_setNext ha _ _)

theorem derefs_combineForward (ha : A a) (hb : hdrNext h a ≠ 0 → A (hdrNext h a))
    (hn : hdrNext h a ≠ 0 → hdrNext h (hdrNext h a) ≠ 0 → A (hdrNext h (hdrNext h a))) :
    Derefs A h (memHeapSegHdrCombineForward a h) := by
  by_cases hnext : hdrNext h a = 0
  · have hnext' : hdrNext (visit a h) a = 0 := hnext
    rw [memHeapSegHdrCombineForward, if_pos hnext']
    exact derefs_visit ha h
  · cases hfree : hdrFree h a with
    | false =>
      have hnext' : ¬ hdrNext (visit a h) a = 0 := hnext
      have hfree' : hdrFree (visit a h) a = false := hfree
      rw [memHeapSegHdrCombineForward, if_neg hnext', if_pos hfree']
      exact derefs_visit ha h
    | true =>
      rw [combineForward_eq rfl hnext hfree]
      have h1 : Derefs A h (setLastHdr (if hdrNext h a = h.lastHdr then a else h.lastHdr)
          (visit a h)) := (derefs_visit ha h).trans (.same rfl)
      have h2 := h1.trans (derefs_visit (hb hnext) _)
      have h3 := h2.trans (derefs_linkBack (hn hnext) a _)
      exact h3.trans (derefs_absorbNext ha _)

theorem derefs_combineBackward (ha : A a) (hc : hdrLast h a ≠ 0 → A (hdrLast h a))
    (hb : hdrLast h a ≠ 0 → hdrNext h (hdrLast h a) ≠ 0 → A (hdrNext h (hdrLast h a)))
    (hn : hdrLast h a ≠ 0 → hdrNext h (hdrLast h a) ≠ 0 →
      hdrNext h (hdrNext h (hdrLast h a)) ≠ 0 → A (hdrNext h (hdrNext h (hdrLast h a)))) :
    Derefs A h (memHeapSegHdrCombineBackward a h) := by
  by_cases hlast : hdrLast h a = 0
  · rw [combineBackward_none hlast]
    exact derefs_visit ha h
  · rw [combineBackward_some rfl hlast]
    have hvisit := (derefs_visit ha h).trans (derefs_visit (hc hlast) _)
    refine .ite (fun _ => hvisit.trans ?_) fun _ => hvisit
    exact derefs_combineForward (h := visit (hdrLast h a) (visit a h)) (hc hlast) (hb hlast)
      (hn hlast)

/-- A split uses the segment, the new header and the next segment, also when there is none. -/
theorem split_derefs (hr : 16 ≤ r) {l : ℕ} (hl : l < 2 ^ 64) (hlen : hdrLenght h a = l)
    (hsplit : Splits l r) (hb : wrap (a + r + hdrSize) = b) :
    (memHeapSegHdrSplit a r h).2.derefs =
      [a, b, b, b, a, b, hdrNext h a, a] ++ h.derefs := by
  rw [split_eq hr hl hlen hsplit hb]
  rfl

theorem derefs_split (hr : 16 ≤ r) {l : ℕ} (hl : l < 2 ^ 64) (hrl : r < l)
    (hlen : hdrLenght h a = l) (ha : A a)
    (hsplit : Splits l r → A (wrap (a + r + hdrSize)) ∧ A (hdrNext h a)) :
    Derefs A h (memHeapSegHdrSplit a r h).2 := by
  by_cases hs : Splits l r
  · obtain ⟨hb, hn⟩ := hsplit hs
    refine ⟨_, split_derefs hr hl hlen hs rfl, ?_⟩
    simp [ha, hb, hn]
  · rw [split_none hr hrl hl hlen hs]
    exact derefs_visit ha h

end Rizzos.HeapDerefs
