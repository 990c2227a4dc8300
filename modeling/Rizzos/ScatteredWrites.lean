import Mathlib.Tactic

set_option autoImplicit false

/-!
# Loops that write a store cell by cell

A turn of such a loop writes one cell of the store, or leaves the store as it is. What the
turns write does not depend on the store, so a loop overlays it.
-/
namespace Rizzos.ScatteredWrites

section Loops
variable {ι κ α : Type} [DecidableEq κ] (position : ι → κ) (value : ι → Option α)

/-- One turn: write the value of `i`, if it has one, to its cell. -/
def put (m : κ → α) (i : ι) : κ → α :=
  match value i with
  | some v => Function.update m (position i) v
  | none => m

def scatter (l : List ι) (m : κ → α) : κ → α := l.foldl (put position value) m

/-- The store with every cell replaced that has something written over it. -/
def overlay (top : κ → Option α) (m : κ → α) : κ → α := fun k => (top k).getD (m k)

def written (i : ι) : κ → Option α := fun k => if k = position i then value i else none

/-- What is on top: `top`, with `bottom` where there is nothing of it. -/
def stack (top bottom : κ → Option α) : κ → Option α := fun k => (top k).or (bottom k)

omit [DecidableEq κ] in
theorem overlay_stack (top bottom : κ → Option α) (m : κ → α) :
    overlay top (overlay bottom m) = overlay (stack top bottom) m := by
  funext k
  unfold overlay stack
  cases top k <;> rfl

theorem put_eq_overlay (m : κ → α) (i : ι) :
    put position value m i = overlay (written position value i) m := by
  funext k
  unfold put overlay written
  by_cases hk : k = position i
  · rw [hk, if_pos rfl]
    cases value i with
    | none => rfl
    | some v => exact Function.update_self _ _ _
  · rw [if_neg hk]
    cases value i with
    | none => rfl
    | some v => exact Function.update_of_ne hk _ _

theorem scatter_overlay (l : List ι) :
    ∃ top : κ → Option α, ∀ m, scatter position value l m = overlay top m := by
  induction l with
  | nil => exact ⟨fun _ => none, fun m => rfl⟩
  | cons i l ih =>
    obtain ⟨top, htop⟩ := ih
    refine ⟨stack top (written position value i), fun m => ?_⟩
    rw [← overlay_stack, ← put_eq_overlay]
    exact htop _

variable {position value}

theorem scatter_of_forall_ne {l : List ι} {k : κ} (h : ∀ i ∈ l, k ≠ position i) (m : κ → α) :
    scatter position value l m k = m k := by
  induction l generalizing m with
  | nil => rfl
  | cons i l ih =>
    obtain ⟨hi, hrest⟩ := List.forall_mem_cons.1 h
    change scatter position value l (put position value m i) k = _
    rw [ih hrest, put_eq_overlay, overlay, written, if_neg hi]
    rfl

theorem scatter_self {l : List ι} {m : κ → α} (h : ∀ i ∈ l, ∀ v ∈ value i, v = m (position i)) :
    scatter position value l m = m := by
  induction l with
  | nil => rfl
  | cons i l ih =>
    obtain ⟨hi, hrest⟩ := List.forall_mem_cons.1 h
    have hput : put position value m i = m := by
      unfold put
      cases hv : value i with
      | none => rfl
      | some v =>
        dsimp only
        rw [hi v hv, Function.update_eq_self]
    change scatter position value l (put position value m i) = m
    rw [hput, ih hrest]

theorem scatter_congr {value' : ι → Option α} {l : List ι} (h : ∀ i ∈ l, value' i = value i) :
    scatter position value' l = scatter position value l := by
  funext m
  induction l generalizing m with
  | nil => rfl
  | cons i l ih =>
    obtain ⟨hi, hrest⟩ := List.forall_mem_cons.1 h
    change scatter position value' l (put position value' m i) =
      scatter position value l (put position value m i)
    rw [ih hrest, put, put, hi]

/-- A loop that comes to each cell at most once leaves there what the turn for it wrote. -/
theorem scatter_position {l : List ι} (hnodup : (l.map position).Nodup) {i : ι} (hi : i ∈ l)
    (m : κ → α) : scatter position value l m (position i) = (value i).getD (m (position i)) := by
  induction l generalizing m with
  | nil => exact absurd hi List.not_mem_nil
  | cons first l ih =>
    rw [List.map_cons, List.nodup_cons] at hnodup
    change scatter position value l (put position value m first) (position i) = _
    rcases List.mem_cons.1 hi with heq | hrest
    · have hne : ∀ j ∈ l, position i ≠ position j := by
        intro j hj hsame
        rw [heq] at hsame
        exact hnodup.1 (hsame ▸ List.mem_map_of_mem hj)
      rw [scatter_of_forall_ne hne, put_eq_overlay, overlay, written, if_pos (by rw [heq]), heq]
    · have hne : position i ≠ position first := by
        intro hsame
        exact hnodup.1 (hsame ▸ List.mem_map_of_mem hrest)
      rw [ih hnodup.2 hrest, put_eq_overlay, overlay, written, if_neg hne]
      rfl

theorem scatter_find {l : List ι} (hnodup : (l.map position).Nodup) (m : κ → α) (k : κ) :
    scatter position value l m k =
      match l.find? (position · = k) with
      | some i => (value i).getD (m k)
      | none => m k := by
  cases hfind : l.find? (position · = k) with
  | none =>
    apply scatter_of_forall_ne
    intro i hi hk
    have := List.find?_eq_none.1 hfind i hi
    exact this (decide_eq_true hk.symm)
  | some i =>
    have hk : position i = k := by simpa using List.find?_some hfind
    rw [← hk]
    exact scatter_position hnodup (List.mem_of_find?_eq_some hfind) m

end Loops

section Exchange
variable {ι κ σ α : Type} [DecidableEq κ] [DecidableEq σ] {position : ι → κ} {slot : ι → σ}

/-- One turn of a loop that saves the cell that it is about to write. -/
def exchange (position : ι → κ) (slot : ι → σ) (value : ι → Option α)
    (s : (σ → α) × (κ → α)) (i : ι) : (σ → α) × (κ → α) :=
  (Function.update s.1 (slot i) (s.2 (position i)), put position value s.2 i)

theorem foldl_exchange (value : ι → Option α) {l : List ι} (hnodup : (l.map position).Nodup)
    (saved : σ → α) (m : κ → α) : l.foldl (exchange position slot value) (saved, m) =
      (scatter slot (fun i => some (m (position i))) l saved, scatter position value l m) := by
  induction l generalizing saved m with
  | nil => rfl
  | cons i l ih =>
    rw [List.map_cons, List.nodup_cons] at hnodup
    have hkept : ∀ j ∈ l, put position value m i (position j) = m (position j) := by
      intro j hj
      have hne : position j ≠ position i := by
        intro hsame
        exact hnodup.1 (hsame ▸ List.mem_map_of_mem hj)
      rw [put_eq_overlay, overlay, written, if_neg hne]
      rfl
    have hsaved : scatter slot (fun j => some (put position value m i (position j))) l =
        scatter slot (fun j => some (m (position j))) l :=
      scatter_congr fun j hj => congrArg some (hkept j hj)
    rw [List.foldl_cons]
    change l.foldl _ (Function.update saved (slot i) (m (position i)), put position value m i) = _
    rw [ih hnodup.2, hsaved]
    rfl

theorem restore_exchange (value : ι → Option α) {l : List ι}
    (hpositions : (l.map position).Nodup) (hslots : (l.map slot).Nodup) (saved : σ → α)
    (m : κ → α) :
    scatter position
      (fun i => some (scatter slot (fun j => some (m (position j))) l saved (slot i))) l
      (scatter position value l m) = m := by
  funext k
  by_cases hk : ∃ i ∈ l, k = position i
  · obtain ⟨i, hi, rfl⟩ := hk
    rw [scatter_position hpositions hi, scatter_position hslots hi]
    rfl
  · push Not at hk
    rw [scatter_of_forall_ne hk, scatter_of_forall_ne hk]

end Exchange

end Rizzos.ScatteredWrites
