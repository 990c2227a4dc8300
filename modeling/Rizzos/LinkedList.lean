import Mathlib.Tactic

set_option autoImplicit false

/-!
# Doubly linked lists in a store

A node carries data and the addresses of its neighbours, `0` standing for none. The list
of addresses and data that the nodes spell out is related to the store by `Links`.
-/
namespace Rizzos.LinkedList

structure Node (δ : Type) where
  data : δ
  next : ℕ
  last : ℕ
deriving DecidableEq

variable {δ : Type}

/-- The address of the first element, `n` when there is none. -/
def first : List (ℕ × δ) → ℕ → ℕ
  | [], n => n
  | x :: _, _ => x.1

/-- The address of the final element, `p` when there is none. -/
def final (p : ℕ) : List (ℕ × δ) → ℕ
  | [] => p
  | x :: xs => final x.1 xs

/-- `xs` is linked both ways between a node at `p` and a node at `n`. -/
def Links (store : ℕ → Node δ) : ℕ → List (ℕ × δ) → ℕ → Prop
  | _, [], _ => True
  | p, x :: xs, n => store x.1 = ⟨x.2, first xs n, p⟩ ∧ Links store x.1 xs n

instance linksDecidable [DecidableEq δ] (store : ℕ → Node δ) :
    ∀ p xs n, Decidable (Links store p xs n)
  | _, [], _ => isTrue trivial
  | p, x :: xs, n =>
    have := linksDecidable store x.1 xs n
    inferInstanceAs (Decidable (store x.1 = ⟨x.2, first xs n, p⟩ ∧ Links store x.1 xs n))

@[simp] theorem first_append_cons (xs ys : List (ℕ × δ)) (y : ℕ × δ) (n : ℕ) :
    first (xs ++ y :: ys) n = first xs y.1 := by
  cases xs <;> rfl

@[simp] theorem final_append_cons (p : ℕ) (xs ys : List (ℕ × δ)) (y : ℕ × δ) :
    final p (xs ++ y :: ys) = final y.1 ys := by
  induction xs generalizing p with
  | nil => rfl
  | cons x xs ih => exact ih x.1

theorem final_mem (p : ℕ) (xs : List (ℕ × δ)) (h : xs ≠ []) : ∃ x ∈ xs, final p xs = x.1 := by
  induction xs generalizing p with
  | nil => exact absurd rfl h
  | cons x xs ih =>
    cases xs with
    | nil => exact ⟨x, by simp, rfl⟩
    | cons y ys =>
      obtain ⟨z, hz, e⟩ := ih x.1 (by simp)
      exact ⟨z, List.mem_cons_of_mem _ hz, e⟩

theorem first_mem (xs : List (ℕ × δ)) (n : ℕ) (h : xs ≠ []) : ∃ x ∈ xs, first xs n = x.1 := by
  cases xs with
  | nil => exact absurd rfl h
  | cons x xs => exact ⟨x, by simp, rfl⟩

theorem links_append {store : ℕ → Node δ} {p n : ℕ} {xs ys : List (ℕ × δ)} :
    Links store p (xs ++ ys) n ↔
      Links store p xs (first ys n) ∧ Links store (final p xs) ys n := by
  induction xs generalizing p with
  | nil => exact (iff_of_eq (true_and _)).symm
  | cons x xs ih =>
    have hfirst : first (xs ++ ys) n = first xs (first ys n) := by
      cases xs <;> rfl
    change store x.1 = ⟨x.2, first (xs ++ ys) n, p⟩ ∧ Links store x.1 (xs ++ ys) n ↔
      (store x.1 = ⟨x.2, first xs (first ys n), p⟩ ∧ Links store x.1 xs (first ys n)) ∧
        Links store (final x.1 xs) ys n
    rw [ih, hfirst, and_assoc]

theorem Links.node {store : ℕ → Node δ} {p n : ℕ} {xs ys : List (ℕ × δ)} {x : ℕ × δ}
    (h : Links store p (xs ++ x :: ys) n) :
    store x.1 = ⟨x.2, first ys n, final p xs⟩ := (links_append.1 h).2.1

theorem Links.congr {store store' : ℕ → Node δ} {p n : ℕ} {xs : List (ℕ × δ)}
    (h : Links store p xs n) (hs : ∀ x ∈ xs, store' x.1 = store x.1) : Links store' p xs n := by
  induction xs generalizing p with
  | nil => trivial
  | cons x xs ih =>
    exact ⟨(hs x (by simp)).trans h.1, ih h.2 fun y hy => hs y (by simp [hy])⟩

/-- What changes when another node precedes the list: the `last` field of its first node. -/
structure Relinked (store store' : ℕ → Node δ) (p : ℕ) (xs : List (ℕ × δ)) : Prop where
  head : ∀ x ∈ xs.head?, store' x.1 = { store x.1 with last := p }
  tail : ∀ x ∈ xs.tail, store' x.1 = store x.1

theorem Links.relink {store store' : ℕ → Node δ} {p q n : ℕ} {xs : List (ℕ × δ)}
    (h : Links store p xs n) (hr : Relinked store store' q xs) : Links store' q xs n := by
  cases xs with
  | nil => trivial
  | cons x xs =>
    refine ⟨?_, h.2.congr hr.tail⟩
    rw [hr.head x rfl, h.1]

theorem links_unique {store : ℕ → Node δ} {p q : ℕ} {xs ys : List (ℕ × δ)}
    (hx : Links store p xs 0) (hy : Links store q ys 0) (hfirst : first xs 0 = first ys 0)
    (hx0 : ∀ x ∈ xs, x.1 ≠ 0) (hy0 : ∀ y ∈ ys, y.1 ≠ 0) : xs = ys := by
  induction xs generalizing p q ys with
  | nil =>
    cases ys with
    | nil => rfl
    | cons y ys => exact absurd hfirst.symm (hy0 y (by simp))
  | cons x xs ih =>
    cases ys with
    | nil => exact absurd hfirst (hx0 x (by simp))
    | cons y ys =>
      have haddr : x.1 = y.1 := hfirst
      have hnode : (⟨x.2, first xs 0, p⟩ : Node δ) = ⟨y.2, first ys 0, q⟩ := by
        rw [← hx.1, ← hy.1, haddr]
      injection hnode with hdata hnext
      rw [Prod.ext haddr hdata, ih hx.2 hy.2 hnext (fun z hz => hx0 z (by simp [hz]))
        (fun z hz => hy0 z (by simp [hz]))]

section Edits
variable {store store' : ℕ → Node δ} {p n a b : ℕ} {xs ys : List (ℕ × δ)} {d d' e : δ}

theorem Links.setData (h : Links store p (xs ++ (a, d) :: ys) n)
    (ha : store' a = { store a with data := d' }) (hxs : ∀ x ∈ xs, store' x.1 = store x.1)
    (hys : ∀ y ∈ ys, store' y.1 = store y.1) : Links store' p (xs ++ (a, d') :: ys) n := by
  obtain ⟨hx, hnode, hy⟩ := links_append.1 h
  refine links_append.2 ⟨hx.congr hxs, ?_, hy.congr hys⟩
  rw [ha, hnode]

theorem Links.insertAfter (h : Links store p (xs ++ (a, d) :: ys) n)
    (ha : store' a = ⟨d', b, final p xs⟩) (hb : store' b = ⟨e, first ys n, a⟩)
    (hxs : ∀ x ∈ xs, store' x.1 = store x.1) (hys : Relinked store store' b ys) :
    Links store' p (xs ++ (a, d') :: (b, e) :: ys) n := by
  obtain ⟨hx, _, hy⟩ := links_append.1 h
  exact links_append.2 ⟨hx.congr hxs, ha, hb, hy.relink hys⟩

theorem Links.removeAfter (h : Links store p (xs ++ (a, d) :: (b, e) :: ys) n)
    (ha : store' a = ⟨d', first ys n, final p xs⟩) (hxs : ∀ x ∈ xs, store' x.1 = store x.1)
    (hys : Relinked store store' a ys) : Links store' p (xs ++ (a, d') :: ys) n := by
  obtain ⟨hx, _, _, hy⟩ := links_append.1 h
  exact links_append.2 ⟨hx.congr hxs, ha, hy.relink hys⟩

end Edits

/-- The addresses met by following `next` from `start`. -/
inductive Reachable (store : ℕ → Node δ) (start : ℕ) : ℕ → Prop
  | start : Reachable store start start
  | next {a : ℕ} (h : Reachable store start a) (hnext : (store a).next ≠ 0) :
      Reachable store start (store a).next

/-- Following `next` from the first node stays in the list. -/
theorem Links.reachable {store : ℕ → Node δ} {p : ℕ} {xs : List (ℕ × δ)}
    (h : Links store p xs 0) (hne : xs ≠ []) {a : ℕ} (ha : Reachable store (first xs 0) a) :
    ∃ x ∈ xs, a = x.1 := by
  induction ha with
  | start => exact first_mem xs 0 hne
  | next _ hnext ih =>
    obtain ⟨x, hx, rfl⟩ := ih
    obtain ⟨l, r, rfl⟩ := List.append_of_mem hx
    rw [h.node] at hnext ⊢
    cases r with
    | nil => exact absurd rfl hnext
    | cons y r => exact ⟨y, by simp, rfl⟩

end Rizzos.LinkedList
