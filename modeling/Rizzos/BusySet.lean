import Mathlib.Tactic
import Mathlib.Order.Bounds.Basic
import Mathlib.Data.Set.Basic

set_option autoImplicit false

/-!
# Lowest-free allocation of indices

An allocator of the indices below `n` is the set `B` of those that are busy. A
request takes the least free index; locking and freeing add and remove sets.
-/
namespace Rizzos.BusySet
open Classical

noncomputable section

def lowest (n : ℕ) (B : Set ℕ) : Option ℕ :=
  if h : ∃ i, i < n ∧ i ∉ B then some (Nat.find h) else none

theorem lowest_eq_some_iff {n i : ℕ} {B : Set ℕ} :
    lowest n B = some i ↔ IsLeast {j | j < n ∧ j ∉ B} i := by
  unfold lowest
  split
  · rename_i h
    have hleast : IsLeast {j | j < n ∧ j ∉ B} (Nat.find h) :=
      ⟨Nat.find_spec h, fun j hj => Nat.find_min' h hj⟩
    rw [Option.some_inj]
    exact ⟨fun e => e ▸ hleast, fun hi => hleast.unique hi⟩
  · rename_i h
    simp only [reduceCtorEq, false_iff]
    exact fun hi => h ⟨i, hi.1⟩

theorem lowest_eq_none_iff {n : ℕ} {B : Set ℕ} : lowest n B = none ↔ ∀ j < n, j ∈ B := by
  unfold lowest
  split
  · rename_i h
    simp only [reduceCtorEq, false_iff]
    obtain ⟨i, hi, hb⟩ := h
    exact fun hall => hb (hall i hi)
  · rename_i h
    simp only [true_iff]
    exact fun j hj => by_contra fun hb => h ⟨j, hj, hb⟩

inductive Op where
  | request
  | lock (I : Set ℕ)
  | free (I : Set ℕ)

def step (n : ℕ) (B : Set ℕ) : Op → Option ℕ × Set ℕ
  | .request => (lowest n B, B ∪ {i | lowest n B = some i})
  | .lock I => (none, B ∪ I)
  | .free I => (none, B \ I)

def run (n : ℕ) (B : Set ℕ) : List Op → List (Option ℕ) × Set ℕ
  | [] => ([], B)
  | op :: ops => ((step n B op).1 :: (run n (step n B op).2 ops).1, (run n (step n B op).2 ops).2)

def after (n : ℕ) (B : Set ℕ) : ℕ → Set ℕ
  | 0 => B
  | k + 1 => (step n (after n B k) .request).2

def freeBelow (B : Set ℕ) (i : ℕ) : ℕ := ((Finset.range i).filter (· ∉ B)).card

theorem freeBelow_succ (B : Set ℕ) (i : ℕ) :
    freeBelow B (i + 1) = freeBelow B i + if i ∈ B then 0 else 1 := by
  unfold freeBelow
  rw [Finset.range_add_one, Finset.filter_insert]
  by_cases h : i ∈ B
  · simp [h]
  · simp [h, Finset.card_insert_of_notMem]

theorem freeBelow_mono {B : Set ℕ} {i j : ℕ} (h : i ≤ j) : freeBelow B i ≤ freeBelow B j := by
  induction j, h using Nat.le_induction with
  | base => exact le_rfl
  | succ j _ ih =>
    rw [freeBelow_succ]
    omega

theorem freeBelow_lt {B : Set ℕ} {i j : ℕ} (h : i < j) (hi : i ∉ B) :
    freeBelow B i < freeBelow B j := by
  have hs := freeBelow_succ B i
  have hm := freeBelow_mono (B := B) (show i + 1 ≤ j from h)
  rw [if_neg hi] at hs
  omega

theorem freeBelow_insert {B : Set ℕ} {n i : ℕ} (hi : i < n) (hB : i ∉ B) :
    freeBelow B n = freeBelow (B ∪ {i}) n + 1 := by
  have hinsert : (Finset.range n).filter (· ∉ B) =
      insert i ((Finset.range n).filter (· ∉ B ∪ {i})) := by
    ext j
    simp only [Finset.mem_insert, Finset.mem_filter, Finset.mem_range, Set.mem_union,
      Set.mem_singleton_iff, not_or]
    constructor
    · rintro ⟨hj, hjB⟩
      by_cases hji : j = i
      · exact .inl hji
      · exact .inr ⟨hj, hjB, hji⟩
    · rintro (rfl | ⟨hj, hjB, _⟩)
      · exact ⟨hi, hB⟩
      · exact ⟨hj, hjB⟩
  rw [freeBelow, hinsert, Finset.card_insert_of_notMem (by simp), freeBelow]
  congr!

theorem exists_freeBelow_eq {B : Set ℕ} {i k : ℕ} (h : k < freeBelow B i) :
    ∃ j < i, j ∉ B ∧ freeBelow B j = k := by
  induction i with
  | zero => simp [freeBelow] at h
  | succ i ih =>
    rw [freeBelow_succ] at h
    by_cases hk : k < freeBelow B i
    · obtain ⟨j, hj, hjB⟩ := ih hk
      exact ⟨j, by omega, hjB⟩
    · by_cases hi : i ∈ B
      · rw [if_pos hi] at h
        omega
      · rw [if_neg hi] at h
        exact ⟨i, by omega, hi, by omega⟩

/-- `k` requests take the `k` lowest free indices and no others. -/
theorem notMem_after_iff {n : ℕ} {B : Set ℕ} (k i : ℕ) (hi : i < n) :
    i ∉ after n B k ↔ i ∉ B ∧ k ≤ freeBelow B i := by
  induction k generalizing i with
  | zero => simp [after]
  | succ k ih =>
    simp only [after, step, Set.mem_union, Set.mem_ofPred_eq, not_or, ih i hi, lowest_eq_some_iff]
    constructor
    · rintro ⟨⟨hB, hk⟩, hl⟩
      refine ⟨hB, ?_⟩
      by_contra hlt
      refine hl ⟨⟨hi, (ih i hi).2 ⟨hB, hk⟩⟩, ?_⟩
      rintro j ⟨hj, hja⟩
      by_contra hij
      have hjk := (ih j hj).1 hja
      have := freeBelow_lt (B := B) (show j < i by omega) hjk.1
      omega
    · rintro ⟨hB, hk⟩
      refine ⟨⟨hB, by omega⟩, fun hl => ?_⟩
      -- the free index with `k` free ones below it is still free, and lower than `i`
      obtain ⟨j, hj, hjB, hjk⟩ := exists_freeBelow_eq (show k < freeBelow B i by omega)
      have := hl.2 ⟨by omega, (ih j (by omega)).2 ⟨hjB, by omega⟩⟩
      omega

theorem returned_iff {n : ℕ} {B : Set ℕ} (i : ℕ) :
    (∃ k, lowest n (after n B k) = some i) ↔ i < n ∧ i ∉ B := by
  simp only [lowest_eq_some_iff]
  constructor
  · rintro ⟨k, ⟨hi, hk⟩, _⟩
    exact ⟨hi, ((notMem_after_iff k i hi).1 hk).1⟩
  · rintro ⟨hi, hB⟩
    refine ⟨freeBelow B i, ⟨hi, (notMem_after_iff _ i hi).2 ⟨hB, le_rfl⟩⟩, ?_⟩
    rintro j ⟨hj, hja⟩
    by_contra hij
    have hjk := (notMem_after_iff _ j hj).1 hja
    have := freeBelow_lt (B := B) (show j < i by omega) hjk.1
    omega

/-- The index that the request after `k` others takes has exactly `k` free ones below it. -/
theorem lowest_after_eq_some {n k i : ℕ} {B : Set ℕ} (h : lowest n (after n B k) = some i) :
    i < n ∧ i ∉ B ∧ freeBelow B i = k := by
  obtain ⟨⟨hi, hia⟩, hleast⟩ := lowest_eq_some_iff.1 h
  obtain ⟨hB, hk⟩ := (notMem_after_iff k i hi).1 hia
  refine ⟨hi, hB, ?_⟩
  by_contra hne
  obtain ⟨j, hj, hjB, hjk⟩ := exists_freeBelow_eq (show k < freeBelow B i by omega)
  have := hleast ⟨by omega, (notMem_after_iff k j (by omega)).2 ⟨hjB, by omega⟩⟩
  omega

theorem lowest_after_isSome_iff {n : ℕ} {B : Set ℕ} (k : ℕ) :
    (lowest n (after n B k)).isSome ↔ k < freeBelow B n := by
  constructor
  · intro h
    obtain ⟨i, hi⟩ := Option.isSome_iff_exists.1 h
    obtain ⟨⟨hin, hia⟩, _⟩ := lowest_eq_some_iff.1 hi
    obtain ⟨hB, hk⟩ := (notMem_after_iff k i hin).1 hia
    exact hk.trans_lt (freeBelow_lt hin hB)
  · intro h
    obtain ⟨j, hj, hjB, hjk⟩ := exists_freeBelow_eq h
    by_contra hnone
    have hall := lowest_eq_none_iff.1 (Option.not_isSome_iff_eq_none.1 hnone)
    exact (notMem_after_iff k j hj).2 ⟨hjB, by omega⟩ (hall j hj)

end

end Rizzos.BusySet
