import Mathlib.Tactic

set_option autoImplicit false

/-!
# Numerals

The digits of a number, the lowest first, in as many places as are asked for; and separators
between groups of them, counted from the lowest.
-/
namespace Rizzos.Numerals

section Places
variable {b : ℕ}

def places (b : ℕ) : ℕ → ℕ → List ℕ
  | 0, _ => []
  | k + 1, n => n % b :: places b k (n / b)

/-- The number of digits that a number is written with, one for zero. -/
def digitCount (b n : ℕ) : ℕ := Nat.log b n + 1

@[simp] theorem places_length (k n : ℕ) : (places b k n).length = k := by
  induction k generalizing n with
  | zero => rfl
  | succ k ih => simp [places, ih]

theorem places_add (j k n : ℕ) : places b (j + k) n = places b j n ++ places b k (n / b ^ j) := by
  induction j generalizing n with
  | zero => simp [places]
  | succ j ih => rw [Nat.add_right_comm, places, ih, places, Nat.div_div_eq_div_mul, pow_succ']; rfl

theorem places_mod {j k : ℕ} (h : k ≤ j) (n : ℕ) : places b k (n % b ^ j) = places b k n := by
  induction k generalizing j n with
  | zero => rfl
  | succ k ih =>
    obtain ⟨j, rfl⟩ : ∃ i, j = i + 1 := ⟨j - 1, by omega⟩
    rw [places, places, pow_succ', Nat.mod_mul_right_mod, Nat.mod_mul_right_div_self,
      ih (by omega)]

theorem mem_places_lt (hb : 0 < b) {k n d : ℕ} (h : d ∈ places b k n) : d < b := by
  induction k generalizing n with
  | zero => cases h
  | succ k ih =>
    rcases List.mem_cons.1 h with rfl | h
    · exact Nat.mod_lt n hb
    · exact ih h

theorem ofDigits_places (k n : ℕ) : Nat.ofDigits b (places b k n) = n % b ^ k := by
  induction k generalizing n with
  | zero => simp [places, Nat.mod_one]
  | succ k ih => rw [places, Nat.ofDigits_cons, ih, pow_succ', Nat.mod_mul]

theorem ofDigits_places_of_lt {k n : ℕ} (h : n < b ^ k) : Nat.ofDigits b (places b k n) = n := by
  rw [ofDigits_places, Nat.mod_eq_of_lt h]

theorem lt_pow_digitCount (hb : 1 < b) (n : ℕ) : n < b ^ digitCount b n :=
  Nat.lt_pow_succ_log_self hb n

theorem digitCount_of_lt {n : ℕ} (h : n < b) : digitCount b n = 1 := by
  rw [digitCount, Nat.log_of_lt h]

theorem digitCount_of_le {n : ℕ} (hb : 1 < b) (h : b ≤ n) :
    digitCount b n = digitCount b (n / b) + 1 := by
  rw [digitCount, digitCount, Nat.log_of_one_lt_of_le hb h]

theorem digitCount_le_iff (hb : 1 < b) {k n : ℕ} (hk : 0 < k) : digitCount b n ≤ k ↔ n < b ^ k := by
  rcases Nat.eq_zero_or_pos n with rfl | hn
  · exact iff_of_true (by rwa [digitCount, Nat.log_zero_right]) (Nat.pow_pos (by omega))
  · rw [digitCount, Nat.succ_le_iff, Nat.log_lt_iff_lt_pow hb (by omega)]

end Places

section Separators
variable {α : Type}

/-- A list with a separator in front of each item that has `g` items behind the last one, where
    `c` items stand there already. -/
def separateFrom (g : ℕ) (sep : α) : ℕ → List α → List α
  | _, [] => []
  | c, d :: ds => if c = g then sep :: d :: separateFrom g sep 1 ds
    else d :: separateFrom g sep (c + 1) ds

def separate (g : ℕ) (sep : α) (ds : List α) : List α := separateFrom g sep 0 ds

variable {g : ℕ} {sep : α}

theorem separateFrom_full (hg : 0 < g) {ds : List α} (h : ds ≠ []) :
    separateFrom g sep g ds = sep :: separateFrom g sep 0 ds := by
  cases ds with
  | nil => exact absurd rfl h
  | cons d ds => rw [separateFrom, separateFrom, if_pos rfl, if_neg hg.ne]

theorem filterMap_separateFrom {β : Type} {f : α → Option β} (h : f sep = none) (c : ℕ)
    (ds : List α) : (separateFrom g sep c ds).filterMap f = ds.filterMap f := by
  induction ds generalizing c with
  | nil => rfl
  | cons d ds ih =>
    rw [separateFrom]
    split <;> simp [List.filterMap_cons, h, ih]

theorem mem_separateFrom {c : ℕ} {ds : List α} {d : α} (h : d ∈ separateFrom g sep c ds) :
    d = sep ∨ d ∈ ds := by
  induction ds generalizing c with
  | nil => cases h
  | cons e ds ih =>
    rw [separateFrom] at h
    split at h
    · simp only [List.mem_cons] at h ⊢
      rcases h with h | h | h
      · exact .inl h
      · exact .inr (.inl h)
      · exact (ih h).imp_right .inr
    · rcases List.mem_cons.1 h with h | h
      · exact .inr (List.mem_cons.2 (.inl h))
      · exact (ih h).imp_right (List.mem_cons_of_mem e)

theorem length_separateFrom (hg : 0 < g) {c : ℕ} (hc : c ≤ g) (ds : List α) :
    (separateFrom g sep c ds).length = ds.length + (c + ds.length - 1) / g := by
  induction ds generalizing c with
  | nil =>
    have : (c - 1) / g = 0 := Nat.div_eq_of_lt (by omega)
    simpa [separateFrom] using this.symm
  | cons d ds ih =>
    rw [separateFrom]
    split
    · rename_i heq
      have hdiv : (g + (ds.length + 1) - 1) / g = ds.length / g + 1 := by
        rw [show g + (ds.length + 1) - 1 = ds.length + g by omega, Nat.add_div_right _ hg]
      rw [List.length_cons, List.length_cons, ih hg, List.length_cons, heq, hdiv,
        Nat.add_sub_cancel_left]
      omega
    · rw [List.length_cons, ih (by omega), List.length_cons, Nat.add_assoc c 1, Nat.add_comm 1]
      omega

/-- How many items come to a length of at least `p`, with the separators between them. -/
theorem le_add_div_iff {g : ℕ} (hg : 0 < g) {p j : ℕ} (hj : 0 < j) :
    p ≤ j + (j - 1) / g ↔ p - (p - 1) / (g + 1) ≤ j := by
  rcases Nat.eq_zero_or_pos p with rfl | hp
  · simp
  obtain ⟨q, t, ht, hjq⟩ : ∃ q t, t < g ∧ j - 1 = g * q + t :=
    ⟨(j - 1) / g, (j - 1) % g, Nat.mod_lt _ hg, (Nat.div_add_mod _ _).symm⟩
  obtain ⟨u, v, hv, hpu⟩ : ∃ u v, v < g + 1 ∧ p - 1 = (g + 1) * u + v :=
    ⟨(p - 1) / (g + 1), (p - 1) % (g + 1), Nat.mod_lt _ (Nat.succ_pos g),
      (Nat.div_add_mod _ _).symm⟩
  have hdivj : (j - 1) / g = q := by
    rw [hjq, Nat.mul_add_div hg, Nat.div_eq_of_lt ht, Nat.add_zero]
  have hdivp : (p - 1) / (g + 1) = u := by
    rw [hpu, Nat.mul_add_div (Nat.succ_pos g), Nat.div_eq_of_lt hv, Nat.add_zero]
  rw [hdivj, hdivp]
  have hexp : (g + 1) * u = g * u + u := Nat.succ_mul g u
  rcases Nat.lt_trichotomy u q with h | h | h
  · have : g * (u + 1) ≤ g * q := Nat.mul_le_mul_left g h
    rw [Nat.mul_succ] at this
    omega
  · subst h
    omega
  · have : g * (q + 1) ≤ g * u := Nat.mul_le_mul_left g h
    rw [Nat.mul_succ] at this
    omega

end Separators

end Rizzos.Numerals
