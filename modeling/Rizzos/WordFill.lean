import Rizzos.ByteMemory

set_option autoImplicit false

/-!
# Loops that fill memory word by word

The loop counts bytes in 64 bits and goes up by the size of a word. It stores whole words, so it
fills a range of bytes exactly when no word reaches behind the range, or what lies there is what
the loop writes. It does not end when the counter wraps before it has reached the range's length.
-/
namespace Rizzos.WordFill
open ByteMemory

def wordByte (value i : ℕ) : Byte := BitVec.ofNat 8 (value / 256 ^ i)

section Loop
variable (size start value num : ℕ)

/-- `for (i = 0; i < num; i += size)`, from the counter `i` on, with the store of a word at
    `start + i` as its body. There is no result without enough fuel. -/
def fillLoop : ℕ → ℕ → Mem → Option Mem
  | 0, _, _ => none
  | fuel + 1, i, m =>
    if i < num then fillLoop fuel (wrap (i + size)) (storeLE m (start + i) size value) else some m

def fillWords : ℕ → Mem → Mem
  | 0, m => m
  | n + 1, m => storeLE (fillWords n m) (start + n * size) size value

def wordCount : ℕ := (num + size - 1) / size

/-- The run ends and leaves the word in the range, over and over, and all else as it was. -/
def FillsExactly (run : ℕ → Option Mem) (m : Mem) : Prop :=
  ∃ fuel m', run fuel = some m' ∧
    (∀ k < num, m' (wrap (start + k)) = wordByte value (k % size)) ∧
    ∀ x, Outside x start num → m' x = m x

/-- The counter does not wrap, and the bytes of the last word that lie behind the range hold
    what the loop writes to them. There are none if the size divides the length. -/
def TailFits (m : Mem) : Prop :=
  num + size ≤ 2 ^ 64 ∧ ∀ k, num ≤ k → k < wordCount size num * size →
    m (wrap (start + k)) = wordByte value (k % size)

end Loop

section Stores

theorem storeLE_apply (m : Mem) (a value : ℕ) {n i : ℕ} (hi : i < n) (hn : n ≤ 2 ^ 64) :
    storeLE m a n value (wrap (a + i)) = wordByte value i := by
  induction n generalizing m a i value with
  | zero => exact absurd hi (Nat.not_lt_zero i)
  | succ n ih =>
    rw [storeLE]
    cases i with
    | zero =>
      rw [storeLE_outside]
      · rw [wordByte, pow_zero, Nat.div_one]
        exact load8_store8 m a _
      · intro j hj
        simp only [wrap]
        omega
    | succ i =>
      rw [show a + (i + 1) = a + 1 + i by omega, ih _ _ _ (by omega) (by omega), wordByte, wordByte,
        Nat.div_div_eq_div_mul, pow_succ' 256]

end Stores

section Words
variable {size start value num : ℕ}

theorem fillWords_outside {n x : ℕ} (m : Mem) (h : Outside x start (n * size)) :
    fillWords size start value n m x = m x := by
  induction n with
  | zero => rfl
  | succ n ih =>
    have hsucc : (n + 1) * size = n * size + size := Nat.succ_mul n size
    rw [fillWords, storeLE_outside _ _ (h.part hsucc.ge), ih]
    intro i hi
    exact h i (by omega)

theorem fillWords_apply (hsize : 0 < size) {n k : ℕ} (m : Mem) (hk : k < n * size)
    (hn : n * size ≤ 2 ^ 64) :
    fillWords size start value n m (wrap (start + k)) = wordByte value (k % size) := by
  induction n with
  | zero => omega
  | succ n ih =>
    have hsucc : (n + 1) * size = n * size + size := Nat.succ_mul n size
    rw [fillWords]
    by_cases hlast : n * size ≤ k
    · have hrest : k % size = k - n * size := by
        rw [show k = k - n * size + n * size by omega, Nat.add_mul_mod_self_right,
          Nat.mod_eq_of_lt (by omega), Nat.add_sub_cancel]
      rw [hrest, show start + k = start + n * size + (k - n * size) by omega]
      exact storeLE_apply _ _ _ (by omega) (by omega)
    · rw [storeLE_outside]
      · exact ih (by omega) (by omega)
      · intro j hj
        simp only [wrap]
        omega

theorem wordCount_bounds (hsize : 0 < size) (num : ℕ) :
    num ≤ wordCount size num * size ∧ wordCount size num * size < num + size := by
  have hdiv := Nat.div_add_mod (num + size - 1) size
  have hmod := Nat.mod_lt (num + size - 1) hsize
  unfold wordCount
  rw [Nat.mul_comm]
  omega

theorem wordCount_of_dvd (hsize : 0 < size) (h : size ∣ num) :
    wordCount size num * size = num := by
  obtain ⟨c, rfl⟩ := h
  have hcount : wordCount size (size * c) = c := by
    apply Nat.div_eq_of_lt_le
    · rw [Nat.mul_comm]
      omega
    · rw [Nat.succ_mul, Nat.mul_comm]
      omega
  rw [hcount, Nat.mul_comm]

variable (start value) in
theorem fillLoop_words (hsize : 0 < size) (hroom : num + size ≤ 2 ^ 64) (m : Mem) (fuel : ℕ) {k : ℕ}
    (hk : k ≤ wordCount size num) :
    fillLoop size start value num fuel (k * size) (fillWords size start value k m) =
      if wordCount size num - k < fuel then
        some (fillWords size start value (wordCount size num) m) else none := by
  obtain ⟨hle, hlt⟩ := wordCount_bounds hsize num
  induction fuel generalizing k with
  | zero => rfl
  | succ fuel ih =>
    have hsucc : (k + 1) * size = k * size + size := Nat.succ_mul k size
    rw [fillLoop]
    by_cases hmore : k < wordCount size num
    · have hnext : (k + 1) * size ≤ wordCount size num * size := Nat.mul_le_mul_right _ hmore
      have hleft : wordCount size num - (k + 1) < fuel ↔ wordCount size num - k < fuel + 1 := by
        omega
      rw [if_pos (by omega), wrap_of_lt (by omega), ← hsucc, ← if_congr hleft rfl rfl]
      exact ih hmore
    · have hend : k = wordCount size num := by omega
      rw [hend, if_neg (by omega), if_pos (by omega)]

/-- The counter wraps to a smaller multiple of the size, and the loop never ends. -/
theorem fillLoop_wraps (hdvd : size ∣ 2 ^ 64) (hfull : 2 ^ 64 < num + size) (fuel : ℕ)
    {i : ℕ} (hi : size ∣ i) (hlt : i < 2 ^ 64) (m : Mem) :
    fillLoop size start value num fuel i m = none := by
  induction fuel generalizing i m with
  | zero => rfl
  | succ fuel ih =>
    have hgap : size ≤ 2 ^ 64 - i :=
      Nat.le_of_dvd (by omega) ((Nat.dvd_sub_iff_right hlt.le hdvd).2 hi)
    rw [fillLoop, if_pos (by omega)]
    apply ih
    · exact (Nat.dvd_mod_iff hdvd).2 (Nat.dvd_add_self_right.2 hi)
    · exact wrap_lt _

theorem fillLoop_eq (hsize : 0 < size) (hroom : num + size ≤ 2 ^ 64) (fuel : ℕ) (m : Mem) :
    fillLoop size start value num fuel 0 m =
      if wordCount size num < fuel then
        some (fillWords size start value (wordCount size num) m) else none := by
  have h := fillLoop_words start value hsize hroom m fuel (Nat.zero_le _)
  rwa [Nat.zero_mul, Nat.sub_zero] at h

theorem outside_of_le {k : ℕ} (hle : num ≤ k) (hk : k < 2 ^ 64) :
    Outside (wrap (start + k)) start num := by
  intro i hi
  simp only [wrap]
  omega

/-- The whole words leave the range filled; outside of it they leave what was there exactly when
    the tail of the last word is that already. -/
theorem fillWords_exact_iff (hsize : 0 < size) (hroom : num + size ≤ 2 ^ 64) (m : Mem) :
    (∀ x, Outside x start num →
        fillWords size start value (wordCount size num) m x = m x) ↔
      ∀ k, num ≤ k → k < wordCount size num * size →
        m (wrap (start + k)) = wordByte value (k % size) := by
  obtain ⟨hle, hlt⟩ := wordCount_bounds hsize num
  constructor
  · intro h k hk hkt
    rw [← h _ (outside_of_le hk (by omega))]
    exact fillWords_apply hsize m hkt (by omega)
  · intro htail x hx
    by_cases hword : ∃ k < wordCount size num * size, x = wrap (start + k)
    · obtain ⟨k, hkt, rfl⟩ := hword
      have hk : num ≤ k := by
        by_contra hlow
        exact hx k (by omega) rfl
      rw [fillWords_apply hsize m hkt (by omega), htail k hk hkt]
    · push Not at hword
      exact fillWords_outside m hword

theorem fillsExactly_iff (hsize : 0 < size) (hdvd : size ∣ 2 ^ 64) (m : Mem) :
    FillsExactly size start value num (fun fuel => fillLoop size start value num fuel 0 m) m ↔
      TailFits size start value num m := by
  by_cases hroom : num + size ≤ 2 ^ 64
  · obtain ⟨hle, hlt⟩ := wordCount_bounds hsize num
    rw [TailFits, and_iff_right hroom, ← fillWords_exact_iff hsize hroom]
    constructor
    · rintro ⟨fuel, m', hrun, _, hkept⟩
      dsimp only at hrun
      rw [fillLoop_eq hsize hroom] at hrun
      split at hrun
      · rwa [Option.some.inj hrun]
      · cases hrun
    · intro hkept
      refine ⟨wordCount size num + 1, fillWords size start value (wordCount size num) m, ?_, ?_,
        hkept⟩
      · exact (fillLoop_eq hsize hroom _ m).trans (if_pos (Nat.lt_succ_self _))
      · intro k hk
        exact fillWords_apply hsize m (by omega) (by omega)
  · apply iff_of_false
    · rintro ⟨fuel, m', hrun, _⟩
      dsimp only at hrun
      rw [fillLoop_wraps hdvd (by omega) fuel (Nat.dvd_zero _) (by decide)] at hrun
      cases hrun
    · exact fun h => hroom h.1

theorem tailFits_of_dvd (hsize : 0 < size) (hdvd : size ∣ 2 ^ 64) (h : size ∣ num)
    (hnum : num < 2 ^ 64) (m : Mem) : TailFits size start value num m := by
  constructor
  · have hgap : size ≤ 2 ^ 64 - num :=
      Nat.le_of_dvd (by omega) ((Nat.dvd_sub_iff_right hnum.le hdvd).2 h)
    omega
  · intro k hle hlt
    rw [wordCount_of_dvd hsize h] at hlt
    omega

end Words

end Rizzos.WordFill
