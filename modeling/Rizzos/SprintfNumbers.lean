import Rizzos.Numerals
import Rizzos.StbSprintf

set_option autoImplicit false

/-! The texts of numbers that the loops of `lib/stb_sprintf.h` write. -/
namespace Rizzos.SprintfNumbers
open ByteMemory CInt Numerals StbSprintf

def decimalChar (d : ℕ) : Byte := BitVec.ofNat 8 (d + 48)

/-- Digits, the lowest one first, with or without a comma behind each group. -/
def grouped (commas : Bool) (g : ℕ) (ds : List Byte) : List Byte :=
  if commas then separate g comma ds else ds

def numeral (char : ℕ → Byte) (commas : Bool) (g b k n : ℕ) : List Byte :=
  (grouped commas g ((places b k n).map char)).reverse

theorem numeral_length {g : ℕ} (hg : 0 < g) (char : ℕ → Byte) (commas : Bool) (b k n : ℕ) :
    (numeral char commas g b k n).length = k + if commas then (k - 1) / g else 0 := by
  cases commas with
  | false => simp [numeral, grouped]
  | true => simp [numeral, grouped, separate, length_separateFrom hg (Nat.zero_le g)]

/-! ### Decimal numbers -/

section Decimal
variable {fl : Flags}

def putDigits (fl : Flags) (t : Digits) (ds : List ℕ) : Digits :=
  ds.foldl (fun t d => putDigit fl d t) t

theorem putDigits_append (t : Digits) (ds es : List ℕ) :
    putDigits fl t (ds ++ es) = putDigits fl (putDigits fl t ds) es :=
  List.foldl_append

theorem putDigits_room (t : Digits) (ds : List ℕ) :
    (putDigits fl t ds).room = t.room - ds.length := by
  induction ds generalizing t with
  | nil => rfl
  | cons d ds ih =>
    have hroom : (putDigit fl d t).room = t.room - 1 := by
      unfold putDigit
      split
      · split <;> rfl
      · rfl
    rw [putDigits, List.foldl_cons, ← putDigits, ih, hroom, List.length_cons]
    omega

theorem putDigits_s (t : Digits) (ds : List ℕ) : (putDigits fl t ds).s =
    (if fl.tripletComma then separateFrom 3 comma t.l (ds.map decimalChar)
      else ds.map decimalChar).reverse ++ t.s := by
  induction ds generalizing t with
  | nil => cases h : fl.tripletComma <;> rfl
  | cons d ds ih =>
    rw [putDigits, List.foldl_cons, ← putDigits, ih]
    cases hfl : fl.tripletComma with
    | false => simp [putDigit, hfl, decimalChar]
    | true =>
      by_cases hl : t.l = 3
      · simp [putDigit, hfl, hl, separateFrom, decimalChar]
      · simp [putDigit, hfl, hl, separateFrom, decimalChar]

theorem putDigits_s_room (t : Digits) (room : ℕ) (ds : List ℕ) :
    (putDigits fl { t with room := room } ds).s = (putDigits fl t ds).s := by
  rw [putDigits_s, putDigits_s]

theorem digitPairs_get : ∀ k < 100, digitPairs.getD (k * 2) 0 = decimalChar (k / 10) ∧
    digitPairs.getD (k * 2 + 1) 0 = decimalChar (k % 10) := by
  decide +kernel

theorem digitCount_hundred (n : ℕ) : digitCount 100 n =
    if n / 100 = 0 then 1 else digitCount 100 (n / 100) + 1 := by
  split
  · exact digitCount_of_lt (by omega)
  · exact digitCount_of_le (by decide) (by omega)

theorem pairsLoop_eq (hfl : fl.tripletComma = false) {fuel n : ℕ} (hfuel : digitCount 100 n ≤ fuel)
    (t : Digits) : pairsLoop fuel n t = putDigits fl t (places 10 (2 * digitCount 100 n) n) := by
  induction fuel generalizing n t with
  | zero => simp [digitCount] at hfuel
  | succ fuel ih =>
    obtain ⟨hhigh, hlow⟩ := digitPairs_get (n % 100) (Nat.mod_lt n (by decide))
    have hpair : (⟨digitPairs.getD (n % 100 * 2) 0 :: digitPairs.getD (n % 100 * 2 + 1) 0 :: t.s,
        t.l, t.room - 2⟩ : Digits) = putDigits fl t [n % 10, n / 10 % 10] := by
      rw [hhigh, hlow, Nat.mod_mod_of_dvd n (by decide), show n % 100 / 10 = n / 10 % 10 by omega]
      simp [putDigits, putDigit, hfl, decimalChar, Nat.sub_sub]
    rw [pairsLoop, hpair]
    rw [digitCount_hundred] at hfuel ⊢
    split
    · rfl
    · rename_i hmore
      rw [if_neg hmore] at hfuel
      rw [ih (by omega), ← putDigits_append, Nat.mul_succ, Nat.add_comm _ 2, places_add]
      simp [places]

theorem digitsLoop_eq {fuel n : ℕ} (hn : 0 < n) (hfuel : digitCount 10 n ≤ fuel) (t : Digits) :
    digitsLoop fl fuel n t = putDigits fl t (places 10 (digitCount 10 n) n) := by
  induction fuel generalizing n t with
  | zero => simp [digitCount] at hfuel
  | succ fuel ih =>
    rw [digitsLoop, if_neg (by omega)]
    by_cases hlt : n < 10
    · have hdone : digitsLoop fl fuel (n / 10) (putDigit fl (n % 10) t) =
          putDigit fl (n % 10) t := by
        rw [Nat.div_eq_of_lt hlt]
        cases fuel <;> simp [digitsLoop]
      rw [hdone, digitCount_of_lt hlt]
      rfl
    · rw [digitCount_of_le (by decide) (by omega)] at hfuel ⊢
      rw [ih (by omega) (by omega)]
      rfl

theorem zerosLoop_eq (room : ℕ) (t : Digits) :
    zerosLoop fl room t = putDigits fl t (places 10 room 0) := by
  induction room generalizing t with
  | zero => rfl
  | succ room ih =>
    rw [zerosLoop, ih]
    rfl

/-- What the first two loops of a part write, in digits enough for it. -/
def partDigits (fl : Flags) (n : ℕ) : ℕ :=
  if fl.tripletComma then if n = 0 then 0 else digitCount 10 n else 2 * digitCount 100 n

theorem partDigits_spec (fl : Flags) {n : ℕ} (hn : n < 10 ^ 8) :
    partDigits fl n ≤ 8 ∧ n < 10 ^ partDigits fl n := by
  unfold partDigits
  split
  · split
    · rename_i hzero
      simp [hzero]
    · exact ⟨(digitCount_le_iff (by decide) (by decide)).2 hn, lt_pow_digitCount (by decide) n⟩
  · have hcount : digitCount 100 n ≤ 4 := (digitCount_le_iff (by decide) (by decide)).2 hn
    have hlt := lt_pow_digitCount (b := 100) (by decide) n
    rw [show (100 : ℕ) = 10 ^ 2 by rfl, ← pow_mul] at hlt
    exact ⟨by omega, hlt⟩

theorem part_eq (fl : Flags) {n : ℕ} (hn : n < 10 ^ 8) (t : Digits) :
    (if fl.tripletComma then digitsLoop fl 10 n t else pairsLoop 5 n t) =
      putDigits fl t (places 10 (partDigits fl n) n) := by
  unfold partDigits
  cases hfl : fl.tripletComma with
  | false =>
    have hcount : digitCount 100 n ≤ 4 := (digitCount_le_iff (by decide) (by decide)).2 hn
    simpa using pairsLoop_eq hfl (by omega) t
  | true =>
    have hcount : digitCount 10 n ≤ 8 := (digitCount_le_iff (by decide) (by decide)).2 hn
    rcases Nat.eq_zero_or_pos n with rfl | hpos
    · rfl
    · simpa [hpos.ne'] using digitsLoop_eq hpos (by omega) t

theorem wholePart_eq (fl : Flags) (n64 : ℕ) {t : Digits} (hroom : t.room = 8) :
    let u := putDigits fl t (places 10 (partDigits fl (n64 % 10 ^ 8)) (n64 % 10 ^ 8))
    zerosLoop fl u.room u = putDigits fl t (places 10 8 n64) := by
  intro u
  obtain ⟨hle, hlt⟩ := partDigits_spec fl (Nat.mod_lt n64 (by decide : 0 < 10 ^ 8))
  have hzero : n64 % 10 ^ 8 / 10 ^ partDigits fl (n64 % 10 ^ 8) = 0 := Nat.div_eq_of_lt hlt
  have hsplit := places_add (b := 10) (partDigits fl (n64 % 10 ^ 8))
    (8 - partDigits fl (n64 % 10 ^ 8)) (n64 % 10 ^ 8)
  rw [Nat.add_sub_cancel' hle, hzero, places_mod (le_refl 8)] at hsplit
  rw [zerosLoop_eq, putDigits_room, places_length, hroom, hsplit, putDigits_append]

theorem decimalChar_eq_zero : ∀ d < 10, decimalChar d = ch '0' ↔ d = 0 := by decide

/-- The text with a digit on top of it. The comma of a full group comes with the digit. -/
theorem putDigits_head (fl : Flags) (t : Digits) (k n : ℕ) :
    (putDigits fl t (places 10 (k + 1) n)).s.head? = some (decimalChar (n / 10 ^ k % 10)) ∧
    (fl.tripletComma = false →
      (putDigits fl t (places 10 (k + 1) n)).s.tail = (putDigits fl t (places 10 k n)).s) := by
  rw [places_add, putDigits_append]
  generalize putDigits fl t (places 10 k n) = u
  change (putDigit fl (n / 10 ^ k % 10) u).s.head? = _ ∧ (_ → (putDigit fl _ u).s.tail = _)
  unfold putDigit
  split
  · rename_i hcomma
    split <;> exact ⟨rfl, fun h => absurd (hcomma.symm.trans h) (by decide)⟩
  · exact ⟨rfl, fun _ => rfl⟩

theorem topDigit_eq_zero_iff {k n : ℕ} (h : digitCount 10 n ≤ k + 1) :
    n / 10 ^ k % 10 = 0 ↔ n < 10 ^ k := by
  have hlt := (digitCount_le_iff (by decide) (Nat.succ_pos k)).1 h
  rw [Nat.mod_eq_of_lt (Nat.div_lt_of_lt_mul (by rwa [pow_succ] at hlt)),
    Nat.div_eq_zero_iff_lt (by positivity)]

theorem digitCount_of_pairs {k n : ℕ} (hk : 2 * digitCount 100 n = k + 1) :
    digitCount 10 n = if n / 10 ^ k % 10 = 0 then k else k + 1 := by
  have hpairs : Nat.log 100 n = Nat.log 10 n / 2 := Nat.log_pow_left 10 2 n
  rw [digitCount, hpairs] at hk
  have hle : digitCount 10 n ≤ k + 1 := by
    unfold digitCount
    omega
  have hzero : n / 10 ^ k % 10 = 0 ↔ digitCount 10 n ≤ k :=
    (topDigit_eq_zero_iff hle).trans (digitCount_le_iff (by decide) (by omega)).symm
  rw [if_congr hzero rfl rfl]
  unfold digitCount at hle ⊢
  split <;> omega

theorem topPart_eq {n : ℕ} (hn : n < 10 ^ 8) (hwrite : fl.tripletComma = true → 0 < n)
    (t : Digits) :
    let u := putDigits fl t (places 10 (partDigits fl n) n)
    (if u.s.head? = some (ch '0') then u.s.tail else u.s) =
      (putDigits fl t (places 10 (digitCount 10 n) n)).s := by
  intro u
  obtain ⟨k, hk⟩ : ∃ k, partDigits fl n = k + 1 := by
    apply Nat.exists_eq_succ_of_ne_zero
    unfold partDigits digitCount
    split
    · rw [if_neg (hwrite ‹_›).ne']
      exact Nat.succ_ne_zero _
    · omega
  have hd : n / 10 ^ k % 10 < 10 := Nat.mod_lt _ (by decide)
  have hu : u = putDigits fl t (places 10 (k + 1) n) := by rw [← hk]
  obtain ⟨hhead, htail⟩ := putDigits_head fl t k n
  rw [hu, hhead, if_congr (Option.some_inj.trans (decimalChar_eq_zero _ hd)) rfl rfl]
  cases hfl : fl.tripletComma with
  | false =>
    have hpairs : 2 * digitCount 100 n = k + 1 := by simpa [partDigits, hfl] using hk
    rw [digitCount_of_pairs hpairs, htail hfl]
    split <;> rfl
  | true =>
    have hpos := hwrite hfl
    have hcount : digitCount 10 n = k + 1 := by simpa [partDigits, hfl, hpos.ne'] using hk
    have hne : n / 10 ^ k % 10 ≠ 0 := by
      intro hzero
      have hlt := (topDigit_eq_zero_iff hcount.le).1 hzero
      rcases Nat.eq_zero_or_pos k with rfl | hk0
      · omega
      · have := (digitCount_le_iff (by decide) hk0).2 hlt
        omega
    rw [if_neg hne, hcount]

theorem decimalLoop_eq {parts n64 : ℕ} (hn : n64 < 10 ^ (8 * (parts + 1)))
    (hwrite : fl.tripletComma = true → 0 < n64) (t : Digits) :
    decimalLoop fl (parts + 1) n64 t =
      (putDigits fl t (places 10 (digitCount 10 n64) n64)).s := by
  induction parts generalizing n64 t with
  | zero =>
    have hsmall : ¬ n64 ≥ 100000000 := by omega
    rw [decimalLoop]
    simp only [if_neg hsmall, if_true, part_eq fl hn]
    rw [topPart_eq hn hwrite]
    exact putDigits_s_room t 8 _
  | succ parts ih =>
    rw [decimalLoop]
    by_cases hbig : n64 ≥ 100000000
    · have hlow : n64 % 10 ^ 8 < 10 ^ 8 := Nat.mod_lt _ (by decide)
      have hpos : 0 < n64 / 10 ^ 8 := Nat.div_pos hbig (by decide)
      have hhigh : n64 / 10 ^ 8 < 10 ^ (8 * (parts + 1)) := by
        apply Nat.div_lt_of_lt_mul
        rwa [← pow_add, show 8 + 8 * (parts + 1) = 8 * (parts + 1 + 1) by omega]
      have hcount : digitCount 10 n64 = 8 + digitCount 10 (n64 / 10 ^ 8) := by
        have hlog : 8 ≤ Nat.log 10 n64 := Nat.le_log_of_pow_le (by decide) hbig
        rw [digitCount, digitCount, Nat.log_div_base_pow]
        omega
      have hpart := part_eq fl hlow { t with room := 8 }
      have hwhole := wholePart_eq fl n64 (t := { t with room := 8 }) rfl
      have hrest := ih hhigh (fun _ => hpos) (putDigits fl { t with room := 8 } (places 10 8 n64))
      rw [← putDigits_append, ← places_add 8 _ n64, ← hcount] at hrest
      simp only [Nat.reducePow] at hpart hwhole hpos hrest
      simp only [if_pos hbig, if_neg hpos.ne', hpart, hwhole, hrest]
      exact putDigits_s_room t 8 _
    · have hlow : n64 < 10 ^ 8 := by omega
      simp only [if_neg hbig, if_true, part_eq fl hlow]
      rw [topPart_eq hlow hwrite]
      exact putDigits_s_room t 8 _

theorem decimalText_eq {n64 : ℕ} (hn : n64 < 2 ^ 64) : decimalText fl n64 =
    numeral decimalChar fl.tripletComma 3 10 (digitCount 10 n64) n64 := by
  have hs : ∀ n, (putDigits fl ⟨[], 0, 0⟩ (places 10 (digitCount 10 n) n)).s =
      numeral decimalChar fl.tripletComma 3 10 (digitCount 10 n) n := by
    intro n
    rw [putDigits_s, List.append_nil]
    rfl
  have hne : ∀ n, numeral decimalChar fl.tripletComma 3 10 (digitCount 10 n) n ≠ [] := by
    intro n hnil
    rw [← hs] at hnil
    have hhead := (putDigits_head fl ⟨[], 0, 0⟩ (Nat.log 10 n) n).1
    rw [show Nat.log 10 n + 1 = digitCount 10 n by rfl, hnil] at hhead
    cases hhead
  unfold decimalText
  by_cases hwrite : fl.tripletComma = true → 0 < n64
  · dsimp only
    rw [decimalLoop_eq (by omega) hwrite, hs, if_neg (hne n64)]
  · -- with commas nothing is written for zero until the end
    push Not at hwrite
    obtain ⟨hfl, hzero⟩ := hwrite
    have hn0 : n64 = 0 := by omega
    subst hn0
    simp [decimalLoop, digitsLoop, hfl, digitCount, numeral, grouped, separate, separateFrom,
      places]
    rfl

end Decimal

/-! ### Binary, octal and hexadecimal numbers -/

section Radixes
variable {fl : Flags} {h : List Byte} {r : Radix} {pr : ℤ}

def Radix.base (r : Radix) : ℕ := 2 ^ r.shift

/-- The commas among `k` digits that come in front of `l` others. -/
def commasWith (commas : Bool) (g l k : ℕ) : ℕ := if commas then (l + k - 1) / g else 0

/-- The loop may end after `k` more digits, with `length` characters written before them and `l`
    digits since the last comma. -/
def MayEnd (commas : Bool) (r : Radix) (pr : ℤ) (length l n k : ℕ) : Prop :=
  n < Radix.base r ^ k ∧ pr ≤ length + k + commasWith commas r.group l k

structure EndsAt (commas : Bool) (r : Radix) (pr : ℤ) (length l n k : ℕ) : Prop where
  pos : 0 < k
  ends : MayEnd commas r pr length l n k
  before : ∀ j, 0 < j → j < k → ¬ MayEnd commas r pr length l n j

theorem commasWith_succ {commas : Bool} {g l k : ℕ} (hk : 0 < k) :
    commasWith commas g l (k + 1) =
      if commas = true ∧ l + 1 = g then 1 + commasWith commas g 0 k
      else commasWith commas g (l + 1) k := by
  unfold commasWith
  cases commas with
  | false => simp
  | true =>
    by_cases hfull : l + 1 = g
    · have hdiv : (l + (k + 1) - 1) / g = (0 + k - 1) / g + 1 := by
        rw [show l + (k + 1) - 1 = 0 + k - 1 + g by omega, Nat.add_div_right _ (by omega)]
      simp only [hfull, hdiv, and_self, if_true]
      omega
    · simp only [hfull, and_false, if_false, if_true]
      rw [show l + (k + 1) - 1 = l + 1 + k - 1 by omega]

theorem mayEnd_succ_iff {commas : Bool} {l length n k : ℕ} (hk : 0 < k) :
    MayEnd commas r pr length l n (k + 1) ↔
      if commas = true ∧ l + 1 = r.group then
        MayEnd commas r pr (length + 2) 0 (n / Radix.base r) k
      else MayEnd commas r pr (length + 1) (l + 1) (n / Radix.base r) k := by
  have hbase : 0 < Radix.base r := Nat.two_pow_pos _
  have hn : n / Radix.base r < Radix.base r ^ k ↔ n < Radix.base r ^ (k + 1) := by
    rw [Nat.div_lt_iff_lt_mul hbase, pow_succ]
  unfold MayEnd
  rw [hn, commasWith_succ hk]
  split
  · apply and_congr_right
    intro _
    omega
  · apply and_congr_right
    intro _
    omega

theorem endsAt_succ {commas : Bool} {l length n k : ℕ} (hk : 0 < k)
    (hend : EndsAt commas r pr length l n (k + 1)) :
    if commas = true ∧ l + 1 = r.group then
      EndsAt commas r pr (length + 2) 0 (n / Radix.base r) k
    else EndsAt commas r pr (length + 1) (l + 1) (n / Radix.base r) k := by
  have hstep : ∀ j, 0 < j → _ := fun j hj => @mayEnd_succ_iff r pr commas l length n j hj
  split
  · rename_i hcomma
    simp only [if_pos hcomma] at hstep
    refine ⟨hk, (hstep k hk).1 hend.ends, fun j hj hjk hmay => ?_⟩
    exact hend.before (j + 1) (by omega) (by omega) ((hstep j hj).2 hmay)
  · rename_i hcomma
    simp only [if_neg hcomma] at hstep
    refine ⟨hk, (hstep k hk).1 hend.ends, fun j hj hjk hmay => ?_⟩
    exact hend.before (j + 1) (by omega) (by omega) ((hstep j hj).2 hmay)

theorem mayEnd_one_iff {commas : Bool} {l : ℕ} (hl : l < r.group) {length n : ℕ} :
    MayEnd commas r pr length l n 1 ↔ ¬ (n / Radix.base r ≠ 0 ∨ ((length + 1 : ℕ) : ℤ) < pr) := by
  have hnone : commasWith commas r.group l 1 = 0 := by
    unfold commasWith
    split
    · exact Nat.div_eq_of_lt hl
    · rfl
  have hbase : 0 < Radix.base r := Nat.two_pow_pos _
  rw [MayEnd, hnone, pow_one, not_or, not_not, Nat.div_eq_zero_iff_lt hbase]
  omega

def radixDigits (commas : Bool) (h : List Byte) (r : Radix) (l k n : ℕ) : List Byte :=
  let ds := (places (Radix.base r) k n).map fun d => h.getD d 0
  if commas then separateFrom r.group comma l ds else ds

theorem radixLoop_eq {fuel k l n : ℕ} {s : List Byte} (hfuel : k ≤ fuel) (hl : l < r.group)
    (hend : EndsAt fl.tripletComma r pr s.length l n k) :
    radixLoop fl h r pr fuel n l s = (radixDigits fl.tripletComma h r l k n).reverse ++ s := by
  induction k generalizing fuel l n s with
  | zero => exact absurd hend.pos (lt_irrefl 0)
  | succ k ih =>
    obtain ⟨fuel, rfl⟩ : ∃ i, fuel = i + 1 := ⟨fuel - 1, by omega⟩
    have hdigit : n &&& (2 ^ r.shift - 1) = n % Radix.base r := Nat.and_two_pow_sub_one_eq_mod _ _
    have hrest : n >>> r.shift = n / Radix.base r := Nat.shiftRight_eq_div_pow _ _
    rw [radixLoop, hdigit, hrest, List.length_cons]
    rcases Nat.eq_zero_or_pos k with rfl | hk
    · rw [if_pos ((mayEnd_one_iff hl).1 hend.ends)]
      have hopen : l ≠ r.group := hl.ne
      cases hfl : fl.tripletComma <;> simp [radixDigits, places, separateFrom, hopen]
    · rw [if_neg fun hstop => hend.before 1 one_pos (by omega) ((mayEnd_one_iff hl).2 hstop)]
      have hnext := endsAt_succ hk hend
      cases hfl : fl.tripletComma with
      | false =>
        rw [hfl, if_neg fun hcomma => Bool.false_ne_true hcomma.1] at hnext
        rw [hfl] at ih
        -- without commas `l` counts nothing
        have hsame : EndsAt false r pr (s.length + 1) l (n / Radix.base r) k :=
          ⟨hnext.pos, hnext.ends, hnext.before⟩
        rw [if_neg Bool.false_ne_true, ih (s := _ :: s) (by omega) hl hsame]
        simp [radixDigits, places]
      | true =>
        rw [hfl] at hnext ih
        have hopen : l ≠ r.group := hl.ne
        rw [if_pos rfl]
        by_cases hfull : l + 1 = r.group
        · rw [if_pos ⟨rfl, hfull⟩] at hnext
          have hmore :
              (places (Radix.base r) k (n / Radix.base r)).map (fun d => h.getD d 0) ≠ [] := by
            intro hnil
            have := congrArg List.length hnil
            simp only [List.length_map, places_length, List.length_nil] at this
            omega
          rw [if_pos hfull, ih (s := comma :: _ :: s) (by omega) (by omega) hnext]
          simp only [radixDigits, places, List.map_cons, separateFrom, if_neg hopen, hfull, if_true]
          rw [separateFrom_full (by omega) hmore]
          simp
        · rw [if_neg fun hcomma => hfull hcomma.2] at hnext
          rw [if_neg hfull, ih (s := _ :: s) (by omega) (by omega) hnext]
          simp [radixDigits, places, separateFrom, hopen]

/-- The digits of a number of that radix: enough for the number and for the precision, which counts
    the commas as characters too. -/
def radixCount (commas : Bool) (r : Radix) (pr : ℤ) (n : ℕ) : ℕ :=
  max (digitCount (Radix.base r) n)
    (if commas then pr.toNat - (pr.toNat - 1) / (r.group + 1) else pr.toNat)

theorem mayEnd_iff (hr : 0 < r.shift) (hg : 0 < r.group) {commas : Bool} {n k : ℕ} (hk : 0 < k) :
    MayEnd commas r pr 0 0 n k ↔ radixCount commas r pr n ≤ k := by
  have hbase : 1 < Radix.base r := Nat.one_lt_two_pow hr.ne'
  rw [MayEnd, ← digitCount_le_iff hbase hk, radixCount, max_le_iff]
  apply and_congr_right
  intro _
  unfold commasWith
  cases commas with
  | false =>
    simp only [Bool.false_eq_true, if_false]
    omega
  | true =>
    simp only [if_true, Nat.zero_add, ← le_add_div_iff hg hk]
    generalize (k - 1) / r.group = q
    omega

theorem endsAt_radixCount (hr : 0 < r.shift) (hg : 0 < r.group) (commas : Bool) (n : ℕ) :
    EndsAt commas r pr 0 0 n (radixCount commas r pr n) := by
  have hpos : 0 < radixCount commas r pr n := Nat.lt_of_lt_of_le (Nat.succ_pos _) (le_max_left _ _)
  refine ⟨hpos, (mayEnd_iff hr hg hpos).2 le_rfl, fun j hj hlt hmay => ?_⟩
  exact absurd ((mayEnd_iff hr hg hj).1 hmay) (by omega)

theorem radixLoop_text (hr : 0 < r.shift) (hg : 0 < r.group) {n64 : ℕ} (hn : n64 < 2 ^ 64) :
    radixLoop fl h r pr (64 + pr.toNat) n64 0 [] =
      numeral (fun d => h.getD d 0) fl.tripletComma r.group (Radix.base r)
        (radixCount fl.tripletComma r pr n64) n64 := by
  have hbase : 1 < Radix.base r := Nat.one_lt_two_pow hr.ne'
  have hcount : digitCount (Radix.base r) n64 ≤ 64 := by
    apply (digitCount_le_iff hbase (by decide)).2
    exact hn.trans_le (Nat.pow_le_pow_left hbase 64)
  have hfuel : radixCount fl.tripletComma r pr n64 ≤ 64 + pr.toNat := by
    apply max_le (by omega)
    split
    · exact (Nat.sub_le _ _).trans (Nat.le_add_left _ _)
    · exact Nat.le_add_left _ _
  rw [radixLoop_eq hfuel hg (endsAt_radixCount hr hg _ _), List.append_nil]
  rfl

end Radixes

end Rizzos.SprintfNumbers
