import Rizzos.ByteMemory

set_option autoImplicit false

/-! The bitmap of `utils/bitmap.c`, its bytes lying in memory at `buffer`. -/
namespace Rizzos.UtilsBitmap
open ByteMemory

structure Bitmap where
  size : ℕ
  buffer : ℕ
deriving DecidableEq, Repr

def bitMask (index : ℕ) : Byte := 1#8 <<< (index % 8)

def bitmapGet (bitmap : Bitmap) (m : Mem) (index : ℕ) : Bool :=
  load8 m (bitmap.buffer + index / 8) &&& bitMask index != 0#8

/-- The range test is `index > size * 8`, so the first index past the end passes it. -/
def bitmapSet (bitmap : Bitmap) (m : Mem) (index : ℕ) (value : Bool) : Bool × Mem :=
  if index > wrap (bitmap.size * 8) then (false, m)
  else
    let byteAddress := bitmap.buffer + index / 8
    let cleared := store8 m byteAddress (load8 m byteAddress &&& ~~~bitMask index)
    if value then (true, store8 cleared byteAddress (load8 cleared byteAddress ||| bitMask index))
    else (true, cleared)

theorem and_bitMask (b : Byte) (index : ℕ) :
    (b &&& bitMask index != 0#8) = b.getLsbD (index % 8) := by
  have hmask : b &&& bitMask index = if b.getLsbD (index % 8) then bitMask index else 0#8 := by
    rw [bitMask, ← BitVec.twoPow_eq, BitVec.and_twoPow]
  have hne : ∀ k < 8, (1#8 <<< k != 0#8) = true := by decide
  rw [hmask]
  cases b.getLsbD (index % 8) with
  | false => rfl
  | true => exact hne _ (Nat.mod_lt _ (by decide))

theorem bitmapGet_eq (bitmap : Bitmap) (m : Mem) (index : ℕ) :
    bitmapGet bitmap m index = (load8 m (bitmap.buffer + index / 8)).getLsbD (index % 8) :=
  and_bitMask _ _

def setByte (b : Byte) (index : ℕ) (value : Bool) : Byte :=
  if value then b &&& ~~~bitMask index ||| bitMask index else b &&& ~~~bitMask index

theorem bitMask_getLsbD (index : ℕ) {j : ℕ} (hj : j < 8) :
    (bitMask index).getLsbD j = decide (j = index % 8) := by
  have h : ∀ k l : Fin 8, (1#8 <<< k.val).getLsbD l.val = decide (l.val = k.val) := by
    decide
  exact h ⟨index % 8, Nat.mod_lt _ (by decide)⟩ ⟨j, hj⟩

theorem setByte_getLsbD (b : Byte) (index j : ℕ) (value : Bool) (hj : j < 8) :
    (setByte b index value).getLsbD j = if j = index % 8 then value else b.getLsbD j := by
  have hcleared : (b &&& ~~~bitMask index).getLsbD j =
      if j = index % 8 then false else b.getLsbD j := by
    rw [BitVec.getLsbD_and, BitVec.getLsbD_not, bitMask_getLsbD index hj, decide_eq_true hj]
    by_cases hindex : j = index % 8
    · simp [if_pos hindex, decide_eq_true hindex]
    · simp [if_neg hindex, decide_eq_false hindex]
  cases value with
  | false => exact hcleared
  | true =>
    change (b &&& ~~~bitMask index ||| bitMask index).getLsbD j = _
    rw [BitVec.getLsbD_or, hcleared, bitMask_getLsbD index hj]
    by_cases hindex : j = index % 8
    · simp [if_pos hindex, decide_eq_true hindex]
    · simp [if_neg hindex, decide_eq_false hindex]

theorem bitmapSet_of_gt (bitmap : Bitmap) (m : Mem) {index : ℕ} (value : Bool)
    (h : wrap (bitmap.size * 8) < index) : bitmapSet bitmap m index value = (false, m) := by
  rw [bitmapSet, if_pos h]

theorem store8_store8 (m : Mem) (a : ℕ) (b c : Byte) : store8 (store8 m a b) a c = store8 m a c :=
  Function.update_idem _ _ _

theorem bitmapSet_of_le (bitmap : Bitmap) (m : Mem) {index : ℕ} (value : Bool)
    (h : index ≤ wrap (bitmap.size * 8)) : bitmapSet bitmap m index value =
      (true, store8 m (bitmap.buffer + index / 8)
        (setByte (load8 m (bitmap.buffer + index / 8)) index value)) := by
  rw [bitmapSet, if_neg (by omega)]
  cases value with
  | false => rfl
  | true => simp [setByte, load8_store8, store8_store8]

theorem wrap_offset_inj {buffer i j : ℕ} (hi : i < 2 ^ 64) (hj : j < 2 ^ 64)
    (h : wrap (buffer + i) = wrap (buffer + j)) : i = j := by
  simp only [wrap] at h
  omega

theorem bitmapGet_setByte (bitmap : Bitmap) (m : Mem) (index j : ℕ) (value : Bool)
    (hi : index < 2 ^ 64) (hj : j < 2 ^ 64) :
    bitmapGet bitmap (store8 m (bitmap.buffer + index / 8)
        (setByte (load8 m (bitmap.buffer + index / 8)) index value)) j =
      if j = index then value else bitmapGet bitmap m j := by
  simp only [bitmapGet_eq]
  by_cases hbyte : index / 8 = j / 8
  · rw [← hbyte, load8_store8, setByte_getLsbD _ _ _ _ (Nat.mod_lt _ (by decide))]
    have : j % 8 = index % 8 ↔ j = index := by omega
    simp only [this]
  · rw [load8_store8_ne, if_neg (by rintro rfl; exact hbyte rfl)]
    intro h
    exact hbyte (wrap_offset_inj (by omega) (by omega) h).symm

theorem bitmapGet_bitmapSet (bitmap : Bitmap) (m : Mem) {index j : ℕ} (value : Bool)
    (hi : index ≤ wrap (bitmap.size * 8)) (hj : j < 2 ^ 64) :
    bitmapGet bitmap (bitmapSet bitmap m index value).2 j =
      if j = index then value else bitmapGet bitmap m j := by
  rw [bitmapSet_of_le bitmap m value hi]
  exact bitmapGet_setByte bitmap m index j value (hi.trans_lt (wrap_lt _)) hj

theorem bitmapSet_outside (bitmap : Bitmap) (m : Mem) {index x : ℕ} (value : Bool)
    (hx : x ≠ wrap (bitmap.buffer + index / 8)) : (bitmapSet bitmap m index value).2 x = m x := by
  by_cases h : index ≤ wrap (bitmap.size * 8)
  · rw [bitmapSet_of_le bitmap m value h]
    exact Function.update_of_ne hx _ _
  · rw [bitmapSet_of_gt bitmap m value (by omega)]

theorem bitmapGet_congr (bitmap : Bitmap) {m m' : Mem} {index : ℕ}
    (h : m' (wrap (bitmap.buffer + index / 8)) = m (wrap (bitmap.buffer + index / 8))) :
    bitmapGet bitmap m' index = bitmapGet bitmap m index := by
  simp only [bitmapGet_eq, load8, h]

/-! ### The laws of the bits -/

/-- What `bitmapSet` owes its caller: exactly the indices of the bitmap are accepted, and one
    that is accepted changes its own bit only. -/
structure SetLaws (bitmap : Bitmap) (m : Mem) (index : ℕ) (value : Bool) : Prop where
  accepted : (bitmapSet bitmap m index value).1 = true ↔ index < 8 * bitmap.size
  written : (bitmapSet bitmap m index value).1 = true →
    bitmapGet bitmap (bitmapSet bitmap m index value).2 index = value
  kept : (bitmapSet bitmap m index value).1 = true →
    ∀ j < 2 ^ 64, j < 8 * bitmap.size → j ≠ index →
      bitmapGet bitmap (bitmapSet bitmap m index value).2 j = bitmapGet bitmap m j
  refused : (bitmapSet bitmap m index value).1 = false → (bitmapSet bitmap m index value).2 = m
  inside : ∀ x, Outside x bitmap.buffer bitmap.size → (bitmapSet bitmap m index value).2 x = m x

/-- The range test is right about the index: it is not the first one past the end, and the
    product of the size and 8 has not wrapped to an end in front of it. -/
def TestExact (bitmap : Bitmap) (index : ℕ) : Prop :=
  if bitmap.size < 2 ^ 61 then index ≠ 8 * bitmap.size else index ≤ wrap (bitmap.size * 8)

section Laws
variable {bitmap : Bitmap} {index : ℕ}

theorem bitmapSet_accepts_iff (m : Mem) (value : Bool) :
    (bitmapSet bitmap m index value).1 = true ↔ index ≤ wrap (bitmap.size * 8) := by
  by_cases h : index ≤ wrap (bitmap.size * 8)
  · rw [bitmapSet_of_le bitmap m value h]
    exact iff_of_true rfl h
  · rw [bitmapSet_of_gt bitmap m value (by omega)]
    exact iff_of_false (by simp) h

theorem bitmapSet_refused (m : Mem) {value : Bool}
    (h : (bitmapSet bitmap m index value).1 = false) : (bitmapSet bitmap m index value).2 = m := by
  have hgt : ¬ index ≤ wrap (bitmap.size * 8) := by
    rw [← bitmapSet_accepts_iff m value, h]
    simp
  rw [bitmapSet_of_gt bitmap m value (by omega)]

theorem testExact_iff (hindex : index < 2 ^ 64) :
    TestExact bitmap index ↔ (index ≤ wrap (bitmap.size * 8) ↔ index < 8 * bitmap.size) := by
  unfold TestExact
  split
  · rename_i hsize
    rw [wrap_of_lt (by omega)]
    omega
  · rename_i hsize
    have hinside : index < 8 * bitmap.size := by omega
    exact (iff_true_right hinside).symm

theorem bitmapSet_inside (m : Mem) (value : Bool)
    (haccepted : (bitmapSet bitmap m index value).1 = true → index < 8 * bitmap.size) {x : ℕ}
    (hx : Outside x bitmap.buffer bitmap.size) : (bitmapSet bitmap m index value).2 x = m x := by
  cases hreturned : (bitmapSet bitmap m index value).1 with
  | true =>
    have hinside := haccepted hreturned
    exact bitmapSet_outside bitmap m value (hx _ (by omega))
  | false => rw [bitmapSet_refused m hreturned]

/-- The laws hold exactly where the range test is right. -/
theorem setLaws_iff (m : Mem) (value : Bool) (hindex : index < 2 ^ 64) :
    SetLaws bitmap m index value ↔ TestExact bitmap index := by
  rw [testExact_iff hindex, ← bitmapSet_accepts_iff m value]
  constructor
  · exact fun h => h.accepted
  · intro haccepted
    have hbit : (bitmapSet bitmap m index value).1 = true → ∀ j < 2 ^ 64,
        bitmapGet bitmap (bitmapSet bitmap m index value).2 j =
          if j = index then value else bitmapGet bitmap m j := by
      intro hreturned j hj
      exact bitmapGet_bitmapSet bitmap m value ((bitmapSet_accepts_iff m value).1 hreturned) hj
    refine ⟨haccepted, ?_, ?_, bitmapSet_refused m, ?_⟩
    · intro hreturned
      rw [hbit hreturned index hindex, if_pos rfl]
    · intro hreturned j hj _ hne
      rw [hbit hreturned j hj, if_neg hne]
    · exact fun x hx => bitmapSet_inside m value haccepted.1 hx

end Laws

theorem setLaws_iff_word : SetLaws ⟨8, 0x1000⟩ (fun _ => 0xff#8) 63 false ↔
    TestExact ⟨8, 0x1000⟩ 63 :=
  setLaws_iff _ _ (by decide)

/-- The first index past the end of a bitmap of one byte is accepted. -/
theorem not_setLaws_byte : ¬ SetLaws ⟨1, 0x1000⟩ (fun _ => 0#8) 8 true := by
  intro h
  exact absurd (h.accepted.1 rfl) (by decide)

end Rizzos.UtilsBitmap
