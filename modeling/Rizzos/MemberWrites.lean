import Rizzos.ByteMemory

set_option autoImplicit false

/-!
# Writes to the members of structs

A member is a run of bytes at a fixed offset from the start of the struct, and a bit-field
is a run of bits of its storage unit. Writes to members that share no byte keep each
other's values.
-/
namespace Rizzos.MemberWrites
open ByteMemory

/-- The word with `value` in the `width` bits from bit `lo` on. -/
def insertBits (word lo width value : ℕ) : ℕ :=
  word % 2 ^ lo + 2 ^ lo * (value % 2 ^ width) + 2 ^ (lo + width) * (word / 2 ^ (lo + width))

/-- An assignment to a bit-field of the `size`-byte unit at `a`. -/
def storeBits (m : Mem) (a size lo width value : ℕ) : Mem :=
  storeLE m a size (insertBits (loadLE m a size) lo width value)

theorem insertBits_lt {word lo width size : ℕ} (value : ℕ) (hword : word < 256 ^ size)
    (h : lo + width ≤ 8 * size) : insertBits word lo width value < 256 ^ size := by
  have hlow : word % 2 ^ lo < 2 ^ lo := Nat.mod_lt _ (by positivity)
  have hmiddle : value % 2 ^ width + 1 ≤ 2 ^ width := Nat.mod_lt _ (by positivity)
  have hsplit : 256 ^ size = 2 ^ (lo + width) * 2 ^ (8 * size - (lo + width)) := by
    rw [← pow_add, Nat.add_sub_cancel' h, pow_mul]
    rfl
  have hhigh : word / 2 ^ (lo + width) + 1 ≤ 2 ^ (8 * size - (lo + width)) := by
    apply Nat.div_lt_of_lt_mul
    rwa [← hsplit]
  calc insertBits word lo width value
      < 2 ^ lo * (value % 2 ^ width + 1) + 2 ^ (lo + width) * (word / 2 ^ (lo + width)) := by
        unfold insertBits
        rw [Nat.mul_add_one]
        omega
    _ ≤ 2 ^ lo * 2 ^ width + 2 ^ (lo + width) * (word / 2 ^ (lo + width)) := by gcongr
    _ = 2 ^ (lo + width) * (word / 2 ^ (lo + width) + 1) := by ring
    _ ≤ 256 ^ size := by
        rw [hsplit]
        gcongr

theorem loadLE_storeBits (m : Mem) {a size lo width : ℕ} (value : ℕ) (hsize : size ≤ 2 ^ 64)
    (h : lo + width ≤ 8 * size) : loadLE (storeBits m a size lo width value) a size =
      insertBits (loadLE m a size) lo width value := by
  rw [storeBits, loadLE_storeLE _ _ _ _ hsize]
  exact Nat.mod_eq_of_lt (insertBits_lt value (loadLE_lt m a size) h)

theorem storeBits_outside (m : Mem) {x a size : ℕ} (lo width value : ℕ) (h : Outside x a size) :
    storeBits m a size lo width value x = m x :=
  storeLE_outside m _ h

structure Write where
  offset : ℕ
  size : ℕ
  value : ℕ

def writeAll (a : ℕ) (ws : List Write) (m : Mem) : Mem :=
  ws.foldl (fun m w => storeLE m (a + w.offset) w.size w.value) m

def Apart (offset size offset' size' : ℕ) : Prop := offset + size ≤ offset' ∨ offset' + size' ≤ offset

section Writes
variable {a n : ℕ} {ws : List Write}

theorem writeAll_cons (w : Write) (m : Mem) :
    writeAll a (w :: ws) m = writeAll a ws (storeLE m (a + w.offset) w.size w.value) := rfl

theorem writeAll_outside (m : Mem) {x : ℕ} (h : ∀ w ∈ ws, Outside x (a + w.offset) w.size) :
    writeAll a ws m x = m x := by
  induction ws generalizing m with
  | nil => rfl
  | cons w ws ih =>
    obtain ⟨hw, hrest⟩ := List.forall_mem_cons.1 h
    rw [writeAll_cons, ih _ hrest]
    exact storeLE_outside m _ hw

def Fit (n : ℕ) (ws : List Write) : Prop := ∀ w ∈ ws, w.offset + w.size ≤ n

theorem load_writeAll_apart (hspace : a + n ≤ 2 ^ 64) (hfit : Fit n ws) (m : Mem)
    {offset size : ℕ} (hin : offset + size ≤ n)
    (h : ∀ w ∈ ws, Apart offset size w.offset w.size) :
    loadLE (writeAll a ws m) (a + offset) size = loadLE m (a + offset) size := by
  induction ws generalizing m with
  | nil => rfl
  | cons w ws ih =>
    obtain ⟨hw, hrest⟩ := List.forall_mem_cons.1 h
    obtain ⟨hfirst, hfit⟩ := List.forall_mem_cons.1 hfit
    rw [writeAll_cons, ih hfit _ hrest]
    apply loadLE_storeLE_disjoint <;> unfold Apart at hw <;> omega

theorem load_writeAll (hspace : a + n ≤ 2 ^ 64) (hfit : Fit n ws)
    (hapart : ws.Pairwise fun w w' => Apart w.offset w.size w'.offset w'.size) (m : Mem)
    {w : Write} (hw : w ∈ ws) :
    loadLE (writeAll a ws m) (a + w.offset) w.size = w.value % 256 ^ w.size := by
  induction ws generalizing m with
  | nil => exact absurd hw List.not_mem_nil
  | cons first ws ih =>
    obtain ⟨hfirst, hrest⟩ := List.pairwise_cons.1 hapart
    obtain ⟨hin, hfits⟩ := List.forall_mem_cons.1 hfit
    rw [writeAll_cons]
    rcases List.mem_cons.1 hw with heq | hmem
    · rw [heq, load_writeAll_apart hspace hfits _ hin hfirst]
      exact loadLE_storeLE m _ _ _ (by omega)
    · exact ih hfits hrest _ hmem

end Writes

/-! ### Two memories that take the same write -/

section Agreement
variable {m m' : Mem}

theorem storeLE_same {x : ℕ} (h : m' x = m x) (b size value : ℕ) :
    storeLE m' b size value x = storeLE m b size value x := by
  induction size generalizing m m' b value with
  | zero => exact h
  | succ size ih =>
    apply ih
    by_cases hx : x = wrap b
    · rw [hx, store8, store8, Function.update_self, Function.update_self]
    · rw [store8, store8, Function.update_of_ne hx, Function.update_of_ne hx, h]

theorem storeLE_covered (m m' : Mem) (b : ℕ) {size i : ℕ} (value : ℕ) (hsize : size ≤ 2 ^ 64)
    (hi : i < size) :
    storeLE m' b size value (wrap (b + i)) = storeLE m b size value (wrap (b + i)) :=
  loadLE_inj ((loadLE_storeLE m' b size value hsize).trans
    (loadLE_storeLE m b size value hsize).symm) i hi

theorem storeBits_same {x : ℕ} (h : m' x = m x) {b size : ℕ}
    (hunit : loadLE m' b size = loadLE m b size) (lo width value : ℕ) :
    storeBits m' b size lo width value x = storeBits m b size lo width value x := by
  rw [storeBits, storeBits, hunit]
  exact storeLE_same h _ _ _

theorem writeAll_same {x : ℕ} (h : m' x = m x) (b : ℕ) (ws : List Write) :
    writeAll b ws m' x = writeAll b ws m x := by
  induction ws generalizing m m' with
  | nil => exact h
  | cons w ws ih => exact ih (storeLE_same h _ _ _)

end Agreement

end Rizzos.MemberWrites
