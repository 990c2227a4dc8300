import Mathlib.Tactic

set_option autoImplicit false

/-!
# Byte-addressed memory with 64-bit addresses

Words are little-endian runs of bytes. Addresses are natural numbers that are
reduced to 64 bits by every access, so an access past the end of the address
space wraps as the machine's does.
-/
namespace Rizzos.ByteMemory

abbrev Byte := BitVec 8
abbrev Mem := ℕ → Byte

def wrap (a : ℕ) : ℕ := a % 2 ^ 64

@[simp] theorem wrap_lt (a : ℕ) : wrap a < 2 ^ 64 := Nat.mod_lt _ (by decide)

theorem wrap_of_lt {a : ℕ} (h : a < 2 ^ 64) : wrap a = a := Nat.mod_eq_of_lt h

@[simp] theorem wrap_wrap (a : ℕ) : wrap (wrap a) = wrap a := Nat.mod_mod _ _

theorem wrap_wrap_add (a b : ℕ) : wrap (wrap a + b) = wrap (a + b) := Nat.mod_add_mod _ _ _

theorem wrap_add_wrap (a b : ℕ) : wrap (a + wrap b) = wrap (a + b) := Nat.add_mod_mod _ _ _

def wrapSub (a b : ℕ) : ℕ := wrap (a + (2 ^ 64 - b))

theorem wrapSub_of_le {a b : ℕ} (h : b ≤ a) (ha : a < 2 ^ 64) : wrapSub a b = a - b := by
  unfold wrapSub wrap
  omega

theorem wrapSub_of_lt {a b : ℕ} (h : a < b) (hb : b < 2 ^ 64) :
    wrapSub a b = a + (2 ^ 64 - b) := by
  unfold wrapSub wrap
  omega

def load8 (m : Mem) (a : ℕ) : Byte := m (wrap a)

def store8 (m : Mem) (a : ℕ) (b : Byte) : Mem := Function.update m (wrap a) b

theorem load8_store8 (m : Mem) (a : ℕ) (b : Byte) : load8 (store8 m a b) a = b :=
  Function.update_self _ _ _

theorem load8_store8_ne (m : Mem) {a c : ℕ} (b : Byte) (h : wrap c ≠ wrap a) :
    load8 (store8 m a b) c = load8 m c :=
  Function.update_of_ne h _ _

/-- The `n`-byte little-endian word at `a`. -/
def loadLE (m : Mem) : ℕ → ℕ → ℕ
  | _, 0 => 0
  | a, n + 1 => (load8 m a).toNat + 256 * loadLE m (a + 1) n

def storeLE (m : Mem) : ℕ → ℕ → ℕ → Mem
  | _, 0, _ => m
  | a, n + 1, v => storeLE (store8 m a (BitVec.ofNat 8 v)) (a + 1) n (v / 256)

theorem loadLE_lt (m : Mem) (a n : ℕ) : loadLE m a n < 256 ^ n := by
  induction n generalizing a with
  | zero => simp [loadLE]
  | succ n ih =>
    have hb : (load8 m a).toNat < 256 := (load8 m a).isLt
    have ht := ih (a + 1)
    rw [loadLE, pow_succ]
    omega

theorem loadLE_add (m : Mem) (a n k : ℕ) :
    loadLE m a (n + k) = loadLE m a n + 256 ^ n * loadLE m (a + n) k := by
  induction n generalizing a with
  | zero => simp [loadLE]
  | succ n ih =>
    rw [Nat.add_right_comm, loadLE, ih, loadLE, pow_succ', Nat.add_assoc a 1 n, Nat.add_comm 1 n]
    ring

theorem loadLE_apply (m : Mem) {a n i : ℕ} (hi : i < n) :
    m (wrap (a + i)) = BitVec.ofNat 8 (loadLE m a n / 256 ^ i) := by
  induction n generalizing a i with
  | zero => exact absurd hi (Nat.not_lt_zero i)
  | succ n ih =>
    have hlow := (load8 m a).isLt
    apply BitVec.eq_of_toNat_eq
    rw [BitVec.toNat_ofNat, loadLE]
    cases i with
    | zero =>
      rw [pow_zero, Nat.div_one]
      change (load8 m a).toNat = _
      omega
    | succ i =>
      have hrest := ih (a := a + 1) (i := i) (by omega)
      have hdiv : ((load8 m a).toNat + 256 * loadLE m (a + 1) n) / 256 = loadLE m (a + 1) n := by
        omega
      rw [show a + (i + 1) = a + 1 + i by omega, hrest, BitVec.toNat_ofNat, pow_succ' 256,
        ← Nat.div_div_eq_div_mul, hdiv]

theorem loadLE_inj {m m' : Mem} {a n : ℕ} (h : loadLE m' a n = loadLE m a n) :
    ∀ i < n, m' (wrap (a + i)) = m (wrap (a + i)) := by
  intro i hi
  rw [loadLE_apply m' hi, h, loadLE_apply m hi]

/-- `x` is none of the `n` bytes that start at `a`. -/
def Outside (x a n : ℕ) : Prop := ∀ i < n, x ≠ wrap (a + i)

theorem Outside.of_range {x a n : ℕ} (ha : a + n ≤ 2 ^ 64) (h : x < a ∨ a + n ≤ x) :
    Outside x a n := by
  intro i hi
  rw [wrap_of_lt (by omega)]
  omega

theorem Outside.tail {x a n : ℕ} (h : Outside x a (n + 1)) : Outside x (a + 1) n := by
  intro i hi
  have := h (i + 1) (by omega)
  rwa [show a + (i + 1) = a + 1 + i by omega] at this

theorem Outside.part {x a n offset size : ℕ} (h : Outside x a n) (hin : offset + size ≤ n) :
    Outside x (a + offset) size := by
  intro i hi
  rw [Nat.add_assoc]
  exact h _ (by omega)

theorem storeLE_outside (m : Mem) {x a n : ℕ} (v : ℕ) (h : Outside x a n) :
    storeLE m a n v x = m x := by
  induction n generalizing m a v with
  | zero => rfl
  | succ n ih =>
    rw [storeLE, ih _ _ h.tail]
    exact Function.update_of_ne (by simpa using h 0 (by omega)) _ _

theorem loadLE_congr {m m' : Mem} {a n : ℕ} (h : ∀ i < n, m' (wrap (a + i)) = m (wrap (a + i))) :
    loadLE m' a n = loadLE m a n := by
  induction n generalizing a with
  | zero => rfl
  | succ n ih =>
    have h0 := h 0 (by omega)
    have ht : loadLE m' (a + 1) n = loadLE m (a + 1) n := by
      apply ih
      intro i hi
      have := h (i + 1) (by omega)
      rwa [show a + (i + 1) = a + 1 + i by omega] at this
    rw [loadLE, loadLE, ht]
    simp only [load8]
    rw [show wrap a = wrap (a + 0) from rfl, h0]

theorem loadLE_zero {m : Mem} {a n : ℕ} (h : ∀ i < n, m (wrap (a + i)) = 0#8) :
    loadLE m a n = 0 := by
  induction n generalizing a with
  | zero => rfl
  | succ n ih =>
    have hrest : loadLE m (a + 1) n = 0 := by
      apply ih
      intro i hi
      have := h (i + 1) (by omega)
      rwa [show a + (i + 1) = a + 1 + i by omega] at this
    rw [loadLE, hrest, load8, show wrap a = wrap (a + 0) from rfl, h 0 (by omega)]
    rfl

theorem loadLE_storeLE_disjoint (m : Mem) {a n b k : ℕ} (v : ℕ) (ha : a + n ≤ 2 ^ 64)
    (hb : b + k ≤ 2 ^ 64) (h : a + n ≤ b ∨ b + k ≤ a) :
    loadLE (storeLE m b k v) a n = loadLE m a n := by
  apply loadLE_congr
  intro i hi
  apply storeLE_outside
  rw [wrap_of_lt (by omega)]
  exact Outside.of_range hb (by omega)

theorem loadLE_storeLE (m : Mem) (a n v : ℕ) (hn : n ≤ 2 ^ 64) :
    loadLE (storeLE m a n v) a n = v % 256 ^ n := by
  induction n generalizing m a v with
  | zero => simp [loadLE, Nat.mod_one]
  | succ n ih =>
    have hfirst : load8 (storeLE m a (n + 1) v) a = BitVec.ofNat 8 v := by
      rw [storeLE, load8, storeLE_outside]
      · exact load8_store8 _ _ _
      · intro i hi
        simp only [wrap]
        omega
    have hrest : loadLE (storeLE m a (n + 1) v) (a + 1) n = v / 256 % 256 ^ n :=
      ih _ _ _ (by omega)
    rw [loadLE, hfirst, hrest, BitVec.toNat_ofNat, pow_succ' 256 n]
    exact (Nat.mod_mul).symm

theorem storeLE_add (m : Mem) (a n k v : ℕ) :
    storeLE m a (n + k) v = storeLE (storeLE m a n v) (a + n) k (v / 256 ^ n) := by
  induction n generalizing m a v with
  | zero => simp [storeLE]
  | succ n ih =>
    rw [Nat.add_right_comm, storeLE, ih, storeLE, Nat.div_div_eq_div_mul, pow_succ' 256 n,
      Nat.add_right_comm a 1 n, Nat.add_assoc a n 1]

abbrev load16 (m : Mem) (a : ℕ) : ℕ := loadLE m a 2
abbrev load32 (m : Mem) (a : ℕ) : ℕ := loadLE m a 4
abbrev load64 (m : Mem) (a : ℕ) : ℕ := loadLE m a 8
abbrev store64 (m : Mem) (a v : ℕ) : Mem := storeLE m a 8 v

theorem load64_lt (m : Mem) (a : ℕ) : load64 m a < 2 ^ 64 := by
  simpa using loadLE_lt m a 8

theorem load64_store64 (m : Mem) (a : ℕ) {v : ℕ} (hv : v < 2 ^ 64) :
    load64 (store64 m a v) a = v :=
  (loadLE_storeLE m a 8 v (by decide)).trans (Nat.mod_eq_of_lt (by simpa using hv))

theorem load64_store64_disjoint (m : Mem) {a b : ℕ} (v : ℕ) (ha : a + 8 ≤ 2 ^ 64)
    (hb : b + 8 ≤ 2 ^ 64) (h : a + 8 ≤ b ∨ b + 8 ≤ a) :
    load64 (store64 m b v) a = load64 m a :=
  loadLE_storeLE_disjoint m v ha hb h

theorem store64_outside (m : Mem) {x b : ℕ} (v : ℕ) (hb : b + 8 ≤ 2 ^ 64)
    (h : x < b ∨ b + 8 ≤ x) : store64 m b v x = m x :=
  storeLE_outside m v (Outside.of_range hb h)

def Agree (m m' : Mem) (a n : ℕ) : Prop := ∀ x, a ≤ x → x < a + n → m' x = m x

theorem Agree.refl (m : Mem) (a n : ℕ) : Agree m m a n := fun _ _ _ => rfl

theorem Agree.trans {m m' m'' : Mem} {a n : ℕ} (h : Agree m m' a n) (h' : Agree m' m'' a n) :
    Agree m m'' a n := fun x hx hx' => (h' x hx hx').trans (h x hx hx')

theorem Agree.mono {m m' : Mem} {a n b k : ℕ} (h : Agree m m' a n) (hb : a ≤ b)
    (hk : b + k ≤ a + n) : Agree m m' b k := fun x hx hx' => h x (by omega) (by omega)

theorem Agree.loadLE_eq {m m' : Mem} {a n : ℕ} (h : Agree m m' a n) (ha : a + n ≤ 2 ^ 64) :
    loadLE m' a n = loadLE m a n := by
  apply loadLE_congr
  intro i hi
  rw [wrap_of_lt (by omega)]
  exact h _ (by omega) (by omega)

theorem Agree.load {m m' : Mem} {a n offset k : ℕ} (h : Agree m m' a n) (ha : a + n ≤ 2 ^ 64)
    (hin : offset + k ≤ n) : loadLE m' (a + offset) k = loadLE m (a + offset) k :=
  (h.mono (by omega) (by omega)).loadLE_eq (by omega)

theorem Agree.store64 (m : Mem) {a n b : ℕ} (v : ℕ) (hb : b + 8 ≤ 2 ^ 64)
    (h : a + n ≤ b ∨ b + 8 ≤ a) : Agree m (store64 m b v) a n :=
  fun _ hx hx' => store64_outside m v hb (by omega)

end Rizzos.ByteMemory
