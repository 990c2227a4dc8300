import Mathlib
import Rizzos.ByteMemory

set_option autoImplicit false

/-!
# A processor in real mode

Words and their halves, addresses by segment and offset, the products and quotients in `dx:ax`, and
the way a disk call names a sector.
-/
namespace Rizzos.RealMode
open ByteMemory

abbrev Word := BitVec 16

/-! ### Halves of a register -/

section Halves

def lo (w : Word) : Byte := BitVec.ofNat 8 w.toNat
def hi (w : Word) : Byte := BitVec.ofNat 8 (w.toNat / 256)
def word (high low : Byte) : Word := BitVec.ofNat 16 (high.toNat * 256 + low.toNat)

def setLo (w : Word) (b : Byte) : Word := word (hi w) b
def setHi (w : Word) (b : Byte) : Word := word b (lo w)

theorem lo_toNat (w : Word) : (lo w).toNat = w.toNat % 256 := rfl

theorem hi_toNat (w : Word) : (hi w).toNat = w.toNat / 256 := by
  have hlt := w.isLt
  rw [hi, BitVec.toNat_ofNat]
  omega

theorem word_toNat (high low : Byte) : (word high low).toNat = high.toNat * 256 + low.toNat := by
  have hhigh := high.isLt
  have hlow := low.isLt
  rw [word, BitVec.toNat_ofNat]
  omega

@[simp] theorem lo_word (high low : Byte) : lo (word high low) = low := by
  have hlow := low.isLt
  apply BitVec.eq_of_toNat_eq
  rw [lo_toNat, word_toNat]
  omega

@[simp] theorem hi_word (high low : Byte) : hi (word high low) = high := by
  have hlow := low.isLt
  apply BitVec.eq_of_toNat_eq
  rw [hi_toNat, word_toNat]
  omega

@[simp] theorem lo_setLo (w : Word) (b : Byte) : lo (setLo w b) = b := lo_word _ _
@[simp] theorem hi_setLo (w : Word) (b : Byte) : hi (setLo w b) = hi w := hi_word _ _
@[simp] theorem lo_setHi (w : Word) (b : Byte) : lo (setHi w b) = lo w := lo_word _ _
@[simp] theorem hi_setHi (w : Word) (b : Byte) : hi (setHi w b) = b := hi_word _ _

end Halves

/-! ### A count in a register -/

section Counts
variable {n : ℕ}

theorem sub_one_of_count {w : Word} (h : w = BitVec.ofNat 16 (n + 1)) :
    w - 1 = BitVec.ofNat 16 n := by
  rw [h, BitVec.ofNat_add]
  exact BitVec.add_sub_cancel _ _

theorem count_eq_zero_iff (hn : n < 2 ^ 16) : BitVec.ofNat 16 n = 0 ↔ n = 0 := by
  refine ⟨fun hzero => ?_, fun hzero => hzero ▸ rfl⟩
  have htoNat := congrArg BitVec.toNat hzero
  rwa [BitVec.toNat_ofNat, Nat.mod_eq_of_lt hn] at htoNat

end Counts

/-! ### Bytes and words at an address -/

section Addresses

def linear (segment offset : Word) : ℕ := segment.toNat * 16 + offset.toNat

def loadByte (m : Mem) (segment offset : Word) : Byte := m (linear segment offset)

def loadWord (m : Mem) (segment offset : Word) : Word :=
  word (loadByte m segment (offset + 1)) (loadByte m segment offset)

def storeByte (m : Mem) (segment offset : Word) (b : Byte) : Mem :=
  Function.update m (linear segment offset) b

def storeWord (m : Mem) (segment offset w : Word) : Mem :=
  storeByte (storeByte m segment offset (lo w)) segment (offset + 1) (hi w)

def block (segment offset : Word) (n : ℕ) : Set ℕ :=
  Set.Ico (linear segment offset) (linear segment offset + n)

variable {segment offset : Word} {m m' : Mem}

theorem linear_add {k : ℕ} (h : offset.toNat + k < 2 ^ 16) :
    linear segment (offset + BitVec.ofNat 16 k) = linear segment offset + k := by
  rw [linear, linear, BitVec.toNat_add, BitVec.toNat_ofNat]
  omega

theorem linear_sub {k : ℕ} (h : k ≤ offset.toNat) :
    linear segment (offset - BitVec.ofNat 16 k) = linear segment offset - k := by
  have hlt := offset.isLt
  rw [linear, linear, BitVec.toNat_sub, BitVec.toNat_ofNat]
  omega

theorem linear_succ_ne : linear segment offset ≠ linear segment (offset + 1) := by
  have hone : (1 : Word).toNat = 1 := rfl
  have hlt := offset.isLt
  rw [linear, linear, BitVec.toNat_add, hone]
  omega

theorem loadByte_storeByte (b : Byte) :
    loadByte (storeByte m segment offset b) segment offset = b :=
  Function.update_self _ _ _

theorem loadByte_storeByte_ne {segment' offset' : Word} (b : Byte)
    (h : linear segment' offset' ≠ linear segment offset) :
    loadByte (storeByte m segment offset b) segment' offset' = loadByte m segment' offset' :=
  Function.update_of_ne h _ _

theorem loadWord_storeWord (w : Word) :
    loadWord (storeWord m segment offset w) segment offset = w := by
  rw [loadWord, storeWord, loadByte_storeByte, loadByte_storeByte_ne _ linear_succ_ne,
    loadByte_storeByte]
  have hlt := w.isLt
  apply BitVec.eq_of_toNat_eq
  rw [word_toNat, hi_toNat, lo_toNat]
  omega

theorem storeByte_eqOn (b : Byte) {A : Set ℕ} (h : linear segment offset ∈ A) :
    Set.EqOn (storeByte m segment offset b) m Aᶜ := by
  intro x hx
  have hne : x ≠ linear segment offset := fun heq => hx (heq.symm ▸ h)
  exact Function.update_of_ne hne _ _

theorem storeWord_eqOn (w : Word) {A : Set ℕ} (hoffset : offset.toNat + 1 < 2 ^ 16)
    (h : block segment offset 2 ⊆ A) : Set.EqOn (storeWord m segment offset w) m Aᶜ := by
  have hsucc : linear segment (offset + 1) = linear segment offset + 1 := linear_add hoffset
  have hhigh : linear segment (offset + 1) ∈ A := h ⟨by omega, by omega⟩
  have hlow : linear segment offset ∈ A := h ⟨le_rfl, by omega⟩
  exact (storeByte_eqOn _ hhigh).trans (storeByte_eqOn _ hlow)

theorem loadWord_congr (hoffset : offset.toNat + 1 < 2 ^ 16)
    (h : Set.EqOn m' m (block segment offset 2)) :
    loadWord m' segment offset = loadWord m segment offset := by
  have hsucc : linear segment (offset + 1) = linear segment offset + 1 := linear_add hoffset
  have hhigh : loadByte m' segment (offset + 1) = loadByte m segment (offset + 1) :=
    h ⟨by omega, by omega⟩
  have hlow : loadByte m' segment offset = loadByte m segment offset := h ⟨le_rfl, by omega⟩
  rw [loadWord, loadWord, hhigh, hlow]

end Addresses

/-! ### Products and quotients -/

section Arithmetic

def mul (ax x : Word) : Word × Word :=
  (BitVec.ofNat 16 (ax.toNat * x.toNat / 2 ^ 16), ax * x)

/-- `div`: quotient and remainder of `dx:ax`, or the fault of a quotient that has no room. -/
def div (dx ax x : Word) : Option (Word × Word) :=
  let n := dx.toNat * 2 ^ 16 + ax.toNat
  if x.toNat ≠ 0 ∧ n / x.toNat < 2 ^ 16 then
    some (BitVec.ofNat 16 (n / x.toNat), BitVec.ofNat 16 (n % x.toNat))
  else none

theorem div_word {ax x : Word} (hx : x.toNat ≠ 0) : div 0 ax x =
    some (BitVec.ofNat 16 (ax.toNat / x.toNat), BitVec.ofNat 16 (ax.toNat % x.toNat)) := by
  have hn : (0 : Word).toNat * 2 ^ 16 + ax.toNat = ax.toNat := by simp
  have hlt : ax.toNat / x.toNat < 2 ^ 16 := (Nat.div_le_self _ _).trans_lt ax.isLt
  rw [div]
  simp only [hn]
  rw [if_pos ⟨hx, hlt⟩]

end Arithmetic

/-! ### Cylinder, head and sector -/

section Geometry

/-- The two high bits of a cylinder stand above the sector. -/
def cylinder (cx : Word) : ℕ := (hi cx).toNat + (lo cx).toNat / 64 * 256
def sector (cx : Word) : ℕ := (lo cx).toNat % 64
def head (dx : Word) : ℕ := (hi dx).toNat

/-- The place of a sector on a disk of so many heads and so many sectors a track. -/
def place (heads sectors : ℕ) (cx dx : Word) : ℕ :=
  (cylinder cx * heads + head dx) * sectors + (sector cx - 1)

end Geometry

/-! ### The machine and its stack -/

section Stack

/-- Some registers, the direction flag, the memory, and the interrupts called so far. -/
structure Machine (κ : Type) where
  ax : Word
  bx : Word
  cx : Word
  dx : Word
  si : Word
  di : Word
  ds : Word
  es : Word
  ss : Word
  sp : Word
  direction : Bool
  mem : Mem
  calls : List κ

/-- What ends a run in the middle: fuel, the fault of a division, a return to elsewhere than behind
    the call, or an interrupt that does not come back. -/
inductive Stop (κ : Type) where
  | fuel
  | divide
  | astray
  | ended (s : Machine κ)

variable {κ : Type}

@[simp] theorem ok_bind {α β : Type} (a : α) (f : α → Except (Stop κ) β) :
    (Except.ok a >>= f) = f a := rfl

def Machine.top (s : Machine κ) : ℕ := linear s.ss s.sp

def push (w : Word) (s : Machine κ) : Machine κ :=
  { s with sp := s.sp - 2, mem := storeWord s.mem s.ss (s.sp - 2) w }

def pop (s : Machine κ) : Word × Machine κ :=
  (loadWord s.mem s.ss s.sp, { s with sp := s.sp + 2 })

def call (ip : Word) (routine : Machine κ → Except (Stop κ) (Machine κ)) (s : Machine κ) :
    Except (Stop κ) (Machine κ) := do
  let s ← routine (push ip s)
  let (target, s) := pop s
  if target = ip then .ok s else .error .astray

def lodsb (s : Machine κ) : Machine κ :=
  { s with
    ax := setLo s.ax (loadByte s.mem s.ds s.si)
    si := if s.direction then s.si - 1 else s.si + 1 }

end Stack

/-! ### What a routine keeps -/

section Frames
variable {κ : Type} {floor : ℕ} {R : Set ℕ} {s t u : Machine κ}

/-- Segments and stack are as they were, and memory changes in `R` and below the stack's top. -/
structure Stays (floor : ℕ) (R : Set ℕ) (s t : Machine κ) : Prop where
  ds : t.ds = s.ds
  es : t.es = s.es
  ss : t.ss = s.ss
  sp : t.sp = s.sp
  direction : t.direction = s.direction
  mem : Set.EqOn t.mem s.mem (R ∪ Set.Ico floor s.top)ᶜ

theorem Stays.refl (s : Machine κ) : Stays floor R s s := ⟨rfl, rfl, rfl, rfl, rfl, fun _ _ => rfl⟩

theorem Stays.top (h : Stays floor R s t) : t.top = s.top := by
  rw [Machine.top, Machine.top, h.ss, h.sp]

theorem Stays.trans (h : Stays floor R s t) (h' : Stays floor R t u) : Stays floor R s u where
  ds := h'.ds.trans h.ds
  es := h'.es.trans h.es
  ss := h'.ss.trans h.ss
  sp := h'.sp.trans h.sp
  direction := h'.direction.trans h.direction
  mem := (h.top ▸ h'.mem).trans h.mem

theorem Stays.mono {R' : Set ℕ} (h : Stays floor R s t) (hR : R ⊆ R') : Stays floor R' s t :=
  { h with mem := h.mem.mono (Set.compl_subset_compl.2 (Set.union_subset_union_left _ hR)) }

/-- So many bytes of stack lie free between the floor and the top, and `R` is apart from them. -/
structure Room (floor : ℕ) (R : Set ℕ) (n : ℕ) (s : Machine κ) : Prop where
  sp : n ≤ s.sp.toNat
  space : floor + n ≤ s.top
  apart : Disjoint R (Set.Ico floor s.top)

theorem Room.mono {n k : ℕ} (h : Room floor R n s) (hk : k ≤ n) : Room floor R k s :=
  ⟨hk.trans h.sp, (Nat.add_le_add_left hk floor).trans h.space, h.apart⟩

theorem Room.stays {n : ℕ} (h : Room floor R n s) (hst : Stays floor R s t) : Room floor R n t :=
  ⟨hst.sp ▸ h.sp, hst.top ▸ h.space, hst.top ▸ h.apart⟩

theorem top_push (w : Word) (h : 2 ≤ s.sp.toNat) : (push w s).top = s.top - 2 := linear_sub h

theorem toNat_sub_two (h : 2 ≤ s.sp.toNat) : (s.sp - 2).toNat + 2 = s.sp.toNat := by
  have htwo : (2 : Word).toNat = 2 := rfl
  rw [BitVec.toNat_sub_of_le (by rw [BitVec.le_def, htwo]; omega), htwo]
  omega

theorem block_push (w : Word) (hroom : Room floor R 2 s) :
    block s.ss (s.sp - 2) 2 ⊆ Set.Ico floor s.top := by
  have hspace := hroom.space
  have htop := top_push w hroom.sp
  intro x hx
  have hle : (push w s).top ≤ x := hx.1
  have hlt : x < (push w s).top + 2 := hx.2
  exact ⟨by omega, by omega⟩

theorem push_eqOn (w : Word) (hroom : Room floor R 2 s) :
    Set.EqOn (push w s).mem s.mem (Set.Ico floor s.top)ᶜ := by
  have hlt := s.sp.isLt
  have hsp := toNat_sub_two hroom.sp
  exact storeWord_eqOn w (by omega) (block_push w hroom)

theorem Room.push {n : ℕ} (h : Room floor R (n + 2) s) (w : Word) :
    Room floor R n (push w s) := by
  have hsp := h.sp
  have hspace := h.space
  have htop := top_push w (s := s) (by omega)
  have hnew := toNat_sub_two (s := s) (by omega)
  refine ⟨?_, by omega, h.apart.mono_right (Set.Ico_subset_Ico_right (by omega))⟩
  change n ≤ (s.sp - 2).toNat
  omega

/-- A word comes back as it was pushed when what lies between keeps to `R` and to the bytes below
    it. -/
theorem Stays.popped {w : Word} (h : Stays floor R (push w s) t) (hroom : Room floor R 2 s) :
    (pop t).1 = w ∧ Stays floor R s (pop t).2 := by
  have htop := top_push w hroom.sp
  have hlt := s.sp.isLt
  have hsp := toNat_sub_two hroom.sp
  refine ⟨?_, h.ds, h.es, h.ss, ?_, h.direction, ?_⟩
  · have hword : loadWord t.mem s.ss (s.sp - 2) = loadWord (push w s).mem s.ss (s.sp - 2) := by
      apply loadWord_congr (by omega)
      apply h.mem.mono
      rintro x hx (hmem | hmem)
      · exact Set.disjoint_left.1 hroom.apart hmem (block_push w hroom hx)
      · have hle : (push w s).top ≤ x := hx.1
        exact absurd hmem.2 (by omega)
    rw [pop, h.ss, h.sp]
    exact hword.trans (loadWord_storeWord w)
  · change t.sp + 2 = s.sp
    rw [h.sp]
    exact BitVec.sub_add_cancel _ _
  · change Set.EqOn t.mem s.mem _
    have hpush : Set.EqOn (push w s).mem s.mem (R ∪ Set.Ico floor s.top)ᶜ :=
      (push_eqOn w hroom).mono (Set.compl_subset_compl.2 Set.subset_union_right)
    refine (h.mem.mono (Set.compl_subset_compl.2 (Set.union_subset_union_right R ?_))).trans hpush
    exact Set.Ico_subset_Ico_right (by omega)

/-- A routine that keeps to `R` and to its part of the stack returns behind its call. -/
theorem call_ok {ip : Word} {routine : Machine κ → Except (Stop κ) (Machine κ)}
    (hroom : Room floor R 2 s) (hroutine : routine (push ip s) = .ok t)
    (h : Stays floor R (push ip s) t) :
    call ip routine s = .ok (pop t).2 ∧ Stays floor R s (pop t).2 := by
  obtain ⟨htarget, hstays⟩ := h.popped hroom
  refine ⟨?_, hstays⟩
  change (routine (push ip s) >>= fun s => if (pop s).1 = ip then .ok (pop s).2 else _) = _
  rw [hroutine]
  change (if (pop t).1 = ip then _ else _) = _
  rw [if_pos htarget]

theorem call_error {ip : Word} {routine : Machine κ → Except (Stop κ) (Machine κ)} {e : Stop κ}
    (hroutine : routine (push ip s) = .error e) : call ip routine s = .error e := by
  change (routine (push ip s) >>= _) = _
  rw [hroutine]
  rfl

end Frames

end Rizzos.RealMode
