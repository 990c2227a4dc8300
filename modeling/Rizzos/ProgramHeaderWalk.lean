import Rizzos.ElfLoader

set_option autoImplicit false

/-! The loop of `efi_main` over the program headers. The stride and the end come from the file,
their product is one of the type `int`, and each turn reads both again. -/
namespace Rizzos.ProgramHeaderWalk
open ByteMemory CInt ElfLoader

def tableSize (header : ElfHeader) : ℤ := int32 (header.e_phnum * header.e_phentsize : ℕ)

def allocatedSize (header : ElfHeader) : ℕ := uint64 (tableSize header)

theorem tableSize_lt (header : ElfHeader) : tableSize header < 2 ^ 31 := by
  unfold tableSize int32
  omega

theorem tableSize_of_lt {header : ElfHeader} (h : header.e_phnum * header.e_phentsize < 2 ^ 31) :
    tableSize header = (header.e_phnum * header.e_phentsize : ℕ) := int32_ofNat_of_lt h

theorem stride_pos {header : ElfHeader} (h : 0 < tableSize header) : 0 < header.e_phentsize := by
  apply Nat.pos_of_ne_zero
  intro hzero
  have hsize : tableSize header = 0 := by
    rw [tableSize, hzero, Nat.mul_zero]
    rfl
  omega

section Loop
variable {σ : Type} (headerOf : σ → ElfHeader) (visit : ℕ → σ → σ) (phdrs : ℕ)

/-- The `for` loop from the pointer `phdr` on. There is no result without enough fuel. -/
def headersLoop : ℕ → ℕ → σ → Option σ
  | 0, _, _ => none
  | fuel + 1, phdr, s =>
    if (phdr : ℤ) < phdrs + tableSize (headerOf s) then
      let s := visit phdr s
      headersLoop fuel (phdr + (headerOf s).e_phentsize) s
    else some s

def turn (s : σ) : ℕ → ℕ × σ
  | 0 => (phdrs, s)
  | k + 1 =>
    let (phdr, s) := turn s k
    let s := visit phdr s
    (phdr + (headerOf s).e_phentsize, s)

def Continues (s : σ) (k : ℕ) : Prop :=
  ((turn headerOf visit phdrs s k).1 : ℤ) <
    phdrs + tableSize (headerOf (turn headerOf visit phdrs s k).2)

structure EndsAt (s : σ) (n : ℕ) : Prop where
  before : ∀ j < n, Continues headerOf visit phdrs s j
  stops : ¬ Continues headerOf visit phdrs s n

variable {headerOf visit phdrs} {s : σ}

theorem le_turn (k : ℕ) : phdrs ≤ (turn headerOf visit phdrs s k).1 := by
  induction k with
  | zero => exact le_rfl
  | succ k ih => exact ih.trans (Nat.le_add_right _ _)

/-- A test that holds has seen a positive product, so the pointer has moved. -/
theorem turn_advances {k : ℕ} (h : ∀ j ≤ k, Continues headerOf visit phdrs s j) :
    phdrs + k ≤ (turn headerOf visit phdrs s k).1 := by
  induction k with
  | zero => exact le_rfl
  | succ k ih =>
    have hbefore := ih fun j hj => h j (Nat.le_succ_of_le hj)
    have htest := h (k + 1) le_rfl
    have hle : phdrs ≤ (turn headerOf visit phdrs s (k + 1)).1 := le_turn (k + 1)
    have hstride : 0 < (headerOf (turn headerOf visit phdrs s (k + 1)).2).e_phentsize := by
      apply stride_pos
      unfold Continues at htest
      omega
    have hnext : (turn headerOf visit phdrs s (k + 1)).1 = (turn headerOf visit phdrs s k).1 +
        (headerOf (turn headerOf visit phdrs s (k + 1)).2).e_phentsize := rfl
    omega

/-- The loop ends whatever the turns do to the header: it moves on by a byte at least, and no
    product reaches `2 ^ 31`. -/
theorem exists_endsAt (s : σ) : ∃ n, EndsAt headerOf visit phdrs s n := by
  classical
  have hend : ∃ n, ¬ Continues headerOf visit phdrs s n := by
    by_contra! hall
    have hmoved := turn_advances (k := 2 ^ 31) fun j _ => hall j
    have htest := hall (2 ^ 31)
    have hsize := tableSize_lt (headerOf (turn headerOf visit phdrs s (2 ^ 31)).2)
    unfold Continues at htest
    omega
  exact ⟨Nat.find hend, fun j hj => not_not.1 (Nat.find_min hend hj), Nat.find_spec hend⟩

theorem headersLoop_turn {n k : ℕ} (h : EndsAt headerOf visit phdrs s n) (hk : k ≤ n) (fuel : ℕ) :
    headersLoop headerOf visit phdrs fuel (turn headerOf visit phdrs s k).1
        (turn headerOf visit phdrs s k).2 =
      if n - k < fuel then some (turn headerOf visit phdrs s n).2 else none := by
  induction fuel generalizing k with
  | zero => rfl
  | succ fuel ih =>
    by_cases hlt : k < n
    · have htest := h.before k hlt
      have hleft : n - (k + 1) < fuel ↔ n - k < fuel + 1 := by omega
      unfold Continues at htest
      rw [headersLoop, if_pos htest, ← if_congr hleft rfl rfl]
      exact ih hlt
    · obtain rfl : k = n := by omega
      have htest := h.stops
      unfold Continues at htest
      rw [headersLoop, if_neg htest, if_pos (by omega)]

theorem headersLoop_eq {n : ℕ} (h : EndsAt headerOf visit phdrs s n) (fuel : ℕ) :
    headersLoop headerOf visit phdrs fuel phdrs s =
      if n < fuel then some (turn headerOf visit phdrs s n).2 else none :=
  headersLoop_turn h (Nat.zero_le n) fuel

end Loop

structure Access where
  address : ℕ
  size : ℕ

structure Walk where
  mem : Mem
  reads : List Access

/-- One turn of the loop. What the firmware does to load a segment is a parameter. -/
def visit (load : ProgramHeader → Mem → Mem) (phdr : ℕ) (s : Walk) : Walk :=
  let header := programHeaderAt s.mem phdr
  if header.p_type = ptLoad then
    { mem := load header s.mem
      reads := s.reads ++ [⟨phdr, 4⟩, ⟨phdr + 40, 8⟩, ⟨phdr + 24, 8⟩, ⟨phdr + 8, 8⟩,
        ⟨phdr + 32, 8⟩] }
  else { s with reads := s.reads ++ [⟨phdr, 4⟩] }

section Bounds
variable (header phdrs : ℕ) (load : ProgramHeader → Mem → Mem) (sized m : Mem)

/-- The loop over the buffer at `phdrs`. The header stands in memory at `header`. -/
def walk (fuel : ℕ) : Option Walk :=
  headersLoop (fun s => elfHeaderAt s.mem header) (visit load) phdrs fuel phdrs ⟨m, []⟩

abbrev walkTurn (k : ℕ) : ℕ × Walk :=
  turn (fun s => elfHeaderAt s.mem header) (visit load) phdrs ⟨m, []⟩ k

def Reached (k : ℕ) : Prop :=
  ∀ j ≤ k, Continues (fun s => elfHeaderAt s.mem header) (visit load) phdrs ⟨m, []⟩ j

def product : ℕ := (elfHeaderAt sized header).e_phnum * (elfHeaderAt sized header).e_phentsize

/-- The buffer has the exact size, and the loop ends with all its reads in it. `m` is the memory
    that `ReadElfProgramHeader` leaves. -/
def WalkBounded : Prop :=
  allocatedSize (elfHeaderAt sized header) = product header sized ∧
  ∃ fuel s, walk header phdrs load m fuel = some s ∧ ∀ r ∈ s.reads,
    phdrs ≤ r.address ∧ r.address + r.size ≤ phdrs + product header sized

/-- The size fits an `int`, and each program header that the loop gets to has room for what is
    read of it. -/
def HeadersFit : Prop :=
  product header sized < 2 ^ 31 ∧ ∀ k, Reached header phdrs load m k →
    (walkTurn header phdrs load m k).1 + 4 ≤ phdrs + product header sized ∧
    (load32 (walkTurn header phdrs load m k).2.mem (walkTurn header phdrs load m k).1 = ptLoad →
      (walkTurn header phdrs load m k).1 + 48 ≤ phdrs + product header sized)

variable {header phdrs load sized m}

theorem allocatedSize_iff : allocatedSize (elfHeaderAt sized header) = product header sized ↔
    product header sized < 2 ^ 31 := by
  have hnum : (elfHeaderAt sized header).e_phnum < 2 ^ 16 := loadLE_lt sized _ 2
  have hsize : (elfHeaderAt sized header).e_phentsize < 2 ^ 16 := loadLE_lt sized _ 2
  have hlt : product header sized < 2 ^ 16 * 2 ^ 16 := Nat.mul_lt_mul'' hnum hsize
  unfold allocatedSize tableSize
  rw [← product]
  generalize product header sized = size at hlt ⊢
  unfold uint64 int32
  omega

theorem visit_inside_iff (s : Walk) (phdr lo hi : ℕ) (hlo : lo ≤ phdr) :
    (∀ r ∈ (visit load phdr s).reads, lo ≤ r.address ∧ r.address + r.size ≤ hi) ↔
      (∀ r ∈ s.reads, lo ≤ r.address ∧ r.address + r.size ≤ hi) ∧ phdr + 4 ≤ hi ∧
      (load32 s.mem phdr = ptLoad → phdr + 48 ≤ hi) := by
  change (∀ r ∈ (if load32 s.mem phdr = ptLoad then _ else _ : Walk).reads, _) ↔ _
  split
  · rw [List.forall_mem_append]
    simp only [List.forall_mem_cons, List.not_mem_nil, false_imp_iff, implies_true, and_true]
    apply and_congr_right'
    omega
  · rename_i htype
    rw [List.forall_mem_append, List.forall_mem_singleton]
    apply and_congr_right'
    constructor
    · exact fun h => ⟨h.2, fun hload => absurd hload htype⟩
    · exact fun h => ⟨hlo, h.1⟩

theorem walkTurn_inside_iff (hi n : ℕ) :
    (∀ r ∈ (walkTurn header phdrs load m n).2.reads, phdrs ≤ r.address ∧ r.address + r.size ≤ hi) ↔
      ∀ k < n, (walkTurn header phdrs load m k).1 + 4 ≤ hi ∧
        (load32 (walkTurn header phdrs load m k).2.mem (walkTurn header phdrs load m k).1 = ptLoad →
          (walkTurn header phdrs load m k).1 + 48 ≤ hi) := by
  induction n with
  | zero => simp [turn]
  | succ n ih =>
    change (∀ r ∈ (visit load (walkTurn header phdrs load m n).1
      (walkTurn header phdrs load m n).2).reads, _) ↔ _
    rw [visit_inside_iff _ _ _ _ (le_turn n), ih]
    constructor
    · intro h k hk
      rcases Nat.lt_succ_iff_lt_or_eq.1 hk with hlt | heq
      · exact h.1 k hlt
      · rw [heq]
        exact h.2
    · exact fun h => ⟨fun k hk => h k (by omega), h n (by omega)⟩

theorem walk_inside_iff (hi : ℕ) :
    (∃ fuel s, walk header phdrs load m fuel = some s ∧ ∀ r ∈ s.reads,
      phdrs ≤ r.address ∧ r.address + r.size ≤ hi) ↔
      ∀ k, Reached header phdrs load m k → (walkTurn header phdrs load m k).1 + 4 ≤ hi ∧
        (load32 (walkTurn header phdrs load m k).2.mem (walkTurn header phdrs load m k).1 = ptLoad →
          (walkTurn header phdrs load m k).1 + 48 ≤ hi) := by
  obtain ⟨n, hend⟩ : ∃ n, EndsAt (fun s => elfHeaderAt s.mem header) (visit load) phdrs ⟨m, []⟩ n :=
    exists_endsAt _
  have hreached : ∀ k, Reached header phdrs load m k ↔ k < n := by
    intro k
    constructor
    · intro h
      by_contra hle
      exact hend.stops (h n (by omega))
    · exact fun hk j hj => hend.before j (by omega)
  simp only [hreached, ← walkTurn_inside_iff]
  constructor
  · rintro ⟨fuel, s, hwalk, hreads⟩
    rw [walk, headersLoop_eq hend] at hwalk
    split at hwalk
    · rwa [← Option.some.inj hwalk] at hreads
    · exact absurd hwalk (Option.some_ne_none s).symm
  · intro hreads
    exact ⟨n + 1, _, (headersLoop_eq hend _).trans (if_pos (Nat.lt_succ_self n)), hreads⟩

end Bounds

/-- The walk stays in its buffer when the size fits an `int` and no header that the loop gets to
    is too short for the members that are read of it. -/
theorem walkBounded_iff_headersFit (header phdrs : ℕ) (load : ProgramHeader → Mem → Mem)
    (sized m : Mem) :
    WalkBounded header phdrs load sized m ↔ HeadersFit header phdrs load sized m := by
  rw [WalkBounded, HeadersFit, allocatedSize_iff, walk_inside_iff]

def byteHeaders : Mem := fun a => if a = 54 ∨ a = 56 then 1#8 else 0#8

/-- One byte is allocated, and the four bytes of `p_type` are read from it. -/
theorem not_walkBounded_byteHeaders :
    ¬ WalkBounded 0 0x1000 (fun _ m => m) byteHeaders byteHeaders := by
  rintro ⟨-, hwalk⟩
  have hsize : tableSize (elfHeaderAt byteHeaders 0) = 1 := by decide +kernel
  have hproduct : product 0 byteHeaders = 1 := by decide +kernel
  have hreached : Reached 0 0x1000 (fun _ m => m) byteHeaders 0 := by
    intro j hj
    rw [Nat.le_zero.1 hj]
    change (0x1000 : ℤ) < 0x1000 + tableSize (elfHeaderAt byteHeaders 0)
    rw [hsize]
    decide
  have hroom : 0x1000 + 4 ≤ 0x1000 + product 0 byteHeaders :=
    (walk_inside_iff _).1 hwalk 0 hreached |>.1
  rw [hproduct] at hroom
  exact absurd hroom (by decide)

section Kept
variable (header phdrs : ℕ) (load : ProgramHeader → Mem → Mem) (sized m : Mem)

/-- No turn changes the two members of the header. -/
def HeaderKept : Prop :=
  ∀ k, (elfHeaderAt (walkTurn header phdrs load m k).2.mem header).e_phnum =
      (elfHeaderAt sized header).e_phnum ∧
    (elfHeaderAt (walkTurn header phdrs load m k).2.mem header).e_phentsize =
      (elfHeaderAt sized header).e_phentsize

def TableFits : Prop :=
  product header sized < 2 ^ 31 ∧
  (product header sized = 0 ∨ 4 ≤ (elfHeaderAt sized header).e_phentsize ∧
    ∀ k < (elfHeaderAt sized header).e_phnum,
      load32 (walkTurn header phdrs load m k).2.mem
        (phdrs + k * (elfHeaderAt sized header).e_phentsize) = ptLoad →
      48 ≤ ((elfHeaderAt sized header).e_phnum - k) * (elfHeaderAt sized header).e_phentsize)

variable {header phdrs load sized m}

theorem HeaderKept.pointer (h : HeaderKept header phdrs load sized m) (k : ℕ) :
    (walkTurn header phdrs load m k).1 = phdrs + k * (elfHeaderAt sized header).e_phentsize := by
  induction k with
  | zero => simp [turn]
  | succ k ih =>
    have hnext : (walkTurn header phdrs load m (k + 1)).1 = (walkTurn header phdrs load m k).1 +
        (elfHeaderAt (walkTurn header phdrs load m (k + 1)).2.mem header).e_phentsize := rfl
    rw [hnext, ih, (h (k + 1)).2, Nat.succ_mul, Nat.add_assoc]

theorem HeaderKept.reached_iff (h : HeaderKept header phdrs load sized m)
    (hlt : product header sized < 2 ^ 31) (k : ℕ) : Reached header phdrs load m k ↔
      k * (elfHeaderAt sized header).e_phentsize < product header sized := by
  have htest : ∀ j, Continues (fun s => elfHeaderAt s.mem header) (visit load) phdrs ⟨m, []⟩ j ↔
      j * (elfHeaderAt sized header).e_phentsize < product header sized := by
    intro j
    have hsize : tableSize (elfHeaderAt (walkTurn header phdrs load m j).2.mem header) =
        (product header sized : ℕ) := by
      rw [tableSize, (h j).1, (h j).2]
      exact tableSize_of_lt hlt
    have hpointer := h.pointer j
    unfold Continues
    rw [hsize, hpointer]
    omega
  constructor
  · exact fun hreached => (htest k).1 (hreached k le_rfl)
  · exact fun hk j hj => (htest j).2 ((Nat.mul_le_mul_right _ hj).trans_lt hk)

theorem room_iff {k n stride size : ℕ} (hk : k ≤ n) :
    phdrs + k * stride + size ≤ phdrs + n * stride ↔ size ≤ (n - k) * stride := by
  have hmul : k * stride ≤ n * stride := Nat.mul_le_mul_right _ hk
  rw [Nat.sub_mul]
  omega

/-- Where no segment is loaded over the header, only the last headers can be too short. -/
theorem headersFit_iff_tableFits (h : HeaderKept header phdrs load sized m) :
    HeadersFit header phdrs load sized m ↔ TableFits header phdrs load sized m := by
  apply and_congr_right
  intro hlt
  simp only [h.reached_iff hlt, h.pointer]
  unfold product
  generalize (elfHeaderAt sized header).e_phnum = n
  generalize (elfHeaderAt sized header).e_phentsize = stride
  rcases Nat.eq_zero_or_pos (n * stride) with hzero | hpos
  · rw [hzero]
    exact iff_of_true (fun k hk => absurd hk (Nat.not_lt_zero _)) (.inl rfl)
  have hnum : 0 < n := Nat.pos_of_mul_pos_right hpos
  have hstride : 0 < stride := Nat.pos_of_mul_pos_left hpos
  rw [or_iff_right hpos.ne']
  simp only [Nat.mul_lt_mul_right hstride]
  constructor
  · intro hroom
    have hlast := (room_iff (by omega)).1 (hroom (n - 1) (by omega)).1
    rw [show n - (n - 1) = 1 by omega, Nat.one_mul] at hlast
    exact ⟨hlast, fun k hk htype => (room_iff hk.le).1 ((hroom k hk).2 htype)⟩
  · rintro ⟨hsize, hloads⟩ k hk
    have hleft : 1 * stride ≤ (n - k) * stride := Nat.mul_le_mul_right _ (by omega)
    exact ⟨(room_iff hk.le).2 (by omega), fun htype => (room_iff hk.le).2 (hloads k hk htype)⟩

end Kept

end Rizzos.ProgramHeaderWalk
