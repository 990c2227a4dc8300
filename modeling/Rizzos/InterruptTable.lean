import Rizzos.MemberWrites
import Rizzos.PageFrameAllocator
import Rizzos.StructLayout

set_option autoImplicit false

/-! The interrupt descriptor table of `interrupts/idt.c` and `interrupts/interrupt_handler.c`. -/
namespace Rizzos.InterruptTable
open ByteMemory Memory MemberWrites PageFrameAllocator StructLayout

structure IDTR where
  size : ℕ
  offset : ℕ

/-- `offset0`, `selector`, `ist`, `type_dpl_p`, `offset1`, `offset2` and `reserved`. -/
def idtDescEntryMembers : List CType :=
  [.uint16, .uint16, .uint8, .uint8, .uint16, .uint32, .uint32]

def sizeofIdtDescEntry : ℕ := 16

example : (place 0 idtDescEntryMembers).1 = [0, 2, 4, 5, 6, 8, 12] ∧
    structSize idtDescEntryMembers = sizeofIdtDescEntry := by
  decide

def selector (m : Mem) (ide : ℕ) : ℕ := loadLE m (ide + 2) 2
def ist (m : Mem) (ide : ℕ) : ℕ := loadLE m (ide + 4) 1
def typeDplP (m : Mem) (ide : ℕ) : ℕ := loadLE m (ide + 5) 1
def reserved (m : Mem) (ide : ℕ) : ℕ := loadLE m (ide + 12) 4

def idtTdplpInterruptGate : ℕ := 0x8E

/-- The frame is used as the allocator hands it out. -/
def idtInitInterruptTable (s : Machine Pfa) : IDTR × Machine Pfa :=
  let (page, t) := pfaRequestPage s
  (⟨0x0FFF, page⟩, t)

def offset0 (offset : BitVec 64) : BitVec 16 := (offset &&& 0x000000000000ffff#64).setWidth 16

def offset1 (offset : BitVec 64) : BitVec 16 :=
  ((offset &&& 0x00000000ffff0000#64) >>> 16).setWidth 16

def offset2 (offset : BitVec 64) : BitVec 32 :=
  ((offset &&& 0xffffffff00000000#64) >>> 32).setWidth 32

def idtSetOffset (ide : ℕ) (offset : BitVec 64) (m : Mem) : Mem :=
  writeAll ide [⟨0, 2, (offset0 offset).toNat⟩, ⟨6, 2, (offset1 offset).toNat⟩,
    ⟨8, 4, (offset2 offset).toNat⟩] m

def idtGetOffset (ide : ℕ) (m : Mem) : BitVec 64 :=
  0#64 ||| BitVec.ofNat 64 (loadLE m ide 2)
    ||| BitVec.ofNat 64 (loadLE m (ide + 6) 2) <<< 16
    ||| BitVec.ofNat 64 (loadLE m (ide + 8) 4) <<< 32

def descEntry (idtr : IDTR) (tableEntry : Byte) : ℕ :=
  wrap (idtr.offset + tableEntry.toNat * sizeofIdtDescEntry)

structure Install where
  tableEntry : Byte
  pointerFunc : BitVec 64

def inthSetInterruptHandler (idtr : IDTR) (m : Mem) (call : Install) : Mem :=
  let idte := descEntry idtr call.tableEntry
  writeAll idte [⟨5, 1, idtTdplpInterruptGate⟩, ⟨2, 2, 0x08⟩]
    (idtSetOffset idte call.pointerFunc m)

def setHandlers (idtr : IDTR) (calls : List Install) (m : Mem) : Mem :=
  calls.foldl (inthSetInterruptHandler idtr) m

/-! ### The three parts of an offset -/

theorem mask_shift {n mask k : ℕ} (width : ℕ) (h : mask >>> k = 2 ^ width - 1) :
    (n &&& mask) >>> k = n / 2 ^ k % 2 ^ width := by
  rw [Nat.shiftRight_and_distrib, h, Nat.and_two_pow_sub_one_eq_mod, Nat.shiftRight_eq_div_pow]

theorem offset0_toNat (offset : BitVec 64) : (offset0 offset).toNat = offset.toNat % 2 ^ 16 := by
  have h : offset.toNat &&& 0xffff = offset.toNat % 2 ^ 16 := Nat.and_two_pow_sub_one_eq_mod _ 16
  rw [offset0, BitVec.toNat_setWidth, BitVec.toNat_and, BitVec.toNat_ofNat]
  exact (congrArg (· % 2 ^ 16) h).trans (Nat.mod_mod _ _)

theorem offset1_toNat (offset : BitVec 64) :
    (offset1 offset).toNat = offset.toNat / 2 ^ 16 % 2 ^ 16 := by
  rw [offset1, BitVec.toNat_setWidth, BitVec.toNat_ushiftRight, BitVec.toNat_and,
    BitVec.toNat_ofNat, mask_shift 16 (by rfl), Nat.mod_mod]

theorem offset2_toNat (offset : BitVec 64) :
    (offset2 offset).toNat = offset.toNat / 2 ^ 32 % 2 ^ 32 := by
  rw [offset2, BitVec.toNat_setWidth, BitVec.toNat_ushiftRight, BitVec.toNat_and,
    BitVec.toNat_ofNat, mask_shift 32 (by rfl), Nat.mod_mod]

/-- Parts without a common bit are put together by `|` as by `+`. -/
theorem or_shift {low high k : ℕ} (h : low < 2 ^ k) : low ||| high <<< k = 2 ^ k * high + low := by
  rw [Nat.or_comm, ← Nat.shiftLeft_add_eq_or_of_lt h, Nat.shiftLeft_eq, Nat.mul_comm]

theorem offset_parts {low middle high : ℕ} (hlow : low < 2 ^ 16) (hmiddle : middle < 2 ^ 16)
    (hhigh : high < 2 ^ 32) :
    (0#64 ||| BitVec.ofNat 64 low ||| BitVec.ofNat 64 middle <<< 16
      ||| BitVec.ofNat 64 high <<< 32).toNat = low + 2 ^ 16 * middle + 2 ^ 32 * high := by
  have hmid : middle <<< 16 % 2 ^ 64 = middle <<< 16 := by
    rw [Nat.shiftLeft_eq]
    omega
  have hhi : high <<< 32 % 2 ^ 64 = high <<< 32 := by
    rw [Nat.shiftLeft_eq]
    omega
  rw [BitVec.zero_or, BitVec.toNat_or, BitVec.toNat_or, BitVec.toNat_shiftLeft,
    BitVec.toNat_shiftLeft, BitVec.toNat_ofNat, BitVec.toNat_ofNat, BitVec.toNat_ofNat,
    Nat.mod_eq_of_lt (by omega : low < 2 ^ 64), Nat.mod_eq_of_lt (by omega : middle < 2 ^ 64),
    Nat.mod_eq_of_lt (by omega : high < 2 ^ 64), hmid, hhi, or_shift hlow, or_shift (by omega)]
  omega

section Gates
variable {idtr : IDTR}

/-- The table fills a frame, as the allocator's pages do. -/
def InPage (idtr : IDTR) : Prop := idtr.offset + 4096 ≤ 2 ^ 64

theorem idtInitInterruptTable_inPage (s : Machine Pfa) : InPage (idtInitInterruptTable s).1 := by
  change framePointer (requestIndex s).1 + 4096 ≤ 2 ^ 64
  cases (requestIndex s).1 with
  | none => decide
  | some i =>
    change wrap (i * 4096) + 4096 ≤ 2 ^ 64
    unfold wrap
    omega

theorem descEntry_eq (h : InPage idtr) (v : Byte) :
    descEntry idtr v = idtr.offset + v.toNat * 16 := by
  have := v.isLt
  unfold InPage at h
  apply wrap_of_lt
  change idtr.offset + v.toNat * 16 < 2 ^ 64
  omega

theorem descEntry_inside (h : InPage idtr) (v : Byte) : descEntry idtr v + 16 ≤ 2 ^ 64 := by
  have := v.isLt
  rw [descEntry_eq h]
  unfold InPage at h
  omega

theorem descEntry_apart (h : InPage idtr) {v w : Byte} (hne : v ≠ w) :
    descEntry idtr v + 16 ≤ descEntry idtr w ∨ descEntry idtr w + 16 ≤ descEntry idtr v := by
  have : v.toNat ≠ w.toNat := fun heq => hne (BitVec.eq_of_toNat_eq heq)
  rw [descEntry_eq h, descEntry_eq h]
  omega

def gateWrites (pointerFunc : BitVec 64) : List Write :=
  [⟨0, 2, (offset0 pointerFunc).toNat⟩, ⟨6, 2, (offset1 pointerFunc).toNat⟩,
    ⟨8, 4, (offset2 pointerFunc).toNat⟩, ⟨5, 1, idtTdplpInterruptGate⟩, ⟨2, 2, 0x08⟩]

theorem inthSetInterruptHandler_eq (m : Mem) (call : Install) :
    inthSetInterruptHandler idtr m call =
      writeAll (descEntry idtr call.tableEntry) (gateWrites call.pointerFunc) m := rfl

theorem gateWrites_fit (f : BitVec 64) : Fit 16 (gateWrites f) := by
  simp [gateWrites, Fit]

theorem gateWrites_apart (f : BitVec 64) :
    (gateWrites f).Pairwise fun w w' => Apart w.offset w.size w'.offset w'.size := by
  simp [gateWrites, Apart]

theorem load_written (h : InPage idtr) (m : Mem) (call : Install) {w : Write}
    (hw : w ∈ gateWrites call.pointerFunc) (hlt : w.value < 256 ^ w.size) :
    loadLE (inthSetInterruptHandler idtr m call)
      (descEntry idtr call.tableEntry + w.offset) w.size = w.value := by
  rw [inthSetInterruptHandler_eq, load_writeAll (descEntry_inside h _) (gateWrites_fit _)
    (gateWrites_apart _) m hw, Nat.mod_eq_of_lt hlt]

theorem load_unassigned (h : InPage idtr) (m : Mem) (call : Install) {offset size : ℕ}
    (hin : offset + size ≤ 16)
    (hapart : ∀ w ∈ gateWrites call.pointerFunc, Apart offset size w.offset w.size) :
    loadLE (inthSetInterruptHandler idtr m call)
        (descEntry idtr call.tableEntry + offset) size =
      loadLE m (descEntry idtr call.tableEntry + offset) size := by
  rw [inthSetInterruptHandler_eq]
  exact load_writeAll_apart (descEntry_inside h _) (gateWrites_fit _) m hin hapart

theorem agree_other (h : InPage idtr) (m : Mem) (call : Install) {v : Byte}
    (hne : call.tableEntry ≠ v) :
    Agree m (inthSetInterruptHandler idtr m call) (descEntry idtr v) 16 := by
  have hapart := descEntry_apart h hne
  have hinside := descEntry_inside h call.tableEntry
  intro x hx hx'
  rw [inthSetInterruptHandler_eq]
  apply writeAll_outside
  intro w hw
  have := gateWrites_fit call.pointerFunc w hw
  apply Outside.of_range <;> omega

theorem idtGetOffset_set (h : InPage idtr) (m : Mem) (call : Install) :
    idtGetOffset (descEntry idtr call.tableEntry) (inthSetInterruptHandler idtr m call) =
      call.pointerFunc := by
  have hf := call.pointerFunc.isLt
  have h0 := (offset0 call.pointerFunc).isLt
  have h1 := (offset1 call.pointerFunc).isLt
  have h2 := (offset2 call.pointerFunc).isLt
  have hlow := load_written h m call (w := ⟨0, 2, (offset0 call.pointerFunc).toNat⟩)
    (by simp [gateWrites]) h0
  have hmiddle := load_written h m call (w := ⟨6, 2, (offset1 call.pointerFunc).toNat⟩)
    (by simp [gateWrites]) h1
  have hhigh := load_written h m call (w := ⟨8, 4, (offset2 call.pointerFunc).toNat⟩)
    (by simp [gateWrites]) h2
  dsimp only at hlow hmiddle hhigh
  rw [Nat.add_zero] at hlow
  apply BitVec.eq_of_toNat_eq
  rw [idtGetOffset, hlow, hmiddle, hhigh, offset_parts h0 h1 h2, offset0_toNat, offset1_toNat,
    offset2_toNat]
  omega

structure Gate (m before : Mem) (ide : ℕ) (handler : Option (BitVec 64)) : Prop where
  ist_eq : ist m ide = ist before ide
  reserved_eq : reserved m ide = reserved before ide
  type_eq : typeDplP m ide = handler.elim (typeDplP before ide) fun _ => idtTdplpInterruptGate
  offset_eq : ∀ f ∈ handler, idtGetOffset ide m = f
  selector_eq : ∀ f ∈ handler, selector m ide = 0x08

theorem gate_set (h : InPage idtr) {m before : Mem} (call : Install) {handler : Option (BitVec 64)}
    (hgate : Gate m before (descEntry idtr call.tableEntry) handler) :
    Gate (inthSetInterruptHandler idtr m call) before (descEntry idtr call.tableEntry)
      (some call.pointerFunc) where
  ist_eq := by
    rw [← hgate.ist_eq]
    apply load_unassigned h m call (by decide)
    simp [gateWrites, Apart]
  reserved_eq := by
    rw [← hgate.reserved_eq]
    apply load_unassigned h m call (by decide)
    simp [gateWrites, Apart]
  type_eq := load_written h m call (w := ⟨5, 1, idtTdplpInterruptGate⟩) (by simp [gateWrites])
    (by decide)
  offset_eq f hf := by
    rw [← Option.some.inj hf]
    exact idtGetOffset_set h m call
  selector_eq _ _ := load_written h m call (w := ⟨2, 2, 0x08⟩) (by simp [gateWrites]) (by decide)

theorem gate_other {m m' before : Mem} {ide : ℕ} {handler : Option (BitVec 64)}
    (hinside : ide + 16 ≤ 2 ^ 64) (hagree : Agree m m' ide 16) (hgate : Gate m before ide handler) :
    Gate m' before ide handler := by
  have hist : ist m' ide = ist m ide := hagree.load hinside (by decide)
  have hreserved : reserved m' ide = reserved m ide := hagree.load hinside (by decide)
  have htype : typeDplP m' ide = typeDplP m ide := hagree.load hinside (by decide)
  have hselector : selector m' ide = selector m ide := hagree.load hinside (by decide)
  have hlow : loadLE m' (ide + 0) 2 = loadLE m (ide + 0) 2 := hagree.load hinside (by decide)
  have hmiddle : loadLE m' (ide + 6) 2 = loadLE m (ide + 6) 2 := hagree.load hinside (by decide)
  have hhigh : loadLE m' (ide + 8) 4 = loadLE m (ide + 8) 4 := hagree.load hinside (by decide)
  have hoffset : idtGetOffset ide m' = idtGetOffset ide m := by
    rw [idtGetOffset, ← Nat.add_zero ide, hlow, hmiddle, hhigh, idtGetOffset]
  exact ⟨hist.trans hgate.ist_eq, hreserved.trans hgate.reserved_eq, htype.trans hgate.type_eq,
    fun f hf => hoffset.trans (hgate.offset_eq f hf),
    fun f hf => hselector.trans (hgate.selector_eq f hf)⟩

def lastInstalled (calls : List Install) (v : Byte) : Option (BitVec 64) :=
  (calls.reverse.find? (·.tableEntry = v)).map (·.pointerFunc)

theorem lastInstalled_append_self (calls : List Install) (call : Install) :
    lastInstalled (calls ++ [call]) call.tableEntry = some call.pointerFunc := by
  simp [lastInstalled]

theorem lastInstalled_append_of_ne (calls : List Install) {call : Install} {v : Byte}
    (hne : call.tableEntry ≠ v) : lastInstalled (calls ++ [call]) v = lastInstalled calls v := by
  simp [lastInstalled, hne]

theorem setHandlers_append (calls : List Install) (call : Install) (m : Mem) :
    setHandlers idtr (calls ++ [call]) m =
      inthSetInterruptHandler idtr (setHandlers idtr calls m) call := by
  rw [setHandlers, List.foldl_append]
  rfl

/-- After any calls, every gate holds what the last call for its vector left there. -/
theorem gate_setHandlers (h : InPage idtr) (calls : List Install) (m : Mem) (v : Byte) :
    Gate (setHandlers idtr calls m) m (descEntry idtr v) (lastInstalled calls v) := by
  induction calls using List.reverseRecOn with
  | nil =>
    exact ⟨rfl, rfl, rfl, fun _ hf => absurd hf (Option.not_mem_none _),
      fun _ hf => absurd hf (Option.not_mem_none _)⟩
  | append_singleton calls call ih =>
    rw [setHandlers_append]
    by_cases heq : call.tableEntry = v
    · rw [← heq, lastInstalled_append_self]
      rw [← heq] at ih
      exact gate_set h call ih
    · rw [lastInstalled_append_of_ne calls heq]
      exact gate_other (descEntry_inside h v) (agree_other h _ call heq) ih

def Present (m : Mem) (ide : ℕ) : Prop := (typeDplP m ide).testBit 7

/-- The gate of each vector is that of the handler installed for it, or not present. -/
def TableMeans (idtr : IDTR) (calls : List Install) (m : Mem) : Prop :=
  ∀ v, match lastInstalled calls v with
    | some f => idtGetOffset (descEntry idtr v) m = f ∧ selector m (descEntry idtr v) = 0x08 ∧
        typeDplP m (descEntry idtr v) = 0x8E ∧ ist m (descEntry idtr v) = 0 ∧
        reserved m (descEntry idtr v) = 0
    | none => ¬ Present m (descEntry idtr v)

/-- The bytes that no call assigns are clear in the frame as it was handed out. -/
def FrameClear (idtr : IDTR) (calls : List Install) (m : Mem) : Prop :=
  ∀ v, match lastInstalled calls v with
    | some _ => ist m (descEntry idtr v) = 0 ∧ reserved m (descEntry idtr v) = 0
    | none => ¬ Present m (descEntry idtr v)

/-- Nothing clears the frame of the table: it means what was installed when the old bytes
    that no handler sets were zero. -/
theorem tableMeans_iff_frameClear (s : Machine Pfa) (calls : List Install) :
    TableMeans (idtInitInterruptTable s).1 calls (setHandlers (idtInitInterruptTable s).1 calls
        (idtInitInterruptTable s).2.mem) ↔
      FrameClear (idtInitInterruptTable s).1 calls (idtInitInterruptTable s).2.mem := by
  have hpage := idtInitInterruptTable_inPage s
  generalize (idtInitInterruptTable s).1 = idtr at hpage ⊢
  generalize (idtInitInterruptTable s).2.mem = m
  apply forall_congr'
  intro v
  have hgate := gate_setHandlers hpage calls m v
  cases hlast : lastInstalled calls v with
  | none =>
    rw [hlast] at hgate
    change ¬ Present _ _ ↔ ¬ Present _ _
    rw [Present, hgate.type_eq]
    rfl
  | some f =>
    rw [hlast] at hgate
    dsimp only
    rw [hgate.ist_eq, hgate.reserved_eq]
    constructor
    · exact fun hall => hall.2.2.2
    · exact fun hold => ⟨hgate.offset_eq f rfl, hgate.selector_eq f rfl, hgate.type_eq, hold⟩

def dirtyFrame : Machine Pfa where
  mem a := if a = 0x10000 then 0#8 else 0xff#8
  alloc := { initialPfa with pageBitmap := ⟨1, 0x10000⟩, lastReservedPage := 1 }

/-- The double fault handler alone, in a frame full of ones. -/
theorem not_tableMeans_dirtyFrame :
    (idtInitInterruptTable dirtyFrame).1.offset = 0x1000 ∧
    ¬ TableMeans (idtInitInterruptTable dirtyFrame).1 [⟨0x8, 0x100000⟩]
      (setHandlers (idtInitInterruptTable dirtyFrame).1 [⟨0x8, 0x100000⟩]
        (idtInitInterruptTable dirtyFrame).2.mem) := by
  refine ⟨by decide +kernel, ?_⟩
  intro hmeans
  have hist := (hmeans 0x8#8).2.2.2.1
  revert hist
  decide +kernel

end Gates

end Rizzos.InterruptTable
