import Rizzos.Ahci

set_option autoImplicit false

/-! What `AHCI_Port_Configure` leaves in memory, for every sequence of frames that it is given:
the command list, the area for received FISes, and the frame of each header in turn. -/
namespace Rizzos.AhciConfigure
open ByteMemory Memory MemberWrites Ahci

/-- An allocator that hands out the given frames one after the other. -/
def nextFrame (frames : ℕ → ℕ) (s : Machine ℕ) : ℕ × Machine ℕ :=
  (frames s.alloc, { s with alloc := s.alloc + 1 })

def requestCount : ℕ := 34

/-- The frames of one call: whole pages of the 52-bit physical address space. -/
structure FrameSequence (frames : ℕ → ℕ) : Prop where
  aligned : ∀ k < requestCount, frames k % 4096 = 0
  bound : ∀ k < requestCount, frames k < 2 ^ 52

def tableFrame (frames : ℕ → ℕ) (i : ℕ) : ℕ := frames (i + 2)

def headersMem (frames : ℕ → ℕ) (m : Mem) (n : ℕ) : Machine ℕ :=
  configureHeaders (nextFrame frames) (frames 0) n ⟨memSet m (frames 1) 0 256, 2⟩

def configuredMem (frames : ℕ → ℕ) (m : Mem) : Mem := (headersMem frames m 32).mem

section Registers
variable {frames : ℕ → ℕ} {hba : Controller} {fuel : ℕ} {m : Mem} {port : HBAPort} {issued : Bool}
  {s : PortState ℕ}

theorem address_ofNat {a : ℕ} (h : a < 2 ^ 64) :
    address (BitVec.ofNat 32 a) (BitVec.ofNat 32 (a >>> 32)) = a := by
  rw [address, BitVec.toNat_ofNat, BitVec.toNat_ofNat, Nat.shiftRight_eq_div_pow]
  omega

theorem portStartCMD_cases {n : ℕ} {s s' : PortState ℕ}
    (h : portStartCMD hba fuel n s = some s') : s'.mem = s.mem ∧
      s'.hbaPort = { s.hbaPort with cmdSts := s'.hbaPort.cmdSts } := by
  obtain ⟨n', -, rfl⟩ := Option.map_eq_some_iff.1 h
  exact ⟨rfl, rfl⟩

theorem portConfigure_cases (hframes : FrameSequence frames)
    (h : portConfigure (nextFrame frames) hba fuel ⟨⟨m, 0⟩, port, issued⟩ = some s) :
    s.mem = configuredMem frames m ∧
    s.hbaPort.commandListBase = BitVec.ofNat 32 (frames 0) ∧
    s.hbaPort.commandList = frames 0 ∧ s.hbaPort.fisBase = frames 1 := by
  have hlist : address (BitVec.ofNat 32 (frames 0)) (BitVec.ofNat 32 (frames 0 >>> 32)) =
      frames 0 := address_ofNat ((hframes.bound 0 (by decide)).trans (by decide))
  have hfis : address (BitVec.ofNat 32 (frames 1)) (BitVec.ofNat 32 (frames 1 >>> 32)) =
      frames 1 := address_ofNat ((hframes.bound 1 (by decide)).trans (by decide))
  obtain ⟨⟨s₁, n⟩, hstop, hstart⟩ := Option.bind_eq_some_iff.1 h
  obtain ⟨n', -, heq⟩ := Option.map_eq_some_iff.1 hstop
  obtain ⟨rfl, rfl⟩ := Prod.mk.inj heq
  obtain ⟨hmem, hport⟩ := portStartCMD_cases hstart
  refine ⟨?_, ?_, ?_, ?_⟩
  · rw [hmem]
    change (configureHeaders (nextFrame frames)
      (address (BitVec.ofNat 32 (frames 0)) (BitVec.ofNat 32 (frames 0 >>> 32))) 32
      ⟨memSet m (frames 1) 0 256, 2⟩).mem = _
    rw [hlist]
    rfl
  · rw [hport]
    rfl
  · rw [hport]
    exact hlist
  · rw [hport]
    exact hfis

/-- Only the controller decides whether the call returns. -/
theorem portConfigure_returns_iff (s : PortState ℕ) :
    (∃ s', portConfigure (nextFrame frames) hba fuel s = some s') ↔
      ∃ n n', stopLoop hba.cmdSts fuel 2 = some n ∧ startLoop hba.cmdSts fuel n = some n' := by
  constructor
  · rintro ⟨s', h⟩
    obtain ⟨⟨s₁, n⟩, hstop, hstart⟩ := Option.bind_eq_some_iff.1 h
    obtain ⟨n₁, hn, heq⟩ := Option.map_eq_some_iff.1 hstop
    obtain ⟨rfl, rfl⟩ := Prod.mk.inj heq
    obtain ⟨n', hn', -⟩ := Option.map_eq_some_iff.1 hstart
    exact ⟨n₁, n', hn, hn'⟩
  · rintro ⟨n, n', hn, hn'⟩
    have hstart : ∀ t : PortState ℕ, ∃ s', portStartCMD hba fuel n t = some s' :=
      fun t => ⟨_, Option.map_eq_some_iff.2 ⟨n', hn', rfl⟩⟩
    rw [portConfigure, portStopCMD, hn]
    exact hstart _

theorem portConfigure_ready (frames : ℕ → ℕ) (s : PortState ℕ) :
    ∃ s', portConfigure (nextFrame frames) readyController 1 s = some s' :=
  (portConfigure_returns_iff s).2 ⟨4, 5, by decide, by decide⟩

end Registers

section Headers
variable {frames : ℕ → ℕ} (m : Mem)

theorem headersMem_succ (n : ℕ) : headersMem frames m (n + 1) =
    configureHeader (nextFrame frames) (frames 0) (headersMem frames m n) n := by
  rw [headersMem, configureHeaders, List.range_succ, List.foldl_append]
  rfl

theorem headersMem_zero : (headersMem frames m 0).mem = memSet m (frames 1) 0 256 := by
  rw [headersMem, configureHeaders, List.range_zero, List.foldl_nil]

theorem headersMem_alloc (n : ℕ) : (headersMem frames m n).alloc = n + 2 := by
  induction n with
  | zero => rfl
  | succ n ih =>
    rw [headersMem_succ]
    change (headersMem frames m n).alloc + 1 = _
    omega

theorem headersMem_succ_mem (hframes : FrameSequence frames) {n : ℕ} (hn : n < 32) :
    (headersMem frames m (n + 1)).mem =
      memSet (store64 (storeLE (headersMem frames m n).mem (frames 0 + 32 * n + 2) 2 8)
        (frames 0 + 32 * n + 8) (tableFrame frames n + 256 * n)) (tableFrame frames n) 0 256 := by
  have hbound : frames (n + 2) < 2 ^ 52 := hframes.bound _ (by unfold requestCount; omega)
  have haddress : wrap (tableFrame frames n + n * 2 ^ 8) = tableFrame frames n + 256 * n := by
    unfold tableFrame wrap
    omega
  rw [headersMem_succ, configureHeader, nextFrame]
  dsimp only
  rw [headersMem_alloc]
  change memSet (storeLE (storeLE _ (frames 0 + 32 * n + 8) 4 (wrap (tableFrame frames n + n * 2 ^ 8)))
    (frames 0 + 32 * n + 8 + 4) 4 (wrap (tableFrame frames n + n * 2 ^ 8) >>> 32))
    (tableFrame frames n) 0 256 = _
  rw [haddress, Nat.shiftRight_eq_div_pow]
  exact congrArg (fun mem => memSet mem _ 0 256) (storeLE_add _ _ 4 4 _).symm

variable {m}

theorem headersMem_succ_outside (hframes : FrameSequence frames) {n x : ℕ} (hn : n < 32)
    (hlength : x < frames 0 + 32 * n + 2 ∨ frames 0 + 32 * n + 4 ≤ x)
    (haddress : x < frames 0 + 32 * n + 8 ∨ frames 0 + 32 * n + 16 ≤ x)
    (hframe : x < tableFrame frames n ∨ tableFrame frames n + 256 ≤ x) :
    (headersMem frames m (n + 1)).mem x = (headersMem frames m n).mem x := by
  have hlist := hframes.bound 0 (by decide)
  have htable : tableFrame frames n < 2 ^ 52 :=
    hframes.bound (n + 2) (by unfold requestCount; omega)
  rw [headersMem_succ_mem m hframes hn, memSet_outside _ _ (Outside.of_range (by omega) hframe),
    store64_outside _ _ (by omega) haddress,
    storeLE_outside _ _ (Outside.of_range (by omega) (by omega))]

theorem headersMem_succ_cleared (hframes : FrameSequence frames) {n k : ℕ} (hn : n < 32)
    (hk : k < 256) : (headersMem frames m (n + 1)).mem (tableFrame frames n + k) = 0#8 := by
  have htable : tableFrame frames n < 2 ^ 52 :=
    hframes.bound (n + 2) (by unfold requestCount; omega)
  rw [headersMem_succ_mem m hframes hn, ← wrap_of_lt (by omega : tableFrame frames n + k < 2 ^ 64)]
  exact memSet_apply _ _ hk (by decide)

/-- Nothing but the lengths and addresses of the headers and the first 256 bytes of the frames
    is changed. -/
theorem headersMem_stale (hframes : FrameSequence frames) {n x : ℕ} (hn : n ≤ 32)
    (hlength : ∀ i < n, x < frames 0 + 32 * i + 2 ∨ frames 0 + 32 * i + 4 ≤ x)
    (haddress : ∀ i < n, x < frames 0 + 32 * i + 8 ∨ frames 0 + 32 * i + 16 ≤ x)
    (hfis : x < frames 1 ∨ frames 1 + 256 ≤ x)
    (hcleared : ∀ i < n, x < tableFrame frames i ∨ tableFrame frames i + 256 ≤ x) :
    (headersMem frames m n).mem x = m x := by
  induction n with
  | zero =>
    have := hframes.bound 1 (by decide)
    rw [headersMem_zero]
    exact memSet_outside _ _ (Outside.of_range (by omega) hfis)
  | succ n ih =>
    rw [headersMem_succ_outside hframes (by omega) (hlength n (by omega)) (haddress n (by omega))
      (hcleared n (by omega))]
    exact ih (by omega) (fun i hi => hlength i (by omega)) (fun i hi => haddress i (by omega))
      fun i hi => hcleared i (by omega)

theorem headersMem_untouched (hframes : FrameSequence frames) {n x : ℕ} (hn : n ≤ 32)
    (hlist : x < frames 0 ∨ frames 0 + 1024 ≤ x)
    (hfis : x < frames 1 ∨ frames 1 + 256 ≤ x)
    (hcleared : ∀ i < n, x < tableFrame frames i ∨ tableFrame frames i + 256 ≤ x) :
    (headersMem frames m n).mem x = m x :=
  headersMem_stale hframes hn (fun i hi => by omega) (fun i hi => by omega) hfis hcleared

theorem headersMem_cleared (hframes : FrameSequence frames) {n j k : ℕ} (hn : n ≤ 32)
    (hj : j < n) (hne : tableFrame frames j ≠ frames 0) (hk : k < 256) :
    (headersMem frames m n).mem (tableFrame frames j + k) = 0#8 := by
  have hlist := hframes.aligned 0 (by decide)
  have htable : tableFrame frames j % 4096 = 0 :=
    hframes.aligned (j + 2) (by unfold requestCount; omega)
  induction n with
  | zero => exact absurd hj (Nat.not_lt_zero j)
  | succ n ih =>
    have hnext : tableFrame frames n % 4096 = 0 :=
      hframes.aligned (n + 2) (by unfold requestCount; omega)
    by_cases hsame : tableFrame frames n = tableFrame frames j
    · rw [← hsame]
      exact headersMem_succ_cleared hframes (by omega) hk
    · have hlt : j < n := by
        apply Nat.lt_of_le_of_ne (Nat.le_of_lt_succ hj)
        rintro rfl
        exact hsame rfl
      rw [headersMem_succ_outside hframes (by omega) (by omega) (by omega) (by omega)]
      exact ih (by omega) hlt

theorem headersMem_fis (hframes : FrameSequence frames) {n k : ℕ} (hn : n ≤ 32)
    (hne : frames 1 ≠ frames 0) (hk : k < 256) :
    (headersMem frames m n).mem (frames 1 + k) = 0#8 := by
  have hlist := hframes.aligned 0 (by decide)
  have hfis := hframes.aligned 1 (by decide)
  have hbound := hframes.bound 1 (by decide)
  induction n with
  | zero =>
    rw [headersMem_zero, ← wrap_of_lt (by omega : frames 1 + k < 2 ^ 64)]
    exact memSet_apply _ _ hk (by decide)
  | succ n ih =>
    have hnext : tableFrame frames n % 4096 = 0 :=
      hframes.aligned (n + 2) (by unfold requestCount; omega)
    by_cases hsame : tableFrame frames n = frames 1
    · rw [← hsame]
      exact headersMem_succ_cleared hframes (by omega) hk
    · rw [headersMem_succ_outside hframes (by omega) (by omega) (by omega) (by omega)]
      exact ih (by omega)

theorem headersMem_header (hframes : FrameSequence frames) {n i : ℕ} (hn : n ≤ 32) (hi : i < n)
    (hne : ∀ j < n, tableFrame frames j ≠ frames 0) :
    load16 (headersMem frames m n).mem (frames 0 + 32 * i + 2) = 8 ∧
    load64 (headersMem frames m n).mem (frames 0 + 32 * i + 8) = tableFrame frames i + 256 * i := by
  have hlist := hframes.aligned 0 (by decide)
  have hbound := hframes.bound 0 (by decide)
  induction n with
  | zero => exact absurd hi (Nat.not_lt_zero i)
  | succ n ih =>
    have hnext : tableFrame frames n % 4096 = 0 :=
      hframes.aligned (n + 2) (by unfold requestCount; omega)
    have hspace : tableFrame frames n < 2 ^ 52 :=
      hframes.bound (n + 2) (by unfold requestCount; omega)
    have hapart := hne n (by omega)
    obtain hlt | rfl := Nat.lt_or_eq_of_le (Nat.le_of_lt_succ hi)
    · have hkept : ∀ offset size, offset + size ≤ 32 →
          loadLE (headersMem frames m (n + 1)).mem (frames 0 + 32 * i + offset) size =
            loadLE (headersMem frames m n).mem (frames 0 + 32 * i + offset) size := by
        intro offset size hin
        apply loadLE_congr
        intro k hk
        rw [wrap_of_lt (by omega)]
        exact headersMem_succ_outside hframes (by omega) (by omega) (by omega) (by omega)
      rw [load16, load64, hkept 2 2 (by decide), hkept 8 8 (by decide)]
      exact ih (by omega) hlt fun j hj => hne j (by omega)
    · have hclear : ∀ (mem : Mem) (offset size : ℕ), offset + size ≤ 32 →
          loadLE (memSet mem (tableFrame frames i) 0 256) (frames 0 + 32 * i + offset) size =
            loadLE mem (frames 0 + 32 * i + offset) size := by
        intro mem offset size hin
        apply loadLE_congr
        intro k hk
        rw [wrap_of_lt (by omega)]
        exact memSet_outside _ _ (Outside.of_range (by omega) (by omega))
      rw [headersMem_succ_mem m hframes (by omega), load16, load64, hclear _ 2 2 (by decide),
        hclear _ 8 8 (by decide)]
      constructor
      · rw [loadLE_storeLE_disjoint _ _ (by omega) (by omega) (by omega)]
        exact loadLE_storeLE _ _ 2 8 (by decide)
      · exact load64_store64 _ _ (by omega)

/-- A frame that is the command list's own clears the first header for good. -/
theorem headersMem_collision (hframes : FrameSequence frames) {n k : ℕ} (hn : n ≤ 32)
    (h : ∃ j < n, tableFrame frames j = frames 0) (hk : k < 32) :
    (headersMem frames m n).mem (frames 0 + k) = 0#8 := by
  have hlist := hframes.aligned 0 (by decide)
  induction n with
  | zero =>
    obtain ⟨j, hj, -⟩ := h
    exact absurd hj (Nat.not_lt_zero j)
  | succ n ih =>
    have hnext : tableFrame frames n % 4096 = 0 :=
      hframes.aligned (n + 2) (by unfold requestCount; omega)
    by_cases hsame : tableFrame frames n = frames 0
    · rw [← hsame]
      exact headersMem_succ_cleared hframes (by omega) (by omega)
    · obtain ⟨j, hj, heq⟩ := h
      have hlt : j < n := by
        apply Nat.lt_of_le_of_ne (Nat.le_of_lt_succ hj)
        rintro rfl
        exact hsame heq
      rw [headersMem_succ_outside hframes (by omega) (by omega) (by omega) (by omega)]
      exact ih (by omega) ⟨j, hlt, heq⟩

end Headers

def consecutiveFrames (k : ℕ) : ℕ := 0x10000 + 4096 * k

theorem consecutiveFrames_sequence : FrameSequence consecutiveFrames where
  aligned k _ := by
    unfold consecutiveFrames
    omega
  bound k hk := by
    unfold requestCount at hk
    unfold consecutiveFrames
    omega

end Rizzos.AhciConfigure
