import Rizzos.HeapBacking
import Rizzos.HeapSimulation
import Rizzos.MemberWrites

set_option autoImplicit false

/-!
# The probe for drives

`AHCI_AHCIDriver` takes a block from the heap for the driver, and `AHCI_AHCIDriver_ProbePorts`
one for each port with a drive. The registers of the controller are not part of the memory.
-/
namespace Rizzos.AhciProbe
open ByteMemory Memory MemberWrites PageFrameAllocator PageTableManager HeapSimulation
open KernelHeap (Heap memMalloc)
open HeapBacking (mapPage)

inductive PortType where
  | none | sata | semb | pm | satapi
deriving DecidableEq, Repr

def PortType.value : PortType → ℕ
  | .none => 0
  | .sata => 1
  | .semb => 2
  | .pm => 3
  | .satapi => 4

/-- The registers of the controller that the probe reads. -/
structure HBAMemory where
  portsImplemented : BitVec 32
  sataStatus : ℕ → BitVec 32
  signature : ℕ → BitVec 32

def hbaPortDevPresent : BitVec 32 := 0x3
def hbaPortIpmActive : BitVec 32 := 0x1
def sataSigAtapi : BitVec 32 := 0xEB140101
def sataSigAta : BitVec 32 := 0x00000101
def sataSigSemb : BitVec 32 := 0xC33C0101
def sataSigPm : BitVec 32 := 0x96690101

def checkPortType (hba : HBAMemory) (port : ℕ) : PortType :=
  let interfacePowerManagment := (hba.sataStatus port >>> 8) &&& 0b111
  let deviceDetection := hba.sataStatus port &&& 0b111
  if deviceDetection ≠ hbaPortDevPresent then .none
  else if interfacePowerManagment ≠ hbaPortIpmActive then .none
  else if hba.signature port = sataSigAtapi then .satapi
  else if hba.signature port = sataSigAta then .sata
  else if hba.signature port = sataSigPm then .pm
  else if hba.signature port = sataSigSemb then .semb
  else .none

namespace AHCIDriver

def pciBaseAddress : ℕ := 0
def abar : ℕ := 8
def ports : ℕ := 16
def portCount : ℕ := 272
def size : ℕ := 280

end AHCIDriver

namespace AHCIPort

def hbaPort : ℕ := 0
def portType : ℕ := 8
def portNumber : ℕ := 24
def size : ℕ := 32

end AHCIPort

def maxAhciPorts : ℕ := 32

def hbaPortAddress (abar i : ℕ) : ℕ := abar + 0x100 + 0x80 * i

/-- The state of the probe, with the indices at which elements of `ports` were assigned. -/
structure Probe where
  heap : Heap (Machine Pfa)
  written : List ℕ

section Model
variable (pml4 fuel : ℕ) (hba : HBAMemory)

def portCount (self : ℕ) (m : Mem) : ℕ := loadLE m (self + AHCIDriver.portCount) 1

def currentPort (self : ℕ) (m : Mem) : ℕ :=
  load64 m (self + AHCIDriver.ports + 8 * portCount self m)

/-- The four assignments behind the allocation, each through a fresh read of the pointer. -/
def fillPort (self i : ℕ) (portType : PortType) (m : Mem) : Mem :=
  let m := storeLE m (currentPort self m + AHCIPort.portType) 4 portType.value
  let m := storeLE m (currentPort self m + AHCIPort.hbaPort) 8
    (hbaPortAddress (load64 m (self + AHCIDriver.abar)) i)
  let m := storeLE m (currentPort self m + AHCIPort.portNumber) 1 (portCount self m)
  storeLE m (self + AHCIDriver.portCount) 1 (portCount self m + 1)

def Drive (i : ℕ) : Prop :=
  hba.portsImplemented.getLsbD i = true ∧
  (checkPortType hba i = .sata ∨ checkPortType hba i = .satapi)

instance (i : ℕ) : Decidable (Drive hba i) := inferInstanceAs (Decidable (_ ∧ _))

def probePort (self : ℕ) (s : Probe) (i : ℕ) : Option Probe :=
  if Drive hba i then do
    let slot := portCount self s.heap.mem
    let (port, h) ← memMalloc (mapPage pml4) fuel AHCIPort.size s.heap
    let mem := storeLE h.mem (self + AHCIDriver.ports + 8 * slot) 8 port
    some ⟨{ h with mem := fillPort self i (checkPortType hba i) mem }, slot :: s.written⟩
  else some s

def probePorts (self n : ℕ) (s : Probe) : Option Probe :=
  (List.range n).foldlM (probePort pml4 fuel hba self) s

/-- The driver's block and the state when `AHCI_AHCIDriver_ProbePorts` has returned, or `none`
    where a call of `MEM_Malloc` does not. -/
def ahciDriver (pciBaseAddress : ℕ) (bar5 : BitVec 32) (h : Heap (Machine Pfa)) :
    Option (ℕ × Probe) := do
  let (self, h) ← memMalloc (mapPage pml4) fuel AHCIDriver.size h
  let mem := storeLE h.mem (self + AHCIDriver.pciBaseAddress) 8 pciBaseAddress
  let mem := storeLE mem (self + AHCIDriver.abar) 8 bar5.toNat
  let env := ptmMapMemory pfaRequestPage pml4 bar5.toNat bar5.toNat h.env
  let s ← probePorts pml4 fuel hba self maxAhciPorts ⟨{ h with mem, env }, []⟩
  some (self, s)

end Model

/-! ### One assignment to `ports` -/

section Fill
variable {self port i : ℕ} {portType : PortType} {m : Mem}

def portFilled (self port slot abar i : ℕ) (portType : PortType) (m : Mem) : Mem :=
  storeLE (writeAll port [
      ⟨AHCIPort.portType, 4, portType.value⟩,
      ⟨AHCIPort.hbaPort, 8, hbaPortAddress abar i⟩,
      ⟨AHCIPort.portNumber, 1, slot⟩] m)
    (self + AHCIDriver.portCount) 1 (slot + 1)

/-- A write into the block of the port is not read in the block of the driver. -/
theorem load_driver (hself : self + AHCIDriver.size ≤ 2 ^ 64) (hport : port + AHCIPort.size ≤ 2 ^ 64)
    (hapart : BlocksApart (port, AHCIPort.size) (self, AHCIDriver.size)) (m : Mem)
    {offset n offset' n' : ℕ} (value : ℕ) (hin : offset + n ≤ AHCIPort.size)
    (hin' : offset' + n' ≤ AHCIDriver.size) :
    loadLE (storeLE m (port + offset) n value) (self + offset') n' =
      loadLE m (self + offset') n' := by
  unfold BlocksApart at hapart
  dsimp only at hapart
  exact loadLE_storeLE_disjoint m value (by omega) (by omega) (by omega)

theorem fillPort_eq (hself : self + AHCIDriver.size ≤ 2 ^ 64) (hport : port + AHCIPort.size ≤ 2 ^ 64)
    (hapart : BlocksApart (port, AHCIPort.size) (self, AHCIDriver.size))
    (hslot : portCount self m < 32)
    (hpointer : load64 m (self + AHCIDriver.ports + 8 * portCount self m) = port) :
    fillPort self i portType m = portFilled self port (portCount self m)
      (load64 m (self + AHCIDriver.abar)) i portType m := by
  have hkept : ∀ (mem : Mem) (offset n value offset' n' : ℕ), offset + n ≤ AHCIPort.size →
      offset' + n' ≤ AHCIDriver.size →
      loadLE (storeLE mem (port + offset) n value) (self + offset') n' =
        loadLE mem (self + offset') n' := fun mem _ _ value _ _ hin hin' =>
    load_driver hself hport hapart mem value hin hin'
  have hcount : ∀ (mem : Mem) (offset n value : ℕ), offset + n ≤ AHCIPort.size →
      portCount self (storeLE mem (port + offset) n value) = portCount self mem :=
    fun mem offset n value hin => hkept mem offset n value _ 1 hin (by decide)
  have hcurrent : ∀ (mem : Mem) (offset n value : ℕ), offset + n ≤ AHCIPort.size →
      portCount self mem < 32 →
      currentPort self (storeLE mem (port + offset) n value) = currentPort self mem := by
    intro mem offset n value hin hlt
    rw [currentPort, currentPort, hcount mem offset n value hin, Nat.add_assoc]
    apply hkept mem offset n value _ 8 hin
    unfold AHCIDriver.ports AHCIDriver.size
    omega
  have hfirst : currentPort self m = port := hpointer
  have hdecide : AHCIPort.portType + 4 ≤ AHCIPort.size ∧ AHCIPort.hbaPort + 8 ≤ AHCIPort.size ∧
      AHCIPort.portNumber + 1 ≤ AHCIPort.size := by decide
  obtain ⟨h4, h8, h1⟩ := hdecide
  have habar : load64 (storeLE m (port + AHCIPort.portType) 4 portType.value)
      (self + AHCIDriver.abar) = load64 m (self + AHCIDriver.abar) :=
    hkept m _ 4 _ _ 8 h4 (by decide)
  rw [fillPort, hfirst, hcurrent _ _ _ _ h4 hslot, hfirst, habar,
    hcurrent _ _ _ _ h8 (by rwa [hcount _ _ _ _ h4]), hcurrent _ _ _ _ h4 hslot, hfirst,
    hcount _ _ _ _ h8, hcount _ _ _ _ h4, hcount _ _ _ _ h1, hcount _ _ _ _ h8,
    hcount _ _ _ _ h4]
  rfl

/-- What the assignments leave in the two blocks, and that they stay within them. -/
structure Filled (driver port slot abar i : ℕ) (m m' : Mem) : Prop where
  count : portCount driver m' = slot + 1
  kept : ∀ offset n, offset + n ≤ AHCIDriver.portCount →
    loadLE m' (driver + offset) n = loadLE m (driver + offset) n
  hbaPort : load64 m' (port + AHCIPort.hbaPort) = hbaPortAddress abar i
  number : loadLE m' (port + AHCIPort.portNumber) 1 = slot
  outside : ∀ x, (x < port ∨ port + AHCIPort.size ≤ x) →
    (x < driver ∨ driver + AHCIDriver.size ≤ x) → m' x = m x

theorem portFilled_filled {slot abar : ℕ} (hself : self + AHCIDriver.size ≤ 2 ^ 64)
    (hport : port + AHCIPort.size ≤ 2 ^ 64)
    (hapart : BlocksApart (port, AHCIPort.size) (self, AHCIDriver.size)) (hslot : slot < 32)
    (habar : hbaPortAddress abar i < 2 ^ 64) (m : Mem) :
    Filled self port slot abar i m (portFilled self port slot abar i portType m) := by
  let ws : List Write := [⟨AHCIPort.portType, 4, portType.value⟩,
    ⟨AHCIPort.hbaPort, 8, hbaPortAddress abar i⟩, ⟨AHCIPort.portNumber, 1, slot⟩]
  have hfit : Fit AHCIPort.size ws := by
    simp only [ws, Fit, List.forall_mem_cons, List.not_mem_nil, false_imp_iff, implies_true,
      and_true]
    decide
  have hmembers : ws.Pairwise fun w w' => Apart w.offset w.size w'.offset w'.size := by
    simp [ws, Apart, AHCIPort.portType, AHCIPort.hbaPort, AHCIPort.portNumber]
  have hcounter : ∀ (mem : Mem) (offset n : ℕ), offset + n ≤ AHCIPort.size →
      loadLE (storeLE mem (self + AHCIDriver.portCount) 1 (slot + 1)) (port + offset) n =
        loadLE mem (port + offset) n := by
    intro mem offset n hin
    unfold BlocksApart AHCIDriver.size at *
    unfold AHCIDriver.portCount
    dsimp only at hapart
    exact loadLE_storeLE_disjoint mem _ (by omega) (by omega) (by omega)
  unfold BlocksApart at hapart
  dsimp only at hapart
  constructor
  · rw [portFilled, portCount, loadLE_storeLE _ _ _ _ (by decide)]
    omega
  · intro offset n hin
    unfold AHCIDriver.portCount at hin
    unfold AHCIDriver.size at hself hapart
    rw [portFilled, loadLE_storeLE_disjoint _ _ (by omega)
      (by unfold AHCIDriver.portCount; omega) (by unfold AHCIDriver.portCount; omega)]
    apply loadLE_congr
    intro k hk
    rw [wrap_of_lt (by omega)]
    apply writeAll_outside
    intro w hw
    have := hfit w hw
    exact Outside.of_range (by omega) (by omega)
  · rw [portFilled, load64, hcounter _ _ _ (by decide)]
    have hmem : (⟨AHCIPort.hbaPort, 8, hbaPortAddress abar i⟩ : Write) ∈ ws := by simp [ws]
    exact (load_writeAll hport hfit hmembers m hmem).trans (Nat.mod_eq_of_lt habar)
  · rw [portFilled, hcounter _ _ _ (by decide)]
    have hmem : (⟨AHCIPort.portNumber, 1, slot⟩ : Write) ∈ ws := by simp [ws]
    exact (load_writeAll hport hfit hmembers m hmem).trans
      (Nat.mod_eq_of_lt (show slot < 256 ^ 1 by omega))
  · intro x hx hx'
    unfold AHCIDriver.size at hself hx'
    rw [portFilled, storeLE_outside _ _ (Outside.of_range (by unfold AHCIDriver.portCount; omega)
      (by unfold AHCIDriver.portCount; omega))]
    apply writeAll_outside
    intro w hw
    have := hfit w hw
    exact Outside.of_range (by omega) (by omega)

end Fill

/-! ### The loop over the ports -/

def drives (hba : HBAMemory) (n : ℕ) : List ℕ := (List.range n).filter fun i => Drive hba i

theorem drives_succ_of_drive {hba : HBAMemory} {n : ℕ} (h : Drive hba n) :
    drives hba (n + 1) = drives hba n ++ [n] := by
  simp [drives, List.range_succ, List.filter_append, h]

theorem drives_succ_of_not {hba : HBAMemory} {n : ℕ} (h : ¬ Drive hba n) :
    drives hba (n + 1) = drives hba n := by
  simp [drives, List.range_succ, List.filter_append, h]

theorem drives_length_le (hba : HBAMemory) (n : ℕ) : (drives hba n).length ≤ n := by
  simpa [drives] using List.length_filter_le (fun i => decide (Drive hba i)) (List.range n)

theorem drives_length_mono (hba : HBAMemory) {n k : ℕ} (h : n ≤ k) :
    (drives hba n).length ≤ (drives hba k).length :=
  ((List.range_sublist.2 h).filter _).length_le

def portAt (self slot : ℕ) (m : Mem) : ℕ := load64 m (self + AHCIDriver.ports + 8 * slot)

structure Refers (driver abar slot i : ℕ) (m : Mem) : Prop where
  hbaPort : load64 m (portAt driver slot m + AHCIPort.hbaPort) = hbaPortAddress abar i
  number : loadLE m (portAt driver slot m + AHCIPort.portNumber) 1 = slot

section Loop
variable {pml4 fuel : ℕ} {hba : HBAMemory} {self abar c : ℕ} {s : Probe}

def portSizes (hba : HBAMemory) (n : ℕ) : List ℕ :=
  List.replicate ((drives hba maxAhciPorts).length - (drives hba n).length) AHCIPort.size

theorem portSizes_drive {n : ℕ} (hn : n < maxAhciPorts) (hdrive : Drive hba n) :
    portSizes hba n = AHCIPort.size :: portSizes hba (n + 1) := by
  have hle := drives_length_mono hba (Nat.succ_le_of_lt hn)
  rw [portSizes, portSizes, ← List.replicate_succ]
  rw [drives_succ_of_drive hdrive, List.length_append, List.length_singleton] at hle ⊢
  congr 1
  omega

/-- After `n` ports, with a counter that started at `c`: each drive has the next element. -/
structure Probed (fuel : ℕ) (hba : HBAMemory) (driver abar c n : ℕ) (L : List (ℕ × ℕ))
    (s : Probe) : Prop where
  supply : Supply fuel L (portSizes hba n) s.heap
  block : (driver, AHCIDriver.size) ∈ L
  count : portCount driver s.heap.mem = c + (drives hba n).length
  base : load64 s.heap.mem (driver + AHCIDriver.abar) = abar
  written : ∀ slot ∈ s.written, slot < maxAhciPorts
  ports : ∀ j i, (drives hba n)[j]? = some i →
    c + j < maxAhciPorts ∧ (portAt driver (c + j) s.heap.mem, AHCIPort.size) ∈ L ∧
    Refers driver abar (c + j) i s.heap.mem

/-- A block in use keeps what it holds during a call. -/
theorem agree_of_within {L : List (ℕ × ℕ)} {m m' : Mem} (h : ∀ x, Within L x → m' x = m x)
    {b : ℕ × ℕ} (hb : b ∈ L) : Agree m m' b.1 b.2 := fun x hx hx' => h x ⟨b, hb, hx, hx'⟩

theorem allocated_port {slot port : ℕ} {m m' : Mem} (hself : self + AHCIDriver.size ≤ 2 ^ 64)
    (hport : port + AHCIPort.size ≤ 2 ^ 64) (hslot : slot < maxAhciPorts)
    (hagree : Agree m m' self AHCIDriver.size) :
    let mem := storeLE m' (self + AHCIDriver.ports + 8 * slot) 8 port
    portCount self mem = portCount self m ∧ portAt self slot mem = port ∧
    load64 mem (self + AHCIDriver.abar) = load64 m (self + AHCIDriver.abar) ∧
    (∀ j, j ≠ slot → j < maxAhciPorts → portAt self j mem = portAt self j m) ∧
    ∀ x, (x < self ∨ self + AHCIDriver.size ≤ x) → mem x = m' x := by
  intro mem
  change slot < 32 at hslot
  change self + 280 ≤ 2 ^ 64 at hself
  change port + 32 ≤ 2 ^ 64 at hport
  have hstored : ∀ offset k, offset + k ≤ 280 →
      (offset + k ≤ 16 + 8 * slot ∨ 24 + 8 * slot ≤ offset) →
      loadLE mem (self + offset) k = loadLE m (self + offset) k := by
    intro offset k hin hapart
    rw [← hagree.load hself hin]
    unfold mem AHCIDriver.ports
    exact loadLE_storeLE_disjoint _ _ (by omega) (by omega) (by omega)
  refine ⟨hstored 272 1 (by decide) (by omega), ?_, hstored 8 8 (by decide) (by omega), ?_, ?_⟩
  · exact load64_store64 _ _ (by omega)
  · intro j hne hj
    unfold portAt AHCIDriver.ports
    change j < 32 at hj
    rw [Nat.add_assoc]
    exact hstored (16 + 8 * j) 8 (by omega) (by omega)
  · intro x hx
    change x < self ∨ self + 280 ≤ x at hx
    apply store64_outside
    · unfold AHCIDriver.ports
      omega
    · unfold AHCIDriver.ports
      omega

/-- A port behind the ones that are there. `m₁` is the memory behind the allocation. -/
structure Appended (driver abar slot i port : ℕ) (m m₁ m' : Mem) : Prop where
  count : portCount driver m' = slot + 1
  base : load64 m' (driver + AHCIDriver.abar) = abar
  newest : portAt driver slot m' = port
  older : ∀ j < maxAhciPorts, j ≠ slot → portAt driver j m' = portAt driver j m
  hbaPort : load64 m' (port + AHCIPort.hbaPort) = hbaPortAddress abar i
  number : loadLE m' (port + AHCIPort.portNumber) 1 = slot
  outside : ∀ x, (x < port ∨ port + AHCIPort.size ≤ x) →
    (x < driver ∨ driver + AHCIDriver.size ≤ x) → m' x = m₁ x

theorem fillPort_appended {slot port i : ℕ} {portType : PortType} {m m₁ : Mem}
    (hself : self + AHCIDriver.size ≤ 2 ^ 64) (hport : port + AHCIPort.size ≤ 2 ^ 64)
    (hapart : BlocksApart (port, AHCIPort.size) (self, AHCIDriver.size))
    (hagree : Agree m m₁ self AHCIDriver.size) (hcount : portCount self m = slot)
    (hslot : slot < maxAhciPorts) (hbase : load64 m (self + AHCIDriver.abar) = abar)
    (habar : abar < 2 ^ 32) (hi : i < maxAhciPorts) :
    Appended self abar slot i port m m₁ (fillPort self i portType
      (storeLE m₁ (self + AHCIDriver.ports + 8 * slot) 8 port)) := by
  obtain ⟨hcount', hpointer, hbase', hothers, houtside⟩ := allocated_port hself hport hslot hagree
  generalize storeLE m₁ (self + AHCIDriver.ports + 8 * slot) 8 port = mem at *
  have hslot' : portCount self mem = slot := hcount'.trans hcount
  have haddress : hbaPortAddress abar i < 2 ^ 64 := by
    unfold hbaPortAddress
    change i < 32 at hi
    omega
  have hfilled : Filled self port slot abar i mem (fillPort self i portType mem) := by
    rw [fillPort_eq hself hport hapart (by rwa [hslot']) (by rw [hslot']; exact hpointer), hslot',
      hbase', hbase]
    exact portFilled_filled hself hport hapart hslot haddress mem
  have hat : ∀ j < maxAhciPorts,
      portAt self j (fillPort self i portType mem) = portAt self j mem := by
    intro j hj
    change j < 32 at hj
    unfold portAt
    rw [Nat.add_assoc]
    exact hfilled.kept _ 8 (by unfold AHCIDriver.ports AHCIDriver.portCount; omega)
  exact {
    count := hfilled.count
    base := (hfilled.kept _ 8 (by decide)).trans (hbase'.trans hbase)
    newest := (hat slot hslot).trans hpointer
    older := fun j hj hne => (hat j hj).trans (hothers j hne hj)
    hbaPort := hfilled.hbaPort
    number := hfilled.number
    outside := fun x hx hx' => (hfilled.outside x hx hx').trans (houtside x hx') }

section Append
variable {slot i port : ℕ} {m m₁ m' : Mem}

theorem Appended.refers (h : Appended self abar slot i port m m₁ m') :
    Refers self abar slot i m' := by
  constructor
  · rw [h.newest]
    exact h.hbaPort
  · rw [h.newest]
    exact h.number

theorem Appended.agree (h : Appended self abar slot i port m m₁ m') {b : ℕ × ℕ}
    (hdriver : BlocksApart b (self, AHCIDriver.size)) (hport : BlocksApart (port, AHCIPort.size) b)
    (hagree : Agree m m₁ b.1 b.2) : Agree m m' b.1 b.2 := by
  intro x hx hx'
  unfold BlocksApart at hdriver hport
  dsimp only at hdriver hport
  rw [h.outside x (by omega) (by omega)]
  exact hagree x hx hx'

theorem Appended.refers_older (h : Appended self abar slot i port m m₁ m') {j k : ℕ}
    (hj : j < maxAhciPorts) (hne : j ≠ slot) (hspace : portAt self j m + AHCIPort.size ≤ 2 ^ 64)
    (hagree : Agree m m' (portAt self j m) AHCIPort.size) (hrefers : Refers self abar j k m) :
    Refers self abar j k m' := by
  constructor
  · rw [h.older j hj hne, load64, hagree.load hspace (by decide)]
    exact hrefers.hbaPort
  · rw [h.older j hj hne, hagree.load hspace (by decide)]
    exact hrefers.number

theorem Appended.outside_within (h : Appended self abar slot i port m m₁ m') {L : List (ℕ × ℕ)}
    (hblock : (self, AHCIDriver.size) ∈ L) {x : ℕ} (hx : ¬ Within ((port, AHCIPort.size) :: L) x) :
    m' x = m₁ x := by
  have hout : ∀ b ∈ (port, AHCIPort.size) :: L, x < b.1 ∨ b.1 + b.2 ≤ x := by
    intro b hb
    by_contra hin
    exact hx ⟨b, hb, by omega⟩
  exact h.outside x (hout _ List.mem_cons_self) (hout _ (List.mem_cons_of_mem _ hblock))

end Append

theorem Probed.drive (pml4 : ℕ) {n : ℕ} {L : List (ℕ × ℕ)} (h : Probed fuel hba self abar c n L s)
    (hn : n < maxAhciPorts) (hdrive : Drive hba n)
    (hslot : c + (drives hba n).length < maxAhciPorts) (habar : abar < 2 ^ 32) :
    ∃ s' L', probePort pml4 fuel hba self s n = some s' ∧
      Probed fuel hba self abar c (n + 1) L' s' := by
  have hsupply := h.supply
  rw [portSizes_drive hn hdrive] at hsupply
  obtain ⟨port, h₁, hmalloc, hown, hkept⟩ := hsupply.malloc (mapPage pml4)
  have hapart := (List.pairwise_cons.1 hown.apart).1
  obtain ⟨mem', hmem'⟩ : ∃ m, m = fillPort self n (checkPortType hba n)
    (storeLE h₁.mem (self + AHCIDriver.ports + 8 * (c + (drives hba n).length)) 8 port) := ⟨_, rfl⟩
  have happended : Appended self abar (c + (drives hba n).length) n port s.heap.mem h₁.mem mem' :=
    hmem' ▸ fillPort_appended (h.supply.space _ h.block) (hown.space _ List.mem_cons_self)
      (hapart _ h.block) (agree_of_within hkept h.block) h.count hslot h.base habar hn
  rw [probePort, if_pos hdrive, hmalloc]
  refine ⟨⟨{ h₁ with mem := mem' }, (c + (drives hba n).length) :: s.written⟩,
    (port, AHCIPort.size) :: L, ?_, ?_⟩
  · rw [hmem', ← h.count]
    rfl
  clear hmem' hmalloc
  refine ⟨hown.write fun x hx => happended.outside_within h.block hx,
    List.mem_cons_of_mem _ h.block, ?_, happended.base,
    List.forall_mem_cons.2 ⟨hslot, h.written⟩, ?_⟩
  · rw [drives_succ_of_drive hdrive, List.length_append, ← Nat.add_assoc]
    exact happended.count
  · intro j i hj
    change c + j < maxAhciPorts ∧ (portAt self (c + j) mem', AHCIPort.size) ∈ _ ∧
      Refers self abar (c + j) i mem'
    rw [drives_succ_of_drive hdrive] at hj
    by_cases hold : j < (drives hba n).length
    · rw [List.getElem?_append_left hold] at hj
      obtain ⟨hlt, hblock, hrefers⟩ := h.ports j i hj
      have hne : c + j ≠ c + (drives hba n).length := by omega
      have hdriver := h.supply.apart.forall hblock h.block
        (by simp [AHCIPort.size, AHCIDriver.size])
      have hspace := h.supply.space _ hblock
      have hagree := happended.agree hdriver (hapart _ hblock) (agree_of_within hkept hblock)
      refine ⟨hlt, ?_, happended.refers_older hlt hne hspace hagree hrefers⟩
      rw [happended.older _ hlt hne]
      exact List.mem_cons_of_mem _ hblock
    · rw [List.getElem?_append_right (by omega)] at hj
      obtain ⟨hj, rfl⟩ : j - (drives hba n).length = 0 ∧ n = i := by
        rw [List.getElem?_singleton] at hj
        split at hj
        · exact ⟨‹_›, Option.some.inj hj⟩
        · cases hj
      obtain rfl : j = (drives hba n).length := by omega
      refine ⟨hslot, ?_, happended.refers⟩
      rw [happended.newest]
      exact List.mem_cons_self

theorem Probed.skip {n : ℕ} {L : List (ℕ × ℕ)} (h : Probed fuel hba self abar c n L s)
    (hdrive : ¬ Drive hba n) : Probed fuel hba self abar c (n + 1) L s := by
  refine ⟨?_, h.block, ?_, h.base, h.written, ?_⟩
  · rw [portSizes, drives_succ_of_not hdrive]
    exact h.supply
  · rw [drives_succ_of_not hdrive]
    exact h.count
  · rw [drives_succ_of_not hdrive]
    exact h.ports

/-- An element behind the array has been assigned. -/
def Overrun (s : Probe) : Prop := ∃ slot ∈ s.written, maxAhciPorts ≤ slot

theorem probePort_written {s' : Probe} {i : ℕ} (hrun : probePort pml4 fuel hba self s i = some s') :
    s'.written = (if Drive hba i then [portCount self s.heap.mem] else []) ++ s.written := by
  unfold probePort at hrun
  split at hrun
  · obtain ⟨r, -, hr⟩ := Option.bind_eq_some_iff.1 hrun
    rw [← Option.some.inj hr, if_pos ‹_›]
    rfl
  · rw [← Option.some.inj hrun, if_neg ‹_›]
    rfl

theorem Overrun.probePort {s' : Probe} {i : ℕ} (h : Overrun s)
    (hrun : probePort pml4 fuel hba self s i = some s') : Overrun s' := by
  obtain ⟨slot, hslot, hle⟩ := h
  refine ⟨slot, ?_, hle⟩
  rw [probePort_written hrun]
  exact List.mem_append_right _ hslot

theorem probePorts_succ (n : ℕ) (s : Probe) : probePorts pml4 fuel hba self (n + 1) s =
    (probePorts pml4 fuel hba self n s).bind fun s' => probePort pml4 fuel hba self s' n := by
  rw [probePorts, List.range_succ, List.foldlM_append]
  simp only [List.foldlM_cons, List.foldlM_nil, bind_pure]
  rfl

/-- What is known after `n` turns: the list of drives is in order, or a counter that was not 0 at
    the start has left the array and nothing more is known, not even that the calls return. -/
def Progress (fuel : ℕ) (hba : HBAMemory) (driver abar c n : ℕ) : Option Probe → Prop
  | none => c ≠ 0
  | some s => (Overrun s ∧ c ≠ 0) ∨ ∃ L, Probed fuel hba driver abar c n L s

theorem probePorts_progress (pml4 : ℕ) {L : List (ℕ × ℕ)} (h : Probed fuel hba self abar c 0 L s)
    (habar : abar < 2 ^ 32) {n : ℕ} (hn : n ≤ maxAhciPorts) :
    Progress fuel hba self abar c n (probePorts pml4 fuel hba self n s) := by
  induction n with
  | zero => exact .inr ⟨L, h⟩
  | succ n ih =>
    have hprogress := ih (by omega)
    rw [probePorts_succ]
    cases hrun : probePorts pml4 fuel hba self n s with
    | none =>
      rw [hrun] at hprogress
      exact hprogress
    | some s₁ =>
      rw [hrun] at hprogress
      rw [Option.bind_some]
      obtain ⟨hover, hc⟩ | ⟨L', h'⟩ := hprogress
      · cases hturn : probePort pml4 fuel hba self s₁ n with
        | none => exact hc
        | some s₂ => exact .inl ⟨hover.probePort hturn, hc⟩
      by_cases hdrive : Drive hba n
      · by_cases hslot : c + (drives hba n).length < maxAhciPorts
        · obtain ⟨s₂, L'', hturn, h''⟩ := h'.drive pml4 hn hdrive hslot habar
          rw [hturn]
          exact .inr ⟨L'', h''⟩
        · have hlen := drives_length_le hba n
          have hc : c ≠ 0 := by omega
          cases hturn : probePort pml4 fuel hba self s₁ n with
          | none => exact hc
          | some s₂ =>
            refine .inl ⟨⟨portCount self s₁.heap.mem, ?_, ?_⟩, hc⟩
            · rw [probePort_written hturn, if_pos hdrive]
              exact List.mem_cons_self
            · rw [h'.count]
              omega
      · rw [probePort, if_neg hdrive]
        exact .inr ⟨L', h'.skip hdrive⟩

end Loop

/-! ### The driver -/

/-- The driver lists the drives, one element each in the order of the ports. -/
structure ListsDrives (hba : HBAMemory) (abar driver : ℕ) (s : Probe) : Prop where
  count : portCount driver s.heap.mem = (drives hba maxAhciPorts).length
  ports : ∀ slot i, (drives hba maxAhciPorts)[slot]? = some i →
    Refers driver abar slot i s.heap.mem
  written : ∀ slot ∈ s.written, slot < maxAhciPorts

/-- The call returns with the drives listed. -/
def Lists (hba : HBAMemory) (abar : ℕ) : Option (ℕ × Probe) → Prop
  | none => False
  | some (driver, s) => ListsDrives hba abar driver s

/-- The heap hands out a block for the driver and one for each drive, all apart from each other,
    and touches none of them again. -/
def Undisturbed (fuel : ℕ) (hba : HBAMemory) (h : Heap (Machine Pfa)) : Prop :=
  Supplied fuel (AHCIDriver.size :: portSizes hba 0) [] (memoryOf h h.mem)

instance (fuel : ℕ) (hba : HBAMemory) (h : Heap (Machine Pfa)) : Decidable (Undisturbed fuel hba h) :=
  decidableSupplied _ _ _ _

def staleCount (pml4 fuel : ℕ) (h : Heap (Machine Pfa)) : Option ℕ :=
  (memMalloc (mapPage pml4) fuel AHCIDriver.size h).map fun r => portCount r.1 r.2.mem

section Driver
variable (pml4 fuel : ℕ) (hba : HBAMemory) (pciBaseAddress : ℕ) (bar5 : BitVec 32)
  {h : Heap (Machine Pfa)}

/-- Nothing sets the counter before the loop starts to count with it. -/
theorem probed_start (hundisturbed : Undisturbed fuel hba h) :
    ∃ self c L start, staleCount pml4 fuel h = some c ∧
      Probed fuel hba self bar5.toNat c 0 L start ∧
      ahciDriver pml4 fuel hba pciBaseAddress bar5 h =
        (probePorts pml4 fuel hba self maxAhciPorts start).map fun s => (self, s) := by
  obtain ⟨self, h₁, hmalloc, hown, -⟩ := (supply_of_supplied hundisturbed).malloc (mapPage pml4)
  have hblock : (self, AHCIDriver.size) ∈ [(self, AHCIDriver.size)] := List.mem_cons_self
  have hself := hown.space _ hblock
  change self + 280 ≤ 2 ^ 64 at hself
  let mem := storeLE (storeLE h₁.mem (self + AHCIDriver.pciBaseAddress) 8 pciBaseAddress)
    (self + AHCIDriver.abar) 8 bar5.toNat
  have hwritten : Supply fuel [(self, AHCIDriver.size)] (portSizes hba 0) { h₁ with mem } := by
    apply hown.write
    intro x hx
    have hout : x < self ∨ self + 280 ≤ x := by
      by_contra hin
      exact hx ⟨_, hblock, by unfold AHCIDriver.size; omega⟩
    have hmember : ∀ offset, offset + 8 ≤ 280 → Outside x (self + offset) 8 :=
      fun offset hin => Outside.of_range (by omega) (by omega)
    exact (storeLE_outside _ _ (hmember _ (by decide))).trans
      (storeLE_outside _ _ (hmember _ (by decide)))
  refine ⟨self, portCount self h₁.mem, _,
    ⟨{ h₁ with mem, env := ptmMapMemory pfaRequestPage pml4 bar5.toNat bar5.toNat h₁.env }, []⟩,
    ?_, ⟨hwritten.env _, hblock, ?_, ?_, ?_, ?_⟩, ?_⟩
  · rw [staleCount, hmalloc]
    rfl
  · change portCount self mem = _
    unfold mem portCount AHCIDriver.portCount AHCIDriver.abar AHCIDriver.pciBaseAddress
    rw [loadLE_storeLE_disjoint _ _ (by omega) (by omega) (by omega),
      loadLE_storeLE_disjoint _ _ (by omega) (by omega) (by omega)]
    rfl
  · exact load64_store64 _ _ (bar5.isLt.trans (by decide))
  · exact fun _ h => absurd h List.not_mem_nil
  · exact fun j i h => by simp [drives] at h
  · rw [ahciDriver, hmalloc]
    change Option.bind _ _ = _
    rw [Option.map_eq_bind]
    rfl

theorem lists_of_clear (hundisturbed : Undisturbed fuel hba h)
    (hclear : staleCount pml4 fuel h = some 0) :
    Lists hba bar5.toNat (ahciDriver pml4 fuel hba pciBaseAddress bar5 h) := by
  obtain ⟨self, c, L, start, hcount, hprobed, heq⟩ :=
    probed_start pml4 fuel hba pciBaseAddress bar5 hundisturbed
  obtain rfl := Option.some.inj (hclear.symm.trans hcount)
  have hprogress := probePorts_progress pml4 hprobed bar5.isLt le_rfl
  rw [heq]
  cases hrun : probePorts pml4 fuel hba self maxAhciPorts start with
  | none =>
    rw [hrun] at hprogress
    exact hprogress rfl
  | some s =>
    rw [hrun] at hprogress
    obtain ⟨-, hc⟩ | ⟨L', h'⟩ := hprogress
    · exact absurd rfl hc
    · refine ⟨?_, fun slot i hslot => ?_, h'.written⟩
      · simpa using h'.count
      · simpa using (h'.ports slot i hslot).2.2

theorem not_lists_of_stale (hundisturbed : Undisturbed fuel hba h)
    (hstale : staleCount pml4 fuel h ≠ some 0) :
    ¬ Lists hba bar5.toNat (ahciDriver pml4 fuel hba pciBaseAddress bar5 h) := by
  obtain ⟨self, c, L, start, hcount, hprobed, heq⟩ :=
    probed_start pml4 fuel hba pciBaseAddress bar5 hundisturbed
  have hprogress := probePorts_progress pml4 hprobed bar5.isLt le_rfl
  have hc : c ≠ 0 := by
    rintro rfl
    exact hstale hcount
  rw [heq]
  cases hrun : probePorts pml4 fuel hba self maxAhciPorts start with
  | none => exact id
  | some s =>
    rw [hrun] at hprogress
    intro hlists
    obtain ⟨⟨slot, hslot, hle⟩, -⟩ | ⟨L', h'⟩ := hprogress
    · exact absurd (hlists.written slot hslot) (by omega)
    · have hcounts := h'.count.symm.trans hlists.count
      omega

end Driver

/-- The heap as `MEM_InitializeHeap` leaves it over memory that holds the byte `b` everywhere. -/
def bootHeap (b : Byte) : Heap (Machine Pfa) :=
  KernelHeap.memInitializeHeap (mapPage 0x101000) HeapBacking.heapBase 0x10
    ⟨fun _ => b, 0, 0, 0, [], ⟨fun _ => 0#8, initialPfa⟩⟩

def sataDrives (mask : BitVec 32) : HBAMemory where
  portsImplemented := mask
  sataStatus _ := 0x113
  signature _ := sataSigAta

end Rizzos.AhciProbe
