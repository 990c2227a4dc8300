import Rizzos.ByteMemory
import Rizzos.CInt
import Mathlib.Data.List.Flatten

set_option autoImplicit false

/-! PCI enumeration through the windows of the MCFG table (`pci.c`). -/
namespace Rizzos.Pci
open ByteMemory CInt

/-- The members of the device header that the enumeration reads. -/
structure PciDeviceHeader where
  vendorID : ℕ
  deviceID : ℕ
  progIF : ℕ
  subclass : ℕ
  classCode : ℕ

def readHeader (m : Mem) (a : ℕ) : PciDeviceHeader where
  vendorID := load16 m a
  deviceID := load16 m (a + 2)
  progIF := (load8 m (a + 9)).toNat
  subclass := (load8 m (a + 10)).toNat
  classCode := (load8 m (a + 11)).toNat

/-- What the enumeration does to the rest of the kernel, in order. -/
inductive PciEvent where
  | mapMemory (virtualMemory physicalMemory : ℕ)
  | print (vendorID deviceID : ℕ)
  | ahciDriver (pciBaseAddress : ℕ)

def enumerateFunction (m : Mem) (deviceAddress func : ℕ) : List PciEvent :=
  let functionAddr := wrap (deviceAddress + wrap (func <<< 12))
  let header := readHeader m functionAddr
  .mapMemory functionAddr functionAddr ::
    if header.deviceID = 0 then []
    else if header.deviceID = 0xffff then []
    else .print header.vendorID header.deviceID ::
      if header.classCode = 0x01 ∧ header.subclass = 0x06 ∧ header.progIF = 0x01 then
        [.ahciDriver functionAddr]
      else []

def enumerateDevice (m : Mem) (busAddress device : ℕ) : List PciEvent :=
  let deviceAddr := wrap (busAddress + wrap (device <<< 15))
  let header := readHeader m deviceAddr
  .mapMemory deviceAddr deviceAddr ::
    if header.deviceID = 0 then []
    else if header.deviceID = 0xffff then []
    else (List.range 8).flatMap (enumerateFunction m deviceAddr)

def enumerateBus (m : Mem) (baseAddress bus : ℕ) : List PciEvent :=
  let busAddr := wrap (baseAddress + wrap (bus <<< 20))
  let header := readHeader m busAddr
  .mapMemory busAddr busAddr ::
    if header.deviceID = 0 then []
    else if header.deviceID = 0xffff then []
    else (List.range 32).flatMap (enumerateDevice m busAddr)

/-- The members of a `DeviceConfig` record that the enumeration reads. -/
structure DeviceConfig where
  baseAddress : ℕ
  startBus : ℕ
  endBus : ℕ

def readDeviceConfig (m : Mem) (a : ℕ) : DeviceConfig where
  baseAddress := load64 m a
  startBus := (load8 m (a + 10)).toNat
  endBus := (load8 m (a + 11)).toNat

def mcfgHeaderSize : ℕ := 44
def deviceConfigSize : ℕ := 16

/-- `enteries` of `PCI_EnumeratePCI`: the subtraction is made in `size_t`. -/
def enteries (m : Mem) (mcfg : ℕ) : ℤ :=
  int32 (wrap (load32 m (mcfg + 4) + (2 ^ 64 - mcfgHeaderSize)) / deviceConfigSize : ℕ)

def deviceConfig (m : Mem) (mcfg i : ℕ) : DeviceConfig :=
  readDeviceConfig m (wrap (mcfg + mcfgHeaderSize + deviceConfigSize * i))

/-- The bus loop runs while `bus < endBus`. -/
def pciEnumeratePci (m : Mem) (mcfg : ℕ) : List PciEvent :=
  (List.range (enteries m mcfg).toNat).flatMap fun i =>
    let devConfig := deviceConfig m mcfg i
    (List.range' devConfig.startBus (devConfig.endBus - devConfig.startBus)).flatMap
      (enumerateBus m devConfig.baseAddress)

/-- The header addresses that the enumeration runs the AHCI driver on, in order. -/
def driverCalls (events : List PciEvent) : List ℕ :=
  events.filterMap fun
    | .ahciDriver a => some a
    | _ => none

def headerAddress (m : Mem) (mcfg i bus device func : ℕ) : ℕ :=
  wrap ((deviceConfig m mcfg i).baseAddress + bus <<< 20 + device <<< 15 + func <<< 12)

def Present (m : Mem) (a : ℕ) : Prop :=
  (readHeader m a).deviceID ≠ 0 ∧ (readHeader m a).deviceID ≠ 0xffff

instance (m : Mem) (a : ℕ) : Decidable (Present m a) := inferInstanceAs (Decidable (_ ∧ _))

def IsAhci (m : Mem) (a : ℕ) : Prop :=
  Present m a ∧ (readHeader m a).classCode = 0x01 ∧ (readHeader m a).subclass = 0x06 ∧
    (readHeader m a).progIF = 0x01

instance (m : Mem) (a : ℕ) : Decidable (IsAhci m a) := inferInstanceAs (Decidable (_ ∧ _))

def recordCount (m : Mem) (mcfg : ℕ) : ℕ := (load32 m (mcfg + 4) - mcfgHeaderSize) / deviceConfigSize

/-- A bus of a table entry; the range in the table is inclusive. -/
def InWindow (m : Mem) (mcfg i bus : ℕ) : Prop :=
  i < recordCount m mcfg ∧ (deviceConfig m mcfg i).startBus ≤ bus ∧
    bus ≤ (deviceConfig m mcfg i).endBus

def controllersOnBus (m : Mem) (mcfg i bus : ℕ) : List ℕ :=
  (List.range 32).flatMap fun device => (List.range 8).flatMap fun func =>
    if IsAhci m (headerAddress m mcfg i bus device func) then
      [headerAddress m mcfg i bus device func]
    else []

/-- Each controller once for each entry, bus, device and function that it answers at. -/
def controllers (m : Mem) (mcfg : ℕ) : List ℕ :=
  (List.range (recordCount m mcfg)).flatMap fun i =>
    (List.range' (deviceConfig m mcfg i).startBus
      ((deviceConfig m mcfg i).endBus + 1 - (deviceConfig m mcfg i).startBus)).flatMap
        (controllersOnBus m mcfg i)

theorem enteries_toNat (m : Mem) (mcfg : ℕ) :
    (enteries m mcfg).toNat = recordCount m mcfg := by
  have h : load32 m (mcfg + 4) < 2 ^ 32 := by simpa using loadLE_lt m (mcfg + 4) 4
  generalize hl : load32 m (mcfg + 4) = lenght at h
  simp only [enteries, recordCount, hl, int32, wrap, mcfgHeaderSize, deviceConfigSize]
  omega

theorem flatMap_eq_of_length {α β : Type} {l : List α} {f g : α → List β}
    (h : ∀ x ∈ l, (f x).Sublist (g x)) (hlen : (l.flatMap g).length ≤ (l.flatMap f).length) :
    ∀ x ∈ l, f x = g x := by
  induction l with
  | nil => simp
  | cons a l ih =>
    have ha := (h a (by simp)).length_le
    have hl := (List.Sublist.flatMap_right l fun x hx => h x (by simp [hx])).length_le
    simp only [List.flatMap_cons, List.length_append] at hlen
    intro x hx
    obtain rfl | hx := List.mem_cons.1 hx
    · exact (h x (by simp)).eq_of_length (by omega)
    · exact ih (fun y hy => h y (by simp [hy])) (by omega) x hx

@[simp] theorem driverCalls_nil : driverCalls [] = [] := rfl

@[simp] theorem driverCalls_mapMemory (a b : ℕ) (l : List PciEvent) :
    driverCalls (.mapMemory a b :: l) = driverCalls l := rfl

@[simp] theorem driverCalls_print (a b : ℕ) (l : List PciEvent) :
    driverCalls (.print a b :: l) = driverCalls l := rfl

@[simp] theorem driverCalls_ahciDriver (a : ℕ) (l : List PciEvent) :
    driverCalls (.ahciDriver a :: l) = a :: driverCalls l := rfl

theorem driverCalls_flatMap {α : Type} (l : List α) (f : α → List PciEvent) :
    driverCalls (l.flatMap f) = l.flatMap fun x => driverCalls (f x) := by
  induction l with
  | nil => rfl
  | cons a l ih =>
    rw [List.flatMap_cons, List.flatMap_cons, ← ih]
    exact List.filterMap_append

/-- Both sentinel tests together decide whether a probe goes on. -/
theorem probe_eq (m : Mem) (a : ℕ) (rest : List PciEvent) :
    (if (readHeader m a).deviceID = 0 then []
      else if (readHeader m a).deviceID = 0xffff then [] else rest) =
      if Present m a then rest else [] := by
  unfold Present
  by_cases h0 : (readHeader m a).deviceID = 0
  · simp [h0]
  · by_cases hf : (readHeader m a).deviceID = 0xffff <;> simp [h0, hf]

theorem driverCalls_function (m : Mem) (deviceAddress func : ℕ) :
    driverCalls (enumerateFunction m deviceAddress func) =
      if IsAhci m (wrap (deviceAddress + wrap (func <<< 12))) then
        [wrap (deviceAddress + wrap (func <<< 12))]
      else [] := by
  unfold enumerateFunction
  simp only [probe_eq, driverCalls_mapMemory]
  by_cases hp : Present m (wrap (deviceAddress + wrap (func <<< 12)))
  · rw [if_pos hp, driverCalls_print]
    simp only [IsAhci, hp, true_and]
    split <;> simp
  · rw [if_neg hp, if_neg fun h => hp h.1, driverCalls_nil]

theorem driverCalls_device (m : Mem) (busAddress device : ℕ) :
    driverCalls (enumerateDevice m busAddress device) =
      if Present m (wrap (busAddress + wrap (device <<< 15))) then
        (List.range 8).flatMap fun func => driverCalls (enumerateFunction m
          (wrap (busAddress + wrap (device <<< 15))) func)
      else [] := by
  unfold enumerateDevice
  simp only [probe_eq, driverCalls_mapMemory]
  split
  · exact driverCalls_flatMap _ _
  · exact driverCalls_nil

theorem driverCalls_bus (m : Mem) (baseAddress bus : ℕ) :
    driverCalls (enumerateBus m baseAddress bus) =
      if Present m (wrap (baseAddress + wrap (bus <<< 20))) then
        (List.range 32).flatMap fun device => driverCalls (enumerateDevice m
          (wrap (baseAddress + wrap (bus <<< 20))) device)
      else [] := by
  unfold enumerateBus
  simp only [probe_eq, driverCalls_mapMemory]
  split
  · exact driverCalls_flatMap _ _
  · exact driverCalls_nil

section Enumeration
variable (m : Mem) (mcfg : ℕ)

theorem busAddress_eq (i bus : ℕ) : wrap ((deviceConfig m mcfg i).baseAddress + wrap (bus <<< 20)) =
    headerAddress m mcfg i bus 0 0 := by
  simp [headerAddress, wrap_add_wrap]

theorem deviceAddress_eq (i bus device : ℕ) :
    wrap (headerAddress m mcfg i bus 0 0 + wrap (device <<< 15)) =
      headerAddress m mcfg i bus device 0 := by
  simp [headerAddress, wrap_add_wrap, wrap_wrap_add]

theorem functionAddress_eq (i bus device func : ℕ) :
    wrap (headerAddress m mcfg i bus device 0 + wrap (func <<< 12)) =
      headerAddress m mcfg i bus device func := by
  simp [headerAddress, wrap_add_wrap, wrap_wrap_add]

/-- Function 0 of every device in the windows answers when any of its functions does. -/
def FunctionZeroPresent : Prop :=
  ∀ i bus, InWindow m mcfg i bus → ∀ device < 32, ∀ func < 8,
    Present m (headerAddress m mcfg i bus device func) →
      Present m (headerAddress m mcfg i bus device 0)

/-- A bus is searched completely when device 0 answers on it, and not at all otherwise. -/
theorem driverCalls_window (hzero : FunctionZeroPresent m mcfg) {i bus : ℕ}
    (hw : InWindow m mcfg i bus) :
    driverCalls (enumerateBus m (deviceConfig m mcfg i).baseAddress bus) =
      if Present m (headerAddress m mcfg i bus 0 0) then controllersOnBus m mcfg i bus else [] := by
  have hdevice : ∀ device ∈ List.range 32, driverCalls (enumerateDevice m
      (headerAddress m mcfg i bus 0 0) device) = (List.range 8).flatMap fun func =>
        if IsAhci m (headerAddress m mcfg i bus device func) then
          [headerAddress m mcfg i bus device func] else [] := by
    intro device hd
    rw [driverCalls_device, deviceAddress_eq]
    by_cases hp : Present m (headerAddress m mcfg i bus device 0)
    · simp only [if_pos hp, driverCalls_function, functionAddress_eq]
    · rw [if_neg hp, eq_comm, List.flatMap_eq_nil_iff]
      intro func hf
      refine if_neg fun ha => hp ?_
      exact hzero i bus hw device (List.mem_range.1 hd) func (List.mem_range.1 hf) ha.1
  rw [driverCalls_bus, busAddress_eq]
  split
  · exact List.flatMap_congr hdevice
  · rfl

def searched (i bus : ℕ) : List ℕ :=
  if bus < (deviceConfig m mcfg i).endBus ∧ Present m (headerAddress m mcfg i bus 0 0) then
    controllersOnBus m mcfg i bus
  else []

theorem searched_sublist (i bus : ℕ) :
    (searched m mcfg i bus).Sublist (controllersOnBus m mcfg i bus) := by
  unfold searched
  split
  · exact List.Sublist.refl _
  · exact List.nil_sublist _

def busRange (i : ℕ) : List ℕ :=
  List.range' (deviceConfig m mcfg i).startBus
    ((deviceConfig m mcfg i).endBus + 1 - (deviceConfig m mcfg i).startBus)

theorem mem_busRange {i bus : ℕ} : bus ∈ busRange m mcfg i ↔
    (deviceConfig m mcfg i).startBus ≤ bus ∧ bus ≤ (deviceConfig m mcfg i).endBus := by
  rw [busRange, List.mem_range'_1]
  omega

theorem driverCalls_eq (hzero : FunctionZeroPresent m mcfg) :
    driverCalls (pciEnumeratePci m mcfg) = (List.range (recordCount m mcfg)).flatMap fun i =>
      (busRange m mcfg i).flatMap (searched m mcfg i) := by
  unfold pciEnumeratePci
  rw [driverCalls_flatMap, enteries_toNat]
  refine List.flatMap_congr fun i hi => ?_
  rw [driverCalls_flatMap]
  have hloop : (List.range' (deviceConfig m mcfg i).startBus
      ((deviceConfig m mcfg i).endBus - (deviceConfig m mcfg i).startBus)).flatMap
        (fun bus => driverCalls (enumerateBus m (deviceConfig m mcfg i).baseAddress bus)) =
      (List.range' (deviceConfig m mcfg i).startBus
        ((deviceConfig m mcfg i).endBus - (deviceConfig m mcfg i).startBus)).flatMap
          (searched m mcfg i) := by
    refine List.flatMap_congr fun bus hbus => ?_
    rw [List.mem_range'_1] at hbus
    have hw : InWindow m mcfg i bus := ⟨List.mem_range.1 hi, hbus.1, by omega⟩
    rw [driverCalls_window m mcfg hzero hw, searched]
    simp only [show bus < (deviceConfig m mcfg i).endBus by omega, true_and]
  rw [hloop, busRange]
  obtain hgt | hle := Nat.lt_or_ge (deviceConfig m mcfg i).endBus (deviceConfig m mcfg i).startBus
  · rw [Nat.sub_eq_zero_of_le hgt.le, Nat.sub_eq_zero_of_le hgt]
  · have hlast : searched m mcfg i (deviceConfig m mcfg i).endBus = [] :=
      if_neg fun h => absurd h.1 (lt_irrefl _)
    rw [Nat.succ_sub hle, List.range'_1_concat, List.flatMap_append]
    rw [show (deviceConfig m mcfg i).startBus + ((deviceConfig m mcfg i).endBus -
      (deviceConfig m mcfg i).startBus) = (deviceConfig m mcfg i).endBus by omega]
    simp [hlast]

/-- The driver runs exactly once at each controller of the windows and nowhere else. -/
def EnumeratesControllers : Prop :=
  (driverCalls (pciEnumeratePci m mcfg)).Perm (controllers m mcfg)

/-- No controller is on the last bus of its range, and device 0 answers on the bus of every
    controller. -/
def ControllersReachable : Prop :=
  ∀ i bus, InWindow m mcfg i bus → ∀ device < 32, ∀ func < 8,
    IsAhci m (headerAddress m mcfg i bus device func) →
      bus ≠ (deviceConfig m mcfg i).endBus ∧ Present m (headerAddress m mcfg i bus 0 0)

theorem controllersOnBus_eq_nil_iff (i bus : ℕ) : controllersOnBus m mcfg i bus = [] ↔
    ∀ device < 32, ∀ func < 8, ¬ IsAhci m (headerAddress m mcfg i bus device func) := by
  simp [controllersOnBus, List.flatMap_eq_nil_iff]

theorem enumeratesControllers_iff (hzero : FunctionZeroPresent m mcfg) :
    EnumeratesControllers m mcfg ↔ ControllersReachable m mcfg := by
  unfold EnumeratesControllers
  rw [driverCalls_eq m mcfg hzero]
  constructor
  · intro hperm i bus hw device hd func hf hahci
    have hentries : ∀ i ∈ List.range (recordCount m mcfg),
        (busRange m mcfg i).flatMap (searched m mcfg i) =
          (busRange m mcfg i).flatMap (controllersOnBus m mcfg i) :=
      flatMap_eq_of_length
        (fun i _ => List.Sublist.flatMap_right _ fun bus _ => searched_sublist m mcfg i bus)
        hperm.length_eq.ge
    have hbus : searched m mcfg i bus = controllersOnBus m mcfg i bus :=
      flatMap_eq_of_length (fun bus _ => searched_sublist m mcfg i bus)
        (congrArg List.length (hentries i (List.mem_range.2 hw.1))).ge bus
        ((mem_busRange m mcfg).2 hw.2)
    by_contra hnot
    have hnil : searched m mcfg i bus = [] := if_neg fun h => hnot ⟨by omega, h.2⟩
    exact (controllersOnBus_eq_nil_iff m mcfg i bus).1 (hbus ▸ hnil) device hd func hf hahci
  · intro hreach
    refine List.Perm.of_eq (List.flatMap_congr fun i hi => List.flatMap_congr fun bus hbus => ?_)
    have hw : InWindow m mcfg i bus := ⟨List.mem_range.1 hi, (mem_busRange m mcfg).1 hbus⟩
    by_cases hnil : controllersOnBus m mcfg i bus = []
    · exact List.Sublist.eq_of_length (searched_sublist m mcfg i bus) (by simp [hnil, searched])
    · rw [controllersOnBus_eq_nil_iff] at hnil
      push Not at hnil
      obtain ⟨device, hd, func, hf, hahci⟩ := hnil
      obtain ⟨hlast, hpresent⟩ := hreach i bus hw device hd func hf hahci
      have hle := hw.2.2
      exact if_pos ⟨by omega, hpresent⟩

end Enumeration

/-- A table at `0x1000` with one record for buses 0 and 1, and on one of these buses a host
    bridge, a bridge at device 31 and an AHCI controller at device 31, function 2. -/
def oneWindow (bus : ℕ) : Mem := fun a =>
  let deviceZero := 0xe0000000 + bus <<< 20
  let bridge := deviceZero + 31 <<< 15
  let controller := bridge + 2 <<< 12
  let cells : List (ℕ × ℕ) := [(0x1004, 60), (0x102f, 0xe0), (0x1037, 1), (deviceZero + 2, 0xc0),
    (bridge + 2, 0x18), (controller + 2, 0x22), (controller + 9, 1), (controller + 10, 6),
    (controller + 11, 1)]
  BitVec.ofNat 8 ((cells.lookup a).getD 0)

theorem oneWindow_inWindow {c i bus : ℕ} (hc : c < 2) (h : InWindow (oneWindow c) 0x1000 i bus) :
    i = 0 ∧ bus < 2 := by
  have hfacts : ∀ c < 2, recordCount (oneWindow c) 0x1000 = 1 ∧
      (deviceConfig (oneWindow c) 0x1000 0).endBus = 1 := by decide +kernel
  obtain ⟨hcount, hend⟩ := hfacts c hc
  obtain ⟨hi, _, hbus⟩ := h
  obtain rfl : i = 0 := by omega
  exact ⟨rfl, by omega⟩

theorem oneWindow_functionZero {c : ℕ} (hc : c < 2) :
    FunctionZeroPresent (oneWindow c) 0x1000 := by
  have hall : ∀ c < 2, ∀ bus < 2, ∀ device < 32, ∀ func < 8,
      Present (oneWindow c) (headerAddress (oneWindow c) 0x1000 0 bus device func) →
        Present (oneWindow c) (headerAddress (oneWindow c) 0x1000 0 bus device 0) := by
    decide +kernel
  intro i bus hw
  obtain ⟨rfl, hbus⟩ := oneWindow_inWindow hc hw
  exact hall c hc bus hbus

theorem enumeratesControllers_firstBus : EnumeratesControllers (oneWindow 0) 0x1000 := by
  refine (enumeratesControllers_iff _ _ (oneWindow_functionZero (by decide))).2 ?_
  have hall : ∀ bus < 2, ∀ device < 32, ∀ func < 8,
      IsAhci (oneWindow 0) (headerAddress (oneWindow 0) 0x1000 0 bus device func) →
        bus ≠ (deviceConfig (oneWindow 0) 0x1000 0).endBus ∧
          Present (oneWindow 0) (headerAddress (oneWindow 0) 0x1000 0 bus 0 0) := by
    decide +kernel
  intro i bus hw
  obtain ⟨rfl, hbus⟩ := oneWindow_inWindow (by decide) hw
  exact hall bus hbus

/-- A controller on the last bus of the inclusive range is never found. -/
theorem enumeratesControllers_lastBus : FunctionZeroPresent (oneWindow 1) 0x1000 ∧
    ¬ EnumeratesControllers (oneWindow 1) 0x1000 := by
  refine ⟨oneWindow_functionZero (by decide), fun henum => ?_⟩
  have hnone : driverCalls (pciEnumeratePci (oneWindow 1) 0x1000) = [] := by decide +kernel
  have hone : controllers (oneWindow 1) 0x1000 = [0xe01fa000] := by decide +kernel
  unfold EnumeratesControllers at henum
  rw [hnone, hone] at henum
  exact absurd henum.length_eq (by decide)

end Rizzos.Pci
