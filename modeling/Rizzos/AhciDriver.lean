import Rizzos.AhciDisk
import Rizzos.FatRootDirectory
import Rizzos.KernelPrint

set_option autoImplicit false

/-!
# The driver from its ports to the screen

The loop of `AHCI_AHCIDriver` over the ports that the probe found. Each of them is configured, its
boot sector is read and decoded, and the start of its root directory is printed.
-/
namespace Rizzos.AhciDriver
open ByteMemory BootFiles CInt Memory MemberWrites StructLayout Ahci AhciRead AhciConfigure
open AhciPointers AhciTables AhciDisk Fat FatRootDirectory BasicGraphics ConsoleBounds StbSprintf
open SprintfCopy KernelPrint

/-! ### The loop -/

/-- A port with what it answers to the configuration and to the two reads. -/
structure Port where
  hbaPort : HBAPort
  configure : Controller
  first : Controller
  second : Controller
  disk : Disk

structure DriverTexts where
  buffer : ℕ
  rootDirectory : ℕ
  byte : ℕ

section Loop
variable (fb : FrameBuffer) (font : Psf1Font) (image : Mem) (str : ℕ) (texts : DriverTexts)
  (pfaRequestPage : Machine ℕ → ℕ × Machine ℕ) (fuel : ℕ)

def printBytes (m : Mem) (buffer : ℕ) (g : Graphics) : Option Graphics :=
  (List.range 1024).foldlM (fun g t =>
    print fb font image str (fun _ => (load8 m (buffer + t)).setWidth 64) texts.byte fuel g) g

/-- One turn of the loop over the ports. No result is the fault of a division. -/
def servePort (r : Machine ℕ × Graphics) (port : Port) : Option (Machine ℕ × Graphics) := do
  let s ← portConfigure pfaRequestPage port.configure fuel ⟨r.1, port.hbaPort, false⟩
  let (buffer, r') := pfaRequestPage s.toMachine
  let s := { s with mem := memSet r'.mem buffer 0 0x1000, alloc := r'.alloc }
  let g ← print fb font image str (fun _ => 0) texts.buffer fuel r.2
  let (s, _) ← diskRead port.first port.disk fuel 0 4 buffer s
  match fatParseFat16_12 s.mem buffer with
  | none => some (s.toMachine, g)
  | some fat16 =>
    let root ← rootDirectory fat16.bpb
    let g ← print fb font image str (fun _ => BitVec.ofNat 64 root.firstRootDirSector)
      texts.rootDirectory fuel g
    let (s, _) ← diskRead port.second port.disk fuel root.firstRootDirSector 4 buffer s
    let g ← printBytes fb font image str texts fuel s.mem buffer g
    some (s.toMachine, g)

def servePorts (ports : List Port) (r : Machine ℕ × Graphics) : Option (Machine ℕ × Graphics) :=
  ports.foldlM (servePort fb font image str texts pfaRequestPage fuel) r

end Loop

/-! ### What a port shows -/

def bootSectors (disk : Disk) (buffer : ℕ) : Mem := copy disk buffer 0 2048 fun _ => 0

def portCalls (disk : Disk) (buffer : ℕ) : Option (List PrintCall) :=
  match fatParseFat16_12 (bootSectors disk buffer) buffer with
  | none => some [.buffer]
  | some fat16 => (rootDirectory fat16.bpb).map fun root =>
      .buffer :: .rootDirectory (BitVec.ofNat 32 root.firstRootDirSector) ::
        (List.range 1024).map fun t =>
          .byte (disk (namedSector root.firstRootDirSector + t / 512) (t % 512))

def callOps (calls : List PrintCall) : List ConsoleOp := calls.flatMap fun call => printOps call.text

theorem callOps_cons (call : PrintCall) (calls : List PrintCall) :
    callOps (call :: calls) = printOps call.text ++ callOps calls := List.flatMap_cons

/-! ### The decoder and the bytes that it reads -/

section Decoder
variable {m m' : Mem} {a : ℕ}

theorem loadMember_congr (h : Agree m m' a 64) (ha : a + 64 ≤ 2 ^ 64) {members : List CType} {i : ℕ}
    (hin : offsetOf members i + (members.getD i .uint8).size ≤ 64) :
    loadMember m' a members i = loadMember m a members i :=
  h.load ha hin

theorem loadMemberBytes_congr (h : Agree m m' a 64) (ha : a + 64 ≤ 2 ^ 64) {members : List CType}
    {i : ℕ} (hin : offsetOf members i + (members.getD i .uint8).size ≤ 64) :
    loadMemberBytes m' a members i = loadMemberBytes m a members i := by
  apply List.map_congr_left
  intro j hj
  have hj := List.mem_range.1 hj
  rw [load8, load8, wrap_of_lt (by omega)]
  exact h _ (by omega) (by omega)

theorem loadBpb_congr (h : Agree m m' a 64) (ha : a + 64 ≤ 2 ^ 64) : loadBpb m' a = loadBpb m a := by
  unfold loadBpb
  simp only [FatBpb.mk.injEq]
  refine ⟨loadMemberBytes_congr h ha ?_, loadMemberBytes_congr h ha ?_, loadMember_congr h ha ?_,
    loadMember_congr h ha ?_, loadMember_congr h ha ?_, loadMember_congr h ha ?_,
    loadMember_congr h ha ?_, loadMember_congr h ha ?_, loadMember_congr h ha ?_,
    loadMember_congr h ha ?_, loadMember_congr h ha ?_, loadMember_congr h ha ?_,
    loadMember_congr h ha ?_, loadMember_congr h ha ?_⟩ <;> decide

theorem loadEbpb16_congr (h : Agree m m' a 64) (ha : a + 64 ≤ 2 ^ 64) :
    loadEbpb16 m' a = loadEbpb16 m a := by
  unfold loadEbpb16
  simp only [FatEbpb16.mk.injEq]
  refine ⟨loadMember_congr h ha ?_, loadMember_congr h ha ?_, loadMember_congr h ha ?_,
    loadMember_congr h ha ?_, loadMemberBytes_congr h ha ?_, loadMemberBytes_congr h ha ?_⟩ <;> decide

theorem fatParseFat16_12_congr (h : Agree m m' a 512) (ha : a + 512 ≤ 2 ^ 64) :
    fatParseFat16_12 m' a = fatParseFat16_12 m a := by
  have hsize : structSize fatBpbMembers = 40 := by decide
  have hfirst : Agree m m' a 64 := h.mono le_rfl (by omega)
  have hsecond : Agree m m' (a + structSize fatBpbMembers) 64 := h.mono (by omega) (by omega)
  unfold fatParseFat16_12
  rw [loadBpb_congr hfirst (by omega), loadEbpb16_congr hsecond (by omega)]

end Decoder

/-! ### Frames behind others -/

section Frames
variable {frames : ℕ → ℕ} {hba : Controller} {fuel : ℕ} {port : HBAPort} {issued : Bool}

def behind (a : ℕ) (s : Machine ℕ) : Machine ℕ := { s with alloc := a + s.alloc }

theorem configureHeader_behind (cmdHeader a i : ℕ) (s : Machine ℕ) :
    configureHeader (nextFrame frames) cmdHeader (behind a s) i =
      behind a (configureHeader (nextFrame fun k => frames (a + k)) cmdHeader s i) := by
  simp only [configureHeader, nextFrame, behind, Nat.add_assoc]

theorem configureHeaders_behind (cmdHeader a n : ℕ) (s : Machine ℕ) :
    configureHeaders (nextFrame frames) cmdHeader n (behind a s) =
      behind a (configureHeaders (nextFrame fun k => frames (a + k)) cmdHeader n s) := by
  induction n with
  | zero => rfl
  | succ n ih =>
    rw [configureHeaders, configureHeaders, List.range_succ, List.foldl_append, List.foldl_append,
      ← configureHeaders, ← configureHeaders, ih]
    exact configureHeader_behind _ _ _ _

theorem portConfigure_behind (a : ℕ) (m : Mem) :
    portConfigure (nextFrame frames) hba fuel ⟨⟨m, a⟩, port, issued⟩ =
      (portConfigure (nextFrame fun k => frames (a + k)) hba fuel ⟨⟨m, 0⟩, port, issued⟩).map
        fun s => { s with alloc := a + s.alloc } := by
  rw [portConfigure, portConfigure]
  simp only [portStopCMD]
  cases stopLoop hba.cmdSts fuel 2 with
  | none => rfl
  | some n =>
    simp only [Option.map_some, Option.bind_some, portStartCMD, configureBases, nextFrame,
      Nat.add_zero, Nat.zero_add]
    cases startLoop hba.cmdSts fuel n with
    | none => rfl
    | some n' =>
      have hheaders : ∀ (cmdHeader : ℕ) (mem : Mem),
          configureHeaders (nextFrame frames) cmdHeader 32 ⟨mem, a + 1 + 1⟩ =
            behind a (configureHeaders (nextFrame fun k => frames (a + k)) cmdHeader 32 ⟨mem, 1 + 1⟩) :=
        fun cmdHeader mem => configureHeaders_behind cmdHeader a 32 ⟨mem, 2⟩
      simp only [Option.map_some]
      rw [hheaders]
      rfl

/-- What a port needs of the frames of its turn: 34 for the commands and one for the buffer. -/
structure PortFrames (frames : ℕ → ℕ) : Prop where
  aligned : ∀ k < 35, frames k % 4096 = 0
  bound : ∀ k < 35, frames k < 2 ^ 52
  distinct : ∀ j < 35, ∀ k < 35, j ≠ k → frames j ≠ frames k
  list_low : frames 0 < 2 ^ 32
  table_low : frames 2 < 2 ^ 32

theorem configureHeaders_alloc (cmdHeader n : ℕ) (s : Machine ℕ) :
    (configureHeaders (nextFrame frames) cmdHeader n s).alloc = s.alloc + n := by
  induction n with
  | zero => rfl
  | succ n ih =>
    rw [configureHeaders, List.range_succ, List.foldl_append, ← configureHeaders]
    change (configureHeaders (nextFrame frames) cmdHeader n s).alloc + 1 = _
    rw [ih, Nat.add_assoc]

theorem portConfigure_alloc {s t : PortState ℕ}
    (h : portConfigure (nextFrame frames) hba fuel s = some t) : t.alloc = s.alloc + 34 := by
  obtain ⟨⟨s₁, n⟩, hstop, hstart⟩ := Option.bind_eq_some_iff.1 h
  obtain ⟨n', -, heq⟩ := Option.map_eq_some_iff.1 hstop
  obtain ⟨rfl, rfl⟩ := Prod.mk.inj heq
  obtain ⟨n'', -, rfl⟩ := Option.map_eq_some_iff.1 hstart
  exact configureHeaders_alloc _ 32 _

def Restarts (hba : Controller) (fuel : ℕ) : Prop :=
  ∃ n n', stopLoop hba.cmdSts fuel 2 = some n ∧ startLoop hba.cmdSts fuel n = some n'

theorem portConfigure_low {a : ℕ} (hframes : PortFrames fun k => frames (a + k))
    (hrestarts : Restarts hba fuel) (m : Mem) (port : HBAPort) (issued : Bool) :
    ∃ s, portConfigure (nextFrame frames) hba fuel ⟨⟨m, a⟩, port, issued⟩ = some s ∧
      Low (frames a) (frames (a + 2)) s ∧ s.alloc = a + 34 := by
  have hsequence : FrameSequence fun k => frames (a + k) :=
    ⟨fun k hk => hframes.aligned k (Nat.lt_succ_of_lt hk), fun k hk => hframes.bound k (Nat.lt_succ_of_lt hk)⟩
  have hcollision : ¬ Collision fun k => frames (a + k) := by
    rintro ⟨i, hi, heq⟩
    exact hframes.distinct (i + 2) (by omega) 0 (by decide) (by omega) heq
  have hreturns : ∃ s, portConfigure (nextFrame fun k => frames (a + k)) hba fuel
      ⟨⟨m, 0⟩, port, issued⟩ = some s := (portConfigure_returns_iff _).2 hrestarts
  obtain ⟨s, hs⟩ := hreturns
  have hpointed := pointed_configured hsequence hs
  rw [(headerTable_configured hsequence).2 hcollision] at hpointed
  have hlow : Low (frames a) (frames (a + 2)) { s with alloc := a + s.alloc } := by
    have halignedList := hframes.aligned 0 (by decide)
    have halignedTable := hframes.aligned 2 (by decide)
    have hne := hframes.distinct 0 (by decide) 2 (by decide) (by decide)
    have hlist := hframes.list_low
    have htable := hframes.table_low
    refine ⟨?_, hpointed.list, hpointed.table, hlist, htable, ?_⟩
    · exact hpointed.base.trans (Nat.mod_eq_of_lt hlist)
    · simp only [Nat.add_zero] at halignedList hne
      unfold filledSize HBACommandTable.size HBAPRDTEntry.size HBACommandHeader.size
      omega
  refine ⟨_, ?_, hlow, ?_⟩
  · rw [portConfigure_behind, hs]
    rfl
  · change a + s.alloc = _
    rw [portConfigure_alloc hs]

end Frames

/-! ### One port -/

section Turn
variable {fb : FrameBuffer} {font : Psf1Font} {image : Mem} {str : ℕ} {texts : DriverTexts}
  {frames : ℕ → ℕ} {fuel : ℕ}

/-- The formats that stand at the addresses. -/
structure DriverTexts.Holds (texts : DriverTexts) (image : Mem) : Prop where
  buffer : TextAt image texts.buffer PrintCall.buffer.format
  rootDirectory : TextAt image texts.rootDirectory (PrintCall.rootDirectory 0).format
  byte : TextAt image texts.byte (PrintCall.byte 0).format

/-- The port lets itself be configured and completes both reads. -/
structure Port.Answers (port : Port) (fuel : ℕ) : Prop where
  configure : Restarts port.configure fuel
  first : Completes port.first fuel
  second : Completes port.second fuel

theorem consoleRun_append (ops ops' : List ConsoleOp) (g : Graphics) :
    consoleRun fb font (ops ++ ops') g = consoleRun fb font ops' (consoleRun fb font ops g) :=
  List.foldl_append

theorem print_byte (htexts : texts.Holds image) (hfuel : 109 ≤ fuel) (value : Byte) (g : Graphics) :
    print fb font image str (fun _ => value.setWidth 64) texts.byte fuel g =
      some (consoleRun fb font (printOps (PrintCall.byte value).text) g) := by
  have hpasses : (PrintCall.byte value).Passes image fun _ => value.setWidth 64 :=
    BitVec.setWidth_setWidth_of_le value (by decide)
  exact print_text hpasses htexts.byte str (by change 4 * 3 + 5 ≤ fuel; omega) g

theorem printBytes_eq (htexts : texts.Holds image) (hfuel : 109 ≤ fuel) (m : Mem) (buffer : ℕ)
    (g : Graphics) : printBytes fb font image str texts fuel m buffer g =
      some (consoleRun fb font (callOps ((List.range 1024).map fun t =>
        .byte (load8 m (buffer + t)))) g) := by
  have hrun : ∀ (l : List ℕ) (g : Graphics), l.foldlM (fun g t =>
      print fb font image str (fun _ => (load8 m (buffer + t)).setWidth 64) texts.byte fuel g) g =
      some (consoleRun fb font (callOps (l.map fun t => .byte (load8 m (buffer + t)))) g) := by
    intro l
    induction l with
    | nil => exact fun _ => rfl
    | cons t l ih =>
      intro g
      rw [List.foldlM_cons, print_byte htexts hfuel, Option.bind_eq_bind, Option.bind_some, ih,
        List.map_cons, callOps_cons, consoleRun_append]
  exact hrun _ g

theorem memSet_agree {H buffer : ℕ} (m : Mem) (hH : H % 4096 = 0) (hbuffer : buffer % 4096 = 0)
    (hne : buffer ≠ H) (hlt : buffer < 2 ^ 52) :
    Agree m (memSet m buffer 0 0x1000) (H + HBACommandHeader.commandTableBaseAddress) 8 := by
  intro x hx hx'
  unfold HBACommandHeader.commandTableBaseAddress at hx hx'
  have houtside : Outside x buffer 0x1000 := Outside.of_range (by omega) (by omega)
  exact memSet_outside _ _ houtside

theorem diskRead_page {H T buffer : ℕ} {s : PortState ℕ} (h : Low H T s)
    {hba : Controller} (hcompletes : Completes hba fuel) (disk : Disk) (sector : ℕ) (hH : H % 4096 = 0)
    (hbuffer : buffer % 4096 = 0) (hne : buffer ≠ H) (hlt : buffer < 2 ^ 52) :
    ∃ t, diskRead hba disk fuel sector 4 buffer s = some (t, true) ∧ Low H T t ∧
      t.alloc = s.alloc ∧ ∀ i < 2048, t.mem (buffer + i) =
        disk (namedSector sector + i / 512) (i % 512) := by
  have hsize : HBACommandHeader.size = 32 := rfl
  have hapart : RangesApart buffer (512 * 4) H HBACommandHeader.size := by
    unfold RangesApart
    omega
  obtain ⟨t, ht, hlow, halloc, hmem⟩ := diskRead_completes h hcompletes (by decide) (by decide)
    (by omega) hapart
  refine ⟨t, ht, hlow, halloc, fun i hi => ?_⟩
  rw [hmem]
  exact copy_inside _ _ _ (by omega)

variable (fb font str) in
theorem servePort_shows {port : Port} {a : ℕ} (htexts : texts.Holds image) (hfuel : 109 ≤ fuel)
    (hframes : PortFrames fun k => frames (a + k)) (hanswers : port.Answers fuel) (m : Mem)
    (g : Graphics) :
    ∃ r : Machine ℕ, r.alloc = a + 35 ∧
      servePort fb font image str texts (nextFrame frames) fuel (⟨m, a⟩, g) port =
        (portCalls port.disk (frames (a + 34))).map fun calls =>
          (r, consoleRun fb font (callOps calls) g) := by
  have halignedList : frames a % 4096 = 0 := hframes.aligned 0 (by decide)
  have halignedBuffer : frames (a + 34) % 4096 = 0 := hframes.aligned 34 (by decide)
  have hne : frames (a + 34) ≠ frames a := hframes.distinct 34 (by decide) 0 (by decide) (by decide)
  have hlt : frames (a + 34) < 2 ^ 52 := hframes.bound 34 (by decide)
  obtain ⟨s, hs, hlow, halloc⟩ := portConfigure_low hframes hanswers.configure m
    port.hbaPort false
  have hcleared : Low (frames a) (frames (a + 2))
      { s with mem := memSet s.mem (frames (a + 34)) 0 0x1000, alloc := a + 34 + 1 } :=
    hlow.with_mem (memSet_agree _ halignedList halignedBuffer hne hlt)
  obtain ⟨t, ht, htlow, htalloc, htbytes⟩ := diskRead_page hcleared hanswers.first
    port.disk 0 halignedList halignedBuffer hne hlt
  have hagree : Agree (bootSectors port.disk (frames (a + 34))) t.mem (frames (a + 34)) 512 := by
    intro x hx hx'
    obtain ⟨i, rfl⟩ : ∃ i, x = frames (a + 34) + i := ⟨x - frames (a + 34), by omega⟩
    rw [htbytes i (by omega), bootSectors, copy_inside _ _ _ (by omega)]
    rfl
  have hparse := fatParseFat16_12_congr hagree (by omega)
  have hfirst : print fb font image str (fun _ => 0) texts.buffer fuel g =
      some (consoleRun fb font (printOps PrintCall.buffer.text) g) :=
    print_text (show PrintCall.buffer.Passes image _ from trivial) htexts.buffer str
      (by change 4 * 21 + 5 ≤ fuel; omega) g
  simp only [servePort, hs, Option.bind_eq_bind, Option.bind_some, nextFrame, halloc, hfirst, ht,
    hparse, portCalls]
  cases fatParseFat16_12 (bootSectors port.disk (frames (a + 34))) (frames (a + 34)) with
  | none =>
    refine ⟨t.toMachine, htalloc, ?_⟩
    simp [callOps]
  | some fat16 =>
    dsimp only
    cases rootDirectory fat16.bpb with
    | none => exact ⟨⟨m, a + 35⟩, rfl, rfl⟩
    | some root =>
      have hpasses : (PrintCall.rootDirectory (BitVec.ofNat 32 root.firstRootDirSector)).Passes image
          fun _ => BitVec.ofNat 64 root.firstRootDirSector :=
        BitVec.setWidth_ofNat_of_le (by decide) _
      have hsecond : ∀ g, print fb font image str (fun _ => BitVec.ofNat 64 root.firstRootDirSector)
          texts.rootDirectory fuel g = some (consoleRun fb font (printOps
            (PrintCall.rootDirectory (BitVec.ofNat 32 root.firstRootDirSector)).text) g) :=
        print_text hpasses htexts.rootDirectory str (by change 4 * 26 + 5 ≤ fuel; omega)
      obtain ⟨u, hu, -, hualloc, hubytes⟩ := diskRead_page htlow hanswers.second
        port.disk root.firstRootDirSector halignedList halignedBuffer hne hlt
      have hbytes : ((List.range 1024).map fun t => PrintCall.byte (load8 u.mem (frames (a + 34) + t))) =
          (List.range 1024).map fun t =>
            .byte (port.disk (namedSector root.firstRootDirSector + t / 512) (t % 512)) := by
        apply List.map_congr_left
        intro i hi
        have hi := List.mem_range.1 hi
        rw [load8, wrap_of_lt (by omega), hubytes i (by omega)]
      refine ⟨u.toMachine, hualloc.trans htalloc, ?_⟩
      simp only [Option.bind_some, Option.map_some, hsecond, hu, printBytes_eq htexts hfuel, hbytes,
        callOps_cons, consoleRun_append]

end Turn

/-! ### All ports -/

section Ports
variable {fb : FrameBuffer} {font : Psf1Font} {image : Mem} {str : ℕ} {texts : DriverTexts}
  {frames : ℕ → ℕ} {fuel : ℕ}

/-- The lines of the ports one after another. A port takes 35 frames. -/
def portsCalls (frames : ℕ → ℕ) : ℕ → List Port → Option (List PrintCall)
  | _, [] => some []
  | a, port :: ports => do
    let calls ← portCalls port.disk (frames (a + 34))
    let rest ← portsCalls frames (a + 35) ports
    some (calls ++ rest)

theorem callOps_append (calls calls' : List PrintCall) :
    callOps (calls ++ calls') = callOps calls ++ callOps calls' := List.flatMap_append

/-- What reaches the screen are the bytes of each disk from the sector on that its decoded boot
    sector gives, with byte 3 of the number lost. A disk that the decoder takes for one of zero
    bytes a sector stops the driver. -/
theorem servePorts_shows (htexts : texts.Holds image) (hfuel : 109 ≤ fuel) {ports : List Port}
    (hanswers : ∀ port ∈ ports, port.Answers fuel) {a : ℕ}
    (hframes : ∀ j < ports.length, PortFrames fun k => frames (a + 35 * j + k)) (m : Mem)
    (g : Graphics) :
    ∃ r, servePorts fb font image str texts (nextFrame frames) fuel ports (⟨m, a⟩, g) =
      (portsCalls frames a ports).map fun calls => (r, consoleRun fb font (callOps calls) g) := by
  induction ports generalizing a m g with
  | nil => exact ⟨⟨m, a⟩, rfl⟩
  | cons port ports ih =>
    obtain ⟨hport, hrest⟩ := List.forall_mem_cons.1 hanswers
    have hfirst : PortFrames fun k => frames (a + k) := hframes 0 (Nat.succ_pos _)
    have hlater : ∀ j < ports.length, PortFrames fun k => frames (a + 35 + 35 * j + k) := by
      intro j hj
      have hframe := hframes (j + 1) (Nat.succ_lt_succ hj)
      rwa [Nat.mul_succ, Nat.add_comm (35 * j), ← Nat.add_assoc] at hframe
    obtain ⟨⟨m', a'⟩, rfl, hserve⟩ := servePort_shows fb font str htexts hfuel hfirst hport m g
    rw [servePorts, List.foldlM_cons, hserve, portsCalls]
    cases portCalls port.disk (frames (a + 34)) with
    | none => exact ⟨⟨m, a⟩, rfl⟩
    | some calls =>
      obtain ⟨r, hr⟩ := ih hrest hlater m' (consoleRun fb font (callOps calls) g)
      refine ⟨r, hr.trans ?_⟩
      cases portsCalls frames (a + 35) ports with
      | none => rfl
      | some rest =>
        simp only [Option.map_some, Option.bind_eq_bind, Option.bind_some, callOps_append,
          consoleRun_append]

def driverImage : Mem := fun x =>
  if x < 0x100 then PrintCall.buffer.format.getD x 0#8
  else if x < 0x200 then (PrintCall.rootDirectory 0).format.getD (x - 0x100) 0#8
  else (PrintCall.byte 0).format.getD (x - 0x200) 0#8

/-- A disk whose boot sector has the jump bytes and, where the decoder looks, 512 bytes a sector,
    one reserved sector and two tables of nine sectors. -/
def shiftedDisk (sector i : ℕ) : Byte :=
  if sector ≠ 0 then .ofNat 8 sector
  else if i = 0 then 0xEB else if i = 2 then 0x90 else if i = 13 then 2 else if i = 16 then 1
  else if i = 18 then 2 else if i = 26 then 9 else 0

def readyPort : Port :=
  ⟨⟨0, 0, 0, 0, 0, 0, 0⟩, readyController, readyController, readyController, shiftedDisk⟩

theorem readyPort_answers : readyPort.Answers 109 where
  configure := ⟨4, 5, by decide, by decide⟩
  first := ⟨readyController_ready, rfl⟩
  second := ⟨readyController_ready, rfl⟩

theorem consecutiveFrames_port (a : ℕ) (ha : a < 1000) :
    PortFrames fun k => consecutiveFrames (a + k) := by
  unfold consecutiveFrames
  refine ⟨?_, ?_, ?_, ?_, ?_⟩ <;> intros <;> omega

theorem servePorts_shows_two :
    ∃ r, servePorts smallScreen blockFont driverImage 0x7000 ⟨0, 0x100, 0x200⟩
        (nextFrame consecutiveFrames) 109 [readyPort, readyPort]
        (⟨fun _ => 0x55, 0⟩, initialGraphics fun _ => 0) =
      (portsCalls consecutiveFrames 0 [readyPort, readyPort]).map fun calls =>
        (r, consoleRun smallScreen blockFont (callOps calls) (initialGraphics fun _ => 0)) := by
  have htexts : DriverTexts.Holds ⟨0, 0x100, 0x200⟩ driverImage := ⟨by decide, by decide, by decide⟩
  have hanswers : ∀ port ∈ [readyPort, readyPort], port.Answers 109 := by
    simpa using readyPort_answers
  exact servePorts_shows htexts (by decide) hanswers
    (fun j hj => consecutiveFrames_port _ (by simp at hj; omega)) _ _

end Ports

end Rizzos.AhciDriver
