import Rizzos.LegacyBootDisk

set_option autoImplicit false

/-!
# The run of the boot sector

From `start`, with the sector where the BIOS has put it, to the far return or to the ROM's program.
-/
namespace Rizzos.LegacyBoot
open ByteMemory RealMode

/-! ### The whole run -/

section Whole
variable {bios : Bios} {disk : ℕ → ℕ → Byte} {depth : ℕ} {code : Layout} {s t u : State}

/-- The sector of the root directory, and the one of a cluster. -/
def rootLBA : Word := 0x04F0
def kernelLBA (cluster : Word) : Word := cluster - 2 + 0x04F0

def rootBuffer : Set ℕ := block 0x07C0 0x0200 512
def kernelBuffer : Set ℕ := block 0x0100 0x0000 512

def Layout.written (code : Layout) : Set ℕ :=
  biosMemory ∪ code.variables ∪ (rootBuffer ∪ kernelBuffer)

def stackFloor (depth : ℕ) : ℕ := 0xFFF1 - depth

/-- A state of the run behind its first lines. -/
structure Booted (code : Layout) (depth : ℕ) (s t : State) : Prop
    extends Ready code (stackFloor depth) code.written (depth + 14) t where
  top : t.top = 0xFFFF
  mem : Set.EqOn t.mem s.mem (code.written ∪ Set.Ico (stackFloor depth) 0xFFFF)ᶜ

theorem Booted.stays {R : Set ℕ} (h : Booted code depth s t) (hR : R ⊆ code.written)
    (hu : Stays (stackFloor depth) R t u) : Booted code depth s u where
  toReady := h.toReady.stays (hu.mono hR)
  top := hu.top.trans h.top
  mem := (h.top ▸ (hu.mono hR).mem).trans h.mem

theorem Booted.registers (h : Booted code depth s t) (hds : u.ds = t.ds) (hss : u.ss = t.ss)
    (hsp : u.sp = t.sp) (hdirection : u.direction = t.direction)
    (hmem : Set.EqOn u.mem t.mem code.variablesᶜ) : Booted code depth s u := by
  have htop : u.top = t.top := by rw [Machine.top, Machine.top, hss, hsp]
  have hvariables : code.variables ⊆ code.written :=
    Set.subset_union_right.trans Set.subset_union_left
  refine ⟨⟨⟨hsp ▸ h.sp, htop ▸ h.space, htop ▸ h.apart⟩, h.sector.of_eqOn hmem, hds.trans h.ds,
    hdirection.trans h.direction, h.clear, htop ▸ h.below⟩, htop.trans h.top, ?_⟩
  exact (hmem.mono (Set.compl_subset_compl.2 (hvariables.trans Set.subset_union_left))).trans h.mem

theorem rootBuffer_eq : rootBuffer = Set.Ico 0x7E00 0x8000 := by
  have hplace : linear 0x07C0 0x0200 = 0x7E00 := rfl
  rw [rootBuffer, block, hplace]

theorem kernelBuffer_eq : kernelBuffer = Set.Ico 0x1000 0x1200 := by
  have hplace : linear 0x0100 0x0000 = 0x1000 := rfl
  rw [kernelBuffer, block, hplace]

theorem buffers_place {x : ℕ} (hx : x ∈ rootBuffer ∪ kernelBuffer) :
    0x500 ≤ x ∧ x < 0x7C00 ∨ 0x7E00 ≤ x ∧ x < 0x8000 := by
  rw [rootBuffer_eq, kernelBuffer_eq] at hx
  rcases hx with hx | hx
  · exact .inr hx
  · have hle := hx.1
    have hlt := hx.2
    omega

theorem biosMemory_buffers : Disjoint biosMemory (rootBuffer ∪ kernelBuffer) := by
  refine Set.disjoint_left.2 fun x hx hx' => ?_
  have hor : x < 0x500 ∨ 0x80000 ≤ x := hx
  have hplace := buffers_place hx'
  omega

theorem bootSector_buffers : Disjoint bootSector (rootBuffer ∪ kernelBuffer) := by
  refine Set.disjoint_left.2 fun x hx hx' => ?_
  have hle : 0x7C00 ≤ x := hx.1
  have hlt : x < 0x7E00 := hx.2
  have hplace := buffers_place hx'
  omega

/-- The stack grows down towards the buffers and does not reach them. -/
theorem stack_apart (hdepth : depth ≤ 0x7FF1) :
    Disjoint (biosMemory ∪ bootSector ∪ (rootBuffer ∪ kernelBuffer))
      (Set.Ico (stackFloor depth) 0xFFFF) := by
  refine Set.disjoint_left.2 fun x hx hx' => ?_
  have hle : 0xFFF1 - depth ≤ x := hx'.1
  have hlt := hx'.2
  rcases hx with (hx | hx) | hx
  · have hor : x < 0x500 ∨ 0x80000 ≤ x := hx
    omega
  · have hend : x < 0x7E00 := hx.2
    omega
  · have hplace := buffers_place hx
    omega

theorem Layout.variables_subset : code.variables ⊆ bootSector := by
  have hplace := linear_absoluteSector code
  exact Set.Ico_subset_Ico (by omega) (by omega)

theorem Layout.written_subset :
    code.written ⊆ biosMemory ∪ bootSector ∪ (rootBuffer ∪ kernelBuffer) :=
  Set.union_subset_union_left _ (Set.union_subset_union_right _ variables_subset)

theorem booted_start (hsector : Sector code s.mem) (hdirection : s.direction = false)
    (hdepth : depth ≤ 0x7FF1) (ht : t = { s with
      ax := 0, ds := 0x07C0, es := 0x07C0, ss := 0, sp := 0xFFFF, si := code.msgHello }) :
    Booted code depth s t := by
  have htop : t.top = 0xFFFF := by
    rw [ht]
    change linear 0 0xFFFF = 0xFFFF
    decide
  have hsp : t.sp.toNat = 0xFFFF := by
    rw [ht]
    change (0xFFFF : Word).toNat = 0xFFFF
    decide
  have hstack := stack_apart hdepth
  rw [← htop] at hstack
  refine ⟨⟨⟨?_, ?_, ?_⟩, ?_, ?_, ?_, ?_, ?_⟩, htop, ?_⟩
  · omega
  · rw [htop, stackFloor]
    omega
  · exact hstack.mono_left Layout.written_subset
  · rw [ht]
    exact hsector
  · rw [ht]
  · rw [ht]
    exact hdirection
  · refine Set.disjoint_union_right.2 ⟨Set.disjoint_union_right.2 ⟨?_, ?_⟩, ?_⟩
    · exact bootSector_biosMemory.mono_left Set.sdiff_subset
    · exact Set.disjoint_sdiff_left
    · exact bootSector_buffers.mono_left Set.sdiff_subset
  · exact hstack.mono_left (Set.subset_union_right.trans Set.subset_union_left)
  · rw [ht]
    exact fun _ _ => rfl

theorem shared_subset : code.shared ⊆ code.written :=
  (Set.union_subset_union_right _ chs_subset).trans Set.subset_union_left

theorem Booted.buffer {R : Set ℕ} (h : Booted code depth s t)
    (hu : Stays (stackFloor depth) R t u) {x : ℕ} (hx : x ∈ rootBuffer ∪ kernelBuffer)
    (hR : x ∉ R) : u.mem x = t.mem x := by
  apply hu.mem
  rintro (hmem | hmem)
  · exact hR hmem
  · exact Set.disjoint_left.1 h.apart (.inr hx) hmem

theorem not_mem_shared {x : ℕ} (hx : x ∈ rootBuffer ∪ kernelBuffer) : x ∉ code.shared := by
  rintro (hbios | hchs)
  · exact Set.disjoint_left.1 biosMemory_buffers hbios hx
  · exact Set.disjoint_left.1 bootSector_buffers (chs_subset_bootSector hchs) hx

theorem linear_datasector :
    linear 0x07C0 code.datasector = linear 0x07C0 code.absoluteSector + 3 :=
  linear_offset (by decide)

theorem linear_cluster : linear 0x07C0 code.cluster = linear 0x07C0 code.absoluteSector + 5 :=
  linear_offset (by decide)

/-- `datasector` is not one of the variables of `LBACHS`. -/
theorem datasector_apart :
    Disjoint (block 0x07C0 code.datasector 2) (code.shared ∪ (rootBuffer ∪ kernelBuffer)) := by
  refine Set.disjoint_union_right.2 ⟨Set.disjoint_union_right.2 ⟨?_, ?_⟩, ?_⟩
  · exact bootSector_biosMemory.mono_left block_datasector
  · refine Set.disjoint_left.2 fun x hx hx' => ?_
    have hle := hx.1
    have hlt := hx'.2
    rw [linear_datasector] at hle
    omega
  · exact bootSector_buffers.mono_left block_datasector

theorem Booted.datasector {R : Set ℕ} (h : Booted code depth s t)
    (hR : R ⊆ code.shared ∪ (rootBuffer ∪ kernelBuffer)) (hu : Stays (stackFloor depth) R t u) :
    loadWord u.mem 0x07C0 code.datasector = loadWord t.mem 0x07C0 code.datasector := by
  refine datasector_congr fun x hx => hu.mem ?_
  rintro (hmem | hmem)
  · exact Set.disjoint_left.1 datasector_apart hx (hR hmem)
  · exact Set.disjoint_left.1 h.below (block_datasector hx) hmem

theorem datasector_storeCluster (m : Mem) (c : Word) :
    loadWord (storeWord m 0x07C0 code.cluster c) 0x07C0 code.datasector =
      loadWord m 0x07C0 code.datasector := by
  have hbefore := code.before_signature
  have hoffset : code.cluster.toNat + 1 < 2 ^ 16 := by
    rw [Layout.cluster, BitVec.toNat_add, BitVec.toNat_ofNat]
    omega
  have hstore : Set.EqOn (storeWord m 0x07C0 code.cluster c) m (block 0x07C0 code.cluster 2)ᶜ :=
    storeWord_eqOn c hoffset le_rfl
  refine datasector_congr (hstore.mono (Set.subset_compl_iff_disjoint_right.2 ?_))
  refine Set.disjoint_left.2 fun x hx hx' => ?_
  have hlt := hx.2
  have hle := hx'.1
  rw [linear_datasector] at hlt
  rw [linear_cluster] at hle
  omega

theorem Booted.prints (h : ReadsDisk bios disk depth) {cs : List Byte} {fuel : ℕ}
    (hfuel : cs.length < fuel) (ht : Booted code depth s t)
    (htext : ∀ m, Sector code m → TextAt m 0x07C0 t.si cs) (ip : Word) :
    ∃ u, call ip (puts bios fuel) t = .ok u ∧ Stays (stackFloor depth) code.shared t u ∧
      u.ax = t.ax ∧ u.di = t.di :=
  puts_call h Set.subset_union_left hfuel
    (ht.toReady.mono (show depth + 6 ≤ depth + 14 by omega) shared_subset) htext ip

theorem storeWord_variables (m : Mem) {k : ℕ} (hk : k < 6) (w : Word) :
    Set.EqOn (storeWord m 0x07C0 (code.absoluteSector + BitVec.ofNat 16 k) w) m
      code.variablesᶜ := by
  have hbefore := code.before_signature
  have hoffset : (code.absoluteSector + BitVec.ofNat 16 k).toNat + 1 < 2 ^ 16 := by
    rw [BitVec.toNat_add, BitVec.toNat_ofNat]
    omega
  refine storeWord_eqOn w hoffset ?_
  rw [block, linear_offset (by omega)]
  exact Set.Ico_subset_Ico (by omega) (by omega)

theorem openRoot_ok (h : ReadsDisk bios disk depth) (hdepth : depth ≤ 0x7FF1) {fuel : ℕ}
    (hfuel : 16 ≤ fuel) (hsector : Sector code s.mem) (hdirection : s.direction = false) :
    ∃ t, openRoot bios code fuel s = .ok t ∧ Booted code depth s t ∧ t.ax = rootLBA ∧
      t.bx = 0x0200 ∧ t.cx = 1 ∧ t.es = 0x07C0 ∧
      loadWord t.mem 0x07C0 code.datasector = 0x04F0 := by
  have hlength : hello.length = 15 := by decide
  obtain ⟨s₀, hs₀⟩ : ∃ t : State, t = { s with
    ax := 0, ds := 0x07C0, es := 0x07C0, ss := 0, sp := 0xFFFF, si := code.msgHello } := ⟨_, rfl⟩
  have hbooted := booted_start hsector hdirection hdepth hs₀
  have htext : ∀ m, Sector code m → TextAt m 0x07C0 s₀.si hello := by
    rw [hs₀]
    exact fun m hm => hm.msgHello
  have hturns : hello.length < fuel := by omega
  obtain ⟨t₁, ht₁, hstays₁, hax₁, -⟩ := hbooted.prints h hturns htext (code.site .hello)
  have hbooted₁ := hbooted.stays shared_subset hstays₁
  have hax : t₁.ax = 0 := hax₁.trans (by rw [hs₀])
  have hes : t₁.es = 0x07C0 := hstays₁.es.trans (by rw [hs₀])
  have hsectors := hbooted₁.sector
  have hcluster : loadWord t₁.mem 0x07C0 sectorsPerCluster = 0x2001 :=
    hsectors.word (by decide) (by decide)
  have hfats : loadByte t₁.mem 0x07C0 totalFATs = 2 := hsectors.parameter (by decide) (by decide)
  have hsize : loadWord t₁.mem 0x07C0 bigSectorsPerFAT = 0x0268 :=
    hsectors.word (by decide) (by decide)
  have hreserved : loadWord t₁.mem 0x07C0 reservedSectors = 0x0020 :=
    hsectors.word (by decide) (by decide)
  have hproduct : mul (setLo 0 2) 0x0268 = (0, 0x04D0) := by decide
  have hsum : (0x04D0 : Word) + 0x0020 = 0x04F0 := by decide
  -- the sector behind the file allocation tables
  obtain ⟨t₂, ht₂⟩ : ∃ t : State, t = { t₁ with
    ax := 2, cx := 0x2001, dx := 0, ds := 0x07C0
    mem := storeWord t₁.mem 0x07C0 code.datasector 0x04F0 } := ⟨_, rfl⟩
  have hstore : Set.EqOn t₂.mem t₁.mem code.variablesᶜ := by
    rw [ht₂]
    exact storeWord_variables t₁.mem (by decide) 0x04F0
  have hbooted₂ : Booted code depth s t₂ :=
    hbooted₁.registers (by rw [ht₂, hbooted₁.ds]) (by rw [ht₂]) (by rw [ht₂]) (by rw [ht₂]) hstore
  have hstart : loadWord (storeWord t₁.mem 0x07C0 code.datasector 0x04F0) 0x07C0
      rootDirectoryStart = 2 := by
    rw [ht₂] at hbooted₂
    exact hbooted₂.sector.word (by decide) (by decide)
  have hdata : loadWord t₂.mem 0x07C0 code.datasector = 0x04F0 := by
    rw [ht₂]
    exact loadWord_storeWord _
  obtain ⟨t₃, ht₃, hstays₃, hax₃, -, hcx₃⟩ := clusterLBA_call
    (hbooted₂.toReady.mono (show 0 + 2 ≤ depth + 14 by omega) shared_subset) (code.site .rootCluster)
  have hbooted₃ := hbooted₂.stays shared_subset hstays₃
  refine ⟨{ t₃ with bx := 0x200 }, ?_, hbooted₃.registers rfl rfl rfl rfl fun _ _ => rfl, ?_, rfl,
    hcx₃, ?_, ?_⟩
  · rw [openRoot]
    rw [hs₀] at ht₁
    rw [ht₂] at ht₃
    simp only [ht₁, ok_bind, hbooted₁.ds, hax, hcluster, hfats, hsize, hreserved, hproduct, hsum,
      hstart, ht₃]
  · rw [hax₃, hdata, ht₂]
    change (2 : Word) - 2 + 0x04F0 = rootLBA
    decide
  · rw [hstays₃.es, ht₂]
    exact hes
  · exact (hbooted₂.datasector Set.subset_union_left hstays₃).trans hdata

def entryCluster (m : Mem) : Word := loadWord m 0x07C0 0x023A

theorem openKernel_ok (h : ReadsDisk bios disk depth) {fuel : ℕ} (hfuel : 3 ≤ fuel)
    (ht : Booted code depth s t) (hdata : loadWord t.mem 0x07C0 code.datasector = 0x04F0) :
    ∃ u, openKernel bios code fuel t = .ok u ∧ Booted code depth s u ∧
      Set.EqOn u.mem t.mem rootBuffer ∧ u.ax = kernelLBA (entryCluster t.mem) ∧ u.bx = 0 ∧
      u.cx = 1 ∧ u.es = 0x0100 := by
  have hlength : crlf.length = 2 := by decide
  obtain ⟨t₀, ht₀⟩ : ∃ u : State, u = { t with di := 0x0220, si := code.msgCRLF } := ⟨_, rfl⟩
  have hbooted : Booted code depth s t₀ :=
    ht.registers (by rw [ht₀]) (by rw [ht₀]) (by rw [ht₀]) (by rw [ht₀])
      (by rw [ht₀]; exact fun _ _ => rfl)
  have htext : ∀ m, Sector code m → TextAt m 0x07C0 t₀.si crlf := by
    rw [ht₀]
    exact fun m hm => hm.msgCRLF
  have hturns : crlf.length < fuel := by omega
  obtain ⟨t₁, ht₁, hstays₁, -, hdi⟩ := hbooted.prints h hturns htext (code.site .rootDone)
  have hbooted₁ := hbooted.stays shared_subset hstays₁
  have hroot : Set.EqOn t₁.mem t.mem rootBuffer := by
    intro x hx
    refine (hbooted.buffer hstays₁ (.inl hx) (not_mem_shared (.inl hx))).trans ?_
    rw [ht₀]
  have hdata₁ : loadWord t₁.mem 0x07C0 code.datasector = 0x04F0 := by
    rw [hbooted.datasector Set.subset_union_left hstays₁, ht₀]
    exact hdata
  have hentry : loadWord t₁.mem 0x07C0 (t₁.di + 0x001A) = entryCluster t.mem := by
    have hplace : (0x0220 : Word) + 0x001A = 0x023A := by decide
    rw [hdi, ht₀, hplace, entryCluster]
    apply loadWord_congr (by decide)
    refine hroot.mono ?_
    have hfield : linear 0x07C0 0x023A = 0x7E3A := by decide
    rw [block, hfield, rootBuffer_eq]
    exact Set.Ico_subset_Ico (by decide) (by decide)
  generalize entryCluster t.mem = c at hentry ⊢
  -- the kernel's cluster
  obtain ⟨t₂, ht₂⟩ : ∃ u : State, u = { t₁ with
    ax := c, bx := 0, cx := 0x0008, dx := c, ds := 0x07C0, es := 0x0100
    mem := storeWord t₁.mem 0x07C0 code.cluster c } := ⟨_, rfl⟩
  have hstore : Set.EqOn t₂.mem t₁.mem code.variablesᶜ := by
    rw [ht₂]
    exact storeWord_variables t₁.mem (by decide) c
  have hbooted₂ : Booted code depth s t₂ :=
    hbooted₁.registers (by rw [ht₂, hbooted₁.ds]) (by rw [ht₂]) (by rw [ht₂]) (by rw [ht₂]) hstore
  have hdata₂ : loadWord t₂.mem 0x07C0 code.datasector = 0x04F0 := by
    rw [ht₂, ← hdata₁]
    exact datasector_storeCluster t₁.mem c
  obtain ⟨u, hu, hustays, hax, hbx, hcx⟩ := clusterLBA_call
    (hbooted₂.toReady.mono (show 0 + 2 ≤ depth + 14 by omega) shared_subset)
    (code.site .kernelCluster)
  refine ⟨u, ?_, hbooted₂.stays shared_subset hustays, fun x hx => ?_, ?_, ?_, hcx, ?_⟩
  · rw [openKernel]
    rw [ht₀] at ht₁
    rw [ht₂] at hu
    have hindex : (0x0200 : Word) + 0x20 = 0x0220 := by decide
    simp only [hindex, ht₁, ok_bind, hbooted₁.ds, hentry, loadWord_storeWord, hu]
  · have hbuffers : x ∉ code.variables := fun hmem =>
      Set.disjoint_left.1 bootSector_buffers (Layout.variables_subset hmem) (.inl hx)
    refine (hbooted₂.buffer hustays (.inl hx) (not_mem_shared (.inl hx))).trans ?_
    exact (hstore hbuffers).trans (hroot hx)
  · rw [hax, hdata₂, ht₂]
    rfl
  · rw [hbx, ht₂]
  · rw [hustays.es, ht₂]

theorem enterKernel_ok (h : ReadsDisk bios disk depth) {fuel : ℕ} (hfuel : 3 ≤ fuel)
    (ht : Booted code depth s t) :
    ∃ u, enterKernel bios code fuel t = .ok (0x0100, 0x0000, u) ∧ Booted code depth s u ∧
      Set.EqOn u.mem t.mem (rootBuffer ∪ kernelBuffer) := by
  have hlength : crlf.length = 2 := by decide
  obtain ⟨t₀, ht₀⟩ : ∃ u : State, u = { t with si := code.msgCRLF } := ⟨_, rfl⟩
  have hbooted : Booted code depth s t₀ :=
    ht.registers (by rw [ht₀]) (by rw [ht₀]) (by rw [ht₀]) (by rw [ht₀])
      (by rw [ht₀]; exact fun _ _ => rfl)
  have htext : ∀ m, Sector code m → TextAt m 0x07C0 t₀.si crlf := by
    rw [ht₀]
    exact fun m hm => hm.msgCRLF
  have hturns : crlf.length < fuel := by omega
  obtain ⟨t₁, ht₁, hstays₁, -⟩ := hbooted.prints h hturns htext (code.site .kernelDone)
  have hready₁ := (hbooted.stays shared_subset hstays₁).toReady.mono
    (show 2 + 2 ≤ depth + 14 by omega) shared_subset
  -- the two words of the far return
  have hpushed : Stays (stackFloor depth) code.shared (push 0x0000 (push 0x0100 t₁))
      (push 0x0000 (push 0x0100 t₁)) := .refl _
  obtain ⟨hip, hstays⟩ := hpushed.popped (hready₁.push 0x0100).toRoom
  obtain ⟨hcs, hstays⟩ := hstays.popped (hready₁.toRoom.mono (by omega))
  have hall := hstays₁.trans hstays
  refine ⟨_, ?_, hbooted.stays shared_subset hall, fun x hx => ?_⟩
  · rw [enterKernel]
    rw [ht₀] at ht₁
    simp only [ht₁, ok_bind, hip, hcs]
  · refine (hbooted.buffer hall hx (not_mem_shared hx)).trans ?_
    rw [ht₀]

theorem readSectors_one (h : ReadsDisk bios disk depth) {fuel : ℕ} (hfuel : 8 ≤ fuel)
    (ht : Booted code depth s t) (hcx : t.cx = 1) (hbx : t.bx.toNat + 512 ≤ 2 ^ 16)
    (hblock : block t.es t.bx 512 ⊆ rootBuffer ∪ kernelBuffer) (ip : Word) :
    (∃ u, call ip (readSectors bios code fuel) t = .ok u ∧
        Stays (stackFloor depth) (code.shared ∪ block t.es t.bx 512) t u ∧
        ∀ i < 512, u.mem (linear t.es t.bx + i) = disk t.ax.toNat i) ∨
      ∃ u, call ip (readSectors bios code fuel) t = .error (.ended u) ∧
        GivesUp bios t.ax t.bx t.es u ∧
        Set.EqOn u.mem s.mem (code.written ∪ Set.Ico (stackFloor depth) 0xFFFF)ᶜ := by
  have hsub : code.shared ∪ block t.es t.bx 512 ⊆ code.written :=
    Set.union_subset shared_subset (hblock.trans Set.subset_union_right)
  have hapart : Disjoint (block t.es t.bx (512 * 1)) code.shared :=
    Set.disjoint_left.2 fun x hx => not_mem_shared (hblock hx)
  rcases readSectors_call h (n := 1) (by decide) hfuel hcx t.ax.isLt hbx
    (ht.toReady.mono le_rfl hsub) hapart ip with ⟨u, hu, -, hcopies⟩ | ⟨k, hk, u, hu, hstops⟩
  · refine .inl ⟨u, hu, hcopies.toStays, fun i hi => ?_⟩
    have hsector := hcopies.sectors i hi
    rwa [Nat.div_eq_of_lt hi, Nat.mod_eq_of_lt hi] at hsector
  · obtain rfl : k = 0 := by omega
    have hgives := hstops.givesUp
    have hax : t.ax + BitVec.ofNat 16 0 = t.ax := BitVec.add_zero _
    have hbx : t.bx + BitVec.ofNat 16 (512 * 0) = t.bx := BitVec.add_zero _
    rw [hax, hbx] at hgives
    refine .inr ⟨u, hu, hgives, ?_⟩
    have hmem := hstops.mem
    rw [ht.top] at hmem
    exact (hmem.mono (Set.compl_subset_compl.2 (Set.union_subset_union_left _ hsub))).trans ht.mem

/-- Either the code ends at 0100:0000 with the first sector of the cluster there, one sector though
    it asks for eight, or it gave up after five failing reads of one of its two sectors. -/
theorem start_loads (h : ReadsDisk bios disk depth) (hdepth : depth ≤ 0x7FF1) {fuel : ℕ}
    (hfuel : 16 ≤ fuel) (hsector : Sector code s.mem) (hdirection : s.direction = false) :
    ∃ t, Set.EqOn t.mem s.mem (code.written ∪ Set.Ico (stackFloor depth) 0xFFFF)ᶜ ∧
      (start bios code fuel s = .ok (0x0100, 0x0000, t) ∧
          (∀ i < 512, t.mem (linear 0x07C0 0x0200 + i) = disk rootLBA.toNat i) ∧
          (∀ i < 512, t.mem (linear 0x0100 0x0000 + i) = disk
            (kernelLBA (word (disk rootLBA.toNat 0x3B) (disk rootLBA.toNat 0x3A))).toNat i) ∨
        start bios code fuel s = .error (.ended t) ∧ (GivesUp bios rootLBA 0x0200 0x07C0 t ∨
          GivesUp bios (kernelLBA (word (disk rootLBA.toNat 0x3B) (disk rootLBA.toNat 0x3A)))
            0x0000 0x0100 t)) := by
  obtain ⟨t₁, heq₁, ht₁, hax₁, hbx₁, hcx₁, hes₁, hdata₁⟩ :=
    openRoot_ok h hdepth hfuel hsector hdirection
  have hblock₁ : block t₁.es t₁.bx 512 = rootBuffer := by rw [hes₁, hbx₁, rootBuffer]
  rw [start]
  simp only [heq₁, ok_bind]
  have height : 8 ≤ fuel := by omega
  have hthree : 3 ≤ fuel := by omega
  rcases readSectors_one h height ht₁ hcx₁ (by rw [hbx₁]; decide)
    (hblock₁ ▸ Set.subset_union_left) (code.site .root) with ⟨t₂, heq₂, hstays₂, hroot⟩ |
    ⟨t₂, heq₂, hgives, hmem⟩
  swap
  · rw [hax₁, hbx₁, hes₁] at hgives
    rw [heq₂]
    exact ⟨t₂, hmem, .inr ⟨rfl, .inl hgives⟩⟩
  rw [hblock₁] at hstays₂
  rw [hax₁, hbx₁, hes₁] at hroot
  have ht₂ : Booted code depth s t₂ :=
    ht₁.stays (Set.union_subset shared_subset (Set.subset_union_left.trans Set.subset_union_right))
      hstays₂
  have hdata₂ : loadWord t₂.mem 0x07C0 code.datasector = 0x04F0 :=
    (ht₁.datasector (Set.union_subset_union_right _ Set.subset_union_left) hstays₂).trans hdata₁
  have hentry : entryCluster t₂.mem =
      word (disk rootLBA.toNat 0x3B) (disk rootLBA.toNat 0x3A) := by
    rw [← hroot 0x3B (by decide), ← hroot 0x3A (by decide)]
    rfl
  rw [← hentry]
  obtain ⟨t₃, heq₃, ht₃, hkept₃, hax₃, hbx₃, hcx₃, hes₃⟩ :=
    openKernel_ok h hthree ht₂ hdata₂
  have hblock₃ : block t₃.es t₃.bx 512 = kernelBuffer := by rw [hes₃, hbx₃, kernelBuffer]
  simp only [heq₂, ok_bind, heq₃]
  rcases readSectors_one h height ht₃ hcx₃ (by rw [hbx₃]; decide)
    (hblock₃ ▸ Set.subset_union_right) (code.site .kernel) with ⟨t₄, heq₄, hstays₄, hkernel⟩ |
    ⟨t₄, heq₄, hgives, hmem⟩
  swap
  · rw [hax₃, hbx₃, hes₃] at hgives
    rw [heq₄]
    exact ⟨t₄, hmem, .inr ⟨rfl, .inr hgives⟩⟩
  rw [hblock₃] at hstays₄
  rw [hax₃, hbx₃, hes₃] at hkernel
  have ht₄ : Booted code depth s t₄ :=
    ht₃.stays (Set.union_subset shared_subset (Set.subset_union_right.trans Set.subset_union_right))
      hstays₄
  obtain ⟨t₅, heq₅, ht₅, hkept₅⟩ := enterKernel_ok h hthree ht₄
  simp only [heq₄, ok_bind, heq₅]
  refine ⟨t₅, ht₅.mem, .inl ⟨rfl, fun i hi => ?_, fun i hi => ?_⟩⟩
  · have hmem : linear 0x07C0 0x0200 + i ∈ rootBuffer := ⟨by omega, by omega⟩
    have hout : linear 0x07C0 0x0200 + i ∉ code.shared ∪ kernelBuffer := by
      rintro (hshared | hkernel)
      · exact not_mem_shared (.inl hmem) hshared
      · rw [rootBuffer_eq] at hmem
        rw [kernelBuffer_eq] at hkernel
        have hle := hmem.1
        have hlt := hkernel.2
        omega
    rw [hkept₅ (.inl hmem), ht₃.buffer hstays₄ (.inl hmem) hout, hkept₃ hmem, hroot i hi]
  · have hmem : linear 0x0100 0x0000 + i ∈ kernelBuffer := ⟨by omega, by omega⟩
    rw [hkept₅ (.inr hmem), hkernel i hi]

/-- A machine as the BIOS leaves it, with another's stack. -/
def loadedMachine : State where
  ax := 0xAA55
  bx := 0
  cx := 0
  dx := 0x0080
  si := 0
  di := 0
  ds := 0x0040
  es := 0
  ss := 0x0030
  sp := 0x0100
  direction := false
  mem := loadedMemory
  calls := []

theorem start_loads_numbered :
    ∃ t, Set.EqOn t.mem loadedMachine.mem
        (assembled.written ∪ Set.Ico (stackFloor 64) 0xFFFF)ᶜ ∧
      (start (promptBios numberedDisk) assembled 16 loadedMachine = .ok (0x0100, 0x0000, t) ∧
          (∀ i < 512, t.mem (linear 0x07C0 0x0200 + i) = numberedDisk rootLBA.toNat i) ∧
          (∀ i < 512, t.mem (linear 0x0100 0x0000 + i) = numberedDisk
            (kernelLBA (word (numberedDisk rootLBA.toNat 0x3B)
              (numberedDisk rootLBA.toNat 0x3A))).toNat i) ∨
        start (promptBios numberedDisk) assembled 16 loadedMachine = .error (.ended t) ∧
          (GivesUp (promptBios numberedDisk) rootLBA 0x0200 0x07C0 t ∨
            GivesUp (promptBios numberedDisk) (kernelLBA (word (numberedDisk rootLBA.toNat 0x3B)
              (numberedDisk rootLBA.toNat 0x3A))) 0x0000 0x0100 t)) :=
  start_loads (promptBios_reads numberedDisk) (by decide) le_rfl loadedMemory_sector rfl

end Whole

end Rizzos.LegacyBoot
