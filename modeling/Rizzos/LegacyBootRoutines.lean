import Rizzos.LegacyBoot

set_option autoImplicit false

/-!
# The routines of the boot sector

What each routine does to the registers, the calls and the memory, as long as the stack has room and
nothing is written over the sector.
-/
namespace Rizzos.LegacyBoot
open ByteMemory RealMode

/-! ### The memory of the boot -/

section Memory

/-- What belongs to the BIOS: its vectors and data, and what is behind the lower half megabyte. -/
def biosMemory : Set ℕ := {x | x < 0x500 ∨ 0x80000 ≤ x}

def bootSector : Set ℕ := Set.Ico 0x7C00 0x7E00

variable (code : Layout)

def Layout.variables : Set ℕ := block 0x07C0 code.absoluteSector 7

def Layout.chs : Set ℕ := block 0x07C0 code.absoluteSector 3

/-- What every routine may change. -/
def Layout.shared : Set ℕ := biosMemory ∪ code.chs

/-- The sector as the BIOS has loaded it, its variables apart. -/
structure Sector (m : Mem) : Prop where
  parameters : ∀ i < 87, m (0x7C03 + i) = parameterBlock.getD i 0
  data : ∀ i < 50, m (linear 0x07C0 code.msgHello + i) = readonlyData.getD i 0

variable {code} {m m' : Mem}

theorem linear_offset {k : ℕ} (hk : k ≤ 57) :
    linear 0x07C0 (code.absoluteSector + BitVec.ofNat 16 k) =
      linear 0x07C0 code.absoluteSector + k :=
  linear_add (by have := code.before_signature; omega)

theorem linear_absoluteSector (code : Layout) :
    0x7C5A ≤ linear 0x07C0 code.absoluteSector ∧
      linear 0x07C0 code.absoluteSector + 57 ≤ 0x7DFE := by
  have hbehind := code.behind_code
  have hbefore := code.before_signature
  have hsegment : (0x07C0 : Word).toNat * 16 = 0x7C00 := rfl
  rw [linear, hsegment]
  omega

theorem Sector.congr (h : Sector code m) (hm : Set.EqOn m' m (bootSector \ code.variables)) :
    Sector code m' := by
  have hplace := linear_absoluteSector code
  have hhello : linear 0x07C0 code.msgHello = linear 0x07C0 code.absoluteSector + 7 :=
    linear_offset (by decide)
  refine ⟨fun i hi => (hm ⟨⟨by omega, by omega⟩, ?_⟩).trans (h.parameters i hi),
    fun i hi => (hm ⟨⟨by omega, by omega⟩, ?_⟩).trans (h.data i hi)⟩
  · intro hvariables
    have hle := hvariables.1
    omega
  · intro hvariables
    have hlt := hvariables.2
    omega

theorem chs_subset : code.chs ⊆ code.variables := Set.Ico_subset_Ico_right (by omega)

theorem Sector.of_eqOn (h : Sector code m) (hm : Set.EqOn m' m code.variablesᶜ) :
    Sector code m' :=
  h.congr (hm.mono fun _ hx => hx.2)

theorem Sector.parameter (h : Sector code m) {offset : Word} (hlow : 3 ≤ offset.toNat)
    (hhigh : offset.toNat < 90) :
    loadByte m 0x07C0 offset = parameterBlock.getD (offset.toNat - 3) 0 := by
  rw [← h.parameters _ (by omega), loadByte, linear]
  congr 1
  have hsegment : (0x07C0 : Word).toNat * 16 = 0x7C00 := rfl
  omega

/-- A text ends at its zero. -/
def TextAt (m : Mem) (segment : Word) : Word → List Byte → Prop
  | offset, [] => loadByte m segment offset = 0
  | offset, c :: cs =>
    loadByte m segment offset = c ∧ c ≠ 0 ∧ TextAt m segment (offset + 1) cs

theorem Sector.text (h : Sector code m) {cs rest : List Byte} (hcs : 0 ∉ cs) {k : ℕ}
    (hdrop : readonlyData.drop k = cs ++ 0 :: rest) :
    TextAt m 0x07C0 (code.absoluteSector + BitVec.ofNat 16 (7 + k)) cs := by
  have hlength : readonlyData.length = 50 := by decide
  have hbyte : ∀ k c ds, readonlyData.drop k = c :: ds →
      loadByte m 0x07C0 (code.absoluteSector + BitVec.ofNat 16 (7 + k)) = c := by
    intro k c ds hk
    have hlt : k < 50 := by
      by_contra hge
      rw [List.drop_eq_nil_of_le (by omega)] at hk
      cases hk
    have hget : readonlyData[k]? = some c := by
      rw [← Nat.add_zero k, ← List.getElem?_drop, hk]
      rfl
    have hdata := h.data k hlt
    rw [Layout.msgHello, linear_offset (by decide), Nat.add_assoc, ← linear_offset (by omega),
      List.getD_eq_getElem?_getD, hget] at hdata
    exact hdata
  induction cs generalizing k with
  | nil => exact hbyte k 0 rest hdrop
  | cons c cs ih =>
    refine ⟨hbyte k c _ hdrop, fun hc => hcs (hc ▸ List.mem_cons_self), ?_⟩
    have htail : readonlyData.drop (k + 1) = cs ++ 0 :: rest := by
      rw [← List.drop_drop, hdrop]
      rfl
    have hnext := ih (fun hmem => hcs (List.mem_cons_of_mem _ hmem)) htail
    rwa [← Nat.add_assoc, BitVec.ofNat_add, ← BitVec.add_assoc] at hnext

end Memory

/-! ### A BIOS with a disk -/

section Disk

/-- What a call fills for its caller. -/
def filled : Call → Set ℕ
  | .int13 ax bx _ _ es => if ax = 0x0201 then block es bx 512 else ∅
  | _ => ∅

/-- Calls keep to the memory of the BIOS, to so many bytes of the caller's stack, and to the buffer
    of a read. A read without an error brings the sector that its cylinder, head and number name. -/
structure ReadsDisk (bios : Bios) (disk : ℕ → ℕ → Byte) (depth : ℕ) : Prop where
  keeps : ∀ t c top m, Set.EqOn ((bios t c).effect top m) m
    (biosMemory ∪ Set.Ico (top - depth) top ∪ filled c)ᶜ
  reads : ∀ t bx cx dx es, lo dx = 0x80 → (bios t (.int13 0x0201 bx cx dx es)).carry = false →
    ∀ top m, Disjoint (block es bx 512) (biosMemory ∪ Set.Ico (top - depth) top) → ∀ i < 512,
      (bios t (.int13 0x0201 bx cx dx es)).effect top m (linear es bx + i) =
        disk (place 8 32 cx dx) i

variable {bios : Bios} {disk : ℕ → ℕ → Byte} {depth floor : ℕ} {R : Set ℕ} {s t : State}

theorem interrupt_stays (h : ReadsDisk bios disk depth) {c : Call} (hR : biosMemory ⊆ R)
    (hc : filled c ⊆ R) (hroom : Room floor R depth s) :
    Stays floor R s (interrupt bios c s).2 := by
  refine ⟨rfl, rfl, rfl, rfl, rfl, (h.keeps s.calls c s.top s.mem).mono ?_⟩
  refine Set.compl_subset_compl.2 (Set.union_subset (Set.union_subset ?_ ?_) ?_)
  · exact hR.trans Set.subset_union_left
  · have hspace := hroom.space
    exact (Set.Ico_subset_Ico_left (by omega)).trans Set.subset_union_right
  · exact hc.trans Set.subset_union_left

end Disk

/-! ### The state in which a routine is called -/

section Calls
variable {code : Layout} {floor : ℕ} {R : Set ℕ} {s t : State}

/-- The sector is in place, `ds` leads to it, and neither `R` nor the stack lies over it. -/
structure Ready (code : Layout) (floor : ℕ) (R : Set ℕ) (n : ℕ) (s : State) : Prop
    extends Room floor R n s where
  sector : Sector code s.mem
  ds : s.ds = 0x07C0
  direction : s.direction = false
  clear : Disjoint (bootSector \ code.variables) R
  below : Disjoint bootSector (Set.Ico floor s.top)

theorem Ready.stays {n : ℕ} (h : Ready code floor R n s) (hst : Stays floor R s t) :
    Ready code floor R n t where
  toRoom := h.toRoom.stays hst
  sector := h.sector.congr (hst.mem.mono (Set.subset_compl_iff_disjoint_right.2
    (h.clear.union_right (h.below.mono_left Set.sdiff_subset))))
  ds := hst.ds.trans h.ds
  direction := hst.direction.trans h.direction
  clear := h.clear
  below := hst.top ▸ h.below

theorem Ready.mono {n k : ℕ} {R' : Set ℕ} (h : Ready code floor R n s) (hk : k ≤ n)
    (hR : R' ⊆ R) : Ready code floor R' k s where
  sp := hk.trans h.sp
  space := (Nat.add_le_add_left hk floor).trans h.space
  apart := h.apart.mono_left hR
  sector := h.sector
  ds := h.ds
  direction := h.direction
  clear := h.clear.mono_right hR
  below := h.below

theorem Ready.push {n : ℕ} (h : Ready code floor R (n + 2) s) (w : Word) :
    Ready code floor R n (RealMode.push w s) := by
  have htop := top_push w (Nat.le_of_add_left_le h.sp)
  have hroom := h.toRoom.mono (Nat.le_add_left 2 n)
  refine ⟨h.toRoom.push w, h.sector.congr ((push_eqOn w hroom).mono ?_), h.ds, h.direction, h.clear,
    h.below.mono_right (Set.Ico_subset_Ico_right (by omega))⟩
  exact Set.subset_compl_iff_disjoint_right.2 (h.below.mono_left Set.sdiff_subset)

end Calls

/-! ### Texts -/

section Texts
variable {bios : Bios} {disk : ℕ → ℕ → Byte} {depth : ℕ} {code : Layout} {floor : ℕ} {R : Set ℕ}

theorem putsLoop_ok (h : ReadsDisk bios disk depth) (hR : biosMemory ⊆ R) {cs : List Byte}
    {fuel : ℕ} (hfuel : cs.length < fuel) {s : State} (hs : Ready code floor R depth s)
    (htext : ∀ m, Sector code m → TextAt m 0x07C0 s.si cs) :
    ∃ t, putsLoop bios fuel s = .ok t ∧ Stays floor R s t ∧ t.di = s.di := by
  induction cs generalizing fuel s with
  | nil =>
    obtain ⟨fuel, rfl⟩ : ∃ f, fuel = f + 1 := ⟨fuel - 1, by omega⟩
    have hbyte : loadByte s.mem s.ds s.si = 0 := hs.ds ▸ htext s.mem hs.sector
    refine ⟨lodsb s, ?_, ⟨rfl, rfl, rfl, rfl, rfl, fun _ _ => rfl⟩, rfl⟩
    rw [putsLoop]
    simp only [lodsb, hbyte, lo_setLo, if_true]
  | cons c cs ih =>
    obtain ⟨fuel, rfl⟩ : ∃ f, fuel = f + 1 := ⟨fuel - 1, by omega⟩
    obtain ⟨hbyte, hc, -⟩ := htext s.mem hs.sector
    rw [← hs.ds] at hbyte
    obtain ⟨u, hu, hustays, husi, hudi⟩ : ∃ u : State,
        putsLoop bios (fuel + 1) s = putsLoop bios fuel (interrupt bios (.int10 u.ax u.bx) u).2 ∧
          Stays floor R s u ∧ u.si = s.si + 1 ∧ u.di = s.di := by
      refine ⟨{ lodsb s with
        ax := setHi (setLo s.ax c) 0x0E
        bx := setLo (setHi s.bx 0x00) 0x07 }, ?_, ⟨rfl, rfl, rfl, rfl, rfl, fun _ _ => rfl⟩, ?_, rfl⟩
      · rw [putsLoop]
        simp only [lodsb, hbyte, lo_setLo, if_neg hc]
      · simp only [lodsb, hs.direction, Bool.false_eq_true, if_false]
    have hcall : Stays floor R u (interrupt bios (.int10 u.ax u.bx) u).2 :=
      interrupt_stays h hR (Set.empty_subset R) (hs.stays hustays).toRoom
    have hrest : ∀ m, Sector code m →
        TextAt m 0x07C0 (interrupt bios (.int10 u.ax u.bx) u).2.si cs := by
      intro m hm
      change TextAt m 0x07C0 u.si cs
      rw [husi]
      exact (htext m hm).2.2
    obtain ⟨t, ht, htstays, hdi⟩ := ih (Nat.lt_of_succ_lt_succ hfuel)
      (hs.stays (hustays.trans hcall)) hrest
    exact ⟨t, hu.trans ht, (hustays.trans hcall).trans htstays, hdi.trans hudi⟩

theorem puts_ok (h : ReadsDisk bios disk depth) (hR : biosMemory ⊆ R) {cs : List Byte}
    {fuel : ℕ} (hfuel : cs.length < fuel) {s : State} (hs : Ready code floor R (depth + 4) s)
    (htext : ∀ m, Sector code m → TextAt m 0x07C0 s.si cs) :
    ∃ t, puts bios fuel s = .ok t ∧ Stays floor R s t ∧ t.ax = s.ax ∧ t.di = s.di := by
  have hpushed : Ready code floor R depth (push s.ax (push s.si s)) := (hs.push s.si).push s.ax
  obtain ⟨t, ht, hstays, hdi⟩ := putsLoop_ok h hR hfuel hpushed htext
  obtain ⟨hax, hstays⟩ := hstays.popped ((hs.push s.si).toRoom.mono (by omega))
  obtain ⟨u, hu⟩ : ∃ u : State, u = { (pop t).2 with ax := (pop t).1 } := ⟨_, rfl⟩
  have hrestored : Stays floor R (push s.si s) u := by
    rw [hu]
    exact ⟨hstays.ds, hstays.es, hstays.ss, hstays.sp, hstays.direction, hstays.mem⟩
  obtain ⟨-, hstays⟩ := hrestored.popped (hs.toRoom.mono (by omega))
  refine ⟨{ (pop u).2 with si := (pop u).1 }, ?_,
    ⟨hstays.ds, hstays.es, hstays.ss, hstays.sp, hstays.direction, hstays.mem⟩, ?_, ?_⟩
  · rw [puts]
    simp only [ht, hu, ok_bind]
  · rw [hu]
    exact hax
  · rw [hu]
    exact hdi

theorem puts_call (h : ReadsDisk bios disk depth) (hR : biosMemory ⊆ R) {cs : List Byte}
    {fuel : ℕ} (hfuel : cs.length < fuel) {s : State} (hs : Ready code floor R (depth + 6) s)
    (htext : ∀ m, Sector code m → TextAt m 0x07C0 s.si cs) (ip : Word) :
    ∃ t, call ip (puts bios fuel) s = .ok t ∧ Stays floor R s t ∧ t.ax = s.ax ∧
      t.di = s.di := by
  obtain ⟨t, ht, hstays, hregisters⟩ := puts_ok h hR hfuel (hs.push ip) htext
  obtain ⟨heq, hstays⟩ := call_ok (hs.toRoom.mono (by omega)) ht hstays
  exact ⟨_, heq, hstays, hregisters⟩

theorem Sector.msgHello {m : Mem} (h : Sector code m) : TextAt m 0x07C0 code.msgHello hello :=
  have hdrop : readonlyData.drop 0 = hello ++ 0 :: readonlyData.drop 16 := by decide
  h.text (by decide) hdrop

theorem Sector.msgProgress {m : Mem} (h : Sector code m) :
    TextAt m 0x07C0 code.msgProgress progress :=
  have hdrop : readonlyData.drop 16 = progress ++ 0 :: readonlyData.drop 18 := by decide
  h.text (by decide) hdrop

theorem Sector.msgCRLF {m : Mem} (h : Sector code m) : TextAt m 0x07C0 code.msgCRLF crlf :=
  have hdrop : readonlyData.drop 47 = crlf ++ 0 :: [] := by decide
  h.text (by decide) hdrop

end Texts

/-! ### Cylinder, head and sector -/

section Geometry
variable {code : Layout} {floor : ℕ} {R : Set ℕ}

def chsCx (lba : Word) : Word :=
  word (BitVec.ofNat 8 (lba.toNat / 256)) (BitVec.ofNat 8 (lba.toNat % 32 + 1))
def chsDx (lba : Word) : Word := word (BitVec.ofNat 8 (lba.toNat / 32 % 8)) 0x80

theorem place_chs (lba : Word) : place 8 32 (chsCx lba) (chsDx lba) = lba.toNat := by
  have hlt := lba.isLt
  simp only [place, cylinder, head, sector, chsCx, chsDx, hi_word, lo_word, BitVec.toNat_ofNat]
  omega

theorem Sector.word {m : Mem} (h : Sector code m) {offset : Word} (hlow : 3 ≤ offset.toNat)
    (hhigh : offset.toNat < 89) : loadWord m 0x07C0 offset =
      word (parameterBlock.getD (offset.toNat - 2) 0) (parameterBlock.getD (offset.toNat - 3) 0) := by
  have hone : (1 : Word).toNat = 1 := rfl
  have hnext : (offset + 1).toNat = offset.toNat + 1 := by
    rw [BitVec.toNat_add, hone]
    omega
  rw [loadWord, h.parameter hlow (by omega), h.parameter (by omega) (by omega), hnext]
  rfl

theorem storeByte_chs (m : Mem) {k : ℕ} (hk : k < 3) (b : Byte) :
    Set.EqOn (storeByte m 0x07C0 (code.absoluteSector + BitVec.ofNat 16 k) b) m code.chsᶜ := by
  apply storeByte_eqOn
  rw [linear_offset (by omega)]
  exact ⟨by omega, by omega⟩

structure Located (code : Layout) (lba : Word) (m : Mem) : Prop where
  sector : loadByte m 0x07C0 code.absoluteSector = BitVec.ofNat 8 (lba.toNat % 32 + 1)
  head : loadByte m 0x07C0 code.absoluteHead = BitVec.ofNat 8 (lba.toNat / 32 % 8)
  track : loadByte m 0x07C0 code.absoluteTrack = BitVec.ofNat 8 (lba.toNat / 256)

theorem located_stores (m : Mem) (lba : Word) : Located code lba
    (storeByte (storeByte (storeByte m 0x07C0 code.absoluteSector
          (BitVec.ofNat 8 (lba.toNat % 32 + 1)))
        0x07C0 code.absoluteHead (BitVec.ofNat 8 (lba.toNat / 32 % 8)))
      0x07C0 code.absoluteTrack (BitVec.ofNat 8 (lba.toNat / 256))) := by
  have hhead : linear 0x07C0 code.absoluteHead = linear 0x07C0 code.absoluteSector + 1 :=
    linear_offset (by decide)
  have htrack : linear 0x07C0 code.absoluteTrack = linear 0x07C0 code.absoluteSector + 2 :=
    linear_offset (by decide)
  constructor
  · rw [loadByte_storeByte_ne _ (by omega), loadByte_storeByte_ne _ (by omega), loadByte_storeByte]
  · rw [loadByte_storeByte_ne _ (by omega), loadByte_storeByte]
  · rw [loadByte_storeByte]

theorem lbachs_eq {s : State} (hsector : Sector code s.mem) (hds : s.ds = 0x07C0) :
    lbachs code s = .ok { s with
      ax := BitVec.ofNat 16 (s.ax.toNat / 256)
      dx := BitVec.ofNat 16 (s.ax.toNat / 32 % 8)
      mem := storeByte (storeByte (storeByte s.mem 0x07C0 code.absoluteSector
            (BitVec.ofNat 8 (s.ax.toNat % 32 + 1)))
          0x07C0 code.absoluteHead (BitVec.ofNat 8 (s.ax.toNat / 32 % 8)))
        0x07C0 code.absoluteTrack (BitVec.ofNat 8 (s.ax.toNat / 256)) } := by
  have hlt := s.ax.isLt
  have htracks : ∀ m, Sector code m → loadWord m 0x07C0 sectorsPerTrack = 32 :=
    fun m hm => hm.word (by decide) (by decide)
  have hheads : ∀ m, Sector code m → loadWord m 0x07C0 sectorsPerHead = 8 :=
    fun m hm => hm.word (by decide) (by decide)
  have hstored : ∀ b, Sector code (storeByte s.mem 0x07C0 code.absoluteSector b) := fun b =>
    hsector.of_eqOn (storeByte_eqOn b ⟨le_rfl, by omega⟩)
  have hthirtytwo : (32 : Word).toNat = 32 := rfl
  have height : (8 : Word).toNat = 8 := rfl
  have hquotient : (BitVec.ofNat 16 (s.ax.toNat / 32)).toNat = s.ax.toNat / 32 :=
    BitVec.toNat_ofNat _ _ |>.trans (Nat.mod_eq_of_lt (by omega))
  have hnumber : lo (setLo (BitVec.ofNat 16 (s.ax.toNat % 32))
      (lo (BitVec.ofNat 16 (s.ax.toNat % 32)) + 1)) = BitVec.ofNat 8 (s.ax.toNat % 32 + 1) := by
    have hone : (1 : Byte).toNat = 1 := rfl
    apply BitVec.eq_of_toNat_eq
    simp only [lo_setLo, BitVec.toNat_add, lo_toNat, BitVec.toNat_ofNat, hone]
    omega
  have hhead : lo (BitVec.ofNat 16 (s.ax.toNat / 32 % 8)) =
      BitVec.ofNat 8 (s.ax.toNat / 32 % 8) := by
    apply BitVec.eq_of_toNat_eq
    simp only [lo_toNat, BitVec.toNat_ofNat]
    omega
  have htrack : lo (BitVec.ofNat 16 (s.ax.toNat / 32 / 8)) =
      BitVec.ofNat 8 (s.ax.toNat / 256) := by
    apply BitVec.eq_of_toNat_eq
    simp only [lo_toNat, BitVec.toNat_ofNat]
    omega
  rw [lbachs]
  simp only [hds, htracks _ hsector, hheads _ (hstored _), div_word (x := 32) (by decide),
    div_word (x := 8) (by decide), hthirtytwo, height, hquotient, hnumber, hhead, htrack]
  rw [Nat.div_div_eq_div_mul]

/-- The registers in which a disk call names a sector and its buffer. -/
structure Asks (lba bx es : Word) (s : State) : Prop where
  ax : s.ax = 0x0201
  bx : s.bx = bx
  cx : s.cx = chsCx lba
  dx : s.dx = chsDx lba
  es : s.es = es

theorem lbachs_call {n : ℕ} {s : State} (hs : Ready code floor R (n + 2) s)
    (hR : code.chs ⊆ R) (ip : Word) :
    ∃ t u, call ip (lbachs code) s = .ok t ∧ setupRead code t = u ∧ Stays floor R s u ∧
      Asks s.ax s.bx s.es u ∧ u.di = s.di ∧ u.calls = s.calls := by
  have hpushed : Ready code floor R n (push ip s) := hs.push ip
  have hbody := lbachs_eq hpushed.sector hpushed.ds
  generalize hu : ({ push ip s with
      ax := BitVec.ofNat 16 ((push ip s).ax.toNat / 256)
      dx := BitVec.ofNat 16 ((push ip s).ax.toNat / 32 % 8)
      mem := storeByte (storeByte (storeByte (push ip s).mem 0x07C0 code.absoluteSector
            (BitVec.ofNat 8 ((push ip s).ax.toNat % 32 + 1)))
          0x07C0 code.absoluteHead (BitVec.ofNat 8 ((push ip s).ax.toNat / 32 % 8)))
        0x07C0 code.absoluteTrack (BitVec.ofNat 8 ((push ip s).ax.toNat / 256)) } : State) = u
    at hbody
  have hmem : Set.EqOn u.mem (push ip s).mem code.chsᶜ := by
    rw [← hu]
    exact (storeByte_chs _ (by decide) _).trans ((storeByte_chs _ (by decide) _).trans
      (storeByte_eqOn _ ⟨le_rfl, by omega⟩))
  have hstays : Stays floor R (push ip s) u := by
    rw [← hu] at hmem ⊢
    exact ⟨rfl, rfl, rfl, rfl, rfl,
      hmem.mono (Set.compl_subset_compl.2 (hR.trans Set.subset_union_left))⟩
  have hlocated : Located code s.ax u.mem := by
    rw [← hu]
    exact located_stores _ _
  obtain ⟨heq, hstays'⟩ := call_ok (hs.toRoom.mono (by omega)) hbody hstays
  have hsector : Sector code u.mem :=
    hpushed.sector.of_eqOn (hmem.mono (Set.compl_subset_compl.2 chs_subset))
  have hds : u.ds = 0x07C0 := hstays.ds.trans hpushed.ds
  have hdrive : loadByte u.mem 0x07C0 driveNumber = 0x80 := hsector.parameter (by decide) (by decide)
  have hsetup : setupRead code (pop u).2 =
      { (pop u).2 with ax := 0x0201, cx := chsCx s.ax, dx := chsDx s.ax } := by
    simp only [setupRead, pop, hds, hlocated.sector, hlocated.head, hlocated.track, hdrive, setLo,
      setHi, hi_word]
    rfl
  have hregisters : u.bx = s.bx ∧ u.di = s.di ∧ u.calls = s.calls := by
    rw [← hu]
    exact ⟨rfl, rfl, rfl⟩
  refine ⟨_, _, heq, hsetup, ?_, ?_, hregisters.2⟩
  · exact ⟨hstays'.ds, hstays'.es, hstays'.ss, hstays'.sp, hstays'.direction, hstays'.mem⟩
  · exact ⟨rfl, hregisters.1, rfl, rfl, hstays'.es⟩

theorem clusterLBA_eq {s : State} (hsector : Sector code s.mem) (hds : s.ds = 0x07C0) :
    clusterLBA code s = .ok { s with
      ax := s.ax - 2 + loadWord s.mem 0x07C0 code.datasector, cx := 1, dx := 0 } := by
  have hone : setLo 0 (loadByte s.mem 0x07C0 sectorsPerCluster) = 1 := by
    rw [hsector.parameter (by decide) (by decide)]
    rfl
  have hproduct : mul (s.ax - 2) 1 = (0, s.ax - 2) := by
    have hlt := (s.ax - 2).isLt
    have htoNat : (1 : Word).toNat = 1 := rfl
    rw [mul, htoNat, Nat.mul_one, Nat.div_eq_of_lt hlt]
    exact Prod.ext rfl (BitVec.mul_one _)
  rw [clusterLBA]
  simp only [hds, hone, hproduct]

theorem block_datasector : block 0x07C0 code.datasector 2 ⊆ bootSector := by
  have hplace := linear_absoluteSector code
  rw [block, Layout.datasector, linear_offset (by decide)]
  exact Set.Ico_subset_Ico (by omega) (by omega)

theorem datasector_congr {m m' : Mem} (h : Set.EqOn m' m (block 0x07C0 code.datasector 2)) :
    loadWord m' 0x07C0 code.datasector = loadWord m 0x07C0 code.datasector := by
  have hbefore := code.before_signature
  apply loadWord_congr _ h
  rw [Layout.datasector, BitVec.toNat_add, BitVec.toNat_ofNat]
  omega

theorem clusterLBA_call {n : ℕ} {s : State} (hs : Ready code floor R (n + 2) s) (ip : Word) :
    ∃ t, call ip (clusterLBA code) s = .ok t ∧ Stays floor R s t ∧
      t.ax = s.ax - 2 + loadWord s.mem 0x07C0 code.datasector ∧ t.bx = s.bx ∧ t.cx = 1 := by
  have hroom := hs.toRoom.mono (Nat.le_add_left 2 n)
  have hkept : loadWord (push ip s).mem 0x07C0 code.datasector =
      loadWord s.mem 0x07C0 code.datasector :=
    datasector_congr ((push_eqOn ip hroom).mono
      (block_datasector.trans (Set.subset_compl_iff_disjoint_right.2 hs.below)))
  have hbody := clusterLBA_eq (hs.push ip).sector (hs.push ip).ds
  obtain ⟨heq, hstays⟩ := call_ok hroom hbody ⟨rfl, rfl, rfl, rfl, rfl, fun _ _ => rfl⟩
  exact ⟨_, heq, hstays, congrArg (s.ax - 2 + ·) hkept, rfl, rfl⟩

end Geometry

/-! ### One try -/

section Tries
variable {bios : Bios} {disk : ℕ → ℕ → Byte} {depth : ℕ} {code : Layout} {floor : ℕ} {R : Set ℕ}

def readCall (lba bx es : Word) : Call := .int13 0x0201 bx (chsCx lba) (chsDx lba) es

/-- The call that resets the drive between two tries. -/
def resetCall (lba bx es : Word) : Call := .int13 0 bx (chsCx lba) (chsDx lba) es

theorem filled_readCall (lba bx es : Word) : filled (readCall lba bx es) = block es bx 512 := rfl

theorem filled_resetCall (lba bx es : Word) : filled (resetCall lba bx es) = ∅ := rfl

theorem popAll_ok {s t : State} (h : Stays floor R (push s.cx (push s.bx (push s.ax s))) t)
    (hs : Ready code floor R 6 s) :
    Stays floor R s (popAll t) ∧ (popAll t).ax = s.ax ∧ (popAll t).bx = s.bx ∧
      (popAll t).cx = s.cx ∧ (popAll t).di = t.di ∧ (popAll t).calls = t.calls := by
  have hax := hs.push s.ax
  have hbx := hax.push s.bx
  obtain ⟨hcx', h⟩ := h.popped (w := s.cx) (hbx.toRoom.mono (by omega))
  have h : Stays floor R (push s.bx (push s.ax s)) { (pop t).2 with cx := (pop t).1 } :=
    ⟨h.ds, h.es, h.ss, h.sp, h.direction, h.mem⟩
  obtain ⟨hbx', h⟩ := h.popped (w := s.bx) (hax.toRoom.mono (by omega))
  generalize hu : ({ (pop t).2 with cx := (pop t).1 } : State) = u at hbx' h
  have h : Stays floor R (push s.ax s) { (pop u).2 with bx := (pop u).1 } :=
    ⟨h.ds, h.es, h.ss, h.sp, h.direction, h.mem⟩
  obtain ⟨hax', h⟩ := h.popped (w := s.ax) (hs.toRoom.mono (by omega))
  have hpop : popAll t = { (pop { (pop u).2 with bx := (pop u).1 }).2 with
      ax := (pop { (pop u).2 with bx := (pop u).1 }).1 } := by
    rw [← hu]
    rfl
  rw [hpop]
  refine ⟨⟨h.ds, h.es, h.ss, h.sp, h.direction, h.mem⟩, hax', hbx', ?_, ?_, ?_⟩
  all_goals rw [← hu]
  · exact hcx'
  · rfl
  · rfl

/-- So many sectors are read, one behind the other, and only their bytes, the BIOS's and the variables
    are written. -/
structure Copies (disk : ℕ → ℕ → Byte) (code : Layout) (floor n : ℕ) (s t : State) : Prop
    extends Stays floor (code.shared ∪ block s.es s.bx (512 * n)) s t where
  ax : t.ax = s.ax + BitVec.ofNat 16 n
  bx : t.bx = s.bx + BitVec.ofNat 16 (512 * n)
  sectors : ∀ i < 512 * n, t.mem (linear s.es s.bx + i) = disk (s.ax.toNat + i / 512) (i % 512)

theorem Asks.readCall {lba bx es : Word} {s : State} (h : Asks lba bx es s) :
    .int13 s.ax s.bx s.cx s.dx s.es = readCall lba bx es := by
  rw [h.ax, h.bx, h.cx, h.dx, h.es]
  rfl

theorem Asks.resetCall {lba bx es : Word} {s : State} (h : Asks lba bx es s) :
    .int13 0 s.bx s.cx s.dx s.es = resetCall lba bx es := by
  rw [h.bx, h.cx, h.dx, h.es]
  rfl

theorem interrupt_reads (h : ReadsDisk bios disk depth) {s : State} {lba bx es : Word}
    (hcarry : (bios s.calls (readCall lba bx es)).carry = false)
    (hroom : Room floor (code.shared ∪ block es bx 512) depth s)
    (hapart : Disjoint (block es bx 512) code.shared) :
    ∀ i < 512, (interrupt bios (readCall lba bx es) s).2.mem (linear es bx + i) =
      disk lba.toNat i := by
  have hspace := hroom.space
  have hfree : Disjoint (block es bx 512) (biosMemory ∪ Set.Ico (s.top - depth) s.top) := by
    refine Disjoint.union_right (hapart.mono_right Set.subset_union_left) ?_
    refine (hroom.apart.mono_left Set.subset_union_right).mono_right ?_
    exact Set.Ico_subset_Ico_left (by omega)
  intro i hi
  rw [← place_chs lba]
  exact h.reads _ _ _ _ _ (lo_word _ _) hcarry s.top s.mem hfree i hi

/-- A try up to the drive's answer. -/
theorem sector_asked (h : ReadsDisk bios disk depth) {s : State}
    (hs : Ready code floor (code.shared ∪ block s.es s.bx 512) (depth + 12) s) :
    ∃ v u, call (code.site .lbachs) (lbachs code) (push s.cx (push s.bx (push s.ax s))) = .ok v ∧
      setupRead code v = u ∧ Asks s.ax s.bx s.es u ∧ u.di = s.di ∧ u.calls = s.calls ∧
      Ready code floor (code.shared ∪ block s.es s.bx 512) (depth + 6) u ∧
      Stays floor (code.shared ∪ block s.es s.bx 512) (push s.cx (push s.bx (push s.ax s))) u ∧
      Stays floor (code.shared ∪ block s.es s.bx 512) u
        (interrupt bios (readCall s.ax s.bx s.es) u).2 := by
  have hpushed := ((hs.push s.ax).push s.bx).push s.cx
  obtain ⟨v, u, hv, hu, hstays, hasks, hdi, hcalls⟩ := lbachs_call hpushed
    (Set.subset_union_right.trans Set.subset_union_left) (code.site .lbachs)
  have hready := hpushed.stays hstays
  exact ⟨v, u, hv, hu, hasks, hdi, hcalls, hready, hstays, interrupt_stays h
    (Set.subset_union_left.trans Set.subset_union_left) Set.subset_union_right
    (hready.toRoom.mono (by omega))⟩

theorem sectorLoop_read (h : ReadsDisk bios disk depth) {fuel : ℕ} (hfuel : 2 ≤ fuel) {s : State}
    (hs : Ready code floor (code.shared ∪ block s.es s.bx 512) (depth + 12) s)
    (hapart : Disjoint (block s.es s.bx 512) code.shared)
    (hcarry : (bios s.calls (readCall s.ax s.bx s.es)).carry = false) :
    ∃ t, sectorLoop bios code (fuel + 1) s = .ok t ∧ t.cx = s.cx ∧
      Copies disk code floor 1 s t := by
  obtain ⟨v, u, hv, hu, hasks, -, hcalls, hready, hustays, hwstays⟩ := sector_asked h hs
  rw [← hcalls] at hcarry
  have hdata := interrupt_reads h hcarry (hready.toRoom.mono (by omega)) hapart
  generalize hw : interrupt bios (readCall s.ax s.bx s.es) u = r at hdata hwstays
  have hrcarry : r.1 = false := by
    rw [← hw]
    exact hcarry
  obtain ⟨carry, w⟩ := r
  subst hrcarry
  -- the progress
  have hwready : Ready code floor code.shared (depth + 6) { w with si := code.msgProgress } :=
    ((hready.stays hwstays).mono le_rfl Set.subset_union_left).stays
      ⟨rfl, rfl, rfl, rfl, rfl, fun _ _ => rfl⟩
  have hlength : progress.length = 1 := by decide
  have hturns : progress.length < fuel := by omega
  obtain ⟨x, hx, hxstays, -⟩ := puts_call h Set.subset_union_left hturns hwready
    (fun m hm => hm.msgProgress) (code.site .progress)
  have hkept : ∀ i < 512, x.mem (linear s.es s.bx + i) = w.mem (linear s.es s.bx + i) := by
    intro i hi
    have hmem : linear s.es s.bx + i ∈ block s.es s.bx 512 := ⟨by omega, by omega⟩
    apply hxstays.mem
    rintro (hmem' | hmem')
    · exact Set.disjoint_left.1 hapart hmem hmem'
    · exact Set.disjoint_left.1 (hready.stays hwstays).apart (.inr hmem) hmem'
  -- back to the caller
  have hall : Stays floor (code.shared ∪ block s.es s.bx 512)
      (push s.cx (push s.bx (push s.ax s))) x :=
    (hustays.trans hwstays).trans
      ((⟨rfl, rfl, rfl, rfl, rfl, fun _ _ => rfl⟩ : Stays _ _ w { w with si := code.msgProgress }).trans
        (hxstays.mono Set.subset_union_left))
  obtain ⟨hstays, hax, hbx, hcx, -, -⟩ := popAll_ok hall (hs.mono (by omega) le_rfl)
  have hsize : loadWord (popAll x).mem (popAll x).ds bytesPerSector = 512 := by
    rw [hstays.ds, hs.ds]
    exact (hs.stays hstays).sector.word (by decide) (by decide)
  refine ⟨{ popAll x with bx := s.bx + 512, ax := s.ax + 1 }, ?_, hcx,
    ⟨⟨hstays.ds, hstays.es, hstays.ss, hstays.sp, hstays.direction, hstays.mem⟩, rfl, rfl, ?_⟩⟩
  · rw [sectorLoop]
    simp only [hv, hu, ok_bind, hasks.readCall, hw, Bool.false_eq_true, if_false, hx, hsize, hax,
      hbx]
  · intro i hi
    rw [Nat.div_eq_of_lt hi, Nat.mod_eq_of_lt hi]
    exact (hkept i hi).trans (hdata i hi)

/-- A try with an error resets the drive and goes on with the next one, unless it was the last. -/
theorem sectorLoop_failed (h : ReadsDisk bios disk depth) (fuel : ℕ) {s : State}
    (hs : Ready code floor (code.shared ∪ block s.es s.bx 512) (depth + 12) s)
    (hcarry : (bios s.calls (readCall s.ax s.bx s.es)).carry = true) :
    ∃ t, sectorLoop bios code (fuel + 1) s = (if t.di = 0 then
        .error (.ended (interrupt bios .int18 t).2) else sectorLoop bios code fuel t) ∧
      Stays floor (code.shared ∪ block s.es s.bx 512) s t ∧ t.ax = s.ax ∧ t.bx = s.bx ∧
      t.cx = s.cx ∧ t.di = s.di - 1 ∧
      t.calls = s.calls ++ [readCall s.ax s.bx s.es, resetCall s.ax s.bx s.es] := by
  obtain ⟨v, u, hv, hu, hasks, hdi, hcalls, hready, hustays, hwstays⟩ := sector_asked h hs
  rw [← hcalls] at hcarry
  have hwasks : Asks s.ax s.bx s.es
      { (interrupt bios (readCall s.ax s.bx s.es) u).2 with ax := 0x0201 } :=
    ⟨rfl, hasks.bx, hasks.cx, hasks.dx, hasks.es⟩
  have hwcalls : (interrupt bios (readCall s.ax s.bx s.es) u).2.calls =
      u.calls ++ [readCall s.ax s.bx s.es] := rfl
  have hwdi : (interrupt bios (readCall s.ax s.bx s.es) u).2.di = u.di := rfl
  generalize hw : interrupt bios (readCall s.ax s.bx s.es) u = r at hwstays hwasks hwcalls hwdi
  have hrcarry : r.1 = true := by
    rw [← hw]
    exact hcarry
  obtain ⟨carry, w⟩ := r
  subst hrcarry
  have hstays : Stays floor (code.shared ∪ block s.es s.bx 512) u { w with ax := 0 } :=
    ⟨hwstays.ds, hwstays.es, hwstays.ss, hwstays.sp, hwstays.direction, hwstays.mem⟩
  have hstays := hstays.trans (interrupt_stays h (c := resetCall s.ax s.bx s.es)
    (Set.subset_union_left.trans Set.subset_union_left) (Set.empty_subset _) ((hready.stays hstays).toRoom.mono (by omega)))
  -- back in front of the label
  have hall : Stays floor (code.shared ∪ block s.es s.bx 512)
      (push s.cx (push s.bx (push s.ax s)))
      { (interrupt bios (resetCall s.ax s.bx s.es) { w with ax := 0 }).2 with di := s.di - 1 } :=
    hustays.trans ⟨hstays.ds, hstays.es, hstays.ss, hstays.sp, hstays.direction, hstays.mem⟩
  obtain ⟨hstays, hax, hbx, hcx, hdi', hcalls'⟩ := popAll_ok hall (hs.mono (by omega) le_rfl)
  refine ⟨_, ?_, hstays, hax, hbx, hcx, hdi', ?_⟩
  · rw [sectorLoop]
    have hreset : Call.int13 0 w.bx w.cx w.dx w.es = resetCall s.ax s.bx s.es := hwasks.resetCall
    have hcount : (interrupt bios (resetCall s.ax s.bx s.es) { w with ax := 0 }).2.di = s.di :=
      hwdi.trans hdi
    simp only [hv, hu, ok_bind, hasks.readCall, hw, if_true, hreset, hcount, hdi', beq_iff_eq]
  · rw [hcalls']
    change w.calls ++ _ = _
    rw [hwcalls, hcalls, List.append_assoc]
    rfl

end Tries

end Rizzos.LegacyBoot
