import Rizzos.LegacyBootRoutines

set_option autoImplicit false

/-!
# Sectors of the disk

What `ReadSectors` leaves in memory when its BIOS reads a disk of eight heads and thirty-two sectors
a track, as the parameter block says.
-/
namespace Rizzos.LegacyBoot
open ByteMemory RealMode

/-! ### All tries of a sector -/

section Tries
variable {bios : Bios} {disk : ℕ → ℕ → Byte} {depth : ℕ} {code : Layout} {floor : ℕ}

/-- Tries that fail, each with the reset behind it. -/
def tries (c d : Call) (n : ℕ) : List Call := (List.replicate n [c, d]).flatten

theorem tries_succ (c d : Call) (n : ℕ) : tries c d (n + 1) = [c, d] ++ tries c d n := by
  rw [tries, List.replicate_succ, List.flatten_cons, tries]

def Failing (bios : Bios) (t : List Call) (c d : Call) (n : ℕ) : Prop :=
  ∀ k < n, (bios (t ++ tries c d k) c).carry = true

theorem Failing.cons {t : List Call} {c d : Call} {n : ℕ} (h : (bios t c).carry = true)
    (htail : Failing bios (t ++ [c, d]) c d n) : Failing bios t c d (n + 1) := by
  intro k hk
  cases k with
  | zero => simpa [tries] using h
  | succ k =>
    rw [tries_succ, ← List.append_assoc]
    exact htail k (by omega)

/-- So many failing reads of a sector, and the ROM's program behind them. -/
structure Fails (bios : Bios) (code : Layout) (floor n : ℕ) (s t : State) : Prop
    extends Stays floor (code.shared ∪ block s.es s.bx 512) s t where
  failing : Failing bios s.calls (readCall s.ax s.bx s.es) (resetCall s.ax s.bx s.es) n
  calls : t.calls =
    s.calls ++ tries (readCall s.ax s.bx s.es) (resetCall s.ax s.bx s.es) n ++ [.int18]

/-- The tries end with the sector or with the ROM's program. The induction is on the count in
    `di`. -/
theorem sectorLoop_spec (h : ReadsDisk bios disk depth) {n : ℕ} (hpos : n ≠ 0) (hn : n ≤ 5)
    {fuel : ℕ} (hfuel : n + 2 ≤ fuel) {s : State}
    (hs : Ready code floor (code.shared ∪ block s.es s.bx 512) (depth + 12) s)
    (hapart : Disjoint (block s.es s.bx 512) code.shared) (hdi : s.di = BitVec.ofNat 16 n) :
    (∃ t, sectorLoop bios code fuel s = .ok t ∧ t.cx = s.cx ∧ Copies disk code floor 1 s t) ∨
      ∃ t, sectorLoop bios code fuel s = .error (.ended t) ∧ Fails bios code floor n s t := by
  induction n generalizing fuel s with
  | zero => exact absurd rfl hpos
  | succ n ih =>
    obtain ⟨fuel, rfl⟩ : ∃ f, fuel = f + 1 := ⟨fuel - 1, by omega⟩
    cases hcarry : (bios s.calls (readCall s.ax s.bx s.es)).carry with
    | false => exact .inl (sectorLoop_read h (by omega) hs hapart hcarry)
    | true =>
      obtain ⟨t, heq, hstays, hax, hbx, hcx, hdec, hcalls⟩ := sectorLoop_failed h fuel hs hcarry
      have hcount : t.di = BitVec.ofNat 16 n := hdec.trans (sub_one_of_count hdi)
      have ht := hs.stays hstays
      by_cases hlast : n = 0
      · subst hlast
        have hzero : t.di = 0 := hcount
        rw [if_pos hzero] at heq
        have hended : Stays floor (code.shared ∪ block s.es s.bx 512) t (interrupt bios .int18 t).2 :=
          interrupt_stays h (Set.subset_union_left.trans Set.subset_union_left)
            (Set.empty_subset _) (ht.toRoom.mono (by omega))
        refine .inr ⟨_, heq, hstays.trans hended, .cons hcarry fun k hk => absurd hk k.not_lt_zero, ?_⟩
        change t.calls ++ [.int18] = _
        rw [hcalls, tries_succ]
        rfl
      · have hmore : t.di ≠ 0 := fun hzero =>
          hlast ((count_eq_zero_iff (by omega)).1 (hcount.symm.trans hzero))
        rw [if_neg hmore] at heq
        have hblock : block t.es t.bx 512 = block s.es s.bx 512 := by rw [hstays.es, hbx]
        rw [← hblock] at ht hapart
        have hturns : n + 2 ≤ fuel := by omega
        have hrest := ih hlast (by omega) hturns ht hapart hcount
        rcases hrest with ⟨u, hu, hcx', hu'⟩ | ⟨u, hu, hu'⟩
        · refine .inl ⟨u, heq.trans hu, hcx'.trans hcx, hstays.trans (hblock ▸ hu'.toStays), ?_, ?_, ?_⟩
          · rw [hu'.ax, hax]
          · rw [hu'.bx, hbx]
          · have hsectors := hu'.sectors
            rwa [hax, hbx, hstays.es] at hsectors
        · have hfailing := hu'.failing
          have hcalls' := hu'.calls
          rw [hax, hbx, hstays.es, hcalls] at hfailing hcalls'
          refine .inr ⟨u, heq.trans hu, hstays.trans (hblock ▸ hu'.toStays), .cons hcarry hfailing, ?_⟩
          rw [hcalls', tries_succ]
          simp only [List.append_assoc]

end Tries

/-! ### Sectors one behind the other -/

section Sectors
variable {bios : Bios} {disk : ℕ → ℕ → Byte} {depth : ℕ} {code : Layout} {floor : ℕ}

/-- The last calls are five failing reads of a sector. -/
def GivesUp (bios : Bios) (lba bx es : Word) (s : State) : Prop :=
  ∃ t, s.calls = t ++ tries (readCall lba bx es) (resetCall lba bx es) 5 ++ [.int18] ∧
    Failing bios t (readCall lba bx es) (resetCall lba bx es) 5

/-- The run ends at a sector that is given up, with the sectors in front of it read. -/
structure StopsAt (bios : Bios) (disk : ℕ → ℕ → Byte) (code : Layout) (floor k : ℕ) (s t : State) :
    Prop where
  mem : Set.EqOn t.mem s.mem
    (code.shared ∪ block s.es s.bx (512 * (k + 1)) ∪ Set.Ico floor s.top)ᶜ
  sectors : ∀ i < 512 * k, t.mem (linear s.es s.bx + i) = disk (s.ax.toNat + i / 512) (i % 512)
  givesUp : GivesUp bios (s.ax + BitVec.ofNat 16 k) (s.bx + BitVec.ofNat 16 (512 * k)) s.es t

theorem toNat_add {w : Word} {k : ℕ} (h : w.toNat + k < 2 ^ 16) :
    (w + BitVec.ofNat 16 k).toNat = w.toNat + k := by
  rw [BitVec.toNat_add, BitVec.toNat_ofNat]
  omega

theorem block_mono {segment offset : Word} {n k : ℕ} (h : n ≤ k) :
    block segment offset n ⊆ block segment offset k := Set.Ico_subset_Ico_right (by omega)

theorem Copies.block_eq {s t : State} (h : Copies disk code floor 1 s t)
    (hbx : s.bx.toNat + 512 < 2 ^ 16) (n : ℕ) :
    block t.es t.bx n = Set.Ico (linear s.es s.bx + 512) (linear s.es s.bx + 512 + n) := by
  rw [block, h.es, h.bx, linear_add hbx]

theorem Copies.block_subset {s t : State} (h : Copies disk code floor 1 s t)
    (hbx : s.bx.toNat + 512 < 2 ^ 16) {n k : ℕ} (hk : n + 512 ≤ k) :
    block t.es t.bx n ⊆ block s.es s.bx k := by
  rw [h.block_eq hbx]
  exact Set.Ico_subset_Ico (by omega) (by omega)

theorem Copies.kept {s t u : State} (h : Copies disk code floor 1 s t)
    (hbx : s.bx.toNat + 512 < 2 ^ 16) {n : ℕ}
    (hroom : Room floor (code.shared ∪ block s.es s.bx 512) 0 s)
    (hapart : Disjoint (block s.es s.bx 512) code.shared)
    (hu : Set.EqOn u.mem t.mem (code.shared ∪ block t.es t.bx n ∪ Set.Ico floor t.top)ᶜ) :
    ∀ i < 512, u.mem (linear s.es s.bx + i) = disk s.ax.toNat i := by
  intro i hi
  have hmem : linear s.es s.bx + i ∈ block s.es s.bx 512 := ⟨by omega, by omega⟩
  have hfirst := h.sectors i hi
  rw [Nat.div_eq_of_lt hi, Nat.mod_eq_of_lt hi] at hfirst
  refine (hu ?_).trans hfirst
  rintro ((hshared | hnext) | hstack)
  · exact Set.disjoint_left.1 hapart hmem hshared
  · rw [h.block_eq hbx] at hnext
    have hle := hnext.1
    omega
  · rw [h.top] at hstack
    exact Set.disjoint_left.1 hroom.apart (.inr hmem) hstack

theorem sectors_succ {base lba n : ℕ} {m : Mem} (hfirst : ∀ i < 512, m (base + i) = disk lba i)
    (hrest : ∀ i < 512 * n, m (base + 512 + i) = disk (lba + 1 + i / 512) (i % 512)) :
    ∀ i < 512 * (n + 1), m (base + i) = disk (lba + i / 512) (i % 512) := by
  intro i hi
  by_cases hi' : i < 512
  · rw [hfirst i hi', Nat.div_eq_of_lt hi', Nat.mod_eq_of_lt hi', Nat.add_zero]
  · obtain ⟨j, rfl⟩ : ∃ j, i = 512 + j := ⟨i - 512, by omega⟩
    have hdiv : (512 + j) / 512 = 1 + j / 512 := by omega
    rw [← Nat.add_assoc, hrest j (by omega), hdiv, Nat.add_mod_left, Nat.add_assoc]

/-- The sector read first stays in front of those that are read behind it. -/
theorem Copies.sectors_succ {s u v : State} (h : Copies disk code floor 1 s u)
    (hlba : s.ax.toNat + 1 < 2 ^ 16) (hbx : s.bx.toNat + 512 < 2 ^ 16) {n k : ℕ}
    (hroom : Room floor (code.shared ∪ block s.es s.bx 512) 0 s)
    (hapart : Disjoint (block s.es s.bx 512) code.shared)
    (hv : Set.EqOn v.mem u.mem (code.shared ∪ block u.es u.bx n ∪ Set.Ico floor u.top)ᶜ)
    (hsectors : ∀ i < 512 * k, v.mem (linear u.es u.bx + i) =
      disk (u.ax.toNat + i / 512) (i % 512)) :
    ∀ i < 512 * (k + 1), v.mem (linear s.es s.bx + i) = disk (s.ax.toNat + i / 512) (i % 512) := by
  have hplace : linear u.es u.bx = linear s.es s.bx + 512 := by rw [h.es, h.bx, linear_add hbx]
  have hax : u.ax.toNat = s.ax.toNat + 1 := h.ax ▸ toNat_add hlba
  rw [hplace, hax] at hsectors
  exact LegacyBoot.sectors_succ (h.kept hbx hroom hapart hv) hsectors

theorem Copies.stays {s u : State} (h : Copies disk code floor 1 s u) {n : ℕ} (hn : 1 ≤ n) :
    Stays floor (code.shared ∪ block s.es s.bx (512 * n)) s u :=
  h.toStays.mono (Set.union_subset_union_right _ (block_mono (Nat.mul_le_mul_left 512 hn)))

theorem Copies.cons {s u v : State} (h : Copies disk code floor 1 s u) {n : ℕ}
    (hv : Copies disk code floor n u v) (hlba : s.ax.toNat + 1 < 2 ^ 16)
    (hbx : s.bx.toNat + 512 < 2 ^ 16) (hroom : Room floor (code.shared ∪ block s.es s.bx 512) 0 s)
    (hapart : Disjoint (block s.es s.bx 512) code.shared) :
    Copies disk code floor (n + 1) s v where
  toStays := (h.stays n.succ_pos).trans (hv.toStays.mono (Set.union_subset_union_right _
    (h.block_subset hbx (Nat.mul_succ 512 n).ge)))
  ax := by rw [hv.ax, h.ax, Nat.add_comm n 1, BitVec.ofNat_add, BitVec.add_assoc]
  bx := by
    rw [hv.bx, h.bx, Nat.mul_add, Nat.add_comm (512 * n), BitVec.ofNat_add, BitVec.add_assoc]
  sectors := h.sectors_succ hlba hbx hroom hapart hv.mem hv.sectors

theorem Copies.stopsAt {s u v : State} (h : Copies disk code floor 1 s u) {k : ℕ}
    (hv : StopsAt bios disk code floor k u v) (hlba : s.ax.toNat + 1 < 2 ^ 16)
    (hbx : s.bx.toNat + 512 < 2 ^ 16) (hroom : Room floor (code.shared ∪ block s.es s.bx 512) 0 s)
    (hapart : Disjoint (block s.es s.bx 512) code.shared) :
    StopsAt bios disk code floor (k + 1) s v where
  mem := by
    have hlater : Set.EqOn v.mem u.mem
        (code.shared ∪ block s.es s.bx (512 * (k + 1 + 1)) ∪ Set.Ico floor s.top)ᶜ := by
      refine h.top ▸ hv.mem.mono (Set.compl_subset_compl.2 ?_)
      exact Set.union_subset_union_left _ (Set.union_subset_union_right _
        (h.block_subset hbx (Nat.mul_succ 512 (k + 1)).ge))
    exact hlater.trans (h.stays (k + 1).succ_pos).mem
  sectors := h.sectors_succ hlba hbx hroom hapart hv.mem hv.sectors
  givesUp := by
    have hgives := hv.givesUp
    rw [h.es, h.ax, h.bx, BitVec.add_assoc, BitVec.add_assoc, ← BitVec.ofNat_add,
      ← BitVec.ofNat_add] at hgives
    rw [Nat.add_comm k 1, Nat.mul_add]
    exact hgives

theorem Fails.stopsAt {s t : State} (h : Fails bios code floor 5 s t) :
    StopsAt bios disk code floor 0 s t where
  mem := h.mem
  sectors i hi := absurd hi i.not_lt_zero
  givesUp := by
    have hax : s.ax + BitVec.ofNat 16 0 = s.ax := BitVec.add_zero _
    have hbx : s.bx + BitVec.ofNat 16 (512 * 0) = s.bx := BitVec.add_zero _
    rw [hax, hbx]
    exact ⟨s.calls, h.calls, h.failing⟩

/-- The first of the sectors, and the loop behind it. -/
theorem readSectors_first (h : ReadsDisk bios disk depth) {n fuel : ℕ} (hn : n < 2 ^ 16)
    (hfuel : 7 ≤ fuel) {s : State} (hcx : s.cx = BitVec.ofNat 16 (n + 1))
    (hs : Ready code floor (code.shared ∪ block s.es s.bx 512) (depth + 12) s)
    (hapart : Disjoint (block s.es s.bx 512) code.shared) :
    (∃ u, readSectors bios code (fuel + 1) s =
          (if n = 0 then .ok u else readSectors bios code fuel u) ∧
        u.cx = BitVec.ofNat 16 n ∧ Copies disk code floor 1 s u) ∨
      ∃ t, readSectors bios code (fuel + 1) s = .error (.ended t) ∧
        Fails bios code floor 5 s t := by
  have hready : Ready code floor (code.shared ∪ block s.es s.bx 512) (depth + 12)
      { s with di := 0x05 } := hs.stays ⟨rfl, rfl, rfl, rfl, rfl, fun _ _ => rfl⟩
  rw [readSectors]
  rcases sectorLoop_spec h (n := 5) (by decide) le_rfl hfuel (s := { s with di := 0x05 }) hready
    hapart rfl with ⟨t, heq, hcx', ht⟩ | ⟨t, heq, ht⟩
  · have hcount : t.cx - 1 = BitVec.ofNat 16 n := sub_one_of_count (hcx'.trans hcx)
    refine .inl ⟨{ t with cx := t.cx - 1 }, ?_, hcount,
      ⟨⟨ht.ds, ht.es, ht.ss, ht.sp, ht.direction, ht.mem⟩, ht.ax, ht.bx, ht.sectors⟩⟩
    simp only [heq, ok_bind, hcount, count_eq_zero_iff hn]
  · simp only [heq]
    exact .inr ⟨t, rfl, ⟨⟨ht.ds, ht.es, ht.ss, ht.sp, ht.direction, ht.mem⟩, ht.failing, ht.calls⟩⟩

/-- The count is in `cx`. The induction is on it. -/
theorem readSectors_spec (h : ReadsDisk bios disk depth) {n : ℕ} (hpos : n ≠ 0) {fuel : ℕ}
    (hfuel : n + 7 ≤ fuel) {s : State} (hcx : s.cx = BitVec.ofNat 16 n)
    (hlba : s.ax.toNat + n ≤ 2 ^ 16) (hbx : s.bx.toNat + 512 * n ≤ 2 ^ 16)
    (hs : Ready code floor (code.shared ∪ block s.es s.bx (512 * n)) (depth + 12) s)
    (hapart : Disjoint (block s.es s.bx (512 * n)) code.shared) :
    (∃ t, readSectors bios code fuel s = .ok t ∧ t.cx = 0 ∧ Copies disk code floor n s t) ∨
      ∃ k < n, ∃ t, readSectors bios code fuel s = .error (.ended t) ∧
        StopsAt bios disk code floor k s t := by
  induction n generalizing fuel s with
  | zero => exact absurd rfl hpos
  | succ n ih =>
    obtain ⟨fuel, rfl⟩ : ∃ f, fuel = f + 1 := ⟨fuel - 1, by omega⟩
    have hfirst : block s.es s.bx 512 ⊆ block s.es s.bx (512 * (n + 1)) :=
      block_mono (Nat.le_mul_of_pos_right 512 n.succ_pos)
    have hready : Ready code floor (code.shared ∪ block s.es s.bx 512) (depth + 12) s :=
      hs.mono le_rfl (Set.union_subset_union_right _ hfirst)
    have hroom := hready.toRoom.mono (Nat.zero_le _)
    have hapart' := hapart.mono_left hfirst
    rcases readSectors_first h (n := n) (by omega) (by omega : 7 ≤ fuel) hcx hready hapart' with
      ⟨u, heq, hucx, hu⟩ | ⟨t, heq, ht⟩
    · rw [heq]
      by_cases hlast : n = 0
      · subst hlast
        rw [if_pos rfl]
        exact .inl ⟨u, rfl, hucx, hu⟩
      · rw [if_neg hlast]
        have hlba' : s.ax.toNat + 1 < 2 ^ 16 := by omega
        have hbx' : s.bx.toNat + 512 < 2 ^ 16 := by omega
        have huax : u.ax.toNat = s.ax.toNat + 1 := hu.ax ▸ toNat_add hlba'
        have hubx : u.bx.toNat = s.bx.toNat + 512 := hu.bx ▸ toNat_add hbx'
        have hsub : block u.es u.bx (512 * n) ⊆ block s.es s.bx (512 * (n + 1)) :=
          hu.block_subset hbx' (Nat.mul_succ 512 n).ge
        have hrest := ih hlast (by omega : n + 7 ≤ fuel) hucx (by omega) (by omega)
          ((hs.stays (hu.stays n.succ_pos)).mono le_rfl (Set.union_subset_union_right _ hsub))
          (hapart.mono_left hsub)
        rcases hrest with ⟨v, hv, hvcx, hcopies⟩ | ⟨k, hk, v, hv, hstops⟩
        · exact .inl ⟨v, hv, hvcx, hu.cons hcopies hlba' hbx' hroom hapart'⟩
        · exact .inr ⟨k + 1, by omega, v, hv, hu.stopsAt hstops hlba' hbx' hroom hapart'⟩
    · exact .inr ⟨0, n.succ_pos, t, heq, ht.stopsAt⟩

theorem readSectors_call (h : ReadsDisk bios disk depth) {n : ℕ} (hpos : n ≠ 0) {fuel : ℕ}
    (hfuel : n + 7 ≤ fuel) {s : State} (hcx : s.cx = BitVec.ofNat 16 n)
    (hlba : s.ax.toNat + n ≤ 2 ^ 16) (hbx : s.bx.toNat + 512 * n ≤ 2 ^ 16)
    (hs : Ready code floor (code.shared ∪ block s.es s.bx (512 * n)) (depth + 14) s)
    (hapart : Disjoint (block s.es s.bx (512 * n)) code.shared) (ip : Word) :
    (∃ t, call ip (readSectors bios code fuel) s = .ok t ∧ t.cx = 0 ∧
        Copies disk code floor n s t) ∨
      ∃ k < n, ∃ t, call ip (readSectors bios code fuel) s = .error (.ended t) ∧
        StopsAt bios disk code floor k s t := by
  have hroom := hs.toRoom.mono (show 2 ≤ depth + 14 by omega)
  have htop := top_push ip hroom.sp
  rcases readSectors_spec h hpos hfuel (s := push ip s) hcx hlba hbx (hs.push ip) hapart with
    ⟨t, heq, hcx, ht⟩ | ⟨k, hk, t, heq, ht⟩
  · obtain ⟨hcall, hstays⟩ := call_ok hroom heq ht.toStays
    exact .inl ⟨_, hcall, hcx, hstays, ht.ax, ht.bx, ht.sectors⟩
  · refine .inr ⟨k, hk, t, call_error heq, ?_, ht.sectors, ht.givesUp⟩
    have hbelow : Set.EqOn t.mem (push ip s).mem
        (code.shared ∪ block s.es s.bx (512 * (k + 1)) ∪ Set.Ico floor s.top)ᶜ := by
      refine ht.mem.mono (Set.compl_subset_compl.2 (Set.union_subset_union_right _ ?_))
      exact Set.Ico_subset_Ico_right (by omega)
    exact hbelow.trans ((push_eqOn ip hroom).mono
      (Set.compl_subset_compl.2 Set.subset_union_right))

/-- The stack that a call of `ReadSectors` takes, with what the BIOS takes of it. -/
def stackOf (depth : ℕ) (s : State) : Set ℕ := Set.Ico (s.top - (depth + 14)) s.top

/-- The sectors have a place of their own in conventional memory, and so has the stack. -/
structure Fits (depth n : ℕ) (s : State) : Prop where
  sp : depth + 14 ≤ s.sp.toNat
  stack : Disjoint (stackOf depth s) (biosMemory ∪ bootSector ∪ block s.es s.bx (512 * n))
  buffer : Disjoint (block s.es s.bx (512 * n)) (biosMemory ∪ bootSector)

theorem chs_subset_bootSector : code.chs ⊆ bootSector := by
  have hplace := linear_absoluteSector code
  exact Set.Ico_subset_Ico (by omega) (by omega)

theorem bootSector_biosMemory : Disjoint bootSector biosMemory := by
  refine Set.disjoint_left.2 fun x hx hbios => ?_
  have hle : 0x7C00 ≤ x := hx.1
  have hlt : x < 0x7E00 := hx.2
  have hor : x < 0x500 ∨ 0x80000 ≤ x := hbios
  omega

theorem Fits.ready {n : ℕ} {s : State} (h : Fits depth n s) (hsector : Sector code s.mem)
    (hds : s.ds = 0x07C0) (hdirection : s.direction = false) :
    Ready code (s.top - (depth + 14)) (code.shared ∪ block s.es s.bx (512 * n)) (depth + 14) s where
  sp := h.sp
  space := by
    have hsp := h.sp
    have hle : s.sp.toNat ≤ s.top := Nat.le_add_left _ _
    omega
  apart := by
    have hstack := h.stack.symm
    refine Set.disjoint_union_left.2 ⟨Set.disjoint_union_left.2 ⟨?_, ?_⟩, ?_⟩
    · exact hstack.mono_left (Set.subset_union_left.trans Set.subset_union_left)
    · exact hstack.mono_left
        (chs_subset_bootSector.trans (Set.subset_union_right.trans Set.subset_union_left))
    · exact hstack.mono_left Set.subset_union_right
  sector := hsector
  ds := hds
  direction := hdirection
  clear := by
    refine Set.disjoint_union_right.2 ⟨Set.disjoint_union_right.2 ⟨?_, ?_⟩, ?_⟩
    · exact bootSector_biosMemory.mono_left Set.sdiff_subset
    · exact Set.disjoint_sdiff_left.mono_right chs_subset
    · exact (h.buffer.mono_right Set.subset_union_right).symm.mono_left Set.sdiff_subset
  below := (h.stack.mono_right (Set.subset_union_right.trans Set.subset_union_left)).symm

theorem Fits.apart {n : ℕ} {s : State} (h : Fits depth n s) :
    Disjoint (block s.es s.bx (512 * n)) code.shared :=
  h.buffer.mono_right (Set.union_subset_union_right _ chs_subset_bootSector)

/-- `ReadSectors` copies as many sectors as `cx` says and returns, or it ends at one that it gives
    up, with all in front of it copied. -/
theorem readSectors_copies (h : ReadsDisk bios disk depth) {n : ℕ} (hpos : n ≠ 0) {s : State}
    (hsector : Sector code s.mem) (hds : s.ds = 0x07C0) (hdirection : s.direction = false)
    (hcx : s.cx = BitVec.ofNat 16 n) (hlba : s.ax.toNat + n ≤ 2 ^ 16)
    (hbx : s.bx.toNat + 512 * n ≤ 2 ^ 16) (hfits : Fits depth n s) {fuel : ℕ}
    (hfuel : n + 7 ≤ fuel) (ip : Word) :
    (∃ t, call ip (readSectors bios code fuel) s = .ok t ∧ t.cx = 0 ∧
        Copies disk code (s.top - (depth + 14)) n s t) ∨
      ∃ k < n, ∃ t, call ip (readSectors bios code fuel) s = .error (.ended t) ∧
        StopsAt bios disk code (s.top - (depth + 14)) k s t :=
  readSectors_call h hpos hfuel hcx hlba hbx (hfits.ready hsector hds hdirection) hfits.apart ip

/-- A BIOS whose drive answers at once. It takes sixty-four bytes of stack and moves the cursor. -/
def promptBios (disk : ℕ → ℕ → Byte) : Bios := fun _ c =>
  ⟨false, 0, fun top m x => match c with
    | .int13 ax bx cx dx es =>
      if ax = 0x0201 ∧ linear es bx ≤ x ∧ x < linear es bx + 512 then
        disk (place 8 32 cx dx) (x - linear es bx)
      else if x = 0x450 ∨ top - 64 ≤ x ∧ x < top then 0 else m x
    | _ => if x = 0x450 ∨ top - 64 ≤ x ∧ x < top then 0 else m x⟩

theorem promptBios_reads (disk : ℕ → ℕ → Byte) : ReadsDisk (promptBios disk) disk 64 where
  keeps t c top m x hx := by
    have houtside : ¬ (x = 0x450 ∨ top - 64 ≤ x ∧ x < top) := by
      rintro (rfl | hstack)
      · exact hx (.inl (.inl (.inl (by decide))))
      · exact hx (.inl (.inr hstack))
    cases c with
    | int13 ax bx cx dx es =>
      have hread : ¬ (ax = 0x0201 ∧ linear es bx ≤ x ∧ x < linear es bx + 512) := by
        rintro ⟨rfl, hblock⟩
        exact hx (.inr hblock)
      change (if _ then _ else if _ then _ else _) = _
      rw [if_neg hread, if_neg houtside]
    | _ => exact if_neg houtside
  reads t bx cx dx es _ _ top m _ i hi := by
    change (if _ then _ else _) = _
    rw [if_pos ⟨rfl, Nat.le_add_right _ _, by omega⟩, Nat.add_sub_cancel_left]

/-- A disk whose root directory has a file at cluster 3 and whose sectors hold their numbers. -/
def numberedDisk (lba i : ℕ) : Byte :=
  if lba = 0x04F0 then (if i = 0x3A then 3 else 0) else BitVec.ofNat 8 lba

/-- The places that the instructions' lengths give. -/
def assembled : Layout where
  absoluteSector := 0x014B
  site
    | .hello => 0x0075
    | .rootCluster => 0x008D
    | .root => 0x0093
    | .rootDone => 0x009C
    | .kernelCluster => 0x00B4
    | .kernel => 0x00B7
    | .kernelDone => 0x00BD
    | .lbachs => 0x00EC
    | .progress => 0x0116
  behind_code := by decide
  before_signature := by decide

def loadedMemory : Mem := fun x =>
  if 0x7C03 ≤ x ∧ x < 0x7C5A then parameterBlock.getD (x - 0x7C03) 0
  else if 0x7D52 ≤ x ∧ x < 0x7D84 then readonlyData.getD (x - 0x7D52) 0 else 0

theorem loadedMemory_sector : Sector assembled loadedMemory where
  parameters i hi := by
    rw [loadedMemory, if_pos (by omega), Nat.add_sub_cancel_left]
  data i hi := by
    have hplace : linear 0x07C0 assembled.msgHello = 0x7D52 := by decide
    rw [hplace, loadedMemory, if_neg (by omega), if_pos (by omega), Nat.add_sub_cancel_left]

def eightSectors : State where
  ax := 0x04F0
  bx := 0x0200
  cx := 8
  dx := 0
  si := 0
  di := 0
  ds := 0x07C0
  es := 0x07C0
  ss := 0
  sp := 0xFFFF
  direction := false
  mem := loadedMemory
  calls := []

theorem eightSectors_fits : Fits 64 8 eightSectors := by
  have htop : eightSectors.top = 0xFFFF := by decide
  have hblock : block eightSectors.es eightSectors.bx (512 * 8) = Set.Ico 0x7E00 0x8E00 := by
    have hplace : linear eightSectors.es eightSectors.bx = 0x7E00 := by decide
    rw [block, hplace]
  have hboth : ∀ x, x ∈ biosMemory ∪ bootSector → x < 0x500 ∨ 0x80000 ≤ x ∨ x < 0x7E00 := by
    rintro x (hx | hx)
    · have hor : x < 0x500 ∨ 0x80000 ≤ x := hx
      omega
    · exact .inr (.inr hx.2)
  refine ⟨by decide, ?_, ?_⟩
  · rw [hblock, stackOf, htop]
    refine Set.disjoint_left.2 fun x hx hx' => ?_
    have hle := hx.1
    have hlt := hx.2
    rcases hx' with hx' | hx'
    · have hor := hboth x hx'
      omega
    · have hend := hx'.2
      omega
  · rw [hblock]
    refine Set.disjoint_left.2 fun x hx hx' => ?_
    have hor := hboth x hx'
    have hle := hx.1
    have hlt := hx.2
    omega

theorem readSectors_copies_eight :
    (∃ t, call (assembled.site .root) (readSectors (promptBios numberedDisk) assembled 15)
          eightSectors = .ok t ∧ t.cx = 0 ∧
        Copies numberedDisk assembled (eightSectors.top - (64 + 14)) 8 eightSectors t) ∨
      ∃ k < 8, ∃ t, call (assembled.site .root)
          (readSectors (promptBios numberedDisk) assembled 15) eightSectors = .error (.ended t) ∧
        StopsAt (promptBios numberedDisk) numberedDisk assembled (eightSectors.top - (64 + 14)) k
          eightSectors t :=
  readSectors_copies (promptBios_reads numberedDisk) (by decide) loadedMemory_sector rfl rfl rfl
    (by decide) (by decide) eightSectors_fits (by decide) _

end Sectors

end Rizzos.LegacyBoot
