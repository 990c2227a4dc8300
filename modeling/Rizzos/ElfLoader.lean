import Mathlib
import Rizzos.CInt
import Rizzos.Memory

set_option autoImplicit false

/-!
# The bootloader's ELF loader

`bootloader.c` reads `kernel.elf` through the firmware's file protocol and places its
segments at their physical addresses. The file, the two header buffers and the memory that
the segments go to are storage of their own.
-/
namespace Rizzos.ElfLoader
open ByteMemory CInt Memory

def memCmpLoop (a b : ℕ → Byte) : ℕ → ℕ → ℤ
  | 0, _ => 0
  | n + 1, i => if a i < b i then -1 else if a i > b i then 1 else memCmpLoop a b n (i + 1)

def memCmp (a b : ℕ → Byte) (n : ℕ) : ℤ := memCmpLoop a b n 0

structure ElfHeader where
  e_ident : ℕ → Byte
  e_type : ℕ
  e_machine : ℕ
  e_version : ℕ
  e_entry : ℕ
  e_phoff : ℕ
  e_phentsize : ℕ
  e_phnum : ℕ

def sizeofElfHeader : ℕ := 64

def elfHeaderAt (m : Mem) (a : ℕ) : ElfHeader where
  e_ident i := load8 m (a + i)
  e_type := load16 m (a + 16)
  e_machine := load16 m (a + 18)
  e_version := load32 m (a + 20)
  e_entry := load64 m (a + 24)
  e_phoff := load64 m (a + 32)
  e_phentsize := load16 m (a + 54)
  e_phnum := load16 m (a + 56)

def elfMag (i : ℕ) : Byte := [0x7f#8, 0x45#8, 0x4c#8, 0x46#8].getD i 0

def isElfFHeader (header : ElfHeader) : Bool :=
  memCmp header.e_ident elfMag 4 == 0
  && header.e_ident 4 == 2
  && header.e_ident 5 == 1
  && header.e_type == 2
  && header.e_machine == 62
  && header.e_version == 1

structure ProgramHeader where
  p_type : ℕ
  p_offset : ℕ
  p_paddr : ℕ
  p_filesz : ℕ
  p_memsz : ℕ
deriving DecidableEq, Repr

def sizeofProgramHeader : ℕ := 56

def programHeaderAt (m : Mem) (a : ℕ) : ProgramHeader where
  p_type := load32 m a
  p_offset := load64 m (a + 8)
  p_paddr := load64 m (a + 24)
  p_filesz := load64 m (a + 32)
  p_memsz := load64 m (a + 40)

def ptLoad : ℕ := 1

def storeBytes : List Byte → ℕ → Mem → Mem
  | [], _, m => m
  | b :: rest, a, m => storeBytes rest (a + 1) (store8 m a b)

/-- The firmware's `Read` from a position: no more bytes than the file still has. -/
def readFile (file : List Byte) (position size buffer : ℕ) (m : Mem) : Mem :=
  storeBytes ((file.drop position).take size) buffer m

def programHeadersLoop (m : Mem) (phentsize total : ℕ) : ℕ → ℕ → List ProgramHeader
  | 0, _ => []
  | fuel + 1, phdr =>
    if phdr < total then
      programHeaderAt m phdr :: programHeadersLoop m phentsize total fuel (phdr + phentsize)
    else []

def readElfProgramHeader (file : List Byte) (header : ElfHeader) (pool : Mem) :
    List ProgramHeader :=
  let size := header.e_phnum * header.e_phentsize
  programHeadersLoop (readFile file header.e_phoff size 0 pool) header.e_phentsize size
    header.e_phnum 0

structure Request where
  segment : ℕ
  pages : ℕ
deriving DecidableEq, Repr

structure Loader where
  mem : Mem
  requests : List Request

def pageQuotient (p_memsz : ℕ) : ℕ := wrapSub (wrap (p_memsz + 8)) 1 / 8

/-- `int pages`, as the unsigned argument of `AllocatePages`. -/
def pageCount (p_memsz : ℕ) : ℕ := uint64 (int32 (pageQuotient p_memsz))

def loadSegment (file : List Byte) (s : Loader) (phdr : ProgramHeader) : Loader :=
  if phdr.p_type = ptLoad then
    { mem := readFile file phdr.p_offset phdr.p_filesz phdr.p_paddr s.mem
      requests := s.requests ++ [⟨phdr.p_paddr, pageCount phdr.p_memsz⟩] }
  else s

def loadSegments (file : List Byte) (phdrs : List ProgramHeader) (s : Loader) : Loader :=
  phdrs.foldl (loadSegment file) s

def readElfHeader (file : List Byte) (headerBuffer : Mem) : ElfHeader :=
  elfHeaderAt (readFile file 0 sizeofElfHeader 0 headerBuffer) 0

/-- What `efi_main` jumps to, and what it has loaded by then. A bad header is only reported. -/
def efiMain (file : List Byte) (headerBuffer pool : Mem) (s : Loader) : ℕ × Loader :=
  let header := readElfHeader file headerBuffer
  (header.e_entry, loadSegments file (readElfProgramHeader file header pool) s)

def loads (phdrs : List ProgramHeader) : List ProgramHeader :=
  phdrs.filter (·.p_type = ptLoad)

theorem loads_cons_of_load {phdr : ProgramHeader} {phdrs : List ProgramHeader}
    (h : phdr.p_type = ptLoad) : loads (phdr :: phdrs) = phdr :: loads phdrs := by
  simp [loads, h]

theorem loads_cons_of_ne {phdr : ProgramHeader} {phdrs : List ProgramHeader}
    (h : phdr.p_type ≠ ptLoad) : loads (phdr :: phdrs) = loads phdrs := by
  simp [loads, h]

def ProgramHeader.request (phdr : ProgramHeader) : Request :=
  ⟨phdr.p_paddr, pageCount phdr.p_memsz⟩

theorem loadSegments_requests (file : List Byte) (phdrs : List ProgramHeader) (s : Loader) :
    (loadSegments file phdrs s).requests =
      s.requests ++ (loads phdrs).map ProgramHeader.request := by
  induction phdrs generalizing s with
  | nil => simp [loadSegments, loads]
  | cons phdr phdrs ih =>
    change (loadSegments file phdrs (loadSegment file s phdr)).requests = _
    rw [ih, loadSegment]
    by_cases h : phdr.p_type = ptLoad
    · rw [if_pos h, loads_cons_of_load h, List.append_assoc]
      rfl
    · rw [if_neg h, loads_cons_of_ne h]

section Reservation
variable (file : List Byte) (m : Mem) (phdrs : List ProgramHeader)

/-- The 4096-byte pages that a granted request sets aside. -/
def Request.reservedPages (r : Request) : Set ℕ :=
  {page | r.segment / 4096 ≤ page ∧ page < r.segment / 4096 + r.pages}

def ProgramHeader.touchedPages (phdr : ProgramHeader) : Set ℕ :=
  {page | ∃ i < phdr.p_memsz, page = (phdr.p_paddr + i) / 4096}

/-- The count is passed as it was computed, and the request is for the pages of the segment. -/
def ExactRequest (phdr : ProgramHeader) (r : Request) : Prop :=
  int32 (pageQuotient phdr.p_memsz) = pageQuotient phdr.p_memsz ∧
  r.reservedPages = phdr.touchedPages

/-- One exact request for each segment, and no two that ask for the same page. -/
def ReservesExactly : Prop :=
  List.Forall₂ ExactRequest (loads phdrs) (loadSegments file phdrs ⟨m, []⟩).requests ∧
  (loadSegments file phdrs ⟨m, []⟩).requests.Pairwise
    fun r r' => Disjoint r.reservedPages r'.reservedPages

theorem mem_reservedPages {r : Request} {page : ℕ} : page ∈ r.reservedPages ↔
    r.segment / 4096 ≤ page ∧ page < r.segment / 4096 + r.pages := Iff.rfl

theorem mem_touchedPages {phdr : ProgramHeader} (h : 4096 ∣ phdr.p_paddr) (page : ℕ) :
    page ∈ phdr.touchedPages ↔ phdr.p_paddr / 4096 ≤ page ∧
      page < phdr.p_paddr / 4096 + (phdr.p_memsz + 4095) / 4096 := by
  simp only [ProgramHeader.touchedPages, Set.mem_ofPred_eq]
  constructor
  · rintro ⟨i, hi, rfl⟩
    omega
  · intro hpage
    exact ⟨4096 * (page - phdr.p_paddr / 4096), by omega, by omega⟩

theorem reservedPages_eq_iff {phdr : ProgramHeader} (h : 4096 ∣ phdr.p_paddr) :
    phdr.request.reservedPages = phdr.touchedPages ↔
      pageCount phdr.p_memsz = (phdr.p_memsz + 4095) / 4096 := by
  constructor
  · intro heq
    have hpage := fun page => (Set.ext_iff.1 heq page).trans (mem_touchedPages h page)
    simp only [ProgramHeader.request, mem_reservedPages] at hpage
    have hfirst := hpage (phdr.p_paddr / 4096 + pageCount phdr.p_memsz)
    have hlast := hpage (phdr.p_paddr / 4096 + (phdr.p_memsz + 4095) / 4096)
    omega
  · intro hcount
    apply Set.ext
    intro page
    rw [mem_touchedPages h, ← hcount, mem_reservedPages, ProgramHeader.request]

theorem pageCount_exact {p_memsz : ℕ}
    (h : int32 (pageQuotient p_memsz) = pageQuotient p_memsz) :
    pageCount p_memsz = pageQuotient p_memsz := by
  have hq : pageQuotient p_memsz < 2 ^ 64 := by
    unfold pageQuotient wrapSub wrap
    omega
  rw [pageCount, h, uint64_of_range hq]

theorem pageQuotient_of_lt {p_memsz : ℕ} (h : p_memsz < 2 ^ 63) :
    pageQuotient p_memsz = (p_memsz + 7) / 8 := by
  unfold pageQuotient wrapSub wrap
  omega

/-- The divisor 8 gives the number of pages of segments of at most 8 bytes only. -/
theorem exactRequest_iff {phdr : ProgramHeader} (h : 4096 ∣ phdr.p_paddr) :
    ExactRequest phdr phdr.request ↔ phdr.p_memsz ≤ 8 := by
  rw [ExactRequest, reservedPages_eq_iff h]
  constructor
  · rintro ⟨hexact, hcount⟩
    rw [pageCount_exact hexact] at hcount
    have hq : pageQuotient phdr.p_memsz < 2 ^ 31 := by
      unfold int32 at hexact
      omega
    rw [pageQuotient_of_lt (by omega)] at hcount
    omega
  · intro hle
    have hq : pageQuotient phdr.p_memsz = (phdr.p_memsz + 7) / 8 :=
      pageQuotient_of_lt (by omega)
    have hexact : int32 (pageQuotient phdr.p_memsz) = pageQuotient phdr.p_memsz :=
      int32_ofNat_of_lt (by omega)
    refine ⟨hexact, ?_⟩
    rw [pageCount_exact hexact, hq]
    omega

/-- The requests are exact when no segment needs more than the 8 bytes of one counted unit. -/
theorem reservesExactly_iff (haligned : ∀ phdr ∈ loads phdrs, 4096 ∣ phdr.p_paddr)
    (hdisjoint : (loads phdrs).Pairwise fun a b => Disjoint a.touchedPages b.touchedPages) :
    ReservesExactly file m phdrs ↔ ∀ phdr ∈ loads phdrs, phdr.p_memsz ≤ 8 := by
  have hrequests : (loadSegments file phdrs ⟨m, []⟩).requests =
      (loads phdrs).map ProgramHeader.request := loadSegments_requests file phdrs ⟨m, []⟩
  have heach : List.Forall₂ ExactRequest (loads phdrs)
      ((loads phdrs).map ProgramHeader.request) ↔ ∀ phdr ∈ loads phdrs, phdr.p_memsz ≤ 8 := by
    rw [List.forall₂_map_right_iff, List.forall₂_same]
    exact forall₂_congr fun phdr hphdr => exactRequest_iff (haligned phdr hphdr)
  rw [ReservesExactly, hrequests, heach]
  constructor
  · exact And.left
  · intro hsmall
    refine ⟨hsmall, List.pairwise_map.2 ?_⟩
    apply hdisjoint.imp_of_mem
    intro a b ha hb hab
    rwa [((exactRequest_iff (haligned a ha)).2 (hsmall a ha)).2,
      ((exactRequest_iff (haligned b hb)).2 (hsmall b hb)).2]

def smallSegments : List ProgramHeader :=
  [⟨ptLoad, 0, 0x200000, 8, 8⟩, ⟨ptLoad, 0, 0x201000, 8, 8⟩]

theorem reservesExactly_iff_small :
    ReservesExactly [] 0 smallSegments ↔ ∀ phdr ∈ loads smallSegments, phdr.p_memsz ≤ 8 := by
  apply reservesExactly_iff
  · decide
  · have hne : ∀ i < 8, ∀ j < 8, (0x200000 + i) / 4096 ≠ (0x201000 + j) / 4096 := by omega
    apply List.pairwise_pair.2
    rw [Set.disjoint_left]
    rintro _ ⟨i, hi, rfl⟩ ⟨j, hj, heq⟩
    exact hne i hi j hj heq

/-- Two segments of a page each: the first request takes 512 pages. -/
def pageSegments : List ProgramHeader :=
  [⟨ptLoad, 0, 0x200000, 4096, 4096⟩, ⟨ptLoad, 0, 0x201000, 4096, 4096⟩]

theorem not_reservesExactly_pages :
    (∀ phdr ∈ loads pageSegments, 4096 ∣ phdr.p_paddr) ∧
    ((loads pageSegments).Pairwise fun a b => Disjoint a.touchedPages b.touchedPages) ∧
    ¬ ReservesExactly [] 0 pageSegments := by
  refine ⟨by decide, ?_, ?_⟩
  · have hne : ∀ i < 4096, ∀ j < 4096, (0x200000 + i) / 4096 ≠ (0x201000 + j) / 4096 := by omega
    apply List.pairwise_pair.2
    rw [Set.disjoint_left]
    rintro _ ⟨i, hi, rfl⟩ ⟨j, hj, heq⟩
    exact hne i hi j hj heq
  · rintro ⟨-, hpairwise⟩
    have hboth := List.pairwise_pair.1 hpairwise
    have hshared : 0x200 ≤ 0x201 ∧ 0x201 < 0x400 := by decide
    exact Set.disjoint_left.1 hboth (mem_reservedPages.2 hshared) (mem_reservedPages.2 (by decide))

end Reservation

theorem storeBytes_outside {bytes : List Byte} {a x : ℕ} (m : Mem)
    (h : Outside x a bytes.length) : storeBytes bytes a m x = m x := by
  induction bytes generalizing a m with
  | nil => rfl
  | cons b rest ih =>
    rw [storeBytes, ih _ h.tail]
    exact Function.update_of_ne (by simpa using h 0 (by simp)) _ _

theorem storeBytes_apply {bytes : List Byte} {a i : ℕ} (m : Mem) (hi : i < bytes.length)
    (hlen : bytes.length ≤ 2 ^ 64) : storeBytes bytes a m (wrap (a + i)) = bytes[i] := by
  induction bytes generalizing a i m with
  | nil => exact absurd hi (Nat.not_lt_zero i)
  | cons b rest ih =>
    rw [List.length_cons] at hi hlen
    cases i with
    | zero =>
      rw [storeBytes, storeBytes_outside]
      · exact load8_store8 m a b
      · intro j hj
        unfold wrap
        omega
    | succ i =>
      rw [storeBytes, show a + (i + 1) = a + 1 + i by omega]
      exact ih _ (by omega) (by omega)

section Image
variable (file : List Byte)

/-- The bytes of memory that a segment takes. -/
def ProgramHeader.Covers (phdr : ProgramHeader) (x : ℕ) : Prop :=
  ∃ i < phdr.p_memsz, x = wrap (phdr.p_paddr + i)

/-- The segment is in place: the bytes of the file, and zeros behind them. -/
def SegmentBuilt (m : Mem) (phdr : ProgramHeader) : Prop :=
  (∀ i < phdr.p_filesz, file[phdr.p_offset + i]? = some (m (wrap (phdr.p_paddr + i)))) ∧
  ∀ i, phdr.p_filesz ≤ i → i < phdr.p_memsz → m (wrap (phdr.p_paddr + i)) = 0#8

def ImageBuilt (phdrs : List ProgramHeader) (m : Mem) : Prop :=
  ∀ phdr ∈ loads phdrs, SegmentBuilt file m phdr

/-- What the loader relies on: the file has the bytes of the segment, and the pages that it
    is given are zero behind them. -/
def SegmentReady (m : Mem) (phdr : ProgramHeader) : Prop :=
  (phdr.p_filesz = 0 ∨ phdr.p_offset + phdr.p_filesz ≤ file.length) ∧
  ∀ i, phdr.p_filesz ≤ i → i < phdr.p_memsz → m (wrap (phdr.p_paddr + i)) = 0#8

/-- The sizes of a header that was read from a file fit its 64-bit members. -/
structure WellSized (phdr : ProgramHeader) : Prop where
  file_le : phdr.p_filesz ≤ phdr.p_memsz
  mem_lt : phdr.p_memsz < 2 ^ 64

theorem wrap_add_inj {a i j : ℕ} (hi : i < 2 ^ 64) (hj : j < 2 ^ 64)
    (h : wrap (a + i) = wrap (a + j)) : i = j := by
  unfold wrap at h
  omega

theorem readFile_length (phdr : ProgramHeader) :
    ((file.drop phdr.p_offset).take phdr.p_filesz).length =
      min phdr.p_filesz (file.length - phdr.p_offset) := by
  rw [List.length_take, List.length_drop]

theorem readFile_of_not_covers {phdr : ProgramHeader} (hsize : WellSized phdr) (m : Mem) {x : ℕ}
    (h : ¬ phdr.Covers x) :
    readFile file phdr.p_offset phdr.p_filesz phdr.p_paddr m x = m x := by
  apply storeBytes_outside
  intro i hi heq
  rw [readFile_length] at hi
  have := hsize.file_le
  exact h ⟨i, by omega, heq⟩

theorem readFile_of_lt {phdr : ProgramHeader} (hsize : WellSized phdr) (m : Mem) {i : ℕ}
    (hi : i < phdr.p_filesz) (hfile : phdr.p_offset + i < file.length) :
    readFile file phdr.p_offset phdr.p_filesz phdr.p_paddr m (wrap (phdr.p_paddr + i)) =
      file[phdr.p_offset + i] := by
  have hlen := readFile_length file phdr
  have := hsize.file_le
  have := hsize.mem_lt
  rw [readFile, storeBytes_apply m (by omega) (by omega), List.getElem_take, List.getElem_drop]

theorem readFile_of_le {phdr : ProgramHeader} (hsize : WellSized phdr) (m : Mem) {i : ℕ}
    (hi : phdr.p_filesz ≤ i) (hmem : i < phdr.p_memsz) :
    readFile file phdr.p_offset phdr.p_filesz phdr.p_paddr m (wrap (phdr.p_paddr + i)) =
      m (wrap (phdr.p_paddr + i)) := by
  apply storeBytes_outside
  intro j hj heq
  rw [readFile_length] at hj
  have := hsize.mem_lt
  have := wrap_add_inj (by omega) (by omega) heq
  omega

theorem segmentBuilt_readFile {phdr : ProgramHeader} (hsize : WellSized phdr) (m : Mem) :
    SegmentBuilt file (readFile file phdr.p_offset phdr.p_filesz phdr.p_paddr m) phdr ↔
      SegmentReady file m phdr := by
  have hzero : (∀ i, phdr.p_filesz ≤ i → i < phdr.p_memsz →
      readFile file phdr.p_offset phdr.p_filesz phdr.p_paddr m (wrap (phdr.p_paddr + i)) = 0#8) ↔
      ∀ i, phdr.p_filesz ≤ i → i < phdr.p_memsz → m (wrap (phdr.p_paddr + i)) = 0#8 :=
    forall_congr' fun i => forall_congr' fun hi => forall_congr' fun hmem => by
      rw [readFile_of_le file hsize m hi hmem]
  rw [SegmentBuilt, SegmentReady, hzero]
  apply and_congr_left'
  constructor
  · intro hbytes
    by_cases hempty : phdr.p_filesz = 0
    · exact .inl hempty
    · have hlast := hbytes (phdr.p_filesz - 1) (by omega)
      have := (List.getElem?_eq_some_iff.1 hlast).1
      exact .inr (by omega)
  · intro hfile i hi
    have hlt : phdr.p_offset + i < file.length := by omega
    rw [readFile_of_lt file hsize m hi hlt]
    exact List.getElem?_eq_getElem hlt

theorem segmentBuilt_congr {phdr : ProgramHeader} (hsize : WellSized phdr) {m m' : Mem}
    (h : ∀ x, phdr.Covers x → m' x = m x) :
    SegmentBuilt file m' phdr ↔ SegmentBuilt file m phdr := by
  have := hsize.file_le
  have hfile : ∀ i < phdr.p_filesz, m' (wrap (phdr.p_paddr + i)) = m (wrap (phdr.p_paddr + i)) :=
    fun i hi => h _ ⟨i, by omega, rfl⟩
  apply and_congr
  · exact forall₂_congr fun i hi => by rw [hfile i hi]
  · exact forall_congr' fun i => forall₂_congr fun _ hmem => by rw [h _ ⟨i, hmem, rfl⟩]

theorem segmentReady_congr {phdr : ProgramHeader} {m m' : Mem}
    (h : ∀ x, phdr.Covers x → m' x = m x) :
    SegmentReady file m' phdr ↔ SegmentReady file m phdr := by
  apply and_congr_right'
  exact forall_congr' fun i => forall₂_congr fun _ hmem => by rw [h _ ⟨i, hmem, rfl⟩]

theorem loadSegments_of_not_covers {phdrs : List ProgramHeader}
    (hsizes : ∀ phdr ∈ loads phdrs, WellSized phdr) (s : Loader) {x : ℕ}
    (h : ∀ phdr ∈ loads phdrs, ¬ phdr.Covers x) :
    (loadSegments file phdrs s).mem x = s.mem x := by
  induction phdrs generalizing s with
  | nil => rfl
  | cons phdr phdrs ih =>
    change (loadSegments file phdrs (loadSegment file s phdr)).mem x = _
    by_cases hload : phdr.p_type = ptLoad
    · rw [loads_cons_of_load hload] at hsizes h
      rw [ih (fun p hp => hsizes p (List.mem_cons_of_mem _ hp))
        _ (fun p hp => h p (List.mem_cons_of_mem _ hp)), loadSegment, if_pos hload]
      exact readFile_of_not_covers file (hsizes phdr List.mem_cons_self) s.mem
        (h phdr List.mem_cons_self)
    · rw [loads_cons_of_ne hload] at hsizes h
      rw [ih hsizes _ h, loadSegment, if_neg hload]

/-- The segments do not disturb each other, so the image is as each read leaves its own. -/
theorem imageBuilt_loadSegments {phdrs : List ProgramHeader}
    (hsizes : ∀ phdr ∈ loads phdrs, WellSized phdr)
    (hdisjoint : (loads phdrs).Pairwise fun a b => ∀ x, a.Covers x → ¬ b.Covers x) (s : Loader) :
    ImageBuilt file phdrs (loadSegments file phdrs s).mem ↔
      ∀ phdr ∈ loads phdrs, SegmentReady file s.mem phdr := by
  induction phdrs generalizing s with
  | nil => simp [ImageBuilt, loads]
  | cons phdr phdrs ih =>
    unfold ImageBuilt at ih ⊢
    change (∀ p ∈ loads (phdr :: phdrs),
      SegmentBuilt file (loadSegments file phdrs (loadSegment file s phdr)).mem p) ↔ _
    by_cases hload : phdr.p_type = ptLoad
    · rw [loads_cons_of_load hload] at hsizes hdisjoint ⊢
      obtain ⟨hfirst, hrest⟩ := List.pairwise_cons.1 hdisjoint
      obtain ⟨hsize, hsizes⟩ := List.forall_mem_cons.1 hsizes
      have hmem : (loadSegment file s phdr).mem =
          readFile file phdr.p_offset phdr.p_filesz phdr.p_paddr s.mem := by
        rw [loadSegment, if_pos hload]
      rw [List.forall_mem_cons, List.forall_mem_cons, ih hsizes hrest]
      apply and_congr
      · have hkept : ∀ x, phdr.Covers x →
            (loadSegments file phdrs (loadSegment file s phdr)).mem x =
              (loadSegment file s phdr).mem x := fun x hx =>
          loadSegments_of_not_covers file hsizes _ (fun p hp => hfirst p hp x hx)
        rw [segmentBuilt_congr file hsize hkept, hmem, segmentBuilt_readFile file hsize]
      · apply forall₂_congr
        intro p hp
        apply segmentReady_congr
        intro x hx
        rw [hmem]
        exact readFile_of_not_covers file hsize s.mem (fun hcovers => hfirst p hp x hcovers hx)
    · rw [loads_cons_of_ne hload] at hsizes hdisjoint ⊢
      rw [ih hsizes hdisjoint, loadSegment, if_neg hload]

theorem programHeadersLoop_memsz (m : Mem) (phentsize total fuel offset : ℕ) :
    ∀ phdr ∈ programHeadersLoop m phentsize total fuel offset, phdr.p_memsz < 2 ^ 64 := by
  induction fuel generalizing offset with
  | zero => exact fun _ h => absurd h List.not_mem_nil
  | succ fuel ih =>
    rw [programHeadersLoop]
    split
    · exact List.forall_mem_cons.2 ⟨load64_lt _ _, ih _⟩
    · exact fun _ h => absurd h List.not_mem_nil

def kernelHeaders (headerBuffer pool : Mem) : List ProgramHeader :=
  readElfProgramHeader file (readElfHeader file headerBuffer) pool

theorem kernelHeaders_memsz (headerBuffer pool : Mem) :
    ∀ phdr ∈ loads (kernelHeaders file headerBuffer pool), phdr.p_memsz < 2 ^ 64 :=
  fun phdr h => programHeadersLoop_memsz _ _ _ _ _ phdr (List.mem_filter.1 h).1

end Image

/-- A kernel of two segments: a byte of the file with one behind it, and two bytes. -/
def pairKernel : List Byte :=
  [0x7f, 0x45, 0x4c, 0x46, 2, 1, 1, 0, 0, 0, 0, 0, 0, 0, 0, 0,
   2, 0, 62, 0, 1, 0, 0, 0, 0, 0, 0x20, 0, 0, 0, 0, 0,
   64, 0, 0, 0, 0, 0, 0, 0, 0, 0, 0, 0, 0, 0, 0, 0,
   0, 0, 0, 0, 64, 0, 56, 0, 2, 0, 0, 0, 0, 0, 0, 0,
   1, 0, 0, 0, 7, 0, 0, 0, 176, 0, 0, 0, 0, 0, 0, 0,
   0, 0, 0x20, 0, 0, 0, 0, 0, 0, 0, 0x20, 0, 0, 0, 0, 0,
   1, 0, 0, 0, 0, 0, 0, 0, 2, 0, 0, 0, 0, 0, 0, 0,
   0, 0x10, 0, 0, 0, 0, 0, 0, 1, 0, 0, 0, 6, 0, 0, 0,
   177, 0, 0, 0, 0, 0, 0, 0, 0, 0x10, 0x20, 0, 0, 0, 0, 0,
   0, 0x10, 0x20, 0, 0, 0, 0, 0, 2, 0, 0, 0, 0, 0, 0, 0,
   2, 0, 0, 0, 0, 0, 0, 0, 0, 0x10, 0, 0, 0, 0, 0, 0, 0xf4, 0x12, 0x34]

theorem pairKernel_loads : loads (kernelHeaders pairKernel 0 0) =
    [⟨ptLoad, 176, 0x200000, 1, 2⟩, ⟨ptLoad, 177, 0x201000, 2, 2⟩] := by
  decide +kernel

/-- A kernel of one segment: a byte of the file, and one behind it. -/
def tinyKernel : List Byte :=
  [0x7f, 0x45, 0x4c, 0x46, 2, 1, 1, 0, 0, 0, 0, 0, 0, 0, 0, 0,
   2, 0, 62, 0, 1, 0, 0, 0, 0, 0, 0x20, 0, 0, 0, 0, 0,
   64, 0, 0, 0, 0, 0, 0, 0, 0, 0, 0, 0, 0, 0, 0, 0,
   0, 0, 0, 0, 64, 0, 56, 0, 1, 0, 0, 0, 0, 0, 0, 0,
   1, 0, 0, 0, 7, 0, 0, 0, 120, 0, 0, 0, 0, 0, 0, 0,
   0, 0, 0x20, 0, 0, 0, 0, 0, 0, 0, 0x20, 0, 0, 0, 0, 0,
   1, 0, 0, 0, 0, 0, 0, 0, 2, 0, 0, 0, 0, 0, 0, 0,
   0, 0x10, 0, 0, 0, 0, 0, 0, 0xf4]

theorem tinyKernel_loads :
    loads (kernelHeaders tinyKernel 0 0) = [⟨ptLoad, 120, 0x200000, 1, 2⟩] := by
  decide +kernel

end Rizzos.ElfLoader
