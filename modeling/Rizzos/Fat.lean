import Rizzos.StructLayout

set_option autoImplicit false

/-! The boot sector decoder of `filesystems/fat.c`. -/
namespace Rizzos.Fat
open ByteMemory StructLayout

structure FatBpb where
  jmpToCode : List Byte
  oemIdentifier : List Byte
  numBytesPerSector : ℕ
  sectorsPerCluster : ℕ
  numReservedSectors : ℕ
  numFileAlocationTables : ℕ
  numRootDirEntries : ℕ
  numLogicalSectors : ℕ
  mediaDescriptorType : ℕ
  numSectorsPerFat : ℕ
  numSectorsPerTrack : ℕ
  numHeads : ℕ
  numHiddenSectors : ℕ
  largeSectorCount : ℕ
deriving DecidableEq

structure FatEbpb16 where
  driveNumber : ℕ
  resv : ℕ
  signature : ℕ
  volumeID : ℕ
  volumeLable : List Byte
  systemIdentString : List Byte
deriving DecidableEq

structure Fat16 where
  bpb : FatBpb
  ebpb : FatEbpb16
deriving DecidableEq

/-- The members of `FAT_Bpb` in declaration order. Neither struct is packed. -/
def fatBpbMembers : List CType :=
  [.array .uint8 3, .array .uint8 8, .uint16, .uint8, .uint16, .uint8, .uint16, .uint16, .uint8,
    .uint16, .uint16, .uint16, .uint32, .uint32]

def fatEbpb16Members : List CType :=
  [.uint8, .uint8, .uint8, .uint32, .array .uint8 11, .array .uint8 8]

example : (place 0 fatBpbMembers).1 = [0, 3, 12, 14, 16, 18, 20, 22, 24, 26, 28, 30, 32, 36] := by
  decide

def loadBpb (m : Mem) (a : ℕ) : FatBpb where
  jmpToCode := loadMemberBytes m a fatBpbMembers 0
  oemIdentifier := loadMemberBytes m a fatBpbMembers 1
  numBytesPerSector := loadMember m a fatBpbMembers 2
  sectorsPerCluster := loadMember m a fatBpbMembers 3
  numReservedSectors := loadMember m a fatBpbMembers 4
  numFileAlocationTables := loadMember m a fatBpbMembers 5
  numRootDirEntries := loadMember m a fatBpbMembers 6
  numLogicalSectors := loadMember m a fatBpbMembers 7
  mediaDescriptorType := loadMember m a fatBpbMembers 8
  numSectorsPerFat := loadMember m a fatBpbMembers 9
  numSectorsPerTrack := loadMember m a fatBpbMembers 10
  numHeads := loadMember m a fatBpbMembers 11
  numHiddenSectors := loadMember m a fatBpbMembers 12
  largeSectorCount := loadMember m a fatBpbMembers 13

def loadEbpb16 (m : Mem) (a : ℕ) : FatEbpb16 where
  driveNumber := loadMember m a fatEbpb16Members 0
  resv := loadMember m a fatEbpb16Members 1
  signature := loadMember m a fatEbpb16Members 2
  volumeID := loadMember m a fatEbpb16Members 3
  volumeLable := loadMemberBytes m a fatEbpb16Members 4
  systemIdentString := loadMemberBytes m a fatEbpb16Members 5

/-- `none` is the null pointer; the heap never fails, so the copy is always made. -/
def fatParseFat16_12 (m : Mem) (buffer : ℕ) : Option Fat16 :=
  let bpb := loadBpb m buffer
  if bpb.jmpToCode.getD 0 0 ≠ 0xeb#8 ∨ bpb.jmpToCode.getD 2 0 ≠ 0x90#8 then none
  else
    let ebpb := loadEbpb16 m (buffer + structSize fatBpbMembers)
    if ebpb.signature = 0x28 ∨ ebpb.signature = 0x29 then none
    else some ⟨bpb, ebpb⟩

/-- The fields of a FAT12/16 boot sector at the offsets that the format gives them. -/
def onDisk (m : Mem) (buffer : ℕ) : Fat16 where
  bpb := {
    jmpToCode := loadBytes m buffer 3
    oemIdentifier := loadBytes m (buffer + 3) 8
    numBytesPerSector := loadLE m (buffer + 11) 2
    sectorsPerCluster := loadLE m (buffer + 13) 1
    numReservedSectors := loadLE m (buffer + 14) 2
    numFileAlocationTables := loadLE m (buffer + 16) 1
    numRootDirEntries := loadLE m (buffer + 17) 2
    numLogicalSectors := loadLE m (buffer + 19) 2
    mediaDescriptorType := loadLE m (buffer + 21) 1
    numSectorsPerFat := loadLE m (buffer + 22) 2
    numSectorsPerTrack := loadLE m (buffer + 24) 2
    numHeads := loadLE m (buffer + 26) 2
    numHiddenSectors := loadLE m (buffer + 28) 4
    largeSectorCount := loadLE m (buffer + 32) 4 }
  ebpb := {
    driveNumber := loadLE m (buffer + 36) 1
    resv := loadLE m (buffer + 37) 1
    signature := loadLE m (buffer + 38) 1
    volumeID := loadLE m (buffer + 39) 4
    volumeLable := loadBytes m (buffer + 43) 11
    systemIdentString := loadBytes m (buffer + 54) 8 }

def JumpBytes (m : Mem) (buffer : ℕ) : Prop :=
  load8 m buffer = 0xeb#8 ∧ load8 m (buffer + 2) = 0x90#8

def ExtendedSignature (b : Byte) : Prop := b = 0x28#8 ∨ b = 0x29#8

instance (b : Byte) : Decidable (ExtendedSignature b) := inferInstanceAs (Decidable (_ ∨ _))

/-- The decoder accepts exactly the sectors that carry both marks, and decodes every field. -/
def DecodesSector (m : Mem) (buffer : ℕ) : Prop :=
  ((fatParseFat16_12 m buffer).isSome ↔
    JumpBytes m buffer ∧ ExtendedSignature (load8 m (buffer + 38))) ∧
  ∀ fat16, fatParseFat16_12 m buffer = some fat16 → fat16 = onDisk m buffer

theorem signature_eq (m : Mem) (buffer : ℕ) :
    (loadEbpb16 m (buffer + structSize fatBpbMembers)).signature =
      (load8 m (buffer + 42)).toNat := by
  change loadLE m (buffer + 40 + 2) 1 = _
  simp [loadLE]

/-- The decoder's own test: the jump bytes, and no extended signature at offset 42. -/
theorem fatParseFat16_12_isSome (m : Mem) (buffer : ℕ) : (fatParseFat16_12 m buffer).isSome ↔
    JumpBytes m buffer ∧ ¬ ExtendedSignature (load8 m (buffer + 42)) := by
  have hjump : (loadBpb m buffer).jmpToCode.getD 0 0 = load8 m buffer ∧
      (loadBpb m buffer).jmpToCode.getD 2 0 = load8 m (buffer + 2) := ⟨rfl, rfl⟩
  have hsig : ExtendedSignature (load8 m (buffer + 42)) ↔
      (load8 m (buffer + 42)).toNat = 0x28 ∨ (load8 m (buffer + 42)).toNat = 0x29 := by
    simp [ExtendedSignature, BitVec.toNat_eq]
  unfold fatParseFat16_12
  simp only [hjump, signature_eq, JumpBytes, hsig]
  split
  · rename_i h
    simp only [Option.isSome_none, Bool.false_eq_true, false_iff]
    tauto
  · rename_i h
    push Not at h
    split <;> simp_all

theorem fatParseFat16_12_signature {m : Mem} {buffer : ℕ} {fat16 : Fat16}
    (h : fatParseFat16_12 m buffer = some fat16) :
    fat16.ebpb.signature = (load8 m (buffer + 42)).toNat := by
  have hebpb : fat16.ebpb = loadEbpb16 m (buffer + structSize fatBpbMembers) := by
    unfold fatParseFat16_12 at h
    dsimp only at h
    split at h
    · cases h
    · split at h
      · cases h
      · rw [← Option.some_inj.1 h]
  rw [hebpb, signature_eq]

/-- No sector is decoded: the decoder agrees with the format only on those both reject. -/
theorem decodesSector_iff (m : Mem) (buffer : ℕ) : DecodesSector m buffer ↔
    ¬ JumpBytes m buffer ∨ (ExtendedSignature (load8 m (buffer + 42)) ∧
      ¬ ExtendedSignature (load8 m (buffer + 38))) := by
  have hnone : ∀ fat16, fatParseFat16_12 m buffer = some fat16 →
      JumpBytes m buffer ∧ ¬ ExtendedSignature (load8 m (buffer + 42)) := fun _ h =>
    (fatParseFat16_12_isSome m buffer).1 (Option.isSome_of_eq_some h)
  constructor
  · rintro ⟨haccept, hfields⟩
    rw [fatParseFat16_12_isSome] at haccept
    by_cases hjump : JumpBytes m buffer
    · simp only [hjump, true_and, not_true_eq_false, false_or] at haccept ⊢
      by_cases hcode : ExtendedSignature (load8 m (buffer + 42))
      · exact ⟨hcode, fun hdisk => haccept.2 hdisk hcode⟩
      · -- the sector is accepted by both, so its two signature bytes would have to agree
        have hdisk := haccept.1 hcode
        obtain ⟨fat16, hsome⟩ := Option.isSome_iff_exists.1
          ((fatParseFat16_12_isSome m buffer).2 ⟨hjump, hcode⟩)
        have hsig : fat16.ebpb.signature = (load8 m (buffer + 38)).toNat := by
          rw [hfields fat16 hsome]
          simp [onDisk, loadLE]
        rw [fatParseFat16_12_signature hsome] at hsig
        exact absurd (BitVec.eq_of_toNat_eq hsig ▸ hdisk) hcode
    · exact .inl hjump
  · intro h
    refine ⟨?_, fun fat16 hsome => ?_⟩
    · rw [fatParseFat16_12_isSome]
      tauto
    · have := hnone fat16 hsome
      tauto

def bootSector : Mem := fun a =>
  let cells : List (ℕ × ℕ) := [(0, 0xeb), (1, 0x3c), (2, 0x90), (12, 0x02), (13, 4), (14, 1),
    (16, 2), (18, 0x02), (21, 0xf8), (22, 32), (24, 32), (26, 2), (36, 0x80), (38, 0x29)]
  BitVec.ofNat 8 ((cells.lookup a).getD 0)

/-- It is accepted, and its bytes per sector are read from the wrong offset. -/
theorem decodesSector_bootSector : ¬ DecodesSector bootSector 0 := by
  rintro ⟨_, hfields⟩
  have hparse : fatParseFat16_12 bootSector 0 =
      some ⟨loadBpb bootSector 0, loadEbpb16 bootSector 40⟩ := by decide +kernel
  have hbytes := congrArg (fun fat16 => fat16.bpb.numBytesPerSector) (hfields _ hparse)
  exact absurd hbytes (by decide +kernel)

end Rizzos.Fat
