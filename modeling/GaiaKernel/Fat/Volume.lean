import GaiaKernel.Lib.Bytes
import GaiaKernel.Memory.Word

/-! # The geometry of a mounted FAT volume

`fat_mount_format` of fs/fat/fat_mount.c and the address arithmetic of that file. Offsets are
byte offsets into the image; sector numbers are `u32` in the source and wrap where they do
there.
-/
namespace GaiaKernel.Fat
open Bytes

def u32 (n : ℕ) : ℕ := n % 2 ^ 32
theorem u32_of_lt {n : ℕ} (h : n < 2 ^ 32) : u32 n = n := Nat.mod_eq_of_lt h
theorem u32_lt (n : ℕ) : u32 n < 2 ^ 32 := Nat.mod_lt _ (by decide)
theorem u32_le (n : ℕ) : u32 n ≤ n := Nat.mod_le _ _

structure Image where
  size : ℕ
  byte : ℕ → Byte

structure Bpb where
  bytesPerSector : ℕ
  sectorsPerCluster : ℕ
  reservedSectors : ℕ
  numFats : ℕ
  rootEntries : ℕ
  totalSectors16 : ℕ
  sectorsPerFat16 : ℕ
  totalSectors32 : ℕ
  sectorsPerFat32 : ℕ
  rootCluster : ℕ

def Bpb.read (byte : ℕ → Byte) : Bpb where
  bytesPerSector := le16 byte 11
  sectorsPerCluster := (byte 13).toNat
  reservedSectors := le16 byte 14
  numFats := (byte 16).toNat
  rootEntries := le16 byte 17
  totalSectors16 := le16 byte 19
  sectorsPerFat16 := le16 byte 22
  totalSectors32 := le32 byte 32
  sectorsPerFat32 := le32 byte 36
  rootCluster := le32 byte 44

namespace Bpb
variable (b : Bpb)

def totalSectors : ℕ := if b.totalSectors16 ≠ 0 then b.totalSectors16 else b.totalSectors32
def fatSectors : ℕ := if b.sectorsPerFat16 ≠ 0 then b.sectorsPerFat16 else b.sectorsPerFat32

end Bpb

inductive FatType where
  | fat16
  | fat32
  deriving DecidableEq, Repr

structure Volume where
  imageSize : ℕ
  bytesPerSector : ℕ
  sectorsPerCluster : ℕ
  fatCount : ℕ
  sectorsPerFat : ℕ
  fatStartSector : ℕ
  rootStartSector : ℕ
  dataStartSector : ℕ
  rootEntries : ℕ
  rootCluster : ℕ
  clusterLimit : ℕ
  type : FatType

def fatMountFormat (img : Image) : Option Volume :=
  if img.size < 512 then none
  else
    let b := Bpb.read img.byte
    if b.bytesPerSector < 512 ∨ b.bytesPerSector > 4096 ∨
        b.bytesPerSector &&& (b.bytesPerSector - 1) ≠ 0 ∨ b.sectorsPerCluster = 0 ∨
        b.reservedSectors = 0 ∨ b.numFats = 0 ∨ b.fatSectors = 0 ∨ b.totalSectors = 0 ∨
        b.totalSectors * b.bytesPerSector > img.size then none
    else
      let rootSectors := u32 (b.rootEntries * 32 + b.bytesPerSector - 1) / b.bytesPerSector
      let fatStart := b.reservedSectors
      let rootStart := u32 (fatStart + u32 (b.numFats * b.fatSectors))
      let dataStart := u32 (rootStart + rootSectors)
      if rootStart < fatStart ∨ dataStart < rootStart ∨ dataStart ≥ b.totalSectors then none
      else
        let dataClusters := (b.totalSectors - dataStart) / b.sectorsPerCluster
        if dataClusters < 4085 then none
        else
          let type := if dataClusters < 65525 then FatType.fat16 else FatType.fat32
          let entryBytes := if type = .fat32 then 4 else 2
          let fatEntries := u32 (b.fatSectors * b.bytesPerSector / entryBytes)
          let limit := u32 (dataClusters + 2)
          let limit := if limit > fatEntries then fatEntries else limit
          if limit ≤ 2 then none
          else if type = .fat16 ∧ limit ≥ 0xFFF0 then none
          else if type = .fat16 ∧ (b.rootEntries = 0 ∨ rootSectors = 0) then none
          else if type = .fat32 ∧ (b.rootEntries ≠ 0 ∨ rootSectors ≠ 0) then none
          else if type = .fat32 ∧ (b.rootCluster < 2 ∨ b.rootCluster ≥ limit) then none
          else some {
            imageSize := img.size
            bytesPerSector := b.bytesPerSector
            sectorsPerCluster := b.sectorsPerCluster
            fatCount := b.numFats
            sectorsPerFat := b.fatSectors
            fatStartSector := fatStart
            rootStartSector := rootStart
            dataStartSector := dataStart
            rootEntries := b.rootEntries
            rootCluster := if type = .fat32 then b.rootCluster else 0
            clusterLimit := limit
            type := type }

namespace Volume
variable (v : Volume)

def clusterBytes : ℕ := v.sectorsPerCluster * v.bytesPerSector
def sector (lba : ℕ) : ℕ := lba * v.bytesPerSector
def clusterIsValid (cluster : ℕ) : Prop := 2 ≤ cluster ∧ cluster < v.clusterLimit

instance (cluster : ℕ) : Decidable (v.clusterIsValid cluster) :=
  inferInstanceAs (Decidable (_ ∧ _))

def clusterEoc : ℕ :=
  match v.type with
  | .fat32 => 0x0FFFFFFF
  | .fat16 => 0xFFFF

def clusterIsEoc (value : ℕ) : Prop :=
  match v.type with
  | .fat32 => 0x0FFFFFF8 ≤ value
  | .fat16 => 0xFFF8 ≤ value

instance (value : ℕ) : Decidable (v.clusterIsEoc value) := by
  unfold clusterIsEoc
  cases v.type <;> infer_instance

def entryWidth : ℕ := if v.type = .fat16 then 2 else 4

/-- First sector of a copy of the table, as `fat_set` computes it. -/
def fatSector (f : ℕ) : ℕ := u32 (v.fatStartSector + u32 (f * v.sectorsPerFat))
def entryOffset (f cluster : ℕ) : ℕ := v.sector (v.fatSector f) + cluster * v.entryWidth

def clusterSector (cluster : ℕ) : ℕ :=
  u32 (v.dataStartSector + u32 ((cluster - 2) * v.sectorsPerCluster))

def clusterData (cluster : ℕ) : Option ℕ :=
  if v.clusterIsValid cluster then some (v.sector (v.clusterSector cluster)) else none

def rootSectors : ℕ := (v.rootEntries * 32 + v.bytesPerSector - 1) / v.bytesPerSector

end Volume

end GaiaKernel.Fat
