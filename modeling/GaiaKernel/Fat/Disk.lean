import GaiaKernel.Fat.Directory
import GaiaKernel.Fat.Volume

/-! # A mounted volume and its clusters

The image in memory and the device behind it, with the functions of fs/fat/fat_mount.c. Pointers
into the image are byte offsets. A store changes the image only; what reaches the device goes
through `fat_flush_bytes`.
-/
namespace GaiaKernel.Fat
open Bytes

structure Disk where
  image : ℕ → Byte
  device : ℕ → Byte
  clock : ℕ → Option (ℕ × ℕ)

namespace Disk
variable (v : Volume) (s : Disk)

def store (off : ℕ) (xs : List Byte) : Disk := { s with image := blit s.image off xs }

def flushSector (lba : ℕ) : Disk :=
  { s with device := blit s.device (v.sector lba) (slice s.image (v.sector lba) v.bytesPerSector) }

def flushBytes (start len : ℕ) : Disk :=
  if len = 0 ∨ v.imageSize ≤ start then s
  else
    let len := if len > v.imageSize - start then v.imageSize - start else len
    let first := u32 (start / v.bytesPerSector)
    let last := u32 ((start + len - 1) / v.bytesPerSector)
    (List.range' first (last + 1 - first)).foldl (flushSector v) s

/-! ## The table -/

def fatGet (cluster : ℕ) : ℕ :=
  let table := v.sector v.fatStartSector
  match v.type with
  | .fat32 => le32 s.image (table + cluster * 4) % 2 ^ 28
  | .fat16 => le16 s.image (table + cluster * 2)

/-- FAT32 keeps the four highest bits. -/
def fatPut (table cluster value : ℕ) : Disk :=
  match v.type with
  | .fat32 =>
    let old := le32 s.image (table + cluster * 4)
    let value := old / 2 ^ 28 * 2 ^ 28 + value % 2 ^ 28
    s.store (table + cluster * 4) (word value ++ word (value / 65536))
  | .fat16 => s.store (table + cluster * 2) (word value)

def fatSet (cluster value : ℕ) : Disk :=
  (List.range v.fatCount).foldl (fun s f =>
    let table := v.sector (v.fatSector f)
    (s.fatPut v table cluster value).flushBytes v (table + cluster * v.entryWidth) v.entryWidth) s

inductive Link where
  | broken
  | last
  | next (cluster : ℕ)

def nextCluster (cluster : ℕ) : Link :=
  if ¬ v.clusterIsValid cluster then .broken
  else
    let value := s.fatGet v cluster
    if v.clusterIsEoc value then .last
    else if ¬ v.clusterIsValid value then .broken
    else .next value

def allocCluster : Disk × Option ℕ :=
  match (List.range' 2 (v.clusterLimit - 2)).find? fun c => s.fatGet v c = 0 with
  | none => (s, none)
  | some c =>
    let data := v.sector (v.clusterSector c)
    let s := s.fatSet v c v.clusterEoc
    let s := s.store data (List.replicate v.clusterBytes 0)
    (s.flushBytes v data v.clusterBytes, some c)

def freeLoop : ℕ → Disk → ℕ → Disk
  | 0, s, _ => s
  | count + 1, s, current =>
    if ¬ v.clusterIsValid current then s
    else
      let next := s.fatGet v current
      let s := s.fatSet v current 0
      if v.clusterIsEoc next ∨ ¬ v.clusterIsValid next then s else freeLoop count s next

def freeChain (first : ℕ) : Disk := freeLoop v v.clusterLimit s first

/-! ## Records -/

def record (off : ℕ) : Slot := fun i => s.image (off + i)
def setRecord (off : ℕ) (entry : Slot) : Disk := s.store off (slice entry 0 32)

def touch (off : ℕ) : Disk :=
  { s.setRecord off (setTimestamp (s.clock 0) (s.record off)) with clock := fun i => s.clock (i + 1) }

def wide : Bool := v.type = .fat32

end Disk

end GaiaKernel.Fat
