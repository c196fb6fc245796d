import GaiaKernel.Fat.Entries
import GaiaKernel.Fat.MountSpec

/-! # Files on a volume

Transfers, the cluster cursor and truncation of fs/fat/fat_file.c, the VFS operations of
fat_vfs.c over them, and the mount of a device of fat_block.c.
-/
namespace GaiaKernel.Fat
open Bytes

/-- `struct fat_file`; `dirEnt` is where the record of the file is. -/
structure File where
  firstCluster : ℕ
  curCluster : ℕ
  size : ℕ
  pos : ℕ
  dirEnt : ℕ

namespace Disk
variable (v : Volume) (s : Disk)

def getCluster (entry : ℕ) : ℕ := entryGetCluster (wide v) (s.record entry)
def getSize (entry : ℕ) : ℕ := le32 (s.record entry) 28

def setCluster (entry cluster : ℕ) : Disk :=
  s.setRecord entry (entrySetCluster (wide v) (s.record entry) cluster)

def setSize (entry size : ℕ) : Disk := s.setRecord entry (entrySetSize (s.record entry) size)

def fileFromEntry (entry : ℕ) : File where
  firstCluster := s.getCluster v entry
  curCluster := s.getCluster v entry
  size := s.getSize entry
  pos := 0
  dirEnt := entry

def fatTruncate (file : File) : Disk :=
  let s := if file.firstCluster = 0 then s else s.freeChain v file.firstCluster
  let s := (s.setCluster v file.dirEnt 0).setSize file.dirEnt 0
  (s.touch file.dirEnt).flushBytes v file.dirEnt 32

def fatRead : ℕ → File → ℕ → List Byte × File
  | 0, file, _ => ([], file)
  | fuel + 1, file, length =>
    if length = 0 ∨ file.size ≤ file.pos then ([], file)
    else
      match v.clusterData file.curCluster with
      | none => ([], file)
      | some data =>
        let bytes := v.clusterBytes
        let offset := file.pos % bytes
        let chunk := min (min length (bytes - offset)) (file.size - file.pos)
        let out := slice s.image (data + offset) chunk
        let file := { file with pos := u32 (file.pos + chunk) }
        if file.pos % bytes = 0 ∧ file.pos < file.size then
          match s.nextCluster v file.curCluster with
          | .next next =>
            let (more, file) := fatRead fuel { file with curCluster := next } (length - chunk)
            (out ++ more, file)
          | _ => (out, file)
        else
          let (more, file) := fatRead fuel file (length - chunk)
          (out ++ more, file)

def walk : ℕ → ℕ → Option ℕ
  | 0, cluster => some cluster
  | skip + 1, cluster =>
    match s.nextCluster v cluster with
    | .next next => walk skip next
    | _ => none

def fatSeek (file : File) (position : ℕ) : Option File :=
  let position := if position > file.size then file.size else position
  if position = 0 ∨ file.size = 0 then
    some { file with curCluster := file.firstCluster, pos := position }
  else
    let bytes := v.clusterBytes
    let skip := position / bytes
    -- at the end of a file that fills its last cluster this cluster stays current
    let skip := if position = file.size ∧ position % bytes = 0 then skip - 1 else skip
    (s.walk v skip file.firstCluster).map fun cluster =>
      { file with curCluster := cluster, pos := position }

/-- The next cluster of a file that is written to, a new one at the end of its chain. -/
def advance (cluster : ℕ) : Disk × Option ℕ :=
  match s.nextCluster v cluster with
  | .broken => (s, none)
  | .next next => (s, some next)
  | .last =>
    match s.allocCluster v with
    | (s, none) => (s, none)
    | (s, some next) => (s.fatSet v cluster next, some next)

def writeLoop : ℕ → Disk → File → List Byte → Disk × File × ℕ
  | 0, s, file, _ => (s, file, 0)
  | fuel + 1, s, file, data =>
    if data = [] then (s, file, 0)
    else
      match v.clusterData file.curCluster with
      | none => (s, file, 0)
      | some base =>
        let bytes := v.clusterBytes
        let offset := file.pos % bytes
        let chunk := min data.length (bytes - offset)
        let s := (s.store (base + offset) (data.take chunk)).flushBytes v (base + offset) chunk
        let file := { file with pos := u32 (file.pos + chunk) }
        if file.pos % bytes = 0 ∧ data.drop chunk ≠ [] then
          match s.advance v file.curCluster with
          | (s, none) => (s, file, chunk)
          | (s, some next) =>
            let (s, file, total) := writeLoop fuel s { file with curCluster := next } (data.drop chunk)
            (s, file, chunk + total)
        else
          let (s, file, total) := writeLoop fuel s file (data.drop chunk)
          (s, file, chunk + total)

/-- `fat_write` stands at the end of a full last cluster. -/
def AtBoundary (file : File) (data : List Byte) : Prop :=
  data ≠ [] ∧ file.pos > 0 ∧ file.pos = file.size ∧ file.pos % v.clusterBytes = 0

instance (file : File) (data : List Byte) : Decidable (AtBoundary v file data) :=
  inferInstanceAs (Decidable (_ ∧ _))

def writeFrom (file : File) (data : List Byte) : Disk × File × ℕ :=
  let (s, file, total) := writeLoop v (data.length + 1) s file data
  let (s, file) := if file.pos > file.size then
      (s.setSize file.dirEnt file.pos, { file with size := file.pos })
    else (s, file)
  let s := (s.touch file.dirEnt).flushBytes v file.dirEnt 32
  let file := if file.pos > 0 ∧ file.pos < file.size ∧ file.pos % v.clusterBytes = 0 then
      match s.nextCluster v file.curCluster with
      | .next next => { file with curCluster := next }
      | _ => file
    else file
  (s, file, total)

def writeOn (file : File) (data : List Byte) : Disk × File × ℕ :=
  if AtBoundary v file data then
    match s.advance v file.curCluster with
    | (s, none) => (s, file, 0)
    | (s, some next) => s.writeFrom v { file with curCluster := next } data
  else s.writeFrom v file data

def fatWrite (file : File) (data : List Byte) : Disk × File × ℕ :=
  if file.firstCluster = 0 then
    match s.allocCluster v with
    | (s, none) => (s, file, 0)
    | (s, some cluster) =>
      (s.setCluster v file.dirEnt cluster).writeOn v
        { file with firstCluster := cluster, curCluster := cluster } data
  else s.writeOn v file data

/-! ## The VFS operations -/

/-- The inodes of the VFS are known by the offsets of their records; the root has none. -/
abbrev Inode := Option ℕ

def directory : Inode → FatDir
  | none => rootDirectory v
  | some entry => ⟨s.getCluster v entry,false⟩

def readOnly (entry : ℕ) : Prop := s.record entry attrAt &&& 0x01#8 ≠ 0
instance (entry : ℕ) : Decidable (s.readOnly entry) := inferInstanceAs (Decidable (_ ≠ _))

def cursor (entry position : ℕ) : Option File :=
  if position > 0xFFFFFFFF then none else s.fatSeek v (s.fileFromEntry v entry) position

def vfsRead (entry position length : ℕ) : List Byte × ℕ :=
  if s.getSize entry ≤ position then ([], position)
  else
    match s.cursor v entry position with
    | none => ([], position)
    | some file =>
      let (out, file) := s.fatRead v (length + 1) file length
      (out, file.pos)

def fillLoop : ℕ → Disk → File → ℕ → Disk × Bool
  | 0, s, _, gap => (s, gap = 0)
  | fuel + 1, s, file, gap =>
    if gap = 0 then (s, true)
    else
      let n := if gap < 512 then gap else 512
      let (s, file, total) := s.fatWrite v file (List.replicate n 0)
      if total ≠ n then (s, false) else fillLoop fuel s file (gap - n)

def fillGap (entry position : ℕ) : Disk × Bool :=
  let size := s.getSize entry
  if position ≤ size then (s, true)
  else
    match s.cursor v entry size with
    | none => (s, false)
    | some file => fillLoop v (position - size) s file (position - size)

/-- `write`: the state, how much it has written, and the new position. -/
def vfsWrite (entry position : ℕ) (data : List Byte) : Disk × ℕ × ℕ :=
  if s.readOnly entry then (s, 0, position)
  else
    match s.fillGap v entry position with
    | (s, false) => (s, 0, position)
    | (s, true) =>
      match s.cursor v entry position with
      | none => (s, 0, position)
      | some file =>
        let (s, file, count) := s.fatWrite v file (data.take (0xFFFFFFFF - file.pos))
        (s, count, file.pos)

def vfsTruncate (entry : ℕ) : Disk × Bool :=
  if s.readOnly entry then (s, false)
  else
    match s.cursor v entry 0 with
    | none => (s, false)
    | some file => (s.fatTruncate v file, true)

def vfsCreate (dir : Inode) (name : List Byte) (memory : Bool) : Disk × Option ℕ :=
  let parent := s.directory v dir
  match s.createAt v parent name with
  | (s, none) => (s, none)
  | (s, some e) => if memory then (s, some e.raw) else ((s.removeAt v parent name false).1, none)

inductive DiskOp where
  | create (dir : Inode) (name : List Byte) (memory : Bool)
  | mkdir (dir : Inode) (name : List Byte)
  | unlink (dir : Inode) (name : List Byte)
  | rmdir (dir : Inode) (name : List Byte)
  | write (entry position : ℕ) (data : List Byte)
  | truncate (entry : ℕ)

/-- A write comes after a `seek`, which refuses positions beyond 32 bits. -/
def step : DiskOp → Disk
  | .create dir name memory => (s.vfsCreate v dir name memory).1
  | .mkdir dir name => (s.mkdirAt v (s.directory v dir) name).1
  | .unlink dir name => (s.removeAt v (s.directory v dir) name false).1
  | .rmdir dir name => (s.removeAt v (s.directory v dir) name true).1
  | .write entry position data =>
    if position > 0xFFFFFFFF then s else (s.vfsWrite v entry position data).1
  | .truncate entry => (s.vfsTruncate v entry).1

end Disk

/-! ## The mount of a device -/

def isExfat (byte : ℕ → Byte) : Prop :=
  slice byte 3 8 = [0x45#8, 0x58#8, 0x46#8, 0x41#8, 0x54#8, 0x20#8, 0x20#8, 0x20#8]

instance (byte : ℕ → Byte) : Decidable (isExfat byte) := inferInstanceAs (Decidable (_ = _))

def fatVolumeSize (boot : ℕ → Byte) : Option ℕ :=
  let b := Bpb.read boot
  if isExfat boot ∨ b.bytesPerSector < 512 ∨ b.bytesPerSector > 4096 ∨
      b.bytesPerSector &&& (b.bytesPerSector - 1) ≠ 0 ∨ b.totalSectors = 0 then none
  else some (b.totalSectors * b.bytesPerSector)

/-- `fat_mount_block` of a device with so many sectors of 512 bytes: the image is read in. -/
def fatMountBlock (device : ℕ → Byte) (sectors : ℕ) (clock : ℕ → Option (ℕ × ℕ)) :
    Option (Volume × Disk) :=
  match fatVolumeSize device with
  | none => none
  | some size =>
    if size / 512 > sectors then none
    else (fatMountFormat ⟨size,device⟩).map fun v => (v, ⟨device,device,clock⟩)

end GaiaKernel.Fat
