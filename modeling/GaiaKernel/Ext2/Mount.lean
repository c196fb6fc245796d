import GaiaKernel.Ext2.Files

/-! # Mounting a volume and calling it

`mount_common` of fs/ext2/ext2_mount.c and the operations of fs/ext2/ext2_vfs.c. A node is a VFS
inode: its number and the disk inode it points to, which is looked up once.
-/
namespace GaiaKernel.Ext2
open Bytes Fallible Prog

/-! ### The mount -/

/-- `struct ext2_fs` before the mount has filled it in. -/
def rawVolume (image : ℕ → Byte) (size : ℕ) (lazy : Option Lazy) : Volume where
  image := image
  logBlockSize := haveI := neZero_three; 0
  dirtyBlocks := none
  ioFailed := false
  imageSize := size
  groups := 0
  inodeSize := 0
  groupCount := 0
  lazy := lazy

def extMagic : ℕ := 0xEF53

/-- The checks of the superblock in `mount_common`: what `struct ext2_fs` takes from it, if they
pass. -/
structure Layout where
  logBlockSize : Fin 3
  groups : ℕ
  inodeSize : ℕ
  groupCount : ℕ

def groupsFor (count perGroup : ℕ) : ℕ := (count + perGroup - 1) % 2 ^ 32 / perGroup
def inodeSizeOf (revision inodeSize : ℕ) : ℕ := if revision = 0 then 128 else inodeSize

def checkSuperblock (size : ℕ) : M (Option Layout) := do
  let inodes ← inodesCount
  let blocks ← blocksCount
  let firstData ← firstDataBlock
  let logBlockSize ← superField 24 4
  let logFragmentSize ← superField 28 4
  let perGroup ← blocksPerGroup
  let inodesPer ← inodesPerGroup
  let revision ← superField 76 4
  let inodeSize := inodeSizeOf revision (← superField 88 2)
  let compat ← superField 92 4
  let incompat ← superField 96 4
  let roCompat ← superField 100 4
  let blockSize := 1024 * 2 ^ logBlockSize
  let groupCount := groupsFor (blocks - firstData) perGroup
  if h : logBlockSize ≤ 2 then
    if revision ≤ 1 ∧ perGroup ≠ 0 ∧ inodesPer ≠ 0 ∧ firstData < blocks ∧ compat &&& 4 = 0 ∧
        incompat &&& (2 ^ 32 - 3) = 0 ∧ roCompat &&& (2 ^ 32 - 4) = 0 ∧
        firstData = (if blockSize = 1024 then 1 else 0) ∧ logFragmentSize = logBlockSize ∧
        perGroup ≤ blockSize * 8 ∧ inodesPer ≤ blockSize * 8 ∧ blocks * blockSize ≤ size ∧
        groupCount ≠ 0 ∧ groupsFor inodes inodesPer = groupCount ∧
        128 ≤ inodeSize ∧ inodeSize ≤ blockSize ∧ inodeSize % 4 = 0 then
      pure (some ⟨⟨logBlockSize,by omega⟩,(firstData + 1) * blockSize,inodeSize,groupCount⟩)
    else pure none
  else pure none

def checkGroup (tableBlocks group : ℕ) : M Bool := do
  let blocks ← blocksCount
  let table ← inodeTable group
  if (← ext2Block (← blockBitmap group)).isNone then pure false
  else if (← ext2Block (← inodeBitmap group)).isNone then pure false
  else pure (decide (table ≠ 0 ∧ table < blocks ∧ tableBlocks ≤ blocks - table))

/-- The end of `mount_common`: the group descriptors and the root inode. -/
def checkVolume : M Bool := do
  let v ← look
  let tableBlocks := ((← inodesPerGroup) * v.inodeSize + v.blockSize - 1) / v.blockSize
  let bad ← firstOf (fun group => do
    if ← checkGroup tableBlocks group then pure none else pure (some ())) (List.range v.groupCount)
  if bad.isSome then pure false
  else
    match ← ext2InodeGet 2 with
    | none => pure false
    | some root => pure (decide ((← inodeField root 0 2) &&& ext2SIfmt = ext2SIfdir))

def mountCommon : M Bool := do
  let size := (← look).imageSize
  if ← ext2LazyEnsure 0 (min size 2048) then
    if size < 2048 then pure false
    else if (← superField 56 2) ≠ extMagic then pure false
    else
      match ← checkSuperblock size with
      | none => pure false
      | some layout => do
        if size < layout.groups ∨ size - layout.groups < 32 * layout.groupCount then pure false
        else if ← ext2LazyEnsure layout.groups (32 * layout.groupCount) then do
          change fun v =>
            { v with
              logBlockSize := layout.logBlockSize
              groups := layout.groups
              inodeSize := layout.inodeSize
              groupCount := layout.groupCount }
          checkVolume
        else pure false
  else pure false

/-- The volume, if the mount of an image succeeds. `device` is set for a mount of a block device,
which keeps a bitmap of dirty blocks. -/
def mount (image : ℕ → Byte) (size : ℕ) (lazy : Option Lazy) (device : Bool) : Option Volume :=
  match mountCommon (rawVolume image size lazy) with
  | (.ok true, v) =>
    some { v with dirtyBlocks := if device then some fun _ => false else none }
  | _ => none

/-! ### Calls -/

structure Node where
  number : ℕ
  disk : ℕ
  isDirectory : Bool
  deriving DecidableEq

/-- `memory` says whether the VFS has memory for a node. -/
def ext2VfsInode (number : ℕ) (memory : Bool) : M (Option Node) := do
  match ← ext2InodeGet number with
  | none => pure none
  | some disk => do
    let kind := (← inodeField disk 0 2) &&& ext2SIfmt
    let fileAcl ← inodeField disk 104 4
    let fragment ← inodeField disk 112 4
    let flags ← inodeField disk 32 4
    let directoryAcl ← inodeField disk 108 4
    if (kind ≠ ext2SIfreg ∧ kind ≠ ext2SIfdir) ∨ fileAcl ≠ 0 ∨ fragment ≠ 0 ∨
        flags &&& (2 ^ 32 - 1 - 0xC8) ≠ 0 ∨ (kind = ext2SIfreg ∧ directoryAcl ≠ 0) ∨
        memory = false then
      pure none
    else pure (some ⟨number,disk,decide (kind = ext2SIfdir)⟩)

def ext2SyncVolume (answers : Answers) : M ℤ := do
  let r := ext2Sync (← look).toFs answers
  change fun v => { v with toFs := r.2.1 }
  pure r.2.2

inductive Reply where
  | status (code : ℤ)
  | node (n : Node)
  | bytes (data : List Byte)
  | entry (next : ℕ) (name : List Byte) (inode : ℕ) (type : Byte)
  deriving DecidableEq

def refused : Reply := .status (-1)

/-- Operations that change the volume do nothing once a writeback has failed. -/
def unlessFailed (p : M Reply) : M Reply := do
  if (← look).ioFailed then pure refused else p

def lookup (dir : Node) (name : List Byte) (memory : Bool) : M Reply := do
  match ← ext2DirLookup dir.number name with
  | none => pure refused
  | some number =>
    match ← ext2VfsInode number memory with
    | none => pure refused
    | some node => pure (.node node)

def getattr (node : Node) : M Reply := do
  let _ ← inodeField node.disk 4 4
  let _ ← inodeField node.disk 28 4
  let _ ← inodeField node.disk 0 2
  pure (.status 0)

def setmode (node : Node) (permissions : ℕ) (answers : Answers) : M Reply := unlessFailed do
  let mode ← inodeField node.disk 0 2
  setInodeField node.disk 0 2 ((mode &&& ext2SIfmt) ||| (permissions &&& 0o7777))
  dirtyInode (some node.disk)
  pure (.status (← ext2SyncVolume answers))

def addIf (ready : Bool) (directory : ℕ) (name : List Byte) (number : ℕ) (type : Byte) : M Bool :=
  if ready then ext2DirAdd directory name number type else pure false

def giveBack (number : ℕ) (disk : Option ℕ) : M Unit :=
  match disk with
  | some disk => ext2InodeFree number disk
  | none => pure ()

def create (dir : Node) (name : List Byte) (memory : Bool) (answers : Answers) : M Reply :=
  unlessFailed do
    if (← ext2DirLookup dir.number name).isSome then pure refused
    else
      match ← ext2InodeAllocate (ext2SIfreg ||| 0o644) with
      | none => pure refused
      | some number => do
        let disk ← ext2InodeGet number
        let node ← ext2VfsInode number memory
        let added ← addIf node.isSome dir.number name number ext2FtRegFile
        match node, added with
        | some node, true => do
          if (← ext2SyncVolume answers) ≠ 0 then pure refused else pure (.node node)
        | _, _ => do
          giveBack number disk
          pure refused

def dropLink (number disk : ℕ) : M Unit := do
  let links ← inodeField disk 26 2
  if 1 < links then setInodeField disk 26 2 (links - 1) else ext2InodeFree number disk

def unlink (dir : Node) (name : List Byte) (answers : Answers) : M Reply := unlessFailed do
  match ← ext2DirLookup dir.number name with
  | none => pure refused
  | some number =>
    match ← ext2InodeGet number with
    | none => pure refused
    | some disk => do
      if (← inodeField disk 0 2) &&& ext2SIfmt ≠ ext2SIfreg then pure refused
      else if ← ext2DirRemove dir.number name then do
        dirtyInode (some disk)
        dropLink number disk
        pure (.status (← ext2SyncVolume answers))
      else pure refused

def dotEntries (disk number parent : ℕ) : M Bool := do
  match ← ext2Block (← ext2InodeBlock disk 0 true) with
  | none => pure false
  | some block => do
    let blockSize := (← look).blockSize
    setInodeField disk 26 2 2
    setInodeField disk 4 4 blockSize
    writeEntry block 12 number (← ext2DirectoryType ext2FtDir) dotName
    writeEntry (block + 12) (blockSize - 12) parent (← ext2DirectoryType ext2FtDir) dotDotName
    pure true

def mkdir (dir : Node) (name : List Byte) (answers : Answers) : M Reply := unlessFailed do
  if (← ext2DirLookup dir.number name).isSome then pure refused
  else
    match ← ext2InodeAllocate (ext2SIfdir ||| 0o755) with
    | none => pure refused
    | some number => do
      match ← ext2InodeGet number with
      | none => pure refused
      | some disk => do
        let made ← dotEntries disk number dir.number
        let added ← addIf made dir.number name number ext2FtDir
        if added then do
          let links ← inodeField dir.disk 26 2
          setInodeField dir.disk 26 2 (links + 1)
          dirtyInode (some dir.disk)
          pure (.status (← ext2SyncVolume answers))
        else do
          ext2InodeFree number disk
          pure refused

def rmdir (dir : Node) (name : List Byte) (answers : Answers) : M Reply := unlessFailed do
  match ← ext2DirLookup dir.number name with
  | none => pure refused
  | some number => do
    if number = 2 then pure refused
    else
      match ← ext2InodeGet number with
      | none => pure refused
      | some disk => do
        if (← inodeField disk 0 2) &&& ext2SIfmt ≠ ext2SIfdir then pure refused
        else if ¬ (← ext2DirEmpty number) then pure refused
        else if ← ext2DirRemove dir.number name then do
          let links ← inodeField dir.disk 26 2
          onlyIf (links ≠ 0) (setInodeField dir.disk 26 2 (links - 1))
          dirtyInode (some dir.disk)
          ext2InodeFree number disk
          pure (.status (← ext2SyncVolume answers))
        else pure refused

def truncate (node : Node) (answers : Answers) : M Reply := unlessFailed do
  ext2InodeTruncate node.disk
  pure (.status (← ext2SyncVolume answers))

def read (node : Node) (position length : ℕ) : M Reply := do
  pure (.bytes (← ext2FileRead node.disk position length).1)

def write (node : Node) (position : ℕ) (bytes : List Byte) (answers : Answers) : M Reply := do
  if (← look).ioFailed then pure (.status 0)
  else do
    let written ← ext2FileWrite node.disk position bytes
    if (← ext2SyncVolume answers) ≠ 0 then pure (.status 0) else pure (.status written.1)

def iterate (dir : Node) (index : ℕ) : M Reply := do
  match ← ext2DirReadOne dir.number index with
  | none => pure refused
  | some (next, entry, type) => pure (.entry next entry.name entry.inode type)

inductive Op where
  | lookup (dir : ℕ) (name : List Byte) (memory : Bool)
  | getattr (node : ℕ)
  | setmode (node permissions : ℕ) (answers : Answers)
  | create (dir : ℕ) (name : List Byte) (memory : Bool) (answers : Answers)
  | unlink (dir : ℕ) (name : List Byte) (answers : Answers)
  | mkdir (dir : ℕ) (name : List Byte) (answers : Answers)
  | rmdir (dir : ℕ) (name : List Byte) (answers : Answers)
  | truncate (node : ℕ) (answers : Answers)
  | read (node position length : ℕ)
  | write (node position : ℕ) (bytes : List Byte) (answers : Answers)
  | iterate (dir index : ℕ)
  | forget (node : ℕ)

structure Session where
  volume : Volume
  nodes : List Node

namespace Session
variable (m : Session)

def call (m : Session) : Op → Option (M Reply)
  | .lookup i name memory => m.nodes[i]?.map fun n => Ext2.lookup n name memory
  | .getattr i => m.nodes[i]?.map Ext2.getattr
  | .setmode i permissions answers => m.nodes[i]?.map fun n => Ext2.setmode n permissions answers
  | .create i name memory answers => m.nodes[i]?.map fun n => Ext2.create n name memory answers
  | .unlink i name answers => m.nodes[i]?.map fun n => Ext2.unlink n name answers
  | .mkdir i name answers => m.nodes[i]?.map fun n => Ext2.mkdir n name answers
  | .rmdir i name answers => m.nodes[i]?.map fun n => Ext2.rmdir n name answers
  | .truncate i answers => m.nodes[i]?.map fun n => Ext2.truncate n answers
  | .read i position length => m.nodes[i]?.map fun n => Ext2.read n position length
  | .write i position bytes answers => m.nodes[i]?.map fun n => Ext2.write n position bytes answers
  | .iterate i index => m.nodes[i]?.map fun n => Ext2.iterate n index
  | .forget _ => none

/-- `vfs_inode_get`: a node is kept once for each inode number. -/
def keepNode (nodes : List Node) : Except Fault Reply → List Node
  | .ok (.node n) => if nodes.any (·.number = n.number) then nodes else nodes ++ [n]
  | _ => nodes

def step (op : Op) : Session :=
  match m.call op with
  | none =>
    match op with
    | .forget i => { m with nodes := m.nodes.eraseIdx i }
    | _ => m
  | some p => ⟨(p m.volume).2,keepNode m.nodes (p m.volume).1⟩

end Session

/-- `mount_common` to its end: the root node, if it can be had. -/
def mountRoot (image : ℕ → Byte) (size : ℕ) (lazy : Option Lazy) (device memory : Bool) :
    Option Session :=
  match mount image size lazy device with
  | none => none
  | some v =>
    match ext2VfsInode 2 memory v with
    | (.ok (some root), v') => some ⟨v',[root]⟩
    | _ => none

end GaiaKernel.Ext2
