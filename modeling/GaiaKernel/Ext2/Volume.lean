import GaiaKernel.Ext2.Sync
import GaiaKernel.Lib.Fallible

/-! # A mounted ext2 volume

fs/ext2/ext2_mount.c and fs/ext2/ext2_inode.c over the bytes of the image. A pointer is an offset
into the image, a null pointer `none`. The superblock is read in place each time; the fields of
`struct ext2_fs` are the copies made at the mount. A division by zero stops the program.
-/
namespace GaiaKernel.Ext2
open Bytes Fallible Prog List

/-- How a call can end other than by returning: with a division by zero, or never. -/
inductive Fault where
  | zeroDivision
  | endless
  deriving DecidableEq

/-- `struct ext2_lazy` and the device behind it: the pages read in so far, what the device
holds, and whether the `n`-th page asked for is read in. -/
structure Lazy where
  loaded : ℕ → Bool
  disk : ℕ → Byte
  answers : ℕ → Bool
  asked : ℕ

/-- `struct ext2_fs`: `groups` is where the group descriptors are in the image. -/
structure Volume extends Fs where
  imageSize : ℕ
  groups : ℕ
  inodeSize : ℕ
  groupCount : ℕ
  lazy : Option Lazy

abbrev M := Prog Volume Fault

/-! ### The image -/

def load (off k : ℕ) : M ℕ := do return leNat (← look).image off k

def store (off : ℕ) (bytes : List Byte) : M Unit :=
  change fun v => { v with image := blit v.image off bytes }

def bump (off k delta : ℕ) : M Unit := do
  let value ← load off k
  store off (leBytes k (value + delta))

def divide (a b : ℕ) : M (ℕ × ℕ) := if b = 0 then stop .zeroDivision else pure (a / b, a % b)
def extSuperblockOffset : ℕ := 1024
def superField (off k : ℕ) : M ℕ := load (extSuperblockOffset + off) k

def inodesCount : M ℕ := superField 0 4
def blocksCount : M ℕ := superField 4 4
def firstDataBlock : M ℕ := superField 20 4
def blocksPerGroup : M ℕ := superField 32 4
def inodesPerGroup : M ℕ := superField 40 4

def bumpFreeBlocks (delta : ℕ) : M Unit := bump (extSuperblockOffset + 12) 4 delta
def bumpFreeInodes (delta : ℕ) : M Unit := bump (extSuperblockOffset + 16) 4 delta
def groupField (group off k : ℕ) : M ℕ := do load ((← look).groups + 32 * group + off) k

def blockBitmap (group : ℕ) : M ℕ := groupField group 0 4
def inodeBitmap (group : ℕ) : M ℕ := groupField group 4 4
def inodeTable (group : ℕ) : M ℕ := groupField group 8 4

/-- A 16-bit counter of a group descriptor: `free_blocks_count` is at 12, `free_inodes_count`
at 14, `used_directories_count` at 16. -/
def bumpGroup (group off delta : ℕ) : M Unit := do
  bump ((← look).groups + 32 * group + off) 2 delta

def minusOne (k : ℕ) : ℕ := 256 ^ k - 1

/-! ### Pages, bytes and blocks -/

def ext2Page : ℕ := 4096
def blockSectorSize : ℕ := 512

def loadPage (page : ℕ) : M Bool := do
  let v ← look
  match v.lazy with
  | none => pure true
  | some lz =>
    if lz.loaded page then pure true
    else if lz.answers lz.asked then do
      let size := v.imageSize / blockSectorSize * blockSectorSize
      change fun v =>
        { v with
          image := fun i =>
            if i / ext2Page = page then if i < size then lz.disk i else 0#8 else v.image i
          lazy := some
            { lz with
              loaded := Function.update lz.loaded page true
              asked := lz.asked + 1 } }
      pure true
    else do
      change fun v => { v with lazy := some { lz with asked := lz.asked + 1 } }
      pure false

/-- `ext2_lazy_ensure`, whether it succeeds; a volume in memory has nothing to read in. -/
def ext2LazyEnsure (offset length : ℕ) : M Bool := do
  let v ← look
  if v.imageSize < offset ∨ v.imageSize - offset < length then pure false
  else if length = 0 then pure true
  else do
    let first := offset / ext2Page
    let last := (offset + length - 1) / ext2Page
    let failed ← firstOf (fun page => do
      if ← loadPage page then pure none else pure (some ())) (range' first (last + 1 - first))
    pure failed.isNone

def ext2Bytes (offset length : ℕ) : M (Option ℕ) := do
  let v ← look
  if v.imageSize < offset ∨ v.imageSize - offset < length then pure none
  else if ← ext2LazyEnsure offset length then pure (some offset)
  else do
    change fun v => { v with ioFailed := true }
    pure none

def ext2Block (number : ℕ) : M (Option ℕ) := do
  if number = 0 then pure none
  else if (← blocksCount) ≤ number then pure none
  else do
    let blockSize := (← look).blockSize
    ext2Bytes (number * blockSize) blockSize

def ext2InodeGet (number : ℕ) : M (Option ℕ) := do
  if number = 0 then pure none
  else if (← inodesCount) < number then pure none
  else do
    let (group, inGroup) ← divide (number - 1) (← inodesPerGroup)
    let v ← look
    if v.groupCount ≤ group then pure none
    else do
      let table ← inodeTable group
      ext2Bytes (table * v.blockSize + inGroup * v.inodeSize) v.inodeSize

/-! ### Dirty blocks and bitmaps -/

def ext2Dirty (address : Option ℕ) (length : ℕ) : M Unit :=
  change fun v =>
    match address, v.dirtyBlocks with
    | some pos, some dirty =>
      if length = 0 then v
      else if v.imageSize ≤ pos ∨ v.imageSize - pos < length then { v with ioFailed := true }
      else
        { v with
          dirtyBlocks := some fun block => dirty block ||
            (decide (pos / v.blockSize ≤ block) &&
              decide (block ≤ (pos + length - 1) / v.blockSize)) }
    | _, _ => v

def dirtyBlock (address : Option ℕ) : M Unit := do ext2Dirty address (← look).blockSize
def dirtyInode (address : Option ℕ) : M Unit := do ext2Dirty address (← look).inodeSize

def ext2DirtyGroup (group bitmap : ℕ) : M Unit := do
  dirtyBlock (some bitmap)
  ext2Dirty (some ((← look).groups + 32 * group)) 32
  ext2Dirty (some extSuperblockOffset) 104

def bitmapTest (bitmap bit : ℕ) : M Bool := do
  return (← load (bitmap + bit / 8) 1).testBit (bit % 8)

def bitmapSet (bitmap bit : ℕ) : M Unit := do
  let byte ← load (bitmap + bit / 8) 1
  store (bitmap + bit / 8) [BitVec.ofNat 8 byte ||| BitVec.ofNat 8 (2 ^ (bit % 8))]

def bitmapClear (bitmap bit : ℕ) : M Unit := do
  let byte ← load (bitmap + bit / 8) 1
  store (bitmap + bit / 8) [BitVec.ofNat 8 byte &&& ~~~BitVec.ofNat 8 (2 ^ (bit % 8))]

/-! ### Inodes and blocks, taken and given back -/

/-- A field of an inode: `mode` 0, `size` 4, `links_count` 26, `sectors_count` 28, `flags` 32,
`block` 40, `file_acl` 104, `directory_acl` 108, `fragment_address` 112. -/
def inodeField (inode off k : ℕ) : M ℕ := load (inode + off) k
def setInodeField (inode off k value : ℕ) : M Unit := store (inode + off) (leBytes k value)

def ext2SIfmt : ℕ := 0o170000
def ext2SIfreg : ℕ := 0o100000
def ext2SIfdir : ℕ := 0o040000

/-- The numbers that `ext2_inode_allocate` and `ext2_block_allocate` try in a group: `count`
from `first` on, fewer in the last group. Everything is `u32`. -/
def inodesOfGroup (total perGroup group : ℕ) : ℕ × ℕ :=
  let first := (group * perGroup + 1) % 2 ^ 32
  if total < (first + perGroup + (2 ^ 32 - 1)) % 2 ^ 32 then
    (first, (total + (2 ^ 32 - first) + 1) % 2 ^ 32)
  else (first, perGroup)

def blocksOfGroup (total firstData perGroup group : ℕ) : ℕ × ℕ :=
  let first := (firstData + group * perGroup) % 2 ^ 32
  if total < (first + perGroup) % 2 ^ 32 then (first, (total + (2 ^ 32 - first)) % 2 ^ 32)
  else (first, perGroup)

/-- The loop body over the bits of a group in `ext2_inode_allocate`: `none` goes on, `some`
returns. -/
def inodeTake (lowest mode group bitmap first bit : ℕ) : M (Option (Option ℕ)) := do
  let number := (first + bit) % 2 ^ 32
  if number < lowest then pure none
  else if ← bitmapTest bitmap bit then pure none
  else
    match ← ext2InodeGet number with
    | none => pure (some none)
    | some inode => do
      bitmapSet bitmap bit
      bumpGroup group 14 (minusOne 2)
      bumpFreeInodes (minusOne 4)
      store inode (replicate (← look).inodeSize 0#8)
      setInodeField inode 0 2 mode
      setInodeField inode 26 2 1
      onlyIf (mode &&& ext2SIfmt = ext2SIfdir) (bumpGroup group 16 1)
      ext2DirtyGroup group bitmap
      dirtyInode (some inode)
      pure (some (some number))

def inodeAllocateIn (lowest mode group : ℕ) : M (Option (Option ℕ)) := do
  if (← groupField group 14 2) = 0 then pure none
  else
    match ← ext2Block (← inodeBitmap group) with
    | none => pure (some none)
    | some bitmap => do
      let numbers := inodesOfGroup (← inodesCount) (← inodesPerGroup) group
      firstOf (inodeTake lowest mode group bitmap numbers.1) (range numbers.2)

def lowestInode : M ℕ := do
  if (← superField 76 4) = 0 then pure 11
  else do
    let first ← superField 84 4
    pure (max first 11)

def ext2InodeAllocate (mode : ℕ) : M (Option ℕ) := do
  let lowest ← lowestInode
  let taken ← firstOf (inodeAllocateIn lowest mode) (range (← look).groupCount)
  pure taken.join

def addSectors (owner : Option ℕ) (sectors : ℕ) : M Unit :=
  match owner with
  | some inode => do setInodeField inode 28 4 ((← inodeField inode 28 4) + sectors)
  | none => pure ()

def takeSectors (owner : Option ℕ) (sectors : ℕ) : M Unit :=
  match owner with
  | some inode => do
    let count ← inodeField inode 28 4
    onlyIf (sectors ≤ count) (setInodeField inode 28 4 (count - sectors))
  | none => pure ()

def clearBlock (block : Option ℕ) : M Unit :=
  match block with
  | some block => do store block (replicate (← look).blockSize 0#8)
  | none => pure ()

def blockTake (owner : Option ℕ) (group bitmap first bit : ℕ) : M (Option (Option ℕ)) := do
  if ← bitmapTest bitmap bit then pure none
  else do
    let number := (first + bit) % 2 ^ 32
    match ← ext2Block number with
    | none => pure (some none)
    | some block => do
      bitmapSet bitmap bit
      bumpGroup group 12 (minusOne 2)
      bumpFreeBlocks (minusOne 4)
      clearBlock (some block)
      addSectors owner ((← look).blockSize / 512)
      ext2DirtyGroup group bitmap
      dirtyBlock (some block)
      dirtyInode owner
      pure (some (some number))

def blockAllocateIn (owner : Option ℕ) (group : ℕ) : M (Option (Option ℕ)) := do
  if (← groupField group 12 2) = 0 then pure none
  else
    match ← ext2Block (← blockBitmap group) with
    | none => pure (some none)
    | some bitmap => do
      let numbers := blocksOfGroup (← blocksCount) (← firstDataBlock) (← blocksPerGroup) group
      firstOf (blockTake owner group bitmap numbers.1) (range numbers.2)

def ext2BlockAllocate (owner : Option ℕ) : M ℕ := do
  let taken ← firstOf (blockAllocateIn owner) (range (← look).groupCount)
  pure (taken.join.getD 0)

def blockRelease (number group bit bitmap : ℕ) (owner : Option ℕ) : M Unit := do
  bitmapClear bitmap bit
  bumpGroup group 12 1
  bumpFreeBlocks 1
  let block ← ext2Block number
  clearBlock block
  takeSectors owner ((← look).blockSize / 512)
  ext2DirtyGroup group bitmap
  dirtyBlock block
  dirtyInode owner

def ext2BlockFree (number : ℕ) (owner : Option ℕ) : M Unit := do
  let firstData ← firstDataBlock
  if number < firstData ∨ (← blocksCount) ≤ number then pure ()
  else do
    let (group, bit) ← divide (number - firstData) (← blocksPerGroup)
    if (← look).groupCount ≤ group then pure ()
    else
      match ← ext2Block (← blockBitmap group) with
      | none => pure ()
      | some bitmap => do
        onlyIf (← bitmapTest bitmap bit) (blockRelease number group bit bitmap owner)

/-! ### The blocks of an inode -/

def ensurePointerBlock (inode pointer : ℕ) (create : Bool) : M ℕ := do
  let number ← load pointer 4
  if number ≠ 0 then pure number
  else if create then do
    let number ← ext2BlockAllocate (some inode)
    store pointer (leBytes 4 number)
    ext2Dirty (some pointer) 4
    pure number
  else pure 0

/-- The walk down from a pointer, `level` pointer blocks deep; each entry of the first of them
covers `ppb ^ (level - 1)` blocks. -/
def indirectBlock (inode : ℕ) (create : Bool) (ppb : ℕ) : ℕ → ℕ → ℕ → M ℕ
  | 0, pointer, _ => ensurePointerBlock inode pointer create
  | level + 1, pointer, index => do
    let number ← ensurePointerBlock inode pointer create
    match ← ext2Block number with
    | none => pure 0
    | some entries =>
      indirectBlock inode create ppb level (entries + 4 * (index / ppb ^ level))
        (index % ppb ^ level)

def ext2NdirBlocks : ℕ := 12

def ext2InodeBlock (inode logical : ℕ) (create : Bool) : M ℕ := do
  let ppb := (← look).blockSize / 4
  let index := logical - ext2NdirBlocks
  if logical < ext2NdirBlocks then ensurePointerBlock inode (inode + 40 + 4 * logical) create
  else if index < ppb then indirectBlock inode create ppb 1 (inode + 40 + 4 * 12) index
  else if index - ppb < ppb ^ 2 then
    indirectBlock inode create ppb 2 (inode + 40 + 4 * 13) (index - ppb)
  else if index - ppb - ppb ^ 2 < ppb ^ 3 then
    indirectBlock inode create ppb 3 (inode + 40 + 4 * 14) (index - ppb - ppb ^ 2)
  else pure 0

def freeIndirect (inode : ℕ) : ℕ → ℕ → M Unit
  | 0, number => ext2BlockFree number (some inode)
  | depth + 1, number => do
    match ← ext2Block number with
    | none => pure ()
    | some pointers => do
      forEach (fun i => do
        let pointer ← load (pointers + 4 * i) 4
        onlyIf (pointer ≠ 0) (freeIndirect inode depth pointer))
        (range ((← look).blockSize / 4))
      ext2BlockFree number (some inode)

def ext2InodeTruncate (inode : ℕ) : M Unit := do
  forEach (fun i => do
    let number ← inodeField inode (40 + 4 * i) 4
    onlyIf (number ≠ 0) (freeIndirect inode (i - 11) number)) (range 15)
  store (inode + 40) (replicate 60 0#8)
  setInodeField inode 4 4 0
  setInodeField inode 108 4 0
  setInodeField inode 28 4 0
  dirtyInode (some inode)

def inodeRelease (group bit oldMode : ℕ) : M Unit := do
  match ← ext2Block (← inodeBitmap group) with
  | none => pure ()
  | some bitmap => do
    if ← bitmapTest bitmap bit then do
      bitmapClear bitmap bit
      bumpGroup group 14 1
      bumpFreeInodes 1
      let directories ← groupField group 16 2
      onlyIf (oldMode &&& ext2SIfmt = ext2SIfdir ∧ directories ≠ 0)
        (bumpGroup group 16 (minusOne 2))
      ext2DirtyGroup group bitmap
    else pure ()

def ext2InodeFree (number inode : ℕ) : M Unit := do
  if number = 0 ∨ (← inodesCount) < number then pure ()
  else do
    let oldMode ← inodeField inode 0 2
    ext2InodeTruncate inode
    let (group, bit) ← divide (number - 1) (← inodesPerGroup)
    inodeRelease group bit oldMode
    store inode (replicate (← look).inodeSize 0#8)
    dirtyInode (some inode)

end GaiaKernel.Ext2
