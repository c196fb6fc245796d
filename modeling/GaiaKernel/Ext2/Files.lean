import GaiaKernel.Ext2.Directory
import GaiaKernel.Ext2.Volume

/-! # Files and directories on a volume

fs/ext2/ext2_file.c, and the functions of fs/ext2/ext2_dir.c over the blocks of a directory
inode.
-/
namespace GaiaKernel.Ext2
open Bytes Fallible Prog

/-! ### Files -/

/-- One round of `ext2_file_read`: the bytes of a block, zeros if it is not there. -/
def readChunk (block : Option ℕ) (offset chunk : ℕ) : M (List Byte) :=
  match block with
  | some block => do pure (slice (← look).image (block + offset) chunk)
  | none => pure (List.replicate chunk 0#8)

theorem readChunk_length {block : Option ℕ} {offset chunk : ℕ} {bytes : List Byte} (v : Volume)
    (h : (readChunk block offset chunk v).1 = .ok bytes) : bytes.length = chunk := by
  cases block with
  | none =>
    obtain rfl := Except.ok.inj h
    exact List.length_replicate
  | some block =>
    obtain rfl := Except.ok.inj h
    exact length_slice _ _ _

/-- The loop of `ext2_file_read`: the bytes, and where it leaves `*position`. Each round reads at
least one byte, so that `remaining` rounds are enough. -/
def fileReadLoop (inode : ℕ) : ℕ → ℕ → ℕ → M (List Byte × ℕ)
  | 0, position, _ => pure ([], position)
  | fuel + 1, position, remaining => do
    if remaining = 0 then pure ([], position)
    else do
      let blockSize := (← look).blockSize
      let offset := position % blockSize
      let chunk := min (blockSize - offset) remaining
      let number ← ext2InodeBlock inode (position / blockSize) false
      let bytes ← readChunk (← ext2Block number) offset chunk
      let rest ← fileReadLoop inode fuel (position + chunk) (remaining - chunk)
      pure (bytes ++ rest.1, rest.2)

def ext2FileRead (inode position length : ℕ) : M (List Byte × ℕ) := do
  let size ← inodeField inode 4 4
  if size ≤ position then pure ([], position)
  else do
    let length := min length (size - position)
    fileReadLoop inode length position length

/-- The loop of `ext2_file_write`: the count, and where it leaves `*position`. -/
def fileWriteLoop (inode : ℕ) : ℕ → ℕ → List Byte → M (ℕ × ℕ)
  | 0, position, _ => pure (0, position)
  | fuel + 1, position, bytes => do
    let blockSize := (← look).blockSize
    let offset := position % blockSize
    let chunk := min (min (blockSize - offset) bytes.length) (2 ^ 32 - 1 - position)
    if chunk = 0 then pure (0, position)
    else do
      let number ← ext2InodeBlock inode (position / blockSize) true
      match ← ext2Block number with
      | none => pure (0, position)
      | some block => do
        store (block + offset) (bytes.take chunk)
        dirtyBlock (some block)
        let size ← inodeField inode 4 4
        onlyIf (size < position + chunk) (setInodeField inode 4 4 (position + chunk))
        dirtyInode (some inode)
        let rest ← fileWriteLoop inode fuel (position + chunk) (bytes.drop chunk)
        pure (chunk + rest.1, rest.2)

def ext2FileWrite (inode position : ℕ) (bytes : List Byte) : M (ℕ × ℕ) :=
  fileWriteLoop inode bytes.length position bytes

/-! ### Directories -/

/-- The entry at an offset of a directory. -/
def entryAt (directory offset : ℕ) : M (Option (ℕ × DirEntry)) := do
  let blockSize := (← look).blockSize
  match ← ext2Block (← ext2InodeBlock directory (offset / blockSize) false) with
  | none => pure none
  | some block => do
    let address := block + offset % blockSize
    pure (some (address, dirEntryAt (← look).image address))

def scanFrom {α β : Type} (directory offset : ℕ) (visit : α → ℕ → ℕ → DirEntry → α ⊕ β) (acc : α) :
    M (Scan β) := do
  let size ← inodeField directory 4 4
  match ← scan (entryAt directory) (← look).blockSize size visit scanLimit offset acc with
  | .endless => stop .endless
  | r => pure r

def directoryInode (number : ℕ) : M (Option ℕ) := do
  match ← ext2InodeGet number with
  | none => pure none
  | some inode => do
    if (← inodeField inode 0 2) &&& ext2SIfmt = ext2SIfdir then pure (some inode) else pure none

def ext2DirLookup (directory : ℕ) (name : List Byte) : M (Option ℕ) := do
  match ← directoryInode directory with
  | none => pure none
  | some inode =>
    if name = [] then pure none
    else do
      match ← scanFrom inode 0 (lookupVisit name) () with
      | .found entry => pure (some entry.inode)
      | _ => pure none

def writeEntry (address record inodeNumber : ℕ) (type : Byte) (name : List Byte) : M Unit :=
  change fun v => { v with image := initializeEntry v.image address record inodeNumber type name }

def ext2FtUnknown : Byte := 0#8
def ext2FtRegFile : Byte := 1#8
def ext2FtDir : Byte := 2#8

def ext2DirectoryType (type : Byte) : M Byte := do
  if (← superField 96 4) &&& 2 ≠ 0 then pure type else pure ext2FtUnknown

def fillSpot (inodeNumber : ℕ) (type : Byte) (name : List Byte) : Spot → M Unit
  | .reuse address entry => writeEntry address entry.recordLength inodeNumber type name
  | .split address entry => do
    let used := directoryRecordSize entry.name.length
    store (address + 4) (leBytes 2 used)
    writeEntry (address + used) (entry.recordLength - used) inodeNumber type name

/-- At the record it found, `ext2_dir_add` writes to the image what `Directory.fill` writes. -/
theorem fillSpot_image {d : Directory} {v : Volume} (h : v.image = d.data) (inodeNumber : U32)
    (type : Byte) (name : List Byte) (spot : Spot) :
    (fillSpot inodeNumber.toNat type name spot v).2.image = (d.fill name inodeNumber type spot).data := by
  cases spot with
  | reuse address entry => exact congrArg (initializeEntry · _ _ _ _ _) h
  | split address entry => exact congrArg (fun data => initializeEntry (blit data _ _) _ _ _ _ _) h

def blockOfSpot (blockSize : ℕ) : Spot → ℕ
  | .reuse address _ => address / blockSize * blockSize
  | .split address _ => address / blockSize * blockSize

/-- The end of `ext2_dir_add`: a new block, all of it one record. -/
def growDirectory (directory inodeNumber : ℕ) (type : Byte) (name : List Byte) : M Bool := do
  let blockSize := (← look).blockSize
  let size ← inodeField directory 4 4
  let logical := (size + blockSize - 1) % 2 ^ 32 / blockSize
  match ← ext2Block (← ext2InodeBlock directory logical true) with
  | none => pure false
  | some block => do
    writeEntry block blockSize inodeNumber type name
    setInodeField directory 4 4 ((logical + 1) * blockSize)
    dirtyBlock (some block)
    dirtyInode (some directory)
    pure true

def ext2DirAdd (directory : ℕ) (name : List Byte) (inodeNumber : ℕ) (type : Byte) : M Bool := do
  let type ← ext2DirectoryType type
  match ← directoryInode directory with
  | none => pure false
  | some inode =>
    if name = [] ∨ vfsNameMax < name.length then pure false
    else if (← ext2DirLookup directory name).isSome then pure false
    else do
      match ← scanFrom inode 0 (addVisit (directoryRecordSize name.length)) () with
      | .found spot => do
        fillSpot inodeNumber type name spot
        dirtyBlock (some (blockOfSpot (← look).blockSize spot))
        pure true
      | .finished => growDirectory inode inodeNumber type name
      | _ => pure false

def ext2DirRemove (directory : ℕ) (name : List Byte) : M Bool := do
  match ← directoryInode directory with
  | none => pure false
  | some inode => do
    let blockSize := (← look).blockSize
    match ← scanFrom inode 0 (removeVisit blockSize name) none with
    | .found (some previous, _, entry) => do
      store (previous.address + 4)
        (leBytes 2 (previous.entry.recordLength + entry.recordLength))
      dirtyBlock (some (previous.address / blockSize * blockSize))
      pure true
    | .found (none, address, _) => do
      store address (leBytes 4 0)
      dirtyBlock (some (address / blockSize * blockSize))
      pure true
    | _ => pure false

def dotName : List Byte := [0x2E#8]
def dotDotName : List Byte := [0x2E#8, 0x2E#8]

def emptyVisit (_ : Unit) (_ _ : ℕ) (entry : DirEntry) : Unit ⊕ Unit :=
  if entry.inode ≠ 0 ∧ entry.name ≠ dotName ∧ entry.name ≠ dotDotName then .inr () else .inl ()

def ext2DirEmpty (directory : ℕ) : M Bool := do
  match ← directoryInode directory with
  | none => pure false
  | some inode => do
    match ← scanFrom inode 0 emptyVisit () with
    | .finished => pure true
    | _ => pure false

/-- The visit of `ext2_dir_read_one`: such an entry, and the offset behind it. -/
def readVisit (_ : Unit) (offset _ : ℕ) (entry : DirEntry) : Unit ⊕ (ℕ × DirEntry) :=
  if entry.inode ≠ 0 ∧ entry.name ≠ dotName ∧ entry.name ≠ dotDotName then
    .inr ((offset + entry.recordLength) % 2 ^ 32, entry)
  else .inl ()

def entryFileType (entry : DirEntry) : M Byte := do
  if entry.fileType ≠ 0#8 then pure entry.fileType
  else
    match ← ext2InodeGet entry.inode with
    | none => pure ext2FtUnknown
    | some inode => do
      let kind := (← inodeField inode 0 2) &&& ext2SIfmt
      if kind = ext2SIfdir then pure ext2FtDir
      else if kind = ext2SIfreg then pure ext2FtRegFile
      else pure ext2FtUnknown

def ext2DirReadOne (directory index : ℕ) : M (Option (ℕ × DirEntry × Byte)) := do
  match ← directoryInode directory with
  | none => pure none
  | some inode => do
    match ← scanFrom inode index readVisit () with
    | .found (next, entry) => do
      let type ← entryFileType entry
      pure (some (next, entry, type))
    | _ => pure none

end GaiaKernel.Ext2
