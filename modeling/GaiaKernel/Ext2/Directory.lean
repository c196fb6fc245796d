import GaiaKernel.Lib.Bytes
import GaiaKernel.Memory.Word

/-! # ext2 directories

fs/ext2/ext2_dir.c. A directory is a sequence of variable-length records, none of which crosses a
block; the free space is the slack behind a name, or a record with inode number 0. How the entry at
an offset is reached is left to the caller of `scan`: through the block map of an inode, or in the
bytes of one directory (`Directory`). The address of an entry stands for the pointer to it.
-/
namespace GaiaKernel.Ext2
open Bytes

structure DirEntry where
  inode : ℕ
  recordLength : ℕ
  fileType : Byte
  name : List Byte
  deriving DecidableEq

def dirEntryAt (data : ℕ → Byte) (off : ℕ) : DirEntry where
  inode := leNat data off 4
  recordLength := leNat data (off + 4) 2
  fileType := data (off + 7)
  name := slice data (off + 8) (data (off + 6)).toNat

def directoryRecordSize (nameLength : ℕ) : ℕ := (8 + nameLength + 3) / 4 * 4

def EntryValid (blockSize : ℕ) (entry : DirEntry) (blockOffset : ℕ) : Prop :=
  8 ≤ entry.recordLength ∧ entry.recordLength % 4 = 0 ∧
    entry.recordLength ≤ blockSize - blockOffset ∧ entry.name.length ≤ entry.recordLength - 8

instance (blockSize : ℕ) (entry : DirEntry) (blockOffset : ℕ) :
    Decidable (EntryValid blockSize entry blockOffset) :=
  inferInstanceAs (Decidable (_ ∧ _ ∧ _ ∧ _))

/-- How a walk over the records ends: at a record that answers it, at a record that cannot be
one, behind the last record, or never. -/
inductive Scan (β : Type) where
  | found (answer : β)
  | invalid
  | finished
  | endless
  deriving DecidableEq

/-- `while (offset < directory->size)`: each record is checked and visited; a visit goes on
with a new accumulator or ends the walk. Offsets are `u32`. -/
def scan {m : Type → Type} [Monad m] {α β : Type} (entryAt : ℕ → m (Option (ℕ × DirEntry)))
    (blockSize size : ℕ) (visit : α → ℕ → ℕ → DirEntry → α ⊕ β) : ℕ → ℕ → α → m (Scan β)
  | 0, _, _ => pure .endless
  | fuel + 1, offset, acc =>
    if offset < size then do
      match ← entryAt offset with
      | none => pure .invalid
      | some (address, entry) =>
        if EntryValid blockSize entry (offset % blockSize) then
          match visit acc offset address entry with
          | .inr answer => pure (.found answer)
          | .inl acc' =>
            scan entryAt blockSize size visit fuel ((offset + entry.recordLength) % 2 ^ 32) acc'
        else pure .invalid
    else pure .finished

/-- A walk that visits this many records has come back to one of them: a record is at least
8 bytes long. -/
def scanLimit : ℕ := 2 ^ 29 + 1

def lookupVisit (name : List Byte) (_ : Unit) (_ _ : ℕ) (entry : DirEntry) : Unit ⊕ DirEntry :=
  if entry.inode ≠ 0 ∧ entry.name = name then .inr entry else .inl ()

/-- Where `ext2_dir_add` puts an entry: over a dead record, or behind the name of a live one. -/
inductive Spot where
  | reuse (address : ℕ) (entry : DirEntry)
  | split (address : ℕ) (entry : DirEntry)
  deriving DecidableEq

def addVisit (needed : ℕ) (_ : Unit) (_ address : ℕ) (entry : DirEntry) : Unit ⊕ Spot :=
  if entry.inode = 0 ∧ needed ≤ entry.recordLength then .inr (.reuse address entry)
  else if entry.inode ≠ 0 ∧
      directoryRecordSize entry.name.length + needed ≤ entry.recordLength then
    .inr (.split address entry)
  else .inl ()

/-- `previous` and `previous_logical` of `ext2_dir_remove`: an entry passed over, where it is and
the block it is in. -/
structure Previous where
  logical : ℕ
  address : ℕ
  entry : DirEntry

/-- The visit of `ext2_dir_remove`; `previous` counts only while the walk is in its block. -/
def removeVisit (blockSize : ℕ) (name : List Byte) (previous : Option Previous)
    (offset address : ℕ) (entry : DirEntry) :
    Option Previous ⊕ (Option Previous × ℕ × DirEntry) :=
  let logical := offset / blockSize
  let previous := previous.filter fun p => p.logical = logical
  if entry.inode ≠ 0 ∧ entry.name = name then .inr (previous, address, entry)
  else .inl (some ⟨logical,address,entry⟩)

def initializeEntry (data : ℕ → Byte) (pos record inodeNumber : ℕ) (type : Byte)
    (name : List Byte) : ℕ → Byte :=
  let data := blit data pos (List.replicate record 0#8)
  let data := blit data pos (leBytes 4 inodeNumber)
  let data := blit data (pos + 4) (leBytes 2 record)
  let data := blit data (pos + 6) [BitVec.ofNat 8 name.length]
  let data := blit data (pos + 7) [type]
  blit data (pos + 8) name

def vfsNameMax : ℕ := 255

/-! ### A directory on its own -/

/-- A directory inode and the bytes of its blocks, each at its offset: `inodeType` is the type the
mode of an inode gives, `filetype` the feature bit of the superblock. -/
structure Directory where
  data : ℕ → Byte
  size : U32
  logBlockSize : Fin 3
  filetype : Bool
  inodeType : ℕ → Byte

namespace Directory
variable (d : Directory)

def blockSize : ℕ := 1024 * 2 ^ d.logBlockSize.val
def entryAt (offset : ℕ) : Option (ℕ × DirEntry) := some (offset, dirEntryAt d.data offset)

def walk {α β : Type} (visit : α → ℕ → ℕ → DirEntry → α ⊕ β) (acc : α) : Scan β :=
  scan (m := Id) d.entryAt d.blockSize d.size.toNat visit scanLimit 0 acc

def entryFileType (entry : DirEntry) : Byte :=
  if entry.fileType ≠ 0#8 then entry.fileType else d.inodeType entry.inode

/-- `ext2_dir_lookup`: the inode number and the type, if the call returns 0. -/
def dirLookup (name : List Byte) : Option (ℕ × Byte) :=
  if name = [] then none
  else
    match d.walk (lookupVisit name) () with
    | .found entry => some (entry.inode, d.entryFileType entry)
    | _ => none

def directoryType (type : Byte) : Byte := if d.filetype then type else 0#8
def nextLogical : ℕ := (d.size.toNat + d.blockSize - 1) % 2 ^ 32 / d.blockSize

/-- The end of `ext2_dir_add`: a record over the whole of a new block. -/
def extend (name : List Byte) (inodeNumber : U32) (type : Byte) : Directory :=
  { d with
    data := initializeEntry d.data (d.nextLogical * d.blockSize) d.blockSize inodeNumber.toNat
      type name
    size := BitVec.ofNat 32 ((d.nextLogical + 1) * d.blockSize) }

/-- The writes of `ext2_dir_add` at the record it found. -/
def fill (name : List Byte) (inodeNumber : U32) (type : Byte) : Spot → Directory
  | .reuse address entry =>
    { d with
      data := initializeEntry d.data address entry.recordLength inodeNumber.toNat type name }
  | .split address entry =>
    let used := directoryRecordSize entry.name.length
    { d with
      data := initializeEntry (blit d.data (address + 4) (leBytes 2 used)) (address + used)
        (entry.recordLength - used) inodeNumber.toNat type name }

/-- `ext2_dir_add`, if it returns 0. `room` says whether `ext2_inode_block` has a block for
the directory to grow into. -/
def dirAdd (name : List Byte) (inodeNumber : U32) (type : Byte) (room : Bool) :
    Option Directory :=
  let type := d.directoryType type
  if name = [] ∨ vfsNameMax < name.length ∨ (d.dirLookup name).isSome then none
  else
    match d.walk (addVisit (directoryRecordSize name.length)) () with
    | .found spot => some (d.fill name inodeNumber type spot)
    | .finished => if room then some (d.extend name inodeNumber type) else none
    | _ => none

/-- `ext2_dir_remove`, if it returns 0: the record goes to the one before it in the block, or
is marked dead. -/
def dirRemove (name : List Byte) : Option Directory :=
  match d.walk (removeVisit d.blockSize name) none with
  | .found (some previous, _, entry) =>
    let length := previous.entry.recordLength + entry.recordLength
    some { d with data := blit d.data (previous.address + 4) (leBytes 2 length) }
  | .found (none, address, _) => some { d with data := blit d.data address (leBytes 4 0) }
  | _ => none

inductive Op where
  | add (name : List Byte) (inodeNumber : U32) (type : Byte) (room : Bool)
  | remove (name : List Byte)

/-- The call's outcome; `none` is a return value of -1. -/
def call : Op → Option Directory
  | .add name inodeNumber type room => d.dirAdd name inodeNumber type room
  | .remove name => d.dirRemove name

def step (op : Op) : Directory := (d.call op).getD d

end Directory

end GaiaKernel.Ext2
