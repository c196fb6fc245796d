import GaiaKernel.Memory.Word

/-! # Mounts, cached inodes and open files

The objects of fs/vfs: the mount table, the live inodes of each superblock with their
reference counts, and the open files. Public operations are serialized by the VFS gate, so
each is one step. What back ends and the allocator answer comes from a world that is not
modelled further.
-/
namespace GaiaKernel.Vfs

abbrev Name := List Byte

def slash : Byte := 47#8
def dot : Byte := 46#8

def vfsPathMax : ℕ := 260
def vfsNameMax : ℕ := 255
def vfsMaxMounts : ℕ := 8

inductive Errno where
  | eperm | enoent | eio | enomem | ebusy | eexist | enodev | enotdir | eisdir | einval | erofs
  | enametoolong | enotempty
  deriving DecidableEq, Repr

inductive NodeType where
  | none
  | file
  | directory
  deriving DecidableEq, Repr

abbrev Slot := Fin vfsMaxMounts
abbrev Node := Slot × ℕ

structure Inode where
  number : ℕ
  type : NodeType
  references : ℕ

structure Mount where
  path : Name
  root : ℕ
  inodes : List Inode
  openFiles : ℕ

abbrev Cache := List Inode

namespace Cache

def refs (number : ℕ) : Cache → ℕ
  | [] => 0
  | i :: is => if i.number = number then i.references else refs number is

def find (number : ℕ) (c : Cache) : Option Inode := c.find? fun i => i.number = number

def ref (number : ℕ) : Cache → Cache
  | [] => []
  | i :: is =>
    if i.number = number then { i with references := i.references + 1 } :: is
    else i :: ref number is

def put (number : ℕ) : Cache → Cache
  | [] => []
  | i :: is =>
    if i.number = number then
      if i.references - 1 = 0 then is else { i with references := i.references - 1 } :: is
    else i :: put number is

end Cache

structure World (ω : Type*) where
  kmalloc : ω → Bool × ω
  /-- `lookup` and `create` of a directory: the number and type of the entry's inode. -/
  lookup : ω → Node → Name → Option (ℕ × NodeType) × ω
  create : ω → Node → Name → Option (ℕ × NodeType) × ω
  mkdir : ω → Node → Name → Bool × ω
  unlink : ω → Node → Name → Bool × ω
  rmdir : ω → Node → Name → Bool × ω
  hasEntries : ω → Node → Option Bool × ω
  getattr : ω → Node → Bool × ω
  openFile : ω → Node → Bool × ω
  /-- Reads, writes, seeks, truncation, mode changes and enumeration. -/
  transfer : ω → Node → ω
  /-- Whether `iterate` has come to the end of the directory. -/
  iterated : ω → Node → Bool × ω
  /-- `mount` or `attach` of a file system: success, and the root inode it has got. -/
  mount : ω → Slot → Bool × Option (ℕ × NodeType) × ω
  sync : ω → Slot → Bool × ω
  unmount : ω → Slot → ω

/-- The state of the VFS. `ι` are the file objects of its callers. -/
structure State (ι ω : Type*) where
  mounts : Slot → Option Mount
  files : ι → Option Node
  world : ω

namespace State
variable {ι ω : Type*} (s : State ι ω)

def modify (slot : Slot) (f : Mount → Mount) : State ι ω :=
  { s with mounts := fun j => if j = slot then (s.mounts j).map f else s.mounts j }

def setCache (slot : Slot) (c : Cache) : State ι ω := s.modify slot fun m => { m with inodes := c }
def cache (slot : Slot) : Cache := (s.mounts slot).elim [] Mount.inodes
def ref (node : Node) : State ι ω := s.setCache node.1 ((s.cache node.1).ref node.2)
def put (node : Node) : State ι ω := s.setCache node.1 ((s.cache node.1).put node.2)
def type (node : Node) : NodeType := ((s.cache node.1).find node.2).elim .none Inode.type
def setWorld (w : ω) : State ι ω := { s with world := w }

def findMount (path : Name) : Option Slot :=
  (List.finRange vfsMaxMounts).find? fun slot => (s.mounts slot).any fun m => m.path = path

def rootOf (slot : Slot) : ℕ := (s.mounts slot).elim 0 Mount.root

/-- `vfs_inode_get`: the state, and whether there is an inode. -/
def get (env : World ω) (node : Node) (type : NodeType) : State ι ω × Bool :=
  if ((s.cache node.1).find node.2).isSome then (s.ref node, true)
  else
    let r := env.kmalloc s.world
    if r.1 then
      ((s.setWorld r.2).setCache node.1 (⟨node.2,type,1⟩ :: s.cache node.1), true)
    else (s.setWorld r.2, false)

end State

end GaiaKernel.Vfs
