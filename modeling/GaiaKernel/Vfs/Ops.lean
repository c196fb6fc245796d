import GaiaKernel.Lib.Trace
import GaiaKernel.Vfs.Lookup

/-! # The public operations of the VFS

Opening and closing, name changes, enumeration, mounting and unmounting, as in fs/vfs/file.c,
namei.c and vfs.c. Each is one step of `step`.
-/
namespace GaiaKernel.Vfs
open Function List
variable {ι ω : Type*}

def mountContains (s : State ι ω) (path : Name) : Bool :=
  (finRange vfsMaxMounts).any fun slot => (s.mounts slot).any fun m =>
    path.isPrefixOf m.path &&
      (path.length == 1 || m.path.length == path.length || m.path[path.length]? == some slash)

/-- The directory a path's last name is in, the name, and whether the path ends in a slash. -/
def vfsLookupParent (env : World ω) (s : State ι ω) (path : Name) :
    State ι ω × Except Errno (Path × Name × Bool) :=
  match vfsPathLength path with
  | .error e => (s, .error e)
  | .ok _ =>
    let trailing := path.getLast? == some slash
    let stripped := path.reverse.dropWhile (· = slash)
    let name := (stripped.takeWhile (· ≠ slash)).reverse
    let front := (stripped.dropWhile (· ≠ slash)).reverse
    if name.isEmpty ∨ name.length > vfsNameMax then (s, .error .einval)
    else if name = [dot] ∨ name = [dot, dot] then (s, .error .einval)
    else
      match vfsLookup env s front with
      | (s, .error e) => (s, .error e)
      | (s, .ok p) =>
        let fail := fun (e : Errno) => (vfsPathPut s p.entries, Except.error e)
        if (p.entries.head?.elim NodeType.none fun e => s.type e.node) ≠ .directory then
          fail .enotdir
        else
          let base := p.name ++ if p.name.length > 1 then [slash] else []
          if name.length ≥ vfsPathMax - base.length then fail .enametoolong
          else if mountContains s (base ++ name) then fail .ebusy
          else (s, .ok ({ p with name := base ++ name }, name, trailing))

section
variable [DecidableEq ι]

def closeLocked (s : State ι ω) (i : ι) : State ι ω :=
  match s.files i with
  | none => s
  | some node =>
    let s := s.modify node.1 fun m => { m with openFiles := m.openFiles - 1 }
    let s := s.put node
    { s with files := update s.files i none }

def openInode (env : World ω) (s : State ι ω) (node : Node) (i : ι) :
    State ι ω × Except Errno Unit :=
  let s := { s with files := update s.files i (some node) }
  let s := s.modify node.1 fun m => { m with openFiles := m.openFiles + 1 }
  let o := env.openFile s.world node
  if o.1 then
    let a := env.getattr o.2 node
    if a.1 then (s.setWorld a.2, .ok ()) else (closeLocked (s.setWorld a.2) i, .error .eio)
  else (closeLocked (s.setWorld o.2) i, .error .eio)

def Path.node (p : Path) : Option Node := p.entries.head?.map Dentry.node

def vfsOpen (env : World ω) (s : State ι ω) (path : Name) (i : ι) :
    State ι ω × Except Errno Unit :=
  match vfsLookup env s path with
  | (s, .error e) => (s, .error e)
  | (s, .ok p) =>
    match p.node with
    | none => (s, .error .eio)
    | some node =>
      let r := openInode env (s.ref node) node i
      (vfsPathPut r.1 p.entries, r.2)

def vfsCreate (env : World ω) (s : State ι ω) (path : Name) (i : ι) :
    State ι ω × Except Errno Unit :=
  match vfsLookupParent env s path with
  | (s, .error e) => (s, .error e)
  | (s, .ok (p, name, trailing)) =>
    match p.node with
    | none => (s, .error .eio)
    | some dir =>
      if trailing then (vfsPathPut s p.entries, .error .enotdir)
      else
        let c := env.create s.world dir name
        let s := s.setWorld c.2
        match c.1 with
        | none => (vfsPathPut s p.entries, .error .erofs)
        | some (number, type) =>
          let g := s.get env (dir.1, number) type
          if g.2 then
            let r := openInode env g.1 (dir.1, number) i
            match r.2 with
            | .ok () => (vfsPathPut r.1 p.entries, .ok ())
            | .error e =>
              let u := env.unlink r.1.world dir name
              (vfsPathPut (r.1.setWorld u.2) p.entries, .error e)
          else (vfsPathPut g.1 p.entries, .error .erofs)

end

inductive NameOperation where
  | createDirectory
  | removeFile
  | removeDirectory

def lookupIn (env : World ω) (s : State ι ω) (dir : Node) (name : Name) :
    State ι ω × Option Node :=
  let r := env.lookup s.world dir name
  let s := s.setWorld r.2
  match r.1 with
  | none => (s, none)
  | some (number, type) =>
    let g := s.get env (dir.1, number) type
    (g.1, if g.2 then some (dir.1, number) else none)

def changeTarget (env : World ω) (s : State ι ω) (dir target : Node) (name : Name)
    (trailing : Bool) : NameOperation → ω × Except Errno Unit
  | .createDirectory => (s.world, .error .eexist)
  | .removeFile =>
    if (s.cache target.1).refs target.2 ≠ 1 then (s.world, .error .ebusy)
    else if trailing ∨ s.type target = .directory then (s.world, .error .eisdir)
    else if s.type target ≠ .file then (s.world, .error .einval)
    else
      let u := env.unlink s.world dir name
      (u.2, if u.1 then .ok () else .error .eio)
  | .removeDirectory =>
    if (s.cache target.1).refs target.2 ≠ 1 then (s.world, .error .ebusy)
    else if s.type target ≠ .directory then (s.world, .error .enotdir)
    else
      let h := env.hasEntries s.world target
      match h.1 with
      | none => (h.2, .error .eio)
      | some true => (h.2, .error .enotempty)
      | some false =>
        let u := env.rmdir h.2 dir name
        (u.2, if u.1 then .ok () else .error .eio)

def changeName (env : World ω) (s : State ι ω) (path : Name) (op : NameOperation) :
    State ι ω × Except Errno Unit :=
  match vfsLookupParent env s path with
  | (s, .error e) => (s, .error e)
  | (s, .ok (p, name, trailing)) =>
    match p.node with
    | none => (s, .error .eio)
    | some dir =>
      match lookupIn env s dir name with
      | (s, some target) =>
        let r := changeTarget env s dir target name trailing op
        (vfsPathPut ((s.setWorld r.1).put target) p.entries, r.2)
      | (s, none) =>
        match op with
        | .createDirectory =>
          let m := env.mkdir s.world dir name
          (vfsPathPut (s.setWorld m.2) p.entries, if m.1 then .ok () else .error .eio)
        | _ => (vfsPathPut s p.entries, .error .enoent)

def vfsStat (env : World ω) (s : State ι ω) (path : Name) : State ι ω × Except Errno Unit :=
  match vfsLookup env s path with
  | (s, .error e) => (s, .error e)
  | (s, .ok p) =>
    match p.node with
    | none => (s, .error .eio)
    | some node =>
      let a := env.getattr s.world node
      (vfsPathPut (s.setWorld a.2) p.entries, if a.1 then .ok () else .error .eio)

/-- The component of a mount directly below a directory. -/
def mountChildName (parent mounted : Name) : Option Name :=
  let child :=
    if parent = [slash] then some (mounted.drop 1)
    else if parent.isPrefixOf mounted ∧ mounted[parent.length]? = some slash then
      some (mounted.drop (parent.length + 1))
    else none
  child.filter fun c => ¬ c.isEmpty ∧ c.length ≤ vfsNameMax ∧ slash ∉ c

/-- Names of the mounts directly below a directory, in the order of the table. -/
def mountChildren (s : State ι ω) (parent : Name) : List Name :=
  (finRange vfsMaxMounts).filterMap fun slot =>
    (s.mounts slot).bind fun m => mountChildName parent m.path

/-- The next of these names that the directory does not have itself, and how many were seen. -/
def virtualMountEntry (env : World ω) (s : State ι ω) (dir : Node) :
    List Name → ℕ → State ι ω × ℕ × Option Name
  | [], index => (s, index, none)
  | name :: names, index =>
    match lookupIn env s dir name with
    | (s, some node) => virtualMountEntry env (s.put node) dir names (index + 1)
    | (s, none) => (s, index + 1, some name)

/-- Whether it found an entry, and the next cookie. The cookie is `some n` in the phase of the
mounts. -/
def readDirOneLocked (env : World ω) (s : State ι ω) (dir : Node) (name : Name) :
    Option ℕ → State ι ω × Option (Option ℕ)
  | some n =>
    let r := virtualMountEntry env s dir ((mountChildren s name).drop n) n
    (r.1, r.2.2.map fun _ => some r.2.1)
  | none =>
    if s.type dir ≠ .directory then (s, none)
    else
      let r := env.iterated s.world dir
      let s := s.setWorld r.2
      if r.1 then
        let v := virtualMountEntry env s dir (mountChildren s name) 0
        (v.1, v.2.2.map fun _ => some v.2.1)
      else (s, some none)

def readDirLoop (env : World ω) (dir : Node) (name : Name) :
    ℕ → State ι ω → Option ℕ → State ι ω
  | 0, s, _ => s
  | count + 1, s, index =>
    match readDirOneLocked env s dir name index with
    | (s, none) => s
    | (s, some index) => readDirLoop env dir name count s index

/-- `vfs_read_dir` with room for `count` entries; `vfs_read_dir_one` is the case of one. -/
def vfsReadDir (env : World ω) (s : State ι ω) (path : Name) (index : Option ℕ) (count : ℕ) :
    State ι ω :=
  match vfsLookup env s path with
  | (s, .error _) => s
  | (s, .ok p) =>
    match p.node with
    | none => s
    | some dir => vfsPathPut (readDirLoop env dir p.name count s index) p.entries

/-- `mount_name`: the components of a mount's path, none of them a dot name. -/
def mountComponents (rest : Name) : Option (List Name) :=
  match rest with
  | [] => some []
  | c :: tail =>
    if c = slash then mountComponents tail
    else
      let name := (c :: tail).takeWhile (· ≠ slash)
      if name.length > vfsNameMax ∨ name = [dot] ∨ name = [dot, dot] then none
      else (mountComponents ((c :: tail).dropWhile (· ≠ slash))).map (name :: ·)
termination_by rest.length
decreasing_by
  · exact Nat.lt_succ_self _
  · have hc : decide (c ≠ slash) = true := by simpa using ‹¬ c = slash›
    rw [dropWhile_cons,if_pos hc]
    exact Nat.lt_succ_of_le (dropWhile_suffix _).length_le

def mountName (path : Name) : Option Name :=
  match vfsPathLength path with
  | .error _ => none
  | .ok _ => (mountComponents path.tail).map fun names =>
      slash :: (intersperse [slash] names).flatten

/-- The root inode the file system has got is published or given back. -/
def mountType (env : World ω) (s : State ι ω) (path : Name) : State ι ω × Except Errno Unit :=
  match mountName path with
  | none => (s, .error .einval)
  | some name =>
    if (s.findMount name).isSome then (s, .error .ebusy)
    else
      match (finRange vfsMaxMounts).find? fun slot => (s.mounts slot).isNone with
      | none => (s, .error .enomem)
      | some slot =>
        let r := env.mount s.world slot
        let failed := fun (w : ω) => (s.setWorld (env.unmount w slot), Except.error Errno.einval)
        match r.2.1 with
        | none => failed r.2.2
        | some (number, type) =>
          let a := env.kmalloc r.2.2
          if a.1 ∧ r.1 ∧ type = .directory then
            ({ s.setWorld a.2 with
                mounts := update s.mounts slot
                  (some ⟨name,number,[⟨number,type,1⟩],0⟩) }, .ok ())
          else failed a.2

def hasChild (s : State ι ω) (slot : Slot) (name : Name) : Bool :=
  (finRange vfsMaxMounts).any fun j => j != slot && (s.mounts j).any fun m =>
    name.isPrefixOf m.path && (name.length == 1 || m.path[name.length]? == some slash)

def vfsUnmount (env : World ω) (s : State ι ω) (path : Name) : State ι ω × Except Errno Unit :=
  match mountName path with
  | none => (s, .error .einval)
  | some name =>
    match s.findMount name with
    | none => (s, .error .einval)
    | some slot =>
      match s.mounts slot with
      | none => (s, .error .einval)
      | some m =>
        if m.openFiles ≠ 0 then (s, .error .ebusy)
        else if hasChild s slot name then (s, .error .ebusy)
        else if m.inodes.any fun i => i.number ≠ m.root ∨ i.references ≠ 1 then
          (s, .error .ebusy)
        else
          let y := env.sync s.world slot
          if ¬ y.1 then (s.setWorld y.2, .error .eio)
          else
            ({ s.setWorld (env.unmount y.2 slot) with
                mounts := update s.mounts slot none }, .ok ())

inductive Op (ι : Type*) where
  | open (i : ι) (path : Name)
  | create (i : ι) (path : Name)
  | close (i : ι)
  | transfer (i : ι)
  | stat (path : Name)
  | changeName (path : Name) (op : NameOperation)
  | readDir (path : Name) (index : Option ℕ) (count : ℕ)
  | mount (path : Name)
  | unmount (path : Name)

variable [DecidableEq ι]

/-- One public operation. A file object is opened only while it is not open. -/
def step (env : World ω) (s : State ι ω) : Op ι → State ι ω
  | .open i path => if (s.files i).isSome then s else (vfsOpen env s path i).1
  | .create i path => if (s.files i).isSome then s else (vfsCreate env s path i).1
  | .close i => closeLocked s i
  | .transfer i => (s.files i).elim s fun node => s.setWorld (env.transfer s.world node)
  | .stat path => (vfsStat env s path).1
  | .changeName path op => (changeName env s path op).1
  | .readDir path index count => vfsReadDir env s path index count
  | .mount path => (mountType env s path).1
  | .unmount path => (vfsUnmount env s path).1

def State.init (w : ω) : State ι ω := ⟨fun _ => none,fun _ => none,w⟩

end GaiaKernel.Vfs
