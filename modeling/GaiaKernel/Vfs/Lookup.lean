import GaiaKernel.Vfs.State

/-! # The path walk

`vfs_lookup` and `vfs_lookup_parent` of fs/vfs/namei.c. A path is walked with a stack of
entries that hold references, the root at the bottom; `..` takes the top one off.
-/
namespace GaiaKernel.Vfs
variable {ι ω : Type*}

structure Dentry where
  node : Node
  pathLength : ℕ

/-- `struct vfs_path`: the entries, the one reached first, and the buffer for the name. -/
structure Path where
  entries : List Dentry
  name : Name

def vfsPathLength (path : Name) : Except Errno ℕ :=
  if path.head? ≠ some slash then .error .einval
  else if path.length < vfsPathMax then .ok path.length
  else .error .enametoolong

def popEntry (s : State ι ω) (p : Path) : State ι ω × Path :=
  match p.entries with
  | [] => (s, p)
  | e :: rest =>
    (s.put e.node, ⟨rest,p.name.take (rest.head?.elim 0 Dentry.pathLength)⟩)

def vfsPathPut (s : State ι ω) (entries : List Dentry) : State ι ω :=
  entries.foldl (fun s e => s.put e.node) s

def pushEntry (env : World ω) (s : State ι ω) (p : Path) (node : Node) :
    State ι ω × Except Errno Path :=
  let r := env.kmalloc s.world
  if r.1 then (s.setWorld r.2, .ok ⟨⟨node,p.name.length⟩ :: p.entries,p.name⟩)
  else ((s.setWorld r.2).put node, .error .enomem)

/-- The inode of a component: the root of a mount at this name, or what the directory says. -/
def childOf (env : World ω) (s : State ι ω) (dir : Node) (full name : Name) :
    State ι ω × Except Errno Node :=
  match s.findMount full with
  | some slot => (s.ref (slot, s.rootOf slot), .ok (slot, s.rootOf slot))
  | none =>
    let r := env.lookup s.world dir name
    match r.1 with
    | none => (s.setWorld r.2, .error .enoent)
    | some (number, type) =>
      let g := (s.setWorld r.2).get env (dir.1, number) type
      if g.2 then (g.1, .ok (dir.1, number)) else (g.1, .error .enoent)

def walkName (env : World ω) (s : State ι ω) (p : Path) (name : Name) :
    State ι ω × Except Errno Path :=
  match p.entries with
  | [] => (s, .ok p)
  | top :: below =>
    let fail := fun (s : State ι ω) (e : Errno) => (vfsPathPut s p.entries, Except.error e)
    if s.type top.node ≠ .directory then fail s .enotdir
    else if name.length > vfsNameMax then fail s .enametoolong
    else if name = [dot] then (s, .ok p)
    else if name = [dot, dot] then
      if below.isEmpty then (s, .ok p)
      else
        let r := popEntry s p
        (r.1, .ok r.2)
    else
      let base := p.name.take top.pathLength ++ if top.pathLength > 1 then [slash] else []
      if name.length ≥ vfsPathMax - base.length then fail s .enametoolong
      else
        let full := base ++ name
        match childOf env s top.node full name with
        | (s, .error e) => fail s e
        | (s, .ok node) =>
          match pushEntry env s { p with name := full } node with
          | (s, .error e) => fail s e
          | (s, .ok p) => (s, .ok p)

def walk (env : World ω) (s : State ι ω) (p : Path) (rest : Name) :
    State ι ω × Except Errno Path :=
  match rest with
  | [] => (s, .ok p)
  | c :: tail =>
    if c = slash then walk env s p tail
    else
      match walkName env s p ((c :: tail).takeWhile (· ≠ slash)) with
      | (s, .error e) => (s, .error e)
      | (s, .ok p) => walk env s p ((c :: tail).dropWhile (· ≠ slash))
termination_by rest.length
decreasing_by
  · exact Nat.lt_succ_self _
  · have hc : decide (c ≠ slash) = true := by simpa using ‹¬ c = slash›
    rw [List.dropWhile_cons,if_pos hc]
    exact Nat.lt_succ_of_le (List.dropWhile_suffix _).length_le

def vfsLookup (env : World ω) (s : State ι ω) (path : Name) : State ι ω × Except Errno Path :=
  match s.findMount [slash] with
  | none => (s, .error .enodev)
  | some root =>
    match vfsPathLength path with
    | .error e => (s, .error e)
    | .ok _ =>
      match pushEntry env (s.ref (root, s.rootOf root)) ⟨[],[slash]⟩ (root, s.rootOf root) with
      | (s, .error e) => (s, .error e)
      | (s, .ok p) =>
        match walk env s p path.tail with
        | (s, .error e) => (s, .error e)
        | (s, .ok p) =>
          if path.getLast? = some slash ∧
              (p.entries.head?.elim NodeType.none fun e => s.type e.node) ≠ .directory then
            (vfsPathPut s p.entries, .error .enotdir)
          else (s, .ok p)

end GaiaKernel.Vfs
