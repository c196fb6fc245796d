import GaiaKernel.Vfs.RefBalance
import Mathlib.Data.List.TakeWhile

/-! # What a path names

`Namespace.resolve` is the meaning of a path: a fold over its components that moves between
canonical positions, given as the names from the innermost to the outermost. The walk of
`vfs_lookup` follows it, entry by entry.
-/
namespace GaiaKernel.Vfs
open List

/-! ## Components -/

def components (path : Name) : List Name := (path.splitOn slash).filter (· ≠ [])

theorem components_slash (rest : Name) : components (slash :: rest) = components rest := by
  simp [components,splitOn,splitOnP_cons_eq_if_modifyHead]

variable {name path : Name}

theorem splitOn_name (h : slash ∉ name) : name.splitOn slash = [name] := by
  refine splitOnP_eq_singleton fun x hx => ?_
  rw [beq_eq_false_iff_ne]
  rintro rfl
  exact h hx

theorem components_snoc (path : Name) (hne : name ≠ []) (hs : slash ∉ name) :
    components (path ++ slash :: name) = components path ++ [name] := by
  have hsplit : (path ++ slash :: name).splitOn slash = path.splitOn slash ++ name.splitOn slash :=
    splitOnP_append_cons path name (beq_self_eq_true slash)
  simp [components,hsplit,splitOn_name hs,hne]

theorem components_name {c : Byte} (hc : c ≠ slash) (tail : Name) :
    components (c :: tail) = (c :: tail).takeWhile (· ≠ slash) ::
      components ((c :: tail).dropWhile (· ≠ slash)) := by
  have hname : (c :: tail).takeWhile (· ≠ slash) ≠ [] := by simp [hc]
  have hout : slash ∉ (c :: tail).takeWhile (· ≠ slash) := by
    intro hx
    simpa using mem_takeWhile_imp hx
  have hhead := head?_dropWhile_not (· ≠ slash) (c :: tail)
  have hsplit := takeWhile_append_dropWhile (p := (· ≠ slash)) (l := c :: tail)
  generalize (c :: tail).takeWhile (· ≠ slash) = name at *
  generalize (c :: tail).dropWhile (· ≠ slash) = rest at *
  rw [← hsplit]
  cases rest with
  | nil => simp [components,splitOn_name hout,hname]
  | cons a as =>
    obtain rfl : a = slash := by simpa using hhead
    have happend : (name ++ slash :: as).splitOn slash = name.splitOn slash ++ as.splitOn slash :=
      splitOnP_append_cons name as (beq_self_eq_true slash)
    rw [components_slash]
    simp [components,happend,splitOn_name hout,hname]

theorem path_induction {P : Name → Prop} (nil : P []) (skip : ∀ rest, P rest → P (slash :: rest))
    (name : ∀ c tail, c ≠ slash → P ((c :: tail).dropWhile (· ≠ slash)) → P (c :: tail)) :
    ∀ path, P path
  | [] => nil
  | c :: tail =>
    if hc : c = slash then hc ▸ skip tail (path_induction nil skip name tail)
    else name c tail hc (path_induction nil skip name _)
termination_by path => path.length
decreasing_by
  · exact Nat.lt_succ_self _
  · have hc' : decide (c ≠ slash) = true := by simpa using hc
    rw [dropWhile_cons,if_pos hc']
    exact Nat.lt_succ_of_le (dropWhile_suffix _).length_le

theorem mem_components (h : name ∈ components path) : name ≠ [] ∧ slash ∉ name := by
  induction path using path_induction with
  | nil => exact (not_mem_nil h).elim
  | skip rest ih => exact ih h
  | name c tail hc ih =>
    rw [components_name hc] at h
    rcases mem_cons.mp h with rfl | h
    · refine ⟨by simp [hc],fun hs => ?_⟩
      simpa using mem_takeWhile_imp hs
    · exact ih h

theorem getLast?_of_components_nil (h : components path = []) (hne : path ≠ []) :
    path.getLast? = some slash := by
  induction path using path_induction with
  | nil => exact absurd rfl hne
  | skip rest ih =>
    cases rest with
    | nil => rfl
    | cons a as => exact ih h (cons_ne_nil _ _)
  | name c tail hc ih =>
    rw [components_name hc] at h
    exact absurd h (cons_ne_nil _ _)

/-! ## Canonical names -/

structure IsName (name : Name) : Prop where
  nonempty : name ≠ []
  noSlash : slash ∉ name
  notDot : name ≠ [dot]
  notDots : name ≠ [dot, dot]

def nameOf : List Name → Name
  | [] => [slash]
  | name :: above => (if above = [] then [slash] else nameOf above ++ [slash]) ++ name

section
variable {here : List Name} (h : ∀ name ∈ here, IsName name)
include h

theorem components_nameOf : components (nameOf here) = here.reverse := by
  induction here with
  | nil => rfl
  | cons name above ih =>
    obtain ⟨hname,habove⟩ := forall_mem_cons.mp h
    rw [nameOf,reverse_cons,← ih habove]
    by_cases ha : above = []
    · rw [if_pos ha,ha]
      exact components_snoc [] hname.nonempty hname.noSlash
    · rw [if_neg ha,append_assoc]
      exact components_snoc _ hname.nonempty hname.noSlash

theorem nameOf_cons (name : Name) : nameOf (name :: here) =
      nameOf here ++ (if (nameOf here).length > 1 then [slash] else []) ++ name := by
  cases here with
  | nil => rfl
  | cons n above =>
    have hn := (h n (mem_cons_self ..)).nonempty
    have hlen : (nameOf (n :: above)).length > 1 := by
      have := length_pos_iff.mpr hn
      rw [nameOf,length_append]
      split_ifs <;> simp <;> omega
    rw [if_pos hlen,nameOf,if_neg (cons_ne_nil _ _)]

theorem getLast?_nameOf (hl : (nameOf here).getLast? = some slash) : here = [] := by
  cases here with
  | nil => rfl
  | cons name above =>
    obtain ⟨hne,hs,-,-⟩ := h name (mem_cons_self ..)
    rw [nameOf,getLast?_append_of_ne_nil _ hne] at hl
    exact absurd (mem_of_getLast? hl) hs

end

theorem head?_nameOf (here : List Name) : (nameOf here).head? = some slash := by
  induction here with
  | nil => rfl
  | cons name above ih =>
    rw [nameOf]
    split_ifs
    · rfl
    · rw [append_assoc,head?_append,ih]
      rfl

/-! ## The meaning of a path -/

/-- A mount table by canonical names, and the trees of the mounted file systems. -/
structure Namespace where
  mountAt : Name → Option Node
  child : Node → Name → Option ℕ
  type : Node → NodeType

namespace Namespace
variable (ns : Namespace)

/-- The inode at a position: the root of the mount there, or else what the directory above has
under the name. -/
def nodeAt : List Name → Option Node
  | [] => ns.mountAt [slash]
  | name :: above =>
    match ns.mountAt (nameOf (name :: above)) with
    | some root => some root
    | none => (nodeAt above).bind fun dir => (ns.child dir name).map fun n => (dir.1, n)

def isDirectory (here : List Name) : Bool :=
  (ns.nodeAt here).any fun node => ns.type node = .directory

/-- The step of the fold. Every component needs a directory, dot names included. -/
def enter (here : List Name) (name : Name) : Except Errno (List Name) :=
  if ¬ ns.isDirectory here then .error .enotdir
  else if name.length > vfsNameMax then .error .enametoolong
  else if name = [dot] then .ok here
  else if name = [dot, dot] then .ok here.tail
  else if vfsPathMax ≤ (nameOf (name :: here)).length then .error .enametoolong
  else if (ns.nodeAt (name :: here)).isSome then .ok (name :: here)
  else .error .enoent

def resolve (path : Name) : Except Errno (List Name) :=
  if (ns.mountAt [slash]).isNone then .error .enodev
  else
    match vfsPathLength path with
    | .error e => .error e
    | .ok _ =>
      match (components path).foldlM ns.enter [] with
      | .error e => .error e
      | .ok here =>
        if path.getLast? = some slash ∧ ¬ ns.isDirectory here then .error .enotdir
        else .ok here

def Reached : List Name → Prop
  | [] => True
  | name :: above => Reached above ∧ IsName name ∧ name.length ≤ vfsNameMax ∧
      ns.isDirectory above ∧ (nameOf (name :: above)).length < vfsPathMax ∧
      (ns.nodeAt (name :: above)).isSome

variable {ns} {here : List Name}
variable (h : ns.Reached here)
include h

theorem Reached.names : ∀ name ∈ here, IsName name := by
  induction here with
  | nil => exact fun name hn => (not_mem_nil hn).elim
  | cons name above ih => exact forall_mem_cons.mpr ⟨h.2.1,ih h.1⟩

theorem Reached.tail : ns.Reached here.tail := by
  cases here with
  | nil => exact h
  | cons name above => exact h.1

theorem Reached.enter (hn : name ≠ [] ∧ slash ∉ name)
    {there : List Name} (he : ns.enter here name = .ok there) : ns.Reached there := by
  unfold Namespace.enter at he
  split_ifs at he with hdir hlen hdot hdots hroom hnode
  · cases he
    exact h
  · cases he
    exact h.tail
  · cases he
    exact ⟨h,⟨hn.1,hn.2,hdot,hdots⟩,Nat.le_of_not_lt hlen,hdir,Nat.lt_of_not_le hroom,hnode⟩

theorem Reached.foldlM {names : List Name}
    (hn : ∀ name ∈ names, name ≠ [] ∧ slash ∉ name) {there : List Name}
    (he : names.foldlM ns.enter here = .ok there) : ns.Reached there := by
  induction names generalizing here with
  | nil =>
    cases he
    exact h
  | cons name names ih =>
    rw [foldlM_cons] at he
    obtain ⟨hname,hrest⟩ := forall_mem_cons.mp hn
    cases hstep : ns.enter here name with
    | error e =>
      rw [hstep] at he
      cases he
    | ok next =>
      rw [hstep] at he
      exact ih (h.enter hname hstep) hrest he

theorem Reached.refold : here.reverse.foldlM ns.enter [] = .ok here := by
  induction here with
  | nil => rfl
  | cons name above ih =>
    obtain ⟨habove,hname,hlen,hdir,hroom,hnode⟩ := h
    rw [reverse_cons,foldlM_append,ih habove]
    change (List.foldlM ns.enter above [name]) = _
    rw [foldlM_cons]
    have henter : ns.enter above name = .ok (name :: above) := by
      rw [Namespace.enter,if_neg (not_not.mpr hdir),if_neg (Nat.not_lt.mpr hlen),
        if_neg hname.notDot,if_neg hname.notDots,if_neg (Nat.not_le.mpr hroom),if_pos hnode]
    rw [henter]
    rfl

omit h

theorem resolve_reached (h : ns.resolve path = .ok here) :
    ns.Reached here ∧ (ns.mountAt [slash]).isSome ∧ ns.isDirectory [] := by
  unfold resolve at h
  split_ifs at h with hroot
  cases hl : vfsPathLength path with
  | error e =>
    rw [hl] at h
    cases h
  | ok n =>
    simp only [hl] at h
    cases hf : (components path).foldlM ns.enter [] with
    | error e =>
      rw [hf] at h
      cases h
    | ok there =>
      simp only [hf] at h
      split_ifs at h with hlast
      cases h
      have hstart : ns.Reached [] := trivial
      refine ⟨hstart.foldlM (fun name hn => mem_components hn) hf,?_,?_⟩
      · exact Option.isSome_iff_ne_none.mpr fun hn => hroot (Option.isNone_iff_eq_none.mpr hn)
      · cases hc : components path with
        | nil =>
          -- only slashes, so the last one asks for a directory
          have hne : path ≠ [] := by
            rintro rfl
            cases hl
          rw [hc] at hf
          cases hf
          by_contra hdir
          exact hlast ⟨getLast?_of_components_nil hc hne,hdir⟩
        | cons name names =>
          rw [hc,foldlM_cons] at hf
          by_contra hdir
          rw [Namespace.enter,if_pos hdir] at hf
          cases hf

theorem resolve_nameOf (h : ns.resolve path = .ok here) : ns.resolve (nameOf here) = .ok here := by
  obtain ⟨hreached,hroot,hdir⟩ := resolve_reached h
  have hlen : (nameOf here).length < vfsPathMax := by
    cases here with
    | nil => decide
    | cons name above => exact hreached.2.2.2.2.1
  have hpath : vfsPathLength (nameOf here) = .ok (nameOf here).length := by
    rw [vfsPathLength,if_neg (not_not.mpr (head?_nameOf here)),if_pos hlen]
  have hnone : ¬ (ns.mountAt [slash]).isNone = true := fun hn =>
    Option.isSome_iff_ne_none.mp hroot (Option.isNone_iff_eq_none.mp hn)
  rw [resolve,if_neg hnone,hpath]
  simp only [components_nameOf hreached.names,hreached.refold]
  rw [if_neg]
  rintro ⟨hlast,hnot⟩
  rw [getLast?_nameOf hreached.names hlast] at hnot
  exact hnot hdir

end Namespace

end GaiaKernel.Vfs
