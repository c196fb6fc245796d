import GaiaKernel.Vfs.PathSpec
import GaiaKernel.Vfs.RefRuns

/-! # `vfs_lookup` resolves paths

The walk's stack of entries is the chain of positions above the one reached, so `vfs_lookup`
returns the inode and the canonical name that `Namespace.resolve` gives.
-/
namespace GaiaKernel.Vfs
open List Except Option Namespace
variable {c : Cache} {here : List Name} {p : Path}
section
variable {ι ω : Type*} {s : State ι ω} {env : World ω} {ns : Namespace}

/-! ## States that show a namespace -/

/-- Memory is there, and file systems answer from the trees. -/
structure Serves (env : World ω) (ns : Namespace) : Prop where
  kmalloc : ∀ w, (env.kmalloc w).1 = true
  lookup : ∀ w dir name, (env.lookup w dir name).1 =
    (ns.child dir name).map fun n => (n, ns.type (dir.1, n))

structure Shows (s : State ι ω) (ns : Namespace) : Prop where
  mounts : ∀ name, (s.findMount name).map (fun slot => (slot, s.rootOf slot)) = ns.mountAt name
  types : ∀ slot, ∀ i ∈ s.cache slot, i.type = ns.type (slot, i.number)

theorem findMount_modify (s : State ι ω) (slot : Slot) {f : Mount → Mount}
    (hf : ∀ m, (f m).path = m.path) (name : Name) :
    (s.modify slot f).findMount name = s.findMount name := by
  have hany : ∀ j, ((s.modify slot f).mounts j).any (·.path = name) =
      (s.mounts j).any (·.path = name) := by
    intro j
    simp only [State.modify]
    by_cases hj : j = slot
    · rw [if_pos hj]
      cases s.mounts j with
      | none => rfl
      | some m => simp [hf]
    · rw [if_neg hj]
  simp [State.findMount,hany]

theorem rootOf_modify (s : State ι ω) (slot : Slot) {f : Mount → Mount}
    (hf : ∀ m, (f m).root = m.root) (j : Slot) : (s.modify slot f).rootOf j = s.rootOf j := by
  simp only [State.rootOf,State.modify]
  by_cases hj : j = slot
  · rw [if_pos hj]
    cases s.mounts j with
    | none => rfl
    | some m => exact hf m
  · rw [if_neg hj]

variable (h : Shows s ns)
include h

theorem Shows.setCache {slot : Slot}
    (hc : ∀ i ∈ c, i.type = ns.type (slot, i.number)) : Shows (s.setCache slot c) ns := by
  refine ⟨fun name => ?_,fun j i hi => ?_⟩
  · rw [← h.mounts name,State.setCache,
      findMount_modify s slot (f := fun m => { m with inodes := c }) fun _ => rfl]
    simp [rootOf_modify s slot (f := fun m => { m with inodes := c }) fun _ => rfl]
  · simp only [State.setCache,State.modify,State.cache] at hi
    by_cases hj : j = slot
    · subst hj
      rw [if_pos rfl] at hi
      cases hm : s.mounts j with
      | none =>
        rw [hm] at hi
        exact (not_mem_nil hi).elim
      | some m =>
        rw [hm] at hi
        exact hc i hi
    · rw [if_neg hj] at hi
      exact h.types j i hi

theorem Shows.setWorld (w : ω) : Shows (s.setWorld w) ns := ⟨h.mounts,h.types⟩

omit h in
theorem Cache.types_ref {P : ℕ → NodeType → Prop} (h : ∀ i ∈ c, P i.number i.type)
    (n : ℕ) : ∀ i ∈ c.ref n, P i.number i.type := by
  induction c with
  | nil => exact h
  | cons i is ih =>
    obtain ⟨hi,his⟩ := forall_mem_cons.mp h
    rw [ref]
    split_ifs
    · exact forall_mem_cons.mpr ⟨hi,his⟩
    · exact forall_mem_cons.mpr ⟨hi,ih his⟩

omit h in
theorem Cache.types_put {P : ℕ → NodeType → Prop} (h : ∀ i ∈ c, P i.number i.type)
    (n : ℕ) : ∀ i ∈ c.put n, P i.number i.type := by
  induction c with
  | nil => exact h
  | cons i is ih =>
    obtain ⟨hi,his⟩ := forall_mem_cons.mp h
    rw [put]
    split_ifs
    · exact his
    · exact forall_mem_cons.mpr ⟨hi,his⟩
    · exact forall_mem_cons.mpr ⟨hi,ih his⟩

theorem Shows.ref (node : Node) : Shows (s.ref node) ns :=
  h.setCache (Cache.types_ref (P := fun n t => t = ns.type (node.1, n)) (h.types _) _)

theorem Shows.put (node : Node) : Shows (s.put node) ns :=
  h.setCache (Cache.types_put (P := fun n t => t = ns.type (node.1, n)) (h.types _) _)

theorem Shows.pathPut (entries : List Dentry) : Shows (vfsPathPut s entries) ns := by
  induction entries generalizing s with
  | nil => exact h
  | cons e rest ih => exact ih (h.put e.node)

theorem Shows.get (hk : Serves env ns) (node : Node) :
    (s.get env node (ns.type node)).2 = true ∧ Shows (s.get env node (ns.type node)).1 ns := by
  unfold State.get
  by_cases hc : ((s.cache node.1).find node.2).isSome
  · rw [if_pos hc]
    exact ⟨rfl,h.ref node⟩
  · rw [if_neg hc]
    simp only [hk.kmalloc,if_true]
    exact ⟨trivial,(h.setWorld _).setCache (forall_mem_cons.mpr ⟨rfl,h.types _⟩)⟩

theorem Shows.type_eq {node : Node} (hc : (s.cache node.1).Ok)
    (hn : 0 < (s.cache node.1).refs node.2) : s.type node = ns.type node := by
  obtain ⟨i,hi⟩ := Option.isSome_iff_exists.mp ((Cache.find_isSome_iff hc).mpr hn)
  have hnumber : i.number = node.2 := by simpa using find?_some hi
  rw [State.type,hi]
  exact (h.types node.1 i (mem_of_find?_eq_some hi)).trans (by rw [hnumber])

/-! ## The walk and the fold -/

omit h in
def Follows (ns : Namespace) : List Dentry → List Name → Prop
  | [], _ => False
  | [e], here => here = [] ∧ ns.nodeAt [] = some e.node ∧ e.pathLength = 1
  | e :: es, here => ns.nodeAt here = some e.node ∧ e.pathLength = (nameOf here).length ∧
      here ≠ [] ∧ Follows ns es here.tail

omit h in
def Agrees (ns : Namespace) (r : State ι ω × Except Errno Path) (x : Except Errno (List Name)) :
    Prop :=
  Shows r.1 ns ∧
    match r.2, x with
    | .ok p, .ok here => Follows ns p.entries here ∧ p.name = nameOf here
    | .error e, .error e' => e = e'
    | _, _ => False

omit h in
theorem Follows.top {e : Dentry} {es : List Dentry} (h : Follows ns (e :: es) here) :
    ns.nodeAt here = some e.node ∧ e.pathLength = (nameOf here).length := by
  cases es with
  | nil =>
    obtain ⟨rfl,hnode,hlen⟩ := h
    exact ⟨hnode,hlen⟩
  | cons e' es => exact ⟨h.1,h.2.1⟩

omit h in
theorem Follows.push {e : Dentry} {es : List Dentry} {name : Name}
    (h : Follows ns es here) (hnode : ns.nodeAt (name :: here) = some e.node)
    (hlen : e.pathLength = (nameOf (name :: here)).length) : Follows ns (e :: es) (name :: here) := by
  cases es with
  | nil => exact h.elim
  | cons e' es => exact ⟨hnode,hlen,cons_ne_nil _ _,h⟩

omit h in
theorem take_nameOf (name : Name) (above : List Name) :
    (nameOf (name :: above)).take (nameOf above).length = nameOf above := by
  rw [nameOf]
  split_ifs with ha
  · subst ha
    rfl
  · rw [append_assoc,take_left]

theorem Shows.childOf (hk : Serves env ns) {dir : Node}
    (hdir : ns.nodeAt here = some dir) (name : Name) :
    Shows (childOf env s dir (nameOf (name :: here)) name).1 ns ∧
      (childOf env s dir (nameOf (name :: here)) name).2 =
        (ns.nodeAt (name :: here)).elim (.error .enoent) .ok := by
  have hmount := h.mounts (nameOf (name :: here))
  unfold Vfs.childOf
  rw [nodeAt,← hmount]
  cases s.findMount (nameOf (name :: here)) with
  | some slot => exact ⟨h.ref _,rfl⟩
  | none =>
    simp only [map_none,hdir,bind_some,hk.lookup]
    cases ns.child dir name with
    | none => exact ⟨h.setWorld _,rfl⟩
    | some n =>
      obtain ⟨hfound,hshows⟩ := (h.setWorld (env.lookup s.world dir name).2).get hk (dir.1, n)
      simp only [map_some]
      rw [if_pos hfound]
      exact ⟨hshows,rfl⟩

theorem Shows.fail (entries : List Dentry) (e : Errno) :
    Agrees ns (vfsPathPut s entries, .error e) (.error e) := ⟨h.pathPut entries,rfl⟩

theorem Shows.pushEntry (hk : Serves env ns) (p : Path) (node : Node) :
    Shows (pushEntry env s p node).1 ns ∧
      (pushEntry env s p node).2 = .ok ⟨⟨node,p.name.length⟩ :: p.entries,p.name⟩ := by
  simp only [Vfs.pushEntry,hk.kmalloc,if_true]
  exact ⟨h.setWorld _,trivial⟩

omit h
variable [Fintype ι]
section
variable (h : Shows s ns) (hk : Serves env ns) (hb : Balanced s p.nodes)
  (hf : Follows ns p.entries here) (hp : p.name = nameOf here) (hr : ns.Reached here)
include h hk hb hf hp hr

theorem Shows.walkName (name : Name) : Agrees ns (walkName env s p name) (ns.enter here name) := by
  obtain ⟨entries,buffer⟩ := p
  obtain rfl : buffer = nameOf here := hp
  cases entries with
  | nil => exact hf.elim
  | cons top below =>
    obtain ⟨hnode,hlen⟩ := hf.top
    have htype : s.type top.node = ns.type top.node :=
      h.type_eq (hb.caches _) (hb.refs_pos (mem_cons_self ..))
    have hdir : s.type top.node ≠ .directory ↔ ¬ ns.isDirectory here = true := by
      simp [htype,isDirectory,hnode]
    have hbase : (nameOf here).take top.pathLength ++ (if top.pathLength > 1 then [slash] else []) =
        nameOf here ++ (if (nameOf here).length > 1 then [slash] else []) := by
      rw [hlen,take_length]
    have hfull := nameOf_cons hr.names name
    simp only [Vfs.walkName,enter,hdir,hbase,← hfull]
    by_cases hd : ¬ ns.isDirectory here = true
    · rw [if_pos hd,if_pos hd]
      exact h.fail _ _
    rw [if_neg hd,if_neg hd]
    by_cases hl : name.length > vfsNameMax
    · rw [if_pos hl,if_pos hl]
      exact h.fail _ _
    rw [if_neg hl,if_neg hl]
    by_cases hdot : name = [dot]
    · rw [if_pos hdot,if_pos hdot]
      exact ⟨h,hf,rfl⟩
    rw [if_neg hdot,if_neg hdot]
    by_cases hdots : name = [dot, dot]
    · rw [if_pos hdots,if_pos hdots]
      cases below with
      | nil =>
        obtain ⟨rfl,-,-⟩ := hf
        exact ⟨h,⟨rfl,hnode,hlen⟩,rfl⟩
      | cons e rest =>
        obtain ⟨-,-,hne,hrest⟩ := hf
        obtain ⟨n,above,rfl⟩ := exists_cons_of_ne_nil hne
        refine ⟨h.put _,hrest,?_⟩
        change (nameOf (n :: above)).take e.pathLength = nameOf above
        rw [hrest.top.2]
        exact take_nameOf n above
    rw [if_neg hdots,if_neg hdots]
    have hroom : name.length ≥ vfsPathMax -
        (nameOf here ++ (if (nameOf here).length > 1 then [slash] else [])).length ↔
        vfsPathMax ≤ (nameOf (name :: here)).length := by
      rw [hfull]
      simp only [length_append]
      omega
    simp only [hroom]
    by_cases hlong : vfsPathMax ≤ (nameOf (name :: here)).length
    · rw [if_pos hlong,if_pos hlong]
      exact h.fail _ _
    rw [if_neg hlong,if_neg hlong]
    obtain ⟨hshows,hchild⟩ := h.childOf hk hnode name
    generalize Vfs.childOf env s top.node (nameOf (name :: here)) name = r at hshows hchild
    obtain ⟨s1,r⟩ := r
    obtain rfl : r = _ := hchild
    cases hthere : ns.nodeAt (name :: here) with
    | none => exact hshows.fail _ _
    | some node =>
      obtain ⟨hshows',hpush⟩ := hshows.pushEntry hk ⟨top :: below,nameOf (name :: here)⟩ node
      simp only [elim_some]
      generalize Vfs.pushEntry env s1 ⟨top :: below,nameOf (name :: here)⟩ node = r at hshows' hpush
      obtain ⟨s2,r⟩ := r
      obtain rfl : r = _ := hpush
      exact ⟨hshows',hf.push hthere rfl,rfl⟩

theorem Shows.walk (rest : Name) :
    Agrees ns (walk env s p rest) ((components rest).foldlM ns.enter here) := by
  fun_induction Vfs.walk env s p rest generalizing here with
  | case1 s p => exact ⟨h,hf,hp⟩
  | case2 s p tail ih => exact ih h hb hf hp hr
  | case3 s p c tail hc s' e hw =>
    have hstep := h.walkName hk hb hf hp hr ((c :: tail).takeWhile (· ≠ slash))
    rw [hw] at hstep
    rw [components_name hc,foldlM_cons]
    cases hx : ns.enter here ((c :: tail).takeWhile (· ≠ slash)) with
    | error e' =>
      rw [hx] at hstep
      exact hstep
    | ok there =>
      rw [hx] at hstep
      exact hstep.2.elim
  | case4 s p c tail hc s' p' hw ih =>
    have hmem : (c :: tail).takeWhile (· ≠ slash) ∈ components (c :: tail) := by
      rw [components_name hc]
      exact mem_cons_self ..
    have hstep := h.walkName hk hb hf hp hr ((c :: tail).takeWhile (· ≠ slash))
    have hnext := hb.walkName (p := p) (by
      rintro hnil
      rw [hnil] at hf
      exact hf) env ((c :: tail).takeWhile (· ≠ slash))
    rw [hw] at hstep hnext
    rw [components_name hc,foldlM_cons]
    cases hx : ns.enter here ((c :: tail).takeWhile (· ≠ slash)) with
    | error e' =>
      rw [hx] at hstep
      exact hstep.2.elim
    | ok there =>
      rw [hx] at hstep
      exact ih hstep.1 hnext.2.1 hstep.2.1 hstep.2.2 (hr.enter (mem_components hmem) hx)

end

def Path.found (p : Path) : Option Node × Name := (p.node, p.name)

theorem Follows.node (h : Follows ns p.entries here) : p.node = ns.nodeAt here := by
  obtain ⟨entries,buffer⟩ := p
  cases entries with
  | nil => exact h.elim
  | cons e es => exact h.top.1.symm

omit [Fintype ι] in
theorem Agrees.found {r : State ι ω × Except Errno Path} {x : Except Errno (List Name)}
    (h : Agrees ns r x) : r.2.map Path.found = x.map fun here => (ns.nodeAt here, nameOf here) := by
  obtain ⟨s',r⟩ := r
  obtain ⟨-,h⟩ := h
  match r, x, h with
  | .error e, .error _, rfl => rfl
  | .ok p, .ok here, h =>
    change ok (p.node, p.name) = ok (ns.nodeAt here, nameOf here)
    rw [h.1.node,h.2]

theorem Shows.vfsLookup (h : Shows s ns) (hk : Serves env ns) (hb : Balanced s []) (path : Name) :
    Agrees ns (vfsLookup env s path) (ns.resolve path) := by
  have hmount := h.mounts [slash]
  unfold Vfs.vfsLookup resolve
  rw [← hmount]
  cases hroot : s.findMount [slash] with
  | none => exact ⟨h,rfl⟩
  | some root =>
    rw [map_some,isNone_some,if_neg Bool.false_ne_true]
    cases hl : vfsPathLength path with
    | error e => exact ⟨h,rfl⟩
    | ok n =>
      dsimp only
      obtain ⟨hshows,hpush⟩ := (h.ref (root, s.rootOf root)).pushEntry hk ⟨[],[slash]⟩
        (root, s.rootOf root)
      have hheld := Balanced.pushEntry (p := ⟨[],[slash]⟩)
        (hb.refRoot (findMount_mounted hroot)) env
      generalize Vfs.pushEntry env (s.ref (root, s.rootOf root)) ⟨[],[slash]⟩
        (root, s.rootOf root) = r at hshows hpush hheld
      obtain ⟨s1,r⟩ := r
      obtain rfl : r = _ := hpush
      dsimp only
      have hfollows : Follows ns [⟨(root, s.rootOf root),1⟩] [] := by
        refine ⟨rfl,?_,rfl⟩
        rw [nodeAt,← hmount,hroot]
        rfl
      have hcomponents : components path = components path.tail := by
        cases path with
        | nil => rfl
        | cons c tail =>
          obtain rfl : c = slash := by
            by_contra hc
            simp [vfsPathLength,hc] at hl
          exact components_slash tail
      have hwalk := hshows.walk hk hheld.2.1 hfollows rfl trivial path.tail
      have hnodes := hheld.2.1.walk (cons_ne_nil _ _) env path.tail
      rw [hcomponents]
      generalize Vfs.walk env s1 _ path.tail = r at hwalk hnodes
      obtain ⟨s2,r⟩ := r
      generalize (components path.tail).foldlM ns.enter [] = x at hwalk
      obtain ⟨hs,hwalk⟩ := hwalk
      cases r <;> cases x
      case error.error =>
        cases hwalk
        exact ⟨hs,rfl⟩
      case ok.ok p here =>
        obtain ⟨hf,hp⟩ := hwalk
        have htype : (p.entries.head?.elim NodeType.none fun e => s2.type e.node) ≠ .directory ↔
            ¬ ns.isDirectory here = true := by
          obtain ⟨entries,buffer⟩ := p
          cases entries with
          | nil => exact hf.elim
          | cons e es =>
            have hnode : s2.type e.node = ns.type e.node :=
              hs.type_eq (hnodes.2.1.caches _) (hnodes.2.1.refs_pos (mem_cons_self ..))
            simp [hnode,isDirectory,hf.top.1]
        simp only [htype]
        split_ifs
        · exact hs.fail _ _
        · exact ⟨hs,hf,hp⟩
      all_goals exact hwalk.elim

/-- `vfs_lookup` gives the inode and the canonical name of the position the fold over the
components leads to, and that name leads to the same inode and the same name. -/
theorem vfsLookup_resolves (hk : Serves env ns) (h : Shows s ns) (hb : Balanced s [])
    (path : Name) :
    (vfsLookup env s path).2.map Path.found =
        (ns.resolve path).map (fun here => (ns.nodeAt here, nameOf here)) ∧
      ∀ s₁ p, vfsLookup env s path = (s₁, .ok p) →
        (∃ here, (∀ name ∈ here, IsName name) ∧ p.name = nameOf here) ∧
        (vfsLookup env (vfsPathPut s₁ p.entries) p.name).2.map Path.found = .ok p.found := by
  have hagrees := h.vfsLookup hk hb path
  refine ⟨hagrees.found,fun s₁ p hp => ?_⟩
  have hwalked := hb.vfsLookup env path
  rw [hp] at hagrees hwalked
  cases hx : ns.resolve path with
  | error e =>
    rw [hx] at hagrees
    exact hagrees.2.elim
  | ok here =>
    rw [hx] at hagrees
    obtain ⟨hs,hf,hname⟩ := hagrees
    obtain ⟨hreached,-,-⟩ := resolve_reached hx
    refine ⟨⟨here,hreached.names,hname⟩,?_⟩
    have hagain := (hs.pathPut p.entries).vfsLookup hk hwalked.2.1.release p.name
    have hthere : ns.resolve p.name = .ok here := by
      rw [hname]
      exact resolve_nameOf hx
    rw [hagain.found,hthere]
    change ok (ns.nodeAt here, nameOf here) = ok (p.node, p.name)
    rw [hf.node,hname]

end

/-! ## A volume with one file -/

namespace OneFile

def slot : Slot := ⟨0,by decide⟩
def file : Name := [102#8]

def ns : Namespace where
  mountAt name := if name = [slash] then some (slot, 1) else none
  child dir name := if dir = (slot, 1) ∧ name = file then some 2 else none
  type node := if node.2 = 2 then .file else .directory

def env : World Unit where
  kmalloc w := (true, w)
  lookup w dir name := ((ns.child dir name).map fun n => (n, ns.type (dir.1, n)), w)
  create w _ _ := (none, w)
  mkdir w _ _ := (false, w)
  unlink w _ _ := (false, w)
  rmdir w _ _ := (false, w)
  hasEntries w _ := (none, w)
  getattr w _ := (true, w)
  openFile w _ := (true, w)
  transfer w _ := w
  iterated w _ := (true, w)
  mount w _ := (false, none, w)
  sync w _ := (true, w)
  unmount w _ := w

def root : Mount := ⟨[slash],1,[⟨1,.directory,1⟩],0⟩

def state : State (Fin 1) Unit :=
  { State.init () with mounts := Function.update (fun _ => none) slot (some root) }

theorem serves : Serves env ns := ⟨fun _ => rfl,fun _ _ _ => rfl⟩

theorem balanced : Balanced state [] := by
  have hfree : (State.init () : State (Fin 1) Unit).filesOnSuper slot = 0 := rfl
  refine (Balanced.init ()).setMount hfree (some root) ⟨?_,?_⟩ (fun n => ?_) ?_ ()
  · exact nodup_singleton _
  · exact fun i hi => mem_singleton.mp hi ▸ Nat.one_pos
  · simp [root,Cache.refs]
  · rintro m ⟨⟩
    rfl

theorem shows : Shows state ns := by
  refine ⟨fun name => ?_,fun j i hi => ?_⟩
  · by_cases hn : name = [slash]
    · subst hn
      decide +kernel
    · have hany : ∀ j, ¬ ((state.mounts j).any fun m => m.path = name) = true := by
        intro j
        by_cases h0 : j = slot
        · subst h0
          simpa [state,root] using fun h => hn h.symm
        · simp [state,Function.update_of_ne h0]
      have hnone : state.findMount name = none := find?_eq_none.mpr fun j _ => hany j
      rw [hnone]
      exact (if_neg hn).symm
  · by_cases h0 : j = slot
    · subst h0
      rw [mem_singleton.mp (show i ∈ root.inodes from hi)]
      decide
    · have hnil : state.cache j = [] := by simp [State.cache,state,Function.update_of_ne h0]
      rw [hnil] at hi
      exact (not_mem_nil hi).elim

end OneFile

theorem vfsLookup_resolves_oneFile :
    (vfsLookup OneFile.env OneFile.state
        ([slash, dot, slash, dot, dot, slash, slash] ++ OneFile.file)).2.map Path.found =
      .ok (some (OneFile.slot, 2), slash :: OneFile.file) :=
  (vfsLookup_resolves OneFile.serves OneFile.shows OneFile.balanced _).1.trans rfl

/-- A dot or a slash after a file is an error, where skipping it would give the file. -/
theorem lookup_dot_after_file :
    (vfsLookup OneFile.env OneFile.state (slash :: OneFile.file)).2.map Path.found =
        .ok (some (OneFile.slot, 2), slash :: OneFile.file) ∧
      (vfsLookup OneFile.env OneFile.state (slash :: OneFile.file ++ [slash, dot])).2.map
        Path.found = .error .enotdir ∧
      (vfsLookup OneFile.env OneFile.state (slash :: OneFile.file ++ [slash])).2.map
        Path.found = .error .enotdir := by
  have h := OneFile.shows.vfsLookup OneFile.serves OneFile.balanced
  refine ⟨(h _).found.trans ?_,(h _).found.trans ?_,(h _).found.trans ?_⟩
  · rfl
  · rfl
  · rfl

end GaiaKernel.Vfs
