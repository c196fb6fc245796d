import GaiaKernel.Lib.Counting
import GaiaKernel.Vfs.Ops

/-! # References are balanced

`Balanced s held` says that the references of every inode are those of the open files, of the
mount whose root it is, and of `held`, what the operation in progress holds.
-/
namespace GaiaKernel.Vfs
open Counting Trace List
open Inode (number)
namespace Cache
variable {c : Cache} {n m : ℕ}

structure Ok (c : Cache) : Prop where
  unique : (c.map Inode.number).Nodup
  positive : ∀ i ∈ c, 0 < i.references

theorem Ok.tail {i : Inode} (h : Ok (i :: c)) : Ok c :=
  ⟨(nodup_cons.mp h.unique).2,fun j hj => h.positive j (mem_cons_of_mem _ hj)⟩

theorem Ok.cons {i : Inode} (h : Ok c) (hi : i.number ∉ c.map number)
    (hpos : 0 < i.references) : Ok (i :: c) :=
  ⟨nodup_cons.mpr ⟨hi,h.unique⟩,forall_mem_cons.mpr ⟨hpos,h.positive⟩⟩

theorem refs_of_not_mem (h : n ∉ c.map number) : c.refs n = 0 := by
  induction c with
  | nil => rfl
  | cons i is ih =>
    rw [map_cons,mem_cons,not_or] at h
    rw [refs,if_neg (Ne.symm h.1),ih h.2]

theorem refs_pos_iff (h : c.Ok) : 0 < c.refs n ↔ n ∈ c.map number := by
  constructor
  · intro hpos
    by_contra hn
    rw [refs_of_not_mem hn] at hpos
    exact lt_irrefl 0 hpos
  · induction c with
    | nil => exact fun hn => (not_mem_nil hn).elim
    | cons i is ih =>
      intro hn
      rw [refs]
      split_ifs with hi
      · exact h.positive i (mem_cons_self ..)
      · rw [map_cons,mem_cons] at hn
        exact ih h.tail (hn.resolve_left fun heq => hi heq.symm)

theorem find_isSome_iff (h : c.Ok) : (c.find n).isSome ↔ 0 < c.refs n := by
  rw [refs_pos_iff h,find,find?_isSome]
  simp

theorem refs_ref (hn : 0 < c.refs n) : (c.ref n).refs m = c.refs m + if m = n then 1 else 0 := by
  induction c with
  | nil => exact absurd hn (lt_irrefl 0)
  | cons i is ih =>
    rw [refs] at hn
    rw [ref]
    by_cases hi : i.number = n
    · rw [if_pos hi,refs,refs]
      by_cases hm : m = n
      · simp [hi,hm]
      · simp [hi,hm,Ne.symm hm]
    · rw [if_neg hi] at hn ⊢
      rw [refs,refs,ih hn]
      by_cases him : i.number = m
      · have hmn : m ≠ n := fun hmn => hi (him.trans hmn)
        simp [him,hmn]
      · simp [him]

theorem refs_put (h : c.Ok) : (c.put n).refs m = c.refs m - if m = n then 1 else 0 := by
  induction c with
  | nil => simp [put,refs]
  | cons i is ih =>
    rw [put]
    have hout := (nodup_cons.mp h.unique).1
    by_cases hi : i.number = n
    · rw [if_pos hi,refs]
      by_cases hm : m = n
      · subst hm
        rw [if_pos hi,if_pos rfl]
        split_ifs with hlast
        · rw [refs_of_not_mem (hi ▸ hout),hlast]
        · rw [refs,if_pos hi]
      · have him : i.number ≠ m := fun him => hm (him.symm.trans hi)
        split_ifs with hlast
        · rfl
        · rw [refs,if_neg him]
          rfl
    · rw [if_neg hi,refs,refs,ih h.tail]
      by_cases him : i.number = m
      · have hmn : m ≠ n := fun hmn => hi (him.trans hmn)
        simp [him,hmn]
      · simp [him]

theorem numbers_ref (n : ℕ) (c : Cache) : (c.ref n).map number = c.map number := by
  induction c with
  | nil => rfl
  | cons i is ih =>
    rw [ref]
    split_ifs
    · rfl
    · rw [map_cons,map_cons,ih]

theorem numbers_put (n : ℕ) (c : Cache) :
    ((c.put n).map number).Sublist (c.map number) := by
  induction c with
  | nil => exact List.Sublist.refl _
  | cons i is ih =>
    rw [put]
    split_ifs
    · exact sublist_cons_self _ _
    · exact List.Sublist.refl _
    · exact ih.cons_cons _

theorem ref_ok (h : c.Ok) : (c.ref n).Ok := by
  refine ⟨by rw [numbers_ref]; exact h.unique,?_⟩
  induction c with
  | nil => exact fun i hi => (not_mem_nil hi).elim
  | cons i is ih =>
    rw [ref]
    split_ifs
    · exact forall_mem_cons.mpr ⟨Nat.succ_pos _,h.tail.positive⟩
    · exact forall_mem_cons.mpr ⟨h.positive i (mem_cons_self ..),ih h.tail⟩

theorem put_ok (h : c.Ok) : (c.put n).Ok := by
  refine ⟨(numbers_put n c).nodup h.unique,?_⟩
  induction c with
  | nil => exact fun i hi => (not_mem_nil hi).elim
  | cons i is ih =>
    rw [put]
    split_ifs with hi hlast
    · exact h.tail.positive
    · exact forall_mem_cons.mpr ⟨Nat.pos_of_ne_zero hlast,h.tail.positive⟩
    · exact forall_mem_cons.mpr ⟨h.positive i (mem_cons_self ..),ih h.tail⟩

end Cache

variable {p : Path} {slot : Slot}
section
variable {ι ω : Type*} [Fintype ι] {s : State ι ω} {held : List Node} {node : Node}

def State.filesWith (s : State ι ω) (P : Node → Bool) : ℕ :=
  ∑ i, if (s.files i).any P then 1 else 0

def State.filesOn (s : State ι ω) (node : Node) : ℕ := s.filesWith (· = node)
def State.filesOnSuper (s : State ι ω) (slot : Slot) : ℕ := s.filesWith (·.1 = slot)

def State.rootsOn (s : State ι ω) (node : Node) : ℕ :=
  if (s.mounts node.1).any (·.root = node.2) then 1 else 0

structure Balanced (s : State ι ω) (held : List Node) : Prop where
  refs : ∀ node : Node, (s.cache node.1).refs node.2 =
    s.filesOn node + s.rootsOn node + held.count node
  caches : ∀ slot, (s.cache slot).Ok
  openFiles : ∀ slot m, s.mounts slot = some m → m.openFiles = s.filesOnSuper slot

omit [Fintype ι] in
theorem cache_setCache (hm : (s.mounts slot).isSome) (j : Slot) (c : Cache) :
    (s.setCache slot c).cache j = if j = slot then c else s.cache j := by
  obtain ⟨m,hm⟩ := Option.isSome_iff_exists.mp hm
  simp only [State.setCache,State.modify,State.cache]
  by_cases hj : j = slot
  · subst hj
    simp [hm]
  · simp [hj]

omit [Fintype ι] in
theorem mounted_of_refs {node : Node} (h : 0 < (s.cache node.1).refs node.2) :
    (s.mounts node.1).isSome := by
  cases hm : s.mounts node.1 with
  | none =>
    rw [State.cache,hm] at h
    exact absurd h (lt_irrefl 0)
  | some m => rfl

omit [Fintype ι] in
theorem rootsOn_modify (s : State ι ω) (slot : Slot) {f : Mount → Mount}
    (hf : ∀ m, (f m).root = m.root) (node : Node) :
    (s.modify slot f).rootsOn node = s.rootsOn node := by
  have hany : ((s.modify slot f).mounts node.1).any (·.root = node.2) =
      (s.mounts node.1).any (·.root = node.2) := by
    simp only [State.modify]
    by_cases hj : node.1 = slot
    · rw [if_pos hj]
      cases s.mounts node.1 with
      | none => rfl
      | some m => simp [hf]
    · rw [if_neg hj]
  rw [State.rootsOn,State.rootsOn,hany]

variable (h : Balanced s held)
include h

theorem Balanced.setCache {c : Cache} {held' : List Node} (hm : (s.mounts slot).isSome) (hc : c.Ok)
    (hrefs : ∀ n, c.refs n + held.count (slot, n) = (s.cache slot).refs n + held'.count (slot, n))
    (hother : ∀ node : Node, node.1 ≠ slot → held'.count node = held.count node) :
    Balanced (s.setCache slot c) held' := by
  refine ⟨fun node => ?_,fun j => ?_,fun j m hj => ?_⟩
  · have hroots : (s.setCache slot c).rootsOn node = s.rootsOn node :=
      rootsOn_modify s slot (f := fun m => { m with inodes := c }) (fun _ => rfl) node
    have hold := h.refs node
    rw [cache_setCache hm,hroots]
    change _ = s.filesOn node + _ + _
    by_cases hn : node.1 = slot
    · obtain ⟨slot',n⟩ := node
      obtain rfl : slot' = slot := hn
      rw [if_pos rfl]
      have := hrefs n
      simp only at hold ⊢
      omega
    · rw [if_neg hn,hother node hn]
      exact hold
  · rw [cache_setCache hm]
    split_ifs
    · exact hc
    · exact h.caches j
  · simp only [State.setCache,State.modify] at hj
    split_ifs at hj with hjs
    · obtain ⟨m',hm',rfl⟩ := Option.map_eq_some_iff.mp hj
      exact h.openFiles j m' hm'
    · exact h.openFiles j m hj

omit h in
theorem count_cons_slot (m : ℕ) :
    (node :: held).count (node.1, m) = held.count (node.1, m) + if m = node.2 then 1 else 0 := by
  rw [count_cons]
  congr 1
  by_cases hm : m = node.2
  · simp [hm]
  · simp [hm,Prod.ext_iff,Ne.symm hm]

theorem Balanced.setWorld (w : ω) : Balanced (s.setWorld w) held := ⟨h.refs,h.caches,h.openFiles⟩

theorem Balanced.ref (hn : 0 < (s.cache node.1).refs node.2) :
    Balanced (s.ref node) (node :: held) := by
  refine h.setCache (mounted_of_refs hn) (Cache.ref_ok (h.caches _)) (fun m => ?_) fun node' hne => ?_
  · rw [Cache.refs_ref hn,count_cons_slot]
    omega
  · rw [count_cons_of_ne]
    rintro rfl
    exact hne rfl

theorem Balanced.refs_pos (hn : node ∈ held) : 0 < (s.cache node.1).refs node.2 := by
  rw [h.refs node]
  have := count_pos_iff.mpr hn
  omega

omit h in
theorem Balanced.put (h : Balanced s (node :: held)) : Balanced (s.put node) held := by
  have hpos := h.refs_pos (mem_cons_self ..)
  refine h.setCache (mounted_of_refs hpos) (Cache.put_ok (h.caches _)) (fun m => ?_)
    fun node' hne => ?_
  · rw [Cache.refs_put (h.caches _),count_cons_slot]
    split_ifs with hm
    · subst hm; omega
    · omega
  · rw [count_cons_of_ne]
    rintro rfl
    exact hne rfl

theorem Balanced.mounted (hn : node ∈ held) : (s.mounts node.1).isSome :=
  mounted_of_refs (h.refs_pos hn)

theorem Balanced.get (env : World ω) (node : Node)
    (hm : (s.mounts node.1).isSome) (type : NodeType) :
    if (s.get env node type).2 then Balanced (s.get env node type).1 (node :: held)
    else Balanced (s.get env node type).1 held := by
  unfold State.get
  by_cases hc : ((s.cache node.1).find node.2).isSome
  · rw [if_pos hc,if_pos rfl]
    exact h.ref ((Cache.find_isSome_iff (h.caches _)).mp hc)
  rw [if_neg hc]
  by_cases ha : (env.kmalloc s.world).1 = true
  swap
  · rw [if_neg ha,if_neg Bool.false_ne_true]
    exact h.setWorld _
  rw [if_pos ha,if_pos rfl]
  have hnew : node.2 ∉ (s.cache node.1).map number := by
    rw [← Cache.refs_pos_iff (h.caches _),← Cache.find_isSome_iff (h.caches _)]
    exact hc
  refine (h.setWorld _).setCache hm ((h.caches _).cons hnew Nat.one_pos) (fun m => ?_)
    fun node' hne => ?_
  · change _ = (s.cache node.1).refs m + _
    rw [Cache.refs,count_cons_slot]
    by_cases hm' : m = node.2
    · subst hm'
      simp [Cache.refs_of_not_mem hnew]
      omega
    · simp [hm',Ne.symm hm']
  · rw [count_cons_of_ne]
    rintro rfl
    exact hne rfl

omit h

def Path.nodes (p : Path) : List Node := p.entries.map Dentry.node

theorem Balanced.pathPut {entries : List Dentry}
    (h : Balanced s (entries.map Dentry.node ++ held)) : Balanced (vfsPathPut s entries) held := by
  induction entries generalizing s with
  | nil => exact h
  | cons e rest ih => exact ih h.put

/-- A walk from `s₀` that goes on holds its entries; one that failed holds nothing. No file is
opened or closed. -/
def Walked (s₀ : State ι ω) (r : State ι ω × Except Errno Path) : Prop :=
  r.1.files = s₀.files ∧
    match r.2 with
    | .ok p => Balanced r.1 p.nodes ∧ p.entries ≠ []
    | .error _ => Balanced r.1 []

def Returned (s₀ : State ι ω) (held : List Node) (r : State ι ω × Except Errno Node) : Prop :=
  r.1.files = s₀.files ∧
    match r.2 with
    | .ok node => Balanced r.1 (node :: held)
    | .error _ => Balanced r.1 held

theorem Balanced.refRoot (h : Balanced s held) (hm : (s.mounts slot).isSome) :
    Balanced (s.ref (slot, s.rootOf slot)) ((slot, s.rootOf slot) :: held) := by
  obtain ⟨m,hm⟩ := Option.isSome_iff_exists.mp hm
  have hroot : s.rootsOn (slot, s.rootOf slot) = 1 := by simp [State.rootsOn,State.rootOf,hm]
  have hrefs := h.refs (slot, s.rootOf slot)
  refine h.ref ?_
  omega

omit [Fintype ι] in
theorem findMount_mounted {path : Name} (h : s.findMount path = some slot) :
    (s.mounts slot).isSome := by
  have := find?_some h
  cases hm : s.mounts slot with
  | none => simp [hm] at this
  | some m => rfl

omit [Fintype ι] in
theorem files_get (env : World ω) (s : State ι ω) (node : Node) (type : NodeType) :
    (s.get env node type).1.files = s.files := by
  unfold State.get
  dsimp only
  split_ifs <;> rfl

omit [Fintype ι] in
theorem files_vfsPathPut (s : State ι ω) (entries : List Dentry) :
    (vfsPathPut s entries).files = s.files := by
  induction entries generalizing s with
  | nil => rfl
  | cons e rest ih => exact ih (s.put e.node)

theorem Balanced.childOf (h : Balanced s held) (env : World ω) {dir : Node} (hd : dir ∈ held)
    (full name : Name) : Returned s held (childOf env s dir full name) := by
  unfold Vfs.childOf
  cases hf : s.findMount full with
  | some slot => exact ⟨rfl,h.refRoot (findMount_mounted hf)⟩
  | none =>
    dsimp only
    cases (env.lookup s.world dir name).1 with
    | none => exact ⟨rfl,h.setWorld _⟩
    | some r =>
      obtain ⟨number,type⟩ := r
      have hmounted : (s.mounts dir.1).isSome := h.mounted hd
      have hg := (h.setWorld (env.lookup s.world dir name).2).get env (dir.1, number) hmounted type
      dsimp only
      split_ifs at hg ⊢ with hc
      · exact ⟨files_get env _ _ _,hg⟩
      · exact ⟨files_get env _ _ _,hg⟩

theorem Balanced.pushEntry (h : Balanced s (node :: p.nodes)) (env : World ω) :
    (pushEntry env s p node).1.files = s.files ∧ match (pushEntry env s p node).2 with
      | .ok p' => Balanced (pushEntry env s p node).1 p'.nodes ∧ p'.entries ≠ []
      | .error _ => Balanced (pushEntry env s p node).1 p.nodes := by
  unfold Vfs.pushEntry
  by_cases ha : (env.kmalloc s.world).1 = true
  · rw [if_pos ha]
    exact ⟨rfl,h.setWorld _,cons_ne_nil _ _⟩
  · rw [if_neg ha]
    exact ⟨rfl,(h.setWorld _).put⟩

theorem Balanced.release (h : Balanced s p.nodes) : Balanced (vfsPathPut s p.entries) [] := by
  have h' : Balanced s (p.entries.map Dentry.node ++ []) := by
    rw [append_nil]
    exact h
  exact h'.pathPut

theorem Balanced.fail {s0 : State ι ω} (h : Balanced s p.nodes)
    (hfiles : s.files = s0.files) (e : Errno) : Walked s0 (vfsPathPut s p.entries, .error e) :=
  ⟨(files_vfsPathPut s _).trans hfiles,h.release⟩

theorem Balanced.walkName (h : Balanced s p.nodes) (hp : p.entries ≠ []) (env : World ω)
    (name : Name) : Walked s (walkName env s p name) := by
  obtain ⟨entries,buffer⟩ := p
  cases entries with
  | nil => exact absurd rfl hp
  | cons top below =>
    simp only [Vfs.walkName]
    by_cases htype : s.type top.node ≠ .directory
    · rw [if_pos htype]
      exact h.fail rfl _
    rw [if_neg htype]
    by_cases hlen : name.length > vfsNameMax
    · rw [if_pos hlen]
      exact h.fail rfl _
    rw [if_neg hlen]
    by_cases hdot : name = [dot]
    · rw [if_pos hdot]
      exact ⟨rfl,h,hp⟩
    rw [if_neg hdot]
    by_cases hdots : name = [dot, dot]
    · rw [if_pos hdots]
      cases below with
      | nil => exact ⟨rfl,h,hp⟩
      | cons e rest => exact ⟨rfl,h.put,cons_ne_nil _ _⟩
    rw [if_neg hdots]
    generalize buffer.take top.pathLength ++ (if top.pathLength > 1 then [slash] else []) = base
    by_cases hroom : name.length ≥ vfsPathMax - base.length
    · rw [if_pos hroom]
      exact h.fail rfl _
    rw [if_neg hroom]
    have htop : top.node ∈ Path.nodes ⟨top :: below,buffer⟩ := mem_cons_self ..
    have hchild := h.childOf env htop (base ++ name) name
    generalize Vfs.childOf env s top.node (base ++ name) name = r at hchild
    obtain ⟨s1,r⟩ := r
    obtain ⟨hfiles,hchild⟩ := hchild
    cases r with
    | error e => exact Balanced.fail (p := ⟨top :: below,buffer⟩) hchild hfiles e
    | ok node =>
      have hpush := Balanced.pushEntry (p := ⟨top :: below,base ++ name⟩) hchild env
      dsimp only
      generalize Vfs.pushEntry env s1 ⟨top :: below,base ++ name⟩ node = r at hpush
      obtain ⟨s2,r⟩ := r
      obtain ⟨hfiles',hpush⟩ := hpush
      cases r with
      | error e => exact Balanced.fail (p := ⟨top :: below,buffer⟩) hpush (hfiles'.trans hfiles) e
      | ok p' => exact ⟨hfiles'.trans hfiles,hpush⟩

theorem Balanced.walk (h : Balanced s p.nodes) (hp : p.entries ≠ []) (env : World ω)
    (rest : Name) : Walked s (walk env s p rest) := by
  fun_induction Vfs.walk env s p rest with
  | case1 s p => exact ⟨rfl,h,hp⟩
  | case2 s p tail ih => exact ih h hp
  | case3 s p c tail hc s' e hw =>
    have := h.walkName hp env ((c :: tail).takeWhile (· ≠ slash))
    rw [hw] at this
    exact this
  | case4 s p c tail hc s' p' hw ih =>
    have := h.walkName hp env ((c :: tail).takeWhile (· ≠ slash))
    rw [hw] at this
    obtain ⟨hfiles,hnext,hp'⟩ := this
    exact ⟨(ih hnext hp').1.trans hfiles,(ih hnext hp').2⟩

theorem Balanced.vfsLookup (h : Balanced s []) (env : World ω) (path : Name) :
    Walked s (vfsLookup env s path) := by
  unfold Vfs.vfsLookup
  cases hf : s.findMount [slash] with
  | none => exact ⟨rfl,h⟩
  | some root =>
    cases hl : vfsPathLength path with
    | error e => exact ⟨rfl,h⟩
    | ok n =>
      dsimp only
      have hr := h.refRoot (findMount_mounted hf)
      have hpush := Balanced.pushEntry (p := ⟨[],[slash]⟩) hr env
      generalize Vfs.pushEntry env (s.ref (root, s.rootOf root)) ⟨[],[slash]⟩
        (root, s.rootOf root) = r at hpush
      obtain ⟨s1,r⟩ := r
      cases r with
      | error e => exact hpush
      | ok p =>
        dsimp only
        obtain ⟨hfiles,hpush⟩ := hpush
        have hwalk := hpush.1.walk hpush.2 env path.tail
        generalize Vfs.walk env s1 p path.tail = r at hwalk
        obtain ⟨s2,r⟩ := r
        obtain ⟨hfiles',hwalk⟩ := hwalk
        have hsame : s2.files = s.files := hfiles'.trans hfiles
        cases r with
        | error e => exact ⟨hsame,hwalk⟩
        | ok p' =>
          dsimp only
          split_ifs
          · exact hwalk.1.fail hsame _
          · exact ⟨hsame,hwalk⟩

theorem Balanced.vfsLookupParent (h : Balanced s []) (env : World ω) (path : Name) :
    (vfsLookupParent env s path).1.files = s.files ∧ match (vfsLookupParent env s path).2 with
      | .ok (p, _) => Balanced (vfsLookupParent env s path).1 p.nodes ∧ p.entries ≠ []
      | .error _ => Balanced (vfsLookupParent env s path).1 [] := by
  unfold Vfs.vfsLookupParent
  cases hl : vfsPathLength path with
  | error e => exact ⟨rfl,h⟩
  | ok n =>
    dsimp only
    generalize ((path.reverse.dropWhile (· = slash)).takeWhile (· ≠ slash)).reverse = name
    generalize ((path.reverse.dropWhile (· = slash)).dropWhile (· ≠ slash)).reverse = front
    by_cases hempty : name.isEmpty ∨ name.length > vfsNameMax
    · rw [if_pos hempty]
      exact ⟨rfl,h⟩
    rw [if_neg hempty]
    by_cases hdots : name = [dot] ∨ name = [dot, dot]
    · rw [if_pos hdots]
      exact ⟨rfl,h⟩
    rw [if_neg hdots]
    have hlook := h.vfsLookup env front
    generalize Vfs.vfsLookup env s front = r at hlook
    obtain ⟨s1,r⟩ := r
    cases r with
    | error e => exact hlook
    | ok p =>
      dsimp only
      obtain ⟨hfiles,hlook⟩ := hlook
      have hput := hlook.1.fail hfiles .enotdir
      generalize p.name ++ (if p.name.length > 1 then [slash] else []) = base
      split_ifs
      · exact hput
      · exact hput
      · exact hput
      · exact ⟨hfiles,hlook⟩

/-- A walk in progress: its first entry is pushed and some names are done. -/
inductive InWalk (env : World ω) (s : State ι ω) : State ι ω → Path → Prop
  | root {slot : Slot} {s' : State ι ω} {p : Path} : s.findMount [slash] = some slot →
      pushEntry env (s.ref (slot, s.rootOf slot)) ⟨[],[slash]⟩ (slot, s.rootOf slot) =
        (s', .ok p) → InWalk env s s' p
  | name {s₁ s₂ : State ι ω} {p₁ p₂ : Path} (name : Name) : InWalk env s s₁ p₁ →
      walkName env s₁ p₁ name = (s₂, .ok p₂) → InWalk env s s₂ p₂

theorem Balanced.inWalk (h : Balanced s []) {env : World ω} {s' : State ι ω}
    (hw : InWalk env s s' p) : Balanced s' p.nodes ∧ p.entries ≠ [] := by
  induction hw with
  | root hf hpush =>
    have hr := Balanced.pushEntry (p := ⟨[],[slash]⟩)
      (h.refRoot (findMount_mounted hf)) env
    rw [hpush] at hr
    exact hr.2
  | name name _ hstep ih =>
    have hn := ih.1.walkName ih.2 env name
    rw [hstep] at hn
    exact hn.2

end

end GaiaKernel.Vfs
