import GaiaKernel.Vfs.RefBalance

/-! # References over whole runs

Every public operation keeps `Balanced`, so it holds in every state a run of the VFS passes
through, and a mount that nothing uses can be unmounted.
-/
namespace GaiaKernel.Vfs
open Counting Trace Function List Option State
variable {ι ω : Type*} [Fintype ι] {s : State ι ω} {held : List Node} {node dir : Node}
  {slot : Slot}
section
variable [DecidableEq ι] {i : ι}

theorem filesWith_update (s : State ι ω) (i : ι) (x : Option Node) (P : Node → Bool) :
    filesWith { s with files := update s.files i x } P +
      (if (s.files i).any P then 1 else 0) = s.filesWith P + if x.any P then 1 else 0 :=
  sum_update s.files i x fun y => if y.any P then 1 else 0

theorem Balanced.setFile (h : Balanced s held) {x : Option Node} {held' : List Node}
    {f : ℕ → ℕ} (hrefs : ∀ node, (if x.any (· = node) then 1 else 0) + held'.count node =
      (if (s.files i).any (· = node) then 1 else 0) + held.count node)
    (hopen : ∀ m, s.mounts slot = some m →
      f m.openFiles + (if (s.files i).any (·.1 = slot) then 1 else 0) =
        m.openFiles + if x.any (·.1 = slot) then 1 else 0)
    (hother : ∀ j ≠ slot, (s.files i).any (·.1 = j) = x.any (·.1 = j)) :
    Balanced (modify { s with files := update s.files i x } slot
      fun m => { m with openFiles := f m.openFiles }) held' := by
  have hcache : ∀ j, (modify { s with files := update s.files i x } slot
      fun m => { m with openFiles := f m.openFiles }).cache j = s.cache j := by
    intro j
    simp only [State.cache,State.modify]
    split_ifs
    · cases s.mounts j <;> rfl
    · rfl
  refine ⟨fun node => ?_,fun j => ?_,fun j m hj => ?_⟩
  · rw [hcache,h.refs node,
      rootsOn_modify _ slot (f := fun m => { m with openFiles := f m.openFiles }) fun _ => rfl]
    change s.filesWith _ + s.rootsOn node + _ =
      filesWith { s with files := update s.files i x } _ + s.rootsOn node + _
    have hu := filesWith_update s i x (· = node)
    have := hrefs node
    omega
  · rw [hcache]
    exact h.caches j
  · change m.openFiles = filesWith { s with files := update s.files i x } _
    have hu := filesWith_update s i x (·.1 = j)
    simp only [State.modify] at hj
    split_ifs at hj with hjs
    · subst hjs
      obtain ⟨m',hm',rfl⟩ := map_eq_some_iff.mp hj
      have hold := h.openFiles j m' hm'
      have := hopen m' hm'
      change f m'.openFiles = _
      change m'.openFiles = s.filesWith _ at hold
      omega
    · rw [hother j hjs] at hu
      have hold := h.openFiles j m hj
      change m.openFiles = s.filesWith _ at hold
      omega

theorem Balanced.adopt (h : Balanced s (node :: held)) (hi : s.files i = none) :
    Balanced (modify { s with files := update s.files i (some node) } node.1
      fun m => { m with openFiles := m.openFiles + 1 }) held := by
  refine h.setFile (f := (· + 1)) (fun node' => ?_) (fun m _ => ?_) fun j hj => ?_
  · rw [hi,count_cons]
    by_cases hn : node = node'
    · simp [hn]
      omega
    · simp [hn]
  · simp [hi]
  · simp [hi,Ne.symm hj]

theorem Balanced.closeLocked (h : Balanced s held) (i : ι) : Balanced (closeLocked s i) held := by
  unfold Vfs.closeLocked
  cases hi : s.files i with
  | none => exact h
  | some node =>
    refine Balanced.put (s := modify { s with files := update s.files i none } node.1
      fun m => { m with openFiles := m.openFiles - 1 }) ?_
    refine h.setFile (f := (· - 1)) (fun node' => ?_) (fun m hm => ?_) fun j hj => ?_
    · rw [hi,count_cons]
      by_cases hn : node = node'
      · simp [hn]
        omega
      · simp [hn]
    · have hcount : m.openFiles = s.filesWith (·.1 = node.1) := h.openFiles _ m hm
      have hu := filesWith_update s i none (·.1 = node.1)
      simp only [hi,any_some,decide_true,if_true,any_none,Bool.false_eq_true,if_false] at hu ⊢
      omega
    · simp [hi,Ne.symm hj]

theorem Balanced.openInode (h : Balanced s (node :: held)) (env : World ω) (hi : s.files i = none) :
    Balanced (openInode env s node i).1 held := by
  have hadopt := h.adopt hi
  unfold Vfs.openInode
  dsimp only
  split_ifs
  · exact hadopt.setWorld _
  · exact (hadopt.setWorld _).closeLocked i
  · exact (hadopt.setWorld _).closeLocked i

omit [Fintype ι] [DecidableEq ι] in
theorem Path.exists_node {p : Path} (hp : p.entries ≠ []) :
    ∃ node, p.node = some node ∧ node ∈ p.nodes := by
  obtain ⟨entries,name⟩ := p
  cases entries with
  | nil => exact absurd rfl hp
  | cons e rest => exact ⟨e.node,rfl,mem_cons_self ..⟩

section
variable (h : Balanced s []) (env : World ω) (path : Name) (hi : s.files i = none)
include h env path hi

theorem Balanced.vfsOpen : Balanced (vfsOpen env s path i).1 [] := by
  unfold Vfs.vfsOpen
  have hlook := h.vfsLookup env path
  generalize Vfs.vfsLookup env s path = r at hlook
  obtain ⟨s1,r⟩ := r
  obtain ⟨hfiles,hlook⟩ := hlook
  cases r with
  | error e => exact hlook
  | ok p =>
    obtain ⟨node,hnode,hmem⟩ := Path.exists_node hlook.2
    simp only [hnode]
    have hi' : (s1.ref node).files i = none := (congrFun hfiles i).trans hi
    exact ((hlook.1.ref (hlook.1.refs_pos hmem)).openInode env hi').release

theorem Balanced.vfsCreate : Balanced (vfsCreate env s path i).1 [] := by
  unfold Vfs.vfsCreate
  have hlook := h.vfsLookupParent env path
  generalize Vfs.vfsLookupParent env s path = r at hlook
  obtain ⟨s1,r⟩ := r
  obtain ⟨hfiles,hlook⟩ := hlook
  match r with
  | .error e => exact hlook
  | .ok (p, name, trailing) =>
    obtain ⟨dir,hdir,hmem⟩ := Path.exists_node hlook.2
    simp only [hdir]
    by_cases ht : trailing = true
    · rw [if_pos ht]
      exact hlook.1.release
    rw [if_neg ht]
    have hworld := hlook.1.setWorld (env.create s1.world dir name).2
    cases hc : (env.create s1.world dir name).1 with
    | none => exact hworld.release
    | some found =>
      obtain ⟨number,type⟩ := found
      dsimp only
      have hmounted : (s1.mounts dir.1).isSome := hlook.1.mounted hmem
      have hg := hworld.get env (dir.1, number) hmounted type
      have hgfiles := files_get env (s1.setWorld (env.create s1.world dir name).2)
        (dir.1, number) type
      generalize State.get _ env (dir.1, number) type = g at hg hgfiles ⊢
      obtain ⟨s2,found⟩ := g
      cases found with
      | false => exact Balanced.release (s := s2) hg
      | true =>
        have hi' : s2.files i = none := (congrFun (hgfiles.trans hfiles) i).trans hi
        have hopen := hg.openInode env hi'
        cases (Vfs.openInode env s2 (dir.1, number) i).2 with
        | ok u => exact hopen.release
        | error e => exact (hopen.setWorld _).release

end

end

theorem Balanced.lookupIn (h : Balanced s held) (env : World ω) (hd : dir ∈ held)
    (name : Name) :
    match (lookupIn env s dir name).2 with
    | some node => Balanced (lookupIn env s dir name).1 (node :: held)
    | none => Balanced (lookupIn env s dir name).1 held := by
  unfold Vfs.lookupIn
  dsimp only
  cases (env.lookup s.world dir name).1 with
  | none => exact h.setWorld _
  | some r =>
    obtain ⟨number,type⟩ := r
    have hmounted : (s.mounts dir.1).isSome := h.mounted hd
    have hg := (h.setWorld (env.lookup s.world dir name).2).get env (dir.1, number) hmounted type
    dsimp only
    generalize State.get _ env (dir.1, number) type = g at hg ⊢
    obtain ⟨s1,found⟩ := g
    cases found with
    | true => exact hg
    | false => exact hg

theorem Balanced.changeName (h : Balanced s []) (env : World ω) (path : Name)
    (op : NameOperation) : Balanced (changeName env s path op).1 [] := by
  unfold Vfs.changeName
  have hlook := (h.vfsLookupParent env path).2
  generalize Vfs.vfsLookupParent env s path = r at hlook
  obtain ⟨s1,r⟩ := r
  match r with
  | .error e => exact hlook
  | .ok (p, name, trailing) =>
    obtain ⟨dir,hdir,hmem⟩ := Path.exists_node hlook.2
    simp only [hdir]
    have htarget := hlook.1.lookupIn env hmem name
    generalize Vfs.lookupIn env s1 dir name = r at htarget
    obtain ⟨s2,target⟩ := r
    cases target with
    | some target => exact (htarget.setWorld _).put.release
    | none =>
      cases op with
      | createDirectory => exact (htarget.setWorld _).release
      | removeFile => exact htarget.release
      | removeDirectory => exact htarget.release

theorem Balanced.vfsStat (h : Balanced s []) (env : World ω) (path : Name) :
    Balanced (vfsStat env s path).1 [] := by
  unfold Vfs.vfsStat
  have hlook := (h.vfsLookup env path).2
  generalize Vfs.vfsLookup env s path = r at hlook
  obtain ⟨s1,r⟩ := r
  cases r with
  | error e => exact hlook
  | ok p =>
    obtain ⟨node,hnode,_⟩ := Path.exists_node hlook.2
    simp only [hnode]
    exact (hlook.1.setWorld _).release

section
variable (h : Balanced s held) (env : World ω) (hd : dir ∈ held)
include h env hd

theorem Balanced.virtualMountEntry (names : List Name) (index : ℕ) :
    Balanced (virtualMountEntry env s dir names index).1 held := by
  induction names generalizing s index with
  | nil => exact h
  | cons name names ih =>
    rw [Vfs.virtualMountEntry]
    have hfound := h.lookupIn env hd name
    generalize Vfs.lookupIn env s dir name = r at hfound
    obtain ⟨s1,node⟩ := r
    cases node with
    | some node => exact ih hfound.put (index + 1)
    | none => exact hfound

theorem Balanced.readDirOneLocked (name : Name) (index : Option ℕ) :
    Balanced (readDirOneLocked env s dir name index).1 held := by
  cases index with
  | some n => exact h.virtualMountEntry env hd _ _
  | none =>
    rw [Vfs.readDirOneLocked]
    dsimp only
    split_ifs
    · exact h
    · exact (h.setWorld _).virtualMountEntry env hd _ _
    · exact h.setWorld _

theorem Balanced.readDirLoop (name : Name) (count : ℕ) (index : Option ℕ) :
    Balanced (readDirLoop env dir name count s index) held := by
  induction count generalizing s index with
  | zero => exact h
  | succ count ih =>
    rw [Vfs.readDirLoop]
    have hone := h.readDirOneLocked env hd name index
    generalize Vfs.readDirOneLocked env s dir name index = r at hone
    obtain ⟨s1,next⟩ := r
    cases next with
    | none => exact hone
    | some index => exact ih hone index

end

variable (h : Balanced s [])
include h

theorem Balanced.vfsReadDir (env : World ω) (path : Name) (index : Option ℕ)
    (count : ℕ) : Balanced (vfsReadDir env s path index count) [] := by
  unfold Vfs.vfsReadDir
  have hlook := (h.vfsLookup env path).2
  generalize Vfs.vfsLookup env s path = r at hlook
  obtain ⟨s1,r⟩ := r
  cases r with
  | error e => exact hlook
  | ok p =>
    obtain ⟨dir,hdir,hmem⟩ := Path.exists_node hlook.2
    simp only [hdir]
    exact (hlook.1.readDirLoop env hmem _ _ _).release

/-! ## Mounting and unmounting -/

omit h in
theorem filesOn_le_super (s : State ι ω) (node : Node) : s.filesOn node ≤ s.filesOnSuper node.1 := by
  refine Finset.sum_le_sum fun i _ => ?_
  cases s.files i with
  | none => exact le_refl _
  | some node' =>
    by_cases hn : node' = node
    · simp [hn]
    · simp [hn]

omit h in
theorem Balanced.filesOnSuper_of_free (h : Balanced s held)
    (hm : s.mounts slot = none) : s.filesOnSuper slot = 0 := by
  refine Finset.sum_eq_zero fun i _ => ?_
  cases hi : s.files i with
  | none => rfl
  | some node =>
    rw [any_some,if_neg]
    intro hslot
    have hone : (if (s.files i).any (· = node) then 1 else 0) ≤ s.filesOn node :=
      le_sum (fun i => if (s.files i).any (· = node) then 1 else 0) i
    have hmounted : (s.mounts node.1).isSome := by
      apply mounted_of_refs
      rw [h.refs node]
      simp only [hi,any_some,decide_true,if_true] at hone
      omega
    rw [of_decide_eq_true hslot,hm] at hmounted
    exact Bool.false_ne_true hmounted

theorem Balanced.setMount (hfree : s.filesOnSuper slot = 0)
    (x : Option Mount) (hok : (x.elim [] Mount.inodes : Cache).Ok)
    (hrefs : ∀ n, (x.elim [] Mount.inodes : Cache).refs n = if x.any (·.root = n) then 1 else 0)
    (hopen : ∀ m, x = some m → m.openFiles = 0) (w : ω) :
    Balanced { s.setWorld w with mounts := update s.mounts slot x } [] := by
  refine ⟨fun node => ?_,fun j => ?_,fun j m hj => ?_⟩
  · change ((update s.mounts slot x node.1).elim [] Mount.inodes : Cache).refs node.2 =
      s.filesOn node + (if (update s.mounts slot x node.1).any (·.root = node.2) then 1 else 0)
        + 0
    by_cases hn : node.1 = slot
    · have hzero : s.filesOn node = 0 :=
        Nat.eq_zero_of_le_zero ((filesOn_le_super s node).trans_eq (hn ▸ hfree))
      have hself : update s.mounts slot x node.1 = x := by rw [hn,update_self]
      simp [hself,hrefs,hzero]
    · have hother : update s.mounts slot x node.1 = s.mounts node.1 := update_of_ne hn _ _
      simp only [hother]
      exact h.refs node
  · change ((update s.mounts slot x j).elim [] Mount.inodes : Cache).Ok
    by_cases hj : j = slot
    · rw [hj,update_self]
      exact hok
    · rw [update_of_ne hj]
      exact h.caches j
  · change m.openFiles = s.filesOnSuper j
    change update s.mounts slot x j = some m at hj
    rw [update_apply] at hj
    split_ifs at hj with hjs
    · rw [hjs,hfree]
      exact hopen m hj
    · exact h.openFiles j m hj

theorem Balanced.mountType (env : World ω) (path : Name) :
    Balanced (mountType env s path).1 [] := by
  unfold Vfs.mountType
  cases mountName path with
  | none => exact h
  | some name =>
    dsimp only
    by_cases hbusy : (s.findMount name).isSome
    · rw [if_pos hbusy]
      exact h
    rw [if_neg hbusy]
    cases hslot : (finRange vfsMaxMounts).find? fun slot => (s.mounts slot).isNone with
    | none => exact h
    | some slot =>
      dsimp only
      have hnone : (s.mounts slot).isNone := by simpa using find?_some hslot
      have hfree : s.mounts slot = none := isNone_iff_eq_none.mp hnone
      cases (env.mount s.world slot).2.1 with
      | none => exact h.setWorld _
      | some root =>
        dsimp only
        split_ifs
        · refine h.setMount (h.filesOnSuper_of_free hfree) _ ⟨?_,?_⟩ (fun n => ?_) ?_ _
          · exact nodup_singleton _
          · exact fun i hi => by
              rw [mem_singleton.mp hi]
              exact Nat.one_pos
          · simp [Cache.refs]
          · rintro m ⟨⟩
            rfl
        · exact h.setWorld _

theorem Balanced.vfsUnmount (env : World ω) (path : Name) :
    Balanced (vfsUnmount env s path).1 [] := by
  unfold Vfs.vfsUnmount
  cases mountName path with
  | none => exact h
  | some name =>
    dsimp only
    cases s.findMount name with
    | none => exact h
    | some slot =>
      dsimp only
      cases hm : s.mounts slot with
      | none => exact h
      | some m =>
        dsimp only
        by_cases hopen : m.openFiles ≠ 0
        · rw [if_pos hopen]
          exact h
        have hfree : s.filesOnSuper slot = 0 := by
          rw [← h.openFiles slot m hm]
          exact not_not.mp hopen
        split_ifs
        · exact h
        · exact h
        · exact h.setMount hfree none ⟨nodup_nil,fun i hi => (not_mem_nil hi).elim⟩
            (fun n => rfl) (fun m hm => (some_ne_none m hm.symm).elim) _
        · exact h.setWorld _

omit h in
theorem Cache.refs_of_mem {c : Cache} (h : c.Ok) {i : Inode} (hi : i ∈ c) :
    c.refs i.number = i.references := by
  induction c with
  | nil => exact (not_mem_nil hi).elim
  | cons j js ih =>
    rw [refs]
    rcases mem_cons.mp hi with rfl | hi
    · rw [if_pos rfl]
    · rw [if_neg,ih h.tail hi]
      intro heq
      exact (nodup_cons.mp h.unique).1 (heq ▸ mem_map_of_mem hi)

theorem Balanced.idle {m : Mount} (hm : s.mounts slot = some m)
    (hidle : ∀ i node, s.files i = some node → node.1 ≠ slot) :
    m.openFiles = 0 ∧ ∀ i ∈ m.inodes, i.number = m.root ∧ i.references = 1 := by
  have hfree : s.filesOnSuper slot = 0 := by
    refine Finset.sum_eq_zero fun i _ => ?_
    cases hi : s.files i with
    | none => rfl
    | some node => simp [hidle i node hi]
  refine ⟨(h.openFiles slot m hm).trans hfree,fun i hi => ?_⟩
  have hcache : s.cache slot = m.inodes := by
    rw [cache,hm]
    rfl
  have hok : Cache.Ok m.inodes := hcache ▸ h.caches slot
  have hrefs := h.refs (slot, i.number)
  have hzero : s.filesOn (slot, i.number) = 0 :=
    Nat.eq_zero_of_le_zero ((filesOn_le_super s (slot, i.number)).trans_eq hfree)
  simp only [hcache,Cache.refs_of_mem hok hi,hzero,rootsOn,hm,any_some,
    decide_eq_true_eq,count_nil,Nat.zero_add,Nat.add_zero] at hrefs
  have hpos := hok.positive i hi
  split_ifs at hrefs with hroot
  · exact ⟨hroot.symm,hrefs⟩
  · omega

theorem Balanced.unmount_not_busy (env : World ω) {path name : Name} (hname : mountName path = some name)
    (hslot : s.findMount name = some slot) (hchild : hasChild s slot name = false)
    (hidle : ∀ i node, s.files i = some node → node.1 ≠ slot) :
    (Vfs.vfsUnmount env s path).2 ≠ .error .ebusy := by
  obtain ⟨m,hm⟩ := isSome_iff_exists.mp (findMount_mounted hslot)
  obtain ⟨hopen,hroot⟩ := h.idle hm hidle
  have hany : ¬ (m.inodes.any fun i => i.number ≠ m.root ∨ i.references ≠ 1) = true := by
    simpa using hroot
  unfold Vfs.vfsUnmount
  simp only [hname,hslot,hm]
  rw [if_neg (not_not.mpr hopen),hchild,if_neg Bool.false_ne_true,if_neg hany]
  split_ifs
  · intro he
    cases he
  · intro he
    cases he

omit h

/-! ## Runs -/

section
variable [DecidableEq ι]

theorem Balanced.step (h : Balanced s []) (env : World ω) (op : Op ι) :
    Balanced (step env s op) [] := by
  cases op with
  | «open» i path =>
    rw [Vfs.step]
    split_ifs with hi
    · exact h
    · exact h.vfsOpen env path (not_isSome_iff_eq_none.mp hi)
  | create i path =>
    rw [Vfs.step]
    split_ifs with hi
    · exact h
    · exact h.vfsCreate env path (not_isSome_iff_eq_none.mp hi)
  | close i => exact h.closeLocked i
  | transfer i =>
    rw [Vfs.step]
    cases s.files i with
    | none => exact h
    | some node => exact h.setWorld _
  | stat path => exact h.vfsStat env path
  | changeName path op => exact h.changeName env path op
  | readDir path index count => exact h.vfsReadDir env path index count
  | mount path => exact h.mountType env path
  | unmount path => exact h.vfsUnmount env path

omit [DecidableEq ι] in
theorem Balanced.init (w : ω) : Balanced (init w : State ι ω) [] := by
  refine ⟨fun node => ?_,fun slot => ⟨nodup_nil,fun i hi => (not_mem_nil hi).elim⟩,
    fun slot m hm => (some_ne_none m hm.symm).elim⟩
  exact (Finset.sum_eq_zero fun i _ => rfl : (∑ _i : ι, 0) = 0).symm

/-- Along every run: the references of every inode are those of open files, mounts and, during
a walk, of its entries; each superblock has one inode per number and counts its open files;
and a mount without children, all of whose files are closed, is not busy. -/
theorem run_balanced (env : World ω) (w : ω) (ops : List (Op ι)) :
    Always (step env) (fun s => Balanced s [] ∧
      (∀ s' p, InWalk env s s' p → Balanced s' p.nodes) ∧
      ∀ path name slot, mountName path = some name → s.findMount name = some slot →
        hasChild s slot name = false → (∀ i node, s.files i = some node → node.1 ≠ slot) →
        (vfsUnmount env s path).2 ≠ .error .ebusy) (init w) ops :=
  always_of_invariant (I := fun s => Balanced s []) (fun _ op h => h.step env op)
    (fun _ h => ⟨h,fun _ _ hw => (h.inWalk hw).1,
      fun _ _ _ hname hslot hchild hidle => h.unmount_not_busy env hname hslot hchild hidle⟩)
    (Balanced.init w) ops

end

end GaiaKernel.Vfs
