import GaiaKernel.Loader.ImageSpec
import GaiaKernel.Sched.Spaces

/-! # Frames across processes

`FramesHeld` over whole runs of `Spaces.step`. The invariant `Owned` gives every frame of a
user space one owner; lending does not show in it, so the steps that give frames back have
to stay off the frames that are lent out.
-/
namespace GaiaKernel.Spaces
open Trace Function Option State
variable {k : KernelTables} {lowPd r g : U64} {s s' : State} {own own' : Owner} {pid : ℕ}

/-- No frame behind a user leaf of a live address space is free. -/
def FramesHeld (s : State) : Prop :=
  ∀ pid r va, s.rootOf pid = some r → LowerHalf va →
    let e := s.phys.vmmEntryIn r va
    e ≠ 0#64 → has e vmmUser = true → ¬ FreeInPmm s.phys.pmm (tableOf e)

def LentTo (s : State) (pid : ℕ) (f : U64) : Prop :=
  ∃ r va, s.rootOf pid = some r ∧ LowerHalf va ∧
    let e := s.phys.vmmEntryIn r va
    e ≠ 0#64 ∧ has e vmmShared = true ∧ tableOf e = f

def Reclaimable (s : State) (borrowers : ℕ → Prop) (r va : U64) : Prop :=
  let e := s.phys.vmmEntryIn r va
  e ≠ 0#64 → has e vmmShared = false → ∀ pid, borrowers pid → ¬ LentTo s pid (tableOf e)

/-- No other process borrows a private page of this one. -/
def TearsNothing (s : State) (pid : ℕ) : Prop :=
  ∀ r va, s.rootOf pid = some r → LowerHalf va → Reclaimable s (· ≠ pid) r va

/-- `shmem_shared_out` is positive, so `process_execve` and the reaper leave the space alone. -/
def RecordedLent (s : State) (pid : ℕ) : Prop :=
  ∃ p, s.procs pid = some p ∧ p.vm.shmemSharedOut > 0

def ReleasesUnlent (s : State) (pid : ℕ) (addr bytes : U64) : Prop :=
  uvmRangeOk addr bytes = true → ∀ r, s.rootOf pid = some r →
    ∀ i < pageCount bytes, Reclaimable s (fun _ => True) r (pageAt addr i)

def SharesOwnPages (s : State) (me : ℕ) (targetPid inVa npages : U64) : Prop :=
  0 < npages.toInt → npages.toInt ≤ maxShmemPages → ∀ i < npages.toNat,
    (∀ r, s.rootOf me = some r → Sharable s.phys r (pageAt inVa i)) ∧
    ∀ t vm pml4, s.taskFind (targetPid.setWidth 32).toInt = some t → s.space t = some (vm, pml4) →
      LowerHalf (pageAt (shareBase vm) i)

/-- Steps that give back no lent frame, lend only pages, and reserve with plain flags. -/
def Careful (s : State) : Op → Prop
  | .reserve _ _ _ flags _ => tableOf flags = 0#64
  | .release pid addr bytes => ReleasesUnlent s pid addr bytes
  | .discard pid addr bytes => ReleasesUnlent s pid addr bytes
  | .share me targetPid inVa npages _ => SharesOwnPages s me targetPid inVa npages
  | .exec pid _ _ _ => ¬ RecordedLent s pid → TearsNothing s pid
  | .reap pid => TearsNothing s pid
  | .reapUnclaimed pid => ¬ RecordedLent s pid → TearsNothing s pid
  | _ => True

theorem not_recordedLent {p : Proc} (hp : s.procs pid = some p) (h : ¬ p.vm.shmemSharedOut > 0) :
    ¬ RecordedLent s pid := by
  rintro ⟨q,hq,hout⟩
  cases hp.symm.trans hq
  exact h hout

/-- A record with a root, in bounds, whose reservations have plain flags. -/
structure VmOk (vm : TaskVm) : Prop where
  bounded : Bounded FlagsOnly vm
  root : ∃ r, vm.userPml4 = some r

/-- Every frame of a live space has one owner, and the roots are those of the processes. -/
structure Owned (lowPd : U64) (s : State) (own : Owner) : Prop where
  safe : FrameSafe lowPd s.phys own
  roots : ∀ r, own r = some (r, []) ↔ ∃ pid, s.rootOf pid = some r
  distinct : ∀ {pid pid' r}, s.rootOf pid = some r → s.rootOf pid' = some r → pid = pid'
  vmOk : ∀ {pid p}, s.procs pid = some p → VmOk p.vm

section
variable (h : Owned lowPd s own)
include h

theorem Owned.root (hr : s.rootOf pid = some r) : own r = some (r, []) := (h.roots r).mpr ⟨pid,hr⟩

theorem Owned.framesHeld : FramesHeld s := by
  intro pid r va hr hva
  dsimp only
  intro he _ hfree
  have hl := (vmmEntryIn_iff h.safe.tables (h.root hr) hva.pml4Index _).mp ⟨rfl,he⟩
  have := (h.safe.taken_of_leafAt hl).2
  rw [hfree.2] at this
  cases this

theorem Owned.of_kept (hk : Kept lowPd s.phys own s'.phys own')
    (hroots : ∀ pid, s'.rootOf pid = s.rootOf pid)
    (hb : ∀ {pid p}, s'.procs pid = some p → VmOk p.vm) : Owned lowPd s' own' where
  safe := hk.safe
  roots r := by
    rw [hk.roots,h.roots]
    exact exists_congr fun pid => by rw [hroots]
  distinct h1 h2 := h.distinct (hroots _ ▸ h1) (hroots _ ▸ h2)
  vmOk := hb

theorem Owned.exists_entry {q : Path} {e : U64} (hl : LeafAt s.phys own r q e) :
    ∃ pid va, s.rootOf pid = some r ∧ LowerHalf va ∧ pagePath va = q ∧
      s.phys.vmmEntryIn r va = e ∧ e ≠ 0#64 := by
  obtain ⟨va,hva,rfl⟩ := h.safe.tables.exists_va hl
  have hr := h.safe.tables.root_of_leafAt hl
  obtain ⟨pid,hpid⟩ := (h.roots r).mp hr
  obtain ⟨h1,h2⟩ := (vmmEntryIn_iff h.safe.tables hr hva.pml4Index e).mpr hl
  exact ⟨pid,va,hpid,hva,rfl,h1,h2⟩

theorem Owned.lentTo {q : Path} {e : U64} (hl : LeafAt s.phys own r q e)
    (hs : has e vmmShared = true) : ∃ pid, s.rootOf pid = some r ∧ LentTo s pid (tableOf e) := by
  obtain ⟨pid,va,hpid,hva,_,rfl,hne⟩ := h.exists_entry hl
  exact ⟨pid,hpid,r,va,hpid,hva,hne,hs,rfl⟩

theorem Owned.rangeUnlent (hr : s.rootOf pid = some r) {addr bytes : U64}
    (hc : ReleasesUnlent s pid addr bytes) : TaskVm.RangeUnlent s.phys own r addr bytes := by
  intro hok i hi e hl hs r' q' e' hl' hs' heq
  have hlow := (uvmRangeOk_lowerHalf hok hi).pml4Index
  obtain ⟨rfl,hne⟩ := (vmmEntryIn_iff h.safe.tables (h.root hr) hlow e).mpr hl
  obtain ⟨pid',_,hlent⟩ := h.lentTo hl' hs'
  exact hc hok r hr i hi hne hs pid' trivial (heq ▸ hlent)

/-- The frames of a space that is about to go are not lent out, judged by the leaves of the
state before; `ph'` may have gained a new image in between. -/
theorem Owned.unlent (hpid : s.rootOf pid = some r)
    (hc : TearsNothing s pid) {ph' : Phys} (hsafe : FrameSafe lowPd ph' own')
    (hleaf : ∀ {r' q e}, LeafAt ph' own' r' q e → has e vmmShared = true ∨ r' = r →
      LeafAt s.phys own r' q e) : Unlent ph' own' r := by
  intro g p hg r' q' e' hl' hs' heq
  obtain ⟨hl',hne⟩ := leafAt_forget.mp hl'
  -- Only pages are lent, and the page is behind an unshared leaf of `r`.
  have hlen := (hsafe.shared r' q' e' hl' hs').page r p (heq ▸ hg)
  cases p with
  | nil => cases hlen
  | cons i p =>
    simp only [List.length_cons] at hlen
    obtain ⟨_,_,t,ho,hpres,htab,hsh⟩ := hsafe.tables.parent hg
    have hl : LeafAt ph' own' r (i :: p) (ph'.mem t i) := ⟨t,i,p,rfl,by omega,ho,rfl,hpres⟩
    obtain ⟨_,va,_,hva,_,he,hnz⟩ := h.exists_entry (hleaf hl (.inr rfl))
    obtain ⟨pid',hpid',hlent⟩ := h.lentTo (hleaf hl' (.inl hs')) hs'
    have hother : pid' ≠ pid := by
      rintro rfl
      rw [hpid] at hpid'
      exact hne (some.inj hpid').symm
    refine hc r va hpid hva ?_ ?_ pid' hother ?_
    · rw [he]; exact hnz
    · rw [he]; exact hsh (by omega)
    · rw [he,htab,← heq]; exact hlent

end

section
variable {f : TaskVm → TaskVm} {vm : TaskVm} {ph : Phys}

theorem procs_modifyVm {pid' : ℕ} {p' : Proc} (h : (s.modifyVm pid f).procs pid' = some p') :
    (pid' = pid ∧ ∃ p, s.procs pid = some p ∧ p' = { p with vm := f p.vm }) ∨
      (pid' ≠ pid ∧ s.procs pid' = some p') := by
  unfold modifyVm at h
  simp only [update_apply] at h
  split_ifs at h with hp
  · subst hp
    obtain ⟨p,hp,rfl⟩ := map_eq_some_iff.mp h
    exact .inl ⟨rfl,p,hp,rfl⟩
  · exact .inr ⟨hp,h⟩

theorem rootOf_modifyVm (hf : ∀ p, s.procs pid = some p → (f p.vm).userPml4 = p.vm.userPml4)
    (pid' : ℕ) : (s.modifyVm pid f).rootOf pid' = s.rootOf pid' := by
  unfold rootOf modifyVm
  dsimp only
  by_cases hp : pid' = pid
  · subst hp
    rw [update_self]
    cases hs : s.procs pid' with
    | none => rfl
    | some p => exact hf p hs
  · rw [update_of_ne hp]

theorem Owned.phys (h : Owned lowPd s own) (hk : Kept lowPd s.phys own ph own') :
    Owned lowPd { s with phys := ph } own' := h.of_kept hk (fun _ => rfl) h.vmOk

theorem Owned.modifyVm (h : Owned lowPd s own) (pid : ℕ)
    (hf : ∀ p, s.procs pid = some p → (f p.vm).userPml4 = p.vm.userPml4 ∧
      Bounded FlagsOnly (f p.vm)) : Owned lowPd (s.modifyVm pid f) own := by
  refine h.of_kept h.safe.kept (rootOf_modifyVm fun p hp => (hf p hp).1) fun {pid' p'} hp' => ?_
  rcases procs_modifyVm hp' with ⟨_,p,hp,rfl⟩ | ⟨_,hp'⟩
  · exact ⟨(hf p hp).2,by rw [(hf p hp).1]; exact (h.vmOk hp).root⟩
  · exact h.vmOk hp'

theorem running_some (h : s.running pid = some vm) :
    ∃ p, s.procs pid = some p ∧ p.zombie = false ∧ p.vm = vm := by
  obtain ⟨p,hp,hz⟩ := bind_eq_some_iff.mp h
  split_ifs at hz with hzombie
  exact ⟨p,hp,by simpa using hzombie,some.inj hz⟩

theorem Owned.running (h : Owned lowPd s own) (hrun : s.running pid = some vm) :
    ∃ p r, s.procs pid = some p ∧ p.vm = vm ∧ vm.userPml4 = some r ∧ s.rootOf pid = some r ∧
      own r = some (r, []) ∧ Bounded FlagsOnly vm := by
  obtain ⟨p,hp,_,rfl⟩ := running_some hrun
  obtain ⟨hb,r,hr⟩ := h.vmOk hp
  have hroot : s.rootOf pid = some r := by simp [rootOf,hp,hr]
  exact ⟨p,r,hp,rfl,hr,hroot,h.root hroot,hb⟩

end

theorem space_some {vm : TaskVm} (h : s.space pid = some (vm, r)) :
    ∃ p, s.procs pid = some p ∧ p.vm = vm ∧ vm.userPml4 = some r ∧ s.rootOf pid = some r := by
  obtain ⟨p,hp,hm⟩ := bind_eq_some_iff.mp h
  obtain ⟨r',hr',heq⟩ := map_eq_some_iff.mp hm
  cases heq
  exact ⟨p,hp,rfl,hr',by simp [rootOf,hp,hr']⟩

structure ShareStart (lowPd : U64) (s : State) (own : Owner) (me : ℕ) (targetPid : U64)
    (c : State.ShareCall) (own' : Owner) : Prop where
  meRoot : s.rootOf me = some c.pml4
  targetRoot : s.rootOf c.target = some c.targetPml4
  target : ∃ vm, s.taskFind (targetPid.setWidth 32).toInt = some c.target ∧
    s.space c.target = some (vm, c.targetPml4) ∧ c.targetVa = shareBase vm
  faulted : Faulted lowPd true s.phys own c.phys own'

variable (h : Owned lowPd s own)
include h

theorem Owned.shareChecks (me : ℕ) (targetPid inVa npages out : U64) :
    ∃ own', Kept lowPd s.phys own (s.shareChecks me targetPid inVa npages out).2 own' ∧
      ∀ c, (s.shareChecks me targetPid inVa npages out).1 = .ok c →
        0 < npages.toInt ∧ npages.toInt ≤ maxShmemPages ∧ has inVa 0xFFF#64 = false ∧
          ShareStart lowPd s own me targetPid c own' := by
  have hfail : ∀ e : Errno, ∃ own', Kept lowPd s.phys own
      (((.error e, s.phys) : Except Errno State.ShareCall × Phys)).2 own' ∧
      ∀ c, (((.error e, s.phys) : Except Errno State.ShareCall × Phys)).1 = .ok c →
        0 < npages.toInt ∧ npages.toInt ≤ maxShmemPages ∧ has inVa 0xFFF#64 = false ∧
          ShareStart lowPd s own me targetPid c own' :=
    fun e => ⟨own,h.safe.kept,fun c hc => by cases hc⟩
  unfold State.shareChecks
  by_cases h1 : out = 0#64
  · rw [if_pos h1]; exact hfail _
  rw [if_neg h1]
  by_cases h2 : targetPid.toInt ≤ 0 ∨ npages.toInt ≤ 0
  · rw [if_pos h2]; exact hfail _
  rw [if_neg h2]
  by_cases h3 : npages.toInt > maxShmemPages
  · rw [if_pos h3]; exact hfail _
  rw [if_neg h3]
  by_cases h4 : has inVa 0xFFF#64 = true
  · rw [if_pos h4]; exact hfail _
  rw [if_neg h4]
  cases hme : s.space me with
  | none => exact hfail _
  | some m =>
    obtain ⟨vm,pml4⟩ := m
    obtain ⟨p,hp,rfl,hroot,hrootOf⟩ := space_some hme
    cases htgt : (s.taskFind (targetPid.setWidth 32).toInt).bind
        fun t => (s.space t).map (t, ·) with
    | none => exact hfail _
    | some t =>
      obtain ⟨target,targetVm,targetPml4⟩ := t
      dsimp only
      obtain ⟨t,hfind,hmap⟩ := bind_eq_some_iff.mp htgt
      obtain ⟨m,hsp,heq⟩ := map_eq_some_iff.mp hmap
      cases heq
      obtain ⟨q,hq,rfl,hqroot,hqrootOf⟩ := space_some hsp
      obtain ⟨own1,hf⟩ := TaskVm.uvmBufferOk_faulted hroot (h.vmOk hp).bounded
        h.safe (h.root hrootOf) out 8 true
      generalize p.vm.uvmBufferOk s.phys out 8 true = res at hf
      obtain ⟨ok,ph⟩ := res
      cases ok with
      | false => exact ⟨own1,hf.toKept,fun c hc => by cases hc⟩
      | true =>
        refine ⟨own1,hf.toKept,fun c hc => ?_⟩
        cases hc
        exact ⟨by omega,by omega,by simpa using h4,hrootOf,hqrootOf,⟨q.vm,hfind,hsp,rfl⟩,hf⟩

theorem Owned.share {me : ℕ} {targetPid inVa npages out : U64}
    (hc : SharesOwnPages s me targetPid inVa npages) :
    ∃ own', Owned lowPd (s.sysShmemShare me targetPid inVa npages out).2 own' := by
  unfold sysShmemShare
  obtain ⟨own1,hk1,hok⟩ := h.shareChecks me targetPid inVa npages out
  generalize s.shareChecks me targetPid inVa npages out = res at hk1 hok
  obtain ⟨start,ph⟩ := res
  cases start with
  | error e => exact ⟨own1,h.phys hk1⟩
  | ok c =>
    obtain ⟨hpos,hmax,_,hs⟩ := hok c rfl
    obtain ⟨vm,hfind,hsp,hva⟩ := hs.target
    have hc := hc hpos hmax
    have hdst : ∀ i < npages.toNat, LowerHalf (pageAt c.targetVa i) := by
      intro i hi
      rw [hva]
      exact (hc i hi).2 c.target vm c.targetPml4 hfind hsp
    obtain ⟨own2,hk⟩ := sharePages_kept h.safe.tables (h.root hs.meRoot) (h.root hs.targetRoot)
      npages.toNat hs.faulted.toKept (fun i hi => (hc i hi).1 c.pml4 hs.meRoot) hdst
    dsimp only
    generalize sharePages c.pml4 c.targetPml4 npages.toNat inVa c.targetVa c.phys = res at hk
    obtain ⟨err,ph'⟩ := res
    have hown := h.phys hk
    cases err with
    | error e =>
      refine ⟨own2,?_⟩
      exact hown.modifyVm c.target (f := ({ · with shmemNextVa := c.targetVa }))
        fun p hp => ⟨rfl,(h.vmOk hp).bounded.of_arena rfl rfl rfl⟩
    | ok _ =>
      have hown' := hown.modifyVm c.target
        (f := ({ · with shmemNextVa := c.targetVa + npages * 4096 }))
        fun p hp => ⟨rfl,(h.vmOk hp).bounded.of_arena rfl rfl rfl⟩
      refine ⟨own2,?_⟩
      exact hown'.modifyVm me
        (f := fun v => { v with shmemSharedOut := v.shmemSharedOut + npages.toInt })
        fun p hp => ⟨rfl,(hown'.vmOk hp).bounded.of_arena rfl rfl rfl⟩

theorem Owned.unshare (me : ℕ) (targetPid va npages : U64) :
    ∃ own', Owned lowPd (s.sysShmemUnshare me targetPid va npages).2 own' := by
  unfold sysShmemUnshare
  by_cases h1 : targetPid.toInt ≤ 0 ∨ npages.toInt ≤ 0 ∨ npages.toInt > maxShmemPages
  · rw [if_pos h1]; exact ⟨own,h⟩
  rw [if_neg h1]
  by_cases h2 : has va 0xFFF#64 = true
  · rw [if_pos h2]; exact ⟨own,h⟩
  rw [if_neg h2]
  cases s.space me with
  | none => exact ⟨own,h⟩
  | some m =>
    cases htgt : (s.taskFind (targetPid.setWidth 32).toInt).bind fun t => s.rootOf t with
    | none => exact ⟨own,h⟩
    | some r =>
      dsimp only
      obtain ⟨t,_,hroot⟩ := bind_eq_some_iff.mp htgt
      by_cases h3 : va < userShmemBase ∨ (!uvmRangeOk va (npages * 4096)) = true
      · rw [if_pos h3]; exact ⟨own,h⟩
      rw [if_neg h3]
      have hok : uvmRangeOk va (npages * 4096) = true := by simpa using (not_or.mp h3).2
      have hcount : npages.toNat ≤ pageCount (npages * 4096) := by
        have hmax : npages.toInt ≤ 4096 := by unfold maxShmemPages at h1; omega
        have hpos : 0 < npages.toInt := by omega
        have hn : npages.toNat ≤ 4096 := by
          rw [BitVec.toInt_eq_toNat_cond] at hmax hpos
          split_ifs at hmax hpos <;> omega
        unfold pageCount
        rw [BitVec.toNat_mul,show (4096 : U64).toNat = 4096 from rfl]
        omega
      obtain ⟨own',hu⟩ := unsharePages_unmapped h.safe (h.root hroot) npages.toNat
        fun i hi => uvmRangeOk_lowerHalf hok (by omega)
      refine ⟨own',?_⟩
      dsimp only
      apply Owned.modifyVm (h.phys hu.toKept) me
      intro p hp
      exact ⟨rfl,(h.vmOk hp).bounded.of_arena rfl rfl rfl⟩

omit h in
theorem vmOk_freshVm (r brkBase : U64) : VmOk (freshVm r brkBase) :=
  ⟨TaskVm.uvmInit_bounded _,r,rfl⟩

theorem Owned.setRoot (pid : ℕ) (hsafe : FrameSafe lowPd s'.phys own') (hfresh : own r = none)
    (hown : ∀ x, own' x = some (x, []) ↔ own x = some (x, []) ∧ s.rootOf pid ≠ some x ∨ x = r)
    (hroot : ∀ pid', s'.rootOf pid' = if pid' = pid then some r else s.rootOf pid')
    (hvm : ∀ {pid' p}, s'.procs pid' = some p → VmOk p.vm) : Owned lowPd s' own' := by
  have hnew : ∀ pid', s.rootOf pid' ≠ some r := by
    intro pid' hx
    have := h.root hx
    rw [hfresh] at this
    cases this
  refine ⟨hsafe,fun x => ?_,fun {pid1 pid2 x} h1 h2 => ?_,hvm⟩
  · rw [hown,h.roots]
    constructor
    · rintro (⟨⟨pid',hx⟩,hne⟩ | rfl)
      · refine ⟨pid',?_⟩
        rw [hroot,if_neg]
        · exact hx
        · rintro rfl; exact hne hx
      · exact ⟨pid,by rw [hroot,if_pos rfl]⟩
    · rintro ⟨pid',hx⟩
      rw [hroot] at hx
      split_ifs at hx with hc
      · exact .inr (some.inj hx).symm
      · exact .inl ⟨⟨pid',hx⟩,fun hp => hc (h.distinct hx hp)⟩
  · rw [hroot] at h1 h2
    split_ifs at h1 h2 with e1 e2 e2
    · rw [e1,e2]
    · cases h1; exact absurd h2 (hnew pid2)
    · cases h2; exact absurd h1 (hnew pid1)
    · exact h.distinct h1 h2

theorem Owned.loadFailed {ph : Phys}
    (hl : SameLeaves lowPd s.phys own ph own') : Owned lowPd { s with phys := ph } own' :=
  ⟨hl.safe,fun r => (hl.roots r).trans (h.roots r),h.distinct,h.vmOk⟩

omit h in
theorem Owned.spawn (hk : k.SharesLow lowPd) (h : Owned lowPd s own) (pid : ℕ)
    (steps : List LoadStep) (ok : Bool) (brkBase : U64) :
    ∃ own', Owned lowPd (s.spawn k pid steps ok brkBase) own' := by
  unfold State.spawn
  by_cases hfree : (s.procs pid).isSome = true
  · rw [if_pos hfree]; exact ⟨own,h⟩
  rw [if_neg hfree]
  have hnone : s.rootOf pid = none := by
    rw [Bool.not_eq_true,isSome_eq_false_iff,isNone_iff_eq_none] at hfree
    simp [rootOf,hfree]
  have hl := h.safe.loadImage hk steps ok
  generalize s.phys.loadImage k steps ok = res at hl
  obtain ⟨root,ph⟩ := res
  cases root with
  | none =>
    obtain ⟨own',hl⟩ := hl
    exact ⟨own',h.loadFailed hl⟩
  | some r =>
    obtain ⟨own',hc⟩ := hl
    refine ⟨own',h.setRoot pid hc.safe hc.fresh (fun x => ?_) (fun pid' => ?_)
      fun {pid' p} hp => ?_⟩
    · rw [hc.roots,hnone]
      simp
    · unfold rootOf
      dsimp only
      split_ifs with hp
      · rw [hp,update_self]; rfl
      · rw [update_of_ne hp]
    · simp only [update_apply] at hp
      split_ifs at hp with hpid
      · cases hp
        exact vmOk_freshVm r brkBase
      · exact h.vmOk hp

omit h in
theorem Owned.exec (hk : k.SharesLow lowPd) (h : Owned lowPd s own)
    (hc : ¬ RecordedLent s pid → TearsNothing s pid) (steps : List LoadStep) (ok : Bool) (brkBase : U64) :
    ∃ own', Owned lowPd (s.exec k pid steps ok brkBase) own' := by
  unfold State.exec
  cases hrun : s.running pid with
  | none => exact ⟨own,h⟩
  | some old =>
    obtain ⟨p,rold,hp,rfl,hold,hroot,hown,_⟩ := h.running hrun
    have hl := h.safe.loadImage hk steps ok
    generalize s.phys.loadImage k steps ok = res at hl
    obtain ⟨root,ph⟩ := res
    cases root with
    | none =>
      obtain ⟨own',hl⟩ := hl
      exact ⟨own',h.loadFailed hl⟩
    | some r =>
      obtain ⟨own',hcr⟩ := hl
      simp only [hold]
      have hne : rold ≠ r := by
        rintro rfl
        have := hcr.fresh
        rw [hown] at this
        cases this
      -- The new image borrows nothing, and loading it left every other leaf alone.
      have hunlent : ¬ RecordedLent s pid → Unlent ph own' rold := by
        intro hnot
        refine h.unlent hroot (hc hnot) hcr.safe fun {r' q e} hleaf hcase => (hcr.leaf ?_).mp hleaf
        rintro rfl
        rcases hcase with hs | hs
        · rw [hcr.image.unshared q e hleaf] at hs; cases hs
        · exact hne hs.symm
      have hset : ∀ {ph'' : Phys}, FrameSafe lowPd ph'' (forget own' rold) →
          Owned lowPd { ({ s with phys := ph }.modifyVm pid fun _ => freshVm r brkBase) with
            phys := ph'' } (forget own' rold) := by
        intro ph'' hsafe
        refine h.setRoot pid hsafe hcr.fresh (fun x => ?_) (fun pid' => ?_)
          fun {pid' p'} hp' => ?_
        · rw [forget_eq_some,hcr.roots,hroot]
          constructor
          · rintro ⟨hx | hx,hxr⟩
            · exact .inl ⟨hx,fun hcx => hxr (some.inj hcx).symm⟩
            · exact .inr hx
          · rintro (⟨hx,hxr⟩ | rfl)
            · exact ⟨.inl hx,fun hcx => hxr (congrArg some (Eq.symm hcx))⟩
            · exact ⟨.inr rfl,fun hcx => hne (Eq.symm hcx)⟩
        · unfold State.rootOf State.modifyVm
          dsimp only
          split_ifs with hpid
          · rw [hpid,update_self,hp]; rfl
          · rw [update_of_ne hpid]
        · dsimp only at hp'
          rcases procs_modifyVm hp' with ⟨_,q,_,rfl⟩ | ⟨_,hp'⟩
          · exact vmOk_freshVm r brkBase
          · exact h.vmOk hp'
      split_ifs with hout
      · exact ⟨_,hset (hcr.safe.forget rold)⟩
      · have hnot := not_recordedLent hp hout
        have hfree := hcr.safe.tables.freeUserPml4 (hunlent hnot) hcr.safe
          ((hcr.roots rold).mpr (.inl hown))
        exact ⟨_,hset hfree.safe⟩

theorem Owned.exit (pid : ℕ) (unclaimed : Bool) : Owned lowPd (s.exit pid unclaimed) own := by
  have hvm : ∀ pid', ((s.exit pid unclaimed).procs pid').map Proc.vm = (s.procs pid').map Proc.vm := by
    intro pid'
    unfold State.exit
    dsimp only
    by_cases hp : pid' = pid
    · rw [hp,update_self,map_map]; rfl
    · rw [update_of_ne hp]
  refine h.of_kept h.safe.kept (fun pid' => ?_) fun {pid' p} hp => ?_
  · have := congrArg (fun o => o.bind TaskVm.userPml4) (hvm pid')
    simpa [State.rootOf,bind_map,Function.comp_def] using this
  · have := hvm pid'
    rw [hp] at this
    obtain ⟨q,hq,hqv⟩ := map_eq_some_iff.mp this.symm
    rw [← hqv]
    exact h.vmOk hq

theorem Owned.reap (hc : TearsNothing s pid) : ∃ own', Owned lowPd (s.reap pid) own' := by
  unfold State.reap
  cases hp : s.procs pid with
  | none => exact ⟨own,h⟩
  | some p =>
    dsimp only
    split_ifs
    · exact ⟨own,h⟩
    obtain ⟨_,r,hr⟩ := h.vmOk hp
    have hroot : s.rootOf pid = some r := by simp [rootOf,hp,hr]
    simp only [hr]
    have hfree := h.safe.tables.freeUserPml4 (h.unlent hroot hc h.safe fun hl _ => hl) h.safe
      (h.root hroot)
    have hrootOf : ∀ pid', rootOf ⟨update s.procs pid none,
        Phys.freeUserPml4 r s.phys⟩ pid' = if pid' = pid then none else s.rootOf pid' := by
      intro pid'
      unfold rootOf
      dsimp only
      split_ifs with hpid
      · rw [hpid,update_self]; rfl
      · rw [update_of_ne hpid]
    refine ⟨forget own r,hfree.safe,fun x => ?_,fun {pid1 pid2 x} h1 h2 => ?_,
      fun {pid' p'} hp' => ?_⟩
    · rw [forget_eq_some,h.roots]
      constructor
      · rintro ⟨⟨pid',hx⟩,hne⟩
        refine ⟨pid',?_⟩
        rw [hrootOf,if_neg]
        · exact hx
        · rintro rfl
          rw [hroot] at hx
          exact hne (some.inj hx).symm
      · rintro ⟨pid',hx⟩
        rw [hrootOf] at hx
        split_ifs at hx with hpid
        refine ⟨⟨pid',hx⟩,?_⟩
        rintro rfl
        exact hpid (h.distinct hx hroot)
    · rw [hrootOf] at h1 h2
      split_ifs at h1 h2
      exact h.distinct h1 h2
    · dsimp only at hp'
      by_cases hpid : pid' = pid
      · rw [hpid,update_self] at hp'; cases hp'
      · rw [update_of_ne hpid] at hp'
        exact h.vmOk hp'

omit h

theorem Owned.onRunning (h : Owned lowPd s own) {f : TaskVm → State}
    (hf : ∀ vm, s.running pid = some vm → ∃ own', Owned lowPd (f vm) own') :
    ∃ own', Owned lowPd (match s.running pid with | none => s | some vm => f vm) own' := by
  cases hrun : s.running pid with
  | none => exact ⟨own,h⟩
  | some vm => exact hf vm hrun

theorem step_owned (hk : k.SharesLow lowPd) (h : Owned lowPd s own) (op : Op)
    (hc : Careful s op) : ∃ own', Owned lowPd (step k s op) own' := by
  cases op with
  | spawn pid steps ok brkBase => exact h.spawn hk pid steps ok brkBase
  | exec pid steps ok brkBase => exact h.exec hk hc steps ok brkBase
  | exit pid unclaimed => exact ⟨own,h.exit pid unclaimed⟩
  | reap pid => exact h.reap hc
  | reapUnclaimed pid =>
    simp only [step,reapUnclaimed]
    cases hp : s.procs pid with
    | none => exact ⟨own,h⟩
    | some p =>
      dsimp only
      split_ifs with hz hout
      · exact ⟨own,h⟩
      · exact ⟨own,h⟩
      · exact h.reap (hc (not_recordedLent hp hout))
  | reserve pid addr bytes flags fixed =>
    refine h.onRunning fun vm hrun => ?_
    obtain ⟨p,r,hp,rfl,_,_,_,hb⟩ := h.running hrun
    obtain ⟨h1,h2⟩ := TaskVm.uvmReserve_bounded hb s.phys addr bytes fixed hc
    refine ⟨own,h.modifyVm pid fun q hq => ?_⟩
    cases hp.symm.trans hq
    exact ⟨h2,h1⟩
  | faultIn pid addr writable =>
    refine h.onRunning fun vm hrun => ?_
    obtain ⟨p,r,_,_,hr,_,hown,hb⟩ := h.running hrun
    obtain ⟨own',hf⟩ := TaskVm.uvmFaultIn_faulted hr hb h.safe hown addr writable
    exact ⟨own',h.phys hf.toKept⟩
  | release pid addr bytes =>
    refine h.onRunning fun vm hrun => ?_
    obtain ⟨p,r,hp,rfl,hr,hroot,hown,hb⟩ := h.running hrun
    obtain ⟨own',hu⟩ := TaskVm.uvmRelease_unmapped hr h.safe hown (h.rangeUnlent hroot hc)
    obtain ⟨h1,h2⟩ := TaskVm.uvmRelease_bounded hb s.phys addr bytes
    refine ⟨own',Owned.modifyVm (h.phys hu.toKept) pid fun q hq => ?_⟩
    cases hp.symm.trans hq
    exact ⟨h2,h1⟩
  | discard pid addr bytes =>
    refine h.onRunning fun vm hrun => ?_
    obtain ⟨p,r,_,_,hr,hroot,hown,_⟩ := h.running hrun
    obtain ⟨own',hu⟩ := TaskVm.uvmDiscard_unmapped hr h.safe hown (h.rangeUnlent hroot hc)
    exact ⟨own',h.phys hu.toKept⟩
  | share me targetPid inVa npages out => exact h.onRunning fun _ _ => h.share hc
  | unshare me targetPid va npages => exact h.onRunning fun _ _ => h.unshare me targetPid va npages

/-- The kernel before the first process: the low gigabyte is identity-mapped with huge pages
through the directory `lowPd`, whose frame is allocated. -/
structure Boot (k : KernelTables) (lowPd : U64) (s : State) : Prop where
  empty : ∀ pid, s.procs pid = none
  low : k.SharesLow lowPd
  frame : IsFrame lowPd
  taken : Taken s.phys.pmm lowPd
  huge : ∀ i, has (s.phys.mem lowPd i) vmmPresent = true ∧ has (s.phys.mem lowPd i) vmmPs = true

theorem Boot.owned (h : Boot k lowPd s) : Owned lowPd s fun _ => none where
  safe := by
    refine ⟨⟨?_,?_,?_,?_,?_,?_,?_,h.taken,h.frame,rfl,h.huge⟩,?_⟩
    case refine_8 => rintro r q e ⟨_,_,_,_,_,ho,_⟩; cases ho
    all_goals intros; contradiction
  roots r := by simp [rootOf,h.empty]
  distinct := by simp [rootOf,h.empty]
  vmOk := by simp [h.empty]

theorem Boot.always (hboot : Boot k lowPd s) {ops : List Op} (h : Admissible (step k) Careful s ops)
    {P : State → Prop} (hP : ∀ s own, Owned lowPd s own → P s) : Always (step k) P s ops := by
  refine h.always (I := fun s => ∃ own, Owned lowPd s own) (fun s op hs hc => ?_) (fun s hs => ?_)
    ⟨_,hboot.owned⟩
  · obtain ⟨own,ho⟩ := hs
    exact step_owned hboot.low ho op hc
  · obtain ⟨own,ho⟩ := hs
    exact hP s own ho

/-- In a run of careful steps from boot no frame behind a user leaf is ever free. -/
theorem run_framesHeld (hboot : Boot k lowPd s) {ops : List Op}
    (h : Admissible (step k) Careful s ops) : Always (step k) FramesHeld s ops :=
  hboot.always h fun _ _ ho => ho.framesHeld

def Maps (s : State) (pid : ℕ) (va e : U64) : Prop :=
  LowerHalf va ∧ ∃ r, s.rootOf pid = some r ∧ s.phys.vmmEntryIn r va = e ∧ e ≠ 0#64

/-- A frame mapped without `VMM_SHARED` is mapped once, and page tables are not mapped. -/
structure Isolated (s : State) : Prop where
  once : ∀ {pid pid' va va' e e'}, Maps s pid va e → Maps s pid' va' e' → has e vmmShared = false →
    has e' vmmShared = false → tableOf e = tableOf e' → pid = pid' ∧ pagePath va = pagePath va'
  tables : ∀ {pid pid' va va' e r}, Maps s pid va e → s.rootOf pid' = some r → tableOf e ≠ r ∧
    (LowerHalf va' → s.phys.walkOnly r va' ≠ some (tableOf e))

theorem Owned.leafAt (h : Owned lowPd s own) {va e : U64} (hm : Maps s pid va e) :
    ∃ r, s.rootOf pid = some r ∧ LeafAt s.phys own r (pagePath va) e := by
  obtain ⟨hva,r,hr,he⟩ := hm
  exact ⟨r,hr,(vmmEntryIn_iff h.safe.tables (h.root hr) hva.pml4Index _).mp he⟩

theorem Owned.isolated (h : Owned lowPd s own) : Isolated s where
  once hm hm' hs hs' heq := by
    obtain ⟨r,hr,hl⟩ := h.leafAt hm
    obtain ⟨r',hr',hl'⟩ := h.leafAt hm'
    have ho := h.safe.tables.owner_of_leafAt hl hs
    rw [heq,h.safe.tables.owner_of_leafAt hl' hs'] at ho
    obtain ⟨rfl,hpath⟩ := Prod.mk.inj (some.inj ho)
    exact ⟨h.distinct hr hr',hpath.symm⟩
  tables {_ _ _ _ e _} hm hr := by
    obtain ⟨r',_,hl⟩ := h.leafAt hm
    -- the owner of a frame behind a leaf is a page: its path is one longer than a table's
    have hpage : ∀ {t p}, own (tableOf e) = some (t, p) → p.length = 4 := by
      intro t p ho
      cases hs : has e vmmShared with
      | false => cases (h.safe.tables.owner_of_leafAt hl hs).symm.trans ho; exact hl.length
      | true => exact (h.safe.shared _ _ _ hl hs).page _ _ ho
    refine ⟨?_,fun hva hw => ?_⟩
    · rintro rfl
      cases hpage (h.root hr)
    · cases hpage ((walkOnly_iff h.safe.tables (h.root hr) hva.pml4Index _).mp hw)

/-- In a run of careful steps from boot, processes share the frames that were lent and no others. -/
theorem run_isolated (hboot : Boot k lowPd s) {ops : List Op}
    (h : Admissible (step k) Careful s ops) : Always (step k) Isolated s ops :=
  hboot.always h fun _ _ ho => ho.isolated

theorem boot_frames_le : 512 ≤ 134217728 := by decide

def bootPhys : Phys where
  mem := fun t i => if t = 0x1000#64 then (i.setWidth 64 <<< 21) ||| 0x83#64 else 0#64
  pmm := ⟨fun n => if n < 32 then 0xFF#8 else 0#8,512,256,256,boot_frames_le⟩

def bootKernel : KernelTables := ⟨fun _ => 0#64,some 0x1003#64⟩
def bootState : State := ⟨fun _ => none,bootPhys⟩

theorem boot_bootState : Boot bootKernel 0x1000#64 bootState where
  empty _ := rfl
  low := ⟨0x1003#64,rfl,by decide,by decide,by decide⟩
  frame := by unfold IsFrame; decide
  taken := ⟨by decide,by decide⟩
  huge := by decide +kernel

theorem image_base_lt : (0x50000000#64).toNat < 2 ^ 47 := by decide
theorem image_flags_seven : tableOf 7#64 = 0#64 ∧ has 7#64 vmmShared = false := by decide

def spawnTwo : List Op :=
  [.spawn 1 [.page ⟨0x50000000#64,image_base_lt⟩ ⟨7#64,image_flags_seven⟩] true 0, .spawn 2 [] true 0]

def twoProcesses : State := run (step bootKernel) bootState spawnTwo

theorem owned_twoProcesses : ∃ own, Owned 0x1000#64 twoProcesses own := by
  obtain ⟨own1,h1⟩ := step_owned boot_bootState.low boot_bootState.owned
    (.spawn 1 [.page ⟨0x50000000#64,by decide⟩ ⟨7#64,by decide⟩] true 0) trivial
  exact step_owned boot_bootState.low h1 (.spawn 2 [] true 0) trivial

theorem rootOf_one (hr : twoProcesses.rootOf 1 = some r) : r = 0x100000#64 := by
  refine some.inj (hr.symm.trans ?_)
  decide +kernel

theorem shareBase_two {t : ℕ} {vm : TaskVm} {tr : U64}
    (ht : twoProcesses.taskFind ((2 : U64).setWidth 32).toInt = some t)
    (hsp : twoProcesses.space t = some (vm, tr)) : shareBase vm = 0x80000000#64 := by
  have htwo : t = 2 := by
    refine Option.some.inj (ht.symm.trans ?_)
    decide +kernel
  subst htwo
  have hmap := congrArg (Option.map fun m : TaskVm × U64 => shareBase m.1) hsp
  exact Option.some.inj (hmap.symm.trans (by decide +kernel))

theorem careful_lend : Careful twoProcesses (.share 1 2 0x50000000 1 0x50000000) := by
  intro _ _ i hi
  have hi0 : i = 0 := Nat.lt_one_iff.mp hi
  subst hi0
  refine ⟨fun r hr => ?_,fun t vm pml4 ht hsp => ?_⟩
  · cases rootOf_one hr
    exact ⟨by unfold LowerHalf; decide,fun _ => by decide +kernel⟩
  · rw [shareBase_two ht hsp,pageAt_zero]
    unfold LowerHalf
    decide

def lendOps : List Op := spawnTwo ++ [.share 1 2 0x50000000 1 0x50000000]

theorem lend_framesHeld : Always (step bootKernel) FramesHeld bootState lendOps :=
  run_framesHeld boot_bootState ⟨trivial,trivial,careful_lend,trivial⟩

theorem lend_isolated : Always (step bootKernel) Isolated bootState lendOps :=
  run_isolated boot_bootState ⟨trivial,trivial,careful_lend,trivial⟩

/-- The lender unmaps the page it lent: its frame goes back to the allocator while process 2
still has a writable entry for it. -/
theorem release_frees_lent_frame :
    ¬ FramesHeld (run (step bootKernel) bootState (lendOps ++ [.release 1 0x50000000 4096])) := by
  intro h
  refine h 2 0x105000#64 0x80000000#64 (by decide +kernel) (by unfold LowerHalf; decide)
    (by decide +kernel) (by decide +kernel) ⟨by decide +kernel,by decide +kernel⟩

end GaiaKernel.Spaces
