import GaiaKernel.Sched.RecordTransfer

/-! # Reference counts over runs of the scheduler

Every operation except `sys_thread_exit` keeps the invariant, and a `sys_thread_exit` that
gets past its guard breaks it at once. So the runs in which the counts are right throughout
are exactly the runs without one.
-/
namespace GaiaKernel.Sched
open Kernel Trace Function Finset Option Sched.Task
variable {k : Kernel} {i : Fin maxTasks}

theorem Task.empty_ok : empty.Ok := by simp [Task.Ok,empty]

theorem releaseAndFree_spaces (hk : Spaces k) :
    Spaces (((k.taskReleaseAddressSpace i).taskStateFree i).setTask i empty) := by
  cases hvm : (k.tasks i).vm with
  | none =>
    have h1 : k.taskReleaseAddressSpace i = k := by simp [taskReleaseAddressSpace,hvm]
    have h2 : k.taskStateFree i = k := by simp [taskStateFree,hvm]
    rw [h1,h2]
    exact hk.setTask_none hvm rfl empty_ok
  | some p =>
    obtain ⟨r,hr⟩ := Option.isSome_iff_exists.mp (hk.held i p hvm)
    have hmem : i ∈ holders k p := by simpa using hvm
    rcases hk.record p r hr with ⟨rfl,j,hj,_⟩ | ⟨root,c,rfl,hc,hne,hroot,_⟩
    · have hji : i = j := by rw [hj] at hmem; exact mem_singleton.mp hmem
      subst hji
      have h1 : k.taskReleaseAddressSpace i = k := by simp [taskReleaseAddressSpace,hvm,hr]
      rw [h1]
      refine hk.detach_last hvm hr hj (t := empty) rfl empty_ok ?_ ?_ ?_ ?_ ?_
      all_goals simp [taskStateFree,hvm,kfreeVm,hr,setTask,setVm]
    · by_cases hcard : 1 < (holders k p).card
      · have h1 : ((k.taskReleaseAddressSpace i).taskStateFree i).setTask i empty =
            (k.setRef c (some (((holders k p).card : ℤ) - 1))).setTask i empty := by
          simp [taskReleaseAddressSpace,taskStateFree,hvm,hr,hc,hcard,setTask,setRef]
        rw [h1]
        exact hk.detach_shared hvm hr hcard rfl empty_ok
      · have honly : holders k p = {i} := by
          refine (eq_of_subset_of_card_le (singleton_subset_iff.mpr hmem) ?_).symm
          rw [card_singleton]; omega
        refine hk.detach_last hvm hr honly (t := empty) rfl empty_ok ?_ ?_ ?_ ?_ ?_
        all_goals
          simp [taskReleaseAddressSpace,taskStateFree,hvm,hr,hc,hcard,kfreeVm,kfreeRef,
            freeUserPml4,hroot,setTask,setRef,setVm]
        · intro d
          rw [update_apply]
          simp [eq_comm]
        · intro x
          by_cases hx : root = x
          · subst hx; simp
          · simp [hx,Ne.symm hx]

theorem releaseAndFree_others (k : Kernel) (i : Fin maxTasks) :
    (((k.taskReleaseAddressSpace i).taskStateFree i).setTask i empty).current = k.current ∧
      ∀ j, j ≠ i → (((k.taskReleaseAddressSpace i).taskStateFree i).setTask i empty).tasks j =
          k.tasks j := by
  have h1 : (k.taskReleaseAddressSpace i).current = k.current ∧
      ∀ j, j ≠ i → (k.taskReleaseAddressSpace i).tasks j = k.tasks j := by
    unfold taskReleaseAddressSpace
    repeat' split
    all_goals simp +contextual [setVm,setRef,setTask]
  have h2 : ∀ k : Kernel, (k.taskStateFree i).current = k.current ∧
      ∀ j, j ≠ i → (k.taskStateFree i).tasks j = k.tasks j := by
    intro k
    unfold taskStateFree
    split <;> simp +contextual [setTask]
  refine ⟨(h2 _).1.trans h1.1,fun j hj => ?_⟩
  simp only [setTask,update_of_ne hj]
  exact ((h2 _).2 j hj).trans (h1.2 j hj)

theorem taskReap_spec (h : Sound k) : Sound (k.taskReap i) ∧ (k.taskReap i).current = k.current ∧
      (k.taskReap i).tasks k.current = k.tasks k.current := by
  unfold taskReap
  split
  · exact ⟨h,rfl,rfl⟩
  next hc =>
  simp only [not_or,ne_eq,not_not] at hc
  have hdead : SameSpaces k (k.setTask i { k.tasks i with state := .dead }) :=
    setTask_sameSpaces rfl rfl rfl (fun _ => Or.inr (Or.inl rfl)) (by simp)
  have hcur : k.current ≠ i := by
    rintro rfl
    rw [h.2.2] at hc
    exact absurd hc.1 (by decide)
  have htask : (k.setTask i { k.tasks i with state := .dead }).tasks k.current =
      k.tasks k.current := by simp [setTask,hcur]
  have hc1 : (k.setTask i { k.tasks i with state := .dead }).current = k.current := rfl
  generalize k.setTask i { k.tasks i with state := .dead } = k1 at hdead htask hc1 ⊢
  obtain ⟨hc',hothers⟩ := releaseAndFree_others k1 i
  have ht := (hothers k.current hcur).trans htask
  refine ⟨⟨releaseAndFree_spaces (hdead.spaces h.1),?_⟩,hc'.trans hc1,ht⟩
  unfold Occupied
  rw [hc',hc1,ht]
  exact h.2

theorem taskReapUnclaimed_spec (h : Sound k) :
    Sound k.taskReapUnclaimed ∧ k.taskReapUnclaimed.current = k.current ∧
      k.taskReapUnclaimed.tasks k.current = k.tasks k.current := by
  unfold taskReapUnclaimed
  refine List.foldlRecOn (motive := fun k' : Kernel => Sound k' ∧ k'.current = k.current ∧
    k'.tasks k.current = k.tasks k.current) taskSlots reapUnclaimedStep ⟨h,rfl,rfl⟩
    fun k' hk' i _ => ?_
  unfold reapUnclaimedStep
  dsimp only
  split
  · exact hk'
  · obtain ⟨h1,h2,h3⟩ := taskReap_spec (i := i) hk'.1
    rw [hk'.2.1] at h2 h3
    exact ⟨h1,h2,h3.trans hk'.2.2⟩

theorem freeSlot_free (hi : k.freeSlot = some i) : (k.tasks i).pid = 0 := by
  simpa using List.find?_some hi

theorem allocSlot_spec (h : Sound k) :
    Sound k.allocSlot.2 ∧ (∀ i, k.allocSlot.1 = some i → (k.allocSlot.2.tasks i).pid = 0) ∧
      k.allocSlot.2.current = k.current ∧ k.allocSlot.2.tasks k.current = k.tasks k.current := by
  obtain ⟨h1,h2,h3⟩ := taskReapUnclaimed_spec h
  unfold allocSlot
  generalize k.taskReapUnclaimed = k' at h1 h2 h3 ⊢
  cases hf : k.freeSlot with
  | some j => exact ⟨h,fun i hi => freeSlot_free (hf.trans hi),rfl,rfl⟩
  | none => exact ⟨h1,fun i hi => freeSlot_free hi,h2,h3⟩

variable {c p root : ℕ} {k' : Kernel}

theorem occupied_of_update {t : Task} (h : Occupied k)
    (hi : (k.tasks i).pid = 0) (hcur : k'.current = k.current)
    (htasks : k'.tasks = update k.tasks i t) : Occupied k' := by
  have hne : k.current ≠ i := by rintro rfl; exact h.1 hi
  unfold Occupied
  rw [hcur,htasks,update_of_ne hne]
  exact h

theorem sound_nextPid {n : ℕ+} (h : Sound k) : Sound { k with nextPid := n } :=
  ⟨⟨h.1.noFault,h.1.held,h.1.record,h.1.rootInj,h.1.cellInj,h.1.rooted,h.1.celled,h.1.taskOk⟩,h.2⟩

theorem taskSpawnUser_sound {parentPid : ℕ} (h : Sound k) :
    Sound (k.taskSpawnUser root p c parentPid) := by
  obtain ⟨hs,hfree,_,_⟩ := allocSlot_spec h
  unfold taskSpawnUser
  generalize k.allocSlot = a at hs hfree ⊢
  obtain ⟨_ | i,k1⟩ := a
  · exact hs
  have hpid := hfree i rfl
  dsimp only at hs hpid ⊢
  split
  · exact sound_nextPid hs
  next hc =>
  simp only [Bool.or_eq_true,not_or,kmallocVm,kmallocRef,Bool.not_eq_true,Bool.not_eq_false',
    Bool.and_eq_true,isNone_iff_eq_none,bne_iff_ne] at hc
  obtain ⟨⟨hroot,_,hp⟩,_,hcell⟩ := hc
  refine ⟨hs.1.attach_new (i := i) (p := p) ((hs.1.taskOk i).2.2 hpid) hp
    (t := newTask k1.nextPid parentPid .ready p (some (root, c))) rfl ?_ rfl rfl rfl
    (Or.inr ⟨root,c,rfl,rfl,hcell,rfl,hroot,rfl⟩),occupied_of_update hs.2 hpid rfl rfl⟩
  simp [Task.Ok,newTask,TaskState.idle]

theorem taskReserveUser_sound {parentPid : ℕ} (h : Sound k) :
    Sound (k.taskReserveUser p parentPid) := by
  obtain ⟨hs,hfree,_,_⟩ := allocSlot_spec h
  unfold taskReserveUser
  generalize k.allocSlot = a at hs hfree ⊢
  obtain ⟨_ | i,k1⟩ := a
  · exact hs
  have hpid := hfree i rfl
  dsimp only at hs hpid ⊢
  split
  · exact sound_nextPid hs
  next hc =>
  simp only [kmallocVm,Bool.not_eq_true,Bool.not_eq_false',
    Bool.and_eq_true,isNone_iff_eq_none,bne_iff_ne] at hc
  refine ⟨hs.1.attach_new (i := i) (p := p) ((hs.1.taskOk i).2.2 hpid) hc.2
    (t := newTask k1.nextPid parentPid .loading p none) rfl ?_ rfl rfl rfl
    (Or.inl ⟨rfl,rfl,rfl,rfl⟩),occupied_of_update hs.2 hpid rfl rfl⟩
  simp [Task.Ok,newTask,TaskState.idle]

theorem Spaces.counted_of_started (hk : Spaces k) (hvm : (k.tasks i).vm = some p)
    (hst : ¬ (k.tasks i).state.idle) :
    ∃ root c, k.vms p = some ⟨some root,some c,0⟩ ∧ (k.tasks i).given = some (root, c) ∧
      k.refs c = some ((holders k p).card : ℤ) := by
  obtain ⟨r,hr⟩ := Option.isSome_iff_exists.mp (hk.held i p hvm)
  have hmem : i ∈ holders k p := by simpa using hvm
  rcases hk.record p r hr with ⟨_,j,hj,hg⟩ | ⟨root,c,rfl,hc,_,_,hg⟩
  · have hji : i = j := by rw [hj] at hmem; exact mem_singleton.mp hmem
    subst hji
    exact absurd ((hk.taskOk i).1 (by simp [hvm]) hg) hst
  · exact ⟨root,c,hr,hg i hmem,hc⟩

theorem not_idle_of_running {st : TaskState} (h : st = .running) : ¬ st.idle := by
  subst h; simp [TaskState.idle]

theorem spawnSharing_sound {child : Task} (h : Sound k)
    (hg : child.given = (k.tasks k.current).given) (hready : child.state = .ready) :
    Sound (k.spawnSharing p child) := by
  unfold spawnSharing
  cases hvm : (k.tasks k.current).vm with
  | none => exact h
  | some q =>
    obtain ⟨root,c,hr,hgiven,_⟩ := h.1.counted_of_started hvm (not_idle_of_running h.2.2)
    simp only [hr]
    obtain ⟨hs,hfree,hcur,htask⟩ := allocSlot_spec h
    generalize k.allocSlot = a at hs hfree hcur htask ⊢
    obtain ⟨_ | i,k1⟩ := a
    · exact hs
    have hpid := hfree i rfl
    dsimp only at hs hpid hcur htask ⊢
    split
    · exact hs
    -- The running task still holds its record, so the count is that of the state reaped.
    have hvm1 : (k1.tasks k1.current).vm = some q := by rw [hcur,htask,hvm]
    obtain ⟨root1,c1,hr1,hg1,hc1⟩ := hs.1.counted_of_started hvm1 (not_idle_of_running hs.2.2)
    rw [hcur,htask,hgiven] at hg1
    cases hg1
    simp only [hc1]
    refine sound_nextPid ⟨hs.1.attach_shared ((hs.1.taskOk i).2.2 hpid) hr1 rfl ?_ ?_,
      occupied_of_update hs.2 hpid rfl rfl⟩
    · simp [Task.Ok,hg,hgiven,hready]
    · exact hg.trans hgiven

theorem taskActivateReservedUser_sound (h : Sound k) :
    Sound (k.taskActivateReservedUser i root c) := by
  unfold taskActivateReservedUser
  dsimp only
  split
  · exact h
  next hst =>
  simp only [not_or,ne_eq,not_not,Bool.not_eq_true] at hst
  cases hvm : (k.tasks i).vm with
  | none => exact h
  | some p =>
    obtain ⟨r,hr⟩ := Option.isSome_iff_exists.mp (h.1.held i p hvm)
    simp only [hr]
    split
    · exact h
    next hc =>
    simp only [kmallocRef,Bool.not_eq_true,Bool.not_eq_false',Bool.and_eq_true,
      isNone_iff_eq_none,bne_iff_ne] at hc
    have hmem : i ∈ holders k p := by simpa using hvm
    have hok := h.1.taskOk i
    have hg := hok.2.1 hst.1
    have hpid : (k.tasks i).pid ≠ 0 := fun hz => by simp [hok.2.2 hz] at hvm
    rcases h.1.record p r hr with ⟨rfl,j,hj,_⟩ | ⟨_,_,_,_,_,_,hgiven⟩
    swap
    · rw [hgiven i hmem] at hg; cases hg
    have hji : i = j := by rw [hj] at hmem; exact mem_singleton.mp hmem
    subst hji
    -- Seen as the task letting go of the empty record and taking hold of a filled one.
    have hmid : Spaces ((k.setVm p none).setTask i { k.tasks i with vm := none }) := by
      refine h.1.detach_last hvm hr hj rfl ?_ rfl rfl rfl (by simp [setVm,setTask])
        (by simp [setVm,setTask])
      simp [Task.Ok,hg]
    refine ⟨hmid.attach_new (i := i) (p := p) (r := ⟨some root,some c,0⟩)
      (t := { k.tasks i with state := .ready, given := some (root, c) })
      (by simp [setVm,setTask]) (by simp [setVm,setTask]) hvm ?_ (by simp [setVm,setTask,setRef,hvm]) rfl
      (by simp [setVm,setTask,setRef])
      (Or.inr ⟨root,c,rfl,rfl,hc.2,rfl,hst.2,rfl⟩),?_⟩
    · simp [Task.Ok,hpid]
    · have hne : k.current ≠ i := by
        rintro rfl
        rw [h.2.2] at hst
        exact absurd hst.1 (by decide)
      simpa [Occupied,setTask,setVm,setRef,hne] using h.2

theorem exec_attach (mid : Kernel) (root p c : ℕ) (h : Sound k) (hmid : Spaces mid)
    (hmt : mid.tasks = update k.tasks k.current { k.tasks k.current with vm := none })
    (hp : mid.vms p = none) (hc : mid.refs c = none) (hroot : mid.roots root = false)
    (hcur : k'.current = k.current)
    (htasks : k'.tasks = update k.tasks k.current
      { k.tasks k.current with vm := some p, given := some (root, c), vforkParent := 0 })
    (hfault : k'.fault = mid.fault)
    (hvms : k'.vms = update mid.vms p (some ⟨some root,some c,0⟩))
    (hrefs : k'.refs = update mid.refs c (some 1))
    (hroots : k'.roots = update mid.roots root true) : Sound k' := by
  refine ⟨hmid.attach_new (i := k.current) (p := p)
    (t := { k.tasks k.current with vm := some p, given := some (root, c), vforkParent := 0 })
    (by simp [hmt]) hp rfl ?_ (by simp [htasks,hmt]) hfault hvms
    (Or.inr ⟨root,c,rfl,rfl,hc,hrefs,hroot,hroots⟩),?_⟩
  · have h1 := h.2.1
    have h2 := h.2.2
    simp [Task.Ok,h1,h2]
  · unfold Occupied
    rw [hcur,htasks,update_self]
    exact h.2

theorem taskExecAddressSpace_sound (h : Sound k) : Sound (k.taskExecAddressSpace root p c) := by
  unfold taskExecAddressSpace
  split
  · exact h
  next hargs =>
  simp only [Bool.or_eq_true,not_or,kmallocVm,kmallocRef,Bool.not_eq_true,Bool.not_eq_false',
    Bool.and_eq_true,isNone_iff_eq_none,bne_iff_ne] at hargs
  obtain ⟨⟨hroot,_,hp⟩,_,hc⟩ := hargs
  have hok : Task.Ok { k.tasks k.current with vm := none } := by simp [Task.Ok,h.2.2]
  cases hvm : (k.tasks k.current).vm with
  | none =>
    refine exec_attach (k.setTask k.current { k.tasks k.current with vm := none }) root p c h
      (h.1.setTask_none hvm rfl hok) rfl hp hc hroot ?_ ?_ ?_ ?_ ?_ ?_
    all_goals simp [setTask,setVm,setRef,hvm]
  | some old =>
    obtain ⟨oldRoot,d,hr,_,hd⟩ := h.1.counted_of_started hvm (not_idle_of_running h.2.2)
    have hmem : k.current ∈ holders k old := by simpa using hvm
    have hop : old ≠ p := by rintro rfl; rw [hp] at hr; cases hr
    have hdc : d ≠ c := by rintro rfl; rw [hc] at hd; cases hd
    have hor : k.roots oldRoot = true := h.1.root_true hr rfl
    have hrr : oldRoot ≠ root := by rintro rfl; rw [hroot] at hor; cases hor
    by_cases hcard : 1 < (holders k old).card
    · refine exec_attach ((k.setRef d (some (((holders k old).card : ℤ) - 1))).setTask
        k.current { k.tasks k.current with vm := none }) root p c h
        (h.1.detach_shared hvm hr hcard rfl hok) rfl hp ?_ hroot ?_ ?_ ?_ ?_ ?_ ?_
      all_goals
        simp [setTask,setVm,setRef,hvm,hop,hdc,hdc.symm,hr,hd,hcard,hc,update_comm hdc]
    · have honly : holders k old = {k.current} := by
        refine (eq_of_subset_of_card_le (singleton_subset_iff.mpr hmem) ?_).symm
        rw [card_singleton]; omega
      refine exec_attach
        { ((k.setVm old none).setRef d none).setTask k.current
            { k.tasks k.current with vm := none } with
          roots := update k.roots oldRoot false } root p c h
        (h.1.detach_last hvm hr honly rfl hok rfl rfl rfl ?_ ?_) rfl ?_ ?_ ?_ ?_ ?_ ?_ ?_ ?_ ?_
      all_goals
        simp [setTask,setVm,setRef,kfreeRef,kfreeVm,freeUserPml4,hvm,hop,hop.symm,hdc,
          hdc.symm,hrr,hrr.symm,hr,hd,hcard,hc,hp,hroot,hor,
          update_comm hdc,update_comm hop,update_comm hrr]
      · intro x
        rw [update_apply]
        simp [eq_comm]
      · intro x
        by_cases hx : oldRoot = x
        · subst hx; simp
        · simp [hx,Ne.symm hx]

/-- The calls of `sys_thread_exit` that its guard refuses. -/
def NoThreadExit (k : Kernel) : Op → Prop
  | .threadExit _ => k.threadExitTarget = none
  | _ => True

theorem step_sound (k : Kernel) (op : Op) (h : Sound k) (hop : NoThreadExit k op) :
    Sound (step k op) := by
  cases op with
  | spawnUser root p c parentPid => exact taskSpawnUser_sound h
  | reserveUser p parentPid => exact taskReserveUser_sound h
  | activateReserved i root c => exact taskActivateReservedUser_sound h
  | failReserved i => exact taskFailReservedUser_sound h
  | spawnThread p => exact spawnSharing_sound h rfl rfl
  | spawnVfork p => exact spawnSharing_sound h rfl rfl
  | threadExit next =>
    change Sound (k.sysThreadExit next)
    unfold sysThreadExit
    rw [show k.threadExitTarget = none from hop]
    exact h
  | exit next => exact taskExit_sound h
  | kill pid next cancelled dequeued => exact taskKill_sound h
  | exec root p c => exact taskExecAddressSpace_sound h
  | reap i => exact (taskReap_spec h).1
  | reapUnclaimed => exact (taskReapUnclaimed_spec h).1
  | switch parked waitingFor next => exact taskSwitch_sound h
  | wakeup i => exact taskWakeup_sound h
  | vfs active => exact setVfsActive_sound h

/-- What the reference counts are for: records are counted and kept as long as some task holds
them, a started task finds in its record what it was given, and nothing is freed twice or used
after it was freed. -/
structure RefCountsOk (k : Kernel) : Prop where
  counted : ∀ p r, k.vms p = some r →
    (∃ i, holders k p = {i} ∧ (k.tasks i).given = none) ∨
      ∃ c, r.pml4RefCount = some c ∧ k.refs c = some ((holders k p).card : ℤ) ∧
        (holders k p).Nonempty
  intact : ∀ i p, (k.tasks i).vm = some p → ¬ (k.tasks i).state.idle →
    ∃ r root c, k.vms p = some r ∧ (k.tasks i).given = some (root, c) ∧
      r.userPml4 = some root ∧ r.pml4RefCount = some c
  noDangling : ∀ i p, (k.tasks i).vm = some p → (k.vms p).isSome
  tables : ∀ root, k.roots root = true ↔ ∃ p r, k.vms p = some r ∧ r.userPml4 = some root
  noFault : k.fault = false

theorem Spaces.refCountsOk (hk : Spaces k) : RefCountsOk k where
  counted p r hr := by
    rcases hk.record p r hr with ⟨_,i,hi,hg⟩ | ⟨root,c,rfl,hc,hne,_,_⟩
    · exact Or.inl ⟨i,hi,hg⟩
    · exact Or.inr ⟨c,rfl,hc,hne⟩
  intact i p hvm hst := by
    obtain ⟨root,c,hr,hg,_⟩ := hk.counted_of_started hvm hst
    exact ⟨_,root,c,hr,hg,rfl,rfl⟩
  noDangling := hk.held
  tables root := ⟨hk.rooted root,fun ⟨_,_,hr,hroot⟩ => hk.root_true hr hroot⟩
  noFault := hk.noFault

/-- A record that lost its count while a started task holds it breaks the property, whatever
the scheduler does next. -/
theorem not_refCountsOk_of_sameSpaces {g : ℕ × ℕ} {r : VmRecord}
    (h : SameSpaces k k') (hr : k.vms p = some r) (hnone : r.pml4RefCount = none)
    (hi : (k.tasks i).vm = some p) (hg : (k.tasks i).given = some g) : ¬ RefCountsOk k' := by
  intro hok
  rcases hok.counted p r (h.vms ▸ hr) with ⟨j,hj,hgj⟩ | ⟨c,hc,_⟩
  · have hmem : i ∈ holders k' p := by rw [mem_holders,h.vm]; exact hi
    rw [hj,mem_singleton] at hmem
    subst hmem
    rw [h.given,hg] at hgj
    cases hgj
  · rw [hnone] at hc
    cases hc

theorem taskExit_sameSpaces (k : Kernel) (next : Fin maxTasks) :
    SameSpaces k (k.taskExit next) := by
  unfold taskExit
  split
  · exact SameSpaces.refl k
  dsimp only
  split
  next hc => exact (markTaskExited_spec k k.current).1.trans (dispatch_sameSpaces hc).1
  · exact SameSpaces.refl k

theorem taskExitThread_sameSpaces (k : Kernel) (next : Fin maxTasks) :
    SameSpaces k (k.taskExitThread next) := by
  have hz : SameSpaces k (k.setTask k.current
      { k.tasks k.current with state := .zombie, unclaimed := true }) :=
    setTask_sameSpaces rfl rfl rfl (fun _ => Or.inl rfl) (by simp)
  have hw := hz.trans (wakeAwaiting_sameSpaces (k.tasks k.current).pid)
  unfold taskExitThread
  dsimp only
  split
  · exact SameSpaces.refl k
  split
  next hc => exact hw.trans (dispatch_sameSpaces hc).1
  · exact hw

theorem threadExit_breaks (h : Sound k) (next : Fin maxTasks)
    (ht : k.threadExitTarget ≠ none) : ¬ RefCountsOk (k.sysThreadExit next) := by
  cases hvm : (k.tasks k.current).vm with
  | none => simp [threadExitTarget,hvm] at ht
  | some p =>
    obtain ⟨root,c,hr,hg,hc⟩ := h.1.counted_of_started hvm (not_idle_of_running h.2.2)
    have htarget : k.threadExitTarget = some (p, ⟨some root,some c,0⟩, c) := by
      simp [threadExitTarget,hvm,hr]
    unfold sysThreadExit
    simp only [htarget,hc]
    split
    · refine not_refCountsOk_of_sameSpaces (i := k.current) (p := p) (g := (root, c))
        (taskExit_sameSpaces _ next) (update_self p _ _) rfl ?_ ?_
      all_goals simp [setVm,setRef,hvm,hg]
    · refine not_refCountsOk_of_sameSpaces (i := k.current) (p := p) (g := (root, c))
        (taskExitThread_sameSpaces _ next) (update_self p _ _) rfl ?_ ?_
      all_goals simp [setVm,setRef,hvm,hg]

/-- A kernel that has started no user task: no record, cell or user page table exists, and
the running task is a kernel thread. -/
structure Boot (k : Kernel) : Prop where
  vms : ∀ p, k.vms p = none
  refs : ∀ c, k.refs c = none
  roots : ∀ root, k.roots root = false
  fault : k.fault = false
  vm : ∀ i, (k.tasks i).vm = none
  given : ∀ i, (k.tasks i).given = none
  running : Occupied k

theorem Boot.sound (h : Boot k) : Sound k := by
  refine ⟨⟨h.fault,fun i p hi => ?_,fun p r hr => ?_,fun p q r s x hr => ?_,
    fun p q r s x hr => ?_,fun root hr => ?_,fun c hc => ?_,fun i => ?_⟩,h.running⟩
  · rw [h.vm] at hi; cases hi
  · rw [h.vms] at hr; cases hr
  · rw [h.vms] at hr; cases hr
  · rw [h.vms] at hr; cases hr
  · rw [h.roots] at hr; cases hr
  · rw [h.refs] at hc; cases hc
  · simp [Task.Ok,h.vm,h.given]

/-- From boot, the runs in which the reference counts are right in every state are exactly
the runs in which no `sys_thread_exit` gets past its guard. -/
theorem refCountsOk_iff_noThreadExit (k : Kernel) (hk : Boot k) (ops : List Op) :
    Always step RefCountsOk k ops ↔ Admissible step NoThreadExit k ops := by
  refine always_iff_admissible (I := Sound) (fun k op h hop => step_sound k op h hop)
    (fun k h => h.1.refCountsOk) (fun k op h hop => ?_) hk.sound ops
  cases op with
  | threadExit next => exact threadExit_breaks h next hop
  | _ => exact absurd trivial hop

def bootKernel : Kernel where
  tasks := fun i => if i.val = 0 then { empty with pid := 1 } else empty
  current := ⟨0,by decide⟩
  nextPid := 2
  vms := fun _ => none
  refs := fun _ => none
  roots := fun _ => false
  fault := false

theorem bootKernel_boot : Boot bootKernel where
  vms _ := rfl
  refs _ := rfl
  roots _ := rfl
  fault := rfl
  vm i := by simp only [bootKernel]; split <;> rfl
  given i := by simp only [bootKernel]; split <;> rfl
  running := ⟨by decide,by decide⟩

theorem thread_outlives_process : Always step RefCountsOk bootKernel
    [.spawnUser 100 1 1 0, .switch .ready 0 ⟨1,by decide⟩, .spawnThread 2,
      .exit ⟨2,by decide⟩, .reapUnclaimed] :=
  (refCountsOk_iff_noThreadExit bootKernel bootKernel_boot _).mpr
    ⟨trivial,trivial,trivial,trivial,trivial,trivial⟩

/-- A process starts a thread and leaves by `sys_thread_exit`: the thread runs on with a
record whose page-table root and count are gone. -/
theorem threadExit_strips_sibling : ¬ RefCountsOk (run step bootKernel
    [.spawnUser 100 1 1 0, .switch .ready 0 ⟨1,by decide⟩, .spawnThread 2,
      .threadExit ⟨2,by decide⟩]) := by
  intro h
  obtain ⟨r,root,c,hr,_,hroot,_⟩ := h.intact ⟨2,by decide⟩ 1 rfl
    (not_idle_of_running rfl)
  have hr' : some (⟨none,none,0⟩ : VmRecord) = some r := hr
  cases hr'
  cases hroot

end GaiaKernel.Sched
