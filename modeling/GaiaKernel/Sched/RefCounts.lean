import GaiaKernel.Sched.Tasks
import Mathlib.Data.Finset.Card
import Mathlib.Tactic.Ring

/-! # Reference counts of address spaces

`Spaces` ties a record to the tasks that hold it. The four ways a record changes hands (`detach`,
`attachFresh`, `attachLoading`, `attachShared`) keep it; the scheduler functions are these and
changes that no record notices.
-/
namespace GaiaKernel.Sched
open Kernel Function

def holders (k : Kernel) (p : ℕ) : Finset (Fin maxTasks) :=
  Finset.univ.filter fun i => (k.tasks i).vm = some p

@[simp] theorem mem_holders {k : Kernel} {p : ℕ} {i : Fin maxTasks} :
    i ∈ holders k p ↔ (k.tasks i).vm = some p := by simp [holders]

def TaskState.idle (st : TaskState) : Prop := st = .zombie ∨ st = .dead ∨ st = .loading

/-- A record without address space, of a task that is still being loaded or failed to be. -/
def Unborn (k : Kernel) (p : ℕ) (r : VmRecord) : Prop :=
  r = ⟨none,none,0⟩ ∧ ∃ i, holders k p = {i} ∧ (k.tasks i).given = none

/-- A record in use: the cell counts its holders, and each of them was given its root and
cell. -/
def Counted (k : Kernel) (p : ℕ) (r : VmRecord) : Prop :=
  ∃ root c, r = ⟨some root,some c,0⟩ ∧ k.refs c = some ((holders k p).card : ℤ) ∧
    (holders k p).Nonempty ∧ k.roots root = true ∧
    ∀ i ∈ holders k p, (k.tasks i).given = some (root, c)

/-- A task without address space has not started; a loading task has not been given one; a
free slot holds nothing. -/
def Task.Ok (t : Task) : Prop :=
  (t.vm ≠ none → t.given = none → t.state.idle) ∧ (t.state = .loading → t.given = none) ∧
    (t.pid = 0 → t.vm = none)

structure Spaces (k : Kernel) : Prop where
  noFault : k.fault = false
  held : ∀ i p, (k.tasks i).vm = some p → (k.vms p).isSome
  record : ∀ p r, k.vms p = some r → Unborn k p r ∨ Counted k p r
  rootInj : ∀ p q r s root, k.vms p = some r → k.vms q = some s →
    r.userPml4 = some root → s.userPml4 = some root → p = q
  cellInj : ∀ p q r s c, k.vms p = some r → k.vms q = some s →
    r.pml4RefCount = some c → s.pml4RefCount = some c → p = q
  rooted : ∀ root, k.roots root = true → ∃ p r, k.vms p = some r ∧ r.userPml4 = some root
  celled : ∀ c, (k.refs c).isSome → ∃ p r, k.vms p = some r ∧ r.pml4RefCount = some c
  taskOk : ∀ i, (k.tasks i).Ok

def Occupied (k : Kernel) : Prop :=
  (k.tasks k.current).pid ≠ 0 ∧ (k.tasks k.current).state = .running

/-- Nothing an address space depends on differs between the two states, and no task came
to life. -/
structure SameSpaces (k k' : Kernel) : Prop where
  vms : k'.vms = k.vms
  refs : k'.refs = k.refs
  roots : k'.roots = k.roots
  fault : k'.fault = k.fault
  vm : ∀ i, (k'.tasks i).vm = (k.tasks i).vm
  given : ∀ i, (k'.tasks i).given = (k.tasks i).given
  pid : ∀ i, (k'.tasks i).pid = (k.tasks i).pid
  idle : ∀ i, (k.tasks i).state.idle → (k'.tasks i).state.idle
  loading : ∀ i, (k'.tasks i).state = .loading → (k.tasks i).state = .loading

theorem SameSpaces.refl (k : Kernel) : SameSpaces k k :=
  ⟨rfl,rfl,rfl,rfl,fun _ => rfl,fun _ => rfl,fun _ => rfl,fun _ h => h,fun _ h => h⟩

theorem SameSpaces.trans {k1 k2 k3 : Kernel} (h : SameSpaces k1 k2) (h' : SameSpaces k2 k3) :
    SameSpaces k1 k3 :=
  ⟨h'.vms.trans h.vms,h'.refs.trans h.refs,h'.roots.trans h.roots,h'.fault.trans h.fault,
    fun i => (h'.vm i).trans (h.vm i),fun i => (h'.given i).trans (h.given i),
    fun i => (h'.pid i).trans (h.pid i),fun i hi => h'.idle i (h.idle i hi),
    fun i hi => h.loading i (h'.loading i hi)⟩

theorem SameSpaces.holders {k k' : Kernel} (h : SameSpaces k k') (p : ℕ) :
    holders k' p = holders k p := by
  ext i; simp [h.vm i]

theorem SameSpaces.spaces {k k' : Kernel} (h : SameSpaces k k') (hk : Spaces k) : Spaces k' where
  noFault := h.fault.trans hk.noFault
  held i p hi := by rw [h.vms]; exact hk.held i p (h.vm i ▸ hi)
  record p r hr := by
    rw [h.vms] at hr
    simp only [Unborn,Counted,h.holders,h.refs,h.roots,h.given]
    exact hk.record p r hr
  rootInj := by rw [h.vms]; exact hk.rootInj
  cellInj := by rw [h.vms]; exact hk.cellInj
  rooted := by rw [h.roots,h.vms]; exact hk.rooted
  celled := by rw [h.refs,h.vms]; exact hk.celled
  taskOk i := by
    obtain ⟨h1,h2,h3⟩ := hk.taskOk i
    unfold Task.Ok
    rw [h.vm,h.given,h.pid]
    exact ⟨fun hv hg => h.idle i (h1 hv hg),fun hl => h2 (h.loading i hl),h3⟩

/-! ## Scheduling steps -/

variable {k : Kernel} {i : Fin maxTasks}

theorem setTask_sameSpaces {t : Task} (hvm : t.vm = (k.tasks i).vm)
    (hgiven : t.given = (k.tasks i).given) (hpid : t.pid = (k.tasks i).pid)
    (hidle : (k.tasks i).state.idle → t.state.idle)
    (hload : t.state = .loading → (k.tasks i).state = .loading) : SameSpaces k (k.setTask i t) := by
  refine ⟨rfl,rfl,rfl,rfl,fun j => ?_,fun j => ?_,fun j => ?_,fun j => ?_,fun j => ?_⟩
  all_goals
    by_cases hj : j = i
    · subst hj; simpa [setTask]
    · simp [setTask,update_of_ne hj]

theorem wakeAwaiting_sameSpaces (pid : ℕ) : SameSpaces k (k.wakeAwaiting pid) := by
  refine ⟨rfl,rfl,rfl,rfl,fun j => ?_,fun j => ?_,fun j => ?_,fun j => ?_,fun j => ?_⟩
  all_goals
    simp only [wakeAwaiting]
    cases hw : awaits (k.tasks j) pid
    · simp
    · simp only [awaits,Bool.and_eq_true,beq_iff_eq] at hw
      simp [hw.1.2,TaskState.idle]

theorem wakeAwaiting_running {pid : ℕ} (h : (k.tasks i).state = .running) :
    ((k.wakeAwaiting pid).tasks i).state = .running := by
  have hw : awaits (k.tasks i) pid = false := by simp [awaits,h]
  simp [wakeAwaiting,hw,h]

variable (k)
variable (i)

theorem releaseAwaited_cases : k.releaseAwaited i = k ∨ ∃ j, (k.tasks j).state = .zombie ∧
      k.releaseAwaited i = k.setTask j { k.tasks j with unclaimed := true } := by
  unfold releaseAwaited
  by_cases h : (k.tasks i).state = .blocked ∧ (k.tasks i).waitingForPid > 0
  · simp only [if_pos h]
    cases k.taskFind (k.tasks i).waitingForPid with
    | none => exact Or.inl rfl
    | some j =>
      by_cases hz : (k.tasks j).state = .zombie
      · exact Or.inr ⟨j,hz,if_pos hz⟩
      · exact Or.inl (if_neg hz)
  · exact Or.inl (if_neg h)

theorem releaseAwaited_spec :
    SameSpaces k (k.releaseAwaited i) ∧ (k.releaseAwaited i).current = k.current ∧
      ∀ j, (k.tasks j).state = .running → ((k.releaseAwaited i).tasks j).state = .running := by
  rcases releaseAwaited_cases k i with h | ⟨j,hz,h⟩
  · rw [h]; exact ⟨SameSpaces.refl k,rfl,fun _ h => h⟩
  · rw [h]
    refine ⟨setTask_sameSpaces rfl rfl rfl id id,rfl,fun l hr => ?_⟩
    have hlj : l ≠ j := by rintro rfl; rw [hz] at hr; cases hr
    simpa only [setTask,update_of_ne hlj] using hr

theorem zombify_spec (pid : ℕ) (b : Bool) :
    let k2 := k.setTask i { k.tasks i with vforkParent := 0, state := .zombie }
    let k3 := k2.wakeAwaiting pid
    let k4 := k3.setTask i { k3.tasks i with unclaimed := b }
    SameSpaces k k4 ∧ ∀ j, j ≠ i → (k.tasks j).state = .running →
      (k4.tasks j).state = .running := by
  intro k2 k3 k4
  have h2 : SameSpaces k k2 := setTask_sameSpaces rfl rfl rfl (fun _ => Or.inl rfl) (by simp)
  have h3 : SameSpaces k2 k3 := wakeAwaiting_sameSpaces _
  have h4 : SameSpaces k3 k4 := setTask_sameSpaces rfl rfl rfl id id
  refine ⟨(h2.trans h3).trans h4,fun j hj hr => ?_⟩
  have h5 : (k2.tasks j).state = .running := by simpa only [k2,setTask,update_of_ne hj] using hr
  simpa only [k4,setTask,update_of_ne hj] using wakeAwaiting_running h5

theorem markTaskExited_spec :
    SameSpaces k (k.markTaskExited i) ∧ (k.markTaskExited i).current = k.current ∧
      ∀ j, j ≠ i → (k.tasks j).state = .running →
        ((k.markTaskExited i).tasks j).state = .running := by
  obtain ⟨h1,hc,hrun⟩ := releaseAwaited_spec k i
  have h2 := zombify_spec (k.releaseAwaited i) i (k.tasks i).pid
  exact ⟨h1.trans (h2 _).1,hc,fun j hj hr => (h2 _).2 j hj (hrun j hr)⟩

variable {i}
variable {k}
variable {next : Fin maxTasks}

theorem dispatch_sameSpaces (h : k.canRun next = true) :
    SameSpaces k (k.dispatch next) ∧ Occupied (k.dispatch next) := by
  simp only [canRun,Bool.and_eq_true,bne_iff_ne,beq_iff_eq] at h
  have hs : SameSpaces k (k.setTask next { k.tasks next with state := .running }) := by
    refine setTask_sameSpaces rfl rfl rfl ?_ (by simp)
    rw [h.2]; simp [TaskState.idle]
  refine ⟨⟨hs.vms,hs.refs,hs.roots,hs.fault,hs.vm,hs.given,hs.pid,hs.idle,hs.loading⟩,?_⟩
  simp [Occupied,dispatch,setTask,h.1]

def Sound (k : Kernel) : Prop := Spaces k ∧ Occupied k

section
variable (h : Sound k)
include h

theorem taskExit_sound : Sound (k.taskExit next) := by
  unfold taskExit
  dsimp only
  split_ifs with hv hc
  · exact h
  · have hd := dispatch_sameSpaces hc
    exact ⟨hd.1.spaces ((markTaskExited_spec k k.current).1.spaces h.1),hd.2⟩
  · exact h

theorem markTaskExited_sound (hi : i ≠ k.current) : Sound (k.markTaskExited i) := by
  obtain ⟨hs,hc,hrun⟩ := markTaskExited_spec k i
  refine ⟨hs.spaces h.1,?_,?_⟩
  · rw [hc,hs.pid]; exact h.2.1
  · rw [hc]; exact hrun _ hi.symm h.2.2

theorem taskSwitch_sound {parked : TaskState} {waitingFor : ℤ} :
    Sound (k.taskSwitch parked waitingFor next) := by
  unfold taskSwitch
  split_ifs with hc
  · have hne : next ≠ k.current := by
      rintro rfl
      simp [canRun,h.2.2] at hc
    have hpark : SameSpaces k (k.setTask k.current
        { k.tasks k.current with state := parked, waitingForPid := waitingFor }) := by
      refine setTask_sameSpaces rfl rfl rfl ?_ ?_
      · rw [h.2.2]; simp [TaskState.idle]
      · rcases hc.1 with rfl | rfl | rfl <;> simp
    have hready : (k.setTask k.current { k.tasks k.current with
        state := parked, waitingForPid := waitingFor }).canRun next = true := by
      simpa [canRun,setTask,update_of_ne hne] using hc.2
    have hd := dispatch_sameSpaces hready
    exact ⟨hd.1.spaces (hpark.spaces h.1),hd.2⟩
  · exact h

theorem setTask_sound {t : Task} (hs : SameSpaces k (k.setTask i t))
    (hr : i = k.current → t.state = .running) : Sound (k.setTask i t) := by
  refine ⟨hs.spaces h.1,?_,?_⟩
  · rw [hs.pid]; exact h.2.1
  · by_cases hi : k.current = i
    · simp only [setTask,hi,update_self]; exact hr hi.symm
    · simp only [setTask,update_of_ne hi]; exact h.2.2

theorem taskWakeup_sound : Sound (k.taskWakeup i) := by
  unfold taskWakeup
  split_ifs with hc
  · refine setTask_sound h (setTask_sameSpaces rfl rfl rfl ?_ (by simp)) ?_
    · rcases hc with hc | hc <;> simp [hc,TaskState.idle]
    · rintro rfl
      rw [h.2.2] at hc
      simp at hc
  · exact h

theorem setVfsActive_sound {b : Bool} : Sound (k.setVfsActive b) :=
  setTask_sound h (setTask_sameSpaces rfl rfl rfl id id) fun _ => h.2.2

theorem taskFailReservedUser_sound : Sound (k.taskFailReservedUser i) := by
  unfold taskFailReservedUser
  split_ifs with hc
  · exact h
  · refine markTaskExited_sound h ?_
    rintro rfl
    rw [h.2.2] at hc
    simp at hc

theorem taskKill_sound {pid : ℤ} {cancelled dequeued : Bool} :
    Sound (k.taskKill pid next cancelled dequeued) := by
  unfold taskKill
  split
  · exact h
  next i _ =>
  dsimp only
  split
  · exact h
  split
  · split
    · exact taskFailReservedUser_sound h
    · exact h
  split
  · exact h
  next p hvm =>
  split
  next hr => simpa [hr] using h.1.held i p hvm
  split
  · exact h
  split
  · exact taskExit_sound h
  next hi =>
  split
  · exact h
  split
  · exact h
  · exact markTaskExited_sound h hi

end

end GaiaKernel.Sched
