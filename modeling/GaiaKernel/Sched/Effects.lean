import GaiaKernel.Sched.Scheduler

/-! # What the calls do to the task table

`Requeued` is what happens in the queues, `Wakes` what the wake paths do: most of the table is left
alone. The rest says into which primitive changes the longer functions fall apart.
-/
namespace GaiaKernel.Scheduler
open GaiaKernel.Sched (TaskState maxTasks taskSlots)
open LinkedQueue Function
variable {s s' s'' : Sched} {j : Slot}

namespace Sched
variable (s)

theorem modify_self (i : Slot) (f : Task → Task) :
    (s.modify i f).tasks i = f (s.tasks i) := update_self _ _ _

theorem modify_of_ne {i : Slot} (h : j ≠ i) (f : Task → Task) :
    (s.modify i f).tasks j = s.tasks j := update_of_ne h _ _

theorem dispatch_self (n : Slot) :
    (s.dispatch n).tasks n = { s.tasks n with state := .running } := by
  simp [dispatch,modify]

end Sched

/-! ### Queues -/

/-- `s'` is `s` but for its ready queues and what `ready_pop` and `ready_push` keep about them. -/
structure Requeued (s s' : Sched) : Prop where
  tasks : s'.tasks = s.tasks
  current : s'.current = s.current
  idleTask : s'.idleTask = s.idleTask
  nextPid : s'.nextPid = s.nextPid
  vms : s'.vms = s.vms
  nextVm : s'.nextVm = s.nextVm
  waitQueues : s'.waitQueues = s.waitQueues
  exitRecords : s'.exitRecords = s.exitRecords
  exitRecordSeq : s'.exitRecordSeq = s.exitRecordSeq

theorem Requeued.refl (s : Sched) : Requeued s s := ⟨rfl,rfl,rfl,rfl,rfl,rfl,rfl,rfl,rfl⟩

theorem Sched.requeued_readyPush (s : Sched) (i : Slot) : Requeued s (s.readyPush i) :=
  ⟨rfl,rfl,rfl,rfl,rfl,rfl,rfl,rfl,rfl⟩

theorem Sched.requeued_schedRescheduleDone (s : Sched) : Requeued s s.schedRescheduleDone :=
  ⟨rfl,rfl,rfl,rfl,rfl,rfl,rfl,rfl,rfl⟩

theorem Sched.requeued_readyPop (s : Sched) : Requeued s s.readyPop.2 := by
  unfold Sched.readyPop
  split
  · exact ⟨rfl,rfl,rfl,rfl,rfl,rfl,rfl,rfl,rfl⟩
  · split
    · exact Requeued.refl s
    · exact ⟨rfl,rfl,rfl,rfl,rfl,rfl,rfl,rfl,rfl⟩

theorem Sched.requeued_readyRemove {i : Slot} (h : s.readyRemove i = some s') : Requeued s s' := by
  obtain ⟨p,_,hp⟩ := List.exists_of_findSome?_eq_some h
  obtain ⟨r,_,rfl⟩ := Option.map_eq_some_iff.mp hp
  exact ⟨rfl,rfl,rfl,rfl,rfl,rfl,rfl,rfl,rfl⟩

theorem Requeued.trans (h : Requeued s s') (h' : Requeued s' s'') : Requeued s s'' :=
  ⟨h'.tasks.trans h.tasks,h'.current.trans h.current,h'.idleTask.trans h.idleTask,
    h'.nextPid.trans h.nextPid,h'.vms.trans h.vms,h'.nextVm.trans h.nextVm,
    h'.waitQueues.trans h.waitQueues,h'.exitRecords.trans h.exitRecords,
    h'.exitRecordSeq.trans h.exitRecordSeq⟩

/-! ### Waking -/

def due (t : Task) : ℤ := if t.blockDeadline ≠ 0 then 1 else 0

structure Awoken (t t' : Task) : Prop where
  was : t.state = .blocked
  now : t' = { t with
    state := .ready, waitingForPid := 0, blockDeadline := 0
    blockTimedOut := t'.blockTimedOut, blockInterrupted := t'.blockInterrupted }

/-- Some of the blocked tasks have become ready; nothing else of interest has changed. -/
structure Wakes (s s' : Sched) : Prop where
  task : ∀ i, s'.tasks i = s.tasks i ∨ Awoken (s.tasks i) (s'.tasks i)
  current : s'.current = s.current
  idleTask : s'.idleTask = s.idleTask
  nextPid : s'.nextPid = s.nextPid
  vms : s'.vms = s.vms
  nextVm : s'.nextVm = s.nextVm
  waitQueues : s'.waitQueues = s.waitQueues
  exitRecords : s'.exitRecords = s.exitRecords
  exitRecordSeq : s'.exitRecordSeq = s.exitRecordSeq

namespace Wakes

theorem refl (s : Sched) : Wakes s s := ⟨fun _ => .inl rfl,rfl,rfl,rfl,rfl,rfl,rfl,rfl,rfl⟩

theorem trans (h : Wakes s s') (h' : Wakes s' s'') : Wakes s s'' := by
  refine ⟨fun i => ?_,h'.current.trans h.current,h'.idleTask.trans h.idleTask,
    h'.nextPid.trans h.nextPid,h'.vms.trans h.vms,h'.nextVm.trans h.nextVm,
    h'.waitQueues.trans h.waitQueues,h'.exitRecords.trans h.exitRecords,
    h'.exitRecordSeq.trans h.exitRecordSeq⟩
  rcases h.task i with hi | hi <;> rcases h'.task i with hi' | hi'
  · exact .inl (hi'.trans hi)
  · exact .inr (hi ▸ hi')
  · exact .inr (hi' ▸ hi)
  · -- a task that has been woken is no longer blocked
    have hready : (s'.tasks i).state = .ready := by rw [hi.now]
    exact absurd (hready.symm.trans hi'.was) (by decide)

theorem foldl {α : Type*} {f : Sched → α → Sched} (hf : ∀ s a, Wakes s (f s a)) (l : List α)
    (s : Sched) : Wakes s (l.foldl f s) := by
  induction l generalizing s with
  | nil => exact refl s
  | cons a l ih => exact (hf s a).trans (ih (f s a))

theorem of_not_blocked (h : Wakes s s') {i : Slot} (hi : (s.tasks i).state ≠ .blocked) :
    s'.tasks i = s.tasks i := (h.task i).resolve_right fun hw => hi hw.was

theorem of_requeued (h : Wakes s s') (hq : Requeued s' s'') : Wakes s s'' :=
  h.trans ⟨fun i => .inl (congrFun hq.tasks i),hq.current,hq.idleTask,hq.nextPid,hq.vms,
    hq.nextVm,hq.waitQueues,hq.exitRecords,hq.exitRecordSeq⟩

end Wakes

namespace Sched
variable (s)
variable (i : Slot)

theorem modify_id {f : Task → Task} (h : f (s.tasks i) = s.tasks i) : s.modify i f = s := by
  rw [modify,h,update_eq_self]

theorem blockClearDeadline_eq : s.blockClearDeadline i =
    { s.modify i fun t => { t with blockDeadline := 0 } with
      nTimedBlocked := s.nTimedBlocked - due (s.tasks i) } := by
  unfold blockClearDeadline due
  split
  case isTrue h => rw [s.modify_id i (by rw [← h]),if_neg (not_not.mpr h),sub_zero]
  case isFalse => rfl

theorem wakes_modify_taskWakeup (out intr : Task → Bool)
    (hb : (s.tasks i).state = .blocked) : Wakes s ((s.modify i fun t =>
      { t with blockTimedOut := out t, blockInterrupted := intr t }).taskWakeup i) := by
  set f : Task → Task := fun t => { t with blockTimedOut := out t, blockInterrupted := intr t }
  have hb' : ((s.modify i f).tasks i).state = .blocked := by rw [modify_self]; exact hb
  rw [taskWakeup,if_neg (by simp [hb'])]
  refine Wakes.of_requeued ?_ (requeued_readyPush _ _)
  rw [blockClearDeadline_eq]
  refine ⟨fun j => ?_,rfl,rfl,rfl,rfl,rfl,rfl,rfl,rfl⟩
  by_cases hj : j = i
  · subst hj
    refine .inr ⟨hb,?_⟩
    simp [modify,f]
  · simp [modify,hj]

theorem wakes_taskWakeup : Wakes s (s.taskWakeup i) := by
  by_cases hb : (s.tasks i).state = .blocked
  · have hw := s.wakes_modify_taskWakeup i Task.blockTimedOut Task.blockInterrupted hb
    rwa [show (s.modify i fun t => { t with
      blockTimedOut := t.blockTimedOut, blockInterrupted := t.blockInterrupted }) = s by
        rw [modify,update_eq_self]] at hw
  · rw [taskWakeup,if_pos hb]
    exact Wakes.refl s

theorem wakes_taskInterrupt : Wakes s (s.taskInterrupt i) := by
  unfold taskInterrupt
  split
  case isTrue h => exact s.wakes_modify_taskWakeup i Task.blockTimedOut (fun _ => true) h.1
  case isFalse => exact Wakes.refl s

theorem wakes_wqWakeAll (q : WaitQueue) : Wakes s (s.wqWakeAll q) :=
  Wakes.foldl wakes_taskWakeup _ s

theorem taskWakeup_of_ne {i : Slot} (h : j ≠ i) : (s.taskWakeup i).tasks j = s.tasks j := by
  unfold taskWakeup
  split
  · rfl
  · rw [(requeued_readyPush _ i).tasks,blockClearDeadline_eq]
    simp [modify,h]

theorem wqWakeAll_of_not_mem {q : WaitQueue} {i : Slot} (h : i ∉ s.waitQueues q) :
    (s.wqWakeAll q).tasks i = s.tasks i := by
  unfold wqWakeAll
  generalize s.waitQueues q = l at h
  induction l generalizing s with
  | nil => rfl
  | cons a l ih =>
    obtain ⟨hne,hl⟩ := not_or.mp fun hm => h (List.mem_cons.mpr hm)
    exact (ih (s.taskWakeup a) hl).trans (s.taskWakeup_of_ne hne)

theorem wakeWaiters_eq (pid : ℕ) :
    ∃ l : List Slot, (s.wakeWaiters pid).2 = l.foldl taskWakeup s := by
  unfold wakeWaiters
  generalize taskSlots = slots
  generalize false = c
  induction slots generalizing c s with
  | nil => exact ⟨[],rfl⟩
  | cons j slots ih =>
    rw [List.foldl_cons]
    split
    · obtain ⟨l,hl⟩ := ih (s.taskWakeup j) true
      exact ⟨j :: l,hl⟩
    · exact ih s c

theorem wakes_wakeWaiters (pid : ℕ) : Wakes s (s.wakeWaiters pid).2 := by
  obtain ⟨l,hl⟩ := s.wakeWaiters_eq pid
  rw [hl]
  exact Wakes.foldl wakes_taskWakeup l s

/-! ### Exit -/

theorem releaseAwaited_cases : s.releaseAwaited i = s ∨ ∃ k ≠ i, (s.tasks k).state = .zombie ∧
      s.releaseAwaited i = s.modify k fun t => { t with unclaimed := true } := by
  unfold releaseAwaited
  dsimp only
  split
  case isFalse => exact .inl rfl
  case isTrue hb =>
    split
    case h_2 => exact .inl rfl
    case h_1 k _ =>
      split
      case isFalse => exact .inl rfl
      case isTrue hz =>
        refine .inr ⟨k,?_,hz,rfl⟩
        rintro rfl
        exact absurd (hz.symm.trans hb.1) (by decide)

theorem taskVforkRelease_cases :
    s.taskVforkRelease i = s.modify i (fun t => { t with vforkParent := 0 }) ∨
      s.taskVforkRelease i =
        (s.modify i fun t => { t with vforkParent := 0 }).wqWakeAll .vfork := by
  unfold taskVforkRelease
  split
  case isTrue h => exact .inl (s.modify_id i (by rw [← h])).symm
  case isFalse => exact .inr rfl

theorem recordExit_eq (claimed : Bool) (pid parentPid : ℕ) (code : ℤ) :
    ∃ records seq, s.recordExit claimed pid parentPid code =
      { s with exitRecords := records, exitRecordSeq := seq } := by
  unfold recordExit
  split
  · split
    · exact ⟨_,_,rfl⟩
    · exact ⟨_,_,rfl⟩
  · exact ⟨_,_,rfl⟩

theorem wakes_signalChildExited (parentPid : ℕ) (sigchld : Bool) :
    Wakes s (s.signalChildExited parentPid sigchld) := by
  unfold signalChildExited
  split
  · split
    · exact s.wakes_taskInterrupt _
    · exact Wakes.refl s
  · exact Wakes.refl s

/-! ### Slots that change hands -/

def clearSlot (s : Sched) (i : Slot) : Sched :=
  { s.modify i fun _ => Task.empty with next := Function.update s.next i none }

theorem clearSlot_of_ne {i : Slot} (h : j ≠ i) :
    (s.clearSlot i).tasks j = s.tasks j := s.modify_of_ne h fun _ => Task.empty

theorem taskReap_cases (i : Slot) :
    s.taskReap i = s ∨ ((s.tasks i).state = .zombie ∧ s.taskReap i = s.clearSlot i) := by
  unfold taskReap
  split
  · exact .inl rfl
  case isFalse h =>
    have hz : (s.tasks i).state = .zombie := by
      by_contra hne
      exact h (.inl hne)
    refine .inr ⟨hz,?_⟩
    have hdead : ((s.taskReapClaim i).tasks i).state = .dead := by
      rw [taskReapClaim,if_neg h,modify_self]
    rw [taskReapFree,if_neg (by simp [hdead]),taskReapClaim,if_neg h,clearSlot]
    simp [modify]

theorem nextPid_taskReapUnclaimed : s.taskReapUnclaimed.nextPid = s.nextPid := by
  unfold taskReapUnclaimed
  generalize taskSlots = l
  induction l generalizing s with
  | nil => rfl
  | cons i l ih =>
    refine (ih _).trans ?_
    unfold reapUnclaimedStep
    dsimp only
    split
    · rfl
    · rcases s.taskReap_cases i with heq | ⟨_,heq⟩
      · rw [heq]
      · rw [heq]
        rfl

theorem allocSlot_cases : (s.allocSlot = (s.freeSlot, s) ∧ s.freeSlot.isSome) ∨
      s.allocSlot = (s.taskReapUnclaimed.freeSlot, s.taskReapUnclaimed) := by
  unfold allocSlot
  cases s.freeSlot with
  | some i => exact .inl ⟨rfl,rfl⟩
  | none => exact .inr (Prod.ext rfl rfl)

theorem nextPid_allocSlot : s.allocSlot.2.nextPid = s.nextPid := by
  rcases s.allocSlot_cases with ⟨heq,_⟩ | heq
  · rw [heq]
  · rw [heq]
    exact s.nextPid_taskReapUnclaimed

variable {s} in
theorem pid_of_freeSlot {i : Slot} (h : s.freeSlot = some i) : (s.tasks i).pid = 0 := by
  simpa using List.find?_some h

variable {s} in
theorem pid_of_allocSlot {i : Slot} (h : s.allocSlot.1 = some i) :
    (s.allocSlot.2.tasks i).pid = 0 := by
  rcases s.allocSlot_cases with ⟨heq,_⟩ | heq
  · rw [heq] at h ⊢
    exact pid_of_freeSlot h
  · rw [heq] at h ⊢
    exact pid_of_freeSlot h

def place (s : Sched) (i : Slot) (t : Task) : Sched :=
  let s' := { s.modify i fun _ => t with nextPid := s.nextPid + 1 }
  if t.state = .ready then s'.readyPush i else s'

theorem spawnWith_cases (a : Alloc) (early : Bool) (fill : Task → ℕ → Task) :
    s.spawnWith a early fill = (none, s.allocSlot.2) ∨
      (∃ i n, (s.allocSlot.2.tasks i).pid = 0 ∧ s.nextPid ≤ n ∧
        s.spawnWith a early fill = (none, { s.allocSlot.2.clearSlot i with nextPid := n })) ∨
      ∃ i, (s.allocSlot.2.tasks i).pid = 0 ∧ s.spawnWith a early fill =
        (some i, s.allocSlot.2.place i (fill (s.allocSlot.2.tasks i) s.nextPid)) := by
  have hpid := s.nextPid_allocSlot
  have hfree : ∀ i, s.allocSlot.1 = some i → (s.allocSlot.2.tasks i).pid = 0 :=
    fun i => pid_of_allocSlot
  unfold spawnWith
  generalize s.allocSlot = r at *
  obtain ⟨o,s1⟩ := r
  dsimp only at hpid hfree ⊢
  cases o with
  | none => exact .inl rfl
  | some i =>
    have hi := hfree i rfl
    cases a with
    | noStack => exact .inl rfl
    | noState =>
      refine .inr (.inl ⟨i,if early then s1.nextPid + 1 else s1.nextPid,hi,?_,rfl⟩)
      split <;> omega
    | ok =>
      refine .inr (.inr ⟨i,hi,?_⟩)
      simp only [place,modify_self,hpid]
      rfl

end Sched

end GaiaKernel.Scheduler
