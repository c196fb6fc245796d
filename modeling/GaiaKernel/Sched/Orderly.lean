import GaiaKernel.Sched.ReadyQueues

/-! # Every call leaves the scheduler in order

`Orderly` is the invariant of the scheduler between two calls. For each function one lemma says
that it keeps it; inside a function, `Core off` is the same invariant with some tasks in hand.
-/
namespace GaiaKernel.Scheduler
open GaiaKernel.Sched (TaskState maxTasks taskSlots)
open LinkedQueue Function
variable {st : TaskState}

/-- The invariant of every call: the running task is in none of the queues. -/
structure Orderly (s : Sched) : Prop where
  core : Core ∅ s
  running : (s.tasks s.current).state = .running
  current : (s.tasks s.current).pid ≠ 0

variable {off : Finset Slot} {s s' s'' : Sched} {i : Slot} {t : Task}
namespace Core

theorem not_idle (h : Core off s) (hi : (s.tasks i).state = st)
    (hready : st ≠ .ready) (hrunning : st ≠ .running) : s.idleTask ≠ some i := by
  intro hidle
  rcases ((h.fits i).idle hidle).2.2 with hs | hs
  · exact hready (hi.symm.trans hs)
  · exact hrunning (hi.symm.trans hs)

theorem pid_of_state (h : Core off s) (hi : i ∉ off) (hs : (s.tasks i).state ≠ .running) :
    (s.tasks i).pid ≠ 0 := fun h0 => hs (h.state_of_pid hi h0)

theorem taskWakeup (h : Core off s) (hi : i ∉ off) : Core off (s.taskWakeup i) := by
  unfold Sched.taskWakeup
  split
  · exact h
  case isFalse hb =>
    rw [not_not] at hb
    have hidle := h.not_idle hb (by decide) (by decide)
    have hmoved : Core (insert i off) ((s.blockClearDeadline i).modify i fun t =>
        { t with state := .ready, waitingForPid := 0 }) := by
      rw [s.blockClearDeadline_eq]
      refine h.move (i := i) (t := { s.tasks i with
        blockDeadline := 0, state := .ready, waitingForPid := 0 }) (by simp [Sched.modify])
        (by simp +contextual) ⟨rfl,rfl,rfl,le_rfl⟩ (by simp [post,hb])
        (by simp [nap,hb,Sched.modify]) (by simp [due,Sched.modify])
        ⟨by simp,(h.fits i).prio,by simp,fun hi => absurd hi hidle⟩
    refine hmoved.readyPush hi ⟨?_,by rw [s.blockClearDeadline_eq]; exact hidle⟩ ?_ ?_
    all_goals rw [Sched.modify_self]
    · rw [s.blockClearDeadline_eq,Sched.modify_self]
    · rw [s.blockClearDeadline_eq,Sched.modify_self]
      exact h.pid_of_state hi (by rw [hb]; decide)

theorem wakeAll (h : Core off s) {l : List Slot} (hl : ∀ i ∈ l, i ∉ off) :
    Core off (l.foldl Sched.taskWakeup s) := by
  induction l generalizing s with
  | nil => exact h
  | cons i l ih =>
    exact ih (h.taskWakeup (hl i List.mem_cons_self)) fun j hj => hl j (List.mem_cons_of_mem i hj)

theorem wakeWaiters (h : Core ∅ s) (pid : ℕ) : Core ∅ (s.wakeWaiters pid).2 := by
  obtain ⟨l,hl⟩ := s.wakeWaiters_eq pid
  rw [hl]
  exact h.wakeAll (by simp)

theorem taskInterrupt (h : Core ∅ s) (i : Slot) : Core ∅ (s.taskInterrupt i) := by
  unfold Sched.taskInterrupt
  split
  case isTrue hb =>
    have hpid := h.pid_of_state (i := i) (by simp) (by rw [hb.1]; decide)
    exact (h.modify_same hpid ⟨rfl,rfl,rfl,rfl,id⟩).taskWakeup (by simp)
  case isFalse => exact h

theorem dispatch {n : Slot} (h : Core (insert n off) s) (hpid : (s.tasks n).pid ≠ 0)
    (hd : (s.tasks n).blockDeadline = 0) : Core off (s.dispatch n) := by
  have hfits := h.fits n
  refine h.move rfl (by simp +contextual) ⟨rfl,rfl,rfl,le_rfl⟩ (by simp [post])
    (by simp [nap,Sched.dispatch,Sched.modify]) (by simp [due,Sched.dispatch,Sched.modify])
    ⟨fun _ hne => absurd hd hne,hfits.prio,fun _ h0 => absurd h0 hpid,fun hi => ?_⟩
  exact ⟨hpid,(hfits.idle hi).2.1,.inr rfl⟩

theorem orderly_dispatch {n : Slot} (h : Core (insert n ∅) s) (hpid : (s.tasks n).pid ≠ 0)
    (hd : (s.tasks n).blockDeadline = 0) : Orderly (s.dispatch n) := by
  have hself := s.dispatch_self n
  exact ⟨h.dispatch hpid hd,congrArg Task.state hself,(congrArg Task.pid hself).trans_ne hpid⟩

theorem pop_dispatch (h : Core ∅ s) (hidle : s.idleTask ≠ some s.current)
    (hcur : (s.tasks s.current).state ≠ .ready) :
    ∃ n s1, s.readyPop = (some n, s1) ∧ Orderly (s1.dispatch n) := by
  rcases h.readyPop (by simp) hcur with ⟨n,s1,heq,hcore,hreq,_,_,hpid,hd⟩ | ⟨hi,_⟩
  · exact ⟨n,s1,heq,hcore.orderly_dispatch (by rwa [hreq.tasks]) (by rwa [hreq.tasks])⟩
  · exact absurd hi hidle

theorem taskBlock {c : Slot} (h : Core (insert c ∅) s) (hc : s.current = c)
    (hidle : s.idleTask ≠ some c) (hstate : (s.tasks c).state ≠ .ready)
    (hpid : (s.tasks c).pid ≠ 0) (w : ℤ) : Orderly (s.taskBlock w) := by
  subst hc
  have hcore : Core (insert s.current ∅) s.schedRescheduleDone := h.of_view rfl
  have hoff : ∀ j ∈ insert s.current (∅ : Finset Slot), s.idleTask ≠ some j := by simpa using hidle
  rcases hcore.readyPop hoff hstate with
    ⟨n,s1,heq,hcore,hreq,_,hne,hnpid,hnd⟩ | ⟨hi,_⟩
  · replace hreq := s.requeued_schedRescheduleDone.trans hreq
    replace hne : n ≠ s.current := hne
    rw [Sched.taskBlock,heq]
    dsimp only
    rw [hreq.current]
    have hother := s1.modify_of_ne hne fun t => { t with state := .blocked, waitingForPid := w }
    refine orderly_dispatch (hcore.move rfl (fun j hj => by simp [hj]) ⟨rfl,rfl,rfl,le_rfl⟩
      (by simp [post]) (by simp [nap,Sched.modify]) (by simp [due,Sched.modify])
      ⟨fun _ _ => rfl,(hcore.fits s.current).prio,fun _ h0 => ?_,fun hi => ?_⟩) ?_ ?_
    · rw [hreq.tasks] at h0
      exact absurd h0 hpid
    · exact absurd (hreq.idleTask ▸ hi) hidle
    · rw [hother,hreq.tasks]
      exact hnpid
    · rw [hother,hreq.tasks]
      exact hnd
  · exact absurd hi hidle

theorem signalChildExited (h : Core ∅ s) (parentPid : ℕ) (sigchld : Bool) :
    Core ∅ (s.signalChildExited parentPid sigchld) := by
  unfold Sched.signalChildExited
  split
  · split
    · exact h.taskInterrupt _
    · exact h
  · exact h

end Core

/-! ### Exit -/

/-- A state on the way through `mark_task_exited`: slot `i` holds `t` and is on no wait queue,
and a task that was running is as it was. -/
structure Leaving (off : Finset Slot) (s : Sched) (i : Slot) (t : Task) (s' : Sched) : Prop where
  core : Core off s'
  off : ∀ j ∈ off, j = i
  self : s'.tasks i = t
  current : s'.current = s.current
  idleTask : s'.idleTask = s.idleTask
  queues : ∀ q, i ∉ s'.waitQueues q
  running : ∀ j ≠ i, (s.tasks j).state = .running → s'.tasks j = s.tasks j

namespace Leaving
section
variable (h : Leaving off s i t s')
include h

theorem wakes (hcore : Core off s'') (hw : Wakes s' s'')
    (hi : s''.tasks i = s'.tasks i) : Leaving off s i t s'' := by
  refine ⟨hcore,h.off,hi.trans h.self,hw.current.trans h.current,hw.idleTask.trans h.idleTask,
    fun q => hw.waitQueues ▸ h.queues q,fun j hj hr => ?_⟩
  have hsame := h.running j hj hr
  exact (hw.of_not_blocked (by rw [hsame,hr]; decide)).trans hsame

theorem wqWakeAll (q : WaitQueue) : Leaving off s i t (s'.wqWakeAll q) := by
  refine h.wakes (h.core.wakeAll fun j hj hoff => ?_) (s'.wakes_wqWakeAll q)
    (s'.wqWakeAll_of_not_mem (h.queues q))
  exact h.queues q (h.off j hoff ▸ hj)

theorem change {off' : Finset Slot} {t' : Task} (hcore : Core off' s'')
    (hoff : ∀ j ∈ off', j = i) (ht : s''.tasks = update s'.tasks i t')
    (hsame : s''.current = s'.current ∧ s''.idleTask = s'.idleTask ∧
      s''.waitQueues = s'.waitQueues) : Leaving off' s i t' s'' := by
  obtain ⟨hcur,hidle,hqueues⟩ := hsame
  refine ⟨hcore,hoff,by rw [ht,update_self],hcur.trans h.current,hidle.trans h.idleTask,
    by rw [hqueues]; exact h.queues,fun j hj hr => ?_⟩
  rw [ht,update_of_ne hj,h.running j hj hr]

end

end Leaving

section
variable (h : Core (insert i ∅) s) (hidle : s.idleTask ≠ some i) (hpid : (s.tasks i).pid ≠ 0)
include h hidle hpid

omit hidle in
theorem leaving_lettingGo (ev : Sched.ExitEvents) :
    Leaving (insert i ∅) s i { s.tasks i with blockDeadline := 0, vforkParent := 0 }
      (s.lettingGo i ev) := by
  have hrelease : Leaving (insert i ∅) s i (s.tasks i) ((s.releaseAwaited i).wqRemoveAll i) := by
    rcases s.releaseAwaited_cases i with heq | ⟨k,hki,hk,heq⟩
    · rw [heq]
      exact ⟨h.of_view rfl,by simp,rfl,rfl,rfl,by simp [Sched.wqRemoveAll],fun _ _ _ => rfl⟩
    · have hkpid := h.pid_of_state (i := k) (by simpa using hki) (by rw [hk]; decide)
      have hmod := h.modify_same hkpid (f := fun t => { t with unclaimed := true })
        ⟨rfl,rfl,rfl,rfl,id⟩
      rw [heq]
      refine ⟨hmod.of_view rfl,by simp,by simp [Sched.wqRemoveAll,Sched.modify,hki.symm],rfl,rfl,
        by simp [Sched.wqRemoveAll],fun j _ hr => ?_⟩
      have hjk : j ≠ k := by
        rintro rfl
        exact absurd (hr.symm.trans hk) (by decide)
      simp [Sched.wqRemoveAll,Sched.modify,hjk]
  have hclear : Leaving (insert i ∅) s i { s.tasks i with blockDeadline := 0 }
      (((s.releaseAwaited i).wqRemoveAll i).blockClearDeadline i) := by
    have hfits := hrelease.core.fits i
    rw [Sched.blockClearDeadline_eq]
    rw [← hrelease.self]
    exact hrelease.change (hrelease.core.move rfl (fun _ _ => Iff.rfl) ⟨rfl,rfl,rfl,le_rfl⟩
      (by simp [post]) (by simp [nap,Sched.modify]) (by simp [due])
      ⟨by simp,hfits.prio,by simp,hfits.idle⟩) hrelease.off rfl ⟨rfl,rfl,rfl⟩
  have hpipes : Leaving (insert i ∅) s i { s.tasks i with blockDeadline := 0 }
      (ev.pipes.foldl (fun s n => s.wqWakeAll (.object n))
        (((s.releaseAwaited i).wqRemoveAll i).blockClearDeadline i)) := by
    generalize ((s.releaseAwaited i).wqRemoveAll i).blockClearDeadline i = s1 at hclear
    induction ev.pipes generalizing s1 with
    | nil => exact hclear
    | cons n pipes ih => exact ih _ (hclear.wqWakeAll (.object n))
  unfold Sched.lettingGo
  generalize ev.pipes.foldl (fun s n => s.wqWakeAll (.object n))
    (((s.releaseAwaited i).wqRemoveAll i).blockClearDeadline i) = s1 at hpipes
  have hmod := hpipes.core.modify_same (i := i) (f := fun t => { t with vforkParent := 0 })
    (by rw [hpipes.self]; exact hpid) ⟨rfl,rfl,rfl,rfl,id⟩
  have htasks : (s1.modify i fun t => { t with vforkParent := 0 }).tasks =
      update s1.tasks i { s.tasks i with blockDeadline := 0, vforkParent := 0 } := by
    rw [Sched.modify,hpipes.self]
  have hvfork := hpipes.change hmod hpipes.off htasks ⟨rfl,rfl,rfl⟩
  rcases s1.taskVforkRelease_cases i with heq | heq
  · rw [heq]
    exact hvfork
  · rw [heq]
    exact hvfork.wqWakeAll .vfork

theorem leaving_zombified (code : ℤ) (ev : Sched.ExitEvents) : Leaving ∅ s i { s.tasks i with
      blockDeadline := 0, vforkParent := 0, state := .zombie, exitCode := code }
      (s.zombified i code ev) := by
  have hgo := leaving_lettingGo h hpid ev
  have hcore := hgo.core
  have hid := hgo.idleTask
  have hself := hgo.self
  refine hgo.change (hcore.move rfl (by simp) ⟨rfl,rfl,rfl,le_rfl⟩ (by simp [post])
    (by simp [nap,Sched.zombified,Sched.modify]) (by simp [due,Sched.zombified,Sched.modify])
    ⟨fun _ hd => ?_,(hcore.fits i).prio,fun _ h0 => ?_,fun hi => absurd (hid.symm.trans hi) hidle⟩)
    (by simp) (by rw [Sched.zombified,Sched.modify,hself]) ⟨rfl,rfl,rfl⟩
  · rw [hself] at hd
    exact absurd rfl hd
  · rw [hself] at h0
    exact absurd h0 hpid

theorem leaving_markTaskExited (code : ℤ) (ev : Sched.ExitEvents) : ∃ c,
    Leaving ∅ s i { s.tasks i with
      blockDeadline := 0, vforkParent := 0, state := .zombie, exitCode := code, unclaimed := c }
      (s.markTaskExited i code ev) := by
  have hz := leaving_zombified h hidle hpid code ev
  have hw := (s.zombified i code ev).wakes_wakeWaiters (s.tasks i).pid
  have hwoken := hz.wakes (hz.core.wakeWaiters (s.tasks i).pid) hw
    (hw.of_not_blocked (by rw [hz.self]; simp))
  unfold Sched.markTaskExited
  dsimp only
  generalize (s.zombified i code ev).wakeWaiters (s.tasks i).pid = r at hwoken ⊢
  obtain ⟨c,s1⟩ := r
  dsimp only at hwoken ⊢
  have hmod := hwoken.core.modify_same (i := i) (f := fun t => { t with unclaimed := !c })
    (by rw [hwoken.self]; exact hpid) ⟨rfl,rfl,rfl,rfl,id⟩
  obtain ⟨records,seq,heq⟩ := Sched.recordExit_eq
    ((s1.modify i fun t => { t with unclaimed := !c }).exitRecordsDropParent (s.tasks i).pid) c
    (s.tasks i).pid (s.tasks i).parentPid code
  rw [heq]
  set s2 : Sched := { (s1.modify i fun t => { t with unclaimed := !c }).exitRecordsDropParent
    (s.tasks i).pid with exitRecords := records, exitRecordSeq := seq }
  have hrecorded : Leaving ∅ s i { s.tasks i with
      blockDeadline := 0, vforkParent := 0, state := .zombie, exitCode := code, unclaimed := !c } s2 :=
    hwoken.change (hmod.of_view rfl) hwoken.off
      (show update s1.tasks i _ = _ by rw [hwoken.self]) ⟨rfl,rfl,rfl⟩
  have hchild := hrecorded.wqWakeAll .childExit
  have hsig := (s2.wqWakeAll .childExit).wakes_signalChildExited (s.tasks i).parentPid ev.sigchld
  exact ⟨!c,hchild.wakes (hchild.core.signalChildExited _ _) hsig
    (hsig.of_not_blocked (by rw [hchild.self]; simp))⟩

end

namespace Orderly
section
variable (h : Orderly s)
include h

theorem of_core (hcore : Core ∅ s') (hcur : s'.current = s.current)
    (htask : s'.tasks s.current = s.tasks s.current) : Orderly s' :=
  ⟨hcore,by rw [hcur,htask,h.running],by rw [hcur,htask]; exact h.current⟩

/-- A task that is not running has become this ready task and is queued. -/
theorem enqueue {t : Task} (hcore : Core (insert i ∅) s')
    (htasks : s'.tasks = update s.tasks i t) (hcur : s'.current = s.current)
    (hci : s.current ≠ i) (hidle : s'.idleTask ≠ some i) (hready : t.state = .ready)
    (hd : t.blockDeadline = 0) (hpid : t.pid ≠ 0) : Orderly (s'.readyPush i) := by
  have hself : s'.tasks i = t := by rw [htasks,update_self]
  refine h.of_core (hcore.readyPush (by simp) ⟨?_,hidle⟩ ?_ ?_) hcur ?_
  · rw [hself]
    exact hready
  · rw [hself]
    exact hd
  · rw [hself]
    exact hpid
  · exact (congrFun htasks _).trans (update_of_ne hci _ _)

theorem of_wakes (hcore : Core ∅ s') (hw : Wakes s s') : Orderly s' :=
  h.of_core hcore hw.current (hw.of_not_blocked (by rw [h.running]; decide))

theorem of_view (hview : s'.view = s.view) (hcur : s'.current = s.current) : Orderly s' :=
  h.of_core (h.core.of_view hview) hcur (congrFun (congrArg Prod.fst hview) _)

theorem modify_same (hpid : (s.tasks i).pid ≠ 0) {f : Task → Task}
    (hf : SameDuty (s.tasks i) (f (s.tasks i))) : Orderly (s.modify i f) := by
  have hcore := h.core.modify_same hpid hf
  by_cases hc : s.current = i
  · subst hc
    have hself := s.modify_self s.current f
    exact ⟨hcore,(congrArg Task.state hself).trans (hf.state.trans h.running),
      ((congrArg Task.pid hself).trans hf.pid).trans_ne h.current⟩
  · exact h.of_core hcore rfl (s.modify_of_ne hc f)

end

variable (h : Orderly s)
include h

theorem deadline : (s.tasks s.current).blockDeadline = 0 :=
  h.core.deadline (by simp) (by rw [h.running]; decide)

theorem holdCurrent : Core (insert s.current ∅) s := by
  refine h.core.hold (fun hq => ?_) (by rw [h.running]; decide)
  exact absurd (hq.1.symm.trans h.running) (by decide)

theorem off_duty (hi : (s.tasks i).state = st) (hready : st ≠ .ready)
    (hrunning : st ≠ .running) : s.current ≠ i ∧ s.idleTask ≠ some i ∧ (s.tasks i).pid ≠ 0 := by
  refine ⟨?_,h.core.not_idle hi hready hrunning,h.core.pid_of_state (by simp) (hi.trans_ne hrunning)⟩
  rintro rfl
  exact hrunning (hi.symm.trans h.running)

theorem schedRescheduleDone : Orderly s.schedRescheduleDone := h.of_view rfl rfl

theorem taskYield : Orderly s.taskYield := by
  have hs := h.schedRescheduleDone
  rcases hs.core.readyPop (by simp) (by rw [hs.running]; decide) with
    ⟨n,s1,heq,hcore,hreq,_,hne,hnpid,hnd⟩ | ⟨hi,s1,heq,hcore,hreq⟩
  · replace hreq := s.requeued_schedRescheduleDone.trans hreq
    replace hne : n ≠ s.current := hne
    have hcur : s1.tasks s.current = s.tasks s.current := by rw [hreq.tasks]
    have hfits := hcore.fits s.current
    rw [Sched.taskYield,heq]
    dsimp only
    rw [hreq.current]
    set s2 := s1.modify s.current fun t => { t with state := .ready }
    have hself : s2.tasks s.current = { s.tasks s.current with state := .ready } := by
      rw [← hcur]
      exact s1.modify_self _ _
    have hn : s2.tasks n = s.tasks n := (s1.modify_of_ne hne _).trans (by rw [hreq.tasks])
    -- the idle task is in no queue, every other one goes to the end of its own
    split
    case isTrue hi =>
      refine Core.orderly_dispatch (hcore.move rfl (fun _ _ => Iff.rfl) ⟨rfl,rfl,rfl,le_rfl⟩ ?_ ?_
        (by simp [due,s2,Sched.modify]) ⟨fun _ hd => ?_,hfits.prio,fun _ h0 => ?_,fun hi => ?_⟩)
        (by rw [hn]; exact hnpid) (by rw [hn]; exact hnd)
      · have hi' : s1.idleTask = some s.current := hi
        simp [post,hi']
      · simp [nap,hcur,h.running,s2,Sched.modify]
      · rw [hcur] at hd
        exact absurd h.deadline hd
      · rw [hcur] at h0
        exact absurd h0 h.current
      · exact ⟨(hfits.idle hi).1,(hfits.idle hi).2.1,.inl rfl⟩
    case isFalse hi =>
      have hheld : Core (insert s.current (insert n ∅)) s2 := by
        refine hcore.move rfl (fun j hj => by simp [hj]) ⟨rfl,rfl,rfl,le_rfl⟩ ?_ ?_
          (by simp [due,s2,Sched.modify]) ⟨by simp,hfits.prio,by simp,fun hi' => absurd hi' hi⟩
        · simp [post,hcur,h.running]
        · simp [nap,hcur,h.running,s2,Sched.modify]
      refine (hheld.readyPush (by simpa using hne.symm) ⟨by rw [hself],hi⟩ ?_ ?_).orderly_dispatch
        (by rw [(s2.requeued_readyPush _).tasks,hn]; exact hnpid)
        (by rw [(s2.requeued_readyPush _).tasks,hn]; exact hnd)
      · rw [hself]
        exact h.deadline
      · rw [hself]
        exact h.current
  · rw [Sched.taskYield,heq]
    exact hs.of_core hcore hreq.current (by rw [hreq.tasks])

theorem taskWakeup (i : Slot) : Orderly (s.taskWakeup i) :=
  h.of_wakes (h.core.taskWakeup (by simp)) (s.wakes_taskWakeup i)

theorem wqWakeAll (q : WaitQueue) : Orderly (s.wqWakeAll q) :=
  h.of_wakes (h.core.wakeAll (by simp)) (s.wakes_wqWakeAll q)

theorem schedPreemptTick (quantum : ℕ) : Orderly (s.schedPreemptTick quantum) := by
  unfold Sched.schedPreemptTick
  split
  · exact h.of_view rfl rfl
  · split
    · exact (h.of_view rfl rfl).taskYield
    · dsimp only
      split
      · exact h.of_view rfl rfl
      · split
        · exact (h.of_view rfl rfl).taskYield
        · exact h.of_view rfl rfl

section
variable (hidle : s.idleTask ≠ some s.current)
include hidle

theorem taskBlock (w : ℤ) : Orderly (s.taskBlock w) :=
  h.holdCurrent.taskBlock rfl hidle (by rw [h.running]; decide) h.current w

theorem taskBlockUntil (deadline : ℕ) (deliverable : Bool) :
    Orderly (s.taskBlockUntil deadline deliverable) := by
  unfold Sched.taskBlockUntil
  split
  · exact h
  have hflags := h.modify_same h.current (f := fun t =>
    { t with blockTimedOut := false, blockInterrupted := false, blockInterruptible := true })
    ⟨rfl,rfl,rfl,rfl,id⟩
  split
  · exact taskBlock hflags hidle _
  case isFalse hd =>
    set s1 := s.modify s.current fun t =>
      { t with blockTimedOut := false, blockInterrupted := false, blockInterruptible := true }
    have hrun : (s1.tasks s.current).state = .running := hflags.running
    have hzero : (s1.tasks s.current).blockDeadline = 0 := hflags.deadline
    have hself := s1.modify_self s.current fun t => { t with blockDeadline := deadline }
    have hcore : Core (insert s.current ∅) { s1.modify s.current fun t =>
        { t with blockDeadline := deadline } with nTimedBlocked := s1.nTimedBlocked + 1 } :=
      hflags.core.move rfl (by simp +contextual) ⟨rfl,rfl,rfl,le_rfl⟩ (by simp [post,hrun])
        (by simp [nap,hrun,Sched.modify]) (by simp [due,hzero,hd])
        ⟨by simp,(hflags.core.fits _).prio,by simp,fun hi => absurd hi hidle⟩
    exact hcore.taskBlock rfl hidle ((congrArg Task.state hself).trans_ne (hrun.trans_ne (by decide)))
      ((congrArg Task.pid hself).trans_ne hflags.current) _

omit hidle in
theorem foldl_wqAdd (qs : List WaitQueue) :
    Orderly (qs.foldl Sched.wqAdd s) ∧ (qs.foldl Sched.wqAdd s).idleTask = s.idleTask ∧
      (qs.foldl Sched.wqAdd s).current = s.current := by
  induction qs generalizing s with
  | nil => exact ⟨h,rfl,rfl⟩
  | cons q qs ih => exact ih (s := s.wqAdd q) (h.of_view rfl rfl)

theorem wqWait (qs : List WaitQueue) (deadline : ℕ) (deliverable : Bool) :
    Orderly (s.wqWait qs deadline deliverable) := by
  unfold Sched.wqWait
  split
  · exact h.of_view rfl rfl
  · obtain ⟨hfold,hid,hcur⟩ := h.foldl_wqAdd qs
    exact hfold.taskBlockUntil (by rw [hid,hcur]; exact hidle) deadline false

theorem taskVforkWait (child : ℤ) : Orderly (s.taskVforkWait child) := by
  unfold Sched.taskVforkWait
  split
  · exact h
  · split
    · exact h
    · exact taskBlock (s := s.wqAdd .vfork) (h.of_view rfl rfl) hidle _

theorem sysThreadJoin (tid : ℤ) : Orderly (s.sysThreadJoin tid) := by
  unfold Sched.sysThreadJoin
  split
  · exact h
  · split
    · exact h
    · exact h.taskBlock hidle tid

theorem taskWaitChild (pid : ℤ) (nohang deliverable : Bool) :
    Orderly (s.taskWaitChild pid nohang deliverable).2 := by
  unfold Sched.taskWaitChild
  dsimp only
  split
  · exact h
  · split
    · exact h.of_view rfl rfl
    · split
      · exact h
      · split
        · exact h
        · split
          · exact h.of_view rfl rfl
          · exact h.wqWait hidle [.childExit] 0 false

theorem taskSleepTicks (now ticks : ℕ) : Orderly (s.taskSleepTicks now ticks) := by
  unfold Sched.taskSleepTicks
  split
  · exact h
  dsimp only
  set s1 := s.schedRescheduleDone.modify s.current fun t =>
    { t with wakeTick := (now + ticks) % 2 ^ 64, state := .sleeping }
  have hself : s1.tasks s.current = { s.tasks s.current with
      wakeTick := (now + ticks) % 2 ^ 64, state := .sleeping } :=
    s.schedRescheduleDone.modify_self _ _
  have hcore : Core ∅ { s1 with nSleeping := s.nSleeping + 1 } :=
    h.schedRescheduleDone.core.move rfl (fun _ _ => Iff.rfl) ⟨rfl,rfl,rfl,le_rfl⟩
      (by simp [post,Sched.schedRescheduleDone,h.running])
      (by simp [nap,Sched.schedRescheduleDone,h.running]) (by simp [due,s1,Sched.modify])
      ⟨fun _ hd => absurd h.deadline hd,(h.core.fits _).prio,fun _ h0 => absurd h0 h.current,
        fun hi => absurd hi hidle⟩
  obtain ⟨n,s2,heq,hend⟩ := hcore.pop_dispatch hidle
    (show (s1.tasks s.current).state ≠ .ready by rw [hself]; simp)
  rw [heq]
  exact hend

end

theorem wqWaitReturn : Orderly s.wqWaitReturn := (h.modify_same h.current (f := fun t =>
    { t with blockTimedOut := false, blockInterrupted := false, blockInterruptible := false })
    ⟨rfl,rfl,rfl,rfl,id⟩).of_view rfl rfl

theorem taskWaitChildResume (hidle : s.idleTask ≠ some s.current) (pid : ℤ)
    (nohang deliverable : Bool) : Orderly (s.taskWaitChildResume pid nohang deliverable).2 := by
  unfold Sched.taskWaitChildResume
  split
  · exact h.wqWaitReturn
  · exact taskWaitChild (s := s.wqWaitReturn) h.wqWaitReturn hidle _ _ _

theorem taskWakeFutex (phys : U64) : Orderly (s.taskWakeFutex phys).2 := by
  unfold Sched.taskWakeFutex
  split
  case h_1 i hi =>
    have hmatch := List.find?_some hi
    simp only [Sched.waitsOnKey,Bool.and_eq_true,bne_iff_ne] at hmatch
    exact (h.modify_same hmatch.1.1 ⟨rfl,rfl,rfl,rfl,id⟩).taskWakeup i
  case h_2 => exact h

theorem wakeSleeper (now : ℕ) (i : Slot) : Orderly (s.wakeSleeper now i) := by
  unfold Sched.wakeSleeper
  dsimp only
  split
  · exact h
  split
  case isTrue hs =>
    obtain ⟨hci,hidle,hpid⟩ := h.off_duty hs.1 (by decide) (by decide)
    have hcore : Core (insert i ∅) { s.modify i fun t => { t with state := .ready } with
        nSleeping := s.nSleeping - 1 } :=
      h.core.move rfl (by simp +contextual) ⟨rfl,rfl,rfl,le_rfl⟩ (by simp [post,hs.1])
        (by simp [nap,hs.1]) (by simp [due,Sched.modify])
        ⟨by simp,(h.core.fits i).prio,by simp,fun hi => absurd hi hidle⟩
    have hd := h.core.deadline (i := i) (by simp) (by rw [hs.1]; decide)
    exact h.enqueue hcore rfl rfl hci hidle rfl hd hpid
  case isFalse =>
    split
    case isTrue hb =>
      obtain ⟨_,_,hpid⟩ := h.off_duty hb.1 (by decide) (by decide)
      exact (h.modify_same hpid ⟨rfl,rfl,rfl,rfl,id⟩).taskWakeup i
    case isFalse => exact h

theorem schedWakeSleepers (now : ℕ) : Orderly (s.schedWakeSleepers now) := by
  unfold Sched.schedWakeSleepers
  split
  · exact h
  case isFalse hc =>
    clear hc
    generalize taskSlots = l
    induction l generalizing s with
    | nil => exact h
    | cons i l ih => exact ih (h.wakeSleeper now i)

theorem schedSetPriority (i : Slot) (prio : ℤ) : Orderly (s.schedSetPriority i prio) := by
  unfold Sched.schedSetPriority
  split
  · exact h
  case isFalse hrange =>
    have hp : Level.low.prio ≤ prio ∧ prio ≤ Level.high.prio := by
      rw [not_or,not_lt,not_lt] at hrange
      exact hrange
    split
    · exact h
    by_cases hq : Queued s i
    · obtain ⟨s',heq,hcore⟩ := h.core.readyRemove (i := i) (by simp) hq
      have hreq := Sched.requeued_readyRemove heq
      have hidle : s'.idleTask ≠ some i := fun hi => hq.2 (hreq.idleTask ▸ hi)
      have hci : s.current ≠ i := by
        rintro rfl
        exact absurd (h.running.symm.trans hq.1) (by decide)
      have hmod : Core (insert i ∅) (s'.modify i fun t => { t with prio := prio }) :=
        hcore.move rfl (fun _ _ => Iff.rfl) ⟨rfl,rfl,rfl,le_rfl⟩ (by simp [post])
          (by simp [nap,Sched.modify]) (by simp [due,Sched.modify])
          ⟨by simp,hp,by simp,fun hi => absurd hi hidle⟩
      rw [heq]
      refine h.enqueue (t := { s.tasks i with prio := prio }) hmod ?_ hreq.current hci hidle hq.1
        (h.core.deadline (by simp) (by rw [hq.1]; decide))
        (h.core.pid_of_state (by simp) (by rw [hq.1]; decide))
      rw [← hreq.tasks]
      rfl
    · have hfits := h.core.fits i
      have hcore : Core ∅ (s.modify i fun t => { t with prio := prio }) := by
        refine h.core.move rfl (fun _ _ => Iff.rfl) ⟨rfl,rfl,rfl,le_rfl⟩ ?_
          (by simp [nap,Sched.modify]) (by simp [due,Sched.modify])
          ⟨hfits.deadline,hp,fun hi h0 => ?_,hfits.idle⟩
        · rw [Queued] at hq
          simp [post,hq]
        · obtain ⟨q,hq⟩ := hfits.free hi h0
          exact ⟨prio,by rw [hq]⟩
      rw [h.core.readyRemove_none hq]
      by_cases hci : s.current = i
      · subst hci
        have hself := s.modify_self s.current fun t => { t with prio := prio }
        exact ⟨hcore,(congrArg Task.state hself).trans h.running,
          (congrArg Task.pid hself).trans_ne h.current⟩
      · exact h.of_core hcore rfl (s.modify_of_ne hci _)

/-- `mark_task_exited` on another task, called with that task in hand. -/
theorem markTaskExited {s' : Sched} (hcore : Core (insert i ∅) s') (htasks : s'.tasks = s.tasks)
    (hcur : s'.current = s.current) (hidle : s'.idleTask ≠ some i) (hi : s.current ≠ i)
    (hpid : (s.tasks i).pid ≠ 0) (code : ℤ) (ev : Sched.ExitEvents) :
    Orderly (s'.markTaskExited i code ev) := by
  obtain ⟨c,hleft⟩ := leaving_markTaskExited hcore hidle (by rw [htasks]; exact hpid) code ev
  refine h.of_core hleft.core (hleft.current.trans hcur) ?_
  rw [hleft.running s.current hi (by rw [htasks]; exact h.running),htasks]

theorem taskFailReservedUser (i : Slot) (code : ℤ) (ev : Sched.ExitEvents) :
    Orderly (s.taskFailReservedUser i code ev) := by
  unfold Sched.taskFailReservedUser
  split
  · exact h
  case isFalse hs =>
    rw [not_not] at hs
    obtain ⟨hci,hidle,hpid⟩ := h.off_duty hs (by decide) (by decide)
    refine h.markTaskExited (h.core.hold (fun hq => ?_) (by rw [hs]; decide)) rfl rfl hidle hci hpid
      code ev
    exact absurd (hq.1.symm.trans hs) (by decide)

theorem taskExit (code : ℤ) (ev : Sched.ExitEvents) : Orderly (s.taskExit code ev) := by
  unfold Sched.taskExit
  split
  · exact h
  case isFalse hc =>
    have hidle : s.idleTask ≠ some s.current := fun hi => hc (.inl hi)
    obtain ⟨c,hleft⟩ := leaving_markTaskExited h.schedRescheduleDone.holdCurrent hidle h.current
      code ev
    obtain ⟨n,s1,heq,hend⟩ := hleft.core.pop_dispatch
      (by rw [hleft.current,hleft.idleTask]; exact hidle)
      (by rw [hleft.current,hleft.self]; simp)
    dsimp only
    rw [show s.schedRescheduleDone.current = s.current from rfl] at heq
    rw [heq]
    exact hend

theorem taskExitThread (hidle : s.idleTask ≠ some s.current) : Orderly s.taskExitThread := by
  unfold Sched.taskExitThread
  split
  · exact h
  dsimp only
  set s1 := s.schedRescheduleDone.modify s.current fun t =>
    { t with state := .zombie, unclaimed := true }
  have hself : s1.tasks s.current = { s.tasks s.current with state := .zombie, unclaimed := true } :=
    s.schedRescheduleDone.modify_self _ _
  have hcore : Core ∅ s1 := h.schedRescheduleDone.core.move rfl (fun _ _ => Iff.rfl)
    ⟨rfl,rfl,rfl,le_rfl⟩ (by simp [post,Sched.schedRescheduleDone,h.running])
    (by simp [nap,s1,Sched.modify,Sched.schedRescheduleDone,h.running])
    (by simp [due,s1,Sched.modify])
    ⟨fun _ hd => absurd h.deadline hd,(h.core.fits _).prio,fun _ h0 => absurd h0 h.current,
      fun hi => absurd hi hidle⟩
  have hw := s1.wakes_wakeWaiters (s.tasks s.current).pid
  have hcur : (s1.wakeWaiters (s.tasks s.current).pid).2.current = s.current := hw.current
  obtain ⟨n,s2,heq,hend⟩ := (hcore.wakeWaiters (s.tasks s.current).pid).pop_dispatch
    (by rw [hcur,hw.idleTask]; exact hidle)
    (by rw [hcur,hw.of_not_blocked (by rw [hself]; simp),hself]; simp)
  rw [heq]
  exact hend

theorem sysThreadExit (hidle : s.idleTask ≠ some s.current) (last : Bool)
    (ev : Sched.ExitEvents) : Orderly (s.sysThreadExit last ev) := by
  unfold Sched.sysThreadExit
  split
  · exact h
  split
  · exact h.taskExit 0 ev
  · exact taskExitThread (h.of_view rfl rfl) hidle

theorem not_idle_of_vm (hi : (s.tasks i).vm ≠ 0) : s.idleTask ≠ some i := fun hidle =>
  hi ((h.core.fits i).idle hidle).2.1

theorem taskKill (pid code : ℤ) (ev : Sched.ExitEvents) (pending : Bool) :
    Orderly (s.taskKill pid code ev pending).2 := by
  unfold Sched.taskKill
  split
  · exact h
  case h_2 i hi =>
    dsimp only
    split
    · exact h
    split
    · split
      · exact h.taskFailReservedUser i code ev
      · exact h
    split
    · exact h
    case isFalse hkill =>
      have hvm : (s.tasks i).vm ≠ 0 := by
        intro h0
        exact hkill (.inl (by simp [Sched.hasUserPml4,h0]))
      have hidle := h.not_idle_of_vm hvm
      split
      · exact h.taskExit code ev
      case isFalse hci =>
        replace hci : s.current ≠ i := Ne.symm hci
        split
        · exact h
        case isFalse hrun =>
          have hpid := h.core.pid_of_state (i := i) (by simp) hrun
          split
          case isTrue hready =>
            obtain ⟨s',heq,hcore⟩ := h.core.readyRemove (i := i) (by simp) ⟨hready,hidle⟩
            have hreq := Sched.requeued_readyRemove heq
            rw [heq]
            exact h.markTaskExited hcore hreq.tasks hreq.current (hreq.idleTask ▸ hidle) hci hpid
              code ev
          case isFalse hready =>
            split
            case isTrue hsleep =>
              have hcore : Core (insert i ∅) { s with nSleeping := s.nSleeping - 1 } :=
                h.core.move (update_eq_self i s.tasks).symm (by simp +contextual)
                  ⟨rfl,rfl,rfl,le_rfl⟩ (by simp [post,hready]) (by simp [nap,hsleep.1]) (by simp)
                  ⟨by simp,(h.core.fits i).prio,by simp,fun hi => absurd hi hidle⟩
              exact h.markTaskExited hcore rfl rfl hidle hci hpid code ev
            case isFalse hsleep =>
              have hawake : (s.tasks i).state ≠ .sleeping := by
                -- a sleeper is counted, so the counter is positive
                intro hs
                refine hsleep ⟨hs,?_⟩
                obtain ⟨l,hl⟩ := h.core.placed
                have hmem : i ∈ asleep ∅ s := by simp [asleep,hs]
                have hpos := Finset.card_pos.mpr ⟨i,hmem⟩
                rw [hl.sleeping]
                exact_mod_cast hpos
              exact h.markTaskExited (h.core.hold (fun hq => hready hq.1) hawake) rfl rfl hidle hci
                hpid code ev

/-! ### Slots that change hands -/

theorem clearSlot (hci : s.current ≠ i) (hidle : s.idleTask ≠ some i) (hq : ¬ Queued s i)
    (hs : (s.tasks i).state ≠ .sleeping) (hd : (s.tasks i).blockDeadline = 0) {n : ℕ}
    (hn : s.nextPid ≤ n) : Orderly { s.clearSlot i with nextPid := n } := by
  have hcore : Core ∅ { s.modify i fun _ => Task.empty with nextPid := n } := by
    refine h.core.move rfl (fun _ _ => Iff.rfl) ⟨rfl,rfl,rfl,hn⟩ ?_ ?_ ?_
      ⟨fun _ hne => absurd rfl hne,⟨le_rfl,Int.zero_le_ofNat 2⟩,fun _ _ => ⟨0,rfl⟩,
        fun hi => absurd hi hidle⟩
    · rw [Queued] at hq
      simp [post,hq,Task.empty]
    · simp [nap,hs,Task.empty,Sched.modify]
    · simp [due,hd,Task.empty,Sched.modify]
  refine h.of_core ?_ rfl (s.clearSlot_of_ne hci)
  obtain ⟨⟨l,hl⟩,hready,hpos⟩ := hcore
  refine ⟨⟨l,fun p => (hl.holds p).congr fun a ha => update_of_ne ?_ _ _,hl.mem,hl.sleeping,
    hl.timed,hl.deadline,hl.prio,hl.free⟩,hready,hpos⟩
  rintro rfl
  have hempty := congrArg Task.state (s.modify_self a fun _ => Task.empty)
  exact absurd (((hl.mem p a).mp ha).2.1.1.symm.trans hempty) (by decide)

theorem clearGone (hi : (s.tasks i).state = st) (hst : st = .zombie ∨ st = .dead) :
    Orderly (s.clearSlot i) := by
  have hne : ∀ {t : TaskState}, t ≠ .zombie → t ≠ .dead → st ≠ t := by
    rintro t hz hd rfl
    exact hst.elim hz hd
  obtain ⟨hci,hidle,_⟩ := h.off_duty hi (hne (by decide) (by decide)) (hne (by decide) (by decide))
  refine h.clearSlot hci hidle (fun hq => ?_) ?_ (h.core.deadline (by simp) ?_) le_rfl
  · exact hne (by decide) (by decide) (hi.symm.trans hq.1)
  · exact hi.trans_ne (hne (by decide) (by decide))
  · exact hi.trans_ne (hne (by decide) (by decide))

theorem taskReap (i : Slot) : Orderly (s.taskReap i) := by
  rcases s.taskReap_cases i with heq | ⟨hz,heq⟩
  · rw [heq]
    exact h
  · rw [heq]
    exact h.clearGone hz (.inl rfl)

theorem taskReapUnclaimed : Orderly s.taskReapUnclaimed := by
  unfold Sched.taskReapUnclaimed
  generalize taskSlots = l
  induction l generalizing s with
  | nil => exact h
  | cons i l ih =>
    refine ih ?_
    unfold Sched.reapUnclaimedStep
    dsimp only
    split
    · exact h
    · exact h.taskReap i

theorem taskReapClaim (i : Slot) : Orderly (s.taskReapClaim i) := by
  unfold Sched.taskReapClaim
  split
  · exact h
  case isFalse hs =>
    have hz : (s.tasks i).state = .zombie := by
      by_contra hne
      exact hs (.inl hne)
    obtain ⟨hci,hidle,hpid⟩ := h.off_duty hz (by decide) (by decide)
    have hd := h.core.deadline (i := i) (by simp) (by rw [hz]; decide)
    refine h.of_core (h.core.move rfl (fun _ _ => Iff.rfl) ⟨rfl,rfl,rfl,le_rfl⟩
      (by simp [post,hz]) (by simp [nap,hz,Sched.modify]) (by simp [due,Sched.modify])
      ⟨fun _ hne => absurd hd hne,(h.core.fits i).prio,fun _ h0 => absurd h0 hpid,
        fun hi => absurd hi hidle⟩) rfl (s.modify_of_ne hci _)

theorem taskReapFree (i : Slot) : Orderly (s.taskReapFree i) := by
  unfold Sched.taskReapFree
  split
  · exact h
  case isFalse hs => exact h.clearGone (not_not.mp hs) (.inr rfl)

theorem allocSlot : Orderly s.allocSlot.2 := by
  rcases s.allocSlot_cases with ⟨heq,_⟩ | heq
  · rw [heq]
    exact h
  · rw [heq]
    exact h.taskReapUnclaimed

theorem free_slot (hpid : (s.tasks i).pid = 0) :
    s.current ≠ i ∧ s.idleTask ≠ some i ∧ (s.tasks i).state = .running ∧
      (s.tasks i).blockDeadline = 0 := by
  have hrun := h.core.state_of_pid (i := i) (by simp) hpid
  refine ⟨?_,fun hi => ((h.core.fits i).idle hi).1 hpid,hrun,
    h.core.deadline (by simp) (by rw [hrun]; decide)⟩
  rintro rfl
  exact h.current hpid

theorem place (hpid : (s.tasks i).pid = 0) {t : Task} (ht : t.pid = s.nextPid)
    (hd : t.blockDeadline = 0) (hp : Level.low.prio ≤ t.prio ∧ t.prio ≤ Level.high.prio)
    (hstate : t.state = .ready ∨ t.state = .loading) : Orderly (s.place i t) := by
  obtain ⟨hci,hidle,hrun,hdi⟩ := h.free_slot hpid
  have hpos := h.core.pid
  have hother := s.modify_of_ne hci fun _ => t
  have hawake : t.state ≠ .sleeping := by rcases hstate with hs | hs <;> rw [hs] <;> decide
  rw [Sched.place]
  split
  case isTrue hr =>
    have hcore : Core (insert i ∅) { s.modify i fun _ => t with nextPid := s.nextPid + 1 } :=
      h.core.move rfl (by simp +contextual) ⟨rfl,rfl,rfl,Nat.le_succ _⟩ (by simp [post,hrun])
        (by simp [nap,hrun,Sched.modify]) (by simp [due,hd,hdi,Sched.modify])
        ⟨by simp,hp,by simp,fun hi => absurd hi hidle⟩
    exact h.enqueue hcore rfl rfl hci hidle hr hd (by rw [ht]; exact hpos.ne')
  case isFalse hr =>
    refine h.of_core (h.core.move rfl (fun _ _ => Iff.rfl) ⟨rfl,rfl,rfl,Nat.le_succ _⟩
      (by simp [post,hrun,hr]) (by simp [nap,hrun,hawake,Sched.modify])
      (by simp [due,hd,hdi,Sched.modify]) ⟨fun _ hne => absurd hd hne,hp,fun _ h0 => ?_,
        fun hi => absurd hi hidle⟩) rfl hother
    exact absurd (ht.symm.trans h0) hpos.ne'

variable (a : Sched.Alloc)

theorem spawnWith (early : Bool) {fill : Task → ℕ → Task}
    (hfill : ∀ t n, (fill t n).pid = n ∧ (t.blockDeadline = 0 → (fill t n).blockDeadline = 0) ∧
      (fill t n).prio = Level.normal.prio ∧
      ((fill t n).state = .ready ∨ (fill t n).state = .loading)) :
    Orderly (s.spawnWith a early fill).2 := by
  have halloc := h.allocSlot
  have hnext := s.nextPid_allocSlot
  rcases s.spawnWith_cases a early fill with heq | ⟨i,n,hi,hn,heq⟩ | ⟨i,hi,heq⟩
  · rw [heq]
    exact halloc
  · rw [heq]
    obtain ⟨hci,hidle,hrun,hdi⟩ := halloc.free_slot hi
    refine halloc.clearSlot hci hidle (fun hq => ?_) (by rw [hrun]; decide) hdi (hnext.trans_le hn)
    exact absurd (hq.1.symm.trans hrun) (by decide)
  · rw [heq]
    obtain ⟨_,_,_,hdi⟩ := halloc.free_slot hi
    obtain ⟨hpid,hd,hprio,hstate⟩ := hfill (s.allocSlot.2.tasks i) s.nextPid
    refine halloc.place hi (hpid.trans hnext.symm) (hd hdi) ?_ hstate
    rw [hprio]
    decide

theorem taskSpawn : Orderly (s.taskSpawn a).2 := by
  exact h.spawnWith a true fun _ _ => ⟨rfl,id,rfl,.inl rfl⟩

theorem newVm (root : U64) : Orderly (s.newVm root) := h.of_view rfl rfl

theorem taskSpawnUser (root : U64) (parentPid : ℕ) : Orderly (s.taskSpawnUser a root parentPid).2 :=
  (h.newVm root).spawnWith a true fun _ _ => ⟨rfl,id,rfl,.inl rfl⟩

theorem taskReserveUser (parentPid : ℕ) : Orderly (s.taskReserveUser a parentPid).2 :=
  (h.newVm 0#64).spawnWith a true fun _ _ => ⟨rfl,fun _ => rfl,rfl,.inr rfl⟩

theorem taskSpawnThread : Orderly (s.taskSpawnThread a).2 := by
  unfold Sched.taskSpawnThread
  split
  · exact h
  · exact h.spawnWith a true fun _ _ => ⟨rfl,id,rfl,.inl rfl⟩

theorem taskSpawnVfork : Orderly (s.taskSpawnVfork a).2 := by
  unfold Sched.taskSpawnVfork
  split
  · exact h
  · exact h.spawnWith a false fun _ _ => ⟨rfl,fun _ => rfl,rfl,.inl rfl⟩

theorem taskActivateReservedUser (i : Slot) (root : U64) (refs : Bool) :
    Orderly (s.taskActivateReservedUser i root refs) := by
  unfold Sched.taskActivateReservedUser
  dsimp only
  split
  · exact h
  case isFalse hs =>
    have hl : (s.tasks i).state = .loading := by
      by_contra hne
      exact hs (.inl hne)
    obtain ⟨hci,hidle,hpid⟩ := h.off_duty hl (by decide) (by decide)
    set s1 : Sched := { s with
      vms := update s.vms (s.tasks i).vm { s.vms (s.tasks i).vm with userPml4 := root } }
    have hcore : Core (insert i ∅) (s1.modify i fun t => { t with state := .ready }) :=
      h.core.move rfl (by simp +contextual) ⟨rfl,rfl,rfl,le_rfl⟩ (by simp [post,hl])
        (by simp [nap,hl,s1,Sched.modify]) (by simp [due,s1,Sched.modify])
        ⟨by simp,(h.core.fits i).prio,by simp,fun hi => absurd hi hidle⟩
    have hd := h.core.deadline (i := i) (by simp) (by rw [hl]; decide)
    exact h.enqueue hcore rfl rfl hci hidle rfl hd hpid

theorem taskVforkRelease (hpid : (s.tasks i).pid ≠ 0) : Orderly (s.taskVforkRelease i) := by
  have hmod := h.modify_same hpid (f := fun t => { t with vforkParent := 0 })
    ⟨rfl,rfl,rfl,rfl,id⟩
  rcases s.taskVforkRelease_cases i with heq | heq
  · rw [heq]
    exact hmod
  · rw [heq]
    exact hmod.wqWakeAll .vfork

theorem taskExecAddressSpace (root : U64) : Orderly (s.taskExecAddressSpace root) := by
  unfold Sched.taskExecAddressSpace
  split
  · exact h
  case isFalse hvm =>
    have hexec := (h.newVm root).modify_same (i := s.current) h.current
      (f := fun t => { t with vm := s.nextVm + 1 }) ⟨rfl,rfl,rfl,rfl,fun h0 => absurd h0 hvm⟩
    exact hexec.taskVforkRelease hexec.current

theorem apply (op : Op) (hidle : op.parks → s.idleTask ≠ some s.current) :
    Orderly (apply s op) := by
  cases op with
  | spawn a => exact h.taskSpawn a
  | spawnUser a root parentPid => exact h.taskSpawnUser a root parentPid
  | reserveUser a parentPid => exact h.taskReserveUser a parentPid
  | activateReserved i root refs => exact h.taskActivateReservedUser i root refs
  | failReserved i code ev => exact h.taskFailReservedUser i code ev
  | spawnThread a => exact h.taskSpawnThread a
  | spawnVfork a => exact h.taskSpawnVfork a
  | setPriority i prio => exact h.schedSetPriority i prio
  | yield => exact h.taskYield
  | preemptTick quantum => exact h.schedPreemptTick quantum
  | block pid => exact h.taskBlock (hidle rfl) pid
  | blockUntil deadline deliverable => exact h.taskBlockUntil (hidle rfl) deadline deliverable
  | wqWait qs deadline deliverable => exact h.wqWait (hidle rfl) qs deadline deliverable
  | wqReturn => exact h.wqWaitReturn
  | vforkWait child => exact h.taskVforkWait (hidle rfl) child
  | futexWait phys =>
    have hmod := h.modify_same h.current (f := fun t => { t with futexAddr := phys })
      ⟨rfl,rfl,rfl,rfl,id⟩
    exact hmod.taskBlock (hidle rfl) 0
  | wakeup i => exact h.taskWakeup i
  | wakeAll q => exact h.wqWakeAll q
  | interrupt i => exact h.of_wakes (h.core.taskInterrupt i) (s.wakes_taskInterrupt i)
  | wakeFutex phys => exact h.taskWakeFutex phys
  | sleepTicks now ticks => exact h.taskSleepTicks (hidle rfl) now ticks
  | wakeSleepers now => exact h.schedWakeSleepers now
  | threadJoin tid => exact h.sysThreadJoin (hidle rfl) tid
  | waitChild pid nohang deliverable => exact h.taskWaitChild (hidle rfl) pid nohang deliverable
  | waitChildResume pid nohang deliverable =>
    exact h.taskWaitChildResume (hidle rfl) pid nohang deliverable
  | kill pid code ev pending => exact h.taskKill pid code ev pending
  | exit code ev => exact h.taskExit code ev
  | threadExit last ev => exact h.sysThreadExit (hidle rfl) last ev
  | exec root => exact h.taskExecAddressSpace root
  | shmemShare => exact h.of_view rfl rfl
  | vfsActive active =>
    exact h.modify_same h.current (f := fun t => { t with vfsActive := active })
      ⟨rfl,rfl,rfl,rfl,id⟩
  | reapClaim i => exact h.taskReapClaim i
  | reapFree i => exact h.taskReapFree i
  | reap i => exact h.taskReap i
  | reapUnclaimed => exact h.taskReapUnclaimed

theorem step (op : Op) : Orderly (step s op) := by
  unfold Scheduler.step
  split
  · exact h
  case isFalse hc => exact h.apply op fun hp hi => hc ⟨hi,hp⟩

end Orderly

end GaiaKernel.Scheduler
