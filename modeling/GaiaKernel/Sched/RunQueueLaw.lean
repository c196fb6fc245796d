import GaiaKernel.Sched.Orderly

/-! # The run-queue law

From `sched_init` on, the ready queues and the two counters of the scheduler agree with the
states of the tasks after every call: the dispatcher finds every ready task, and the timer every
task whose time has come.
-/
namespace GaiaKernel.Scheduler
open Finset
open GaiaKernel.Sched (TaskState maxTasks taskSlots)
open LinkedQueue
variable {s : Sched}

/-! ### The start -/

/-- Nothing is queued, asleep or blocked; one slot runs, one is the idle task's, and the others
are free. -/
theorem schedInit_slots (i : Slot) :
    ((schedInit.tasks i).state = .ready → schedInit.idleTask = some i) ∧
      (schedInit.tasks i).state ≠ .sleeping ∧ (schedInit.tasks i).blockDeadline = 0 ∧
      (Level.low.prio ≤ (schedInit.tasks i).prio ∧ (schedInit.tasks i).prio ≤ Level.high.prio) ∧
      ((schedInit.tasks i).pid = 0 → schedInit.tasks i =
        { Task.empty with prio := (schedInit.tasks i).prio }) := by
  revert i
  decide +kernel

theorem orderly_schedInit : Orderly schedInit := by
  have hready : ∀ p, schedInit.ready p = ⟨none,none⟩ := by
    intro p
    cases p <;> rfl
  refine ⟨⟨⟨fun _ => [],fun p => ?_,fun p i => ?_,?_,?_,fun i _ hd => ?_,
    fun i => (schedInit_slots i).2.2.2.1,fun i _ hpid => ⟨_,(schedInit_slots i).2.2.2.2 hpid⟩⟩,
    ?_,?_⟩,?_,?_⟩
  · rw [hready]
    exact ⟨rfl,List.nodup_nil,rfl⟩
  · exact iff_of_false (by simp) fun h => h.2.1.2 ((schedInit_slots i).1 h.2.1.1)
  · rfl
  · rfl
  · exact absurd (schedInit_slots i).2.2.1 hd
  · exact ⟨⟨1,by decide⟩,by decide +kernel⟩
  · decide +kernel
  · decide +kernel
  · decide +kernel

/-! ### The law -/

/-- A queue visits each of its tasks once, ends, and knows its last task; it holds exactly the
ready tasks whose priority selects it, the idle task apart; and the counters count the sleepers and the
blocked tasks with a deadline. -/
def QueuesAgree (s : Sched) : Prop :=
  (∃ l : Level → List Slot,
    (∀ p, Seg s.next none (s.ready p).head (l p) ∧ (l p).Nodup ∧
      (s.ready p).tail = (l p).getLast?) ∧
    ∀ p i, i ∈ l p ↔
      (s.tasks i).pid ≠ 0 ∧ (s.tasks i).state = .ready ∧ s.idleTask ≠ some i ∧
        levelOf (s.tasks i).prio = p) ∧
  (∀ i, Level.low.prio ≤ (s.tasks i).prio ∧ (s.tasks i).prio ≤ Level.high.prio) ∧
  s.nSleeping = (Finset.univ.filter fun i => (s.tasks i).pid ≠ 0 ∧
    (s.tasks i).state = .sleeping).card ∧
  s.nTimedBlocked = (Finset.univ.filter fun i => (s.tasks i).pid ≠ 0 ∧
    (s.tasks i).state = .blocked ∧ (s.tasks i).blockDeadline ≠ 0).card

theorem Orderly.queuesAgree (h : Orderly s) : QueuesAgree s := by
  obtain ⟨l,hl⟩ := h.core.placed
  have hpid : ∀ i, (s.tasks i).state ≠ .running → (s.tasks i).pid ≠ 0 := fun i hi h0 =>
    hi (h.core.state_of_pid (by simp) h0)
  refine ⟨⟨l,fun p => ⟨(hl.holds p).chain,(hl.holds p).nodup,(hl.holds p).tail⟩,fun p i => ?_⟩,
    hl.prio,?_,?_⟩
  · rw [hl.mem]
    constructor
    · rintro ⟨_,hq,hp⟩
      exact ⟨hpid i (by rw [hq.1]; decide),hq.1,hq.2,hp⟩
    · rintro ⟨_,hready,hidle,hp⟩
      exact ⟨by simp,⟨hready,hidle⟩,hp⟩
  · refine hl.sleeping.trans ?_
    congr 2
    ext i
    simp only [asleep,mem_filter,mem_univ,true_and]
    refine ⟨fun hi => ⟨hpid i (by rw [hi.2]; decide),hi.2⟩,fun hi => ⟨by simp,hi.2⟩⟩
  · refine hl.timed.trans ?_
    congr 2
    ext i
    simp only [timed,mem_filter,mem_univ,true_and]
    refine ⟨fun hi => ?_,fun hi => hi.2.2⟩
    have hb := hl.deadline i (by simp) hi
    exact ⟨hpid i (by rw [hb]; decide),hb,hi⟩

/-- From `sched_init` on, after every call of every sequence of calls, the ready queues and the
counters agree with the states of the tasks. -/
theorem run_queues_agree (ops : List Op) : Trace.Always step QueuesAgree schedInit ops :=
  Trace.always_of_invariant (fun _ op h => h.step op) (fun _ h => h.queuesAgree) orderly_schedInit ops

/-! ### The dispatcher -/

/-- The running task is live, and `ready_pop` hands out a queued task while there is one; after
that the idle task, and nothing to the idle task itself. -/
def Dispatches (s : Sched) : Prop :=
  (s.tasks s.current).state = .running ∧ (s.tasks s.current).pid ≠ 0 ∧ ∃ j, s.idleTask = some j ∧
    ((∃ i, Queued s i) → ∃ n, s.readyPop.1 = some n ∧ Queued s n) ∧
    ((∀ i, ¬ Queued s i) → s.readyPop.1 = if s.current = j then none else some j)

theorem Orderly.dispatches (h : Orderly s) : Dispatches s := by
  obtain ⟨l,hl⟩ := h.core.placed
  obtain ⟨j,hj,_⟩ := h.core.idle
  refine ⟨h.running,h.current,j,hj,?_⟩
  cases hc : s.chooseLevel with
  | none =>
    have hno : ∀ i, ¬ Queued s i := by
      intro i hi
      obtain ⟨p,hmem⟩ : ∃ p, i ∈ l p := ⟨_,(hl.mem _ i).mpr ⟨by simp,hi,rfl⟩⟩
      have hhead : (s.ready p).head.isNone := by
        unfold Sched.chooseLevel at hc
        cases p <;> grind
      have hnil : l p = [] := by simpa [(hl.holds p).head_eq] using hhead
      simp [hnil] at hmem
    rw [s.readyPop_none hc,hj]
    refine ⟨fun hq => absurd hq (not_exists.mpr hno),fun _ => ?_⟩
    by_cases h : s.current = j <;> simp [h]
  | some p =>
    obtain ⟨n,next,q,hpop,heq⟩ := s.readyPop_some hc
    have hq := ((hl.mem p n).mp (hl.lines.pop hpop).1).2.1
    exact ⟨fun _ => ⟨n,by rw [heq],hq⟩,fun hno => absurd hq (hno n)⟩

/-- From `sched_init` on, the dispatcher never idles while a task is ready. -/
theorem run_dispatches (ops : List Op) : Trace.Always step Dispatches schedInit ops :=
  Trace.always_of_invariant (fun _ op h => h.step op) (fun _ h => h.dispatches) orderly_schedInit ops

/-! ### The timer -/

def Overdue (now : ℕ) (t : Task) : Prop :=
  t.state = .sleeping ∧ t.wakeTick ≤ now ∨ t.blockDeadline ≠ 0 ∧ t.blockDeadline ≤ now

theorem Sched.wakeSleeper_of_ne (s : Sched) {i j : Slot} (hj : j ≠ i) (now : ℕ) :
    (s.wakeSleeper now i).tasks j = s.tasks j := by
  unfold wakeSleeper taskWakeup blockClearDeadline
  dsimp only
  split_ifs <;> simp [modify,readyPush,hj]

theorem Orderly.wakeSleeper_self (h : Orderly s) (now : ℕ) (i : Slot) :
    ¬ Overdue now ((s.wakeSleeper now i).tasks i) := by
  obtain ⟨l,hl⟩ := h.core.placed
  have hdead := hl.deadline i (notMem_empty i)
  unfold Sched.wakeSleeper
  dsimp only
  split_ifs with hpid hsleep hblock
  · obtain ⟨q,hq⟩ := hl.free i (notMem_empty i) hpid
    simp [Overdue,hq,Task.empty]
  · have h0 : (s.tasks i).blockDeadline = 0 := by
      by_contra hne
      exact absurd (hsleep.1.symm.trans (hdead hne)) (by decide)
    simp [Overdue,Sched.readyPush,Sched.modify,h0]
  · simp [Overdue,Sched.taskWakeup,Sched.blockClearDeadline,Sched.readyPush,Sched.modify,hblock]
  · rintro (hs | hb)
    · exact hsleep hs
    · exact hblock ⟨hdead hb.1,hb⟩

theorem Orderly.wakeSleepers (h : Orderly s) (now : ℕ) (i : Slot) :
    ¬ Overdue now ((s.schedWakeSleepers now).tasks i) := by
  unfold Sched.schedWakeSleepers
  split_ifs with hzero
  · -- the counters are exact, so with both at zero there is nobody to wake
    obtain ⟨l,hl⟩ := h.core.placed
    have hs := hl.sleeping.symm.trans hzero.1
    have ht := hl.timed.symm.trans hzero.2
    rw [Nat.cast_eq_zero,card_eq_zero] at hs ht
    rintro (ho | ho)
    · have : i ∈ asleep ∅ s := by simp [asleep,ho.1]
      simp [hs] at this
    · have : i ∈ timed s := by simp [timed,ho.1]
      simp [ht] at this
  · have hmem : i ∈ taskSlots := List.mem_finRange i
    generalize taskSlots = l at hmem ⊢
    refine Trace.foldl_establishes (I := Orderly) (Q := fun s i => ¬ Overdue now (s.tasks i))
      (fun _ j h => h.wakeSleeper now j) (fun _ j h => h.wakeSleeper_self now j)
      (fun s j i h hi => ?_) h l i (.inr hmem)
    by_cases hij : i = j
    · subst hij
      exact h.wakeSleeper_self now i
    · rwa [s.wakeSleeper_of_ne hij]

/-- From `sched_init` on, a timer interrupt leaves no task asleep or blocked past its time,
though it looks at the tasks only if one of the counters is not zero. -/
theorem run_timely (ops : List Op) : Trace.Always step
    (fun s => ∀ now i, ¬ Overdue now ((s.schedWakeSleepers now).tasks i)) schedInit ops :=
  Trace.always_of_invariant (fun _ op h => h.step op) (fun _ h => h.wakeSleepers) orderly_schedInit
    ops

end GaiaKernel.Scheduler
