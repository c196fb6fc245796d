import GaiaKernel.Errno
import GaiaKernel.Lib.LinkedQueue
import GaiaKernel.Memory.Word
import GaiaKernel.Sched.Tasks

/-! # The scheduler

sched/sched.c with its ready queues, wait queues, exit records and counters. A task is named by its
slot, and `next` holds the `next` pointer of every slot. What the scheduler is told by others is an
argument of the operation: the tick count, whether a signal is deliverable, whether an allocation
succeeds, which pipe queues an exit wakes. Interrupts are off in every function here, so a call is
one step; where it gives up the CPU, the step ends. A step the source answers with a panic or a null
dereference is left out.

Reference counts are the subject of `Sched.Tasks`; here a `struct task_vm` is a number with its
page-table root and its count of lent frames.
-/
namespace GaiaKernel.Scheduler
open Function
open GaiaKernel.Sched (TaskState maxTasks taskSlots)
open LinkedQueue

abbrev Slot := Fin maxTasks

inductive Level where
  | low | normal | high
  deriving DecidableEq

def Level.prio : Level → ℤ
  | .low => 0
  | .normal => 1
  | .high => 2

/-- The queue a priority selects; anything out of range counts as normal. -/
def levelOf (prio : ℤ) : Level :=
  if prio = 0 then .low else if prio = 2 then .high else .normal

def levels : List Level := [.low, .normal, .high]

structure Task where
  pid : ℕ
  parentPid : ℕ
  state : TaskState
  prio : ℤ
  waitingForPid : ℤ
  exitCode : ℤ
  unclaimed : Bool
  isThread : Bool
  vm : ℕ
  vforkParent : ℕ
  vfsActive : Bool
  futexAddr : U64
  wakeTick : ℕ
  blockDeadline : ℕ
  blockTimedOut : Bool
  blockInterruptible : Bool
  blockInterrupted : Bool
  deriving DecidableEq

def Task.empty : Task :=
  ⟨0,0,.running,0,0,0,false,false,0,0,false,0#64,0,0,false,false,false⟩

structure VmRecord where
  userPml4 : U64
  shmemSharedOut : ℕ

def taskExitRecords : ℕ := 32

/-- `struct exit_record`; pid 0 marks a free one. -/
structure ExitRecord where
  pid : ℕ
  parentPid : ℕ
  code : ℤ
  seq : ℕ

/-- The wait queues: parked vfork parents, `wait4` callers, and those of pipes and sockets. -/
inductive WaitQueue where
  | vfork | childExit | object (n : ℕ)
  deriving DecidableEq

structure Sched where
  tasks : Slot → Task
  next : Slot → Option Slot
  ready : Level → Queue Slot
  current : Slot
  idleTask : Option Slot
  highStreak : ℤ
  lowStarve : ℕ
  needResched : Bool
  sliceTicks : ℕ
  nSleeping : ℤ
  nTimedBlocked : ℤ
  nextPid : ℕ
  vms : ℕ → VmRecord
  nextVm : ℕ
  waitQueues : WaitQueue → List Slot
  exitRecords : Fin taskExitRecords → ExitRecord
  exitRecordSeq : ℕ

namespace Sched
variable (s : Sched)

def modify (i : Slot) (f : Task → Task) : Sched :=
  { s with tasks := update s.tasks i (f (s.tasks i)) }

/-! ### Ready queues -/

def readyPush (i : Slot) : Sched :=
  let p := levelOf (s.tasks i).prio
  let r := push s.next (s.ready p) i
  { s with
    next := r.1
    ready := update s.ready p r.2
    needResched := s.needResched ||
      decide (i ≠ s.current ∧
        (s.idleTask = some s.current ∨ p.prio > (s.tasks s.current).prio)) }

def readyAny : Bool := levels.any fun p => (s.ready p).head.isSome
def schedHighBurst : ℕ := 4
def schedLowFloor : ℕ := 64

def chooseLevel : Option Level :=
  let some? := fun p => (s.ready p).head.isSome
  if some? .low ∧ s.lowStarve ≥ schedLowFloor then some .low
  else if some? .high ∧ (s.highStreak < schedHighBurst ∨ !some? .normal) then some .high
  else if some? .normal then some .normal
  else if some? .high then some .high
  else if some? .low then some .low
  else none

def readyPop : Option Slot × Sched :=
  match s.chooseLevel with
  | none => (s.idleTask.filter fun i => s.current ≠ i, { s with highStreak := 0 })
  | some p =>
    match pop s.next (s.ready p) with
    | none => (none, s)
    | some (t, next, q) =>
      (some t, { s with
        next := next
        ready := update s.ready p q
        -- an `int` that nothing clamps
        highStreak := if p = .high then (s.highStreak + 1).bmod (2 ^ 32) else 0
        lowStarve :=
          if p = .low then 0
          else if s.lowStarve < schedLowFloor then s.lowStarve + 1 else s.lowStarve })

def readyRemove (i : Slot) : Option Sched :=
  levels.findSome? fun p =>
    (remove s.next (s.ready p) maxTasks i).map fun r =>
      { s with next := r.1, ready := update s.ready p r.2 }

def schedSetPriority (i : Slot) (prio : ℤ) : Sched :=
  if prio < Level.low.prio ∨ prio > Level.high.prio then s
  else if (s.tasks i).prio = prio then s
  else
    match s.readyRemove i with
    | some s' => (s'.modify i fun t => { t with prio := prio }).readyPush i
    | none => s.modify i fun t => { t with prio := prio }

/-! ### Giving up the CPU -/

def schedRescheduleDone : Sched := { s with sliceTicks := 0, needResched := false }

def dispatch (next : Slot) : Sched :=
  { s.modify next fun t => { t with state := .running } with current := next }

def taskYield : Sched :=
  match s.schedRescheduleDone.readyPop with
  | (none, s₁) => s₁
  | (some next, s₁) =>
    let prev := s₁.current
    let s₂ := s₁.modify prev fun t => { t with state := .ready }
    (if s₂.idleTask = some prev then s₂ else s₂.readyPush prev).dispatch next

def schedPreemptTick (quantum : ℕ) : Sched :=
  if s.idleTask = some s.current ∨ (s.tasks s.current).state ≠ .running then
    { s with sliceTicks := 0 }
  else if s.needResched ∧ s.readyAny then taskYield { s with needResched := false }
  else
    let s₁ := { s with needResched := false, sliceTicks := s.sliceTicks + 1 }
    if s₁.sliceTicks < max quantum 1 then s₁
    else
      let s₂ := { s₁ with sliceTicks := 0 }
      if s₂.readyAny then s₂.taskYield else s₂

def taskBlock (waitingForPid : ℤ) : Sched :=
  match s.schedRescheduleDone.readyPop with
  | (none, _) => s
  | (some next, s₁) =>
    (s₁.modify s₁.current fun t =>
      { t with state := .blocked, waitingForPid := waitingForPid }).dispatch next

def blockClearDeadline (i : Slot) : Sched :=
  if (s.tasks i).blockDeadline = 0 then s
  else { s.modify i fun t => { t with blockDeadline := 0 } with
    nTimedBlocked := s.nTimedBlocked - 1 }

def taskWakeup (i : Slot) : Sched :=
  if (s.tasks i).state ≠ .blocked then s
  else
    ((s.blockClearDeadline i).modify i fun t =>
      { t with state := .ready, waitingForPid := 0 }).readyPush i

/-- `task_block_until` up to the switch; `deliverable` says that a signal is already waiting,
in which case the call returns at once. -/
def taskBlockUntil (deadline : ℕ) (deliverable : Bool) : Sched :=
  if deliverable then s
  else
    let s₁ := s.modify s.current fun t =>
      { t with blockTimedOut := false, blockInterrupted := false, blockInterruptible := true }
    let s₂ :=
      if deadline = 0 then s₁
      else { s₁.modify s.current fun t => { t with blockDeadline := deadline } with
        nTimedBlocked := s₁.nTimedBlocked + 1 }
    s₂.taskBlock (-1)

def taskBlockUntilReturn : Sched :=
  s.modify s.current fun t =>
    { t with blockTimedOut := false, blockInterrupted := false, blockInterruptible := false }

def taskInterrupt (i : Slot) : Sched :=
  if (s.tasks i).state = .blocked ∧ (s.tasks i).blockInterruptible then
    (s.modify i fun t => { t with blockInterrupted := true }).taskWakeup i
  else s

def waitsOnKey (phys : U64) (i : Slot) : Bool :=
  (s.tasks i).pid != 0 && (s.tasks i).state == .blocked && (s.tasks i).futexAddr == phys

def taskWakeFutex (phys : U64) : ℤ × Sched :=
  match taskSlots.find? (s.waitsOnKey phys) with
  | some i => (1, (s.modify i fun t => { t with futexAddr := 0#64 }).taskWakeup i)
  | none => (0, s)

def taskSleepTicks (now ticks : ℕ) : Sched :=
  if ticks = 0 then s
  else
    let s₁ := { s.schedRescheduleDone.modify s.current fun t =>
      { t with wakeTick := (now + ticks) % 2 ^ 64, state := .sleeping } with
      nSleeping := s.nSleeping + 1 }
    match s₁.readyPop with
    | (none, _) => s
    | (some next, s₂) => s₂.dispatch next

def wakeSleeper (now : ℕ) (i : Slot) : Sched :=
  let t := s.tasks i
  if t.pid = 0 then s
  else if t.state = .sleeping ∧ t.wakeTick ≤ now then
    { s.modify i fun t => { t with state := .ready } with nSleeping := s.nSleeping - 1 }.readyPush i
  else if t.state = .blocked ∧ t.blockDeadline ≠ 0 ∧ t.blockDeadline ≤ now then
    (s.modify i fun t => { t with blockTimedOut := true }).taskWakeup i
  else s

def schedWakeSleepers (now : ℕ) : Sched :=
  if s.nSleeping = 0 ∧ s.nTimedBlocked = 0 then s
  else taskSlots.foldl (fun s i => s.wakeSleeper now i) s

/-! ### Wait queues -/

def wqAdd (q : WaitQueue) : Sched :=
  { s with waitQueues := update s.waitQueues q (s.current :: s.waitQueues q) }

def wqRemoveAll (i : Slot) : Sched :=
  { s with waitQueues := fun q => (s.waitQueues q).filter fun j => j ≠ i }

def wqWakeAll (q : WaitQueue) : Sched := (s.waitQueues q).foldl taskWakeup s

/-- `wq_wait`, and `poll` with an entry on each of its objects, up to the switch. -/
def wqWait (qs : List WaitQueue) (deadline : ℕ) (deliverable : Bool) : Sched :=
  if deliverable then s.wqRemoveAll s.current
  else (qs.foldl wqAdd s).taskBlockUntil deadline false

def wqWaitReturn : Sched := s.taskBlockUntilReturn.wqRemoveAll s.current

/-! ### Exit records -/

/-- The loop of `exit_record_add`: the first free record, or else the oldest one. -/
def recordSlot : List (Fin taskExitRecords) → Fin taskExitRecords → Fin taskExitRecords
  | [], slot => slot
  | i :: is, slot =>
    if (s.exitRecords i).pid = 0 then i
    else recordSlot is (if (s.exitRecords i).seq < (s.exitRecords slot).seq then i else slot)

def recordSlots : List (Fin taskExitRecords) := List.finRange taskExitRecords

def exitRecordAdd (pid parentPid : ℕ) (code : ℤ) : Sched :=
  { s with
    exitRecords := update s.exitRecords (s.recordSlot recordSlots ⟨0,by decide⟩)
      ⟨pid,parentPid,code,s.exitRecordSeq + 1⟩
    exitRecordSeq := s.exitRecordSeq + 1 }

def exitRecordsDropParent (parentPid : ℕ) : Sched :=
  { s with exitRecords := fun i =>
      if (s.exitRecords i).pid ≠ 0 ∧ (s.exitRecords i).parentPid = parentPid then
        { s.exitRecords i with pid := 0 }
      else s.exitRecords i }

/-! ### Exit -/

def taskFind (pid : ℤ) : Option Slot :=
  if pid ≤ 0 then none else taskSlots.find? fun i => decide (((s.tasks i).pid : ℤ) = pid)

/-- What `mark_task_exited` learns from the kernel: the queues that its pipe ends wake when they are
released, and whether the parent handles `SIGCHLD` and can be interrupted for it. -/
structure ExitEvents where
  pipes : List ℕ
  sigchld : Bool

def releaseAwaited (i : Slot) : Sched :=
  let t := s.tasks i
  if t.state = .blocked ∧ t.waitingForPid > 0 then
    match s.taskFind t.waitingForPid with
    | some j =>
      if (s.tasks j).state = .zombie then s.modify j fun t => { t with unclaimed := true } else s
    | none => s
  else s

def taskVforkRelease (i : Slot) : Sched :=
  if (s.tasks i).vforkParent = 0 then s
  else (s.modify i fun t => { t with vforkParent := 0 }).wqWakeAll .vfork

def awaits (t : Task) (pid : ℕ) : Bool :=
  t.pid != 0 && t.state == .blocked && t.waitingForPid == (pid : ℤ)

/-- The sweep over the waiters of a pid: whether there was one, and the state with all of them
awake. -/
def wakeWaiters (pid : ℕ) : Bool × Sched :=
  taskSlots.foldl
    (fun r j => if awaits (r.2.tasks j) pid then (true, r.2.taskWakeup j) else r) (false, s)

def live (i : Slot) : Bool := (s.tasks i).state != .zombie && (s.tasks i).state != .dead

/-- Keep the exit code for a later `wait4`, unless somebody took it or nobody can ask. -/
def recordExit (claimed : Bool) (pid parentPid : ℕ) (code : ℤ) : Sched :=
  match s.taskFind parentPid with
  | some parent =>
    if !claimed && decide (parentPid > 0) && s.live parent then s.exitRecordAdd pid parentPid code
    else s
  | none => s

def signalChildExited (parentPid : ℕ) (sigchld : Bool) : Sched :=
  match s.taskFind parentPid with
  | some parent => if s.live parent ∧ sigchld then s.taskInterrupt parent else s
  | none => s

/-- The first half of `mark_task_exited`: the task gives up what it holds, and those who wait
for that are woken. -/
def lettingGo (i : Slot) (ev : ExitEvents) : Sched :=
  (ev.pipes.foldl (fun s n => s.wqWakeAll (.object n))
    (((s.releaseAwaited i).wqRemoveAll i).blockClearDeadline i)).taskVforkRelease i

def zombified (i : Slot) (code : ℤ) (ev : ExitEvents) : Sched :=
  (s.lettingGo i ev).modify i fun t => { t with state := .zombie, exitCode := code }

def markTaskExited (i : Slot) (code : ℤ) (ev : ExitEvents) : Sched :=
  let pid := (s.tasks i).pid
  let parentPid := (s.tasks i).parentPid
  let swept := (s.zombified i code ev).wakeWaiters pid
  let claimed := swept.1
  let s₁ := (swept.2.modify i fun t => { t with unclaimed := !claimed }).exitRecordsDropParent pid
  let s₂ := (s₁.recordExit claimed pid parentPid code).wqWakeAll .childExit
  s₂.signalChildExited parentPid ev.sigchld

def hasUserPml4 (i : Slot) : Bool :=
  (s.tasks i).vm != 0 && (s.vms (s.tasks i).vm).userPml4 != 0#64

def taskExit (code : ℤ) (ev : ExitEvents) : Sched :=
  if s.idleTask = some s.current ∨ (s.tasks s.current).vfsActive then s
  else
    let s₁ := s.schedRescheduleDone.markTaskExited s.current code ev
    match s₁.readyPop with
    | (some next, s₂) => s₂.dispatch next
    | (none, s₂) =>
      match s₂.idleTask with
      | some next => s₂.dispatch next
      | none => s

def taskExitThread : Sched :=
  if (s.tasks s.current).vfsActive then s
  else
    let s₁ := s.schedRescheduleDone.modify s.current fun t =>
      { t with state := .zombie, unclaimed := true }
    match (s₁.wakeWaiters (s.tasks s.current).pid).2.readyPop with
    | (none, _) => s
    | (some next, s₂) => s₂.dispatch next

/-- `last` says that the count of the shared address space reached zero. -/
def sysThreadExit (last : Bool) (ev : ExitEvents) : Sched :=
  if !s.hasUserPml4 s.current then s
  else if last then s.taskExit 0 ev
  else
    let vm := (s.tasks s.current).vm
    { s with vms := update s.vms vm { s.vms vm with userPml4 := 0#64 } }.taskExitThread

def taskFailReservedUser (i : Slot) (code : ℤ) (ev : ExitEvents) : Sched :=
  if (s.tasks i).state ≠ .loading then s else s.markTaskExited i code ev

/-- `task_kill`. For a loading task the loader is asked to cancel; `pending` says that it has
not begun. -/
def taskKill (pid : ℤ) (code : ℤ) (ev : ExitEvents) (pending : Bool) : ℤ × Sched :=
  match s.taskFind pid with
  | none => (-1, s)
  | some i =>
    let t := s.tasks i
    if t.vfsActive then (-1, s)
    else if t.state = .loading then
      (0, if pending then s.taskFailReservedUser i code ev else s)
    else if !s.hasUserPml4 i ∨ t.state = .zombie ∨ t.state = .dead then (-1, s)
    else if i = s.current then (0, s.taskExit code ev)
    else if t.state = .running then (-1, s)
    else if t.state = .ready then
      match s.readyRemove i with
      | none => (-1, s)
      | some s' => (0, s'.markTaskExited i code ev)
    else if t.state = .sleeping ∧ s.nSleeping > 0 then
      (0, { s with nSleeping := s.nSleeping - 1 }.markTaskExited i code ev)
    else (0, s.markTaskExited i code ev)

/-! ### Reaping -/

/-- The first half of `task_reap`: from here on nobody else reaps the task, though closing its
descriptors may let others run. -/
def taskReapClaim (i : Slot) : Sched :=
  if (s.tasks i).state ≠ .zombie ∨ (s.tasks i).vfsActive then s
  else s.modify i fun t => { t with state := .dead }

def taskReapFree (i : Slot) : Sched :=
  if (s.tasks i).state ≠ .dead then s
  else { s.modify i fun _ => Task.empty with next := update s.next i none }

def taskReap (i : Slot) : Sched :=
  if (s.tasks i).state ≠ .zombie ∨ (s.tasks i).vfsActive then s
  else (s.taskReapClaim i).taskReapFree i

def sharesOut (t : Task) : Bool := t.vm != 0 && decide ((s.vms t.vm).shmemSharedOut > 0)

def reapUnclaimedStep (s : Sched) (i : Slot) : Sched :=
  let t := s.tasks i
  if t.pid = 0 ∨ t.state ≠ .zombie ∨ !t.unclaimed ∨ i = s.current ∨ s.sharesOut t then s
  else s.taskReap i

def taskReapUnclaimed : Sched := taskSlots.foldl reapUnclaimedStep s

/-! ### New tasks -/

def freeSlot : Option Slot := taskSlots.find? fun i => (s.tasks i).pid == 0

/-- A free slot, reclaiming unclaimed zombies when the table is full. -/
def allocSlot : Option Slot × Sched :=
  match s.freeSlot with
  | some i => (some i, s)
  | none => ((s.taskReapUnclaimed).freeSlot, s.taskReapUnclaimed)

/-- How the allocations of a spawn turn out: the kernel stack, then the rest. -/
inductive Alloc where
  | ok | noStack | noState
  deriving DecidableEq

/-- The common course of the `task_spawn` family. The task is what `fill` makes of the slot's old
content and the new pid; a spawn that fails after its stack clears the slot, and has used up a pid
if it is taken `early`. A task that starts ready is queued. -/
def spawnWith (a : Alloc) (early : Bool) (fill : Task → ℕ → Task) : Option Slot × Sched :=
  match s.allocSlot with
  | (none, s₁) => (none, s₁)
  | (some i, s₁) =>
    match a with
    | .noStack => (none, s₁)
    | .noState =>
      (none, { s₁.modify i fun _ => Task.empty with
        next := update s₁.next i none
        nextPid := if early then s₁.nextPid + 1 else s₁.nextPid })
    | .ok =>
      let s₂ := { s₁.modify i fun t => fill t s₁.nextPid with nextPid := s₁.nextPid + 1 }
      (some i, if (s₂.tasks i).state = .ready then s₂.readyPush i else s₂)

def newVm (root : U64) : Sched :=
  { s with vms := update s.vms (s.nextVm + 1) ⟨root,0⟩, nextVm := s.nextVm + 1 }

def taskSpawn (a : Alloc) : Option Slot × Sched :=
  s.spawnWith a true fun t pid =>
    { t with
      state := .ready, prio := Level.normal.prio, pid := pid, parentPid := 0
      waitingForPid := 0, exitCode := 0, vm := 0 }

def taskSpawnUser (a : Alloc) (root : U64) (parentPid : ℕ) : Option Slot × Sched :=
  (s.newVm root).spawnWith a true fun t pid =>
    { t with
      state := .ready, prio := Level.normal.prio, pid := pid, parentPid := parentPid
      waitingForPid := 0, exitCode := 0, vm := s.nextVm + 1 }

def taskReserveUser (a : Alloc) (parentPid : ℕ) : Option Slot × Sched :=
  (s.newVm 0#64).spawnWith a true fun _ pid =>
    { Task.empty with
      state := .loading, prio := Level.normal.prio, pid := pid, parentPid := parentPid
      vm := s.nextVm + 1 }

/-- `refs` is the outcome of its allocation. -/
def taskActivateReservedUser (i : Slot) (root : U64) (refs : Bool) : Sched :=
  let t := s.tasks i
  if t.state ≠ .loading ∨ root = 0#64 ∨ t.vm = 0 ∨ !refs then s
  else
    ({ s with vms := update s.vms t.vm { s.vms t.vm with userPml4 := root } }.modify i
      fun t => { t with state := .ready }).readyPush i

def taskSpawnThread (a : Alloc) : Option Slot × Sched :=
  let parent := s.tasks s.current
  if !s.hasUserPml4 s.current then (none, s)
  else
    s.spawnWith a true fun t pid =>
      { t with
        state := .ready, prio := Level.normal.prio, pid := pid, parentPid := parent.pid
        waitingForPid := 0, exitCode := 0, isThread := true, vm := parent.vm }

def taskSpawnVfork (a : Alloc) : Option Slot × Sched :=
  let parent := s.tasks s.current
  if !s.hasUserPml4 s.current then (none, s)
  else
    s.spawnWith a false fun _ pid =>
      { Task.empty with
        state := .ready, prio := Level.normal.prio, pid := pid, parentPid := parent.pid
        vforkParent := parent.pid, vm := parent.vm }

def taskExecAddressSpace (root : U64) : Sched :=
  if (s.tasks s.current).vm = 0 then s
  else
    ((s.newVm root).modify s.current fun t => { t with vm := s.nextVm + 1 }).taskVforkRelease
      s.current

/-! ### Waiting for others -/

/-- One pass of the loop of `task_vfork_wait`: park until the child gives the address space
back. -/
def taskVforkWait (child : ℤ) : Sched :=
  match s.taskFind child with
  | none => s
  | some i =>
    if (s.tasks i).vforkParent ≠ (s.tasks s.current).pid then s
    else (s.wqAdd .vfork).taskBlock (-1)

def hasLiveChild (parent : ℕ) (pid : ℤ) : Bool :=
  taskSlots.any fun i =>
    let t := s.tasks i
    decide (t.pid ≠ 0 ∧ t.parentPid = parent ∧ ¬ t.isThread ∧ (pid = -1 ∨ (t.pid : ℤ) = pid)) &&
      s.live i

/-- The record `task_wait_child` reports: the oldest one that matches. -/
def findRecord (me : ℕ) (pid : ℤ) : Option (Fin taskExitRecords) :=
  recordSlots.foldl
    (fun found i =>
      let r := s.exitRecords i
      if r.pid ≠ 0 ∧ r.parentPid = me ∧ (pid = -1 ∨ (r.pid : ℤ) = pid) ∧
          (∀ j ∈ found, r.seq < (s.exitRecords j).seq) then some i
      else found) none

/-- How a pass of `task_wait_child` ends: with a result and the exit code it stores, or parked
until some process exits. -/
inductive WaitResult where
  | returned (rc : ℤ) (code : Option ℤ)
  | parked
  deriving DecidableEq

def taskWaitChild (pid : ℤ) (nohang deliverable : Bool) : WaitResult × Sched :=
  let me := (s.tasks s.current).pid
  if pid ≠ -1 ∧ pid ≤ 0 then (.returned (-EINVAL) none, s)
  else
    match s.findRecord me pid with
    | some i =>
      let r := s.exitRecords i
      (.returned r.pid (some r.code),
        { s with exitRecords := update s.exitRecords i { r with pid := 0 } })
    | none =>
      if !s.hasLiveChild me pid then (.returned (-ECHILD) none, s)
      else if nohang then (.returned 0 none, s)
      else if deliverable then (.returned (-EINTR) none, s.wqRemoveAll s.current)
      else (.parked, s.wqWait [.childExit] 0 false)

/-- The pass that follows when the parked caller runs again; an interrupted one returns. -/
def taskWaitChildResume (pid : ℤ) (nohang deliverable : Bool) : WaitResult × Sched :=
  if (s.tasks s.current).blockInterrupted then (.returned (-EINTR) none, s.wqWaitReturn)
  else s.wqWaitReturn.taskWaitChild pid nohang deliverable

def sysThreadJoin (tid : ℤ) : Sched :=
  match s.taskFind tid with
  | none => s
  | some i => if (s.tasks i).state = .zombie then s else s.taskBlock tid

end Sched

theorem zero_lt_maxTasks : 0 < maxTasks := by decide

/-- Everything zero, with the bootstrap task in the first slot. -/
def bootstrap : Sched where
  tasks := update (fun _ => Task.empty) ⟨0,zero_lt_maxTasks⟩
    { Task.empty with pid := 1, prio := Level.normal.prio }
  next _ := none
  ready _ := ⟨none,none⟩
  current := ⟨0,zero_lt_maxTasks⟩
  idleTask := none
  highStreak := 0
  lowStarve := 0
  needResched := false
  sliceTicks := 0
  nSleeping := 0
  nTimedBlocked := 0
  nextPid := 2
  vms _ := ⟨0#64,0⟩
  nextVm := 0
  waitQueues _ := []
  exitRecords _ := ⟨0,0,0,0⟩
  exitRecordSeq := 0

/-- The idle task is spawned like any other and taken off its queue. -/
def schedInit : Sched :=
  match bootstrap.taskSpawn .ok with
  | (none, s) => s
  | (some idle, s) => { (s.readyRemove idle).getD s with idleTask := some idle }

inductive Op where
  | spawn (a : Sched.Alloc)
  | spawnUser (a : Sched.Alloc) (root : U64) (parentPid : ℕ)
  | reserveUser (a : Sched.Alloc) (parentPid : ℕ)
  | activateReserved (i : Slot) (root : U64) (refs : Bool)
  | failReserved (i : Slot) (code : ℤ) (ev : Sched.ExitEvents)
  | spawnThread (a : Sched.Alloc)
  | spawnVfork (a : Sched.Alloc)
  | setPriority (i : Slot) (prio : ℤ)
  | yield
  | preemptTick (quantum : ℕ)
  | block (waitingForPid : ℤ)
  | blockUntil (deadline : ℕ) (deliverable : Bool)
  | wqWait (qs : List WaitQueue) (deadline : ℕ) (deliverable : Bool)
  | wqReturn
  | vforkWait (child : ℤ)
  | futexWait (phys : U64)
  | wakeup (i : Slot)
  | wakeAll (q : WaitQueue)
  | interrupt (i : Slot)
  | wakeFutex (phys : U64)
  | sleepTicks (now ticks : ℕ)
  | wakeSleepers (now : ℕ)
  | threadJoin (tid : ℤ)
  | waitChild (pid : ℤ) (nohang deliverable : Bool)
  | waitChildResume (pid : ℤ) (nohang deliverable : Bool)
  | kill (pid code : ℤ) (ev : Sched.ExitEvents) (pending : Bool)
  | exit (code : ℤ) (ev : Sched.ExitEvents)
  | threadExit (last : Bool) (ev : Sched.ExitEvents)
  | exec (root : U64)
  | shmemShare
  | vfsActive (active : Bool)
  | reapClaim (i : Slot)
  | reapFree (i : Slot)
  | reap (i : Slot)
  | reapUnclaimed

/-- The operations in which the caller gives up the CPU other than by yielding. -/
def Op.parks : Op → Bool
  | .block _ | .blockUntil .. | .wqWait .. | .vforkWait _ | .futexWait _ | .sleepTicks ..
  | .threadJoin _ | .waitChild .. | .waitChildResume .. | .exit .. | .threadExit .. => true
  | _ => false

def apply (s : Sched) : Op → Sched
  | .spawn a => (s.taskSpawn a).2
  | .spawnUser a root parentPid => (s.taskSpawnUser a root parentPid).2
  | .reserveUser a parentPid => (s.taskReserveUser a parentPid).2
  | .activateReserved i root refs => s.taskActivateReservedUser i root refs
  | .failReserved i code ev => s.taskFailReservedUser i code ev
  | .spawnThread a => (s.taskSpawnThread a).2
  | .spawnVfork a => (s.taskSpawnVfork a).2
  | .setPriority i prio => s.schedSetPriority i prio
  | .yield => s.taskYield
  | .preemptTick quantum => s.schedPreemptTick quantum
  | .block pid => s.taskBlock pid
  | .blockUntil deadline deliverable => s.taskBlockUntil deadline deliverable
  | .wqWait qs deadline deliverable => s.wqWait qs deadline deliverable
  | .wqReturn => s.wqWaitReturn
  | .vforkWait child => s.taskVforkWait child
  | .futexWait phys => (s.modify s.current fun t => { t with futexAddr := phys }).taskBlock 0
  | .wakeup i => s.taskWakeup i
  | .wakeAll q => s.wqWakeAll q
  | .interrupt i => s.taskInterrupt i
  | .wakeFutex phys => (s.taskWakeFutex phys).2
  | .sleepTicks now ticks => s.taskSleepTicks now ticks
  | .wakeSleepers now => s.schedWakeSleepers now
  | .threadJoin tid => s.sysThreadJoin tid
  | .waitChild pid nohang deliverable => (s.taskWaitChild pid nohang deliverable).2
  | .waitChildResume pid nohang deliverable => (s.taskWaitChildResume pid nohang deliverable).2
  | .kill pid code ev pending => (s.taskKill pid code ev pending).2
  | .exit code ev => s.taskExit code ev
  | .threadExit last ev => s.sysThreadExit last ev
  | .exec root => s.taskExecAddressSpace root
  | .shmemShare =>
    let vm := (s.tasks s.current).vm
    let r := s.vms vm
    { s with vms := update s.vms vm { r with shmemSharedOut := r.shmemSharedOut + 1 } }
  | .vfsActive active => s.modify s.current fun t => { t with vfsActive := active }
  | .reapClaim i => s.taskReapClaim i
  | .reapFree i => s.taskReapFree i
  | .reap i => s.taskReap i
  | .reapUnclaimed => s.taskReapUnclaimed

/-- One call into the scheduler. The loop of `idle_thread` calls nothing but `task_yield`, so
the idle task never parks. -/
def step (s : Sched) (op : Op) : Sched :=
  if s.idleTask = some s.current ∧ op.parks then s else apply s op

-- loops over the whole table, which the unifier must not run
attribute [irreducible] Sched.wakeWaiters Sched.taskReapUnclaimed Sched.schedWakeSleepers

end GaiaKernel.Scheduler
