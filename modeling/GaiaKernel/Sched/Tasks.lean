import GaiaKernel.Lib.Trace
import Mathlib.Data.PNat.Basic

/-! # Tasks and the lifetime of their address spaces

The part of sched/sched.c that creates, shares, replaces and tears down `struct task_vm` records,
with `sys_thread_exit` from arch/syscall.c. Records and reference-count cells are heap objects named
by their addresses, page tables by their roots. The address a `kmalloc` returns is an argument of
the operation; one that is null or in use stands for a failure. Freeing or following an address that
is not allocated raises `fault`.
-/
namespace GaiaKernel.Sched
open Function

def maxTasks : ℕ := 32

inductive TaskState where
  | running | blocked | zombie | ready | dead | sleeping | loading
  deriving DecidableEq

/-- The fields of `struct task` that decide about its address space. `given` is a history
variable: the page-table root and count cell the task was created or activated with. -/
structure Task where
  pid : ℕ
  parentPid : ℕ
  state : TaskState
  waitingForPid : ℤ
  unclaimed : Bool
  vforkParent : ℕ
  vfsActive : Bool
  isThread : Bool
  vm : Option ℕ
  given : Option (ℕ × ℕ)

def Task.empty : Task := ⟨0,0,.running,0,false,0,false,false,none,none⟩

structure VmRecord where
  userPml4 : Option ℕ
  pml4RefCount : Option ℕ
  shmemSharedOut : ℤ

structure Kernel where
  tasks : Fin maxTasks → Task
  current : Fin maxTasks
  nextPid : ℕ+
  vms : ℕ → Option VmRecord
  refs : ℕ → Option ℤ
  roots : ℕ → Bool
  fault : Bool

def taskSlots : List (Fin maxTasks) := List.finRange maxTasks

namespace Kernel
variable (k : Kernel)

def setTask (i : Fin maxTasks) (t : Task) : Kernel :=
  { k with tasks := update k.tasks i t }

def setVm (p : ℕ) (r : Option VmRecord) : Kernel := { k with vms := update k.vms p r }
def setRef (c : ℕ) (n : Option ℤ) : Kernel := { k with refs := update k.refs c n }

def kfreeVm (p : ℕ) : Kernel :=
  if (k.vms p).isSome then k.setVm p none else { k with fault := true }

def kfreeRef (c : ℕ) : Kernel :=
  if (k.refs c).isSome then k.setRef c none else { k with fault := true }

def freeUserPml4 (root : ℕ) : Kernel :=
  if k.roots root then { k with roots := update k.roots root false }
  else { k with fault := true }

@[simp] theorem tasks_kfreeVm (p : ℕ) : (k.kfreeVm p).tasks = k.tasks := by
  unfold kfreeVm; split <;> rfl

@[simp] theorem current_kfreeVm (p : ℕ) : (k.kfreeVm p).current = k.current := by
  unfold kfreeVm; split <;> rfl

@[simp] theorem tasks_kfreeRef (c : ℕ) : (k.kfreeRef c).tasks = k.tasks := by
  unfold kfreeRef; split <;> rfl

@[simp] theorem current_kfreeRef (c : ℕ) : (k.kfreeRef c).current = k.current := by
  unfold kfreeRef; split <;> rfl

@[simp] theorem tasks_freeUserPml4 (root : ℕ) : (k.freeUserPml4 root).tasks = k.tasks := by
  unfold freeUserPml4; split <;> rfl

@[simp] theorem current_freeUserPml4 (root : ℕ) : (k.freeUserPml4 root).current = k.current := by
  unfold freeUserPml4; split <;> rfl

def kmallocVm (p : ℕ) : Bool := p != 0 && (k.vms p).isNone
def kmallocRef (c : ℕ) : Bool := c != 0 && (k.refs c).isNone

def taskFind (pid : ℤ) : Option (Fin maxTasks) :=
  if pid ≤ 0 then none else taskSlots.find? fun i => decide (((k.tasks i).pid : ℤ) = pid)

def awaits (t : Task) (pid : ℕ) : Bool :=
  t.pid != 0 && t.state == .blocked && t.waitingForPid == (pid : ℤ)

def wakeAwaiting (pid : ℕ) : Kernel :=
  { k with tasks := fun j =>
      if awaits (k.tasks j) pid then { k.tasks j with state := .ready, waitingForPid := 0 }
      else k.tasks j }

def releaseAwaited (i : Fin maxTasks) : Kernel :=
  let t := k.tasks i
  if t.state = .blocked ∧ t.waitingForPid > 0 then
    match k.taskFind t.waitingForPid with
    | some j =>
      if (k.tasks j).state = .zombie then k.setTask j { k.tasks j with unclaimed := true } else k
    | none => k
  else k

/-- The task becomes a zombie, up for reaping at once unless somebody was waiting for it. -/
def markTaskExited (i : Fin maxTasks) : Kernel :=
  let pid := (k.tasks i).pid
  let k₁ := k.releaseAwaited i
  let k₂ := k₁.setTask i { k₁.tasks i with vforkParent := 0, state := .zombie }
  let claimed := taskSlots.any fun j => awaits (k₂.tasks j) pid
  let k₃ := k₂.wakeAwaiting pid
  k₃.setTask i { k₃.tasks i with unclaimed := !claimed }

/-- Hand the CPU to a ready task; without one the kernel halts, which is no step. -/
def dispatch (next : Fin maxTasks) : Kernel :=
  { k.setTask next { k.tasks next with state := .running } with current := next }

def canRun (next : Fin maxTasks) : Bool :=
  (k.tasks next).pid != 0 && (k.tasks next).state == .ready

/-- `task_yield`, `task_block` and `task_sleep_ticks`: park the running task and hand the
CPU on. -/
def taskSwitch (parked : TaskState) (waitingFor : ℤ) (next : Fin maxTasks) : Kernel :=
  if (parked = .ready ∨ parked = .blocked ∨ parked = .sleeping) ∧ k.canRun next then
    (k.setTask k.current
      { k.tasks k.current with state := parked, waitingForPid := waitingFor }).dispatch next
  else k

def taskWakeup (i : Fin maxTasks) : Kernel :=
  if (k.tasks i).state = .blocked ∨ (k.tasks i).state = .sleeping then
    k.setTask i { k.tasks i with state := .ready, waitingForPid := 0 }
  else k

def setVfsActive (b : Bool) : Kernel :=
  k.setTask k.current { k.tasks k.current with vfsActive := b }

def taskExit (next : Fin maxTasks) : Kernel :=
  if (k.tasks k.current).vfsActive then k
  else
    let k' := k.markTaskExited k.current
    if k'.canRun next then k'.dispatch next else k

def taskReleaseAddressSpace (i : Fin maxTasks) : Kernel :=
  match (k.tasks i).vm with
  | none => k
  | some p =>
    match k.vms p with
    | none => { k with fault := true }
    | some r =>
      match r.userPml4, r.pml4RefCount with
      | none, _ => k
      | some root, none => (k.freeUserPml4 root).setVm p (some { r with userPml4 := none })
      | some root, some c =>
        match k.refs c with
        | none => { k with fault := true }
        | some n =>
          let k₁ := k.setRef c (some (n - 1))
          if n - 1 > 0 then k₁.setTask i { k₁.tasks i with vm := none }
          else
            ((k₁.freeUserPml4 root).kfreeRef c).setVm p
              (some { r with userPml4 := none, pml4RefCount := none })

def taskStateFree (i : Fin maxTasks) : Kernel :=
  match (k.tasks i).vm with
  | none => k
  | some p => (k.kfreeVm p).setTask i { k.tasks i with vm := none }

def taskReap (i : Fin maxTasks) : Kernel :=
  if (k.tasks i).state ≠ .zombie ∨ (k.tasks i).vfsActive then k
  else
    let k₁ := k.setTask i { k.tasks i with state := .dead }
    ((k₁.taskReleaseAddressSpace i).taskStateFree i).setTask i Task.empty

def sharesOut (t : Task) : Bool :=
  match t.vm.bind k.vms with
  | some r => decide (r.shmemSharedOut > 0)
  | none => false

def reapUnclaimedStep (k : Kernel) (i : Fin maxTasks) : Kernel :=
  let t := k.tasks i
  if t.pid = 0 ∨ t.state ≠ .zombie ∨ !t.unclaimed ∨ i = k.current ∨ k.sharesOut t then k
  else k.taskReap i

def taskReapUnclaimed : Kernel := taskSlots.foldl reapUnclaimedStep k
def freeSlot : Option (Fin maxTasks) := taskSlots.find? fun i => (k.tasks i).pid == 0

/-- A free slot, reclaiming unclaimed zombies when the table is full. -/
def allocSlot : Option (Fin maxTasks) × Kernel :=
  match k.freeSlot with
  | some i => (some i, k)
  | none =>
    let k' := k.taskReapUnclaimed
    (k'.freeSlot, k')

def newTask (pid parentPid : ℕ) (state : TaskState) (p : ℕ) (given : Option (ℕ × ℕ)) : Task :=
  { Task.empty with pid := pid, parentPid := parentPid, state := state, vm := some p, given := given }

/-- `task_spawn_user`, called with page tables at `root` that the loader has just built; the
loader frees them again when no task comes of it. -/
def taskSpawnUser (root p c parentPid : ℕ) : Kernel :=
  match k.allocSlot with
  | (none, k₁) => k₁
  | (some i, k₁) =>
    if k₁.roots root || !k₁.kmallocVm p || !k₁.kmallocRef c then
      { k₁ with nextPid := k₁.nextPid + 1 }
    else
      let k₂ := (k₁.setVm p (some ⟨some root,some c,0⟩)).setRef c (some 1)
      let k₃ := k₂.setTask i (newTask k₁.nextPid parentPid .ready p (some (root, c)))
      { k₃ with nextPid := k₁.nextPid + 1, roots := update k₁.roots root true }

/-- A loading task whose record has no address space yet. -/
def taskReserveUser (p parentPid : ℕ) : Kernel :=
  match k.allocSlot with
  | (none, k₁) => k₁
  | (some i, k₁) =>
    if !k₁.kmallocVm p then { k₁ with nextPid := k₁.nextPid + 1 }
    else
      let k₂ := k₁.setVm p (some ⟨none,none,0⟩)
      { k₂.setTask i (newTask k₁.nextPid parentPid .loading p none) with
        nextPid := k₁.nextPid + 1 }

def taskActivateReservedUser (i : Fin maxTasks) (root c : ℕ) : Kernel :=
  let t := k.tasks i
  if t.state ≠ .loading ∨ k.roots root then k
  else
    match t.vm with
    | none => k
    | some p =>
      match k.vms p with
      | none => { k with fault := true }
      | some r =>
        if !k.kmallocRef c then k
        else
          let k₁ := k.setRef c (some 1)
          let k₂ := k₁.setVm p (some { r with userPml4 := some root, pml4RefCount := some c })
          let k₃ := k₂.setTask i { t with state := .ready, given := some (root, c) }
          { k₃ with roots := update k.roots root true }

def taskFailReservedUser (i : Fin maxTasks) : Kernel :=
  if (k.tasks i).state ≠ .loading then k else k.markTaskExited i

/-- What `task_spawn_thread` and `task_spawn_vfork` share: the record allocated for the child at `p`
is dropped again, and the child joins the record of the running task. -/
def spawnSharing (p : ℕ) (child : Task) : Kernel :=
  match (k.tasks k.current).vm with
  | none => k
  | some q =>
    match k.vms q with
    | none => { k with fault := true }
    | some r =>
      match r.userPml4, r.pml4RefCount with
      | some _, some c =>
        match k.allocSlot with
        | (none, k₁) => k₁
        | (some i, k₁) =>
          if !k₁.kmallocVm p then k₁
          else
            match k₁.refs c with
            | none => { k₁ with fault := true }
            | some n =>
              let k₂ := k₁.setRef c (some (n + 1))
              { k₂.setTask i { child with pid := k₁.nextPid, vm := some q } with
                nextPid := k₁.nextPid + 1 }
      | _, _ => k

def taskSpawnThread (p : ℕ) : Kernel :=
  let parent := k.tasks k.current
  k.spawnSharing p { Task.empty with
    parentPid := parent.pid, state := .ready, isThread := true, given := parent.given }

def taskSpawnVfork (p : ℕ) : Kernel :=
  let parent := k.tasks k.current
  k.spawnSharing p { Task.empty with
    parentPid := parent.pid, state := .ready, vforkParent := parent.pid, given := parent.given }

/-- `task_exec_address_space`, with the record, the count cell and the page tables that
`process_execve` allocated and built beforehand. -/
def taskExecAddressSpace (root p c : ℕ) : Kernel :=
  if k.roots root || !k.kmallocVm p || !k.kmallocRef c then k
  else
    let t := k.tasks k.current
    let k₁ := (k.setVm p (some ⟨some root,some c,0⟩)).setRef c (some 1)
    let k₂ := { k₁ with roots := update k₁.roots root true }
    let k₃ := k₂.setTask k.current { t with vm := some p, given := some (root, c), vforkParent := 0 }
    match t.vm with
    | none => k₃
    | some old =>
      match k₃.vms old with
      | none => { k₃ with fault := true }
      | some r =>
        match r.userPml4 with
        | none => k₃
        | some oldRoot =>
          match r.pml4RefCount with
          | some d =>
            match k₃.refs d with
            | none => { k₃ with fault := true }
            | some n =>
              let k₄ := k₃.setRef d (some (n - 1))
              if n - 1 > 0 then k₄
              else
                let k₅ := k₄.kfreeRef d
                if r.shmemSharedOut > 0 then
                  k₅.setVm old (some { r with pml4RefCount := none })
                else (k₅.freeUserPml4 oldRoot).kfreeVm old
          | none => if r.shmemSharedOut > 0 then k₃ else (k₃.freeUserPml4 oldRoot).kfreeVm old

def taskExitThread (next : Fin maxTasks) : Kernel :=
  let me := k.tasks k.current
  if me.vfsActive then k
  else
    let k₁ := k.setTask k.current { me with state := .zombie, unclaimed := true }
    let k₂ := k₁.wakeAwaiting me.pid
    if k₂.canRun next then k₂.dispatch next else k₂

def threadExitTarget : Option (ℕ × VmRecord × ℕ) :=
  match (k.tasks k.current).vm with
  | none => none
  | some p =>
    match k.vms p with
    | none => none
    | some r => r.pml4RefCount.map fun c => (p, r, c)

def sysThreadExit (next : Fin maxTasks) : Kernel :=
  match k.threadExitTarget with
  | none => k
  | some (p, r, c) =>
    match k.refs c with
    | none => { k with fault := true }
    | some n =>
      let k₁ := k.setRef c (some (n - 1))
      if n - 1 ≤ 0 then
        ((k₁.kfreeRef c).setVm p (some { r with pml4RefCount := none })).taskExit next
      else
        (k₁.setVm p (some { r with userPml4 := none, pml4RefCount := none })).taskExitThread next

/-- `task_kill`. For a loading task the loader is asked to cancel; `cancelled` says that it
had not begun. `dequeued` is the result of `ready_remove`. -/
def taskKill (pid : ℤ) (next : Fin maxTasks) (cancelled dequeued : Bool) : Kernel :=
  match k.taskFind pid with
  | none => k
  | some i =>
    let t := k.tasks i
    if t.vfsActive then k
    else if t.state = .loading then
      if cancelled then k.taskFailReservedUser i else k
    else
      match t.vm with
      | none => k
      | some p =>
        match k.vms p with
        | none => { k with fault := true }
        | some r =>
          if r.userPml4.isNone ∨ t.state = .zombie ∨ t.state = .dead then k
          else if i = k.current then k.taskExit next
          else if t.state = .running then k
          else if t.state = .ready ∧ !dequeued then k
          else k.markTaskExited i

end Kernel

inductive Op where
  | spawnUser (root p c parentPid : ℕ)
  | reserveUser (p parentPid : ℕ)
  | activateReserved (i : Fin maxTasks) (root c : ℕ)
  | failReserved (i : Fin maxTasks)
  | spawnThread (p : ℕ)
  | spawnVfork (p : ℕ)
  | threadExit (next : Fin maxTasks)
  | exit (next : Fin maxTasks)
  | kill (pid : ℤ) (next : Fin maxTasks) (cancelled dequeued : Bool)
  | exec (root p c : ℕ)
  | reap (i : Fin maxTasks)
  | reapUnclaimed
  | switch (parked : TaskState) (waitingFor : ℤ) (next : Fin maxTasks)
  | wakeup (i : Fin maxTasks)
  | vfs (active : Bool)

def step (k : Kernel) : Op → Kernel
  | .spawnUser root p c parentPid => k.taskSpawnUser root p c parentPid
  | .reserveUser p parentPid => k.taskReserveUser p parentPid
  | .activateReserved i root c => k.taskActivateReservedUser i root c
  | .failReserved i => k.taskFailReservedUser i
  | .spawnThread p => k.taskSpawnThread p
  | .spawnVfork p => k.taskSpawnVfork p
  | .threadExit next => k.sysThreadExit next
  | .exit next => k.taskExit next
  | .kill pid next cancelled dequeued => k.taskKill pid next cancelled dequeued
  | .exec root p c => k.taskExecAddressSpace root p c
  | .reap i => k.taskReap i
  | .reapUnclaimed => k.taskReapUnclaimed
  | .switch parked waitingFor next => k.taskSwitch parked waitingFor next
  | .wakeup i => k.taskWakeup i
  | .vfs active => k.setVfsActive active

end GaiaKernel.Sched
