import GaiaKernel.Loader.Process
import GaiaKernel.Memory.SharePages

/-! # Processes and their address spaces

The system around memory/uvm.c: processes that reserve, fault in, release and discard pages, lend
pages to each other, replace their image, exit and are reaped. A process is an address space with
the tasks that use it, so the release of a reference that is not the last does not show, and `exec`
by one of several such tasks is a `spawn`.
-/
namespace GaiaKernel.Spaces
open Function

structure Proc where
  vm : TaskVm
  zombie : Bool
  unclaimed : Bool

structure State where
  procs : ℕ → Option Proc
  phys : Phys

def maxShmemPages : ℤ := 4096

def freshVm (pml4 brkBase : U64) : TaskVm :=
  TaskVm.uvmInit
    { userPml4 := some pml4, brkBase := brkBase, brkCurrent := brkBase, shmemNextVa := 0,
      mmapNextVa := 0, mmapHoles := fun _ => VmHole.empty, vmas := fun _ => UserVma.empty,
      shmemSharedOut := 0 }

namespace State
variable (s : State)

def rootOf (pid : ℕ) : Option U64 := (s.procs pid).bind fun p => p.vm.userPml4

def running (pid : ℕ) : Option TaskVm :=
  (s.procs pid).bind fun p => if p.zombie then none else some p.vm

def modifyVm (pid : ℕ) (f : TaskVm → TaskVm) : State :=
  { s with procs := update s.procs pid ((s.procs pid).map fun p => { p with vm := f p.vm }) }

def taskFind (pid : ℤ) : Option ℕ :=
  if pid ≤ 0 then none else if (s.procs pid.toNat).isSome then some pid.toNat else none

def space (pid : ℕ) : Option (TaskVm × U64) :=
  (s.procs pid).bind fun p => p.vm.userPml4.map fun r => (p.vm, r)

def shareBase (vm : TaskVm) : U64 :=
  if vm.shmemNextVa = 0#64 then 0x80000000#64 else vm.shmemNextVa

/-- A share whose arguments were accepted: the two roots, the first target address, and
physical memory once the result slot is faulted in. -/
structure ShareCall where
  pml4 : U64
  target : ℕ
  targetPml4 : U64
  targetVa : U64
  phys : Phys

/-- The checks of `sys_shmem_share`; the second component is physical memory after them. -/
def shareChecks (me : ℕ) (targetPid inVa npages outTargetVa : U64) : Except Errno ShareCall × Phys :=
  if outTargetVa = 0#64 then (.error .efault, s.phys)
  else if targetPid.toInt ≤ 0 ∨ npages.toInt ≤ 0 then (.error .einval, s.phys)
  else if npages.toInt > maxShmemPages then (.error .einval, s.phys)
  else if has inVa 0xFFF#64 then (.error .einval, s.phys)
  else
    match s.space me with
    | none => (.error .einval, s.phys)
    | some (vm, pml4) =>
      match (s.taskFind (targetPid.setWidth 32).toInt).bind fun t => (s.space t).map (t, ·) with
      | none => (.error .esrch, s.phys)
      | some (target, targetVm, targetPml4) =>
        match vm.uvmBufferOk s.phys outTargetVa 8 true with
        | (false, ph) => (.error .efault, ph)
        | (true, ph) => (.ok ⟨pml4,target,targetPml4,shareBase targetVm,ph⟩, ph)

def sysShmemShare (me : ℕ) (targetPid inVa npages outTargetVa : U64) :
    Except Errno Unit × State :=
  match s.shareChecks me targetPid inVa npages outTargetVa with
  | (.error e, ph) => (.error e, { s with phys := ph })
  | (.ok c, _) =>
    match sharePages c.pml4 c.targetPml4 npages.toNat inVa c.targetVa c.phys with
    | (.error e, ph) =>
      (.error e, { s with phys := ph }.modifyVm c.target ({ · with shmemNextVa := c.targetVa }))
    | (.ok _, ph) =>
      let next := c.targetVa + npages * 4096
      let s' := { s with phys := ph }.modifyVm c.target ({ · with shmemNextVa := next })
      (.ok (), s'.modifyVm me fun v => { v with shmemSharedOut := v.shmemSharedOut + npages.toInt })

def sysShmemUnshare (me : ℕ) (targetPid va npages : U64) : Except Errno Unit × State :=
  if targetPid.toInt ≤ 0 ∨ npages.toInt ≤ 0 ∨ npages.toInt > maxShmemPages then (.error .einval, s)
  else if has va 0xFFF#64 then (.error .einval, s)
  else
    match s.space me with
    | none => (.error .einval, s)
    | some _ =>
      match (s.taskFind (targetPid.setWidth 32).toInt).bind fun t => s.rootOf t with
      | none => (.error .esrch, s)
      | some targetPml4 =>
        let bytes := npages * 4096
        if va < userShmemBase ∨ !uvmRangeOk va bytes then (.error .einval, s)
        else
          let r := unsharePages targetPml4 npages.toNat va s.phys
          (.ok (), { s with phys := r.2 }.modifyVm me fun v =>
            { v with shmemSharedOut := if (r.1 : ℤ) ≥ v.shmemSharedOut then 0 else v.shmemSharedOut - r.1 })

def spawn (k : KernelTables) (pid : ℕ) (steps : List LoadStep) (ok : Bool) (brkBase : U64) : State :=
  if (s.procs pid).isSome then s
  else
    match s.phys.loadImage k steps ok with
    | (none, ph) => { s with phys := ph }
    | (some r, ph) =>
      ⟨update s.procs pid (some ⟨freshVm r brkBase,false,false⟩),ph⟩

/-- `process_execve`: the old image goes unless it is recorded as lent out. -/
def exec (k : KernelTables) (pid : ℕ) (steps : List LoadStep) (ok : Bool) (brkBase : U64) : State :=
  match s.running pid with
  | none => s
  | some old =>
    match s.phys.loadImage k steps ok with
    | (none, ph) => { s with phys := ph }
    | (some r, ph) =>
      let s' := { s with phys := ph }.modifyVm pid fun _ => freshVm r brkBase
      match old.userPml4 with
      | none => s'
      | some pml4 =>
        if old.shmemSharedOut > 0 then s' else { s' with phys := Phys.freeUserPml4 pml4 ph }

def exit (pid : ℕ) (unclaimed : Bool) : State :=
  let p' := (s.procs pid).map fun p => { p with zombie := true, unclaimed := unclaimed }
  { s with procs := update s.procs pid p' }

def reap (pid : ℕ) : State :=
  match s.procs pid with
  | none => s
  | some p =>
    if !p.zombie then s
    else
      let procs := update s.procs pid none
      match p.vm.userPml4 with
      | none => { s with procs := procs }
      | some pml4 => ⟨procs,Phys.freeUserPml4 pml4 s.phys⟩

def reapUnclaimed (pid : ℕ) : State :=
  match s.procs pid with
  | none => s
  | some p =>
    if !p.zombie || !p.unclaimed then s
    else if p.vm.shmemSharedOut > 0 then s
    else s.reap pid

end State

inductive Op where
  | spawn (pid : ℕ) (steps : List LoadStep) (ok : Bool) (brkBase : U64)
  | reserve (pid : ℕ) (addr bytes pteFlags : U64) (fixed : Bool)
  | faultIn (pid : ℕ) (addr : U64) (writable : Bool)
  | release (pid : ℕ) (addr bytes : U64)
  | discard (pid : ℕ) (addr bytes : U64)
  | share (me : ℕ) (targetPid inVa npages outTargetVa : U64)
  | unshare (me : ℕ) (targetPid va npages : U64)
  | exec (pid : ℕ) (steps : List LoadStep) (ok : Bool) (brkBase : U64)
  | exit (pid : ℕ) (unclaimed : Bool)
  | reap (pid : ℕ)
  | reapUnclaimed (pid : ℕ)

def step (k : KernelTables) (s : State) : Op → State
  | .spawn pid steps ok brkBase => s.spawn k pid steps ok brkBase
  | .reserve pid addr bytes flags fixed =>
    match s.running pid with
    | none => s
    | some vm => s.modifyVm pid fun _ => (vm.uvmReserve s.phys addr bytes flags fixed).2
  | .faultIn pid addr writable =>
    match s.running pid with
    | none => s
    | some vm => { s with phys := (vm.uvmFaultIn s.phys addr writable).2 }
  | .release pid addr bytes =>
    match s.running pid with
    | none => s
    | some vm =>
      let r := vm.uvmRelease s.phys addr bytes
      { s with phys := r.2.2 }.modifyVm pid fun _ => r.2.1
  | .discard pid addr bytes =>
    match s.running pid with
    | none => s
    | some vm => { s with phys := (vm.uvmDiscard s.phys addr bytes).2 }
  | .share me targetPid inVa npages out =>
    match s.running me with
    | none => s
    | some _ => (s.sysShmemShare me targetPid inVa npages out).2
  | .unshare me targetPid va npages =>
    match s.running me with
    | none => s
    | some _ => (s.sysShmemUnshare me targetPid va npages).2
  | .exec pid steps ok brkBase => s.exec k pid steps ok brkBase
  | .exit pid unclaimed => s.exit pid unclaimed
  | .reap pid => s.reap pid
  | .reapUnclaimed pid => s.reapUnclaimed pid

end GaiaKernel.Spaces
