import GaiaKernel.Errno
import GaiaKernel.Lib.Circular
import GaiaKernel.Lib.Trace
import GaiaKernel.Memory.Word
import Mathlib.Algebra.BigOperators.Group.Finset.Basic

/-! # Anonymous pipes

The byte ring of msg/pipe.c and the tasks that use it. Interrupts are off from the entry of a call
to its return or its next wait, so one step is the stretch of a call between two waits. A waiting
task may be woken at any time and checks its condition again. Every task has descriptors of its own,
and a waiting task closes none of them.
-/
namespace GaiaKernel.Pipes
open Bytes Circular

def pipeCapacity : ℕ := 4096
def pipeBuf : ℕ := 512

structure Pipe where
  data : ℕ → Byte
  head : ℕ
  count : ℕ
  readers : ℕ
  writers : ℕ

namespace Pipe
variable (p : Pipe)

def create : Pipe := ⟨fun _ => 0,0,0,1,1⟩
def contents : List Byte := view pipeCapacity p.data p.head p.count

def take (n : ℕ) : List Byte × Pipe :=
  let chunk := if n < p.count then n else p.count
  let first := pipeCapacity - p.head
  let first := if first > chunk then chunk else first
  (slice p.data p.head first ++ slice p.data 0 (chunk - first),
    { p with head := (p.head + chunk) % pipeCapacity, count := p.count - chunk })

def put (bytes : List Byte) : Pipe :=
  let tail := (p.head + p.count) % pipeCapacity
  let first := pipeCapacity - tail
  let first := if first > bytes.length then bytes.length else first
  { p with
    data := blit (blit p.data tail (bytes.take first)) 0 (bytes.drop first)
    count := p.count + bytes.length }

/-- The loop of `pipe_write` up to its end or its next wait: the pipe, the pieces accepted, how much
is written, and the error it was left with, or `none` at a wait. -/
def writeLoop (p : Pipe) (buf : List Byte) (written : ℕ) (nonblock signal : Bool) :
    Pipe × List (List Byte) × ℕ × Option ℤ :=
  if written < buf.length then
    if p.readers = 0 then (p, [], written, some (-EPIPE))
    else
      let space := pipeCapacity - p.count
      let need := if buf.length ≤ pipeBuf then buf.length - written else 1
      if space < need then
        if nonblock then (p, [], written, some (-EAGAIN))
        else if signal then (p, [], written, some (-EINTR))
        else (p, [], written, none)
      else
        let chunk := if buf.length - written < space then buf.length - written else space
        let bytes := (buf.drop written).take chunk
        let r := writeLoop (p.put bytes) buf (written + chunk) nonblock signal
        (r.1, bytes :: r.2.1, r.2.2)
  else (p, [], written, some 0)
termination_by buf.length - written
decreasing_by
  rename_i hroom
  dsimp only [space,need] at hroom ⊢
  split_ifs at hroom ⊢ <;> omega

end Pipe

inductive Call where
  | read (n : ℕ) (nonblock : Bool)
  | write (id : ℕ) (buf : List Byte) (written : ℕ) (nonblock : Bool)

/-- A task: the descriptors it has on either end, the call it waits in, and whether it has
been woken since. -/
structure Task where
  readEnds : ℕ
  writeEnds : ℕ
  call : Option Call
  ready : Bool

/-- A read that returned: what was asked for, the result, the bytes delivered, and what the
pipe held and how many writers it had at that moment. -/
structure ReadRecord where
  n : ℕ
  ret : ℤ
  bytes : List Byte
  left : ℕ
  writers : ℕ

structure WriteRecord where
  id : ℕ
  buf : List Byte
  ret : ℤ

/-- The pipe, the tasks, and the history: the pieces accepted with the write each belongs to, the
calls that returned, and the writes whose task was killed in them, with their buffers. -/
structure State (ι : Type*) where
  pipe : Pipe
  freed : Bool
  fault : Bool
  tasks : ι → Task
  nextId : ℕ
  log : List (ℕ × List Byte)
  reads : List ReadRecord
  writes : List WriteRecord
  killed : List (ℕ × List Byte)

namespace State
variable {ι : Type*} [DecidableEq ι] (s : State ι)

def setTask (i : ι) (t : Task) : State ι := { s with tasks := Function.update s.tasks i t }
def leave (i : ι) : State ι := s.setTask i { s.tasks i with call := none, ready := false }

def park (i : ι) (c : Call) : State ι :=
  s.setTask i { s.tasks i with call := some c, ready := false }

/-- The call waits on the queue `readable`, or else on `writable`. -/
def Call.onReadable : Call → Bool
  | .read .. => true
  | .write .. => false

def wakeAll (readable : Bool) : State ι :=
  { s with tasks := fun i =>
      let t := s.tasks i
      if t.call.any (Call.onReadable · == readable) then { t with ready := true } else t }

/-- `pipe_read` of task `i`, from its start or after a wait. -/
def runRead (i : ι) (n : ℕ) (nonblock signal : Bool) : State ι :=
  if s.freed then { s with fault := true }
  else
    let ret := fun (s : State ι) (r : ℤ) (bytes : List Byte) =>
      { s.leave i with reads := s.reads ++ [⟨n,r,bytes,s.pipe.count,s.pipe.writers⟩] }
    if n = 0 then ret s 0 []
    else if s.pipe.count = 0 then
      if s.pipe.writers = 0 then ret s 0 []
      else if nonblock then ret s (-EAGAIN) []
      else if signal then ret s (-EINTR) []
      else s.park i (.read n nonblock)
    else
      let r := s.pipe.take n
      ret ({ s with pipe := r.2 }.wakeAll false) r.1.length r.1

def finishWrite (i : ι) (id : ℕ) (buf : List Byte) (written : ℕ) (rc : ℤ) : State ι :=
  { s.leave i with
    writes := s.writes ++ [⟨id,buf,if written ≠ 0 then written else rc⟩] }

/-- `pipe_write` of task `i`, from its start or after a wait. -/
def runWrite (i : ι) (id : ℕ) (buf : List Byte) (written : ℕ) (nonblock signal : Bool) :
    State ι :=
  if s.freed then { s with fault := true }
  else
    let r := s.pipe.writeLoop buf written nonblock signal
    let s₁ := { s with pipe := r.1, log := s.log ++ r.2.1.map (id, ·) }
    let s₂ := if r.2.1.isEmpty then s₁ else s₁.wakeAll true
    match r.2.2.2 with
    | some rc => s₂.finishWrite i id buf r.2.2.1 rc
    | none => s₂.park i (.write id buf r.2.2.1 nonblock)

def pipeRef (writeEnd : Bool) : State ι :=
  if s.freed then { s with fault := true }
  else
    { s with pipe :=
        if writeEnd then { s.pipe with writers := s.pipe.writers + 1 }
        else { s.pipe with readers := s.pipe.readers + 1 } }

def pipeUnref (writeEnd : Bool) : State ι :=
  if s.freed then { s with fault := true }
  else
    let p := s.pipe
    let s₁ :=
      if writeEnd then
        if p.writers ≠ 0 then
          let s' := { s with pipe := { p with writers := p.writers - 1 } }
          if p.writers - 1 = 0 then s'.wakeAll true else s'
        else s
      else if p.readers ≠ 0 then
        let s' := { s with pipe := { p with readers := p.readers - 1 } }
        if p.readers - 1 = 0 then s'.wakeAll false else s'
      else s
    if s₁.pipe.readers = 0 ∧ s₁.pipe.writers = 0 then { s₁ with freed := true } else s₁

end State

def Task.ends (t : Task) (writeEnd : Bool) : ℕ := if writeEnd then t.writeEnds else t.readEnds

def Task.setEnds (t : Task) (writeEnd : Bool) (n : ℕ) : Task :=
  if writeEnd then { t with writeEnds := n } else { t with readEnds := n }

inductive Op (ι : Type*) where
  /-- Task `j` gets a copy of a descriptor that task `i` has. -/
  | dup (i j : ι) (writeEnd : Bool)
  | close (i : ι) (writeEnd : Bool)
  | read (i : ι) (n : ℕ) (nonblock signal : Bool)
  | write (i : ι) (buf : List Byte) (nonblock signal : Bool)
  /-- A wakeup that nobody on the pipe asked for. -/
  | wake (i : ι)
  /-- A woken task runs on; `interrupted` is a signal that ended the wait, `signal` one that
  is pending if the task has to wait again. -/
  | resume (i : ι) (interrupted signal : Bool)
  /-- The task is killed while it waits; its descriptors are closed afterwards. -/
  | kill (i : ι)

variable {ι : Type*} [DecidableEq ι]

def resume (s : State ι) (i : ι) (interrupted signal : Bool) : State ι :=
  match (s.tasks i).call with
  | none => s
  | some (.read n nonblock) =>
    if interrupted then
      { s.leave i with reads := s.reads ++ [⟨n,-EINTR,[],s.pipe.count,s.pipe.writers⟩] }
    else s.runRead i n nonblock signal
  | some (.write id buf written nonblock) =>
    if interrupted then s.finishWrite i id buf written (-EINTR)
    else s.runWrite i id buf written nonblock signal

def step (s : State ι) : Op ι → State ι
  | .dup i j writeEnd =>
    if (s.tasks i).ends writeEnd = 0 then s
    else
      (s.pipeRef writeEnd).setTask j
        ((s.tasks j).setEnds writeEnd ((s.tasks j).ends writeEnd + 1))
  | .close i writeEnd =>
    if (s.tasks i).ends writeEnd = 0 ∨ (s.tasks i).call.isSome then s
    else
      (s.setTask i ((s.tasks i).setEnds writeEnd ((s.tasks i).ends writeEnd - 1))).pipeUnref
        writeEnd
  | .read i n nonblock signal =>
    if (s.tasks i).readEnds = 0 ∨ (s.tasks i).call.isSome then s
    else s.runRead i n nonblock signal
  | .write i buf nonblock signal =>
    if (s.tasks i).writeEnds = 0 ∨ (s.tasks i).call.isSome then s
    else { s with nextId := s.nextId + 1 }.runWrite i s.nextId buf 0 nonblock signal
  | .wake i => s.setTask i { s.tasks i with ready := (s.tasks i).call.isSome }
  | .resume i interrupted signal =>
    if (s.tasks i).ready then resume s i interrupted signal else s
  | .kill i =>
    match (s.tasks i).call with
    | some (.write id buf _ _) => { s.leave i with killed := (id, buf) :: s.killed }
    | _ => s.leave i

def create (i : ι) : State ι where
  pipe := Pipe.create
  freed := false
  fault := false
  tasks := Function.update (fun _ => ⟨0,0,none,false⟩) i ⟨1,1,none,false⟩
  nextId := 0
  log := []
  reads := []
  writes := []
  killed := []

end GaiaKernel.Pipes
