import GaiaKernel.Msg.Pipe
import GaiaKernel.Syscall.Mapping

/-! # Calls that wait

`sys_wait4`, reads and writes of pipes and `sys_recvfrom`, made by threads that share one address
space. Kernel code is not preempted: one step is the stretch of a call between two waits. A call
checks its buffers before the first wait and uses them after the last.
-/
namespace GaiaKernel.Blocking
open Exec Pipes Syscall Function

def WNOHANG : U32 := 1#32
def linuxRusageBytes : ℕ := 144
def AF_INET : BitVec 16 := 2#16

structure Packet where
  payload : List Byte
  srcPort : BitVec 16
  srcIp : U32

structure ExitRecord where
  pid : ℤ
  parentPid : ℤ
  code : ℤ
deriving DecidableEq

/-- What the calls wait for: pipes, datagrams, and children. Exit records come in the order of their
numbers, and `hasLiveChild` is the scan of the task table. -/
structure Objects where
  pipes : ℕ → Pipe
  sockets : ℕ → List Packet
  exitRecords : List ExitRecord
  hasLiveChild : ℤ → ℤ → Bool

inductive Wait where
  | child (pid : ℤ) (status rusage : U64)
  | readable (pipe : ℕ) (buf n : U64)
  | writable (pipe : ℕ) (buf n : U64) (written : ℕ)
  | datagram (socket : ℕ) (buf len src addrlen : U64)

abbrev Stretch := Comp (Core Objects) (ℤ ⊕ Wait)
def objects : Comp (Core Objects) Objects := do return (← get).kernel
def setObjects (o : Objects) : Comp (Core Objects) PUnit := modify fun s => { s with kernel := o }

variable (c : Caller)

/-! ## Waiting for a child -/

/-- `task_wait_child` up to its return or its next wait: the child and its code. -/
def taskWaitChild (o : Objects) (me pid : ℤ) (nohang signal : Bool) : Option (ℤ × ℤ) × Objects :=
  if pid ≠ -1 ∧ pid ≤ 0 then (some (-EINVAL, 0), o)
  else
    match o.exitRecords.find? fun r => r.parentPid == me && (pid == -1 || r.pid == pid) with
    | some r => (some (r.pid, r.code), { o with exitRecords := o.exitRecords.erase r })
    | none =>
      if !o.hasLiveChild me pid then (some (-ECHILD, 0), o)
      else if nohang then (some (0, 0), o)
      else if signal then (some (-EINTR, 0), o)
      else (none, o)

def statusWord (code : ℤ) : U32 :=
  if code < 0 ∧ code > -64 then BitVec.ofInt 32 (-code) &&& 0x7f
  else (BitVec.ofInt 32 code &&& 0xff) <<< 8

def storeAt (arg : ℕ) (pointer : U64) (bytes : List Byte) : Comp (Core Objects) PUnit :=
  if pointer = 0#64 then pure ⟨⟩ else storeBytes c arg bytes pointer

def waitChild (me pid : ℤ) (status rusage : U64) (nohang signal : Bool) : Stretch := do
  let r := taskWaitChild (← objects) me pid nohang signal
  setObjects r.2
  match r.1 with
  | none => return .inr (.child pid status rusage)
  | some (rc, code) =>
    if rc > 0 then
      storeAt c 0 status (le 4 (statusWord code))
      storeAt c 1 rusage (List.replicate linuxRusageBytes 0)
      return .inl rc
    else return .inl rc

def optionalOk (pointer bytes : U64) : Comp (Core Objects) Bool :=
  if pointer = 0#64 then pure true else userBufferOk c pointer bytes true

def sysWait4 (me pid : ℤ) (status : U64) (options : U32) (rusage : U64) (signal : Bool) :
    Stretch := do
  if !(← optionalOk c status 4) then return .inl (-EFAULT)
  else if !(← optionalOk c rusage (BitVec.ofNat 64 linuxRusageBytes)) then return .inl (-EFAULT)
  else if has32 options (~~~WNOHANG) then return .inl (-EINVAL)
  else waitChild c me pid status rusage (has32 options WNOHANG) signal

/-! ## Pipes -/

def setPipe (i : ℕ) (p : Pipe) : Comp (Core Objects) PUnit := do
  let o ← objects
  setObjects { o with pipes := update o.pipes i p }

def pipeRead (i : ℕ) (buf n : U64) (nonblock signal : Bool) : Stretch := do
  if n = 0#64 then return .inl 0
  else
    let p := (← objects).pipes i
    if p.count = 0 then
      if p.writers = 0 then return .inl 0
      else if nonblock then return .inl (-EAGAIN)
      else if signal then return .inl (-EINTR)
      else return .inr (.readable i buf n)
    else
      let r := p.take n.toNat
      storeBytes c 0 r.1 buf
      setPipe i r.2
      return .inl r.1.length

def writeLoop (p : Pipe) (buf : U64) (n written : ℕ) (nonblock signal : Bool) :
    Comp (Core Objects) (Pipe × ℕ × Option ℤ) :=
  if written < n then
    if p.readers = 0 then pure (p, written, some (-EPIPE))
    else
      let space := pipeCapacity - p.count
      let need := if n ≤ pipeBuf then n - written else 1
      if space < need then
        if nonblock then pure (p, written, some (-EAGAIN))
        else if signal then pure (p, written, some (-EINTR))
        else pure (p, written, none)
      else
        let chunk := if n - written < space then n - written else space
        loadBytes c 0 chunk (buf + BitVec.ofNat 64 written) >>= fun bytes =>
          writeLoop (p.put bytes) buf n (written + chunk) nonblock signal
  else pure (p, written, some 0)
termination_by n - written
decreasing_by
  rename_i hroom
  dsimp only [space,need] at hroom ⊢
  split_ifs at hroom ⊢ <;> omega

variable {c} in
/-- On a buffer in user memory the loop does what it does on the bytes, as long as each load of a
chunk returns what is there. -/
theorem writeLoop_returns {I : Core Objects → Prop} {buf : U64} {bytes : List Byte}
    (hload : ∀ s written chunk, I s →
      Returns (loadBytes c 0 chunk (buf + BitVec.ofNat 64 written)) s fun loaded s' =>
        loaded = (bytes.drop written).take chunk ∧ I s')
    {s : Core Objects} (hs : I s) (p : Pipe) (written : ℕ) (nonblock signal : Bool) :
    Returns (writeLoop c p buf bytes.length written nonblock signal) s fun r s' =>
      r = ((p.writeLoop bytes written nonblock signal).1,
        (p.writeLoop bytes written nonblock signal).2.2) ∧ I s' := by
  induction hk : bytes.length - written using Nat.strong_induction_on generalizing s p written with
  | h k ih =>
    rw [writeLoop,Pipe.writeLoop]
    dsimp only
    generalize hneed : (if bytes.length ≤ pipeBuf then bytes.length - written else 1) = need
    generalize hchunk : (if bytes.length - written < pipeCapacity - p.count then
      bytes.length - written else pipeCapacity - p.count) = chunk
    split_ifs with hlt hreaders hroom hnonblock hsignal
    · exact (returns_pure _).mpr ⟨rfl,hs⟩
    · exact (returns_pure _).mpr ⟨rfl,hs⟩
    · exact (returns_pure _).mpr ⟨rfl,hs⟩
    · exact (returns_pure _).mpr ⟨rfl,hs⟩
    · have hpos : 0 < need := by rw [← hneed]; split_ifs <;> omega
      have hchunk : 0 < chunk := by rw [← hchunk]; split_ifs <;> omega
      rw [returns_bind]
      refine (hload s written chunk hs).mono ?_
      rintro _ s' ⟨rfl,hs'⟩
      exact ih _ (by omega) hs' _ _ rfl
    · exact (returns_pure _).mpr ⟨rfl,hs⟩

def pipeWrite (i : ℕ) (buf n : U64) (written : ℕ) (nonblock signal : Bool) : Stretch := do
  let (p, written, rc) ← writeLoop c ((← objects).pipes i) buf n.toNat written nonblock signal
  setPipe i p
  match rc with
  | none => return .inr (.writable i buf n written)
  | some rc => return .inl (if written ≠ 0 then written else rc)

def sysRead (i : ℕ) (buf n : U64) (nonblock signal : Bool) : Stretch := do
  if buf = 0#64 then return .inl (-EFAULT)
  else if !(← userBufferOk c buf n true) then return .inl (-EFAULT)
  else pipeRead c i buf n nonblock signal

def sysWrite (i : ℕ) (buf n : U64) (nonblock signal : Bool) : Stretch := do
  if buf = 0#64 ∨ n.toInt < 0 then return .inl (-EFAULT)
  else if !(← userBufferOk c buf n false) then return .inl (-EFAULT)
  else pipeWrite c i buf n 0 nonblock signal

/-! ## Datagrams -/

/-- The fields of a source address that are filled in. -/
def Packet.source (p : Packet) : List Byte := le 2 AF_INET ++ le 2 p.srcPort ++ le 4 p.srcIp

def recvfrom (i : ℕ) (buf len src addrlen : U64) (nonblock signal : Bool) : Stretch := do
  let o ← objects
  match o.sockets i with
  | [] =>
    if nonblock then return .inl (-EAGAIN)
    else if signal then return .inl (-EINTR)
    else return .inr (.datagram i buf len src addrlen)
  | p :: rest =>
    setObjects { o with sockets := update o.sockets i rest }
    storeBytes c 0 (p.payload.take len.toNat) buf
    storeAt c 1 src p.source
    storeAt c 2 addrlen (le 4 (16 : U32))
    return .inl (p.payload.take len.toNat).length

def sysRecvfrom (i : ℕ) (buf len src addrlen : U64) (nonblock signal : Bool) : Stretch := do
  if buf = 0#64 then return .inl (-EFAULT)
  else if !(← userBufferOk c buf len true) then return .inl (-EFAULT)
  else if !(← optionalOk c src 16) then return .inl (-EFAULT)
  else if !(← optionalOk c addrlen 4) then return .inl (-EFAULT)
  else recvfrom c i buf len src addrlen nonblock signal

def Wait.goOn (i : ℤ) (signal : Bool) : Wait → Stretch
  | .child pid status rusage => waitChild c i pid status rusage false signal
  | .readable p buf n => pipeRead c p buf n false signal
  | .writable p buf n written => pipeWrite c p buf n written false signal
  | .datagram k buf len src addrlen => Blocking.recvfrom c k buf len src addrlen false signal

/-! ## The threads of a space -/

/-- One address space, its threads by their pids, and whether a page fault of the kernel went
unanswered. -/
structure State where
  vm : TaskVm
  core : Core Objects
  waiting : ℤ → Option Wait
  panicked : Bool

namespace State
variable (s : State)

def perform (kernelPml4 : U64) (i : ℤ) (call : Caller → Stretch) : State :=
  match call ⟨s.vm,kernelPml4⟩ s.core with
  | none => { s with panicked := true }
  | some (.inl _, core) => { s with core := core, waiting := update s.waiting i none }
  | some (.inr w, core) => { s with core := core, waiting := update s.waiting i (some w) }

def begin (kernelPml4 : U64) (i : ℤ) (call : Caller → Stretch) : State :=
  if (s.waiting i).isSome then s else s.perform kernelPml4 i call

def resume (kernelPml4 : U64) (i : ℤ) (interrupted signal : Bool) : State :=
  match s.waiting i with
  | none => s
  | some w =>
    if interrupted then { s with waiting := update s.waiting i none }
    else s.perform kernelPml4 i fun c => w.goOn c i signal

def mapping (i : ℤ) (call : Space → ℤ × Space) : State :=
  if (s.waiting i).isSome then s
  else
    let m := (call ⟨s.vm,s.core.phys⟩).2
    { s with vm := m.vm, core := s.core.setPhys m.phys }

end State

/-- What the threads do, and the rest of the system to what they wait for. `signal` is one pending
if the call has to wait, `registered` the display's answer. -/
inductive Op where
  | wait4 (i pid : ℤ) (status : U64) (options : U32) (rusage : U64) (signal : Bool)
  | read (i : ℤ) (pipe : ℕ) (buf n : U64) (nonblock signal : Bool)
  | write (i : ℤ) (pipe : ℕ) (buf n : U64) (nonblock signal : Bool)
  | recvfrom (i : ℤ) (socket : ℕ) (buf len src addrlen : U64) (nonblock signal : Bool)
  | resume (i : ℤ) (interrupted signal : Bool)
  | munmap (i : ℤ) (addr len : U64)
  | mprotect (i : ℤ) (registered : U64 → U64 → Bool) (addr len : U64) (prot : U32)
  | brk (i : ℤ) (addr : U64)
  | kill (i : ℤ)
  | others (change : Objects → Objects)

def step (kernelPml4 : U64) (s : State) : Op → State
  | .wait4 i pid status options rusage signal =>
    s.begin kernelPml4 i fun c => sysWait4 c i pid status options rusage signal
  | .read i p buf n nonblock signal =>
    s.begin kernelPml4 i fun c => sysRead c p buf n nonblock signal
  | .write i p buf n nonblock signal =>
    s.begin kernelPml4 i fun c => sysWrite c p buf n nonblock signal
  | .recvfrom i k buf len src addrlen nonblock signal =>
    s.begin kernelPml4 i fun c => sysRecvfrom c k buf len src addrlen nonblock signal
  | .resume i interrupted signal => s.resume kernelPml4 i interrupted signal
  | .munmap i addr len => s.mapping i fun m => m.sysMunmap addr len
  | .mprotect i registered addr len prot => s.mapping i fun m => m.sysMprotect registered addr len prot
  | .brk i addr => s.mapping i fun m => m.sysBrk addr
  | .kill i => { s with waiting := update s.waiting i none }
  | .others change => { s with core := { s.core with kernel := change s.core.kernel } }

end GaiaKernel.Blocking
