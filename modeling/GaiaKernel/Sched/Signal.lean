import GaiaKernel.Errno
import GaiaKernel.Lib.Bytes
import GaiaKernel.Memory.Word

/-! # Signal delivery

sched/signal.c, with `sys_rt_sigaction` and `syscall_prepare_return` of arch/syscall.c. A `Task` is
what these functions read and write: the registers about to return to ring 3, the FPU image saved
with them, the masks and dispositions, the user memory, and what `uvm_fault_in` and the page tables
answer for its pages.
-/
namespace GaiaKernel.Signal
open Bytes (slice blit leNat leBytes leFields)

/-- The registers that both return paths move through `struct linux_sigcontext`. -/
structure Regs where
  r8 : U64
  r9 : U64
  r10 : U64
  r11 : U64
  r12 : U64
  r13 : U64
  r14 : U64
  r15 : U64
  rdi : U64
  rsi : U64
  rbp : U64
  rbx : U64
  rdx : U64
  rax : U64
  rcx : U64
  rsp : U64
  rip : U64
  eflags : U64
  deriving DecidableEq

def Regs.words (r : Regs) : List U64 :=
  [r.r8, r.r9, r.r10, r.r11, r.r12, r.r13, r.r14, r.r15, r.rdi, r.rsi, r.rbp, r.rbx, r.rdx, r.rax,
    r.rcx, r.rsp, r.rip, r.eflags]

def Regs.ofWords (w : ℕ → U64) : Regs where
  r8 := w 0
  r9 := w 1
  r10 := w 2
  r11 := w 3
  r12 := w 4
  r13 := w 5
  r14 := w 6
  r15 := w 7
  rdi := w 8
  rsi := w 9
  rbp := w 10
  rbx := w 11
  rdx := w 12
  rax := w 13
  rcx := w 14
  rsp := w 15
  rip := w 16
  eflags := w 17

structure Action where
  handler : U64
  flags : U64
  restorer : U64
  mask : U64

/-- What `uvm_fault_in` answers for a page, for reading and for writing, and whether ring 3 may
execute it. A page that can be written can be read. -/
structure Vm where
  faultIn : U64 → Bool → Bool
  executable : U64 → Bool
  read_of_write : ∀ page, faultIn page true = true → faultIn page false = true

structure Task where
  regs : Regs
  userFx : ℕ → Byte
  mem : ℕ → Byte
  vm : Vm
  sigPending : U64
  sigBlocked : U64
  actions : ℕ → Action

def taskSignalCount : ℕ := 64
def sigKill : ℕ := 9
def sigSegv : ℕ := 11
def sigStop : ℕ := 19
def sigDfl : U64 := 0#64
def sigIgn : U64 := 1#64
def saRestorer : U64 := 0x04000000#64
def saNodefer : U64 := 0x40000000#64
def saResethand : U64 := 0x80000000#64
def sigBit (sig : ℕ) : U64 := 1#64 <<< (sig - 1)
def sigUnblockable : U64 := sigBit sigKill ||| sigBit sigStop

def fxsaveBytes : ℕ := 512
def redZone : U64 := 128#64
def rflagsTf : U64 := 1#64 <<< 8
def rflagsIf : U64 := 1#64 <<< 9
def rflagsDf : U64 := 1#64 <<< 10
def rflagsFixed : U64 := 1#64 <<< 1
def mxcsrOffset : ℕ := 24
def mxcsrValid : ℕ := 0xFFFF
def userReturnRflagsAllowed : U64 := 0x200FD5#64

def userCs : U64 := 0x23#64
def userSs : U64 := 0x1B#64

def ucontextBytes : ℕ := 304
def sigframeBytes : U64 := 440#64
def defaultIgnored (sig : ℕ) : Bool := sig ∈ [17, 18, 23, 28, 19, 20, 21, 22]
def userCodeAddress (va : U64) : Bool := decide (userVaMin ≤ va ∧ va < userVaMax)
def ctz (x : U64) : ℕ := ((List.range 64).find? fun i => x.getLsbD i).getD 64

/-- The loop visits the pages from that of the first byte to that of the last. -/
def Vm.uvmBufferOk (vm : Vm) (base bytes : U64) (writable : Bool) : Bool :=
  if bytes = 0#64 then true
  else
    let stop := base + bytes
    if base < userVaMin ∨ stop < base then false
    else if ¬ stop ≤ userVaMax ∧ ¬ (userStackLow ≤ base ∧ stop ≤ userStackTop) then false
    else
      (List.range (((pageOf (stop - 1#64)).toNat - (pageOf base).toNat) / 4096 + 1)).all fun k =>
        vm.faultIn (pageOf base + BitVec.ofNat 64 (4096 * k)) writable

def word (mem : ℕ → Byte) (va : ℕ) : U64 := BitVec.ofNat 64 (leNat mem va 8)

namespace Task
variable (t : Task)

/-! ### Delivery -/

def fxVa (rsp : U64) : U64 := (rsp - redZone - BitVec.ofNat 64 fxsaveBytes) &&& ~~~63#64
def frameVa (rsp : U64) : U64 := ((fxVa rsp - sigframeBytes) &&& ~~~15#64) - 8#64

/-- `struct rt_sigframe` in words. The two selectors share a word with the unused `gs` and `fs`;
number and code of the signal are in the first two words of the `siginfo`. -/
def sigframe (sig : ℕ) (restorer err trapno fx : U64) : List U64 :=
  [restorer] ++
    ([0#64, 0#64, 0#64, 0#64, 0#64] ++
      (t.regs.words ++ [userCs ||| userSs <<< 48, err, trapno, t.sigBlocked, 0#64, fx] ++
        List.replicate 8 0#64) ++
      [t.sigBlocked]) ++
    (BitVec.ofNat 64 sig :: List.replicate 15 0#64)

/-- What `deliver` does once it has found room for the frame. -/
def enter (sig : ℕ) (act : Action) (err trapno : U64) : Task :=
  let fx := fxVa t.regs.rsp
  let frame := frameVa t.regs.rsp
  let mask := if has act.flags saNodefer then act.mask else act.mask ||| sigBit sig
  { t with
    mem := blit (blit t.mem frame.toNat
        (leFields 8 ((t.sigframe sig act.restorer err trapno fx).map BitVec.toNat)))
      fx.toNat (slice t.userFx 0 fxsaveBytes)
    sigBlocked := (t.sigBlocked ||| mask) &&& ~~~sigUnblockable
    actions := if has act.flags saResethand
      then Function.update t.actions (sig - 1) { act with handler := sigDfl } else t.actions
    regs := { t.regs with
      rip := act.handler
      rsp := frame
      rdi := BitVec.ofNat 64 sig
      rsi := frame + BitVec.ofNat 64 (8 + ucontextBytes)
      rdx := frame + 8#64
      rax := 0#64
      eflags := t.regs.eflags &&& ~~~(rflagsDf ||| rflagsTf) } }

/-- How `deliver` ends: it leaves the registers alone, enters a handler, or exits the task. -/
inductive Delivery where
  | unchanged (t : Task)
  | entered (t : Task)
  | exited (code : ℤ)

/-- `deliver`. The interrupt path passes the error code and the vector. -/
def deliver (err trapno : U64) : Delivery :=
  let ready := t.sigPending &&& ~~~t.sigBlocked
  if ready = 0#64 then .unchanged t
  else
    let sig := ctz ready + 1
    let t := { t with sigPending := t.sigPending &&& ~~~(sigBit sig) }
    let act := t.actions (sig - 1)
    if act.handler = sigIgn then .unchanged t
    else if act.handler = sigDfl then
      if defaultIgnored sig then .unchanged t else .exited (-sig)
    else if !has act.flags saRestorer ∨ !userCodeAddress act.restorer ∨
        !userCodeAddress act.handler then .exited (-sigSegv)
    else if frameVa t.regs.rsp < userVaMin ∨
        !t.vm.uvmBufferOk (frameVa t.regs.rsp) (t.regs.rsp - frameVa t.regs.rsp) true then
      .exited (-sigSegv)
    else .entered (t.enter sig act err trapno)

/-! ### Return -/

def clearMxcsr (fx : ℕ → Byte) : ℕ → Byte :=
  blit fx mxcsrOffset (leBytes 4 (leNat fx mxcsrOffset 4 &&& mxcsrValid))

def signalSigreturn : Except ℤ Task :=
  let uc := t.regs.rsp
  if !t.vm.uvmBufferOk uc (BitVec.ofNat 64 ucontextBytes) false then .error (-sigSegv)
  else
    let regs := Regs.ofWords fun i => word t.mem (uc.toNat + 40 + 8 * i)
    let fpstate := word t.mem (uc.toNat + 224)
    let sigmask := word t.mem (uc.toNat + 296)
    let t := { t with regs, sigBlocked := sigmask &&& ~~~sigUnblockable }
    if fpstate = 0#64 then .ok t
    else if has fpstate 15#64 ∨ !t.vm.uvmBufferOk fpstate (BitVec.ofNat 64 fxsaveBytes) false then
      .error (-sigSegv)
    else
      .ok { t with
        userFx := clearMxcsr (blit t.userFx 0 (slice t.mem fpstate.toNat fxsaveBytes)) }

def userReturnAddressOk (address : U64) (allowStackTop : Bool) : Bool :=
  if address < userVaMin then false
  else if address < userVaMax then true
  else decide (userStackLow ≤ address ∧
    (address < userStackTop ∨ allowStackTop = true ∧ address = userStackTop))

/-- The end of `syscall_dispatch`: `syscall_prepare_return`, and `task_exit` if it refuses. The
selectors are those the entry stub pushed and pass. -/
def syscallReturn : Except ℤ Task :=
  if !userReturnAddressOk t.regs.rip false ∨ !userReturnAddressOk t.regs.rsp true then .error (-11)
  else if !t.vm.executable (pageOf t.regs.rip) then .error (-11)
  else
    .ok { t with
      regs := { t.regs with
        eflags := t.regs.eflags &&& userReturnRflagsAllowed ||| (rflagsFixed ||| rflagsIf) } }

/-! ### Masks and dispositions -/

def signalSigprocmask (how : ℕ) (set old : U64) (size : ℕ) : ℤ × Task :=
  if size ≠ 8 then (-EINVAL, t)
  else if set ≠ 0#64 ∧ !t.vm.uvmBufferOk set 8#64 false then (-EFAULT, t)
  else if old ≠ 0#64 ∧ !t.vm.uvmBufferOk old 8#64 true then (-EFAULT, t)
  else
    let previous := t.sigBlocked
    let next? : Option U64 :=
      if set = 0#64 then some previous
      else
        match how with
        | 0 => some ((previous ||| word t.mem set.toNat) &&& ~~~sigUnblockable)
        | 1 => some (previous &&& ~~~word t.mem set.toNat &&& ~~~sigUnblockable)
        | 2 => some (word t.mem set.toNat &&& ~~~sigUnblockable)
        | _ => none
    match next? with
    | none => (-EINVAL, t)
    | some next =>
      (0, { t with
        sigBlocked := next
        mem := if old = 0#64 then t.mem else blit t.mem old.toNat (leBytes 8 previous.toNat) })

def sysRtSigaction (signal : ℤ) (action old : U64) (size : ℕ) : ℤ × Task :=
  if signal < 1 ∨ signal > taskSignalCount ∨ size ≠ 8 then (-EINVAL, t)
  else if action ≠ 0#64 ∧ (signal = sigKill ∨ signal = sigStop) then (-EINVAL, t)
  else if action ≠ 0#64 ∧ !t.vm.uvmBufferOk action 32#64 false then (-EFAULT, t)
  else if old ≠ 0#64 ∧ !t.vm.uvmBufferOk old 32#64 true then (-EFAULT, t)
  else
    let sig := signal.toNat
    let previous := t.actions (sig - 1)
    let next : Action :=
      ⟨word t.mem action.toNat,word t.mem (action.toNat + 8),word t.mem (action.toNat + 16),
        word t.mem (action.toNat + 24)⟩
    (0, { t with
      actions := if action = 0#64 then t.actions else Function.update t.actions (sig - 1) next
      mem := if old = 0#64 then t.mem
        else blit t.mem old.toNat (leFields 8
          [previous.handler.toNat, previous.flags.toNat, previous.restorer.toNat,
            previous.mask.toNat]) })

/-- The part of `execve` that resets the signal state: ignored signals stay ignored. -/
def execReset (regs : Regs) (mem : ℕ → Byte) (vm : Vm) (fx : ℕ → Byte) : Task :=
  { t with
    regs, mem, vm
    userFx := fx
    actions := fun i =>
      if (t.actions i).handler ≠ sigIgn then ⟨0#64,0#64,0#64,0#64⟩ else t.actions i }

/-! ### The life of a task -/

/-- `user` is any change of the registers, the FPU state and the user memory, `remap` any change of
the mappings, by anybody; `send` is `make_pending`. -/
inductive Op where
  | user (regs : Regs) (userFx mem : ℕ → Byte)
  | remap (vm : Vm)
  | send (sig : ℕ)
  | deliver (err trapno : U64)
  | sigreturn
  | ret
  | sigprocmask (how : ℕ) (set old : U64) (size : ℕ)
  | sigaction (signal : ℤ) (action old : U64) (size : ℕ)
  | exec (regs : Regs) (mem : ℕ → Byte) (vm : Vm) (fx : ℕ → Byte)

def apply : Op → Except ℤ Task
  | .user regs userFx mem => .ok { t with regs, userFx, mem }
  | .remap vm => .ok { t with vm }
  | .send sig => .ok { t with sigPending := t.sigPending ||| sigBit sig }
  | .deliver err trapno =>
    match t.deliver err trapno with
    | .unchanged t => .ok t
    | .entered t => .ok t
    | .exited code => .error code
  | .sigreturn => t.signalSigreturn
  | .ret => t.syscallReturn
  | .sigprocmask how set old size => .ok (t.signalSigprocmask how set old size).2
  | .sigaction signal action old size => .ok (t.sysRtSigaction signal action old size).2
  | .exec regs mem vm fx => .ok (t.execReset regs mem vm fx)

/-- A new task blocks nothing; a `vfork` child takes over what its parent blocks, and starts with
nothing pending. -/
inductive Reachable : Task → Prop
  | spawn (t : Task) (h : t.sigBlocked = 0#64) : Reachable t
  | vfork {parent : Task} (h : Reachable parent) (regs : Regs) :
      Reachable { parent with regs, sigPending := 0#64 }
  | step {t t' : Task} (h : Reachable t) (op : Op) (hop : t.apply op = .ok t') : Reachable t'

end Task

end GaiaKernel.Signal
