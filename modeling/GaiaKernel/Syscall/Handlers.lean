import Mathlib.Data.PNat.Basic
import GaiaKernel.Errno
import GaiaKernel.Syscall.UserAccess

/-! # System calls that take user pointers

The message, console, IPC, mouse and directory handlers of arch/syscall.c, with the code
they hand their pointers to: the rings of msg/msg.c, the channels of display/tty.c and the
directory reader of fs/vfs/file.c. Each pointer argument has a number, counted from 0.
-/
namespace GaiaKernel.Syscall
open Exec Function

def le {w : ℕ} (n : ℕ) (v : BitVec w) : List Byte :=
  (List.range n).map fun i => (v >>> (8 * i)).setWidth 8

def ofLe (w : ℕ) : List Byte → BitVec w
  | [] => 0
  | b :: bs => b.setWidth w ||| (ofLe w bs <<< 8)

/-- A ring of the kernel: it is empty when `tail` has caught up with `head`. -/
structure Ring (α : Type) where
  slots : ℕ → α
  head : ℕ
  tail : ℕ

structure Msg where
  type : BitVec 16
  param : BitVec 16
  x : BitVec 16
  y : BitVec 16
  when : U32

def Msg.bytes (m : Msg) : List Byte :=
  le 2 m.type ++ le 2 m.param ++ le 2 m.x ++ le 2 m.y ++ le 4 m.when

structure IpcMsg where
  type : U32
  fromPid : U32
  a : U32
  b : U32
  c : U32
  d : U32
  va : U64
  pitch : U32
  flags : U32
  str : Fin 48 → Byte

def IpcMsg.bytes (m : IpcMsg) : List Byte :=
  le 4 m.type ++ le 4 m.fromPid ++ le 4 m.a ++ le 4 m.b ++ le 4 m.c ++ le 4 m.d ++ le 8 m.va ++
    le 4 m.pitch ++ le 4 m.flags ++ List.ofFn m.str

def IpcMsg.ofBytes (bs : List Byte) : IpcMsg where
  type := ofLe 32 (bs.take 4)
  fromPid := ofLe 32 ((bs.drop 4).take 4)
  a := ofLe 32 ((bs.drop 8).take 4)
  b := ofLe 32 ((bs.drop 12).take 4)
  c := ofLe 32 ((bs.drop 16).take 4)
  d := ofLe 32 ((bs.drop 20).take 4)
  va := ofLe 64 ((bs.drop 24).take 8)
  pitch := ofLe 32 ((bs.drop 32).take 4)
  flags := ofLe 32 ((bs.drop 36).take 4)
  str := fun i => bs.getD (40 + i) 0

structure TtyChan where
  input : Ring Byte
  drain : Ring Byte
  isOpen : Bool

/-- The kernel objects of the handlers: the caller's input ring, the IPC rings of the tasks that
have one, the mouse and the console channels. -/
structure Kern where
  input : Option (Ring Msg)
  ipc : ℤ → Option (Ring IpcMsg)
  mouseX : U32
  mouseY : U32
  mouseButtons : Byte
  chans : ℤ → TtyChan

structure Dirent where
  directory : Bool
  name : List Byte

inductive Outcome where
  | error (errno : ℕ+)
  | done
  | entry (d : Dirent)

/-- The filesystem below the directory reader. `iterate` is the backend's function: the cookies it
stores through the index pointer, and its return, `none` if negative. `mountEntry` is the search
loop of `virtual_mount_entry`. -/
structure Vfs (Dir : Type) where
  lookup : List Byte → Except ℕ+ Dir
  isDirectory : Dir → Bool
  iterate : Dir → Option (U32 → List U32 × Option (Option Dirent))
  mountEntry : Dir → U32 → U32 × Option Dirent
  mountChildNamed : Dir → List Byte → Bool

/-- The calling task and what it runs on. `kernelPutc` draws one character of the kernel's
own channel and pushes it into that channel's ring. -/
structure Env (Dir : Type) extends Caller where
  pid : ℤ
  tty : ℤ
  cwd : Option (List Byte)
  kernelPutc : (ℤ → TtyChan) → Byte → ℤ → TtyChan
  vfs : Vfs Dir

abbrev Sys := Comp (Core Kern)

variable {Dir : Type} (env : Env Dir)

def modifyKernel (f : Kern → Kern) : Sys PUnit := modify fun s => { s with kernel := f s.kernel }
def kernel : Sys Kern := do return (← get).kernel

section

def inputRingSize : ℕ := 64
def ipcRingSize : ℕ := 16

/-- `msg_get` and `msg_peek`: copy the oldest event out, and drop it or not. -/
def takeMsg (drop : Bool) (out : U64) : Sys Bool := do
  match (← kernel).input with
  | none => return false
  | some ring =>
    if ring.tail = ring.head then return false
    else
      storeBytes env.toCaller 0 (ring.slots ring.tail).bytes out
      if drop then
        modifyKernel fun k =>
          { k with input := some { ring with tail := (ring.tail + 1) % inputRingSize } }
      return true

def msgGet (out : U64) : Sys Bool := takeMsg env true out
def msgPeek (out : U64) : Sys Bool := takeMsg env false out

def checkedMsg (read : U64 → Sys Bool) (out : U64) : Sys ℤ := do
  if out = 0#64 then return -EFAULT
  else if !(← userBufferOk env.toCaller out 12 true) then return -EFAULT
  else return if ← read out then 1 else 0

def sysMsgGet (out : U64) : Sys ℤ := checkedMsg env (msgGet env) out
def sysMsgPeek (out : U64) : Sys ℤ := checkedMsg env (msgPeek env) out

def Kern.accepts (k : Kern) (target : ℤ) : Option (Ring IpcMsg) :=
  if target ≤ 0 then none
  else (k.ipc target).filter fun ring => (ring.head + 1) % ipcRingSize != ring.tail

def ipcSend (target : ℤ) (m : U64) : Sys ℤ := do
  match (← kernel).accepts target with
  | none => return -1
  | some ring =>
    let copy := IpcMsg.ofBytes (← loadBytes env.toCaller 0 88 m)
    let slot := { copy with fromPid := BitVec.ofInt 32 env.pid }
    modifyKernel fun k =>
      { k with ipc := update k.ipc target (some
          { ring with
            slots := update ring.slots ring.head slot
            head := (ring.head + 1) % ipcRingSize }) }
    return 0

def sysIpcSend (targetPid m : U64) : Sys ℤ := do
  if m = 0#64 then return -EFAULT
  else ipcSend env (targetPid.setWidth 32).toInt m

def ipcRecv (out : U64) : Sys Bool := do
  match (← kernel).ipc env.pid with
  | none => return false
  | some ring =>
    if ring.tail = ring.head then return false
    else
      storeBytes env.toCaller 0 (ring.slots ring.tail).bytes out
      modifyKernel fun k =>
        { k with ipc := update k.ipc env.pid (some
            { ring with tail := (ring.tail + 1) % ipcRingSize }) }
      return true

def sysIpcRecv (out : U64) : Sys ℤ := do
  if out = 0#64 then return -EFAULT else return if ← ipcRecv env out then 1 else 0

end

def storeThrough (arg : ℕ) (pointer : U64) (bytes : List Byte) : Sys PUnit := do
  if pointer = 0#64 then return ⟨⟩ else storeBytes env.toCaller arg bytes pointer

def sysMousePos (x y buttons : U64) : Sys ℤ := do
  let k ← kernel
  storeThrough env 0 x (le 4 k.mouseX)
  storeThrough env 1 y (le 4 k.mouseY)
  storeThrough env 2 buttons [k.mouseButtons]
  return 0

section

def ttyMax : ℤ := 4
def ttyKernel : ℤ := 0
def ttyInputSize : ℕ := 256
def drainRingSize : ℕ := 4096

def Kern.chanValid (k : Kern) (idx : ℤ) : Bool :=
  decide (0 ≤ idx) && decide (idx < ttyMax) && (k.chans idx).isOpen

/-- Push into a full ring drops its oldest character. -/
def chanDrainPush (ch : TtyChan) (b : Byte) : TtyChan :=
  let ring := ch.drain
  let next := (ring.head + 1) % drainRingSize
  { ch with drain :=
    { slots := update ring.slots ring.head b
      head := next
      tail := if next = ring.tail then (ring.tail + 1) % drainRingSize else ring.tail } }

/-- Hand `n` bytes from `addr` on to the console, one at a time. -/
def writeLoop (put : Byte → Kern → Kern) : ℕ → U64 → Sys PUnit
  | 0, _ => pure ⟨⟩
  | n + 1, addr => do
    let b ← loadByte env.toCaller 0 addr
    modifyKernel (put b)
    writeLoop put n (addr + 1)

def ttyWriteCh (idx : ℤ) (buf : U64) (n : ℕ) : Sys PUnit := do
  if idx = ttyKernel then
    writeLoop env (fun b k => { k with chans := env.kernelPutc k.chans b }) n buf
  else if !(← kernel).chanValid idx then return ⟨⟩
  else
    writeLoop env (fun b k =>
      { k with chans := update k.chans idx (chanDrainPush (k.chans idx) b) }) n buf

def sysConWrite (buf n : U64) : Sys ℤ := do
  if buf = 0#64 then return -EFAULT
  else if n.toInt < 0 then return -EINVAL
  else
    ttyWriteCh env env.tty buf n.toNat
    return n.toInt

structure RingField where
  size : ℕ
  get : TtyChan → Ring Byte
  set : TtyChan → Ring Byte → TtyChan

def inputField : RingField := ⟨ttyInputSize,TtyChan.input,fun ch ring => { ch with input := ring }⟩
def drainField : RingField := ⟨drainRingSize,TtyChan.drain,fun ch ring => { ch with drain := ring }⟩

/-- `chan_read` and `chan_drain`: move at most `max` characters out of a ring. -/
def drainInto (field : RingField) (idx : ℤ) : ℕ → U64 → Sys ℕ
  | 0, _ => pure 0
  | max + 1, addr => do
    let ch := (← kernel).chans idx
    let ring := field.get ch
    if ring.tail = ring.head then return 0
    else
      storeByte env.toCaller 0 addr (ring.slots ring.tail)
      let next := { ring with tail := (ring.tail + 1) % field.size }
      modifyKernel fun k =>
        { k with chans := update k.chans idx (field.set ch next) }
      return (← drainInto field idx max (addr + 1)) + 1

def chanRead : ℤ → ℕ → U64 → Sys ℕ := drainInto env inputField
def chanDrain : ℤ → ℕ → U64 → Sys ℕ := drainInto env drainField

/-- `tty_read_input_ch` and `tty_drain_ch` around their ring. -/
def fromChannel (read : ℤ → ℕ → U64 → Sys ℕ) (idx : ℤ) (out : U64) (max : ℕ) : Sys ℕ := do
  if !(← kernel).chanValid idx || out = 0#64 then return 0 else read idx max out

def ttyReadInputCh : ℤ → U64 → ℕ → Sys ℕ := fromChannel (chanRead env)
def ttyDrainCh : ℤ → U64 → ℕ → Sys ℕ := fromChannel (chanDrain env)

def sysTtyDrain (idx out max : U64) : Sys ℤ := do
  if out = 0#64 ∨ max.toInt ≤ 0 then return 0
  else return ((← ttyDrainCh env (idx.setWidth 32).toInt out max.toNat : ℕ) : ℤ)

def sysTtyReadInput (out max : U64) : Sys ℤ := do
  if out = 0#64 ∨ max.toInt ≤ 0 then return 0
  else return ((← ttyReadInputCh env env.tty out max.toNat : ℕ) : ℤ)

end

section

def vfsReaddirMountPhase : U32 := 0x80000000#32

def loadWord (arg : ℕ) (addr : U64) : Sys U32 := do
  return ofLe 32 (← loadBytes env.toCaller arg 4 addr)

def storeWord (arg : ℕ) (addr : U64) (w : U32) : Sys PUnit :=
  storeBytes env.toCaller arg (le 4 w) addr

def storeWords (arg : ℕ) (addr : U64) : List U32 → Sys PUnit
  | [] => pure ⟨⟩
  | w :: ws => do
    storeWord env arg addr w
    storeWords arg addr ws

def iterate (arg : ℕ) (dir : Dir) (index : U64) : Sys Outcome := do
  if !env.vfs.isDirectory dir then return .error ENOTDIR
  else
    match env.vfs.iterate dir with
    | none => return .error EIO
    | some read =>
      let r := read (← loadWord env arg index)
      storeWords env arg index r.1
      return match r.2 with
        | none => .error EIO
        | some none => .done
        | some (some d) => .entry d

def Outcome.ofMount : Option Dirent → Outcome
  | none => .done
  | some d => .entry d

def virtualMountEntry (arg : ℕ) (dir : Dir) (index : U64) : Sys Outcome := do
  let cookie ← loadWord env arg index
  let r := env.vfs.mountEntry dir (cookie &&& ~~~vfsReaddirMountPhase)
  storeWord env arg index (vfsReaddirMountPhase ||| r.1)
  return Outcome.ofMount r.2

/-- A mounted root is reported as a directory, whatever it hides. -/
def Vfs.overlay (v : Vfs Dir) (dir : Dir) (d : Dirent) : Dirent :=
  if v.mountChildNamed dir d.name then { d with directory := true } else d

def readDirOneLocked (arg : ℕ) (dir : Dir) (index : U64) : Sys Outcome := do
  let cookie ← loadWord env arg index
  if cookie &&& vfsReaddirMountPhase ≠ 0#32 then virtualMountEntry env arg dir index
  else
    match ← iterate env arg dir index with
    | .entry d => return .entry (env.vfs.overlay dir d)
    | .error e => return .error e
    | .done =>
      let backendEof ← loadWord env arg index
      storeWord env arg index vfsReaddirMountPhase
      match ← virtualMountEntry env arg dir index with
      | .done =>
        storeWord env arg index backendEof
        return .done
      | result => return result

def Dirent.text (d : Dirent) : List Byte := d.name ++ (if d.directory then [0x2F#8] else []) ++ [0#8]

theorem Dirent.text_length_pos (d : Dirent) : 0 < d.text.length := by
  simp [Dirent.text]

/-- The loop of `vfs_read_dir`. Every round but the last stores at least one byte. -/
def readDirLoop (arg : ℕ) (dir : Dir) (index buf : U64) (length written : ℕ) : Sys ℤ := do
  let before ← loadWord env arg index
  match ← readDirOneLocked env arg dir index with
  | .error e =>
    storeWord env arg index before
    return if written = 0 then -(e : ℤ) else written
  | .done => return written
  | .entry d =>
    if _h : d.text.length > length - written then
      storeWord env arg index before
      return if written = 0 then -EINVAL else written
    else
      storeBytes env.toCaller (arg + 1) d.text (buf + BitVec.ofNat 64 written)
      readDirLoop arg dir index buf length (written + d.text.length)
termination_by length - written
decreasing_by
  have := d.text_length_pos
  omega

def vfsReadDir (arg : ℕ) (path : List Byte) (index buf : U64) (n : ℕ) : Sys ℤ := do
  if index = 0#64 ∨ buf = 0#64 ∨ n = 0 then return -EINVAL
  else
    match env.vfs.lookup path with
    | .error e => return -(e : ℤ)
    | .ok dir => readDirLoop env arg dir index buf n 0

def sysReaddir (index buf n : U64) : Sys ℤ :=
  match env.cwd with
  | none => pure (-ESRCH)
  | some cwd => vfsReadDir env 0 cwd index buf n.toNat

def taskCwdMax : ℕ := 256
def isSeparator (b : Byte) : Bool := b == 0x2F#8 || b == 0x5C#8

/-- Length left of a path once its last component is cut off, the slash before it included. -/
def trimComponent (out : List Byte) : ℕ → ℕ
  | 0 => 0
  | k + 1 => if 0 < k ∧ out.getD k 0 ≠ 0x2F#8 then trimComponent out k else k + 1

def pathAppendComponent (max : ℕ) (out part : List Byte) : Option (List Byte) :=
  if part = [] ∨ part = [0x2E#8] then some out
  else if part = [0x2E#8, 0x2E#8] then
    if out.length ≤ 1 then some [0x2F#8]
    else
      let len := trimComponent out out.length
      some (out.take (if len > 1 then len - 1 else len))
  else if out.length > 1 ∧ out.length + 1 ≥ max then none
  else
    let base := if out.length > 1 then out ++ [0x2F#8] else out
    if base.length + part.length ≥ max then none else some (base ++ part)

/-- Fold the components of `path` into the directory it starts in. -/
def resolvePathFrom (base path : List Byte) (max : ℕ) : Option (List Byte) :=
  let relative := base.take (max - 1)
  let start := if path.head? = some 0x2F#8 ∨ relative = [] then [0x2F#8] else relative
  (path.splitOnP isSeparator).foldlM (pathAppendComponent max) start

def copyString (arg : ℕ) : ℕ → U64 → Sys (Except ℤ (List Byte))
  | 0, _ => pure (.error (-ENAMETOOLONG))
  | n + 1, addr => do
    if !(← userBufferOk env.toCaller addr 1 false) then return .error (-EFAULT)
    else
      let b ← loadByte env.toCaller arg addr
      if b = 0#8 then return .ok []
      else
        match ← copyString arg n (addr + 1) with
        | .ok bs => return .ok (b :: bs)
        | .error e => return .error e

def copyUserString (arg : ℕ) (user : U64) (max : ℕ) : Sys (Except ℤ (List Byte)) :=
  if user = 0#64 ∨ max = 0 then pure (.error (-EFAULT)) else copyString env arg max user

def resolveUserPath (userPath : U64) : Sys (Except ℤ (List Byte)) := do
  match ← copyUserString env 0 userPath taskCwdMax with
  | .error e => return .error e
  | .ok path =>
    if path = [] then return .error (-ENOENT)
    else
      match env.cwd with
      | none => return .error (-ESRCH)
      | some base =>
        match resolvePathFrom base path taskCwdMax with
        | none => return .error (-ENAMETOOLONG)
        | some resolved => return .ok resolved

def sysReaddirPath (path index buf n : U64) : Sys ℤ := do
  match ← resolveUserPath env path with
  | .error e => return e
  | .ok resolved => vfsReadDir env 1 resolved index buf n.toNat

end

/-- The calls, with their arguments as they arrive in registers. -/
inductive Call where
  | msgGet (out : U64)
  | msgPeek (out : U64)
  | mousePos (x y buttons : U64)
  | conWrite (buf n : U64)
  | ipcSend (targetPid m : U64)
  | ipcRecv (out : U64)
  | ttyDrain (idx out max : U64)
  | ttyReadInput (out max : U64)
  | readdir (index buf n : U64)
  | readdirPath (path index buf n : U64)

def Call.run : Call → Sys ℤ
  | .msgGet out => sysMsgGet env out
  | .msgPeek out => sysMsgPeek env out
  | .mousePos x y buttons => sysMousePos env x y buttons
  | .conWrite buf n => sysConWrite env buf n
  | .ipcSend targetPid m => sysIpcSend env targetPid m
  | .ipcRecv out => sysIpcRecv env out
  | .ttyDrain idx out max => sysTtyDrain env idx out max
  | .ttyReadInput out max => sysTtyReadInput env out max
  | .readdir index buf n => sysReaddir env index buf n
  | .readdirPath path index buf n => sysReaddirPath env path index buf n

end GaiaKernel.Syscall
