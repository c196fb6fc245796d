import GaiaKernel.Sched.Spaces
import GaiaKernel.Syscall.Mapping

/-! # The registered backbuffer

display/framebuffer.c keeps the frames of one user buffer by their physical addresses. Here are the
registration, the calls that make and use it, and how spaces come and go; what tasks do to their
spaces is in Syscall.Mapping.
-/
namespace GaiaKernel.Display
open Syscall Function

def fbMaxPages : ℕ := 16384

structure Registration where
  userPml4 : U64
  ownerPid : ℕ
  source : U64
  sourceBytes : U64
  pageBase : U64
  sourcePitch : U32
  pages : List U64

def userFrame (ph : Phys) (pml4 va : U64) : Option U64 :=
  let entry := ph.vmmEntryIn pml4 va
  if !has entry vmmPresent || !has entry vmmUser then none else some (tableOf entry)

def snapshot (ph : Phys) (pml4 : U64) : ℕ → U64 → Option (List U64)
  | 0, _ => some []
  | n + 1, va =>
    match userFrame ph pml4 va with
    | none => none
    | some frame => (snapshot ph pml4 n (va + 4096)).map (frame :: ·)

/-- `memory` is whether there is memory for the list of pages. -/
def framebufferRegisterUser (ph : Phys) (pml4 : U64) (ownerPid : ℕ) (source : U64) (pitch : U32)
    (bytes : U64) (memory : Bool) : Option Registration :=
  if source = 0#64 ∨ bytes = 0#64 ∨ source + bytes < source then none
  else
    let pageBase := pageOf source
    let count := (pageOf (source + bytes - 1) - pageBase).toNat / 4096 + 1
    if count > fbMaxPages ∨ !memory then none
    else
      (snapshot ph pml4 count pageBase).map fun pages =>
        ⟨pml4,ownerPid,source,bytes,pageBase,pitch,pages⟩

def framebufferUnregisterUser (reg : Option Registration) (pml4 : U64) (ownerPid : ℕ) :
    Option Registration :=
  match reg with
  | none => none
  | some g => if g.userPml4 ≠ pml4 ∨ g.ownerPid ≠ ownerPid then some g else none

def registrationMatches (reg : Option Registration) (pml4 : U64) (ownerPid : ℕ) (source : U64)
    (pitch : U32) (bytes : U64) : Bool :=
  match reg with
  | none => false
  | some g => g.userPml4 == pml4 && g.ownerPid == ownerPid && g.source == source &&
      g.sourcePitch == pitch && decide (g.sourceBytes ≥ bytes)

def registeredRangeOverlaps (reg : Option Registration) (pml4 base bytes : U64) : Bool :=
  if bytes = 0#64 ∨ base + bytes < base then false
  else
    match reg with
    | none => false
    | some g => g.userPml4 == pml4 && decide (base < g.source + g.sourceBytes) &&
        decide (base + bytes > g.source)

/-! ## Copying -/

/-- The frame `copy_user_pixels` reads at an address: the snapshot's, or the one mapped there. -/
def sourceFrame (ph : Phys) (reg : Option Registration) (pml4 source : U64) : Option U64 :=
  match reg with
  | some g =>
    if source < g.pageBase then none else g.pages[(source - g.pageBase).toNat / 4096]?
  | none => userFrame ph pml4 source

/-- The addresses it reads at with their frames, up to a failure. -/
def copyUserPixels (frameOf : U64 → Option U64) : ℕ → U64 → ℕ → List (U64 × U64)
  | 0, _, _ => []
  | fuel + 1, source, bytes =>
    if bytes = 0 then []
    else
      match frameOf source with
      | none => []
      | some frame =>
        let chunk := min (4096 - source.toNat % 4096) bytes
        (source, frame) :: copyUserPixels frameOf fuel (source + BitVec.ofNat 64 chunk) (bytes - chunk)

structure Screen where
  width : ℕ
  height : ℕ

structure Rect where
  x : ℕ
  y : ℕ
  w : ℕ
  h : ℕ

def Screen.clip (fb : Screen) (r : Rect) : Option Rect :=
  if r.w = 0 ∨ r.h = 0 ∨ r.x ≥ fb.width ∨ r.y ≥ fb.height then none
  else some { r with w := min r.w (fb.width - r.x), h := min r.h (fb.height - r.y) }

def Screen.sourceSpan (fb : Screen) (pitch : U64) : Option U64 :=
  if fb.width = 0 ∨ fb.height = 0 ∨ pitch.toNat > 0xFFFFFFFF ∨ pitch.toNat < fb.width * 4 then none
  else if fb.height > 1 ∧ pitch.toNat > (2 ^ 64 - 1 - fb.width * 4) / (fb.height - 1) then none
  else some (BitVec.ofNat 64 (pitch.toNat * (fb.height - 1) + fb.width * 4))

def presentReads (fb : Screen) (ph : Phys) (reg : Option Registration) (pml4 : U64) (ownerPid : ℕ)
    (source : U64) (pitch : U32) (rects : List Rect) : List (U64 × U64) :=
  let required := BitVec.ofNat 64 (pitch.toNat * (fb.height - 1) + fb.width * 4)
  let used := if registrationMatches reg pml4 ownerPid source pitch required then reg else none
  (rects.filterMap fb.clip).flatMap fun r => (List.range r.h).flatMap fun row =>
    copyUserPixels (sourceFrame ph used pml4) (r.w * 4)
      (source + BitVec.ofNat 64 ((r.y + row) * pitch.toNat + r.x * 4)) (r.w * 4)

/-! ## The system -/

/-- Address spaces, the tasks with the spaces they are in, file mappings that tasks are still
loading, and the registration. -/
structure State where
  phys : Phys
  spaces : ℕ → Option TaskVm
  tasks : List (ℕ × ℕ)
  loading : ℕ → Option Loading
  reg : Option Registration

namespace State
variable (s : State)

def spaceOf (pid : ℕ) : Option (ℕ × TaskVm) :=
  (s.tasks.lookup pid).bind fun id => (s.spaces id).map fun vm => (id, vm)

/-- The space of a task that can make a call; one that loads a mapping is in a call. -/
def caller (pid : ℕ) : Option (ℕ × TaskVm) := if (s.loading pid).isSome then none else s.spaceOf pid

def put (id : ℕ) (m : Space) : State :=
  { s with phys := m.phys, spaces := update s.spaces id (some m.vm) }

def registered (vm : TaskVm) (base bytes : U64) : Bool :=
  match vm.userPml4 with
  | none => false
  | some pml4 => registeredRangeOverlaps s.reg pml4 base bytes

/-- `inputOwner` is whether the task holds the display. -/
def sysFbRegister (fb : Screen) (pid : ℕ) (pixels pitch : U64) (inputOwner memory : Bool) : State :=
  match s.caller pid with
  | none => s
  | some (_, vm) =>
    match vm.userPml4, fb.sourceSpan pitch with
    | some pml4, some bytes =>
      if !inputOwner ∨ pixels = 0#64 then s
      else
        let ok := vm.uvmBufferOk s.phys pixels bytes false
        let s := { s with phys := ok.2 }
        if !ok.1 then s
        else
          match framebufferRegisterUser s.phys pml4 pid pixels (pitch.setWidth 32) bytes memory with
          | none => s
          | some g => { s with reg := some g }
    | _, _ => s

def sysFbUnregister (pid : ℕ) : State :=
  match s.caller pid with
  | none => s
  | some (_, vm) =>
    match vm.userPml4 with
    | none => s
    | some pml4 => { s with reg := framebufferUnregisterUser s.reg pml4 pid }

/-- `sys_fb_present` up to the copy: the checks of its buffers bring pages in. -/
def sysFbPresent (fb : Screen) (pid : ℕ) (pixels pitch rects count : U64) : State :=
  match s.caller pid with
  | none => s
  | some (_, vm) =>
    match vm.userPml4, fb.sourceSpan pitch with
    | some pml4, some bytes =>
      let matched := registrationMatches s.reg pml4 pid pixels (pitch.setWidth 32) bytes
      let ok := if matched then (true, s.phys) else vm.uvmBufferOk s.phys pixels bytes false
      if !ok.1 then { s with phys := ok.2 }
      else { s with phys := (vm.uvmBufferOk ok.2 rects (count * 16) false).2 }
    | _, _ => s

def mapping (pid : ℕ) (call : TaskVm → Space → ℤ × Space) : State :=
  match s.caller pid with
  | none => s
  | some (id, vm) => s.put id (call vm ⟨vm,s.phys⟩).2

def sysMmap (pid : ℕ) (addr len : U64) (prot flags : U32) (fd : FdFile) (offset : U64) : State :=
  match s.caller pid with
  | none => s
  | some (id, vm) =>
    match Space.sysMmap ⟨vm,s.phys⟩ addr len prot flags fd offset with
    | (.inl _, m) => s.put id m
    | (.inr l, m) => { s.put id m with loading := update s.loading pid (some l) }

def mmapCopyFile (pid : ℕ) : State :=
  match s.spaceOf pid, s.loading pid with
  | some (id, vm), some l => s.put id (Space.mmapCopyFile ⟨vm,s.phys⟩ l).2
  | _, _ => s

/-- The end of `sys_mmap` for a file, once the copy has returned. -/
def mmapFinish (pid : ℕ) (rc : ℤ) : State :=
  match s.spaceOf pid, s.loading pid with
  | some (id, vm), some l =>
    { s.put id (Space.mmapFinish ⟨vm,s.phys⟩ l rc).2 with
      loading := update s.loading pid none }
  | _, _ => s

def faultIn (pid : ℕ) (addr : U64) (writable : Bool) : State :=
  match s.caller pid with
  | none => s
  | some (_, vm) => { s with phys := (vm.uvmFaultIn s.phys addr writable).2 }

def Unused (id : ℕ) : Prop := ∀ t ∈ s.tasks, t.2 ≠ id
instance (id : ℕ) : Decidable (s.Unused id) := inferInstanceAs (Decidable (∀ t ∈ _, _))

def tearDown (id : ℕ) : State :=
  match s.spaces id with
  | none => s
  | some vm =>
    match vm.userPml4 with
    | none => s
    | some pml4 =>
      if s.Unused id then
        { s with phys := Phys.freeUserPml4 pml4 s.phys, spaces := update s.spaces id none }
      else s

def spawn (k : KernelTables) (pid id : ℕ) (steps : List LoadStep) (ok : Bool) (brkBase : U64) :
    State :=
  if (s.tasks.lookup pid).isSome ∨ (s.spaces id).isSome then s
  else
    match s.phys.loadImage k steps ok with
    | (none, ph) => { s with phys := ph }
    | (some r, ph) =>
      { s with
        phys := ph
        spaces := update s.spaces id (some (Spaces.freshVm r brkBase))
        tasks := (pid, id) :: s.tasks }

def clone (pid child : ℕ) : State :=
  match s.caller pid with
  | none => s
  | some (id, _) =>
    if (s.tasks.lookup child).isSome then s else { s with tasks := (child, id) :: s.tasks }

def leave (pid : ℕ) (vm : TaskVm) : State :=
  let reg := match vm.userPml4 with
    | none => s.reg
    | some pml4 => framebufferUnregisterUser s.reg pml4 pid
  { s with
    tasks := s.tasks.filter fun t => t.1 ≠ pid
    loading := update s.loading pid none
    reg := reg }

/-- `mark_task_exited`; the space stays until the task is reaped. -/
def exit (pid : ℕ) : State :=
  match s.spaceOf pid with
  | none => s
  | some (_, vm) => s.leave pid vm

/-- `process_execve` of a task: once the new image is loaded, the old space goes with its last
task, unless it is recorded as lent out. -/
def exec (k : KernelTables) (pid id : ℕ) (steps : List LoadStep) (ok : Bool) (brkBase : U64) :
    State :=
  match s.caller pid with
  | none => s
  | some (old, vm) =>
    if (s.spaces id).isSome then s
    else
      match s.phys.loadImage k steps ok with
      | (none, ph) => { s with phys := ph }
      | (some r, ph) =>
        let s := { s with
          phys := ph, spaces := update s.spaces id (some (Spaces.freshVm r brkBase)) }
        let s := s.leave pid vm
        let s := { s with tasks := (pid, id) :: s.tasks }
        if vm.shmemSharedOut > 0 then s else s.tearDown old

end State

inductive Op where
  | register (pid : ℕ) (pixels pitch : U64) (inputOwner memory : Bool)
  | unregister (pid : ℕ)
  | present (pid : ℕ) (pixels pitch rects count : U64)
  | mmap (pid : ℕ) (addr len : U64) (prot flags : U32) (fd : FdFile) (offset : U64)
  | mmapCopy (pid : ℕ)
  | mmapFinish (pid : ℕ) (rc : ℤ)
  | munmap (pid : ℕ) (addr len : U64)
  | mprotect (pid : ℕ) (addr len : U64) (prot : U32)
  | madvise (pid : ℕ) (addr len : U64) (advice : U32)
  | brk (pid : ℕ) (addr : U64)
  | fault (pid : ℕ) (addr : U64) (writable : Bool)
  | spawn (pid id : ℕ) (steps : List LoadStep) (ok : Bool) (brkBase : U64)
  | clone (pid child : ℕ)
  | exec (pid id : ℕ) (steps : List LoadStep) (ok : Bool) (brkBase : U64)
  | exit (pid : ℕ)
  | reap (id : ℕ)

def step (k : KernelTables) (fb : Screen) (s : State) : Op → State
  | .register pid pixels pitch inputOwner memory => s.sysFbRegister fb pid pixels pitch inputOwner memory
  | .unregister pid => s.sysFbUnregister pid
  | .present pid pixels pitch rects count => s.sysFbPresent fb pid pixels pitch rects count
  | .mmap pid addr len prot flags fd offset => s.sysMmap pid addr len prot flags fd offset
  | .mmapCopy pid => s.mmapCopyFile pid
  | .mmapFinish pid rc => s.mmapFinish pid rc
  | .munmap pid addr len => s.mapping pid fun _ m => m.sysMunmap addr len
  | .mprotect pid addr len prot => s.mapping pid fun vm m => m.sysMprotect (s.registered vm) addr len prot
  | .madvise pid addr len advice =>
    s.mapping pid fun vm m => m.sysMadvise (s.registered vm) addr len advice
  | .brk pid addr => s.mapping pid fun _ m => m.sysBrk addr
  | .fault pid addr writable => s.faultIn pid addr writable
  | .spawn pid id steps ok brkBase => s.spawn k pid id steps ok brkBase
  | .clone pid child => s.clone pid child
  | .exec pid id steps ok brkBase => s.exec k pid id steps ok brkBase
  | .exit pid => s.exit pid
  | .reap id => s.tearDown id

end GaiaKernel.Display
