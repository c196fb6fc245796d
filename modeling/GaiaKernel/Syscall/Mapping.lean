import GaiaKernel.Memory.Protection
import GaiaKernel.Syscall.Handlers

/-! # System calls on the caller's mappings

`sys_mmap`, `sys_madvise`, `sys_mprotect`, `sys_munmap` and `sys_brk` of arch/syscall.c. The
display refuses some of them on the buffer it has registered; the check is the argument
`registered`, and display/framebuffer.c supplies it.
-/
namespace GaiaKernel.Syscall

def PROT_READ : U32 := 1#32
def PROT_WRITE : U32 := 2#32
def PROT_EXEC : U32 := 4#32

def MAP_PRIVATE : U32 := 0x02#32
def MAP_FIXED : U32 := 0x10#32
def MAP_ANONYMOUS : U32 := 0x20#32
def userFbBase : U64 := 0x60000000#64
abbrev has32 (e mask : U32) : Bool := e &&& mask != 0#32

/-- PTE bits of a protection, or 0 for one the page tables cannot express. -/
def protToPte (prot : U32) : U64 :=
  if prot = 0#32 then vmmPresent ||| vmmUser ||| vmmNx
  else if has32 prot (~~~(PROT_READ ||| PROT_WRITE ||| PROT_EXEC)) then 0#64
  else if !has32 prot PROT_READ then 0#64
  else
    let flags := vmmPresent ||| vmmUser
    let flags := if has32 prot PROT_WRITE then flags ||| vmmWrite else flags
    if !has32 prot PROT_EXEC then flags ||| vmmNx else flags

theorem protToPte_plain (prot : U32) : PlainFlags (protToPte prot) := by
  unfold protToPte PlainFlags FlagsOnly
  split_ifs <;> decide

def roundUp (len : U64) : Option U64 :=
  let bytes := (len + 4095) &&& ~~~4095#64
  if bytes < len then none else some bytes

structure Space where
  vm : TaskVm
  phys : Phys

/-- What is behind the descriptor argument of `mmap`; a file counts with its size. -/
inductive FdFile where
  | unused
  | notFile
  | directory
  | file (size : U64)

/-- A file mapping on its way through `sys_mmap`: its range is reserved and its file is
still to be copied. -/
structure Loading where
  size : U64
  offset : U64
  base : U64
  bytes : U64
  pteFlags : U64
  plain : PlainFlags pteFlags

namespace Space
variable (m : Space)

def mmapFile (flags : U32) (fd : FdFile) (offset : U64) : Except ℤ (Option U64) :=
  if has32 flags MAP_ANONYMOUS then .ok none
  else if offset.toInt < 0 ∨ has offset 4095#64 then .error (-EINVAL)
  else
    match fd with
    | .unused => .error (-EBADF)
    | .notFile => .error (-EACCES)
    | .directory => .error (-ENODEV)
    | .file size => if !has32 flags MAP_PRIVATE then .error (-ENODEV) else .ok (some size)

/-- `sys_mmap` up to the copy of the file: an anonymous mapping returns, a file mapping is
left loading. -/
def sysMmap (addr len : U64) (prot flags : U32) (fd : FdFile) (offset : U64) :
    (ℤ ⊕ Loading) × Space :=
  if len.toInt ≤ 0 then (.inl (-EINVAL), m)
  else if m.vm.userPml4.isNone then (.inl (-EINVAL), m)
  else
    let pteFlags := protToPte prot
    if pteFlags = 0#64 then (.inl (-EINVAL), m)
    else
      match roundUp len with
      | none => (.inl (-EINVAL), m)
      | some bytes =>
        match mmapFile flags fd offset with
        | .error e => (.inl e, m)
        | .ok file =>
          let loadFlags := if file.isSome then pteFlags ||| vmmWrite else pteFlags
          let r := m.vm.uvmReserve m.phys addr bytes loadFlags (has32 flags MAP_FIXED)
          let m' := { m with vm := r.2 }
          if r.1 = 0#64 then (.inl (-ENOMEM), m')
          else
            match file with
            | none => (.inl r.1.toInt, m')
            | some size => (.inr ⟨size,offset,r.1,bytes,pteFlags,protToPte_plain prot⟩, m')

/-- The protection that was asked for, once the copy returned `rc`; the pages were writable
for the copy. -/
def mmapProtect (l : Loading) (rc : ℤ) : ℤ × Space :=
  if rc = 0 ∧ l.pteFlags ||| vmmWrite ≠ l.pteFlags then
    let r := m.vm.uvmProtect m.phys l.base l.bytes l.pteFlags
    (if r.1 then 0 else -ENOMEM, { m with phys := r.2 })
  else (rc, m)

def mmapFinish (l : Loading) (rc : ℤ) : ℤ × Space :=
  let p := m.mmapProtect l rc
  if p.1 ≠ 0 then
    let r := p.2.vm.uvmRelease p.2.phys l.base l.bytes
    (p.1, ⟨r.2.1,r.2.2⟩)
  else (l.base.toInt, p.2)

/-- `mmap_copy_file` up to the calls into the VFS, which may sleep: `none` when they are next. The
copy lands in pages made present here. -/
def mmapCopyFile (l : Loading) : Option ℤ × Space :=
  if l.offset ≥ l.size then (some 0, m)
  else
    let want := l.size - l.offset
    let want := if want > l.bytes then l.bytes else want
    match m.vm.uvmBufferOk m.phys l.base want true with
    | (false, ph) => (some (-EFAULT), { m with phys := ph })
    | (true, ph) => (none, { m with phys := ph })

/-- Of the advice only 4 and 8, `MADV_DONTNEED` and `MADV_FREE`, do anything. -/
def sysMadvise (registered : U64 → U64 → Bool) (addr len : U64) (advice : U32) : ℤ × Space :=
  if has addr 4095#64 ∨ len.toInt < 0 then (-EINVAL, m)
  else if m.vm.userPml4.isNone then (-EINVAL, m)
  else
    match roundUp len with
    | none => (-EINVAL, m)
    | some bytes =>
      if advice ∈ [0#32, 1#32, 2#32, 3#32] then (0, m)
      else if advice = 4#32 ∨ advice = 8#32 then
        if bytes = 0#64 then (0, m)
        else if registered addr bytes then (-EBUSY, m)
        else
          let r := m.vm.uvmDiscard m.phys addr bytes
          (if r.1 then 0 else -EINVAL, { m with phys := r.2 })
      else (-EINVAL, m)

def sysMprotect (registered : U64 → U64 → Bool) (addr len : U64) (prot : U32) : ℤ × Space :=
  if len.toInt ≤ 0 ∨ has addr 4095#64 then (-EINVAL, m)
  else if m.vm.userPml4.isNone then (-EINVAL, m)
  else
    let pteFlags := protToPte prot
    if pteFlags = 0#64 then (-EINVAL, m)
    else
      match roundUp len with
      | none => (-EINVAL, m)
      | some bytes =>
        if registered addr bytes then (-EBUSY, m)
        else
          let r := m.vm.uvmProtect m.phys addr bytes pteFlags
          (if r.1 then 0 else -1, { m with phys := r.2 })

def sysMunmap (addr len : U64) : ℤ × Space :=
  if len.toInt ≤ 0 ∨ has addr 4095#64 then (-EINVAL, m)
  else if m.vm.userPml4.isNone then (-EINVAL, m)
  else
    match roundUp len with
    | none => (-EINVAL, m)
    | some bytes =>
      let r := m.vm.uvmRelease m.phys addr bytes
      (if r.1 then 0 else -1, ⟨r.2.1,r.2.2⟩)

def brkPage (addr : U64) : U64 := (addr + 4095) &&& ~~~4095#64
def brkFlags : U64 := vmmPresent ||| vmmUser ||| vmmWrite ||| vmmNx

def sysBrk (addr : U64) : ℤ × Space :=
  let current := m.vm.brkCurrent.toInt
  if m.vm.brkBase = 0#64 then (-ENOSYS, m)
  else if addr = 0#64 then (current, m)
  else if addr < m.vm.brkBase ∨ addr ≥ userFbBase then (current, m)
  else
    let old := brkPage m.vm.brkCurrent
    let newEnd := brkPage addr
    if newEnd > old then
      let r := m.vm.uvmReserve m.phys old (newEnd - old) brkFlags true
      if r.1 = 0#64 then (current, { m with vm := r.2 })
      else (addr.toInt, { m with vm := { r.2 with brkCurrent := addr } })
    else if newEnd < old then
      let r := m.vm.uvmRelease m.phys newEnd (old - newEnd)
      if !r.1 then (current, ⟨r.2.1,r.2.2⟩)
      else (addr.toInt, ⟨{ r.2.1 with brkCurrent := addr },r.2.2⟩)
    else (addr.toInt, { m with vm := { m.vm with brkCurrent := addr } })

end Space

end GaiaKernel.Syscall
