import GaiaKernel.Lib.Exec
import GaiaKernel.Memory.SharePages

/-! # The kernel's own loads and stores through user pointers

A system call runs on the caller's page tables. When it touches an address, the processor
walks those tables in supervisor mode: neither `VMM_USER` nor, with CR0.WP clear,
`VMM_WRITE` is looked at. Only a missing translation faults, and the fault handler
(interrupts/idt.c) then tries to page the address in or panics. Every touch is recorded
with the tables it went through, so that one can ask afterwards whether user mode could
have made it.
-/
namespace GaiaKernel
open Exec

def vmaKernelStart : U64 := 0xFFFFFFFFC0000000#64

/-- The processor's walk reaches a page, of whatever size. -/
def Phys.mappedIn (ph : Phys) (pml4 virt : U64) : Bool :=
  let e := ph.mem pml4 (pml4Index virt)
  let e₁ := ph.mem (tableOf e) (pdptIndex virt)
  let e₂ := ph.mem (tableOf e₁) (pdIndex virt)
  let e₃ := ph.mem (tableOf e₂) (ptIndex virt)
  has e vmmPresent && has e₁ vmmPresent &&
    (has e₁ vmmPs || has e₂ vmmPresent && (has e₂ vmmPs || has e₃ vmmPresent))

/-- One byte touched through the pointer argument number `arg`, with the tables as they
stood. -/
structure Touch where
  arg : ℕ
  addr : U64
  store : Bool
  memory : Phys

/-- Page tables and frames, and the bytes of the frames by physical address. -/
@[ext] structure Memory where
  phys : Phys
  data : U64 → Byte

/-- What a running system call works on: memory, the touches made so far (latest first) and
the kernel's own objects. -/
structure Core (κ : Type) extends Memory where
  touched : List Touch
  kernel : κ

structure Caller where
  vm : TaskVm
  kernelPml4 : U64

def Caller.root (c : Caller) : U64 := c.vm.userPml4.getD c.kernelPml4

variable {κ : Type}

/-- Frames that an operation takes from the allocator are cleared before they are mapped. -/
def Memory.setPhys (m : Memory) (ph : Phys) : Memory where
  phys := ph
  data a :=
    if !m.phys.pmm.bitmapTest (a.toNat / 4096) && ph.pmm.bitmapTest (a.toNat / 4096) then 0#8
    else m.data a

def Core.setPhys (s : Core κ) (ph : Phys) : Core κ :=
  { s with toMemory := s.toMemory.setPhys ph }

/-- The page-fault handler: demand paging for the kernel's own range, then for the reserved
ranges of the task. `none` is a panic. -/
def Caller.pageFault (c : Caller) (ph : Phys) (addr : U64) (store : Bool) : Option Phys :=
  let kernel := if addr ≥ vmaKernelStart then
      ph.mapFresh c.kernelPml4 (pageOf addr) (vmmPresent ||| vmmWrite ||| vmmNx)
    else (false, ph)
  if kernel.1 then some kernel.2
  else
    match c.vm.uvmFaultIn kernel.2 addr store with
    | (true, ph') => some ph'
    | (false, _) => none

def Caller.pageIn (c : Caller) (ph : Phys) (addr : U64) (store : Bool) : Option Phys :=
  if ph.mappedIn c.root addr then some ph else c.pageFault ph addr store

def touch (c : Caller) (arg : ℕ) (addr : U64) (store : Bool) : Comp (Core κ) U64 := fun s =>
  match c.pageIn s.phys addr store with
  | none => none
  | some ph =>
    some (ph.vmmTranslateIn c.root addr,
      { s.setPhys ph with touched := ⟨arg,addr,store,ph⟩ :: s.touched })

def loadByte (c : Caller) (arg : ℕ) (addr : U64) : Comp (Core κ) Byte := do
  let pa ← touch c arg addr false
  return (← get).data pa

def storeByte (c : Caller) (arg : ℕ) (addr : U64) (b : Byte) : Comp (Core κ) PUnit := do
  let pa ← touch c arg addr true
  modify fun s => { s with data := Function.update s.data pa b }

def loadBytes (c : Caller) (arg : ℕ) : ℕ → U64 → Comp (Core κ) (List Byte)
  | 0, _ => pure []
  | n + 1, addr => do
    let b ← loadByte c arg addr
    return b :: (← loadBytes c arg n (addr + 1))

def storeBytes (c : Caller) (arg : ℕ) : List Byte → U64 → Comp (Core κ) PUnit
  | [], _ => pure ⟨⟩
  | b :: bs, addr => do
    storeByte c arg addr b
    storeBytes c arg bs (addr + 1)

def userBufferOk (c : Caller) (pointer bytes : U64) (writable : Bool) : Comp (Core κ) Bool :=
  fun s =>
    let r := c.vm.uvmBufferOk s.phys pointer bytes writable
    some (r.1, s.setPhys r.2)

/-- User mode could make the access: a present leaf of the caller's own lower half with
`VMM_USER`, and `VMM_WRITE` for a store. -/
def Accessible (vm : TaskVm) (ph : Phys) (addr : U64) (store : Bool) : Prop :=
  LowerHalf addr ∧ ∃ r, vm.userPml4 = some r ∧
    ph.vmmEntryIn r (pageOf addr) ≠ 0#64 ∧ Grants store (ph.vmmEntryIn r (pageOf addr))

def pagesSpanned (base : U64) (len : ℕ) : ℕ := (base.toNat % 4096 + len + 4095) / 4096

/-- Make a range usable: it lies in the lower half, and its pages can be faulted in one after
the other with the access asked for. -/
def reachRange (vm : TaskVm) (base : U64) (len : ℕ) (store : Bool) (ph : Phys) : Bool × Phys :=
  if len = 0 then (true, ph)
  else if base.toNat + len ≤ 2 ^ 47 then
    vm.faultInPages store (pagesSpanned base len) (pageOf base) ph
  else (false, ph)

/-- A caller whose page tables are sound: the space of `r` is one of those that `own`
describes, and its reservations are in bounds. -/
structure SoundSpace (lowPd r : U64) (vm : TaskVm) (ph : Phys) (own : Owner) : Prop where
  safe : FrameSafe lowPd ph own
  root : own r = some (r, [])
  vmRoot : vm.userPml4 = some r
  bounded : Bounded FlagsOnly vm

end GaiaKernel
