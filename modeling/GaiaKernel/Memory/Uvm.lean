import GaiaKernel.Lib.Trace
import GaiaKernel.Memory.Vmm

/-! # User address spaces

The functions of memory/uvm.c. An address space is its reservation table, the free list
and bump pointer of the mmap arena, and a page-table root; frames live in `Phys`.
-/
namespace GaiaKernel
open Function

/-- A freed arena range awaiting reuse; a zero length marks a free slot. -/
structure VmHole where
  base : U64
  len : U64
  deriving DecidableEq

structure UserVma where
  start : U64
  stop : U64
  pteFlags : U64
  used : Bool
  deriving DecidableEq

structure TaskVm where
  userPml4 : Option U64
  brkBase : U64
  brkCurrent : U64
  shmemNextVa : U64
  mmapNextVa : U64
  mmapHoles : Fin taskMmapHoles → VmHole
  vmas : Fin maxUserVmas → UserVma
  shmemSharedOut : ℤ

def VmHole.empty : VmHole := ⟨0,0⟩
def UserVma.empty : UserVma := ⟨0,0,0,false⟩

def vmaSlots : List (Fin maxUserVmas) := List.finRange maxUserVmas
def holeSlots : List (Fin taskMmapHoles) := List.finRange taskMmapHoles

theorem mem_vmaSlots (i : Fin maxUserVmas) : i ∈ vmaSlots := List.mem_finRange i
theorem mem_holeSlots (i : Fin taskMmapHoles) : i ∈ holeSlots := List.mem_finRange i

/-- Iterations of `for (off = 0; off < bytes; off += 4096)`. -/
def pageCount (bytes : U64) : ℕ := (bytes.toNat + 4095) / 4096

def uvmRangeOk (base bytes : U64) : Bool :=
  if bytes = 0 ∨ base < userVaMin then false
  else if base + bytes < base ∨ base + bytes > userVaMax then false
  else if base < userStackTop ∧ base + bytes > userStackLow then false
  else true

namespace TaskVm
variable (vm : TaskVm)

def uvmInit : TaskVm :=
  { vm with
    shmemNextVa := userShmemBase
    mmapNextVa := userMmapBase
    shmemSharedOut := 0
    mmapHoles := fun _ => VmHole.empty
    vmas := fun _ => UserVma.empty }

def vmaAt (address : U64) : Option (Fin maxUserVmas) :=
  vmaSlots.find? fun i =>
    (vm.vmas i).used && decide (address ≥ (vm.vmas i).start) && decide (address < (vm.vmas i).stop)

def vmaFreeSlot : Option (Fin maxUserVmas) := vmaSlots.find? fun i => !(vm.vmas i).used

def anyTranslated (ph : Phys) (pml4 : U64) : ℕ → U64 → Bool
  | 0, _ => false
  | n + 1, va => ph.vmmTranslateIn pml4 va != 0#64 || anyTranslated ph pml4 n (va + 4096)

def rangeIsUnmapped (ph : Phys) (pml4 base bytes : U64) : Bool :=
  !(vmaSlots.any fun i => (vm.vmas i).used && decide (base < (vm.vmas i).stop) &&
      decide (base + bytes > (vm.vmas i).start)) &&
    !anyTranslated ph pml4 (pageCount bytes) base

def holeTouches (h : VmHole) (base stop : U64) : Bool :=
  h.len != 0#64 && !(decide (h.base + h.len < base) || decide (h.base > stop))

/-- The merge loop of `hole_add`. It restarts at slot 0 after each merge; a merge empties a slot, so
one round more than there are slots is enough. -/
def holeMerge : ℕ → (Fin taskMmapHoles → VmHole) → U64 → U64 →
    (Fin taskMmapHoles → VmHole) × U64 × U64
  | 0, holes, base, stop => (holes, base, stop)
  | fuel + 1, holes, base, stop =>
    match holeSlots.find? fun i => holeTouches (holes i) base stop with
    | none => (holes, base, stop)
    | some i =>
      let h := holes i
      let holeEnd := h.base + h.len
      holeMerge fuel (update holes i VmHole.empty)
        (if h.base < base then h.base else base) (if holeEnd > stop then holeEnd else stop)

def holeAdd (base bytes : U64) : TaskVm :=
  let m := holeMerge (taskMmapHoles + 1) vm.mmapHoles base (base + bytes)
  match holeSlots.find? fun i => (m.1 i).len == 0#64 with
  | some i => { vm with mmapHoles := update m.1 i ⟨m.2.1,m.2.2 - m.2.1⟩ }
  | none => { vm with mmapHoles := m.1 }

/-- First fit over the free list, then the bump pointer; 0 when the arena is exhausted. -/
def arenaAlloc (bytes : U64) : U64 × TaskVm :=
  match holeSlots.find? fun i =>
      !((vm.mmapHoles i).len == 0#64 || decide ((vm.mmapHoles i).len < bytes)) with
  | some i =>
    let h := vm.mmapHoles i
    (h.base, { vm with
      mmapHoles := update vm.mmapHoles i ⟨h.base + bytes,h.len - bytes⟩ })
  | none =>
    let base := vm.mmapNextVa
    if base + bytes < base ∨ base + bytes > userMmapLimit then (0, vm)
    else (base, { vm with mmapNextVa := base + bytes })

def spans (v : UserVma) (start stop : U64) : Bool :=
  v.used && decide (start > v.start) && decide (stop < v.stop)

def vmaRemoveStep (start stop : U64) (split : Option (Fin maxUserVmas))
    (vmas : Fin maxUserVmas → UserVma) (i : Fin maxUserVmas) : Fin maxUserVmas → UserVma :=
  let v := vmas i
  if !v.used ∨ start ≥ v.stop ∨ stop ≤ v.start then vmas
  else if start ≤ v.start ∧ stop ≥ v.stop then update vmas i UserVma.empty
  else if start ≤ v.start then update vmas i { v with start := stop }
  else if stop ≥ v.stop then update vmas i { v with stop := start }
  else
    match split with
    | some k =>
      update (update vmas k ⟨stop,v.stop,v.pteFlags,true⟩) i
        { v with stop := start }
    -- `split` was reserved because of this very record, so it is not null here.
    | none => vmas

/-- `none` when the record that has to be split finds no free slot. -/
def vmaRemoveRange (start stop : U64) : Option TaskVm :=
  let splits := vmaSlots.any fun i => spans (vm.vmas i) start stop
  let split := if splits then vm.vmaFreeSlot else none
  if splits && split.isNone then none
  else some { vm with vmas := vmaSlots.foldl (vmaRemoveStep start stop split) vm.vmas }

/-- The page is usable afterwards, materialised from its reservation if need be. Only page tables
and frames change. -/
def uvmFaultIn (ph : Phys) (addr : U64) (writable : Bool) : Bool × Phys :=
  match vm.userPml4 with
  | none => (false, ph)
  | some pml4 =>
    let page := pageOf addr
    let entry := ph.vmmEntryIn pml4 page
    if entry ≠ 0#64 then (has entry vmmUser && (!writable || has entry vmmWrite), ph)
    else
      match vm.vmaAt page with
      | none => (false, ph)
      | some i =>
        let flags := (vm.vmas i).pteFlags
        if !has flags vmmUser || (writable && !has flags vmmWrite) then (false, ph)
        else ph.mapFresh pml4 page flags

def faultInPages (writable : Bool) : ℕ → U64 → Phys → Bool × Phys
  | 0, _, ph => (true, ph)
  | n + 1, page, ph =>
    match vm.uvmFaultIn ph page writable with
    | (false, ph') => (false, ph')
    | (true, ph') => faultInPages writable n (page + 4096) ph'

def uvmBufferOk (ph : Phys) (pointer bytes : U64) (writable : Bool) : Bool × Phys :=
  if bytes = 0#64 then (true, ph)
  else if vm.userPml4.isNone then (false, ph)
  else
    let base := pointer
    let stop := base + bytes
    if base < userVaMin ∨ stop < base then (false, ph)
    else
      let inGeneralRange := decide (stop ≤ userVaMax)
      let inStack := decide (base ≥ userStackLow) && decide (stop ≤ userStackTop)
      if !inGeneralRange && !inStack then (false, ph)
      else
        let page := pageOf base
        let last := pageOf (stop - 1)
        vm.faultInPages writable ((last - page).toNat / 4096 + 1) page ph

/-- Last record of the table with these flags that satisfies `p`; the search loop of
`uvm_reserve` keeps the last match. -/
def lastVma (pteFlags : U64) (p : UserVma → Bool) : Option (Fin maxUserVmas) :=
  vmaSlots.reverse.find? fun i =>
    (vm.vmas i).used && (vm.vmas i).pteFlags == pteFlags && p (vm.vmas i)

/-- The record-keeping half of `uvm_reserve`: grow a neighbour with the same permissions,
or fill the slot found beforehand. -/
def recordRange (slot : Fin maxUserVmas) (base bytes pteFlags : U64) : TaskVm :=
  let below := vm.lastVma pteFlags fun v => v.stop == base
  let above := vm.lastVma pteFlags fun v => !(v.stop == base) && v.start == base + bytes
  let vmas := vm.vmas
  { vm with vmas :=
    match below, above with
    | some b, some a =>
      update (update vmas b { vmas b with stop := (vmas a).stop }) a
        UserVma.empty
    | some b, none => update vmas b { vmas b with stop := base + bytes }
    | none, some a => update vmas a { vmas a with start := base }
    | none, none => update vmas slot ⟨base,base + bytes,pteFlags,true⟩ }

/-- The reserved base, or 0 with the space unchanged. -/
def uvmReserve (ph : Phys) (addr bytes pteFlags : U64) (fixed : Bool) : U64 × TaskVm :=
  match vm.userPml4 with
  | none => (0, vm)
  | some pml4 =>
    if bytes = 0#64 ∨ has bytes 4095#64 ∨ pteFlags = 0#64 then (0, vm)
    else
      match vm.vmaFreeSlot with
      | none => (0, vm)
      | some slot =>
        if fixed then
          if has addr 4095#64 then (0, vm)
          else if !uvmRangeOk addr bytes then (0, vm)
          else if !vm.rangeIsUnmapped ph pml4 addr bytes then (0, vm)
          else (addr, vm.recordRange slot addr bytes pteFlags)
        else
          let a := vm.arenaAlloc bytes
          if a.1 = 0#64 then (0, a.2) else (a.1, a.2.recordRange slot a.1 bytes pteFlags)

def protectPages (pml4 pteFlags : U64) : ℕ → U64 → Phys → Bool × Phys
  | 0, _, ph => (true, ph)
  | n + 1, va, ph =>
    match ph.vmmProtectIn pml4 va pteFlags with
    | (false, ph') => (false, ph')
    | (true, ph') => protectPages pml4 pteFlags n (va + 4096) ph'

def uvmProtect (ph : Phys) (addr bytes pteFlags : U64) : Bool × Phys :=
  match vm.userPml4 with
  | none => (false, ph)
  | some pml4 =>
    if has addr 4095#64 ∨ has bytes 4095#64 ∨ pteFlags = 0#64 then (false, ph)
    else if !uvmRangeOk addr bytes then (false, ph)
    else
      match vm.faultInPages false (pageCount bytes) addr ph with
      | (false, ph') => (false, ph')
      | (true, ph') => protectPages pml4 pteFlags (pageCount bytes) addr ph'

/-- Unmap one page and give back its frame; the frame of a shared entry belongs to someone
else and stays when `keepShared` is set. -/
def unmapPage (pml4 : U64) (keepShared : Bool) (va : U64) (ph : Phys) : Phys :=
  let entry := ph.vmmEntryIn pml4 va
  if entry = 0#64 then ph
  else
    let ph' := (ph.vmmUnmapIn pml4 va).2
    if keepShared && has entry vmmShared then ph' else ph'.freeFrame (entry &&& vmmAddrMask)

def unmapPages (pml4 : U64) (keepShared : Bool) : ℕ → U64 → Phys → Phys
  | 0, _, ph => ph
  | n + 1, va, ph => unmapPages pml4 keepShared n (va + 4096) (unmapPage pml4 keepShared va ph)

/-- The flag says whether it returned 0. -/
def uvmRelease (ph : Phys) (addr bytes : U64) : Bool × TaskVm × Phys :=
  match vm.userPml4 with
  | none => (false, vm, ph)
  | some pml4 =>
    if has addr 4095#64 ∨ has bytes 4095#64 then (false, vm, ph)
    else if !uvmRangeOk addr bytes then (false, vm, ph)
    else
      match vm.vmaRemoveRange addr (addr + bytes) with
      | none => (false, vm, ph)
      | some vm' =>
        let ph' := unmapPages pml4 true (pageCount bytes) addr ph
        if addr ≥ userMmapBase ∧ addr + bytes ≤ userMmapLimit then
          (true, vm'.holeAdd addr bytes, ph')
        else (true, vm', ph')

/-- Every one of `n` pages from `va` on is reserved and none is shared. -/
def discardable (ph : Phys) (pml4 : U64) : ℕ → U64 → Bool
  | 0, _ => true
  | n + 1, va => (vm.vmaAt va).isSome && !has (ph.vmmEntryIn pml4 va) vmmShared &&
      discardable ph pml4 n (va + 4096)

def uvmDiscard (ph : Phys) (addr bytes : U64) : Bool × Phys :=
  match vm.userPml4 with
  | none => (false, ph)
  | some pml4 =>
    if has addr 4095#64 ∨ has bytes 4095#64 then (false, ph)
    else if !uvmRangeOk addr bytes then (false, ph)
    else if !vm.discardable ph pml4 (pageCount bytes) addr then (false, ph)
    else (true, unmapPages pml4 false (pageCount bytes) addr ph)

end TaskVm

end GaiaKernel
