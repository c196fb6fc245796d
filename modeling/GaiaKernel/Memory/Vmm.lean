import GaiaKernel.Memory.Pmm

/-! # Four-level page tables

The walks of memory/vmm.c over physical memory. A table is named by the physical address
of its frame; the direct map makes `phys_to_virt` the identity on those names. TLB
invalidation has no counterpart here.
-/
namespace GaiaKernel

/-- Physical memory seen as page tables, with the frame allocator beside it. -/
structure Phys where
  mem : U64 → BitVec 9 → U64
  pmm : Pmm

def pml4Index (virt : U64) : BitVec 9 := (virt >>> 39).setWidth 9
def pdptIndex (virt : U64) : BitVec 9 := (virt >>> 30).setWidth 9
def pdIndex (virt : U64) : BitVec 9 := (virt >>> 21).setWidth 9
def ptIndex (virt : U64) : BitVec 9 := (virt >>> 12).setWidth 9
def tableOf (e : U64) : U64 := e &&& vmmAddrMask
def linkEntry (f flags : U64) : U64 := f ||| vmmPresent ||| vmmWrite ||| (flags &&& vmmUser)

namespace Phys
variable (ph : Phys)

def write (table : U64) (i : BitVec 9) (e : U64) : Phys :=
  { ph with mem := fun t j => if t = table ∧ j = i then e else ph.mem t j }

def zeroFrame (frame : U64) : Phys :=
  { ph with mem := fun t j => if t = frame then 0#64 else ph.mem t j }

def freeFrame (frame : U64) : Phys := { ph with pmm := ph.pmm.pmmFreeFrame frame }

def allocFrame : U64 × Phys :=
  let r := ph.pmm.pmmAllocFrame
  (r.1, { ph with pmm := r.2 })

/-- One level of `walk_or_create`: follow a present entry, widened to user access for a user
mapping, or hang a fresh zeroed table below it. Levels that can hold a huge page refuse to divide
one. -/
def walkLevel (huge : Bool) (table : U64) (i : BitVec 9) (flags : U64) : Option U64 × Phys :=
  let e := ph.mem table i
  if has e vmmPresent then
    if huge && has e vmmPs then (none, ph)
    else
      let ph' := if has flags vmmUser && !has e vmmUser then ph.write table i (e ||| vmmUser)
        else ph
      (some (tableOf (ph'.mem table i)), ph')
  else
    let r := ph.allocFrame
    if r.1 = 0#64 then (none, r.2)
    else (some r.1, (r.2.zeroFrame r.1).write table i (linkEntry r.1 flags))

def walkOrCreate (pml4 virt flags : U64) : Option U64 × Phys :=
  match ph.walkLevel false pml4 (pml4Index virt) flags with
  | (none, ph₁) => (none, ph₁)
  | (some pdpt, ph₁) =>
    match ph₁.walkLevel true pdpt (pdptIndex virt) flags with
    | (none, ph₂) => (none, ph₂)
    | (some pd, ph₂) => ph₂.walkLevel true pd (pdIndex virt) flags

def walkOnly (pml4 virt : U64) : Option U64 :=
  let e := ph.mem pml4 (pml4Index virt)
  if !has e vmmPresent then none
  else
    let e₁ := ph.mem (tableOf e) (pdptIndex virt)
    if !has e₁ vmmPresent || has e₁ vmmPs then none
    else
      let e₂ := ph.mem (tableOf e₁) (pdIndex virt)
      if !has e₂ vmmPresent || has e₂ vmmPs then none
      else some (tableOf e₂)

def vmmMapIn (pml4 virt phys flags : U64) : Bool × Phys :=
  if has phys 0xFFFF800000000000#64 then (false, ph)
  else
    match ph.walkOrCreate pml4 virt flags with
    | (none, ph') => (false, ph')
    | (some pt, ph') =>
      (true, ph'.write pt (ptIndex virt) ((phys &&& vmmAddrMask) ||| (flags ||| vmmPresent)))

/-- Map a fresh zeroed frame at `virt`: allocate, clear, map, and give the frame back if the
mapping fails. -/
def mapFresh (pml4 virt flags : U64) : Bool × Phys :=
  let a := ph.allocFrame
  if a.1 = 0#64 then (false, a.2)
  else
    match (a.2.zeroFrame a.1).vmmMapIn pml4 virt a.1 flags with
    | (true, ph') => (true, ph')
    | (false, ph') => (false, ph'.freeFrame a.1)

def vmmProtectIn (pml4 virt flags : U64) : Bool × Phys :=
  match ph.walkOnly pml4 virt with
  | none => (false, ph)
  | some pt =>
    let e := ph.mem pt (ptIndex virt)
    if !has e vmmPresent then (false, ph)
    else
      let keep := (e &&& vmmAddrMask) ||| (e &&& vmmShared)
      (true, ph.write pt (ptIndex virt) (keep ||| (flags ||| vmmPresent)))

def vmmEntryIn (pml4 virt : U64) : U64 :=
  match ph.walkOnly pml4 virt with
  | none => 0#64
  | some pt =>
    let e := ph.mem pt (ptIndex virt)
    if !has e vmmPresent then 0#64 else e

def vmmUnmapIn (pml4 virt : U64) : Bool × Phys :=
  match ph.walkOnly pml4 virt with
  | none => (false, ph)
  | some pt => (true, ph.write pt (ptIndex virt) 0#64)

/-- Physical address behind a virtual one, honouring 1 GiB and 2 MiB leaves; 0 if any level
is missing. -/
def vmmTranslateIn (pml4 virt : U64) : U64 :=
  let e := ph.mem pml4 (pml4Index virt)
  if !has e vmmPresent then 0#64
  else
    let e₁ := ph.mem (tableOf e) (pdptIndex virt)
    if !has e₁ vmmPresent then 0#64
    else if has e₁ vmmPs then (e₁ &&& vmmAddrMask) ||| (virt &&& 0x3FFFFFFF#64)
    else
      let e₂ := ph.mem (tableOf e₁) (pdIndex virt)
      if !has e₂ vmmPresent then 0#64
      else if has e₂ vmmPs then (e₂ &&& vmmAddrMask) ||| (virt &&& 0x1FFFFF#64)
      else
        let e₃ := ph.mem (tableOf e₂) (ptIndex virt)
        if !has e₃ vmmPresent then 0#64
        else (e₃ &&& vmmAddrMask) ||| (virt &&& 0xFFF#64)

end Phys

end GaiaKernel
