import GaiaKernel.Memory.Entry

/-! # Building and tearing down user page tables

The part of loader/process.c that touches page tables, and the page mapping the image
loaders share. Freeing changes the allocator only, so the walks of `free_user_pml4` read
the tables as they were when the teardown began.
-/
namespace GaiaKernel

/-- What `process_pml4_create` copies from the kernel's tables: the upper half of `kernel_pml4`, and
entry 0 of the page directory pointer table below its slot 0, if that slot is present. -/
structure KernelTables where
  upper : BitVec 9 → U64
  low : Option U64

def entrySlots : List (BitVec 9) := (List.range 512).map (BitVec.ofNat 9)

theorem mem_entrySlots (i : BitVec 9) : i ∈ entrySlots := by
  simp only [entrySlots,List.mem_map,List.mem_range]
  exact ⟨i.toNat,i.isLt,BitVec.eq_of_toNat_eq (by simp)⟩

namespace Phys
variable (ph : Phys)

def copyUpper (k : KernelTables) (pml4 : U64) : Phys :=
  { ph with mem := fun t i => if t = pml4 ∧ 256 ≤ i.toNat then k.upper i else ph.mem t i }

def processPml4Create (k : KernelTables) : U64 × Phys :=
  let a := ph.allocFrame
  if a.1 = 0#64 then (0, a.2)
  else
    let b := (a.2.zeroFrame a.1).allocFrame
    if b.1 = 0#64 then (0, b.2.freeFrame a.1)
    else
      let ph₁ := b.2.zeroFrame b.1
      let ph₂ := match k.low with
        | none => ph₁
        | some e => ph₁.write b.1 0#9 e
      -- VMM_PRESENT | VMM_WRITE | VMM_USER
      let ph₃ := ph₂.write a.1 0#9 (linkEntry b.1 vmmUser)
      (a.1, ph₃.copyUpper k a.1)

def processPml4EnableLowElf (pml4 : U64) : Phys :=
  if has (ph.mem pml4 0#9) pml4PrivateLow then ph
  else
    let ph' := ph.write (tableOf (ph.mem pml4 0#9)) 0#9 0#64
    ph'.write pml4 0#9 (ph'.mem pml4 0#9 ||| pml4PrivateLow)

/-- Innermost loop body of `free_pdpt_subtree`: give back a page unless it is borrowed. -/
def freeLeaf (pt : U64) (ph : Phys) (k : BitVec 9) : Phys :=
  let pte := ph.mem pt k
  if !has pte vmmPresent then ph
  else if has pte vmmShared then ph
  else ph.freeFrame (pte &&& vmmAddrMask)

def freePt (pt : U64) (ph : Phys) : Phys := (entrySlots.foldl (freeLeaf pt) ph).freeFrame pt

/-- The two outer loops of `free_pdpt_subtree`: free what is below the present entries of
these slots that are no huge pages, then the table itself. -/
def freeTable (slots : List (BitVec 9)) (child : U64 → Phys → Phys) (table : U64) (ph : Phys) :
    Phys :=
  (slots.foldl (fun ph i =>
    let e := ph.mem table i
    if !has e vmmPresent || has e vmmPs then ph else child (tableOf e) ph) ph).freeFrame table

def freePd : U64 → Phys → Phys := freeTable entrySlots freePt

def freePdptSubtree (pdpt : U64) (startIdx : ℕ) : Phys → Phys :=
  freeTable (entrySlots.drop startIdx) freePd pdpt

/-- Slot 0 holds the identity map shared with the kernel unless the space made it private;
slots 256 and up are the kernel's. -/
def freeUserPml4 (pml4 : U64) (ph : Phys) : Phys :=
  let pml4_0 := ph.mem pml4 0#9
  let ph₁ :=
    if has pml4_0 vmmPresent then
      freePdptSubtree (tableOf pml4_0) (if has pml4_0 pml4PrivateLow then 0 else 1) ph
    else ph
  let ph₂ := ((entrySlots.take 256).drop 1).foldl (fun ph p =>
    let e := ph.mem pml4 p
    if !has e vmmPresent then ph else freePdptSubtree (tableOf e) 0 ph) ph₁
  ph₂.freeFrame pml4

end Phys

/-- Flags an image loader maps a page with: no address bits, and never borrowed. -/
abbrev ImageFlags := { flags : U64 // tableOf flags = 0#64 ∧ has flags vmmShared = false }

/-- Addresses the image loaders accept are in the lower half. -/
abbrev ImageVa := { va : U64 // va.toNat < 2 ^ 47 }

/-- What `elf_load`, `pe_load` and `user_stack_alloc_in` do to the tables of a new image. -/
inductive LoadStep where
  | enableLow
  | page (va : ImageVa) (flags : ImageFlags)

namespace Phys

def loadStep (ph : Phys) (pml4 : U64) : LoadStep → Bool × Phys
  | .enableLow => (true, ph.processPml4EnableLowElf pml4)
  | .page va flags =>
    if ph.vmmTranslateIn pml4 va.1 ≠ 0#64 then (true, ph) else ph.mapFresh pml4 va.1 flags.1

def loadSteps (pml4 : U64) : List LoadStep → Phys → Bool × Phys
  | [], ph => (true, ph)
  | s :: steps, ph =>
    match ph.loadStep pml4 s with
    | (false, ph') => (false, ph')
    | (true, ph') => loadSteps pml4 steps ph'

/-- A new space with its pages, or nothing and every frame given back. The flag `ok` stands for
the checks of the loaders that do not concern page tables. -/
def loadImage (ph : Phys) (k : KernelTables) (steps : List LoadStep) (ok : Bool) :
    Option U64 × Phys :=
  let c := ph.processPml4Create k
  if c.1 = 0#64 then (none, c.2)
  else
    match loadSteps c.1 steps c.2 with
    | (false, ph') => (none, freeUserPml4 c.1 ph')
    | (true, ph') => if ok then (some c.1, ph') else (none, freeUserPml4 c.1 ph')

end Phys

end GaiaKernel
