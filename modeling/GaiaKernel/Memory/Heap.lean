import GaiaKernel.Lib.BlockList
import GaiaKernel.Memory.Pmm

/-! # Kernel heap

The first-fit allocator of memory/heap.c: `kmalloc` and `kfree` over an address-ordered doubly
linked list of blocks with in-band headers. Memory is a function from word addresses to values; a
header takes the words at offsets 0, 8, 16 and 24. A page is acquired when the frame allocator and
the mapping both succeed, which the outcomes passed to `kmalloc` decide, and never beyond the frames
of the machine. `large_alloc` serves another range of addresses and is left out.
-/
namespace GaiaKernel
open BlockList

def heapBase : ℕ := 0xFFFF900000000000

/-- Static state of heap.c, the memory behind it and the number of frames not mapped yet. -/
structure Heap where
  mem : Mem
  head : ℕ
  tail : ℕ
  heapEnd : ℕ
  frames : ℕ

namespace Heap
variable (h : Heap)

def size (b : ℕ) : ℕ := h.mem b
def free (b : ℕ) : ℕ := h.mem (b + 8)
def next (b : ℕ) : ℕ := h.mem (b + 16)
def prev (b : ℕ) : ℕ := h.mem (b + 24)

def write (k v : ℕ) : Heap := { h with mem := Function.update h.mem k v }
def setSize (b v : ℕ) : Heap := h.write b v
def setFree (b v : ℕ) : Heap := h.write (b + 8) v
def setNext (b v : ℕ) : Heap := h.write (b + 16) v
def setPrev (b v : ℕ) : Heap := h.write (b + 24) v

def linkBack (next b : ℕ) : Heap :=
  if next ≠ 0 then h.setPrev next b else { h with tail := b }

/-- Map pages at the top until `pages` of them are mapped or an acquisition fails. Returns their
number, the heap and the outcomes not used. -/
def heapGrow (h : Heap) : ℕ → List Bool → ℕ × Heap × List Bool
  | 0, grants => (0, h, grants)
  | _ + 1, [] => (0, h, [])
  | pages + 1, granted :: grants =>
    if granted ∧ h.frames ≠ 0 then
      let grown := heapGrow { h with heapEnd := h.heapEnd + 4096, frames := h.frames - 1 } pages grants
      (grown.1 + 1, grown.2)
    else (0, h, grants)

/-- Without a single page it halts. The frames of the bitmap bound what the heap can ever map. -/
def heapInit (mem : Mem) (p : Pmm) (grants : List Bool) : Option Heap :=
  let grown := heapGrow ⟨mem,0,0,heapBase,p.bitmapFrames⟩ 256 grants
  if grown.1 = 0 then none
  else
    let h := { grown.2.1 with head := heapBase }
    let h := h.setSize h.head (grown.1 * 4096 - 32)
    let h := h.setFree h.head 1
    let h := h.setNext h.head 0
    let h := h.setPrev h.head 0
    some { h with tail := h.head }

def listAppend (regionStart regionBytes : ℕ) : Heap :=
  if h.tail ≠ 0 ∧ h.free h.tail ≠ 0 then h.setSize h.tail (h.size h.tail + regionBytes)
  else
    let nb := regionStart
    let h := h.setSize nb (regionBytes - 32)
    let h := h.setFree nb 1
    let h := h.setNext nb 0
    let h := h.setPrev nb h.tail
    let h := if h.tail ≠ 0 then h.setNext h.tail nb else h
    let h := { h with tail := nb }
    if h.head = 0 then { h with head := nb } else h

/-- The scan of `kmalloc` for the first free block that is large enough; 0 without one. Headers lie
32 bytes apart or more, so the extent of the heap bounds the rounds. -/
def firstFit (size : ℕ) : ℕ → ℕ → ℕ
  | 0, _ => 0
  | fuel + 1, b =>
    if b = 0 then 0
    else if h.free b = 0 ∨ h.size b < size then firstFit size fuel (h.next b)
    else b

/-- Cut the block `b` after `size` bytes when the rest is large enough to be useful. -/
def splitOff (b size : ℕ) : Heap :=
  if h.size b ≥ (size + 32 + 16) % 2 ^ 64 then
    let split := b + 32 + size
    let h := h.setSize split (h.size b - size - 32)
    let h := h.setFree split 1
    let h := h.setNext split (h.next b)
    let h := h.setPrev split b
    let h := h.linkBack (h.next b) split
    let h := h.setSize b size
    h.setNext b split
  else h

def carve (b size : ℕ) : Heap := (h.splitOff b size).setFree b 0

/-- The loop of `kmalloc` for a rounded size: take a block that fits, or grow and retry. A
round that retries has used up at least one outcome. -/
def kmallocLoop (size : ℕ) : ℕ → Heap → List Bool → ℕ × Heap
  | 0, h, _ => (0, h)
  | fuel + 1, h, grants =>
    let b := h.firstFit size (h.heapEnd - heapBase) h.head
    if b ≠ 0 then (b + 32, h.carve b size)
    else
      let needed := (size + 32 + 4095) % 2 ^ 64 / 4096
      let grown := h.heapGrow needed grants
      if grown.1 = 0 then (0, grown.2.1)
      else kmallocLoop size fuel (grown.2.1.listAppend h.heapEnd (grown.1 * 4096)) grown.2.2

def roundUp (request : U64) : ℕ := (request.toNat + 15) % 2 ^ 64 / 16 * 16

def kmalloc (request : U64) (grants : List Bool) : ℕ × Heap :=
  if request = 0#64 then (0, h) else kmallocLoop (roundUp request) (grants.length + 1) h grants

def absorb (x y : ℕ) : Heap :=
  let h := h.setSize x (h.size x + (32 + h.size y))
  let h := h.setNext x (h.next y)
  h.linkBack (h.next y) x

def coalesceNext (b : ℕ) : Heap :=
  if h.next b ≠ 0 ∧ h.free (h.next b) ≠ 0 then h.absorb b (h.next b) else h

def coalescePrev (b : ℕ) : Heap :=
  if h.prev b ≠ 0 ∧ h.free (h.prev b) ≠ 0 then h.absorb (h.prev b) b else h

def kfree (ptr : ℕ) : Heap :=
  if ptr = 0 then h
  else ((h.setFree (ptr - 32) 1).coalesceNext (ptr - 32)).coalescePrev (ptr - 32)

inductive Op where
  | kmalloc (request : U64) (grants : List Bool)
  | kfree (ptr : ℕ)
  | store (addr value : ℕ)

def step : Op → Heap
  | .kmalloc request grants => (h.kmalloc request grants).2
  | .kfree ptr => h.kfree ptr
  | .store addr value => h.write addr value

end Heap

end GaiaKernel
