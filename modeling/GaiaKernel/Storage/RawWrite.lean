import Mathlib.Algebra.Group.Nat.Defs
import Mathlib.Data.Int.Notation
import Mathlib.Data.List.Basic
import GaiaKernel.Errno

/-! # Raw block writes

`sys_blockdev_write` with what it goes through: the registry of drivers/storage/blockdev.c, the
slices of drivers/storage/partition.c, the bounds of drivers/storage/block.h and the mount table of
fs/vfs/vfs.c. A device is known by its `context` pointer: a disk's own record or that of a slice. A
call returns its value and the sectors it hands to the drivers, as pairs of a disk and a sector.
-/
namespace GaiaKernel.Storage
open List

/-- `block_range_valid` on a device of so many sectors. -/
def blockRangeValid (sectors lba count : ℕ) : Bool :=
  decide (count ≠ 0 ∧ lba < sectors ∧ count ≤ sectors - lba)

structure Disk where
  sectors : ℕ
  writable : Bool
  fits : sectors < 2 ^ 64

structure Slice (disks : ℕ → Disk) where
  parent : ℕ
  first : ℕ
  sectors : ℕ
  inside : 0 < sectors ∧ first < (disks parent).sectors ∧ sectors ≤ (disks parent).sectors - first

inductive Context where
  | disk (d : ℕ)
  | slice (k : ℕ)
  deriving DecidableEq

structure BlockdevEntry where
  name : List Char
  context : Context
  offline : Bool

/-- The disks and slices, the published names, and the `device_context` of every mount (none for
a volume mounted from memory). -/
structure Machine where
  disks : ℕ → Disk
  slices : ℕ → Slice disks
  entries : List BlockdevEntry
  mounts : List (Option Context)

def rawBlockMaxSectors : ℕ := 64
def devDirectory : List Char := "/dev/".toList

namespace Machine
variable (m : Machine)

def sectorsOf : Context → ℕ
  | .disk d => (m.disks d).sectors
  | .slice k => (m.slices k).sectors

def diskOf : Context → ℕ
  | .disk d => d
  | .slice k => (m.slices k).parent

def firstOf : Context → ℕ
  | .disk _ => 0
  | .slice k => (m.slices k).first

def blockRangeValid (c : Context) (lba count : ℕ) : Bool :=
  Storage.blockRangeValid (m.sectorsOf c) lba count

/-- `block_write` on a whole disk. The driver gets `done` of the sectors written before it stops,
and reports success if that is all of them. -/
def diskWrite (d lba count done : ℕ) : Bool × List (ℕ × ℕ) :=
  if m.blockRangeValid (.disk d) lba count ∧ (m.disks d).writable then
    (decide (count ≤ done), (range (min done count)).map fun i => (d, lba + i))
  else (false, [])

/-- A slice passes the request on with its offset added. -/
def blockWrite (c : Context) (lba count done : ℕ) : Bool × List (ℕ × ℕ) :=
  match c with
  | .disk d => m.diskWrite d lba count done
  | .slice k =>
    if m.blockRangeValid (.slice k) lba count ∧ (m.disks (m.slices k).parent).writable then
      m.diskWrite (m.slices k).parent (((m.slices k).first + lba) % 2 ^ 64) count done
    else (false, [])

def blockdevLookup (name : List Char) : Except ℤ Context :=
  match m.entries.find? fun e => e.name == name with
  | none => .error (-ENOENT)
  | some e => if e.offline then .error (-ENODEV) else .ok e.context

def rawBlockDevice (source : Except ℤ (List Char)) : Except ℤ Context :=
  match source with
  | .error e => .error e
  | .ok device =>
    m.blockdevLookup
      (if devDirectory.isPrefixOf device then device.drop devDirectory.length else device)

def vfsDeviceMounted (c : Context) : Bool := m.mounts.any fun mount => mount == some c

/-- `buffer` is the verdict of `user_buffer_ok`, or none for a null pointer. -/
def sysBlockdevWrite (source : Except ℤ (List Char)) (lba count : ℕ) (buffer : Option Bool)
    (done : ℕ) : ℤ × List (ℕ × ℕ) :=
  match buffer with
  | none => (-EFAULT, [])
  | some readable =>
    if count = 0 ∨ count > rawBlockMaxSectors then (-EINVAL, [])
    else if !readable then (-EFAULT, [])
    else
      match m.rawBlockDevice source with
      | .error e => (e, [])
      | .ok c =>
        if m.vfsDeviceMounted c then (-EBUSY, [])
        else
          let r := m.blockWrite c lba count done
          (if r.1 then count else - EIO, r.2)

def Covers (c : Context) (d n : ℕ) : Prop :=
  m.diskOf c = d ∧ m.firstOf c ≤ n ∧ n < m.firstOf c + m.sectorsOf c

/-- The call writes no sector of a mounted volume, however far the driver gets. -/
def SparesMounted (source : Except ℤ (List Char)) (lba count : ℕ) (buffer : Option Bool) : Prop :=
  ∀ done, ∀ w ∈ (m.sysBlockdevWrite source lba count buffer done).2,
    ∀ v, some v ∈ m.mounts → ¬ m.Covers v w.1 w.2

/-- The arguments get the call past the checks that do not look at the mount table. -/
def Reaches (source : Except ℤ (List Char)) (lba count : ℕ) (buffer : Option Bool)
    (c : Context) : Prop :=
  buffer = some true ∧ count ≤ rawBlockMaxSectors ∧ m.rawBlockDevice source = .ok c ∧
    m.blockRangeValid c lba count ∧ (m.disks (m.diskOf c)).writable

/-- None of the sectors from `lba` on lies in a volume mounted through another device. -/
def ClearOfOthers (c : Context) (lba count : ℕ) : Prop :=
  ∀ v, some v ∈ m.mounts → v ≠ c → ∀ i < count, ¬ m.Covers v (m.diskOf c) (m.firstOf c + lba + i)

/-! ### What is written -/

section
variable {m} {c : Context} {lba count done : ℕ}

theorem blockRangeValid_iff : m.blockRangeValid c lba count = true ↔
    count ≠ 0 ∧ lba < m.sectorsOf c ∧ count ≤ m.sectorsOf c - lba := by
  simp [blockRangeValid,Storage.blockRangeValid]

theorem blockWrite_valid (h : m.blockRangeValid c lba count)
    (hw : (m.disks (m.diskOf c)).writable) : (m.blockWrite c lba count done).2 =
      (range (min done count)).map fun i => (m.diskOf c, m.firstOf c + lba + i) := by
  cases c with
  | disk d =>
    rw [blockWrite,diskWrite,if_pos ⟨h,hw⟩]
    simp [diskOf,firstOf]
  | slice k =>
    obtain ⟨h0,hlba,hcount⟩ := blockRangeValid_iff.mp h
    obtain ⟨hpos,hfirst,hsectors⟩ := (m.slices k).inside
    have hfits := (m.disks (m.slices k).parent).fits
    simp only [sectorsOf] at hlba hcount
    -- the offset does not wrap, and the parent accepts the sum
    have hmod : ((m.slices k).first + lba) % 2 ^ 64 = (m.slices k).first + lba :=
      Nat.mod_eq_of_lt (by omega)
    have hparent : m.blockRangeValid (.disk (m.slices k).parent) ((m.slices k).first + lba)
        count := by
      rw [blockRangeValid_iff]
      simp only [sectorsOf]
      omega
    rw [blockWrite,if_pos ⟨h,hw⟩,hmod,diskWrite,if_pos ⟨hparent,hw⟩]
    rfl

theorem blockWrite_invalid
    (h : ¬ (m.blockRangeValid c lba count ∧ (m.disks (m.diskOf c)).writable)) :
    (m.blockWrite c lba count done).2 = [] := by
  cases c with
  | disk d =>
    change ¬ (_ ∧ (m.disks d).writable = true) at h
    rw [blockWrite,diskWrite,if_neg h]
  | slice k =>
    change ¬ (_ ∧ (m.disks (m.slices k).parent).writable = true) at h
    rw [blockWrite,if_neg h]

theorem vfsDeviceMounted_iff : m.vfsDeviceMounted c = true ↔ some c ∈ m.mounts := by
  simp [vfsDeviceMounted]

theorem sysBlockdevWrite_writes {source : Except ℤ (List Char)} {buffer : Option Bool}
    {w : ℕ × ℕ} (hw : w ∈ (m.sysBlockdevWrite source lba count buffer done).2) :
    ∃ c, m.Reaches source lba count buffer c ∧ some c ∉ m.mounts ∧
      ∃ i < count, w = (m.diskOf c, m.firstOf c + lba + i) := by
  unfold sysBlockdevWrite at hw
  split at hw
  · cases hw
  · split at hw
    · cases hw
    case isFalse hcount =>
      split at hw
      · cases hw
      case isFalse hread =>
        split at hw
        · cases hw
        case h_2 readable _ _ c hc =>
          split at hw
          · cases hw
          case isFalse hmounted =>
            by_cases hv : m.blockRangeValid c lba count ∧ (m.disks (m.diskOf c)).writable
            · rw [blockWrite_valid hv.1 hv.2] at hw
              obtain ⟨i,hi,rfl⟩ := mem_map.mp hw
              have hi' := mem_range.mp hi
              refine ⟨c,⟨?_,by omega,hc,hv.1,hv.2⟩,?_,i,by omega,rfl⟩
              · simpa using hread
              · rwa [← vfsDeviceMounted_iff]
            · rw [blockWrite_invalid hv] at hw
              cases hw

theorem sysBlockdevWrite_reaches {source : Except ℤ (List Char)} {buffer : Option Bool}
    (h : m.Reaches source lba count buffer c) (hc : some c ∉ m.mounts) (done : ℕ) :
    (m.sysBlockdevWrite source lba count buffer done).2 =
      (range (min done count)).map fun i => (m.diskOf c, m.firstOf c + lba + i) := by
  obtain ⟨rfl,hmax,hdev,hvalid,hw⟩ := h
  have hpos := (blockRangeValid_iff.mp hvalid).1
  have hmounted : ¬ m.vfsDeviceMounted c = true := by rwa [vfsDeviceMounted_iff]
  simp only [sysBlockdevWrite,hdev,hmounted]
  rw [if_neg (by omega),← blockWrite_valid hvalid hw]
  rfl

end

/-- A raw write spares every mounted volume if and only if, whenever it reaches a device that is
not mounted itself, its sectors lie in no volume mounted through another device. -/
theorem raw_write_spares_iff (source : Except ℤ (List Char)) (lba count : ℕ)
    (buffer : Option Bool) :
    m.SparesMounted source lba count buffer ↔
      ∀ c, m.Reaches source lba count buffer c → some c ∉ m.mounts → m.ClearOfOthers c lba count := by
  constructor
  · intro h c hreach hc v hv _ i hi
    have hmem : (m.diskOf c, m.firstOf c + lba + i) ∈
        (m.sysBlockdevWrite source lba count buffer count).2 := by
      rw [sysBlockdevWrite_reaches hreach hc]
      exact mem_map.mpr ⟨i,mem_range.mpr (by omega),rfl⟩
    exact h count _ hmem v hv
  · intro h done w hw v hv
    obtain ⟨c,hreach,hc,i,hi,rfl⟩ := sysBlockdevWrite_writes hw
    refine h c hreach hc v hv ?_ i hi
    rintro rfl
    exact hc hv

def partitioned : Machine where
  disks _ := ⟨100,true,by decide⟩
  slices _ := ⟨0,10,50,by decide⟩
  entries := [⟨"ahci0".toList,.disk 0,false⟩, ⟨"ahci0p1".toList,.slice 0,false⟩]
  mounts := [some (.slice 0)]

/-- A write to the whole disk goes through to the mounted partition. -/
theorem raw_write_hits_partition :
    partitioned.sysBlockdevWrite (.ok "/dev/ahci0".toList) 20 1 (some true) 1 = (1, [(0, 20)]) ∧
      some (Context.slice 0) ∈ partitioned.mounts ∧ partitioned.Covers (.slice 0) 0 20 := by
  unfold Covers
  decide

end Machine

end GaiaKernel.Storage
