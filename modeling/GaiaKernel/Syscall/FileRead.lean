import GaiaKernel.Errno
import GaiaKernel.Lib.Bytes
import GaiaKernel.Memory.Uvm

/-! # Reading files into user memory

`sys_read` and `sys_pread64` of arch/syscall.c on files, over `vfs_read` and `vfs_seek` of
fs/vfs/file.c. Any number of handles refer to an inode, each with the size it last saw. A call
of the VFS first waits for its gate, and other tasks may do anything to the files meanwhile.
-/
namespace GaiaKernel.FileRead
open Bytes

/-- A file as its file system has it: its size, its bytes, and how far its storage reaches, less
than the size for a FAT chain that ends early. -/
structure Stored where
  size : ℕ
  reach : ℕ
  data : ℕ → Byte

def Stored.after (i : Stored) (position : ℕ) : ℕ := min i.size i.reach - position

/-- `struct vfs_file`; `size` is the size of the inode when the handle was last used. -/
structure OpenFile (ν : Type*) where
  node : ν
  regular : Bool
  position : ℕ
  size : ℕ

def OpenFile.left {ν : Type*} (f : OpenFile ν) : ℕ := f.size - f.position

structure Files (η ν : Type*) where
  handle : η → OpenFile ν
  inode : ν → Stored

/-- A descriptor, unless it is the console, a pipe or a socket. -/
inductive Descriptor (η : Type*) where
  | closed
  | directory (h : η)
  | file (h : η)

/-- What a call has done: `accepted` bytes of the buffer have passed `user_buffer_ok`, and the
bytes `stored` have been stored from the start of the buffer on. -/
structure Call (η ν : Type*) where
  result : ℤ
  phys : Phys
  files : Files η ν
  accepted : ℕ
  stored : List Byte

section
variable {η ν : Type*} [DecidableEq η]

def Files.setHandle (s : Files η ν) (h : η) (f : OpenFile ν) : Files η ν :=
  { s with handle := Function.update s.handle h f }

def Files.refresh (s : Files η ν) (h : η) : Files η ν :=
  s.setHandle h { s.handle h with size := (s.inode (s.handle h).node).size }

def vfsRead (s : Files η ν) (h : η) (buffer length : U64) : List Byte × Files η ν :=
  let f := s.handle h
  if ¬ f.regular ∨ buffer = 0#64 ∨ length = 0#64 then ([], s)
  else
    let i := s.inode f.node
    let count := min length.toNat (i.after f.position)
    (slice i.data f.position count,
      (s.setHandle h { f with position := f.position + count }).refresh h)

def vfsSeek (s : Files η ν) (h : η) (position : ℕ) : ℤ × Files η ν :=
  let f := s.handle h
  if ¬ f.regular then (-ESPIPE, s)
  else if position ≥ 2 ^ 32 then (- EIO, s.refresh h)
  else (0, (s.setHandle h { f with position := position }).refresh h)

def sysRead (vm : TaskVm) (ph : Phys) (s : Files η ν) (gate : Files η ν → Files η ν)
    (fd : Descriptor η) (buf n : U64) : Call η ν :=
  match fd with
  | .closed => ⟨-EBADF,ph,s,0,[]⟩
  | .directory _ => ⟨-EBADF,ph,s,0,[]⟩
  | .file h =>
    let transfer := min n.toNat (s.handle h).left
    let ok := vm.uvmBufferOk ph buf (BitVec.ofNat 64 transfer) true
    if ¬ ok.1 then ⟨-EFAULT,ok.2,s,0,[]⟩
    else
      let r := vfsRead (gate s) h buf n
      ⟨r.1.length,ok.2,r.2,transfer,r.1⟩

def sysPread64 (vm : TaskVm) (ph : Phys) (s : Files η ν) (gate : Fin 3 → Files η ν → Files η ν)
    (fd : Descriptor η) (buf n : U64) (off : ℤ) : Call η ν :=
  haveI := neZero_three
  match fd with
  | .closed => ⟨-EBADF,ph,s,0,[]⟩
  | .directory _ => ⟨-EISDIR,ph,s,0,[]⟩
  | .file h =>
    if off < 0 then ⟨-EINVAL,ph,s,0,[]⟩
    else
      let f := s.handle h
      let position := off.toNat
      if n = 0#64 ∨ position ≥ f.size then ⟨0,ph,s,0,[]⟩
      else
        let transfer := min (f.size - position) n.toNat
        let ok := vm.uvmBufferOk ph buf (BitVec.ofNat 64 transfer) true
        if buf = 0#64 then ⟨-EFAULT,ph,s,0,[]⟩
        else if ¬ ok.1 then ⟨-EFAULT,ok.2,s,0,[]⟩
        else
          let k := vfsSeek (gate 0 s) h position
          if k.1 ≠ 0 then ⟨k.1,ok.2,k.2,transfer,[]⟩
          else
            let r := vfsRead (gate 1 k.2) h buf (BitVec.ofNat 64 transfer)
            ⟨r.1.length,ok.2,(vfsSeek (gate 2 r.2) h f.position).2,transfer,r.1⟩

end

/-- Every byte stored lies in the part of the buffer that was accepted. -/
def Call.Confined {η ν : Type*} (c : Call η ν) (buf : U64) : Prop :=
  ∀ i < c.stored.length, ∃ j < c.accepted, buf + BitVec.ofNat 64 i = buf + BitVec.ofNat 64 j

section
variable {η ν : Type*} {buf : U64}

theorem Call.confined_iff {c : Call η ν} (h : c.stored.length < 2 ^ 64) :
    c.Confined buf ↔ c.stored.length ≤ c.accepted := by
  constructor
  · intro hc
    by_contra hlt
    obtain ⟨j,hj,heq⟩ := hc c.accepted (by omega)
    have heq' := congrArg BitVec.toNat (BitVec.add_right_inj buf |>.mp heq)
    rw [BitVec.toNat_ofNat,BitVec.toNat_ofNat,Nat.mod_eq_of_lt (by omega),
      Nat.mod_eq_of_lt (by omega)] at heq'
    omega
  · exact fun hle i hi => ⟨i,by omega,rfl⟩

theorem Call.confined_of_nil {c : Call η ν} (h : c.stored = []) : c.Confined buf := by
  intro i hi
  rw [h] at hi
  exact absurd hi (Nat.not_lt_zero i)

variable [DecidableEq η]

theorem length_vfsRead (s : Files η ν) (h : η) (buffer length : U64) :
    (vfsRead s h buffer length).1.length = if (s.handle h).regular ∧ buffer ≠ 0#64 then
        min length.toNat ((s.inode (s.handle h).node).after (s.handle h).position) else 0 := by
  unfold vfsRead
  by_cases hr : (s.handle h).regular = true ∧ buffer ≠ 0#64
  · rw [if_pos hr]
    by_cases hz : length = 0#64
    · simp [hz]
    · rw [if_neg (by simp [hr,hz])]
      exact length_slice _ _ _
  · rw [if_neg hr,if_pos]
    · rfl
    · rw [not_and_or,not_not] at hr
      exact hr.imp id Or.inl

theorem length_vfsRead_le (s : Files η ν) (h : η) (buffer length : U64) :
    (vfsRead s h buffer length).1.length ≤ length.toNat := by
  rw [length_vfsRead]
  split_ifs
  · exact min_le_left _ _
  · exact Nat.zero_le _

theorem sysPread64_confined (vm : TaskVm) (ph : Phys) (s : Files η ν)
    (gate : Fin 3 → Files η ν → Files η ν) (fd : Descriptor η) (buf n : U64) (off : ℤ) :
    (sysPread64 vm ph s gate fd buf n off).Confined buf := by
  cases fd with
  | closed => exact Call.confined_of_nil rfl
  | directory h => exact Call.confined_of_nil rfl
  | file h =>
    unfold sysPread64
    dsimp only
    split_ifs
    · exact Call.confined_of_nil rfl
    · exact Call.confined_of_nil rfl
    · exact Call.confined_of_nil rfl
    · exact Call.confined_of_nil rfl
    · have hn : min ((s.handle h).size - off.toNat) n.toNat < 2 ^ 64 :=
        lt_of_le_of_lt (min_le_right _ _) n.isLt
      have hlen := length_vfsRead_le
        (gate 1 (vfsSeek (gate 0 s) h off.toNat).2) h buf
        (BitVec.ofNat 64 (min ((s.handle h).size - off.toNat) n.toNat))
      rw [BitVec.toNat_ofNat,Nat.mod_eq_of_lt hn] at hlen
      exact (Call.confined_iff (lt_of_le_of_lt hlen hn)).mpr hlen
    · exact Call.confined_of_nil rfl

/-- `sys_read` checks what the handle's own size leaves of the file but hands on the length it
was given. It stays within what it has checked exactly when that length or the rest of the file
at the time of the read is not more; if the buffer is refused, or there is none, or the handle
is not for a regular file, nothing is stored. -/
theorem reads_confined_iff (vm : TaskVm) (ph : Phys) (s : Files η ν) (fd : Descriptor η)
    (buf n : U64) :
    (∀ gate off, (sysPread64 vm ph s gate fd buf n off).Confined buf) ∧
    ∀ gate, (sysRead vm ph s gate fd buf n).Confined buf ↔
      ∀ h, fd = .file h → buf ≠ 0#64 → ((gate s).handle h).regular →
        (vm.uvmBufferOk ph buf (BitVec.ofNat 64 (min n.toNat (s.handle h).left)) true).1 →
        n.toNat ≤ (s.handle h).left ∨
          ((gate s).inode ((gate s).handle h).node).after ((gate s).handle h).position ≤
            (s.handle h).left := by
  refine ⟨fun gate off => sysPread64_confined vm ph s gate fd buf n off,fun gate => ?_⟩
  cases fd with
  | closed => exact ⟨fun _ h hfd => (nomatch hfd),fun _ => Call.confined_of_nil rfl⟩
  | directory h => exact ⟨fun _ h hfd => (nomatch hfd),fun _ => Call.confined_of_nil rfl⟩
  | file h =>
    unfold sysRead
    dsimp only
    by_cases hok : (vm.uvmBufferOk ph buf
        (BitVec.ofNat 64 (min n.toNat (s.handle h).left)) true).1 = true
    swap
    · rw [if_pos hok]
      refine ⟨fun _ h' hfd _ _ hok' => ?_,fun _ => Call.confined_of_nil rfl⟩
      cases hfd
      exact absurd hok' hok
    rw [if_neg (not_not.mpr hok),Call.confined_iff
      (lt_of_le_of_lt (length_vfsRead_le (gate s) h buf n) n.isLt),length_vfsRead]
    by_cases hr : ((gate s).handle h).regular = true ∧ buf ≠ 0#64
    · rw [if_pos hr]
      constructor
      · intro hle h' hfd _ _ _
        cases hfd
        simp only [le_min_iff,min_le_iff] at hle
        exact hle.2
      · intro hcond
        have := hcond h rfl hr.2 hr.1 hok
        simp only [le_min_iff,min_le_iff]
        exact ⟨Or.inl le_rfl,this⟩
    · rw [if_neg hr]
      refine ⟨fun _ h' hfd hbuf hreg => ?_,fun _ => Nat.zero_le _⟩
      cases hfd
      exact absurd ⟨hreg,hbuf⟩ hr

end

/-- A handle that saw an empty file, after another handle has appended a byte: a read at any
address, here one of the kernel's, stores the byte though nothing was accepted. -/
theorem read_stores_unaccepted :
    ¬ (sysRead ⟨none,0,0,0,0,fun _ => .empty,fun _ => .empty,0⟩
        ⟨fun _ _ => 0,⟨fun _ => 0,0,0,0,Nat.zero_le _⟩⟩
        (⟨fun _ => ⟨(),true,0,0⟩,fun _ => ⟨1,1,fun _ => 65#8⟩⟩ : Files (Fin 2) Unit) id
        (.file 0) 0xFFFFFFFFC0000000#64 1#64).Confined 0xFFFFFFFFC0000000#64 := by
  intro h
  obtain ⟨j,hj,-⟩ := h 0 Nat.one_pos
  exact Nat.not_lt_zero j hj

end GaiaKernel.FileRead
