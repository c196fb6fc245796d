import GaiaKernel.Ext2.Loads

/-! # Writing to a file on a device that answers

As long as the device reads every page in that it is asked for, and the inode of the file is in the
image, `ext2_file_write` does not set `io_failed`.
-/
namespace GaiaKernel.Ext2
open Bytes Fallible Prog Contract List Ok
variable {v₀ : Volume} {bit bitmap group inode number off : ℕ}

/-- What the mount sees to, and no call changes: the superblock, the group descriptors and the block
pointers of an inode in the image are in the image. -/
structure Volume.LaidOut (v : Volume) : Prop where
  image : 1128 ≤ v.imageSize
  groups : v.groups + 32 * v.groupCount ≤ v.imageSize
  inodeSize : 128 ≤ v.inodeSize

def Volume.Answering (v : Volume) : Prop :=
  ∀ lz, v.lazy = some lz → ∀ n, lz.asked ≤ n → lz.answers n = true

/-- `io_failed` is clear, and every page that is asked for from now on is read in. -/
structure Steady (v₀ v : Volume) : Prop where
  imageSize : v.imageSize = v₀.imageSize
  groups : v.groups = v₀.groups
  inodeSize : v.inodeSize = v₀.inodeSize
  groupCount : v.groupCount = v₀.groupCount
  logBlockSize : v.logBlockSize = v₀.logBlockSize
  device : v.dirtyBlocks.isSome = v₀.dirtyBlocks.isSome
  clear : v.ioFailed = false
  answering : v.Answering

theorem Steady.blockSize {v : Volume} (h : Steady v₀ v) : v.blockSize = v₀.blockSize := by
  unfold Fs.blockSize
  rw [h.logBlockSize]

def steady (v₀ : Volume) : Contract Volume Fault := ⟨Steady v₀,fun _ => True⟩

/-! ### Pages and blocks -/

theorem steady_load (off k : ℕ) : (steady v₀).Safe (load off k) :=
  look.bind fun _ _ => pure trivial

theorem steady_store (off : ℕ) (bytes : List Byte) : (steady v₀).Safe (store off bytes) :=
  Ok.change fun _ h => { h with }

theorem steady_bump (off k delta : ℕ) : (steady v₀).Safe (bump off k delta) :=
  (steady_load off k).bind fun _ => steady_store _ _

theorem steady_groupField (group off k : ℕ) : (steady v₀).Safe (groupField group off k) :=
  look.bind fun _ _ => steady_load _ _

theorem steady_bumpGroup (group off delta : ℕ) : (steady v₀).Safe (bumpGroup group off delta) :=
  look.bind fun _ _ => steady_bump _ _ _

theorem steady_page (page : ℕ) : (steady v₀).Ok (loadPage page) fun loaded => loaded = true := by
  apply look.bind
  intro v hv
  cases hlazy : v.lazy with
  | none => exact pure rfl
  | some lz =>
    have hanswers := hv.answering lz hlazy
    refine Ok.early ?_ fun _ => ?_
    · rfl
    rw [if_pos (hanswers lz.asked le_rfl)]
    refine Ok.then (Ok.change fun w hw => ?_) (pure rfl)
    refine { hw with answering := ?_ }
    intro lz' hlz' n hn
    obtain rfl := Option.some.inj hlz'
    exact hanswers n (Nat.le_of_succ_le hn)

theorem steady_ensure {offset length : ℕ} (h : offset + length ≤ v₀.imageSize) :
    (steady v₀).Ok (ext2LazyEnsure offset length) fun loaded => loaded = true := by
  apply look.bind
  intro v hv
  rw [hv.imageSize,if_neg (by omega)]
  refine Ok.early ?_ fun _ => ?_
  · rfl
  refine (Ok.firstOf (R := fun _ => False) fun page _ => ?_).bind fun failed hfailed => pure ?_
  · apply (steady_page page).bind
    rintro _ rfl
    exact pure fun _ hc => nomatch hc
  · cases failed with
    | none => rfl
    | some u => exact (hfailed u rfl).elim

theorem steady_bytes (offset length : ℕ) : (steady v₀).Ok (ext2Bytes offset length) fun r =>
      ∀ b, r = some b → b + length ≤ v₀.imageSize := by
  apply look.bind
  intro v hv
  rw [hv.imageSize]
  apply early fun _ hb => nomatch hb
  intro hrange
  have hin : offset + length ≤ v₀.imageSize := by omega
  apply (steady_ensure hin).bind
  rintro _ rfl
  refine pure fun b hb => ?_
  obtain rfl := Option.some.inj hb
  exact hin

theorem steady_block (number : ℕ) : (steady v₀).Ok (ext2Block number) fun r =>
      ∀ b, r = some b → b + v₀.blockSize ≤ v₀.imageSize := by
  apply early fun _ hb => nomatch hb
  intro _
  apply (steady_load _ _).bind
  intro count
  apply early fun _ hb => nomatch hb
  intro _
  apply look.bind
  intro v hv
  rw [hv.blockSize]
  exact steady_bytes _ _

/-! ### Dirty blocks -/

theorem steady_dirty {address length : ℕ} (h : address + length ≤ v₀.imageSize) :
    (steady v₀).Safe (ext2Dirty (some address) length) := by
  apply Ok.change
  intro v hv
  have hsize := hv.imageSize
  split
  case h_1 pos dirty hpos hdirty =>
    obtain rfl := Option.some.inj hpos
    have hdevice : true = v₀.dirtyBlocks.isSome := by rw [← hv.device,hdirty]; rfl
    split_ifs
    · exact hv
    · omega
    · exact { hv with device := hdevice }
  case h_2 => exact hv

theorem steady_dirtyBlock {address : ℕ} (h : address + v₀.blockSize ≤ v₀.imageSize) :
    (steady v₀).Safe (dirtyBlock (some address)) := by
  apply look.bind
  intro v hv
  rw [hv.blockSize]
  exact steady_dirty h

theorem steady_dirtyInode (h : inode + v₀.inodeSize ≤ v₀.imageSize) :
    (steady v₀).Safe (dirtyInode (some inode)) := by
  apply look.bind
  intro v hv
  rw [hv.inodeSize]
  exact steady_dirty h

variable (hv : v₀.LaidOut)
include hv

theorem steady_dirtyGroup (hgroup : group < v₀.groupCount)
    (hbitmap : bitmap + v₀.blockSize ≤ v₀.imageSize) :
    (steady v₀).Safe (ext2DirtyGroup group bitmap) := by
  have hgroups := hv.groups
  apply (steady_dirtyBlock hbitmap).then
  apply look.bind
  intro v hsteady
  rw [hsteady.groups]
  apply (steady_dirty (by omega)).then
  exact steady_dirty hv.image

/-! ### Blocks taken -/

variable (hinode : inode + v₀.inodeSize ≤ v₀.imageSize)
include hinode

theorem steady_blockTake {first : ℕ} (hgroup : group < v₀.groupCount)
    (hbitmap : bitmap + v₀.blockSize ≤ v₀.imageSize) :
    (steady v₀).Safe (blockTake (some inode) group bitmap first bit) := by
  apply Safe.bind ((steady_load _ _).bind fun _ => pure trivial)
  intro taken
  apply Safe.early
  apply (steady_block _).option
  · exact pure trivial
  intro block hr
  apply Ok.then ((steady_load _ _).bind fun _ => steady_store _ _)
  apply (steady_bumpGroup _ _ _).then
  apply (steady_bump _ _ _).then
  apply Ok.then (look.bind fun _ _ => steady_store _ _)
  apply look.bind
  intro v _
  apply Ok.then ((steady_load _ _).bind fun _ => steady_store _ _)
  apply (steady_dirtyGroup hv hgroup hbitmap).then
  apply (steady_dirtyBlock (hr block rfl)).then
  apply (steady_dirtyInode hinode).then
  exact pure trivial

theorem steady_blockAllocate : (steady v₀).Safe (ext2BlockAllocate (some inode)) := by
  apply look.bind
  intro v hsteady
  rw [hsteady.groupCount]
  refine Safe.bind (Safe.firstOf fun group hgroup => ?_) fun _ => pure trivial
  apply (steady_groupField _ _ _).bind
  intro free
  apply Safe.early
  apply (steady_groupField _ _ _).bind
  intro number
  apply (steady_block number).option
  · exact pure trivial
  intro bitmap hr
  apply (steady_load _ _).bind
  intro total
  apply (steady_load _ _).bind
  intro firstData
  apply (steady_load _ _).bind
  intro perGroup
  exact Safe.firstOf fun bit _ => steady_blockTake hv hinode (mem_range.mp hgroup) (hr bitmap rfl)

theorem steady_pointer {pointer : ℕ} (hpointer : pointer + 4 ≤ v₀.imageSize) (create : Bool) :
    (steady v₀).Safe (ensurePointerBlock inode pointer create) := by
  apply (steady_load _ _).bind
  intro number
  apply Safe.early
  apply Ok.ite
  · intro _
    apply (steady_blockAllocate hv hinode).bind
    intro taken
    apply (steady_store _ _).then
    apply (steady_dirty hpointer).then
    exact pure trivial
  · intro _
    exact pure trivial

theorem steady_indirect {ppb : ℕ} (hppb : 4 * ppb ≤ v₀.blockSize) (create : Bool)
    {level pointer index : ℕ} (hpointer : pointer + 4 ≤ v₀.imageSize)
    (hindex : index < ppb ^ level) :
    (steady v₀).Safe (indirectBlock inode create ppb level pointer index) := by
  induction level generalizing pointer index with
  | zero => exact steady_pointer hv hinode hpointer create
  | succ level ih =>
    apply (steady_pointer hv hinode hpointer create).bind
    intro number
    apply (steady_block number).option
    · exact pure trivial
    intro entries hr
    have hentries := hr entries rfl
    have hstride : 0 < ppb ^ level := by
      rw [Nat.pow_succ] at hindex
      exact Nat.pos_of_ne_zero fun h0 => by rw [h0,Nat.zero_mul] at hindex; omega
    have hslot : index / ppb ^ level < ppb := by
      rw [Nat.div_lt_iff_lt_mul hstride,Nat.mul_comm,← Nat.pow_succ]
      exact hindex
    exact ih (by omega) (Nat.mod_lt _ hstride)

theorem steady_inodeBlock (logical : ℕ) (create : Bool) :
    (steady v₀).Safe (ext2InodeBlock inode logical create) := by
  have hsize := hv.inodeSize
  apply look.bind
  intro v hsteady
  rw [hsteady.blockSize]
  have hppb : 4 * (v₀.blockSize / 4) ≤ v₀.blockSize := Nat.mul_div_le _ _
  apply Ok.ite
  · intro hdirect
    unfold ext2NdirBlocks at hdirect
    exact steady_pointer hv hinode (by omega) create
  · intro _
    apply Ok.ite
    · intro hindex
      exact steady_indirect hv hinode hppb create (by omega) (by rwa [Nat.pow_one])
    · intro _
      apply Ok.ite
      · exact steady_indirect hv hinode hppb create (by omega)
      · intro _
        apply Ok.ite
        · exact steady_indirect hv hinode hppb create (by omega)
        · intro _
          exact pure trivial

/-! ### Files -/

theorem steady_fileWriteLoop (fuel position : ℕ) (bytes : List Byte) :
    (steady v₀).Safe (fileWriteLoop inode fuel position bytes) := by
  induction fuel generalizing position bytes with
  | zero => exact pure trivial
  | succ fuel ih =>
    apply look.bind
    intro v _
    apply Safe.early
    apply (steady_inodeBlock hv hinode _ _).bind
    intro number
    apply (steady_block number).option
    · exact pure trivial
    intro block hr
    apply (steady_store _ _).then
    apply (steady_dirtyBlock (hr block rfl)).then
    apply (steady_load _ _).bind
    intro size
    apply (Ok.onlyIf fun _ => steady_store _ _).then
    apply (steady_dirtyInode hinode).then
    apply (ih _ _).bind
    intro rest
    exact pure trivial

end GaiaKernel.Ext2
