import GaiaKernel.Ext2.Recovery
import GaiaKernel.Ext2.Steady
import GaiaKernel.Fat.FileSpec

/-! # The position of an open file

`vfs_read`, `vfs_write` and `vfs_append` of fs/vfs/file.c over the two back ends. The handle's
position is moved by the back end while it copies, and the count is what it returns afterwards.
-/
namespace GaiaKernel
open Fallible
open Whenever (bind look ite)
namespace Fat.Disk
variable {v : Volume} {s : Disk} {file : File} {entry position : ℕ} {data : List Byte}

theorem getSize_lt (s : Disk) (entry : ℕ) : s.getSize entry < 2 ^ 32 := Bytes.le32_lt _ _

theorem fatRead_pos (fuel length : ℕ) (hsize : file.size < 2 ^ 32) (hpos : file.pos ≤ file.size) :
    (s.fatRead v fuel file length).2.pos = file.pos + (s.fatRead v fuel file length).1.length := by
  induction fuel generalizing file length with
  | zero => rfl
  | succ fuel ih =>
    rw [fatRead]
    split_ifs with hdone
    · rfl
    cases v.clusterData file.curCluster with
    | none => rfl
    | some base =>
      dsimp only
      generalize hchunk : min (min length (v.clusterBytes - file.pos % v.clusterBytes))
        (file.size - file.pos) = chunk
      have hpos' : u32 (file.pos + chunk) = file.pos + chunk := u32_of_lt (by omega)
      have hrest : ∀ cluster, (s.fatRead v fuel { file with
          curCluster := cluster, pos := u32 (file.pos + chunk) } (length - chunk)).2.pos = _ :=
        fun cluster => ih (length - chunk) hsize (by dsimp only; omega)
      split_ifs
      · cases s.nextCluster v file.curCluster with
        | next next =>
          rw [hrest next]
          simp [hpos',Nat.add_assoc]
        | broken => simpa using hpos'
        | last => simpa using hpos'
      · rw [hrest file.curCluster]
        simp [hpos',Nat.add_assoc]

theorem writeOn_pos (file : File) (hlt : file.pos + data.length < 2 ^ 32) :
    (s.writeOn v file data).2.1.pos = file.pos + (s.writeOn v file data).2.2 := by
  have hfrom : ∀ (s : Disk) (file : File), file.pos + data.length < 2 ^ 32 →
      (s.writeFrom v file data).2.1.pos = file.pos + (s.writeFrom v file data).2.2 := by
    intro s file hlt
    obtain ⟨cluster,heq,-⟩ := writeFrom_eq (v := v) s file data
    obtain ⟨hmoved,hle⟩ := writeLoop_moved (v := v) s (data.length + 1) file data
    rw [heq]
    exact hmoved.pos (by omega)
  unfold writeOn
  split_ifs
  · cases s.advance v file.curCluster with
    | mk s' next =>
      cases next with
      | none => rfl
      | some next => exact hfrom s' { file with curCluster := next } hlt
  · exact hfrom s file hlt

theorem fatWrite_pos (file : File) (hlt : file.pos + data.length < 2 ^ 32) :
    (s.fatWrite v file data).2.1.pos = file.pos + (s.fatWrite v file data).2.2 := by
  unfold fatWrite
  split_ifs
  · cases s.allocCluster v with
    | mk s' c =>
      cases c with
      | none => rfl
      | some c => exact writeOn_pos { file with firstCluster := c, curCluster := c } hlt
  · exact writeOn_pos file hlt

theorem fillGap_size {s' : Disk} (hpos : position ≤ 0xFFFFFFFF)
    (h : s.fillGap v entry position = (s', true)) : position ≤ s'.getSize entry := by
  unfold fillGap at h
  dsimp only at h
  split_ifs at h with hle
  · rw [← (Prod.mk.inj h).1]
    exact hle
  cases hc : s.cursor v entry (s.getSize entry) with
  | none =>
    rw [hc] at h
    cases h
  | some file =>
    rw [hc] at h
    dsimp only at h
    obtain ⟨-,hsize,hent,hmin⟩ := fatSeek_spec (cursor_some hc)
    rw [fileFromEntry] at hsize hent hmin
    rw [Nat.min_self] at hmin
    have hfill := fillLoop_size (position - s.getSize entry) (hmin.trans hsize.symm)
      (show file.pos + (position - s.getSize entry) < 2 ^ 32 by omega) (by rw [h]) (by omega)
    rw [h,hent] at hfill
    dsimp only at hfill
    omega

theorem cursor_pos (h : s.cursor v entry position = some file) :
    file.pos = min position (s.getSize entry) := (fatSeek_spec (cursor_some h)).2.2.2

theorem vfsRead_pos (length : ℕ) :
    (s.vfsRead v entry position length).2 = position + (s.vfsRead v entry position length).1.length := by
  unfold vfsRead
  split_ifs with hsize
  · rfl
  cases hc : s.cursor v entry position with
  | none => rfl
  | some file =>
    have hpos := cursor_pos hc
    have hfile : file.size = s.getSize entry := (fatSeek_spec (cursor_some hc)).2.1
    have hlt := s.getSize_lt entry
    dsimp only
    rw [fatRead_pos (length + 1) length (by omega) (by omega),hpos,Nat.min_eq_left (by omega)]

theorem vfsWrite_pos (data : List Byte) : (s.vfsWrite v entry position data).2.2 =
      position + (s.vfsWrite v entry position data).2.1 := by
  unfold vfsWrite
  split_ifs
  · rfl
  cases hfill : s.fillGap v entry position with
  | mk s' done =>
    cases done with
    | false => rfl
    | true =>
      dsimp only
      cases hc : s'.cursor v entry position with
      | none => rfl
      | some file =>
        have hpos := cursor_pos hc
        have hrange : position ≤ 0xFFFFFFFF := by
          unfold cursor at hc
          split_ifs at hc
          omega
        have hsize := fillGap_size hrange hfill
        dsimp only
        rw [fatWrite_pos file (by rw [List.length_take]; omega),hpos,Nat.min_eq_left hsize]

end Fat.Disk

namespace Ext2

/-- `read` of fs/ext2/ext2_vfs.c: the count and the position. -/
def readAt (node : Node) (position length : ℕ) : M (ℕ × ℕ) := do
  let r ← ext2FileRead node.disk position length
  pure (r.1.length, r.2)

/-- `write` of fs/ext2/ext2_vfs.c. The position has moved before `ext2_sync` has its say. -/
def writeAt (node : Node) (position : ℕ) (data : List Byte) (answers : Answers) : M (ℕ × ℕ) := do
  if (← Prog.look).ioFailed then pure (0, position)
  else do
    let r ← ext2FileWrite node.disk position data
    if (← ext2SyncVolume answers) ≠ 0 then pure (0, r.2) else pure r

variable {v : Volume} {node : Node} {data : List Byte} {answers : Answers} {inode : ℕ}

/-! The loops move the position by what they copy. -/

theorem fileReadLoop_pos (fuel position remaining : ℕ) (v : Volume) :
    Whenever (fileReadLoop inode fuel position remaining) v
      fun r _ => r.2 = position + r.1.length := by
  induction fuel generalizing position remaining v with
  | zero => exact whenever_pure rfl
  | succ fuel ih =>
    refine ite (fun _ => whenever_pure rfl) fun _ => look ?_
    refine bind (Q := fun _ _ => True) (fun _ _ => trivial) fun number v1 _ => ?_
    refine bind (Q := fun _ _ => True) (fun _ _ => trivial) fun block v2 _ => ?_
    refine bind (Q := fun bytes _ => bytes.length = _)
      (fun bytes hbytes => readChunk_length v2 hbytes) fun bytes v3 hlength => ?_
    refine bind (ih _ _ v3) fun rest v4 hrest => whenever_pure ?_
    dsimp only
    rw [hrest,List.length_append,hlength,Nat.add_assoc]

theorem fileWriteLoop_pos (fuel position : ℕ) (data : List Byte) (v : Volume) :
    Whenever (fileWriteLoop inode fuel position data) v fun r _ => r.2 = position + r.1 := by
  induction fuel generalizing position data v with
  | zero => exact whenever_pure rfl
  | succ fuel ih =>
    refine look (ite (fun _ => whenever_pure rfl) fun _ => ?_)
    refine bind (Q := fun _ _ => True) (fun _ _ => trivial) fun number v1 _ => ?_
    refine bind (Q := fun _ _ => True) (fun _ _ => trivial) fun block v2 _ => ?_
    cases block with
    | none => exact whenever_pure rfl
    | some block =>
      refine bind (Q := fun _ _ => True) (fun _ _ => trivial) fun _ v3 _ => ?_
      refine bind (Q := fun _ _ => True) (fun _ _ => trivial) fun _ v4 _ => ?_
      refine bind (Q := fun _ _ => True) (fun _ _ => trivial) fun size v5 _ => ?_
      refine bind (Q := fun _ _ => True) (fun _ _ => trivial) fun _ v6 _ => ?_
      refine bind (Q := fun _ _ => True) (fun _ _ => trivial) fun _ v7 _ => ?_
      refine bind (ih _ _ v7) fun rest v8 hrest => whenever_pure ?_
      dsimp only
      rw [hrest,Nat.add_assoc]

theorem readAt_law {position length count position' : ℕ}
    (h : (readAt node position length v).1 = .ok (count, position')) :
    position' = position + count := by
  have hrun : Whenever (readAt node position length) v fun r _ => r.2 = position + r.1 := by
    refine bind (Q := fun r _ => r.2 = position + r.1.length) ?_ fun r v' hr => whenever_pure hr
    refine bind (Q := fun _ _ => True) (fun _ _ => trivial) fun size v1 _ => ?_
    exact ite (fun _ => whenever_pure rfl) fun _ => fileReadLoop_pos _ _ _ v1
  exact hrun _ h

/-- Nothing will be written, or what is written gets to the device: the inode is in the image, and
the device reads in every page and takes every write. -/
def Settles (v : Volume) (node : Node) (position : ℕ) (answers : Answers) : Prop :=
  v.ioFailed = true ∨ 2 ^ 32 - 1 ≤ position ∨
    v.LaidOut ∧ NodeInImage v node ∧ v.Answering ∧
      (v.dirtyBlocks = none ∨ answers = Session.willing)

theorem fileWriteLoop_full {position : ℕ} (h : 2 ^ 32 - 1 ≤ position) (fuel : ℕ)
    (data : List Byte) (v : Volume) :
    Whenever (fileWriteLoop inode fuel position data) v fun r _ => r = (0, position) := by
  cases fuel with
  | zero => exact whenever_pure rfl
  | succ fuel => exact look (ite (fun _ => whenever_pure rfl) fun hchunk => absurd (by omega) hchunk)

theorem Steady.sync {v₀ : Volume} (h : Steady v₀ v)
    (hanswers : v₀.dirtyBlocks = none ∨ answers = Session.willing) :
    (ext2Sync v.toFs answers).2.2 = 0 := by
  by_cases hdirty : AnyDirty v.toFs
  · rcases hanswers with hnone | rfl
    · obtain ⟨dirty,hsome,-⟩ := hdirty
      have hdevice := h.device
      rw [hsome,hnone] at hdevice
      cases hdevice
    · exact (ext2Sync_willing hdirty).1
  · exact (ext2Sync_clean hdirty answers).2 h.clear

theorem writeAt_law {position count position' : ℕ} (hs : Settles v node position answers)
    (h : (writeAt node position data answers v).1 = .ok (count, position')) :
    position' = position + count := by
  have hrun : Whenever (writeAt node position data answers) v fun r _ => r.2 = position + r.1 := by
    refine look (ite (fun _ => whenever_pure rfl) fun hclear => ?_)
    -- either nothing was written or the sync succeeds
    refine bind (Q := fun r v' => r.2 = position + r.1 ∧
      (r.1 = 0 ∨ (ext2Sync v'.toFs answers).2.2 = 0)) (fun r hr => ⟨?_,?_⟩) ?_
    · exact fileWriteLoop_pos _ _ _ v r hr
    · rcases hs with hfailed | hfull | ⟨hlaid,hnode,hanswering,hanswers⟩
      · exact absurd hfailed hclear
      · left
        rw [fileWriteLoop_full hfull _ _ v r hr]
      · right
        have hstart : Steady v v := ⟨rfl,rfl,rfl,rfl,rfl,rfl,by simpa using hclear,hanswering⟩
        have hloop := (steady_fileWriteLoop hlaid hnode data.length position data).whenever hstart
        exact Steady.sync (hloop r hr).1 hanswers
    · rintro r v' ⟨hpos,hsynced⟩
      refine bind (Q := fun code _ => code = (ext2Sync v'.toFs answers).2.2) (fun code hcode => ?_) ?_
      · rw [(ext2SyncVolume_yields answers v').1] at hcode
        exact (Except.ok.inj hcode).symm
      · rintro _ v'' rfl
        refine ite (fun hsync => whenever_pure ?_) fun _ => whenever_pure hpos
        rw [hpos,hsynced.resolve_right hsync]
  exact hrun _ h

end Ext2

/-! ### Handles -/

inductive Handle where
  | fat (v : Fat.Volume) (s : Fat.Disk) (entry : ℕ)
  | ext2 (v : Ext2.Volume) (node : Ext2.Node) (answers : Ext2.Answers)

inductive Transfer where
  | read (length : ℕ)
  | write (data : List Byte)
  | append (data : List Byte)

namespace Handle

def size : Handle → ℕ
  | .fat _ s entry => s.getSize entry
  | .ext2 v node _ => Bytes.leNat v.image (node.disk + 4) 4

def readOp (position length : ℕ) : Handle → Except Ext2.Fault (ℕ × ℕ)
  | .fat v s entry =>
    let r := s.vfsRead v entry position length
    .ok (r.1.length, r.2)
  | .ext2 v node _ => (Ext2.readAt node position length v).1

def writeOp (position : ℕ) (data : List Byte) : Handle → Except Ext2.Fault (ℕ × ℕ)
  | .fat v s entry =>
    let r := s.vfsWrite v entry position data
    .ok (r.2.1, r.2.2)
  | .ext2 v node answers => (Ext2.writeAt node position data answers v).1

def transfer (h : Handle) (position : ℕ) : Transfer → Except Ext2.Fault (ℕ × ℕ)
  | .read length => if length = 0 then .ok (0, position) else h.readOp position length
  | .write data => if data = [] then .ok (0, position) else h.writeOp position data
  -- both back ends take any size for a position
  | .append data => if data = [] then .ok (0, position) else h.writeOp h.size data

def start (h : Handle) (position : ℕ) : Transfer → ℕ
  | .read _ => position
  | .write _ => position
  | .append data => if data = [] then position else h.size

/-- The position moves by the count from where the transfer starts. -/
def Law (h : Handle) (position : ℕ) (t : Transfer) : Prop :=
  ∀ count position', h.transfer position t = .ok (count, position') →
    position' = h.start position t + count

def Settles (h : Handle) (position : ℕ) (t : Transfer) : Prop :=
  match h, t with
  | .ext2 v node answers, .write data | .ext2 v node answers, .append data =>
    data = [] ∨ Ext2.Settles v node (h.start position t) answers
  | _, _ => True

/-- From now on the device reads every page in. -/
def answering (v : Ext2.Volume) : Ext2.Volume :=
  { v with lazy := v.lazy.map fun lz => { lz with answers := fun _ => true } }

theorem answering_answering (v : Ext2.Volume) : (answering v).Answering := by
  intro lz hlz n _
  obtain ⟨_,-,rfl⟩ := Option.map_eq_some_iff.mp hlz
  rfl

def deviceVolume : Ext2.Volume :=
  answering (Ext2.flakySession.step (.lookup 0 [0x66#8] true)).volume

def fileOnDevice (answers : Ext2.Answers) : Handle := .ext2 deviceVolume ⟨12,6528,false⟩ answers

theorem settles_deviceVolume :
    Ext2.Settles deviceVolume ⟨12,6528,false⟩ 0 Ext2.Session.willing := by
  have hlaid : deviceVolume.LaidOut := ⟨by decide +kernel,by decide +kernel,by decide +kernel⟩
  have hnode : Ext2.NodeInImage deviceVolume ⟨12,6528,false⟩ := by
    unfold Ext2.NodeInImage
    decide +kernel
  exact .inr (.inr ⟨hlaid,hnode,answering_answering _,.inr rfl⟩)

end Handle

end GaiaKernel
