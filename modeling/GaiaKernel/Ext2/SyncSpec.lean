import GaiaKernel.Ext2.Sync

/-! # Crash consistency of the writeback

`OnDisk` says, for each of the three stages of a writeback, what every block may hold durably and
what may be on its way to it. A superblock marked clean is then seen only on the image of the last
successful writeback or on the complete new one.
-/
namespace GaiaKernel.Ext2
open Bytes CrashDisk Function List
open Along (write flushFailed flush)
variable {d : Disk ℕ (List Byte)} {fs' : Fs} {number : ℕ} {s : State}
namespace Fs
variable (fs : Fs)

theorem blockSize_cases : fs.blockSize = 1024 ∨ fs.blockSize = 2048 ∨ fs.blockSize = 4096 := by
  unfold blockSize
  generalize fs.logBlockSize = l
  revert l
  decide

variable {fs} in
theorem blockSize_congr (h : fs'.logBlockSize = fs.logBlockSize) :
    fs'.blockSize = fs.blockSize ∧ fs'.superBlock = fs.superBlock := by
  unfold superBlock blockSize
  rw [h]
  exact ⟨rfl,rfl⟩

theorem stateOffset_mem (h1 : number * fs.blockSize ≤ stateOffset)
    (h2 : stateOffset < number * fs.blockSize + fs.blockSize) : number = fs.superBlock := by
  unfold superBlock
  unfold stateOffset at h1 h2
  rcases fs.blockSize_cases with h | h | h <;> rw [h] at h1 h2 ⊢ <;> omega

section
variable (h : number ≠ fs.superBlock)
include h

theorem block_update (x : Byte) :
    slice (update fs.image stateOffset x) (number * fs.blockSize) fs.blockSize =
      fs.block number := by
  refine slice_congr fun i hlo hhi => update_of_ne ?_ _ _
  rintro rfl
  exact h (fs.stateOffset_mem hlo hhi)

theorem clearValid_block : fs.clearValid.block number = fs.block number := fs.block_update h _
theorem setValid_block : fs.setValid.block number = fs.block number := fs.block_update h _

end

theorem clearValid_blocksCount : fs.clearValid.blocksCount = fs.blocksCount := by
  simp [blocksCount,clearValid,le32,le16,stateOffset]

theorem setValid_blocksCount : fs.setValid.blocksCount = fs.blocksCount := by
  simp [blocksCount,setValid,le32,le16,stateOffset]

theorem validFs_bits (x : Byte) : (x &&& ~~~ext2ValidFs) &&& ~~~ext2ValidFs = x &&& ~~~ext2ValidFs ∧
    (x ||| ext2ValidFs) &&& ~~~ext2ValidFs = x &&& ~~~ext2ValidFs ∧
    (x &&& ~~~ext2ValidFs) ||| ext2ValidFs = x ||| ext2ValidFs := by
  revert x
  decide

theorem clearValid_clearValid : fs.clearValid.clearValid = fs.clearValid := by
  simp [clearValid,validFs_bits]

theorem clearValid_setValid : fs.setValid.clearValid = fs.clearValid := by
  simp [clearValid,setValid,validFs_bits]

theorem setValid_clearValid : fs.clearValid.setValid = fs.setValid := by
  simp [clearValid,setValid,validFs_bits]

end Fs

def SaysClean (fs : Fs) (c : ℕ → List Byte) : Prop :=
  ((c fs.superBlock).getD (stateOffset - fs.superBlock * fs.blockSize) 0).getLsbD 0 = true

def SameVolume (fs : Fs) (c c' : ℕ → List Byte) : Prop := ∀ n < fs.blocksCount, c n = c' n

theorem saysClean_block (fs fs' : Fs) (hsize : fs'.logBlockSize = fs.logBlockSize) :
    SaysClean fs fs'.block ↔ (fs'.image stateOffset).getLsbD 0 = true := by
  have hb := (Fs.blockSize_congr hsize).1
  have hmem : fs.superBlock * fs.blockSize ≤ stateOffset ∧
      stateOffset - fs.superBlock * fs.blockSize < fs.blockSize := by
    unfold Fs.superBlock stateOffset
    rcases fs.blockSize_cases with h | h | h <;> rw [h] <;> decide
  have hget : (fs'.block fs.superBlock).getD (stateOffset - fs.superBlock * fs.blockSize) 0 =
      fs'.image stateOffset := by
    rw [Fs.block,hb,getD_eq_getElem?_getD,slice,getElem?_map,getElem?_range hmem.2]
    simp only [Option.map_some,Option.getD_some]
    congr 1
    omega
  rw [SaysClean,hget]

theorem clear_unclean (fs : Fs) : ¬ SaysClean fs fs.clearValid.block := by
  rw [saysClean_block fs fs.clearValid rfl]
  simp [Fs.clearValid,ext2ValidFs]

theorem set_clean (fs : Fs) : SaysClean fs fs.setValid.block := by
  rw [saysClean_block fs fs.setValid rfl]
  simp [Fs.setValid,ext2ValidFs]

/-- How far the writeback of the current image has come on the disk. -/
inductive Stage where
  /-- The volume is still the old one; the mark may be on its way. -/
  | old
  /-- The mark is on the disk; blocks may be on their way. -/
  | marked
  /-- All blocks are on the disk; the superblock may be on its way. -/
  | written

section
variable (fs : Fs) (synced : ℕ → List Byte)

def Durable : Stage → ℕ → List Byte → Prop
  | .old, n, x => n < fs.blocksCount → x = synced n
  | .marked, n, x => n < fs.blocksCount →
      if n = fs.superBlock then x = fs.clearValid.block n
      else x = synced n ∨ x = fs.setValid.block n
  | .written, n, x => n < fs.blocksCount →
      if n = fs.superBlock then x = fs.clearValid.block n ∨ x = fs.setValid.block n
      else x = fs.setValid.block n

def Pending : Stage → ℕ → List Byte → Prop
  | .old, n, x => n = fs.superBlock ∧ x = fs.clearValid.block n
  | .marked, n, x => if n = fs.superBlock then x = fs.clearValid.block n
      else x = fs.setValid.block n
  | .written, n, x => if n = fs.superBlock then x = fs.clearValid.block n ∨ x = fs.setValid.block n
      else x = fs.setValid.block n

def OnDisk (st : Stage) (d : Disk ℕ (List Byte)) : Prop :=
  Within (Durable fs synced st) (Pending fs st) d

end

section
variable {fs : Fs} {synced : ℕ → List Byte} {d d' : Disk ℕ (List Byte)} {st : Stage}
  {dirty : ℕ → Bool}
section
variable (h : OnDisk fs synced st d)
include h

theorem OnDisk.crash (hsuper : fs.superBlock < fs.blocksCount)
    {c : ℕ → List Byte} (hc : d.Crash c) (hclean : SaysClean fs c) :
    SameVolume fs c synced ∨ SameVolume fs c fs.setValid.block := by
  have hnot : c fs.superBlock ≠ fs.clearValid.block fs.superBlock := by
    intro heq
    refine clear_unclean fs ?_
    rwa [SaysClean,← heq]
  cases st with
  | old =>
    refine .inl fun n hn => ?_
    rcases Within.crash h hc n with hd | ⟨rfl,hp⟩
    · exact hd hn
    · exact absurd hp hnot
  | marked =>
    rcases Within.crash h hc fs.superBlock with hd | hp
    · have := hd hsuper
      rw [if_pos rfl] at this
      exact absurd this hnot
    · rw [Pending,if_pos rfl] at hp
      exact absurd hp hnot
  | written =>
    refine .inr fun n hn => ?_
    by_cases hs : n = fs.superBlock
    · subst hs
      rcases Within.crash h hc fs.superBlock with hd | hp
      · have := hd hn
        rw [if_pos rfl] at this
        exact this.resolve_left hnot
      · rw [Pending,if_pos rfl] at hp
        exact hp.resolve_left hnot
    · rcases Within.crash h hc n with hd | hp
      · have := hd hn
        rwa [if_neg hs] at this
      · rwa [Pending,if_neg hs] at hp

theorem OnDisk.known {c : ℕ → List Byte} (hc : d.Crash c) {n : ℕ}
    (hn : n < fs.blocksCount) (hs : n ≠ fs.superBlock) (hsame : fs.setValid.block n = synced n) :
    c n = fs.setValid.block n := by
  cases st with
  | old =>
    rcases Within.crash h hc n with hd | ⟨hp,_⟩
    · exact (hd hn).trans hsame.symm
    · exact absurd hp hs
  | marked =>
    rcases Within.crash h hc n with hd | hp
    · have hd := hd hn
      rw [if_neg hs] at hd
      exact hd.elim (fun hd => hd.trans hsame.symm) id
    · rwa [Pending,if_neg hs] at hp
  | written =>
    rcases Within.crash h hc n with hd | hp
    · have hd := hd hn
      rwa [if_neg hs] at hd
    · rwa [Pending,if_neg hs] at hp

theorem OnDisk.mark :
    OnDisk fs synced st (d.write fs.superBlock (fs.clearValid.block fs.superBlock)) := by
  apply h.write
  cases st with
  | old => exact ⟨rfl,rfl⟩
  | marked => rw [Pending,if_pos rfl]
  | written =>
    rw [Pending,if_pos rfl]
    exact .inl rfl

theorem OnDisk.markFlush (hmark : ∃ x, (fs.superBlock, x) ∈ d.pending) (hf : d.Flushed d') :
    ∃ st' ≠ Stage.old, OnDisk fs synced st' d' := by
  cases st with
  | old =>
    refine ⟨.marked,by simp,h.flushed hf (fun n x hx _ => ?_) fun n x hx hno hn => ?_⟩
    · obtain ⟨rfl,rfl⟩ := hx
      rw [if_pos rfl]
    · have hns : n ≠ fs.superBlock := by
        rintro rfl
        obtain ⟨y,hy⟩ := hmark
        exact hno y hy
      rw [if_neg hns]
      exact .inl (hx hn)
  | marked =>
    refine ⟨.marked,by simp,h.flushed hf (fun n x hx _ => ?_) fun n x hx _ => hx⟩
    by_cases hs : n = fs.superBlock
    · rw [if_pos hs]
      rwa [Pending,if_pos hs] at hx
    · rw [if_neg hs]
      rw [Pending,if_neg hs] at hx
      exact .inr hx
  | written => exact ⟨.written,by simp,h.flushed hf (fun n x hx _ => hx) fun n x hx _ => hx⟩

theorem OnDisk.data (hst : st ≠ .old) (n : ℕ) :
    OnDisk fs synced st (d.write n (fs.clearValid.block n)) := by
  apply h.write
  cases st with
  | old => exact absurd rfl hst
  | marked =>
    rw [Pending]
    split_ifs with hs
    · rfl
    · rw [fs.clearValid_block hs,fs.setValid_block hs]
  | written =>
    rw [Pending]
    split_ifs with hs
    · exact .inl rfl
    · rw [fs.clearValid_block hs,fs.setValid_block hs]

theorem OnDisk.dataFlush (hst : st ≠ .old)
    (hsame : ∀ n < fs.blocksCount, dirty n = false → fs.setValid.block n = synced n)
    (hall : ∀ n < fs.blocksCount, dirty n = true → ∃ x, (n, x) ∈ d.pending)
    (hf : d.Flushed d') : OnDisk fs synced .written d' := by
  cases st with
  | old => exact absurd rfl hst
  | marked =>
    refine h.flushed hf (fun n x hx _ => ?_) fun n x hx hno hn => ?_
    · by_cases hs : n = fs.superBlock
      · rw [if_pos hs]
        rw [Pending,if_pos hs] at hx
        exact .inl hx
      · rw [if_neg hs]
        rwa [Pending,if_neg hs] at hx
    · have hx := hx hn
      by_cases hs : n = fs.superBlock
      · rw [if_pos hs] at hx ⊢
        exact .inl hx
      · rw [if_neg hs] at hx ⊢
        -- A block that was not written is not dirty, so the old contents are the new ones.
        have hclean : dirty n = false := by
          by_contra hd
          obtain ⟨y,hy⟩ := hall n hn (by simpa using hd)
          exact hno y hy
        exact hx.elim (fun hx => hx.trans (hsame n hn hclean).symm) id
  | written => exact h.flushed hf (fun n x hx _ => hx) fun n x hx _ => hx

end

theorem OnDisk.clean (h : OnDisk fs synced .written d) :
    OnDisk fs synced .written (d.write fs.superBlock (fs.setValid.block fs.superBlock)) := by
  apply h.write
  rw [Pending,if_pos rfl]
  exact .inr rfl

theorem OnDisk.cleanFlush (h : OnDisk fs synced .written d) (hempty : d.pending = [])
    (hf : (d.write fs.superBlock (fs.setValid.block fs.superBlock)).Flushed d') :
    SameVolume fs d'.durable fs.setValid.block := by
  intro n hn
  have hpending : (d.write fs.superBlock (fs.setValid.block fs.superBlock)).pending =
      [(fs.superBlock, fs.setValid.block fs.superBlock)] := by
    simp [Disk.write,hempty]
  rcases hf.cases n with hmem | ⟨hno,heq⟩
  · rw [hpending,mem_singleton,Prod.mk.injEq] at hmem
    rw [hmem.2,hmem.1]
  · rw [heq]
    have hs : n ≠ fs.superBlock := by
      rintro rfl
      exact hno _ (hpending ▸ mem_singleton_self _)
    have hd := h.durable n hn
    rwa [if_neg hs] at hd

def Safe (fs : Fs) (synced : ℕ → List Byte) (d : Disk ℕ (List Byte)) : Prop :=
  ∃ st, OnDisk fs synced st d

theorem along_writeDirty (hst : st ≠ .old) (ok : ℕ → Bool) (numbers : List ℕ)
    (h : OnDisk fs synced st d) :
    Along (Safe fs synced) (fun d' => OnDisk fs synced st d' ∧ d.pending ⊆ d'.pending ∧
      ((fs.clearValid.writeDirty dirty ok numbers).2 = true → ∀ n ∈ numbers, dirty n = true →
        ∃ x, (n, x) ∈ d'.pending)) d (fs.clearValid.writeDirty dirty ok numbers).1 := by
  induction numbers generalizing d with
  | nil => exact ⟨⟨st,h⟩,h,List.Subset.refl _,fun _ n hn => (not_mem_nil hn).elim⟩
  | cons number rest ih =>
    simp only [Fs.writeDirty]
    by_cases hd : dirty number = true
    · rw [if_pos hd]
      have hw := h.data hst number
      have hsub : d.pending ⊆ (d.write number (fs.clearValid.block number)).pending :=
        subset_append_left _ _
      have hmem : (number, fs.clearValid.block number) ∈
          (d.write number (fs.clearValid.block number)).pending :=
        mem_append_right _ (mem_singleton_self _)
      by_cases hok : ok number = true
      · rw [if_pos hok]
        refine Along.append (l := [_]) (write (R := (· = d.write number
          (fs.clearValid.block number))) ⟨st,h⟩ ⟨st,hw⟩ rfl) fun d1 hd1 => ?_
        subst hd1
        refine (ih hw).imp fun d' ⟨hon,hsub',hall⟩ => ⟨hon,List.Subset.trans hsub hsub',?_⟩
        intro hr n hn hdn
        rcases mem_cons.mp hn with rfl | hn
        · exact ⟨_,hsub' hmem⟩
        · exact hall hr n hn hdn
      · rw [if_neg hok]
        refine write ⟨st,h⟩ ⟨st,hw⟩ ⟨hw,hsub,fun hf => ?_⟩
        exact absurd hf Bool.false_ne_true
    · rw [if_neg hd]
      refine (ih h).imp fun d' ⟨hon,hsub,hall⟩ => ⟨hon,hsub,fun hr n hn hdn => ?_⟩
      rcases mem_cons.mp hn with rfl | hn
      · exact absurd hdn hd
      · exact hall hr n hn hdn

/-- What a writeback leaves: some stage, and after success the complete new volume. -/
def Left (fs : Fs) (synced : ℕ → List Byte) (ret : ℤ) (d : Disk ℕ (List Byte)) : Prop :=
  Safe fs synced d ∧ (ret = 0 → SameVolume fs d.durable fs.setValid.block ∧ d.pending = [])

theorem along_ext2Sync (hdirty : fs.dirtyBlocks = some dirty)
    (hsome : ∃ n < (fs.blocksCount + 7) / 8 * 8, dirty n)
    (hsame : ∀ n < fs.blocksCount, dirty n = false → fs.setValid.block n = synced n)
    (h : OnDisk fs synced st d) (ok : Answers) :
    Along (Safe fs synced) (Left fs synced (ext2Sync fs ok).2.2) d (ext2Sync fs ok).1 := by
  have hfail : ∀ d', Safe fs synced d' → Left fs synced (-1) d' :=
    fun d' hd' => ⟨hd',fun h0 => absurd h0 (by decide)⟩
  have hmark : Along (Safe fs synced) (fun d' => OnDisk fs synced st d' ∧
      ∃ x, (fs.superBlock, x) ∈ d'.pending) d
      [fs.clearValid.writeBlock fs.superBlock ok.mark] := write ⟨st,h⟩ ⟨st,h.mark⟩
      ⟨h.mark,_,mem_append_right _ (mem_singleton_self _)⟩
  simp only [ext2Sync,hdirty]
  rw [if_neg (not_not.mpr hsome)]
  by_cases h0 : ok.mark = true
  swap
  · rw [if_pos h0]
    exact hmark.imp fun d' hd' => hfail d' ⟨st,hd'.1⟩
  rw [if_neg (not_not.mpr h0)]
  by_cases h1 : ok.markFlush = true
  swap
  · rw [if_pos h1]
    refine hmark.append fun d' hd' => ?_
    rw [Bool.not_eq_true] at h1
    rw [h1]
    exact flushFailed ⟨st,hd'.1⟩ (hfail d' ⟨st,hd'.1⟩)
  rw [if_neg (not_not.mpr h1),h1]
  have hmarked : Along (Safe fs synced) (fun d' => ∃ st' ≠ Stage.old, OnDisk fs synced st' d') d
      ([fs.clearValid.writeBlock fs.superBlock ok.mark] ++ [.flush true]) := by
    refine hmark.append fun d1 hd1 => flush ⟨st,hd1.1⟩ fun d2 hf => ?_
    obtain ⟨st',hst',hd2⟩ := hd1.1.markFlush hd1.2 hf
    exact ⟨⟨st',hd2⟩,st',hst',hd2⟩
  have hdata : Along (Safe fs synced) (fun d' => ∃ st' ≠ Stage.old, OnDisk fs synced st' d' ∧
      ((fs.clearValid.writeDirty dirty ok.data (range fs.blocksCount)).2 = true →
        ∀ n < fs.blocksCount, dirty n = true → ∃ x, (n, x) ∈ d'.pending)) d
      ([fs.clearValid.writeBlock fs.superBlock ok.mark] ++ [.flush true] ++
        (fs.clearValid.writeDirty dirty ok.data (range fs.blocksCount)).1) := by
    refine hmarked.append ?_
    rintro d1 ⟨st',hst',hd1⟩
    refine (along_writeDirty hst' ok.data _ hd1).imp ?_
    rintro d2 ⟨hd2,_,hall⟩
    exact ⟨st',hst',hd2,fun hr n hn => hall hr n (mem_range.mpr hn)⟩
  by_cases h2 : (fs.clearValid.writeDirty dirty ok.data (range fs.blocksCount)).2 = true
  swap
  · rw [if_pos h2]
    refine hdata.imp ?_
    rintro d' ⟨st',_,hd',_⟩
    exact hfail d' ⟨st',hd'⟩
  rw [if_neg (not_not.mpr h2)]
  by_cases h3 : ok.dataFlush = true
  swap
  · rw [Bool.not_eq_true] at h3
    rw [h3]
    refine hdata.append ?_
    rintro d' ⟨st',_,hd',_⟩
    exact flushFailed ⟨st',hd'⟩ (hfail d' ⟨st',hd'⟩)
  rw [if_neg (not_not.mpr h3),h3,Fs.setValid_clearValid]
  have hwritten := hdata.append (m := [.flush true])
    (S := fun d' => OnDisk fs synced .written d' ∧ d'.pending = []) <| by
      rintro d1 ⟨st',hst',hd1,hall⟩
      refine flush ⟨st',hd1⟩ fun d2 hf => ?_
      have hd2 := hd1.dataFlush hst' hsame (hall h2) hf
      exact ⟨⟨_,hd2⟩,hd2,hf.1⟩
  have hclean := hwritten.append (m := [fs.setValid.writeBlock fs.superBlock ok.clean])
    (S := fun d' => OnDisk fs synced .written d' ∧ ∀ d'', d'.Flushed d'' →
      SameVolume fs d''.durable fs.setValid.block)
    fun d1 hd1 => write ⟨_,hd1.1⟩ ⟨_,hd1.1.clean⟩
      ⟨hd1.1.clean,fun d2 hf => hd1.1.cleanFlush hd1.2 hf⟩
  by_cases h4 : ok.clean = true
  swap
  · rw [if_pos h4]
    exact hclean.imp fun d' hd' => hfail d' ⟨_,hd'.1⟩
  rw [if_neg (not_not.mpr h4)]
  by_cases h5 : ok.cleanFlush = true
  swap
  · rw [Bool.not_eq_true] at h5
    rw [h5]
    refine hclean.append fun d' hd' => ?_
    exact flushFailed ⟨_,hd'.1⟩ (hfail d' ⟨_,hd'.1⟩)
  rw [if_neg (not_not.mpr h5),h5]
  refine hclean.append fun d1 hd1 => flush ⟨_,hd1.1⟩ fun d2 hf => ?_
  have hd2 : Safe fs synced d2 := by
    refine ⟨.written,hd1.1.flushed hf (fun n x hx _ => hx) fun n x hx _ => hx⟩
  exact ⟨hd2,hd2,fun _ => ⟨hd1.2 d2 hf,hf.1⟩⟩

theorem writeDirty_ok {ok : ℕ → Bool} {numbers : List ℕ}
    (h : (fs.writeDirty dirty ok numbers).2 = true) :
    ∀ c ∈ (fs.writeDirty dirty ok numbers).1, c.ok = true := by
  induction numbers with
  | nil => exact fun c hc => (not_mem_nil hc).elim
  | cons number rest ih =>
    simp only [Fs.writeDirty] at h ⊢
    split_ifs at h ⊢
    · intro c hc
      rcases mem_cons.mp hc with rfl | hc
      · rfl
      · exact ih h c hc
    · exact ih h

/-- A writeback with something to write fails with the flag cleared and the dirty bitmap
kept, or succeeds with the flag set, and then no call of the device has failed. -/
theorem ext2Sync_cases (hdirty : fs.dirtyBlocks = some dirty)
    (hsome : ∃ n < (fs.blocksCount + 7) / 8 * 8, dirty n) (ok : Answers) :
    (ext2Sync fs ok).2 = ({ fs.clearValid with ioFailed := true }, -1) ∨ (ext2Sync fs ok).2 =
        ({ fs.setValid with dirtyBlocks := some fun _ => false, ioFailed := false }, 0) ∧
        ∀ c ∈ (ext2Sync fs ok).1, c.ok = true := by
  simp only [ext2Sync,hdirty,Fs.failed,Fs.clearValid_clearValid,Fs.setValid_clearValid,
    Fs.clearValid_setValid]
  split_ifs with h0 h1 h2 h3 h4 h5
  on_goal 1 =>
    refine .inr ⟨rfl,?_⟩
    intro c hc
    simp only [mem_append,mem_singleton] at hc
    rcases hc with ((((rfl | rfl) | hc) | rfl) | rfl) | rfl
    · exact h0
    · exact h1
    · exact writeDirty_ok h2 c hc
    · exact h3
    · exact h4
    · exact h5
  all_goals exact .inl rfl

end

/-- A mounted device volume: the volume in memory, the disk under it, and the blocks of the
image at the last successful writeback. -/
structure State where
  fs : Fs
  disk : Disk ℕ (List Byte)
  synced : ℕ → List Byte

structure Mounted (s : State) : Prop where
  super : s.fs.superBlock < s.fs.blocksCount
  clean : (s.fs.image stateOffset).getLsbD 0 = true
  dirty : s.fs.dirtyBlocks = some fun _ => false
  running : s.fs.ioFailed = false
  disk : SameVolume s.fs s.disk.durable s.fs.block ∧ s.disk.pending = []
  synced : s.synced = s.fs.block

inductive Step : State → State → Prop
  /-- An operation changes the image and marks what it changes; it is refused after a
  failure, and may meet one. No operation changes the number of blocks. -/
  | mutate {s : State} (hio : s.fs.ioFailed = false) (fs' : Fs)
      (hsize : fs'.logBlockSize = s.fs.logBlockSize)
      (hcount : fs'.blocksCount = s.fs.blocksCount) {dirty dirty' : ℕ → Bool}
      (hdirty : s.fs.dirtyBlocks = some dirty) (hdirty' : fs'.dirtyBlocks = some dirty')
      (hmarks : ∀ n, dirty' n = false → dirty n = false ∧ fs'.block n = s.fs.block n) :
      Step s { s with fs := fs' }
  | sync {s : State} (ok : Answers) {d : Disk ℕ (List Byte)}
      (hrun : CallRun s.disk (ext2Sync s.fs ok).1 d) :
      Step s ⟨(ext2Sync s.fs ok).2.1,d,
        if (ext2Sync s.fs ok).2.2 = 0 then (ext2Sync s.fs ok).2.1.block else s.synced⟩

inductive Reachable : State → Prop
  | mounted {s : State} (h : Mounted s) : Reachable s
  | step {s s' : State} (h : Reachable s) (hs : Step s s') : Reachable s'

structure Tracked (s : State) : Prop where
  super : s.fs.superBlock < s.fs.blocksCount
  clean : SaysClean s.fs s.synced
  dirty : ∃ dirty, s.fs.dirtyBlocks = some dirty ∧
    (∀ n < s.fs.blocksCount, dirty n = false → s.fs.setValid.block n = s.synced n) ∧
    (s.fs.ioFailed = false → ∀ n < s.fs.blocksCount, dirty n = false →
      s.fs.block n = s.synced n)
  disk : Safe s.fs s.synced s.disk
  calm : s.fs.ioFailed = false → SameVolume s.fs s.disk.durable s.synced ∧ s.disk.pending = []

theorem safe_of_calm {fs : Fs} {synced : ℕ → List Byte}
    (hd : SameVolume fs d.durable synced) (hp : d.pending = []) : Safe fs synced d := by
  refine ⟨.old,hd,fun n x hx => ?_⟩
  rw [hp] at hx
  exact (not_mem_nil hx).elim

theorem setValid_block_of_clean {fs : Fs} (h : (fs.image stateOffset).getLsbD 0 = true) (n : ℕ) :
    fs.setValid.block n = fs.block n := by
  have hor : ∀ x : Byte, x.getLsbD 0 = true → x ||| ext2ValidFs = x := by decide
  simp [Fs.setValid,hor _ h]

theorem Mounted.tracked (h : Mounted s) : Tracked s := by
  have hsynced := h.synced
  refine ⟨h.super,?_,⟨_,h.dirty,fun n _ _ => ?_,fun _ n _ _ => ?_⟩,?_,fun _ => ?_⟩
  · rw [hsynced,saysClean_block s.fs s.fs rfl]
    exact h.clean
  · rw [hsynced]
    exact setValid_block_of_clean h.clean n
  · rw [hsynced]
  · rw [hsynced]
    exact safe_of_calm h.disk.1 h.disk.2
  · rw [hsynced]
    exact h.disk

theorem setValid_block_congr {fs : Fs} (hsize : fs'.logBlockSize = fs.logBlockSize) {n : ℕ}
    (h : fs'.block n = fs.block n) : fs'.setValid.block n = fs.setValid.block n := by
  obtain ⟨hb,hs⟩ := Fs.blockSize_congr hsize
  by_cases hn : n = fs.superBlock
  · have hcell : ∀ i < fs.blockSize, fs'.image (n * fs.blockSize + i) =
        fs.image (n * fs.blockSize + i) := by
      intro i hi
      rw [Fs.block,Fs.block,hb,slice,slice] at h
      exact map_inj_left.mp h i (mem_range.mpr hi)
    change slice (update fs'.image _ _) (n * fs'.blockSize) fs'.blockSize =
      slice (update fs.image _ _) (n * fs.blockSize) fs.blockSize
    rw [hb]
    refine slice_congr fun i hlo hhi => ?_
    have heq := hcell (i - n * fs.blockSize) (by omega)
    rw [Nat.add_sub_cancel' hlo] at heq
    by_cases hi : i = stateOffset
    · subst hi
      rw [update_self,update_self,heq]
    · rw [update_of_ne hi,update_of_ne hi,heq]
  · rw [fs'.setValid_block (hs ▸ hn),fs.setValid_block hn,h]

theorem Tracked.mutate (h : Tracked s) (hio : s.fs.ioFailed = false)
    (hsize : fs'.logBlockSize = s.fs.logBlockSize) (hcount : fs'.blocksCount = s.fs.blocksCount)
    {dirty dirty' : ℕ → Bool} (hdirty : s.fs.dirtyBlocks = some dirty)
    (hdirty' : fs'.dirtyBlocks = some dirty')
    (hmarks : ∀ n, dirty' n = false → dirty n = false ∧ fs'.block n = s.fs.block n) :
    Tracked { s with fs := fs' } := by
  obtain ⟨hb,hs⟩ := Fs.blockSize_congr hsize
  obtain ⟨dirty0,hd0,hset,hblock⟩ := h.dirty
  cases hdirty.symm.trans hd0
  obtain ⟨hdisk,hp⟩ := h.calm hio
  refine ⟨?_,?_,⟨dirty',hdirty',fun n hn hd => ?_,fun _ n hn hd => ?_⟩,?_,fun _ => ?_⟩
  · rw [hs,hcount]
    exact h.super
  · have hclean := h.clean
    rw [SaysClean] at hclean ⊢
    rwa [hs,hb]
  · rw [hcount] at hn
    rw [setValid_block_congr hsize (hmarks n hd).2]
    exact hset n hn (hmarks n hd).1
  · rw [hcount] at hn
    rw [(hmarks n hd).2]
    exact hblock hio n hn (hmarks n hd).1
  · refine safe_of_calm (fun n hn => ?_) hp
    rw [hcount] at hn
    exact hdisk n hn
  · refine ⟨fun n hn => ?_,hp⟩
    rw [hcount] at hn
    exact hdisk n hn

theorem OnDisk.congr {fs : Fs} {synced : ℕ → List Byte} {st : Stage} (h : OnDisk fs synced st d)
    (hcount : fs'.blocksCount = fs.blocksCount) (hsuper : fs'.superBlock = fs.superBlock)
    (hclear : fs'.clearValid.block = fs.clearValid.block)
    (hset : fs'.setValid.block = fs.setValid.block) : OnDisk fs' synced st d := by
  have hd : Durable fs' synced st = Durable fs synced st := by
    cases st <;> funext n x <;> simp only [Durable,hcount,hsuper,hclear,hset]
  have hp : Pending fs' st = Pending fs st := by
    cases st <;> funext n x <;> simp only [Pending,hsuper,hclear,hset]
  rw [OnDisk,hd,hp]
  exact h

theorem Tracked.failed (h : Tracked s) (hsafe : Safe s.fs s.synced d) :
    Tracked ⟨{ s.fs.clearValid with ioFailed := true },d,s.synced⟩ := by
  obtain ⟨dirty,hdirty,hset,_⟩ := h.dirty
  obtain ⟨st,hst⟩ := hsafe
  have hclear : s.fs.clearValid.clearValid.block = s.fs.clearValid.block :=
    congrArg Fs.block s.fs.clearValid_clearValid
  have hsets : s.fs.clearValid.setValid.block = s.fs.setValid.block :=
    congrArg Fs.block s.fs.setValid_clearValid
  have hcount := s.fs.clearValid_blocksCount
  refine ⟨?_,h.clean,⟨dirty,hdirty,fun n hn hd => ?_,fun hio => ?_⟩,⟨st,?_⟩,fun hio => ?_⟩
  · exact hcount.symm ▸ h.super
  · exact (congrFun hsets n).trans (hset n (hcount ▸ hn) hd)
  · exact absurd hio (by simp)
  · exact hst.congr hcount rfl hclear hsets
  · exact absurd hio (by simp)

theorem Tracked.written (h : Tracked s)
    (hdisk : SameVolume s.fs d.durable s.fs.setValid.block) (hp : d.pending = []) :
    Tracked ⟨{ s.fs.setValid with dirtyBlocks := some fun _ => false, ioFailed := false },d,
      s.fs.setValid.block⟩ := by
  have hcount := s.fs.setValid_blocksCount
  have hbit : (s.fs.setValid.image stateOffset).getLsbD 0 = true :=
    (saysClean_block s.fs s.fs.setValid rfl).mp (set_clean s.fs)
  have hsame : ∀ n < s.fs.setValid.blocksCount, d.durable n = s.fs.setValid.block n := by
    intro n hn
    exact hdisk n (hcount ▸ hn)
  refine ⟨?_,set_clean s.fs,⟨_,rfl,fun n _ _ => ?_,fun _ n _ _ => rfl⟩,
    safe_of_calm hsame hp,fun _ => ⟨hsame,hp⟩⟩
  · exact hcount.symm ▸ h.super
  · exact setValid_block_of_clean hbit n

theorem Tracked.idle (h : Tracked s) {dirty : ℕ → Bool} (hdirty : s.fs.dirtyBlocks = some dirty)
    (hnone : ¬ ∃ n < (s.fs.blocksCount + 7) / 8 * 8, dirty n) (hio : s.fs.ioFailed = false) :
    Tracked ⟨s.fs,s.disk,s.fs.block⟩ := by
  obtain ⟨dirty0,hd0,hset,hblock⟩ := h.dirty
  cases hdirty.symm.trans hd0
  have hclean : ∀ n < s.fs.blocksCount, dirty n = false := by
    intro n hn
    by_contra hd
    exact hnone ⟨n,by omega,by simpa using hd⟩
  have hsame : ∀ n < s.fs.blocksCount, s.fs.block n = s.synced n :=
    fun n hn => hblock hio n hn (hclean n hn)
  obtain ⟨hdisk,hp⟩ := h.calm hio
  have hdisk' : SameVolume s.fs s.disk.durable s.fs.block :=
    fun n hn => (hdisk n hn).trans (hsame n hn).symm
  refine ⟨h.super,?_,⟨dirty,hdirty,fun n hn hd => ?_,fun _ n _ _ => rfl⟩,
    safe_of_calm hdisk' hp,fun _ => ⟨hdisk',hp⟩⟩
  · have hclean' := h.clean
    rw [SaysClean,← hsame _ h.super] at hclean'
    exact hclean'
  · rw [hset n hn hd]
    exact (hsame n hn).symm

theorem Tracked.sync (h : Tracked s) (ok : Answers) (hrun : CallRun s.disk (ext2Sync s.fs ok).1 d) :
    Tracked ⟨(ext2Sync s.fs ok).2.1,d,
      if (ext2Sync s.fs ok).2.2 = 0 then (ext2Sync s.fs ok).2.1.block else s.synced⟩ := by
  obtain ⟨dirty,hdirty,hset,hblock⟩ := h.dirty
  by_cases hsome : ∃ n < (s.fs.blocksCount + 7) / 8 * 8, dirty n
  · obtain ⟨st,hst⟩ := h.disk
    have hleft := (along_ext2Sync hdirty hsome hset hst ok).post hrun
    rcases ext2Sync_cases hdirty hsome ok with heq | ⟨heq,_⟩
    · rw [heq] at hleft ⊢
      exact h.failed hleft.1
    · rw [heq] at hleft ⊢
      obtain ⟨hdisk,hp⟩ := hleft.2 rfl
      exact h.written hdisk hp
  · rw [ext2Sync_idle hdirty hsome] at hrun ⊢
    cases hrun
    cases hio : s.fs.ioFailed with
    | true => exact h
    | false => exact h.idle hdirty hsome hio

theorem Reachable.tracked (h : Reachable s) : Tracked s := by
  induction h with
  | mounted h => exact h.tracked
  | step _ hs ih =>
    cases hs with
    | mutate hio fs' hsize hcount hdirty hdirty' hmarks =>
      exact ih.mutate hio hsize hcount hdirty hdirty' hmarks
    | sync ok hrun => exact ih.sync ok hrun

/-- A volume seen clean after a crash at any point of a writeback is the one of the last
successful writeback or the complete new one. When a call of the device fails the writeback
fails, the dirty bitmap stays as it was, and every other block but the superblock's is known
to be on the disk. -/
theorem sync_crash_consistent {s : State} (hs : Reachable s) (ok : Answers) :
    (∀ pre d c, pre <+: (ext2Sync s.fs ok).1 → CallRun s.disk pre d → d.Crash c →
      SaysClean s.fs c → SameVolume s.fs c s.synced ∨ SameVolume s.fs c s.fs.setValid.block) ∧
    ((∃ call ∈ (ext2Sync s.fs ok).1, call.ok = false) →
      (ext2Sync s.fs ok).2.2 = -1 ∧ (ext2Sync s.fs ok).2.1.dirtyBlocks = s.fs.dirtyBlocks ∧
      ∀ d c dirty n, CallRun s.disk (ext2Sync s.fs ok).1 d → d.Crash c →
        s.fs.dirtyBlocks = some dirty → n < s.fs.blocksCount → n ≠ s.fs.superBlock →
        dirty n = false → c n = (ext2Sync s.fs ok).2.1.block n) := by
  have h := hs.tracked
  obtain ⟨dirty,hdirty,hset,hblock⟩ := h.dirty
  obtain ⟨st,hst⟩ := h.disk
  by_cases hsome : ∃ n < (s.fs.blocksCount + 7) / 8 * 8, dirty n
  · have halong := along_ext2Sync hdirty hsome hset hst ok
    refine ⟨fun pre d c hpre hrun hc hclean => ?_,fun ⟨call,hcall,hbad⟩ => ?_⟩
    · obtain ⟨st',hst'⟩ := halong.crashPoint hpre hrun
      exact hst'.crash h.super hc hclean
    · rcases ext2Sync_cases hdirty hsome ok with heq | ⟨_,hall⟩
      · rw [heq]
        refine ⟨rfl,rfl,fun d c dirty' n hrun hc hdirty' hn hns hd => ?_⟩
        cases hdirty.symm.trans hdirty'
        obtain ⟨⟨st',hst'⟩,_⟩ := halong.post hrun
        change c n = s.fs.clearValid.block n
        rw [s.fs.clearValid_block hns,← s.fs.setValid_block hns]
        exact hst'.known hc hn hns (hset n hn hd)
      · exact absurd (hall call hcall) (by simp [hbad])
  · rw [ext2Sync_idle hdirty hsome]
    refine ⟨fun pre d c hpre hrun hc hclean => ?_,fun ⟨call,hcall,_⟩ => ?_⟩
    · rw [prefix_nil.mp hpre] at hrun
      cases hrun
      exact hst.crash h.super hc hclean
    · exact (not_mem_nil hcall).elim

def Fs.mountState (fs : Fs) : State := ⟨fs,⟨fs.block,[]⟩,fs.block⟩

theorem Fs.mountState_mounted {fs : Fs} (hsuper : fs.superBlock < fs.blocksCount)
    (hclean : (fs.image stateOffset).getLsbD 0 = true)
    (hdirty : fs.dirtyBlocks = some fun _ => false) (hio : fs.ioFailed = false) :
    Mounted fs.mountState := ⟨hsuper,hclean,hdirty,hio,⟨fun _ _ => rfl,rfl⟩,rfl⟩

def threeBlocks : Fs where
  image := fun i => if i = 1028 then 3 else if i = stateOffset then 1 else 0
  logBlockSize := haveI := neZero_three; 0
  dirtyBlocks := some fun _ => false
  ioFailed := false

theorem threeBlocks_mounted : Mounted threeBlocks.mountState :=
  Fs.mountState_mounted (by decide +kernel) (by decide +kernel) rfl rfl

/-- The superblock is written without being marked: when the flush behind the mark fails it
is not known whether it reached the disk. -/
theorem Tracked.superblock_unknown (h : Tracked s) (hio : s.fs.ioFailed = false)
    (dirty : ℕ → Bool) (hdirty : s.fs.dirtyBlocks = some dirty)
    (hsome : ∃ n < (s.fs.blocksCount + 7) / 8 * 8, dirty n) :
    ∃ ok d c, CallRun s.disk (ext2Sync s.fs ok).1 d ∧ d.Crash c ∧ (ext2Sync s.fs ok).2.2 = -1 ∧
      (ext2Sync s.fs ok).2.1.dirtyBlocks = some dirty ∧
      c s.fs.superBlock ≠ (ext2Sync s.fs ok).2.1.block s.fs.superBlock := by
  have hcalls : ext2Sync s.fs ⟨true,false,fun _ => true,true,true,true⟩ =
      ([s.fs.clearValid.writeBlock s.fs.superBlock true, .flush false],
        { s.fs.clearValid with ioFailed := true }, -1) := by
    simp only [ext2Sync,hdirty,Fs.failed,Fs.clearValid_clearValid]
    rw [if_neg (not_not.mpr hsome)]
    rfl
  refine ⟨⟨true,false,fun _ => true,true,true,true⟩,
    s.disk.write s.fs.superBlock (s.fs.clearValid.block s.fs.superBlock),s.disk.durable,?_,?_, ?_⟩
  · rw [hcalls]
    exact .cons (.write _ _ _ _) (.cons (.flushFailed _) (.nil _))
  · exact ⟨[],nil_subperm,rfl⟩
  · rw [hcalls]
    refine ⟨rfl,hdirty,fun heq => clear_unclean s.fs ?_⟩
    have hclean := h.clean
    rw [SaysClean,← (h.calm hio).1 _ h.super,heq] at hclean
    exact hclean

def threeBlocksWritten : Fs :=
  { threeBlocks with
    image := Function.update threeBlocks.image 2048 1
    dirtyBlocks := some fun n => n = 2 }

theorem threeBlocksWritten_step :
    Step threeBlocks.mountState { threeBlocks.mountState with fs := threeBlocksWritten } := by
  refine .mutate (s := threeBlocks.mountState) rfl threeBlocksWritten rfl (by decide +kernel) rfl
    rfl fun n hn => ⟨rfl,?_⟩
  have hn : n ≠ 2 := by simpa using hn
  refine slice_congr fun i hlo hhi => update_of_ne ?_ _ _
  have hb : threeBlocksWritten.blockSize = 1024 := by decide +kernel
  rw [hb] at hlo hhi
  omega

theorem threeBlocksWritten_reachable :
    Reachable { threeBlocks.mountState with fs := threeBlocksWritten } :=
  .step (.mounted threeBlocks_mounted) threeBlocksWritten_step

theorem sync_threeBlocksWritten :
    ext2Sync threeBlocksWritten ⟨true,true,fun _ => false,true,true,true⟩ =
      ([.write 1 (threeBlocksWritten.clearValid.block 1) true, .flush true,
        .write 2 (threeBlocksWritten.clearValid.block 2) false],threeBlocksWritten.failed,-1) := by
  have hcount : threeBlocksWritten.blocksCount = 3 := by decide +kernel
  have hsuper : threeBlocksWritten.superBlock = 1 := by decide +kernel
  have hdirty : threeBlocksWritten.dirtyBlocks = some fun n => decide (n = 2) := rfl
  have hrange : List.range 3 = [0, 1, 2] := rfl
  have hsome : ∃ n < (3 + 7) / 8 * 8, decide (n = 2) = true := ⟨2,by decide,rfl⟩
  simp only [ext2Sync,hdirty,hcount,hsuper,hrange,Fs.failed,Fs.clearValid_clearValid]
  rw [if_neg (not_not.mpr hsome)]
  simp [Fs.writeDirty,Fs.writeBlock]

/-- The write of the data block is reported as failed, though the block reaches the disk: the crash
leaves neither the old volume nor the new one. -/
theorem sync_crash_threeBlocks : ∃ d c,
    CallRun threeBlocks.mountState.disk
      (ext2Sync threeBlocksWritten ⟨true,true,fun _ => false,true,true,true⟩).1 d ∧
    d.Crash c ∧ c 2 ≠ threeBlocks.block 2 ∧ ¬ SaysClean threeBlocksWritten c ∧
    (ext2Sync threeBlocksWritten ⟨true,true,fun _ => false,true,true,true⟩).2.2 = -1 ∧
    c 0 = (ext2Sync threeBlocksWritten ⟨true,true,fun _ => false,true,true,true⟩).2.1.block 0 := by
  have hrun : ∀ (f : ℕ → List Byte) (x y : List Byte), CallRun ⟨f,[]⟩
      [.write 1 x true, .flush true, .write 2 y false] ⟨patch f [(1, x)],[(2, y)]⟩ :=
    fun f x y => .cons (.write _ _ _ _) (.cons (.flush ⟨rfl,[(1, x)],.refl _,rfl⟩)
      (.cons (.write ⟨patch f [(1, x)],[]⟩ _ _ _) (.nil _)))
  have hthm := sync_crash_consistent threeBlocksWritten_reachable
    ⟨true,true,fun _ => false,true,true,true⟩
  have hnew : threeBlocksWritten.clearValid.block 2 ≠ threeBlocks.block 2 := by
    intro h
    have := congrArg (·.head?) h
    revert this
    decide +kernel
  have hmark : threeBlocksWritten.clearValid.block 1 ≠ threeBlocksWritten.setValid.block 1 := by
    intro h
    refine clear_unclean threeBlocksWritten ?_
    have hsuper : threeBlocksWritten.superBlock = 1 := by decide +kernel
    have hclean := set_clean threeBlocksWritten
    rwa [SaysClean,hsuper,← h,← hsuper] at hclean
  dsimp only at hthm
  rw [sync_threeBlocksWritten] at hthm ⊢
  refine ⟨_,_,hrun _ _ _,⟨_,.refl _,rfl⟩,by simpa [patch] using hnew,fun hclean => ?_,rfl,?_⟩
  · rcases hthm.1 _ _ _ (List.prefix_refl _) (hrun _ _ _) ⟨_,.refl _,rfl⟩ hclean with h | h
    · have h2 := h 2 (by decide +kernel)
      simp only [patch,foldl_cons,foldl_nil,update_self,Fs.mountState] at h2
      exact hnew h2
    · have h1 := h 1 (by decide +kernel)
      simp only [patch,foldl_cons,foldl_nil] at h1
      rw [update_of_ne (by decide),update_self] at h1
      exact hmark h1
  · exact (hthm.2 ⟨_,.tail _ (.tail _ (.head _)),rfl⟩).2.2 _ _ _ 0 (hrun _ _ _) ⟨_,.refl _,rfl⟩ rfl
      (by decide +kernel) (by decide +kernel) (by decide)

/-- With only the last block dirty, a failed writeback leaves the superblock's block neither
known to be on the disk nor marked dirty. -/
theorem sync_superblock_unmarked : ∃ s ok d c dirty, Reachable s ∧
    CallRun s.disk (ext2Sync s.fs ok).1 d ∧ d.Crash c ∧ (ext2Sync s.fs ok).2.2 = -1 ∧
    (ext2Sync s.fs ok).2.1.dirtyBlocks = some dirty ∧ dirty s.fs.superBlock = false ∧
    c s.fs.superBlock ≠ (ext2Sync s.fs ok).2.1.block s.fs.superBlock := by
  have hs := threeBlocksWritten_reachable
  obtain ⟨ok,d,c,hrun,hc,hret,hdirty,hne⟩ := hs.tracked.superblock_unknown rfl
    (fun n => n = 2) rfl ⟨2,by decide +kernel,rfl⟩
  exact ⟨_,ok,d,c,_,hs,hrun,hc,hret,hdirty,by decide +kernel,hne⟩

end GaiaKernel.Ext2
