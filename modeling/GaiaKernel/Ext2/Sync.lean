import GaiaKernel.Lib.Bytes
import GaiaKernel.Lib.CrashDisk
import GaiaKernel.Memory.Word

/-! # Writing an ext2 volume back

`ext2_sync` of fs/ext2/ext2_io.c: the superblock goes to the device marked unclean, then the
dirty blocks, then the superblock marked clean, with a flush behind each. The device's
answers are an oracle.
-/
namespace GaiaKernel.Ext2
open Bytes CrashDisk

abbrev DeviceCall := Call ℕ (List Byte)

/-- `struct ext2_fs`, the part the writeback uses: the image, the size of a block (the mount
refuses a `log_block_size` above 2), the dirty bitmap of a device mount and `io_failed`. -/
structure Fs where
  image : ℕ → Byte
  logBlockSize : Fin 3
  dirtyBlocks : Option (ℕ → Bool)
  ioFailed : Bool

/-- Offset of `state` of the superblock; the flag is in its low byte. -/
def stateOffset : ℕ := 1024 + 58
def ext2ValidFs : Byte := 1#8

namespace Fs
variable (fs : Fs)

def blockSize : ℕ := 1024 * 2 ^ fs.logBlockSize.val
def blocksCount : ℕ := le32 fs.image (1024 + 4)
def superBlock : ℕ := 1024 / fs.blockSize
def block (number : ℕ) : List Byte := slice fs.image (number * fs.blockSize) fs.blockSize

def clearValid : Fs :=
  { fs with image :=
      Function.update fs.image stateOffset (fs.image stateOffset &&& ~~~ext2ValidFs) }

def setValid : Fs :=
  { fs with image := Function.update fs.image stateOffset (fs.image stateOffset ||| ext2ValidFs) }

def writeBlock (number : ℕ) (ok : Bool) : DeviceCall := .write number (fs.block number) ok

/-- The data phase of `ext2_sync`: the dirty ones of the given blocks, up to the first write
that fails, and whether none did. -/
def writeDirty (dirty : ℕ → Bool) (ok : ℕ → Bool) : List ℕ → List DeviceCall × Bool
  | [] => ([], true)
  | number :: rest =>
    if dirty number then
      if ok number then
        let r := writeDirty dirty ok rest
        (fs.writeBlock number true :: r.1, r.2)
      else ([fs.writeBlock number false], false)
    else writeDirty dirty ok rest

def failed : Fs := { fs.clearValid with ioFailed := true }

end Fs

/-- The device's answers: to the first write of the superblock and its flush, to the write of each
dirty block and the flush behind them, to the last write and its flush. -/
structure Answers where
  mark : Bool
  markFlush : Bool
  data : ℕ → Bool
  dataFlush : Bool
  clean : Bool
  cleanFlush : Bool

/-- The device calls it makes, the volume afterwards, and what it returns. -/
def ext2Sync (fs : Fs) (ok : Answers) : List DeviceCall × Fs × ℤ :=
  match fs.dirtyBlocks with
  | none => ([], fs, 0)
  | some dirty =>
    let blocks := fs.blocksCount
    if ¬ ∃ n < (blocks + 7) / 8 * 8, dirty n then ([], fs, if fs.ioFailed then -1 else 0)
    else
      let fs₁ := fs.clearValid
      let mark := [fs₁.writeBlock fs.superBlock ok.mark]
      if ¬ ok.mark then (mark, fs₁.failed, -1)
      else
        let mark := mark ++ [.flush ok.markFlush]
        if ¬ ok.markFlush then (mark, fs₁.failed, -1)
        else
          let data := fs₁.writeDirty dirty ok.data (List.range blocks)
          if ¬ data.2 then (mark ++ data.1, fs₁.failed, -1)
          else
            let data := mark ++ data.1 ++ [.flush ok.dataFlush]
            if ¬ ok.dataFlush then (data, fs₁.failed, -1)
            else
              let fs₂ := fs₁.setValid
              let clean := data ++ [fs₂.writeBlock fs.superBlock ok.clean]
              if ¬ ok.clean then (clean, fs₂.failed, -1)
              else
                let clean := clean ++ [.flush ok.cleanFlush]
                if ¬ ok.cleanFlush then (clean, fs₂.failed, -1)
                else
                  (clean, { fs₂ with dirtyBlocks := some fun _ => false, ioFailed := false }, 0)

theorem ext2Sync_idle {fs : Fs} {dirty : ℕ → Bool} (hdirty : fs.dirtyBlocks = some dirty)
    (hnone : ¬ ∃ n < (fs.blocksCount + 7) / 8 * 8, dirty n) (ok : Answers) :
    ext2Sync fs ok = ([], fs, if fs.ioFailed then -1 else 0) := by
  simp only [ext2Sync,hdirty]
  rw [if_pos hnone]

end GaiaKernel.Ext2
