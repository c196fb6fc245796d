import GaiaKernel.Ext2.DirectorySpec
import GaiaKernel.Ext2.Mount

/-! # The part of the image that is in memory

On a device mount a page of the image is read in when it is first needed, and stays.
-/
namespace GaiaKernel.Ext2
open Bytes List

def NodeInImage (v : Volume) (n : Node) : Prop := n.disk + v.inodeSize ≤ v.imageSize

theorem blockSize_ge (v : Volume) : 1024 ≤ v.blockSize := by
  have hpos : 0 < 2 ^ v.logBlockSize.val := Nat.two_pow_pos _
  unfold Fs.blockSize
  omega

def Volume.Loaded (v : Volume) (i : ℕ) : Prop :=
  ∀ lz, v.lazy = some lz → lz.loaded (i / ext2Page) = true

/-- Pages may have been read in; what was in memory has not changed. -/
structure Loads (v v' : Volume) : Prop where
  fields : v'.imageSize = v.imageSize
  bytes : ∀ i, v.Loaded i → v'.image i = v.image i
  loaded : ∀ i, v.Loaded i → v'.Loaded i

theorem Loads.refl (v : Volume) : Loads v v := ⟨rfl,fun _ _ => rfl,fun _ h => h⟩

theorem Loads.trans {v v' v'' : Volume} (h : Loads v v') (h' : Loads v' v'') : Loads v v'' :=
  ⟨h'.fields.trans h.fields,fun i hi => (h'.bytes i (h.loaded i hi)).trans (h.bytes i hi),
    fun i hi => h'.loaded i (h.loaded i hi)⟩

namespace Session

/-- Nine blocks of 1024 bytes: superblock, group descriptor, bitmaps in blocks 3 and 4, inode table
in 5 and 6, root directory in 7, and the file `f`, inode 12, whose first block is the given one. -/
def smallImage (fileBlock : ℕ) : ℕ → Byte :=
  let fields : List (ℕ × List Byte) :=
    [(1024, leFields 4 [16, 9, 0, 0, 0, 1, 0, 0, 8192, 8192, 16]), (1080, leFields 2 [0xEF53, 1]),
      (2048, leFields 4 [3, 4, 5]),
      (5248, leFields 4 [0x41ED, 1024]), (5288, leBytes 4 7),
      (6528, leFields 4 [0x81A4, 1024]), (6568, leBytes 4 fileBlock),
      (7168, leBytes 4 2 ++ leBytes 2 12 ++ [1#8, 2#8, 0x2E#8]),
      (7180, leBytes 4 2 ++ leBytes 2 12 ++ [2#8, 2#8, 0x2E#8, 0x2E#8]),
      (7192, leBytes 4 12 ++ leBytes 2 1000 ++ [1#8, 1#8, 0x66#8])]
  fields.foldl (fun data f => blit data f.1 f.2) fun _ => 0#8

def willing : Answers := ⟨true,true,fun _ => true,true,true,true⟩

end Session

end GaiaKernel.Ext2
