import GaiaKernel.Fat.Disk
import GaiaKernel.Fat.RecordSpec

/-! # What the primitives of a volume change

Flushes leave the image alone, and stores change no more of it than their range.
-/
namespace GaiaKernel.Fat
open Bytes
namespace Disk
variable {v : Volume}

/-! ## Stores -/

variable (s : Disk)

@[simp] theorem image_flushSectors (lbas : List ℕ) :
    (lbas.foldl (flushSector v) s).image = s.image ∧
      (lbas.foldl (flushSector v) s).clock = s.clock := by
  induction lbas generalizing s with
  | nil => exact ⟨rfl,rfl⟩
  | cons lba lbas ih => exact ih (s.flushSector v lba)

@[simp] theorem image_flushBytes (start len : ℕ) : (s.flushBytes v start len).image = s.image := by
  unfold flushBytes
  split_ifs
  · rfl
  · exact (image_flushSectors s _).1
  · exact (image_flushSectors s _).1

@[simp] theorem record_flushBytes (start len off : ℕ) :
    (s.flushBytes v start len).record off = s.record off := by
  unfold record
  rw [image_flushBytes]

theorem record_setRecord (off : ℕ) (entry : Slot) {i : ℕ} (hi : i < 32) :
    (s.setRecord off entry).record off i = entry i := by
  have hlen : i < (slice entry 0 32).length := by simpa using hi
  have h : blit s.image off (slice entry 0 32) (off + i) = (slice entry 0 32)[i] := blit_of_mem hlen
  refine h.trans ?_
  simp [slice]

theorem record_touch (off : ℕ) {i : ℕ} (hi : i < 13 ∨ i = 20 ∨ i = 21 ∨ 26 ≤ i)
    (h32 : i < 32) : (s.touch off).record off i = s.record off i :=
  (record_setRecord s off _ h32).trans (setTimestamp_of _ _ hi)

end Disk

end GaiaKernel.Fat
