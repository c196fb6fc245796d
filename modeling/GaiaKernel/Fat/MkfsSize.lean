import GaiaKernel.Fat.Volume
import GaiaKernel.Lib.Settle

/-! # How large mkfs makes its tables

The search of bin/mkfs/mkfs.c for the number of sectors in a table. It settles on one number, or
does not end: `fatSize_settles` and `fatSize_restless` say for which sizes of the device.
-/
namespace GaiaKernel.Mkfs
open Fat
open Settles (here step)

def sectorBytes : ℕ := 512
def reserved : ℕ := 32
def fats : ℕ := 2
def u64 (n : ℕ) : ℕ := n % 2 ^ 64
def sub64 (a b : ℕ) : ℕ := u64 (a + 2 ^ 64 - b)
def clusters (total fat : ℕ) : ℕ := sub64 (sub64 total reserved) (u32 (fats * fat))

def need (total fat : ℕ) : ℕ :=
  u32 (u64 ((clusters total fat + 2) * 4 + sectorBytes - 1) / sectorBytes)

/-- The search for the size of the tables, `fuel` rounds of it at most. -/
def fatSize (fuel total : ℕ) : Option ℕ := settle (need total) fuel 1

variable {total fat : ℕ}

def InRange (total : ℕ) : Prop := total ≤ 0xFFFFFFFF ∧ 65525 + reserved ≤ total
def Fits (total fat : ℕ) : Prop := 2 * fat + 30 ≤ total

variable (h : InRange total)
include h

theorem need_eq (hfat : Fits total fat) : need total fat = (total - 30 - 2 * fat + 127) / 128 := by
  obtain ⟨hmax,_⟩ := h
  unfold Fits at hfat
  have hu : u32 (fats * fat) = 2 * fat := u32_of_lt (by unfold fats; omega)
  unfold need clusters
  rw [hu]
  simp only [sub64,u64,u32,reserved,sectorBytes]
  omega

theorem Fits.need (hfat : Fits total fat) : Fits total (need total fat) := by
  rw [Fits,need_eq h hfat]
  have := h.2
  omega

theorem fits_one : Fits total 1 := by
  have := h.2
  unfold Fits
  omega

omit h in
/-- Sizes for which no table has the number of sectors that it needs. -/
def Restless (total : ℕ) : Prop := (total - 30) % 130 = 1 ∨ (total - 30) % 130 = 2

omit h in
instance (total : ℕ) : Decidable (Restless total) := inferInstanceAs (Decidable (_ ∨ _))

omit h in
/-- The size of the tables where there is one: each of its sectors has 128 entries, two sectors of
tables take the place of two clusters. -/
def tableSectors (total : ℕ) : ℕ := (total - 30 + 129) / 130

theorem need_fixed_iff (hfat : Fits total fat) :
    need total fat = fat ↔ ¬ Restless total ∧ fat = tableSectors total := by
  rw [need_eq h hfat]
  unfold Restless tableSectors
  omega

theorem fatSize_restless (hr : Restless total) (fuel : ℕ) : fatSize fuel total = none :=
  settle_eq_none (P := Fits total) (fun _ => Fits.need h)
    (fun _ hfat hfix => ((need_fixed_iff h hfat).mp hfix).1 hr) (fits_one h) fuel

theorem fatSize_eq {fuel : ℕ} (hfat : fatSize fuel total = some fat) :
    ¬ Restless total ∧ fat = tableSectors total := by
  obtain ⟨hfits,hfix⟩ := settle_spec (P := Fits total) (fun _ => Fits.need h) (fits_one h) hfat
  exact (need_fixed_iff h hfits).mp hfix

/-- Within one of the size the search is over in three rounds, from further away each round brings
it nearer. -/
theorem fatSize_settles (hr : ¬ Restless total) :
    ∃ fuel, fatSize fuel total = some (tableSectors total) := by
  have hmin := h.2
  simp only [reserved] at hmin
  have hq : tableSectors total * 130 < total + 100 ∧ total - 30 ≤ tableSectors total * 130 ∧
      (total - 30 = tableSectors total * 130 ∨ tableSectors total * 130 ≤ total - 30 + 127) := by
    unfold Restless at hr
    unfold tableSectors
    omega
  have hfits : Fits total (tableSectors total) := by unfold Fits; omega
  have hfix : need total (tableSectors total) = tableSectors total :=
    (need_fixed_iff h hfits).mpr ⟨hr,rfl⟩
  generalize tableSectors total = q at *
  have hhere : Settles (need total) q q := here hfix
  refine Settles.descend (P := Fits total) (fun fat => (fat - q) + (q - fat)) 1 ?_ ?_ (fits_one h)
  · intro fat hfat hnear
    -- The steps from both sides; not both of them can go too far.
    have habove := need_eq h (show Fits total (q + 1) by unfold Fits; omega)
    have hbelow := need_eq h (show Fits total (q - 1) by unfold Fits; omega)
    obtain rfl | rfl | rfl : fat = q ∨ fat = q + 1 ∨ fat = q - 1 := by omega
    · exact hhere
    · obtain hq' | ⟨hq',hback⟩ : need total (q + 1) = q ∨
          need total (q + 1) = q - 1 ∧ need total (q - 1) = q := by omega
      · exact step (hq'.symm ▸ hhere)
      · exact step (hq'.symm ▸ step (hback.symm ▸ hhere))
    · obtain hq' | ⟨hq',hback⟩ : need total (q - 1) = q ∨
          need total (q - 1) = q + 1 ∧ need total (q + 1) = q := by omega
      · exact step (hq'.symm ▸ hhere)
      · exact step (hq'.symm ▸ step (hback.symm ▸ hhere))
  · intro fat hfat hfar
    refine ⟨hfat.need h,?_⟩
    rw [need_eq h hfat]
    unfold Fits at hfat
    omega

/-- For every size that mkfs accepts, the search ends exactly if it is not restless. -/
theorem search_ends_iff :
    (∃ fuel fat, fatSize fuel total = some fat) ↔ ¬ Restless total := by
  constructor
  · rintro ⟨fuel,fat,hfat⟩
    exact (fatSize_eq h hfat).1
  · intro hr
    obtain ⟨fuel,hfat⟩ := fatSize_settles h hr
    exact ⟨fuel,_,hfat⟩

omit h

theorem search_ends_70000 : InRange 70000 ∧ ∃ fuel fat, fatSize fuel 70000 = some fat := by
  have hrange : InRange 70000 := ⟨by decide,by decide⟩
  exact ⟨hrange,(search_ends_iff hrange).mpr (by decide)⟩

/-- On a device of 64 MiB the size goes back and forth between 1008 and 1009 for ever. -/
theorem search_never_ends : InRange 131072 ∧ ∀ fuel, fatSize fuel 131072 = none := by
  have hrange : InRange 131072 := ⟨by decide,by decide⟩
  exact ⟨hrange,fatSize_restless hrange (by decide)⟩

end GaiaKernel.Mkfs
