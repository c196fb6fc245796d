import GaiaKernel.Memory.PmmContract
import GaiaKernel.Memory.SharePages

/-! # Frames that are left

As long as the allocator has three frames left, `vmm_map_in` finds what it needs for the tables of a
page outside the identity map.
-/
namespace GaiaKernel
open BitVec

/-- The frames that `pmm_alloc_frame` can still hand out. -/
def Pmm.spare (p : Pmm) : Finset ℕ :=
  (Finset.Ico pmmGeneralFirst p.bitmapFrames).filter fun f => p.bitmapTest f = false

theorem Pmm.pmmAllocFrame_ne_zero {p : Pmm} (h : 0 < p.spare.card) : p.pmmAllocFrame.1 ≠ 0#64 := by
  obtain ⟨f,hf⟩ := Finset.card_pos.mp h
  rw [spare,Finset.mem_filter,Finset.mem_Ico] at hf
  rcases p.pmmAllocFrame_serves with ⟨-,hnone⟩ | ⟨s,haddr,-,-,hlow,hhigh,-⟩
  · refine absurd ⟨Nat.one_pos,hf.1.1,hf.1.2,fun g h1 h2 => ?_⟩ (hnone f)
    obtain rfl : g = f := by omega
    exact hf.2
  · rw [haddr]
    intro hzero
    have hnat := congrArg BitVec.toNat hzero
    rw [toNat_frameAddress (p := p) (by omega)] at hnat
    have hpos : 256 ≤ s := hlow
    simp at hnat
    omega

variable {lowPd r t va : U64} {ph ph' : Phys} {own : Owner}

theorem Fresh.spare {f : U64} (h : Fresh ph f ph') :
    ph.pmm.spare.card ≤ ph'.pmm.spare.card + 1 := by
  refine le_trans (Finset.card_le_card fun g hg => ?_) (Finset.card_insert_le (f.toNat / 4096) _)
  rw [Pmm.spare,Finset.mem_filter] at hg
  rw [Finset.mem_insert,Pmm.spare,Finset.mem_filter,h.frames,h.test,hg.2]
  by_cases hgf : g = f.toNat / 4096
  · exact .inl hgf
  · exact .inr ⟨hg.1,by simp [hgf]⟩

section
variable (h : Tables lowPd ph own)
include h

theorem walkLevel_spare {p : Path} (ho : own t = some (r, p)) (hp : p.length < 3)
    {i : BitVec 9} (hi : p = [] → i.toNat < 256) (huge : Bool) (flags : U64)
    (hspare : 0 < ph.pmm.spare.card) : (ph.walkLevel huge t i flags).1 ≠ none ∧
      ph.pmm.spare.card ≤ (ph.walkLevel huge t i flags).2.pmm.spare.card + 1 := by
  unfold Phys.walkLevel
  by_cases hpres : has (ph.mem t i) vmmPresent = true
  · have hps := (h.table ho hp hi hpres).1
    rw [if_pos hpres,if_neg (by simp [hps])]
    dsimp only
    refine ⟨by simp,?_⟩
    split
    · exact Nat.le_succ _
    · exact Nat.le_succ _
  · rw [if_neg hpres]
    rcases allocFrame_spec ph with ha | ⟨f,ph',ha,hf⟩
    · exact absurd (congrArg Prod.fst ha) (Pmm.pmmAllocFrame_ne_zero hspare)
    · rw [ha,if_neg hf.ne_zero]
      exact ⟨by simp,hf.spare⟩

variable (hr : own r = some (r, [])) (hva : LowerHalf va) (hhigh : ¬ InLowGiB va)
  (hspare : 3 ≤ ph.pmm.spare.card)
include hr hva hhigh hspare

theorem walkOrCreate_spare (flags : U64) : (ph.walkOrCreate r va flags).1 ≠ none ∧
    ph.pmm.spare.card ≤ (ph.walkOrCreate r va flags).2.pmm.spare.card + 3 := by
  unfold Phys.walkOrCreate
  obtain ⟨hs1,hc1⟩ := walkLevel_spare h hr (by simp) (fun _ => hva.pml4Index) false flags (by omega)
  rcases walkLevel_walked h hr (by simp) (fun _ => hva.pml4Index) false flags with
    h1 | ⟨pdpt,ph1,own1,h1,hw1,hn1,-,-⟩
  · rw [h1] at hs1; exact absurd rfl hs1
  rw [h1] at hc1
  simp only [h1]
  dsimp only at hc1
  have ho1 : own1 pdpt = some (r, [pml4Index va]) := by
    rcases hn1 with hn | ⟨_,hn,_⟩
    · exact hn
    · cases hn
  obtain ⟨hs2,hc2⟩ := walkLevel_spare (i := pdptIndex va) hw1.tables ho1 (by simp)
    (fun hc => by cases hc) true flags (by omega)
  rcases walkLevel_walked (i := pdptIndex va) hw1.tables ho1 (by simp) (fun hc => by cases hc) true
    flags with h2 | ⟨pd,ph2,own2,h2,hw2,hn2,-,-⟩
  · rw [h2] at hs2; exact absurd rfl hs2
  rw [h2] at hc2
  simp only [h2]
  dsimp only at hc2
  have ho2 := hn2.resolve_right fun hc => hhigh ⟨List.singleton_inj.mp hc.2.1,hc.2.2⟩
  obtain ⟨hs3,hc3⟩ := walkLevel_spare (i := pdIndex va) hw2.tables ho2 (by simp)
    (fun hc => by cases hc) true flags (by omega)
  exact ⟨hs3,by omega⟩

theorem vmmMapIn_spare {phys : U64} (hphys : has phys 0xFFFF800000000000#64 = false) (flags : U64) :
    (ph.vmmMapIn r va phys flags).1 = true ∧
      ph.pmm.spare.card ≤ (ph.vmmMapIn r va phys flags).2.pmm.spare.card + 3 := by
  obtain ⟨hs,hc⟩ := walkOrCreate_spare h hr hva hhigh hspare flags
  unfold Phys.vmmMapIn
  rw [if_neg (by simp [hphys])]
  generalize ph.walkOrCreate r va flags = w at hs hc
  obtain ⟨_ | pt,ph1⟩ := w
  · exact absurd rfl hs
  · exact ⟨rfl,hc⟩

end

end GaiaKernel
