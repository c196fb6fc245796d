import GaiaKernel.Loader.ImageSpec
import GaiaKernel.Memory.Enclosed
import GaiaKernel.Memory.Reach

/-! # The birth of an address space

`process_pml4_create` against the kernel's own tables, as they stand in memory. The new
space owns two tables; every frame that was allocated before is a stranger to it.
-/
namespace GaiaKernel
open Function
variable {kernelPml4 lowPd r t : U64} {ph ph' : Phys} {own : Owner}

def KernelTables.ofPml4 (ph : Phys) (kernelPml4 : U64) : KernelTables where
  upper := ph.mem kernelPml4
  low :=
    let e := ph.mem kernelPml4 0#9
    if has e vmmPresent then some (ph.mem (tableOf e) 0#9) else none

/-- The kernel's tables are allocated, and map the low gigabyte by the huge pages of the
directory `lowPd`. -/
structure KernelMap (ph : Phys) (kernelPml4 lowPd : U64) : Prop where
  frame : IsFrame kernelPml4
  taken : ∀ n t, Reach ph kernelPml4 n t → Taken ph.pmm t
  slot : has (ph.mem kernelPml4 0#9) vmmPresent = true
  entry : has (ph.mem (tableOf (ph.mem kernelPml4 0#9)) 0#9) vmmPresent = true
  noHuge : has (ph.mem (tableOf (ph.mem kernelPml4 0#9)) 0#9) vmmPs = false
  low : tableOf (ph.mem (tableOf (ph.mem kernelPml4 0#9)) 0#9) = lowPd
  huge : ∀ i, has (ph.mem lowPd i) vmmPresent = true ∧ has (ph.mem lowPd i) vmmPs = true

namespace KernelMap
variable (h : KernelMap ph kernelPml4 lowPd)
include h

theorem isFrame {n : ℕ} (hr : Reach ph kernelPml4 n t) : IsFrame t := by
  cases hr with
  | root => exact h.frame
  | down => exact isFrame_tableOf _

theorem reach_low : Reach ph kernelPml4 2 lowPd := by
  have h1 : Reach ph kernelPml4 1 _ := .down 0#9 .root (by omega) h.slot (Or.inl rfl)
  have h2 : Reach ph kernelPml4 2 _ := .down 0#9 h1 (by omega) h.entry (Or.inr h.noHuge)
  rw [h.low] at h2
  exact h2

theorem sharesLow : (KernelTables.ofPml4 ph kernelPml4).SharesLow lowPd :=
  ⟨_,if_pos h.slot,h.entry,h.noHuge,h.low⟩

theorem tables : Tables lowPd ph fun _ => none := by
  refine ⟨?_,?_,?_,?_,?_,?_,?_,h.taken 2 lowPd h.reach_low,h.isFrame h.reach_low,rfl,h.huge⟩
  all_goals intros; contradiction

end KernelMap

structure Born (lowPd : U64) (k : KernelTables) (ph : Phys) (r : U64) (ph' : Phys) (own : Owner) :
    Prop where
  tables : Tables lowPd ph' own
  root : own r = some (r, [])
  only : ∀ x, own x = some (x, []) → x = r
  link : LowLink lowPd ph' own r
  frames : ph'.pmm.bitmapFrames = ph.pmm.bitmapFrames
  foreign : ∀ g, Foreign ph' own g ↔ IsFrame g ∧ Taken ph.pmm g
  mem : ∀ g, Taken ph.pmm g → ph'.mem g = ph.mem g
  upper : ∀ i, 256 ≤ i.toNat → ph'.mem r i = k.upper i
  empty : ∀ q e, ¬ LeafAt ph' own r q e

/-- No allocated frame was touched and none came or went. -/
structure Undisturbed (ph ph' : Phys) : Prop where
  frames : ph'.pmm.bitmapFrames = ph.pmm.bitmapFrames
  taken : ∀ g, IsFrame g → (Taken ph'.pmm g ↔ Taken ph.pmm g)
  mem : ∀ g, Taken ph.pmm g → ph'.mem g = ph.mem g

theorem createTables_born {k : KernelTables} {a b e : U64} {ph1 ph2 : Phys}
    (h : Tables lowPd ph fun _ => none) (hfa : Fresh ph a ph1) (hfb : Fresh (ph1.zeroFrame a) b ph2)
    (he1 : has e vmmPresent = true) (he2 : has e vmmPs = false) (he3 : tableOf e = lowPd) :
    Born lowPd k ph a ((((ph2.copyUpper k a).zeroFrame b).write a 0#9 (linkEntry b vmmUser)).write b
      0#9 e) (newOwner (fun _ => none) a b) := by
  have hsafe : FrameSafe lowPd ph fun _ => none := by
    refine ⟨h,?_⟩
    rintro r q e ⟨_,_,_,_,_,ho,_⟩
    cases ho
  have hC := createTables_tables (k := k) hsafe hfa hfb he1 he2 he3
  have hab : a ≠ b := by
    rintro rfl
    exact hfb.not_taken hfa.taken_self
  have hown : ∀ g, newOwner (fun _ => none) a b g = none ↔ g ≠ a ∧ g ≠ b := by
    intro g
    unfold newOwner
    by_cases hgb : g = b
    · simp [hgb]
    · rw [update_of_ne hgb]
      by_cases hga : g = a
      · simp [hga]
      · simp [hga,hgb]
  have hne : ∀ {g}, Taken ph.pmm g → g ≠ a ∧ g ≠ b := by
    intro g hg
    exact ⟨fun hc => hfa.not_taken (hc ▸ hg),fun hc => hfb.not_taken (hfa.taken (hc ▸ hg))⟩
  refine ⟨hC,?_,fun x hx => ?_,⟨b,update_self b _ _,?_,?_⟩,
    hfb.frames.trans hfa.frames,fun g => ⟨?_,?_⟩,fun g hg => ?_,fun i hi => ?_,?_⟩
  · rw [newOwner,update_of_ne hab,update_self]
  · rcases newOwner_cases hx with ⟨hxa,_⟩ | ⟨_,hn⟩ | ⟨_,_,hn⟩
    · exact hxa
    · cases hn
    · cases hn
  · simp [Phys.write,he1]
  · simp [Phys.write,he3]
  · rintro ⟨h1,h2,h3⟩
    obtain ⟨hga,hgb⟩ := (hown g).mp h3
    exact ⟨h1,(hfa.taken_cases h1 ((hfb.taken_cases h1 h2).resolve_right hgb)).resolve_right hga⟩
  · rintro ⟨h1,h2⟩
    exact ⟨h1,hfb.taken (hfa.taken h2),(hown g).mpr (hne h2)⟩
  · obtain ⟨hga,hgb⟩ := hne hg
    simp [Phys.write,Phys.zeroFrame,Phys.copyUpper,hga,hgb,hfb.mem,hfa.mem]
  · have hi0 : i ≠ 0#9 := by
      rintro rfl
      simp at hi
    simp [Phys.write,Phys.zeroFrame,Phys.copyUpper,hab,hi0,hi]
  · rintro q e ⟨pt,i,p,_,hp,ho,_⟩
    rcases newOwner_cases ho with ⟨_,hn⟩ | ⟨_,hn⟩ | ⟨_,_,hn⟩
    · cases hn; simp at hp
    · cases hn; simp at hp
    · cases hn

theorem create_cases {k : KernelTables} (h : Tables lowPd ph fun _ => none)
    (hk : k.SharesLow lowPd) :
    (ph.processPml4Create k).1 = 0#64 ∧ Undisturbed ph (ph.processPml4Create k).2 ∨
      (ph.processPml4Create k).1 ≠ 0#64 ∧ ∃ own,
        Born lowPd k ph (ph.processPml4Create k).1 (ph.processPml4Create k).2 own := by
  obtain ⟨e,hke,he1,he2,he3⟩ := hk
  unfold Phys.processPml4Create
  rcases allocFrame_spec ph with ha | ⟨a,ph1,ha,hfa⟩
  · rw [ha]
    exact Or.inl ⟨rfl,rfl,fun _ _ => Iff.rfl,fun _ _ => rfl⟩
  rw [ha]
  rw [if_neg hfa.ne_zero]
  rcases allocFrame_spec (ph1.zeroFrame a) with hb | ⟨b,ph2,hb,hfb⟩
  · rw [hb]
    refine Or.inl ⟨rfl,?_,fun g hg => ?_,fun g hg => ?_⟩
    · exact (Pmm.bitmapFrames_pmmFreeFrame ..).trans hfa.frames
    · -- The root is given back, and nothing else was taken.
      rw [if_pos rfl,taken_freeFrame]
      constructor
      · rintro ⟨h1,h2⟩
        refine (hfa.taken_cases hg h1).resolve_right ?_
        rintro rfl
        exact h2 rfl
      · intro hgt
        refine ⟨hfa.taken hgt,fun hc => hfa.not_taken ?_⟩
        rw [← hg.ext hfa.frame hc]
        exact hgt
    · have hga : g ≠ a := by
        rintro rfl
        exact hfa.not_taken hg
      simp [Phys.freeFrame,Phys.zeroFrame,hga,hfa.mem]
  · have hab : a ≠ b := by
      rintro rfl
      exact hfb.not_taken hfa.taken_self
    rw [hb,if_neg hfb.ne_zero]
    simp only [hke]
    rw [createTables_eq ph2 hab]
    exact Or.inr ⟨hfa.ne_zero,_,createTables_born h hfa hfb he1 he2 he3⟩

end GaiaKernel
