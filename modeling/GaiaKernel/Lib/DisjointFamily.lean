import Mathlib.Order.CompletePartialOrder
import Mathlib.Order.Interval.Set.Disjoint

/-! # Indexed families of disjoint sets

Rules for a table whose slots hold pairwise disjoint sets, when one slot is overwritten.
-/
namespace GaiaKernel.DisjointFamily
open Function Set
variable {ι α : Type*} [DecidableEq ι] {f : ι → Set α} {s : Set α} {i : ι}

theorem forall_update {β : Type*} {Q : β → Prop} {g : ι → β} {i : ι} {b : β} (hg : ∀ j, Q (g j))
    (hb : Q b) (j : ι) : Q (update g i b j) :=
  (forall_update_iff g fun _ => Q).mpr ⟨hb,fun j _ => hg j⟩ j

theorem pairwise_update (hf : Pairwise (onFun Disjoint f)) (hs : ∀ j, j ≠ i → Disjoint s (f j)) :
    Pairwise (onFun Disjoint (update f i s)) := by
  intro a b hab
  unfold onFun
  by_cases ha : a = i
  · subst ha
    rw [update_self,update_of_ne hab.symm]
    exact hs b hab.symm
  · by_cases hb : b = i
    · subst hb
      rw [update_self,update_of_ne ha]
      exact (hs a ha).symm
    · rw [update_of_ne ha,update_of_ne hb]
      exact hf hab

theorem iUnion_update_subset {t : Set α} (hf : ∀ j, j ≠ i → f j ⊆ t) (hs : s ⊆ t) :
    ⋃ j, update f i s j ⊆ t := by
  refine iUnion_subset fun j => ?_
  by_cases hj : j = i
  · subst hj; rwa [update_self]
  · rw [update_of_ne hj]; exact hf j hj

theorem iUnion_update_subset_union : ⋃ j, update f i s j ⊆ (⋃ j, f j) ∪ s :=
  iUnion_update_subset (fun j _ => (subset_iUnion f j).trans subset_union_left)
    subset_union_right

theorem iUnion_update_union : (⋃ j, update f i s j) ∪ f i = (⋃ j, f j) ∪ s := by
  refine Set.Subset.antisymm ?_ ?_
  · exact union_subset iUnion_update_subset_union
      ((subset_iUnion f i).trans subset_union_left)
  · refine union_subset ?_ ?_
    · have h := iUnion_update_subset_union (f := update f i s) (s := f i) (i := i)
      rwa [update_idem,update_eq_self] at h
    · refine subset_union_of_subset_left (subset_iUnion_of_subset i ?_) _
      rw [update_self]

theorem iUnion_update_sdiff {t : Set α} (hf : Pairwise (onFun Disjoint f)) (ht : t ⊆ f i) :
    ⋃ j, update f i (f i \ t) j = (⋃ j, f j) \ t := by
  ext a
  simp only [mem_iUnion,mem_sdiff]
  constructor
  · rintro ⟨j,ha⟩
    by_cases hj : j = i
    · subst hj
      rw [update_self] at ha
      exact ⟨⟨j,ha.1⟩,ha.2⟩
    · rw [update_of_ne hj] at ha
      exact ⟨⟨j,ha⟩,fun hc => disjoint_left.mp (hf hj) ha (ht hc)⟩
  · rintro ⟨⟨j,ha⟩,hat⟩
    refine ⟨j,?_⟩
    by_cases hj : j = i
    · subst hj
      rw [update_self]
      exact ⟨ha,hat⟩
    · rwa [update_of_ne hj]

end GaiaKernel.DisjointFamily
