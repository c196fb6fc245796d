import GaiaKernel.Memory.Placement

/-! # Removing a range from the record table

`vma_remove_range` either cuts the one record that reaches beyond the range on both sides, or
trims every record on its own. In both cases an address outside the range keeps its reservation
and one inside loses it.
-/
namespace GaiaKernel
open Function

structure RecordsApart (vmas : Fin maxUserVmas → UserVma) : Prop where
  lt : ∀ i, (vmas i).used = true → (vmas i).start.toNat < (vmas i).stop.toNat
  apart : ∀ i j, i ≠ j → (vmas i).used = true → (vmas j).used = true →
    (vmas i).stop.toNat ≤ (vmas j).start.toNat ∨ (vmas j).stop.toNat ≤ (vmas i).start.toNat

theorem ReservationsOk.apart {vmas : Fin maxUserVmas → UserVma} (h : ReservationsOk vmas) :
    RecordsApart vmas where
  lt i hi := (h.wellFormed i hi).2.2.1
  apart i j hij hi hj := by
    have hlt := (h.wellFormed i hi).2.2.1
    have hlt' := (h.wellFormed j hj).2.2.1
    have hd := Set.disjoint_left.mp (h.disjoint hij)
    by_contra hc
    -- The larger of the two starts would lie in both records.
    refine hd (a := max (vmas i).start.toNat (vmas j).start.toNat) ⟨hi,?_,?_⟩ ⟨hj,?_,?_⟩
      <;> omega

namespace TaskVm
variable {start stop g : U64} {v : UserVma} {vmas : Fin maxUserVmas → UserVma}
  {i : Fin maxUserVmas} {a : ℕ} {vm vm' : TaskVm}

def Covers (vmas : Fin maxUserVmas → UserVma) (a : ℕ) (g : U64) : Prop :=
  ∃ i, a ∈ (vmas i).region ∧ (vmas i).pteFlags = g

/-- What the removal leaves of a record that does not span the range. -/
def trim (start stop : U64) (v : UserVma) : UserVma :=
  if !v.used ∨ start ≥ v.stop ∨ stop ≤ v.start then v
  else if start ≤ v.start ∧ stop ≥ v.stop then UserVma.empty
  else if start ≤ v.start then { v with start := stop }
  else { v with stop := start }

theorem spans_iff : spans v start stop = true ↔
    v.used = true ∧ v.start.toNat < start.toNat ∧ stop.toNat < v.stop.toNat := by
  simp [spans,BitVec.lt_def,and_assoc]

theorem vmaRemoveStep_trim (split : Option (Fin maxUserVmas))
    (hn : spans (vmas i) start stop = false) :
    vmaRemoveStep start stop split vmas i = update vmas i (trim start stop (vmas i)) := by
  unfold vmaRemoveStep trim
  dsimp only
  split_ifs with h1 h2 h3 h4
  · exact (update_eq_self i vmas).symm
  · rfl
  · rfl
  · rfl
  · simp only [Bool.not_eq_true',not_or,Bool.not_eq_false] at h1
    have hspan := spans_iff.mpr ⟨h1.1,BitVec.not_le.mp h3,BitVec.not_le.mp h4⟩
    rw [hspan] at hn
    cases hn

theorem trim_spec (hn : spans v start stop = false) : (∀ a, a ∈ (trim start stop v).region ↔
      a ∈ v.region ∧ ¬ (start.toNat ≤ a ∧ a < stop.toNat)) ∧
    ((trim start stop v).used = true → (trim start stop v).pteFlags = v.pteFlags) := by
  unfold trim UserVma.region
  cases hu : v.used with
  | false => simp [hu]
  | true =>
    rw [← Bool.not_eq_true,spans_iff,hu,eq_self,true_and] at hn
    simp only [ge_iff_le,BitVec.le_def,Bool.not_true,Bool.false_eq_true,false_or,
      Set.mem_ofPred_eq,true_and]
    split_ifs with h1 h2 h3
    · refine ⟨fun a => ?_,fun _ => rfl⟩
      simp only [hu,true_and]
      omega
    · refine ⟨fun a => ?_,fun h => by cases h⟩
      simp only [UserVma.empty,Bool.false_eq_true,false_and,false_iff]
      omega
    · exact ⟨fun a => by simp only [true_and]; omega,fun _ => rfl⟩
    · exact ⟨fun a => by simp only [true_and]; omega,fun _ => rfl⟩

theorem wellFormed_right (hta : PageAligned stop) (hw : v.WellFormed)
    (hlt : stop.toNat < v.stop.toNat) : UserVma.WellFormed { v with start := stop } := by
  intro hu
  obtain ⟨_,hstop,_,hmax⟩ := hw hu
  exact ⟨hta,hstop,hlt,hmax⟩

theorem wellFormed_left (hsa : PageAligned start) (hw : v.WellFormed)
    (hlt : v.start.toNat < start.toNat) (hle : start.toNat ≤ v.stop.toNat) :
    UserVma.WellFormed { v with stop := start } := by
  intro hu
  obtain ⟨hstart,_,_,hmax⟩ := hw hu
  exact ⟨hstart,hsa,hlt,hle.trans hmax⟩

theorem trim_wellFormed (hsa : PageAligned start) (hta : PageAligned stop)
    (hw : v.WellFormed) : (trim start stop v).WellFormed := by
  unfold trim
  split_ifs with h1 h2 h3
  · exact hw
  · exact UserVma.wellFormed_empty
  · exact wellFormed_right hta hw (BitVec.not_le.mp fun hc => h2 ⟨h3,hc⟩)
  · simp only [not_or,ge_iff_le,BitVec.not_le] at h1 h3
    exact wellFormed_left hsa hw h3 (le_of_lt h1.2.1)

/-- Record `i` cut around the range, its right-hand part in slot `k`. -/
def cut (start stop : U64) (vmas : Fin maxUserVmas → UserVma) (i k : Fin maxUserVmas) :
    Fin maxUserVmas → UserVma :=
  update (update vmas k { vmas i with start := stop }) i { vmas i with stop := start }

theorem cut_cases (start stop : U64) (vmas : Fin maxUserVmas → UserVma) (i k j : Fin maxUserVmas) :
    (j = i ∧ cut start stop vmas i k j = { vmas i with stop := start }) ∨
      (j ≠ i ∧ j = k ∧ cut start stop vmas i k j = { vmas i with start := stop }) ∨
      j ≠ i ∧ j ≠ k ∧ cut start stop vmas i k j = vmas j := by
  unfold cut
  by_cases hj : j = i
  · rw [hj,update_self]
    exact .inl ⟨rfl,rfl⟩
  by_cases hjk : j = k
  · rw [update_of_ne hj,hjk,update_self]
    exact .inr (.inl ⟨hjk ▸ hj,rfl,rfl⟩)
  · rw [update_of_ne hj,update_of_ne hjk]
    exact .inr (.inr ⟨hj,hjk,rfl⟩)

theorem vmaRemoveStep_skip (split : Option (Fin maxUserVmas)) (h : (vmas i).used = true →
      (vmas i).stop.toNat ≤ start.toNat ∨ stop.toNat ≤ (vmas i).start.toNat) :
    vmaRemoveStep start stop split vmas i = vmas := by
  refine if_pos ?_
  cases hu : (vmas i).used with
  | false => exact .inl rfl
  | true => exact .inr (h hu)

section
variable (h : RecordsApart vmas) (hs : start.toNat < stop.toNat) {k : Fin maxUserVmas}
  (hi : spans (vmas i) start stop = true) (hk : (vmas k).used = false)
include h hi

theorem misses_of_spans {j : Fin maxUserVmas} (hj : j ≠ i) (hu : (vmas j).used = true) :
    (vmas j).stop.toNat ≤ start.toNat ∨ stop.toNat ≤ (vmas j).start.toNat := by
  obtain ⟨hui,hlo,hhi⟩ := spans_iff.mp hi
  have := h.apart i j hj.symm hui hu
  omega

include hs

theorem foldl_vmaRemoveStep_cut :
    vmaSlots.foldl (vmaRemoveStep start stop (some k)) vmas = cut start stop vmas i k := by
  have hcut : ∀ j, vmaRemoveStep start stop (some k) (cut start stop vmas i k) j =
      cut start stop vmas i k := by
    intro j
    refine vmaRemoveStep_skip _ fun huj => ?_
    rcases cut_cases start stop vmas i k j with ⟨_,hc⟩ | ⟨_,_,hc⟩ | ⟨hj,_,hc⟩
    · exact .inl (hc ▸ le_rfl)
    · exact .inr (hc ▸ le_rfl)
    · rw [hc] at huj ⊢
      exact misses_of_spans h hi hj huj
  have hfirst : vmaRemoveStep start stop (some k) vmas i = cut start stop vmas i k := by
    obtain ⟨hu,hlo,hhi⟩ := spans_iff.mp hi
    simp only [vmaRemoveStep,cut,hu,ge_iff_le,BitVec.le_def,Bool.not_true,Bool.false_eq_true,
      false_or]
    rw [if_neg (by omega),if_neg (by omega),if_neg (by omega),if_neg (by omega)]
  refine Trace.foldl_establishes (I := fun b => b = vmas ∨ b = cut start stop vmas i k)
    (Q := fun b j => j = i → b = cut start stop vmas i k) ?_ ?_ ?_ (.inl rfl) vmaSlots i
    (.inr (mem_vmaSlots i)) rfl
  · rintro b j (rfl | rfl)
    · by_cases hj : j = i
      · exact .inr (hj ▸ hfirst)
      · exact .inl (vmaRemoveStep_skip _ (misses_of_spans h hi hj))
    · exact .inr (hcut j)
  · rintro b j (rfl | rfl) rfl
    · exact hfirst
    · exact hcut j
  · rintro b j j' _ hb hj'
    rw [hb hj']
    exact hcut j

include hk

theorem covers_cut (a : ℕ) (g : U64) : Covers (cut start stop vmas i k) a g ↔
    Covers vmas a g ∧ ¬ (start.toNat ≤ a ∧ a < stop.toNat) := by
  obtain ⟨hu,hlo,hhi⟩ := spans_iff.mp hi
  constructor
  · rintro ⟨j,hj,rfl⟩
    rcases cut_cases start stop vmas i k j with ⟨_,hc⟩ | ⟨_,_,hc⟩ | ⟨hji,_,hc⟩
    · rw [hc] at hj ⊢
      obtain ⟨_,h1,h2⟩ := hj
      dsimp only at h1 h2
      exact ⟨⟨i,⟨hu,h1,by omega⟩,rfl⟩,by omega⟩
    · rw [hc] at hj ⊢
      obtain ⟨_,h1,h2⟩ := hj
      dsimp only at h1 h2
      exact ⟨⟨i,⟨hu,by omega,h2⟩,rfl⟩,by omega⟩
    · rw [hc] at hj ⊢
      have hmiss := misses_of_spans h hi hji hj.1
      have hin := hj.2
      exact ⟨⟨j,hj,rfl⟩,by omega⟩
  · rintro ⟨⟨j,hj,rfl⟩,ha⟩
    have hjk : j ≠ k := by
      rintro rfl
      rw [hj.1] at hk
      cases hk
    by_cases hji : j = i
    · subst hji
      -- left or right of the range
      by_cases hleft : a < start.toNat
      · refine ⟨j,?_⟩
        rw [cut,update_self]
        exact ⟨⟨hu,hj.2.1,hleft⟩,rfl⟩
      · refine ⟨k,?_⟩
        rw [cut,update_of_ne hjk.symm,update_self]
        exact ⟨⟨hu,by dsimp only; omega,hj.2.2⟩,rfl⟩
    · refine ⟨j,?_⟩
      rw [cut,update_of_ne hji,update_of_ne hjk]
      exact ⟨hj,rfl⟩

end

section
variable (h : RecordsApart vm.vmas) (hs : start.toNat < stop.toNat)
  (hrem : vm.vmaRemoveRange start stop = some vm')
include h hs hrem

theorem vmaRemoveRange_cases : (∀ i, spans (vm.vmas i) start stop = false) ∧
        vm' = { vm with vmas := fun i => trim start stop (vm.vmas i) } ∨
      ∃ i k, spans (vm.vmas i) start stop = true ∧ (vm.vmas k).used = false ∧
        vm' = { vm with vmas := cut start stop vm.vmas i k } := by
  unfold vmaRemoveRange at hrem
  dsimp only at hrem
  cases hany : vmaSlots.any fun i => spans (vm.vmas i) start stop with
  | false =>
    have hn : ∀ i, spans (vm.vmas i) start stop = false := fun i => by
      simpa using List.any_eq_false.mp hany i (mem_vmaSlots i)
    have hfold : vmaSlots.foldl (vmaRemoveStep start stop none) vm.vmas =
        fun i => trim start stop (vm.vmas i) := by
      funext i
      refine (Trace.foldl_update (f := trim start stop) (List.nodup_finRange _) ?_ i).trans
        (if_pos (mem_vmaSlots i))
      intro c j _ hc
      rw [vmaRemoveStep_trim _ (hc ▸ hn j),hc]
    rw [hany,if_neg (by simp),if_neg (by simp),hfold] at hrem
    exact .inl ⟨hn,(Option.some.inj hrem).symm⟩
  | true =>
    obtain ⟨i,_,hi⟩ := List.any_eq_true.mp hany
    rw [hany,if_pos rfl] at hrem
    cases hk : vm.vmaFreeSlot with
    | none => simp [hk] at hrem
    | some k =>
      rw [hk] at hrem
      have hunused := vm.vmaFreeSlot_unused hk
      refine .inr ⟨i,k,hi,hunused,(Option.some.inj hrem).symm.trans ?_⟩
      rw [foldl_vmaRemoveStep_cut h hs hi]

theorem vmaRemoveRange_covers (a : ℕ) (g : U64) :
    Covers vm'.vmas a g ↔ Covers vm.vmas a g ∧ ¬ (start.toNat ≤ a ∧ a < stop.toNat) := by
  rcases vmaRemoveRange_cases h hs hrem with ⟨hn,rfl⟩ | ⟨i,k,hi,hk,rfl⟩
  · constructor
    · rintro ⟨j,hj,rfl⟩
      obtain ⟨hmem,hflags⟩ := trim_spec (hn j)
      exact ⟨⟨j,((hmem a).mp hj).1,(hflags hj.1).symm⟩,((hmem a).mp hj).2⟩
    · rintro ⟨⟨j,hj,rfl⟩,ha⟩
      obtain ⟨hmem,hflags⟩ := trim_spec (hn j)
      have hj' := (hmem a).mpr ⟨hj,ha⟩
      exact ⟨j,hj',hflags hj'.1⟩
  · exact covers_cut h hs hi hk a g

end

/-- Removing a range keeps the table well formed, reserves nothing new and leaves no part of
the range reserved; the free list and the bump pointer stay as they are. -/
theorem vmaRemoveRange_spec (hvm : ReservationsOk vm.vmas) (hs : start.toNat < stop.toNat)
    (hsa : PageAligned start) (hta : PageAligned stop)
    (hrem : vm.vmaRemoveRange start stop = some vm') : ReservationsOk vm'.vmas ∧
      reserved vm'.vmas ⊆ reserved vm.vmas \ Set.Ico start.toNat stop.toNat ∧
      vm' = { vm with vmas := vm'.vmas } := by
  refine ⟨?_,?_,?_⟩
  · rcases vmaRemoveRange_cases hvm.apart hs hrem with ⟨hn,rfl⟩ | ⟨i,k,hi,hk,rfl⟩
    · refine ⟨fun j => trim_wellFormed hsa hta (hvm.wellFormed j),fun j j' hj => ?_⟩
      exact (hvm.disjoint hj).mono (fun a ha => ((trim_spec (hn j)).1 a |>.mp ha).1)
        fun a ha => ((trim_spec (hn j')).1 a |>.mp ha).1
    · obtain ⟨hu,hlo,hhi⟩ := spans_iff.mp hi
      have hki : k ≠ i := by
        rintro rfl
        rw [hu] at hk
        cases hk
      rw [cut,update_comm hki]
      refine (hvm.shrink (wellFormed_left hsa (hvm.wellFormed i) hlo (by omega)) ?_).update
        (wellFormed_right hta (hvm.wellFormed i) hhi) fun j hj => Set.disjoint_left.mpr ?_
      · rintro a ⟨hu,h1,h2⟩
        exact ⟨hu,h1,by dsimp only at h2; omega⟩
      · rintro a ⟨_,h1,h2⟩ hb
        dsimp only at h1 h2
        rw [update_apply] at hb
        split_ifs at hb with hji
        · subst hji
          exact absurd hb.2.2 (by dsimp only; omega)
        · have hin := hb.2
          have hapart := hvm.apart.apart i j (Ne.symm hji) hu hb.1
          omega
  · intro a ha
    obtain ⟨j,hj⟩ := Set.mem_iUnion.mp ha
    obtain ⟨⟨i,hi,_⟩,hout⟩ := (vmaRemoveRange_covers hvm.apart hs hrem a _).mp ⟨j,hj,rfl⟩
    exact ⟨Set.mem_iUnion.mpr ⟨i,hi⟩,hout⟩
  · rcases vmaRemoveRange_cases hvm.apart hs hrem with ⟨_,rfl⟩ | ⟨_,_,_,_,rfl⟩
    · rfl
    · rfl

end TaskVm

end GaiaKernel
