import GaiaKernel.Memory.Placement

/-! # Recording a reserved range

The last part of `uvm_reserve` grows the neighbours of the new range or fills a free slot;
each of the four outcomes reserves the range and nothing else.
-/
namespace GaiaKernel
open DisjointFamily Function Set
open UserVma (region empty)
namespace TaskVm
variable {base bytes : U64} {vmas : Fin maxUserVmas → UserVma} {i : Fin maxUserVmas}

theorem lastVma_some {vm : TaskVm} {flags : U64} {p : UserVma → Bool} {i : Fin maxUserVmas}
    (h : vm.lastVma flags p = some i) :
    (vm.vmas i).used = true ∧ (vm.vmas i).pteFlags = flags ∧ p (vm.vmas i) = true := by
  have := List.find?_some h
  simpa [and_assoc] using this

/-- A range about to be recorded: page aligned, not empty, without wrap, and clear of every
record. -/
structure Recordable (vmas : Fin maxUserVmas → UserVma) (base bytes : U64) : Prop where
  baseAligned : PageAligned base
  bytesAligned : PageAligned bytes
  pos : 0 < bytes.toNat
  noWrap : (base + bytes).toNat = base.toNat + bytes.toNat
  high : (base + bytes).toNat ≤ userVaMax.toNat
  clear : ∀ i, Disjoint (vmas i).region (Set.Ico base.toNat (base + bytes).toNat)

theorem Recordable.stopAligned (h : Recordable vmas base bytes) : PageAligned (base + bytes) := by
  have h1 := h.baseAligned
  have h2 := h.bytesAligned
  unfold PageAligned at *
  rw [h.noWrap]
  omega

section
variable (h : ReservationsOk vmas) (hr : Recordable vmas base bytes)
include h hr

theorem ReservationsOk.grow {v : UserVma} (hv : v.WellFormed)
    (hs : v.region ⊆ (vmas i).region ∪ Set.Ico base.toNat (base + bytes).toNat) :
    ReservationsOk (update vmas i v) ∧ reserved (update vmas i v) ⊆
        reserved vmas ∪ Set.Ico base.toNat (base + bytes).toNat := by
  refine ⟨h.update hv fun j hj => Disjoint.mono_left hs ?_,?_⟩
  · exact Set.disjoint_union_left.mpr ⟨h.disjoint hj.symm,(hr.clear j).symm⟩
  · unfold reserved
    rw [comp_update]
    refine iUnion_update_subset (fun j _ => ?_) (hs.trans ?_)
    · exact (subset_iUnion (region ∘ vmas) j).trans subset_union_left
    · exact union_subset_union_left _ (subset_iUnion (region ∘ vmas) i)

theorem record_slot (flags : U64) : ReservationsOk (update vmas i ⟨base,base + bytes,flags,true⟩) ∧
      reserved (update vmas i ⟨base,base + bytes,flags,true⟩) ⊆
        reserved vmas ∪ Set.Ico base.toNat (base + bytes).toNat := by
  have hpos := hr.pos
  have hadd := hr.noWrap
  refine ReservationsOk.grow h hr (fun _ => ⟨hr.baseAligned,hr.stopAligned,?_,hr.high⟩) ?_
  · dsimp only; omega
  · exact fun a ha => .inr ⟨ha.2.1,ha.2.2⟩

theorem record_below (hu : (vmas i).used = true) (hb : (vmas i).stop = base) :
    ReservationsOk (update vmas i { vmas i with stop := base + bytes }) ∧
      reserved (update vmas i { vmas i with stop := base + bytes }) ⊆
        reserved vmas ∪ Set.Ico base.toNat (base + bytes).toNat := by
  obtain ⟨h1,h2,h3,h4⟩ := h.wellFormed i hu
  have hadd := hr.noWrap
  refine ReservationsOk.grow h hr (fun _ => ⟨h1,hr.stopAligned,?_,hr.high⟩) ?_
  · dsimp only; rw [hb] at h3; omega
  · rintro a ⟨_,ha1,ha2⟩
    by_cases ha : a < base.toNat
    · exact .inl ⟨hu,ha1,by rwa [hb]⟩
    · exact .inr ⟨by omega,ha2⟩

theorem record_above (hu : (vmas i).used = true) (hb : (vmas i).start = base + bytes) :
    ReservationsOk (update vmas i { vmas i with start := base }) ∧
      reserved (update vmas i { vmas i with start := base }) ⊆
        reserved vmas ∪ Set.Ico base.toNat (base + bytes).toNat := by
  obtain ⟨h1,h2,h3,h4⟩ := h.wellFormed i hu
  have hadd := hr.noWrap
  refine ReservationsOk.grow h hr (fun _ => ⟨hr.baseAligned,h2,?_,h4⟩) ?_
  · dsimp only; rw [hb] at h3; omega
  · rintro a ⟨_,ha1,ha2⟩
    by_cases ha : a < (base + bytes).toNat
    · exact .inr ⟨ha1,ha⟩
    · exact .inl ⟨hu,by rw [hb]; omega,ha2⟩

theorem record_both
    {b a : Fin maxUserVmas} (hub : (vmas b).used = true) (hb : (vmas b).stop = base)
    (hua : (vmas a).used = true) (ha : (vmas a).start = base + bytes)
    (hne : (vmas a).stop ≠ base) :
    let merged := { vmas b with stop := (vmas a).stop }
    ReservationsOk (update (update vmas b merged) a empty) ∧
      reserved (update (update vmas b merged) a empty) ⊆
        reserved vmas ∪ Set.Ico base.toNat (base + bytes).toNat := by
  intro merged
  have hab : b ≠ a := by rintro rfl; exact hne hb
  obtain ⟨hb1,hb2,hb3,hb4⟩ := h.wellFormed b hub
  obtain ⟨ha1,ha2,ha3,ha4⟩ := h.wellFormed a hua
  have hadd := hr.noWrap
  rw [hb] at hb3
  rw [ha] at ha3
  have hsub : merged.region ⊆ (vmas b).region ∪ (vmas a).region ∪
      Set.Ico base.toNat (base + bytes).toNat := by
    rintro x ⟨_,hx1,hx2⟩
    by_cases hx : x < base.toNat
    · exact .inl (.inl ⟨hub,hx1,by rwa [hb]⟩)
    · by_cases hy : x < (base + bytes).toNat
      · exact .inr ⟨by omega,hy⟩
      · exact .inl (.inr ⟨hua,by rw [ha]; omega,hx2⟩)
  rw [update_comm hab]
  -- With the upper record emptied first, the merged one meets no other.
  have hempty : ReservationsOk (update vmas a empty) :=
    h.shrink UserVma.wellFormed_empty (by simp)
  refine ⟨hempty.update (fun _ => ⟨hb1,ha2,?_,ha4⟩) fun j hj => ?_,?_⟩
  · change (vmas b).start.toNat < (vmas a).stop.toNat; omega
  · by_cases hja : j = a
    · subst hja; simp
    · rw [update_of_ne hja]
      exact Disjoint.mono_left hsub (Set.disjoint_union_left.mpr ⟨Set.disjoint_union_left.mpr
        ⟨h.disjoint hj.symm,h.disjoint (Ne.symm hja)⟩,(hr.clear j).symm⟩)
  · have hall := subset_iUnion (region ∘ vmas)
    unfold reserved
    rw [comp_update]
    refine iUnion_update_subset (fun j _ => ?_) (hsub.trans ?_)
    · by_cases hja : j = a
      · subst hja; simp
      · rw [comp_apply,update_of_ne hja]
        exact (hall j).trans subset_union_left
    · exact union_subset_union_left _ (union_subset (hall b) (hall a))

end

theorem recordRange_cases (vm : TaskVm) (slot : Fin maxUserVmas) (base bytes flags : U64) :
    ∃ vmas, vm.recordRange slot base bytes flags = { vm with vmas := vmas } ∧
      (vmas = update vm.vmas slot ⟨base,base + bytes,flags,true⟩ ∨
        (∃ a, (vm.vmas a).used = true ∧ (vm.vmas a).start = base + bytes ∧
          vmas = update vm.vmas a { vm.vmas a with start := base }) ∨
        (∃ b, (vm.vmas b).used = true ∧ (vm.vmas b).stop = base ∧
          vmas = update vm.vmas b { vm.vmas b with stop := base + bytes }) ∨
        ∃ b a, (vm.vmas b).used = true ∧ (vm.vmas b).stop = base ∧ (vm.vmas a).used = true ∧
          (vm.vmas a).start = base + bytes ∧ (vm.vmas a).stop ≠ base ∧
          (vm.vmas b).pteFlags = (vm.vmas a).pteFlags ∧ vmas = update
            (update vm.vmas b { vm.vmas b with stop := (vm.vmas a).stop }) a
            empty) := by
  refine ⟨_,rfl,?_⟩
  cases hb : vm.lastVma flags fun v => v.stop == base with
  | none =>
    cases ha : vm.lastVma flags fun v => !(v.stop == base) && v.start == base + bytes with
    | none => exact .inl rfl
    | some a =>
      obtain ⟨hu,_,hp⟩ := lastVma_some ha
      simp only [Bool.and_eq_true,beq_iff_eq] at hp
      exact .inr (.inl ⟨a,hu,hp.2,rfl⟩)
  | some b =>
    obtain ⟨hub,hfb,hpb⟩ := lastVma_some hb
    cases ha : vm.lastVma flags fun v => !(v.stop == base) && v.start == base + bytes with
    | none => exact .inr (.inr (.inl ⟨b,hub,beq_iff_eq.mp hpb,rfl⟩))
    | some a =>
      obtain ⟨hua,hfa,hpa⟩ := lastVma_some ha
      simp only [Bool.and_eq_true,Bool.not_eq_true',beq_eq_false_iff_ne,beq_iff_eq] at hpa
      exact .inr (.inr (.inr
        ⟨b,a,hub,beq_iff_eq.mp hpb,hua,hpa.2,hpa.1,hfb.trans hfa.symm,rfl⟩))

theorem recordRange_spec {vm : TaskVm} (h : ReservationsOk vm.vmas)
    (hr : Recordable vm.vmas base bytes) (slot : Fin maxUserVmas) (flags : U64) :
    ReservationsOk (vm.recordRange slot base bytes flags).vmas ∧
      reserved (vm.recordRange slot base bytes flags).vmas ⊆
        reserved vm.vmas ∪ Set.Ico base.toNat (base + bytes).toNat := by
  obtain ⟨vmas,heq,rfl | ⟨a,hu,hs,rfl⟩ | ⟨b,hu,hs,rfl⟩ |
    ⟨b,a,hub,hb,hua,ha,hne,_,rfl⟩⟩ := vm.recordRange_cases slot base bytes flags
  all_goals rw [heq]
  · exact record_slot h hr flags
  · exact record_above h hr hu hs
  · exact record_below h hr hu hs
  · exact record_both h hr hub hb hua ha hne

end TaskVm

end GaiaKernel
