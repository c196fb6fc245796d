import GaiaKernel.Memory.PlacementArena
import GaiaKernel.Memory.PlacementRecord
import GaiaKernel.Memory.PlacementRemoval

/-! # Bounds every address space keeps

These hold after any calls at all: records are page-aligned non-empty ranges below `USER_VA_MAX`,
and the free list stays inside the arena. `flags` is whatever every reservation's flags satisfy.
-/
namespace GaiaKernel
open DisjointFamily

/-- Every record and hole is well formed; nothing is said about how they lie to each other. -/
structure Bounded (flags : U64 → Prop) (vm : TaskVm) : Prop where
  vma : ∀ i, (vm.vmas i).WellFormed
  flags : ∀ i, (vm.vmas i).used = true → flags (vm.vmas i).pteFlags
  hole : ∀ i, (vm.mmapHoles i).WellFormed userMmapLimit
  bumpAligned : PageAligned vm.mmapNextVa
  bumpLow : userMmapBase.toNat ≤ vm.mmapNextVa.toNat
  bumpHigh : vm.mmapNextVa.toNat ≤ userMmapLimit.toNat

theorem Bounded.of_arena {P : U64 → Prop} {vm vm' : TaskVm} (h : Bounded P vm)
    (hv : vm'.vmas = vm.vmas) (hh : vm'.mmapHoles = vm.mmapHoles)
    (hn : vm'.mmapNextVa = vm.mmapNextVa) : Bounded P vm' where
  vma := hv ▸ h.vma
  flags := hv ▸ h.flags
  hole := hh ▸ h.hole
  bumpAligned := hn ▸ h.bumpAligned
  bumpLow := hn ▸ h.bumpLow
  bumpHigh := hn ▸ h.bumpHigh

namespace TaskVm
variable {vm : TaskVm} {base bytes flags start stop : U64} {P : U64 → Prop}
  {vmas : Fin maxUserVmas → UserVma}

theorem uvmInit_bounded (vm : TaskVm) : Bounded P vm.uvmInit where
  vma _ := UserVma.wellFormed_empty
  flags _ h := by cases h
  hole _ := VmHole.wellFormed_empty _
  bumpAligned := show PageAligned userMmapBase by decide
  bumpLow := le_rfl
  bumpHigh := show userMmapBase.toNat ≤ userMmapLimit.toNat by decide

def FlagsSat (P : U64 → Prop) (v : UserVma) : Prop := v.used = true → P v.pteFlags

theorem flagsSat_empty : FlagsSat P UserVma.empty := by
  intro h; cases h

/-- What a removal step keeps of every record, if it holds of the parts a record is cut into. -/
theorem vmaRemoveStep_forall {Q : UserVma → Prop} {i : Fin maxUserVmas} (hempty : Q UserVma.empty)
    (hright : ∀ v : UserVma, v.used = true → Q v → stop.toNat < v.stop.toNat →
      Q { v with start := stop })
    (hleft : ∀ v : UserVma, v.used = true → Q v → v.start.toNat < start.toNat →
      start.toNat ≤ v.stop.toNat → Q { v with stop := start })
    (split : Option (Fin maxUserVmas)) (h : ∀ j, Q (vmas j)) (j : Fin maxUserVmas) :
    Q (vmaRemoveStep start stop split vmas i j) := by
  unfold vmaRemoveStep
  by_cases h1 : (!(vmas i).used) = true ∨ start ≥ (vmas i).stop ∨ stop ≤ (vmas i).start
  · rw [if_pos h1]
    exact h j
  rw [if_neg h1]
  simp only [Bool.not_eq_true',not_or,Bool.not_eq_false,ge_iff_le,BitVec.not_le] at h1
  obtain ⟨hu,hstart,_⟩ := h1
  split_ifs with h2 h3 h4
  · exact forall_update h hempty j
  · exact forall_update h (hright _ hu (h i) (BitVec.not_le.mp fun hc => h2 ⟨h3,hc⟩)) j
  · exact forall_update h (hleft _ hu (h i) (BitVec.not_le.mp h3) (le_of_lt hstart)) j
  · cases split with
    | none => exact h j
    | some k =>
      have hr := hright _ hu (h i) (BitVec.not_le.mp h4)
      rw [hu] at hr
      exact forall_update (forall_update h hr)
        (hleft _ hu (h i) (BitVec.not_le.mp h3) (le_of_lt hstart)) j

section
variable (hb : Bounded P vm)
include hb

theorem vmaRemoveRange_bounded {vm' : TaskVm} (hsa : PageAligned start) (hta : PageAligned stop)
    (h : vm.vmaRemoveRange start stop = some vm') :
    Bounded P vm' ∧ vm' = { vm with vmas := vm'.vmas } := by
  simp only [vmaRemoveRange] at h
  generalize (if (vmaSlots.any fun i => spans (vm.vmas i) start stop) = true then vm.vmaFreeSlot
    else none) = split at h
  split_ifs at h
  cases h
  have hinit : ∀ j, (vm.vmas j).WellFormed ∧ FlagsSat P (vm.vmas j) :=
    fun j => ⟨hb.vma j,hb.flags j⟩
  have hw := List.foldlRecOn (motive := fun vmas => ∀ j, (vmas j).WellFormed ∧ FlagsSat P (vmas j))
    vmaSlots (vmaRemoveStep start stop split) hinit fun vmas hw i _ =>
      vmaRemoveStep_forall (Q := fun v => v.WellFormed ∧ FlagsSat P v)
        ⟨UserVma.wellFormed_empty,flagsSat_empty⟩
        (fun v _ hv hlt => ⟨wellFormed_right hta hv.1 hlt,hv.2⟩)
        (fun v _ hv hlt hle => ⟨wellFormed_left hsa hv.1 hlt hle,hv.2⟩) split hw
  generalize vmaSlots.foldl (vmaRemoveStep start stop split) vm.vmas = vmas' at hw ⊢
  exact ⟨⟨fun i => (hw i).1,fun i => (hw i).2,hb.hole,hb.bumpAligned,hb.bumpLow,hb.bumpHigh⟩,rfl⟩

theorem holeAdd_bounded
    (hr : ArenaRange userMmapLimit base (base + bytes)) : Bounded P (vm.holeAdd base bytes) := by
  obtain ⟨⟨h1,h2⟩,-⟩ := holeMerge_rule (P := fun holes b s =>
      (∀ i, (holes i).WellFormed userMmapLimit) ∧ ArenaRange userMmapLimit b s)
    (fun i h ht => ⟨forall_update h.1 (VmHole.wellFormed_empty _),merged_arenaRange (h.1 i) h.2 ht⟩)
    ⟨hb.hole,hr⟩ card_nonemptyHoles_lt
  unfold holeAdd
  generalize holeMerge (taskMmapHoles + 1) vm.mmapHoles base (base + bytes) = m at h1 h2 ⊢
  dsimp only
  cases holeSlots.find? fun i => (m.1 i).len == 0#64 with
  | none => exact ⟨hb.vma,hb.flags,h1,hb.bumpAligned,hb.bumpLow,hb.bumpHigh⟩
  | some i => exact ⟨hb.vma,hb.flags,forall_update h1 h2.hole,hb.bumpAligned,hb.bumpLow,hb.bumpHigh⟩

theorem arenaAlloc_bounded (hal : PageAligned bytes) (hpos : bytes ≠ 0#64) :
    vm.arenaAlloc bytes = (0#64, vm) ∨
      (Bounded P (vm.arenaAlloc bytes).2 ∧ (vm.arenaAlloc bytes).2.vmas = vm.vmas ∧
        UserVma.WellFormed ⟨(vm.arenaAlloc bytes).1,(vm.arenaAlloc bytes).1 + bytes,0,true⟩) := by
  have hmax : userMmapLimit.toNat ≤ userVaMax.toNat := by decide
  have hbpos : 0 < bytes.toNat := Nat.pos_of_ne_zero fun hz => hpos (BitVec.eq_of_toNat_eq hz)
  rcases vm.arenaAlloc_cases bytes with ⟨-,heq⟩ | ⟨i,hl,hfit,heq⟩ | ⟨⟨-,hfits⟩,heq⟩
  · exact .inl heq
  · obtain ⟨h1,_,h3,h4⟩ := hb.hole i hl
    have hadd := (hole_take (VmHole.WellFormed.noWrap (hb.hole i)) hfit).1
    rw [heq]
    refine .inr ⟨⟨hb.vma,hb.flags,forall_update hb.hole (rest_wellFormed (hb.hole i) hal hl hfit),
      hb.bumpAligned,hb.bumpLow,hb.bumpHigh⟩,rfl,fun _ => ⟨h1,?_,?_,?_⟩⟩
    all_goals
      unfold PageAligned at *
      dsimp only
      omega
  · have h1 := hb.bumpAligned
    have h2 := hb.bumpLow
    have hadd := hfits.toNat_add
    have hlim := hadd.trans_le hfits
    rw [heq]
    refine .inr ⟨⟨hb.vma,hb.flags,hb.hole,?_,?_,hlim⟩,rfl,fun _ => ⟨h1,?_,?_,?_⟩⟩
    all_goals
      unfold PageAligned at *
      simp only [hadd]
      omega

theorem recordRange_bounded (hw : UserVma.WellFormed ⟨base,base + bytes,0,true⟩) (hf : P flags)
    (slot : Fin maxUserVmas) : Bounded P (vm.recordRange slot base bytes flags) := by
  obtain ⟨h1,h2,h3,h4⟩ := hw rfl
  dsimp only at h1 h2 h3 h4
  obtain ⟨vmas,heq,rfl | ⟨a,hu,hs,rfl⟩ | ⟨b,hu,hs,rfl⟩ |
    ⟨b,a,hub,hsb,hua,hsa,_,_,rfl⟩⟩ := vm.recordRange_cases slot base bytes flags
  all_goals
    rw [heq]
    refine ⟨?_,?_,hb.hole,hb.bumpAligned,hb.bumpLow,hb.bumpHigh⟩
  · exact forall_update hb.vma fun _ => ⟨h1,h2,h3,h4⟩
  · exact forall_update (Q := FlagsSat P) hb.flags fun _ => hf
  · obtain ⟨_,ha2,ha3,ha4⟩ := hb.vma a hu
    rw [hs] at ha3
    exact forall_update hb.vma fun _ => ⟨h1,ha2,by dsimp only; omega,ha4⟩
  · exact forall_update (Q := FlagsSat P) hb.flags fun _ => hb.flags a hu
  · obtain ⟨hb1,_,hb3,_⟩ := hb.vma b hu
    rw [hs] at hb3
    exact forall_update hb.vma fun _ => ⟨hb1,h2,by dsimp only; omega,h4⟩
  · exact forall_update (Q := FlagsSat P) hb.flags fun _ => hb.flags b hu
  · obtain ⟨hb1,_,hb3,_⟩ := hb.vma b hub
    obtain ⟨_,ha2,ha3,ha4⟩ := hb.vma a hua
    rw [hsb] at hb3
    rw [hsa] at ha3
    exact forall_update (forall_update hb.vma fun _ => ⟨hb1,ha2,by dsimp only; omega,ha4⟩)
      UserVma.wellFormed_empty
  · exact forall_update (Q := FlagsSat P) (forall_update (Q := FlagsSat P) hb.flags
      fun _ => hb.flags b hub) flagsSat_empty

end

theorem arenaAlloc_userPml4 : (vm.arenaAlloc bytes).2.userPml4 = vm.userPml4 := by
  rcases vm.arenaAlloc_cases bytes with ⟨-,heq⟩ | ⟨_,_,_,heq⟩ | ⟨-,heq⟩ <;> rw [heq]

theorem holeAdd_userPml4 : (vm.holeAdd base bytes).userPml4 = vm.userPml4 := by
  unfold holeAdd
  dsimp only
  split <;> rfl

theorem uvmReserve_bounded (hb : Bounded P vm) (ph : Phys) (addr bytes : U64) (fixed : Bool)
    (hf : P flags) : Bounded P (vm.uvmReserve ph addr bytes flags fixed).2 ∧
      (vm.uvmReserve ph addr bytes flags fixed).2.userPml4 = vm.userPml4 := by
  rcases vm.uvmReserve_cases ph addr bytes flags fixed with
    heq | ⟨slot,_,hpos,hal,⟨_,hr,_,heq⟩ | ⟨base,vm',ha,heq⟩⟩
  · rw [heq]
    exact ⟨hb,rfl⟩
  · rw [heq]
    have hmax := (uvmRangeOk_spec hr.ok).2.2
    exact ⟨recordRange_bounded hb (fun _ => ⟨hr.start,hr.stop,hr.lt,hmax⟩) hf slot,rfl⟩
  · have hroot : (vm.arenaAlloc bytes).2.userPml4 = vm.userPml4 := arenaAlloc_userPml4
    rw [ha] at hroot
    rw [heq]
    rcases arenaAlloc_bounded hb hal hpos with h0 | ⟨hb',_,hw⟩
    · cases ha.symm.trans h0
      exact ⟨hb,rfl⟩
    · rw [ha] at hb' hw
      split_ifs
      · exact ⟨hb',hroot⟩
      · exact ⟨recordRange_bounded hb' hw hf slot,hroot⟩

theorem uvmRelease_bounded (hb : Bounded P vm) (ph : Phys) (addr bytes : U64) :
    Bounded P (vm.uvmRelease ph addr bytes).2.1 ∧
      (vm.uvmRelease ph addr bytes).2.1.userPml4 = vm.userPml4 := by
  rcases vm.uvmRelease_cases ph addr bytes with heq | ⟨_,vm',vm'',_,hr,hrem,hadd,heq⟩
  · rw [heq]
    exact ⟨hb,rfl⟩
  rw [heq]
  obtain ⟨hb',hvmas⟩ := vmaRemoveRange_bounded hb hr.start hr.stop hrem
  have hroot : vm'.userPml4 = vm.userPml4 := by rw [hvmas]
  rcases hadd with ⟨hlow,hhigh,rfl⟩ | rfl
  · exact ⟨holeAdd_bounded hb' ⟨hr.start,hr.stop,BitVec.le_def.mp hlow,hr.lt.le,
      BitVec.le_def.mp hhigh⟩,holeAdd_userPml4.trans hroot⟩
  · exact ⟨hb',hroot⟩

end TaskVm

end GaiaKernel
