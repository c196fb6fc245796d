import GaiaKernel.Lib.DisjointFamily
import GaiaKernel.Memory.Uvm

/-! # Placement of reservations

Where the record table, the free list and the bump pointer of an address space put things, as sets
of addresses. `Placement` is their joint invariant: records are disjoint, holes are disjoint, and
what is recorded meets neither a hole nor the untouched end of the arena.
-/
namespace GaiaKernel
open DisjointFamily Function VmHole

def UserVma.region (v : UserVma) : Set ℕ :=
  {a | v.used = true ∧ v.start.toNat ≤ a ∧ a < v.stop.toNat}

def VmHole.region (h : VmHole) : Set ℕ := Set.Ico h.base.toNat (h.base.toNat + h.len.toNat)

def UserVma.WellFormed (v : UserVma) : Prop :=
  v.used = true → PageAligned v.start ∧ PageAligned v.stop ∧
    v.start.toNat < v.stop.toNat ∧ v.stop.toNat ≤ userVaMax.toNat

def VmHole.WellFormed (next : U64) (h : VmHole) : Prop :=
  h.len ≠ 0#64 → PageAligned h.base ∧ PageAligned h.len ∧
    userMmapBase.toNat ≤ h.base.toNat ∧ h.base.toNat + h.len.toNat ≤ next.toNat

structure ReservationsOk (vmas : Fin maxUserVmas → UserVma) : Prop where
  wellFormed : ∀ i, (vmas i).WellFormed
  disjoint : Pairwise (Function.onFun Disjoint (UserVma.region ∘ vmas))

structure HolesOk (next : U64) (holes : Fin taskMmapHoles → VmHole) : Prop where
  wellFormed : ∀ i, (holes i).WellFormed next
  disjoint : Pairwise (Function.onFun Disjoint (region ∘ holes))

def reserved (vmas : Fin maxUserVmas → UserVma) : Set ℕ := ⋃ i, (UserVma.region ∘ vmas) i
def offered (holes : Fin taskMmapHoles → VmHole) : Set ℕ := ⋃ i, (region ∘ holes) i

def arenaFree (vm : TaskVm) : Set ℕ :=
  offered vm.mmapHoles ∪ Set.Ico vm.mmapNextVa.toNat userMmapLimit.toNat

structure Placement (vm : TaskVm) : Prop where
  vmas : ReservationsOk vm.vmas
  holes : HolesOk vm.mmapNextVa vm.mmapHoles
  bumpAligned : PageAligned vm.mmapNextVa
  bumpLow : userMmapBase.toNat ≤ vm.mmapNextVa.toNat
  bumpHigh : vm.mmapNextVa.toNat ≤ userMmapLimit.toNat
  apart : Disjoint (reserved vm.vmas) (arenaFree vm)

@[simp] theorem UserVma.region_empty : UserVma.empty.region = ∅ := by
  simp [UserVma.region,UserVma.empty]

@[simp] theorem VmHole.region_empty : empty.region = ∅ := by simp [region,empty]

theorem UserVma.wellFormed_empty : UserVma.empty.WellFormed := by
  intro h; cases h

theorem VmHole.wellFormed_empty (next : U64) : empty.WellFormed next := by
  intro h; exact absurd rfl h

theorem VmHole.region_of_len_zero {h : VmHole} (hl : h.len = 0#64) : h.region = ∅ := by
  simp [region,hl]

theorem uvmInit_placement (vm : TaskVm) : Placement vm.uvmInit where
  vmas := ⟨fun _ => UserVma.wellFormed_empty,fun i j _ => by
    simp [onFun,TaskVm.uvmInit]⟩
  holes := ⟨fun _ => wellFormed_empty _,fun i j _ => by
    simp [onFun,TaskVm.uvmInit]⟩
  bumpAligned := show PageAligned userMmapBase by decide
  bumpLow := le_rfl
  bumpHigh := show userMmapBase.toNat ≤ userMmapLimit.toNat by decide
  apart := by simp [reserved,TaskVm.uvmInit]

section
variable {vmas : Fin maxUserVmas → UserVma} (h : ReservationsOk vmas) {i : Fin maxUserVmas}
  {v : UserVma} (hv : v.WellFormed)
include h hv

theorem ReservationsOk.update (hd : ∀ j, j ≠ i → Disjoint v.region (vmas j).region) :
    ReservationsOk (update vmas i v) := by
  refine ⟨forall_update h.wellFormed hv,?_⟩
  rw [comp_update]
  exact pairwise_update h.disjoint hd

theorem ReservationsOk.shrink (hs : v.region ⊆ (vmas i).region) :
    ReservationsOk (Function.update vmas i v) :=
  h.update hv fun _ hj => (h.disjoint hj.symm).mono_left hs

end

theorem HolesOk.update {next : U64} {holes : Fin taskMmapHoles → VmHole}
    (h : HolesOk next holes) {i : Fin taskMmapHoles} {x : VmHole} (hx : x.WellFormed next)
    (hd : ∀ j, j ≠ i → Disjoint x.region (holes j).region) : HolesOk next (update holes i x) := by
  refine ⟨forall_update h.wellFormed hx,?_⟩
  rw [comp_update]
  exact pairwise_update h.disjoint hd

theorem uvmRangeOk_spec {base bytes : U64} (h : uvmRangeOk base bytes = true) :
    0 < bytes.toNat ∧ (base + bytes).toNat = base.toNat + bytes.toNat ∧
      (base + bytes).toNat ≤ userVaMax.toNat := by
  unfold uvmRangeOk at h
  split_ifs at h with h1 h2 h3
  simp only [not_or,BitVec.lt_def,gt_iff_lt,not_lt] at h1 h2
  have hpos : bytes.toNat ≠ 0 := fun hz => h1.1 (BitVec.eq_of_toNat_eq hz)
  have hwrap := h2.1
  refine ⟨by omega,?_,h2.2⟩
  rw [BitVec.toNat_add] at hwrap ⊢
  omega

structure PageRange (addr bytes : U64) : Prop where
  start : PageAligned addr
  size : PageAligned bytes
  ok : uvmRangeOk addr bytes = true

namespace PageRange
variable {addr bytes : U64} (h : PageRange addr bytes)
include h

theorem noWrap : (addr + bytes).toNat = addr.toNat + bytes.toNat := (uvmRangeOk_spec h.ok).2.1

theorem lt : addr.toNat < (addr + bytes).toNat := by
  have := uvmRangeOk_spec h.ok
  omega

theorem stop : PageAligned (addr + bytes) := by
  have h1 := h.start
  have h2 := h.size
  have h3 := h.noWrap
  unfold PageAligned at *
  omega

end PageRange

theorem pageRange_of_checks {addr bytes : U64}
    (ha : ¬ (has addr 4095#64 = true ∨ has bytes 4095#64 = true))
    (hok : ¬ (!uvmRangeOk addr bytes) = true) : PageRange addr bytes := by
  simp only [not_or,Bool.not_eq_true,has_4095_eq_false_iff] at ha
  exact ⟨ha.1,ha.2,by simpa using hok⟩

namespace TaskVm
variable (vm : TaskVm) (ph : Phys) (addr bytes flags : U64)

theorem uvmRelease_cases : vm.uvmRelease ph addr bytes = (false, vm, ph) ∨
      ∃ r vm' vm'', vm.userPml4 = some r ∧ PageRange addr bytes ∧
        vm.vmaRemoveRange addr (addr + bytes) = some vm' ∧
        (userMmapBase ≤ addr ∧ addr + bytes ≤ userMmapLimit ∧ vm'' = vm'.holeAdd addr bytes ∨
          vm'' = vm') ∧ vm.uvmRelease ph addr bytes =
          (true, vm'', unmapPages r true (pageCount bytes) addr ph) := by
  unfold uvmRelease
  cases vm.userPml4 with
  | none => exact .inl rfl
  | some r =>
    cases hrem : vm.vmaRemoveRange addr (addr + bytes) with
    | none => split_ifs <;> exact .inl rfl
    | some vm' =>
      split_ifs with h1 h2 h3
      · exact .inl rfl
      · exact .inl rfl
      · exact .inr ⟨r,vm',_,rfl,pageRange_of_checks h1 h2,rfl,.inl ⟨h3.1,h3.2,rfl⟩,rfl⟩
      · exact .inr ⟨r,vm',_,rfl,pageRange_of_checks h1 h2,rfl,.inr rfl,rfl⟩

theorem uvmDiscard_cases : vm.uvmDiscard ph addr bytes = (false, ph) ∨
      ∃ r, vm.userPml4 = some r ∧ PageRange addr bytes ∧
        vm.discardable ph r (pageCount bytes) addr = true ∧
        vm.uvmDiscard ph addr bytes = (true, unmapPages r false (pageCount bytes) addr ph) := by
  unfold uvmDiscard
  cases vm.userPml4 with
  | none => exact .inl rfl
  | some r =>
    dsimp only
    split_ifs with h1 h2 h3
    · exact .inl rfl
    · exact .inl rfl
    · exact .inl rfl
    · exact .inr ⟨r,rfl,pageRange_of_checks h1 h2,by simpa using h3,rfl⟩

theorem uvmProtect_cases :
    vm.uvmProtect ph addr bytes flags = (false, ph) ∨
      ∃ r, vm.userPml4 = some r ∧ PageRange addr bytes ∧ vm.uvmProtect ph addr bytes flags =
          match vm.faultInPages false (pageCount bytes) addr ph with
          | (false, ph') => (false, ph')
          | (true, ph') => protectPages r flags (pageCount bytes) addr ph' := by
  unfold uvmProtect
  cases vm.userPml4 with
  | none => exact .inl rfl
  | some r =>
    split_ifs with h1 h2
    · exact .inl rfl
    · exact .inl rfl
    · rw [← or_assoc,not_or] at h1
      exact .inr ⟨r,rfl,pageRange_of_checks h1.1 h2,rfl⟩

theorem vmaFreeSlot_unused {slot : Fin maxUserVmas} (h : vm.vmaFreeSlot = some slot) :
    (vm.vmas slot).used = false := by
  simpa using List.find?_some h

theorem uvmReserve_cases (fixed : Bool) : vm.uvmReserve ph addr bytes flags fixed = (0, vm) ∨
      ∃ slot, (vm.vmas slot).used = false ∧ bytes ≠ 0#64 ∧ PageAligned bytes ∧
        (fixed = true ∧ PageRange addr bytes ∧ (∃ r, vm.rangeIsUnmapped ph r addr bytes = true) ∧
            vm.uvmReserve ph addr bytes flags fixed = (addr, vm.recordRange slot addr bytes flags) ∨
          ∃ base vm', vm.arenaAlloc bytes = (base, vm') ∧ vm.uvmReserve ph addr bytes flags fixed =
              if base = 0#64 then (0, vm') else (base, vm'.recordRange slot base bytes flags)) := by
  unfold uvmReserve
  cases vm.userPml4 with
  | none => exact .inl rfl
  | some r =>
    dsimp only
    by_cases hargs : bytes = 0#64 ∨ has bytes 4095#64 = true ∨ flags = 0#64
    · exact .inl (if_pos hargs)
    rw [if_neg hargs]
    simp only [not_or,Bool.not_eq_true] at hargs
    have hb := (has_4095_eq_false_iff bytes).mp hargs.2.1
    cases hslot : vm.vmaFreeSlot with
    | none => exact .inl rfl
    | some slot =>
      have hfree := vm.vmaFreeSlot_unused hslot
      cases fixed with
      | false => exact .inr ⟨slot,hfree,hargs.1,hb,.inr ⟨_,_,rfl,rfl⟩⟩
      | true =>
        by_cases h1 : has addr 4095#64 = true
        · exact .inl (if_pos h1)
        by_cases h2 : (!uvmRangeOk addr bytes) = true
        · exact .inl ((if_neg h1).trans (if_pos h2))
        by_cases h3 : (!vm.rangeIsUnmapped ph r addr bytes) = true
        · exact .inl ((if_neg h1).trans ((if_neg h2).trans (if_pos h3)))
        have hr : PageRange addr bytes := pageRange_of_checks (by simp [h1,hargs.2.1]) h2
        exact .inr ⟨slot,hfree,hargs.1,hb,.inl ⟨rfl,hr,⟨r,by simpa using h3⟩,
          (if_neg h1).trans ((if_neg h2).trans (if_neg h3))⟩⟩

end TaskVm

end GaiaKernel
