import GaiaKernel.Memory.PlacementArena
import GaiaKernel.Memory.PlacementRecord
import GaiaKernel.Memory.PlacementRemoval

/-! # Runs of the address-space interface

`Placement` over whole runs of the six entry points of memory/uvm.c, with the rest of the
kernel free to change frames and page tables in between.
-/
namespace GaiaKernel.Uvm
open TaskVm Trace Set

structure State where
  vm : TaskVm
  phys : Phys

inductive Op where
  | reserve (addr bytes pteFlags : U64) (fixed : Bool)
  | release (addr bytes : U64)
  | protect (addr bytes pteFlags : U64)
  | discard (addr bytes : U64)
  | faultIn (addr : U64) (writable : Bool)
  | bufferOk (pointer bytes : U64) (writable : Bool)
  | environment (phys : Phys)

/-- Effect of one call; `environment` replaces physical memory by anything at all, which
covers every pattern of frame-allocation failures. -/
def step (s : State) : Op → State
  | .reserve addr bytes flags fixed => { s with vm := (s.vm.uvmReserve s.phys addr bytes flags fixed).2 }
  | .release addr bytes =>
    let r := s.vm.uvmRelease s.phys addr bytes
    ⟨r.2.1,r.2.2⟩
  | .protect addr bytes flags => { s with phys := (s.vm.uvmProtect s.phys addr bytes flags).2 }
  | .discard addr bytes => { s with phys := (s.vm.uvmDiscard s.phys addr bytes).2 }
  | .faultIn addr writable => { s with phys := (s.vm.uvmFaultIn s.phys addr writable).2 }
  | .bufferOk p bytes writable => { s with phys := (s.vm.uvmBufferOk s.phys p bytes writable).2 }
  | .environment ph => { s with phys := ph }

def ReservationsDisjoint (vm : TaskVm) : Prop :=
  (∀ i, (vm.vmas i).used = true →
    PageAligned (vm.vmas i).start ∧ PageAligned (vm.vmas i).stop ∧
      (vm.vmas i).start < (vm.vmas i).stop) ∧
  ∀ i j, i ≠ j → (vm.vmas i).used = true → (vm.vmas j).used = true →
    (vm.vmas i).stop ≤ (vm.vmas j).start ∨ (vm.vmas j).stop ≤ (vm.vmas i).start

/-- A range is clear of everything the arena may still hand out by itself: of the holes, and
of `[mmap_next_va, USER_MMAP_LIMIT)`. -/
def ClearOfArena (vm : TaskVm) (base bytes : U64) : Prop :=
  (∀ j, (vm.mmapHoles j).len ≠ 0#64 →
    base.toNat + bytes.toNat ≤ (vm.mmapHoles j).base.toNat ∨
      (vm.mmapHoles j).base.toNat + (vm.mmapHoles j).len.toNat ≤ base.toNat) ∧
  (base.toNat + bytes.toNat ≤ vm.mmapNextVa.toNat ∨ userMmapLimit.toNat ≤ base.toNat)

/-- Calls that treat the arena as its allocator does: a fixed reservation stays off what the arena
may hand out, and a release inside the arena ends at or below the bump pointer. -/
def RespectsArena (s : State) : Op → Prop
  | .reserve addr bytes _ fixed =>
    fixed = true → uvmRangeOk addr bytes = true → ClearOfArena s.vm addr bytes
  | .release addr bytes =>
    userMmapBase ≤ addr → addr + bytes ≤ userMmapLimit → addr + bytes ≤ s.vm.mmapNextVa
  | _ => True

variable {base bytes : U64} {vm : TaskVm}

theorem ClearOfArena.disjoint (h : ClearOfArena vm base bytes)
    (hadd : (base + bytes).toNat = base.toNat + bytes.toNat) :
    Disjoint (Set.Ico base.toNat (base + bytes).toNat) (arenaFree vm) := by
  rw [disjoint_left]
  rintro a ⟨ha1,ha2⟩ (hf | hf)
  · obtain ⟨j,hj1,hj2⟩ := mem_iUnion.mp hf
    have hl : (vm.mmapHoles j).len ≠ 0#64 := by
      intro hz
      have : (vm.mmapHoles j).region = ∅ := VmHole.region_of_len_zero hz
      exact (mem_empty_iff_false a).mp (this ▸ ⟨hj1,hj2⟩)
    rcases h.1 j hl with hc | hc <;> omega
  · have := hf.1
    have := hf.2
    rcases h.2 with hc | hc <;> omega

theorem arenaTaken_placement {vm' : TaskVm} (hp : Placement vm)
    (h : ArenaTaken vm vm' base bytes) : Placement vm' where
  vmas := h.sameVmas ▸ hp.vmas
  holes := h.holes
  bumpAligned := h.bumpAligned
  bumpLow := h.bumpLow
  bumpHigh := h.bumpHigh
  apart := by
    rw [h.sameVmas]
    exact hp.apart.mono_right (h.left.trans sdiff_subset)

theorem placement_record (hp : Placement vm) (hr : Recordable vm.vmas base bytes)
    (hd : Disjoint (Set.Ico base.toNat (base + bytes).toNat) (arenaFree vm))
    (slot : Fin maxUserVmas) (flags : U64) : Placement (vm.recordRange slot base bytes flags) where
  vmas := (recordRange_spec hp.vmas hr slot flags).1
  holes := hp.holes
  bumpAligned := hp.bumpAligned
  bumpLow := hp.bumpLow
  bumpHigh := hp.bumpHigh
  apart := Disjoint.mono_left (recordRange_spec hp.vmas hr slot flags).2
    (disjoint_union_left.mpr ⟨hp.apart,hd⟩)

theorem recordable_fixed {ph : Phys} {pml4 : U64}
    (ha : PageAligned base) (hb : PageAligned bytes) (hok : uvmRangeOk base bytes = true)
    (hun : vm.rangeIsUnmapped ph pml4 base bytes = true) : Recordable vm.vmas base bytes := by
  obtain ⟨hpos,hadd,hhigh⟩ := uvmRangeOk_spec hok
  refine ⟨ha,hb,hpos,hadd,hhigh,fun i => disjoint_left.mpr ?_⟩
  rintro a ⟨hu,ha1,ha2⟩ ⟨hb1,hb2⟩
  simp only [rangeIsUnmapped,Bool.and_eq_true,Bool.not_eq_true',List.any_eq_false] at hun
  have hi := hun.1 i (mem_vmaSlots i)
  simp only [decide_eq_true_eq,gt_iff_lt,BitVec.lt_def] at hi
  exact hi ⟨⟨hu,by omega⟩,by omega⟩

theorem recordable_taken {vm' : TaskVm} (hp : Placement vm)
    (hb : PageAligned bytes) (hpos : bytes ≠ 0#64) (h : ArenaTaken vm vm' base bytes) :
    Recordable vm'.vmas base bytes := by
  refine ⟨h.baseAligned,hb,?_,h.noWrap,h.high.trans (by decide),fun i => ?_⟩
  · exact Nat.pos_of_ne_zero fun hz => hpos (BitVec.eq_of_toNat_eq hz)
  · rw [h.sameVmas]
    exact (hp.apart.mono_right h.taken).mono_left
      (subset_iUnion (UserVma.region ∘ vm.vmas) i)

theorem uvmReserve_spec (ph : Phys) {addr : U64} (flags : U64) {fixed : Bool} (hp : Placement vm)
    (hs : fixed = true → uvmRangeOk addr bytes = true → ClearOfArena vm addr bytes) :
    vm.uvmReserve ph addr bytes flags fixed = (0#64, vm) ∨
      Placement (vm.uvmReserve ph addr bytes flags fixed).2 ∧
        Recordable vm.vmas (vm.uvmReserve ph addr bytes flags fixed).1 bytes := by
  rcases vm.uvmReserve_cases ph addr bytes flags fixed with
    heq | ⟨slot,_,hpos,hb,⟨hfix,hr,⟨_,hun⟩,heq⟩ | ⟨base,vm',ha,heq⟩⟩
  · exact Or.inl heq
  · rw [heq]
    have hrec := recordable_fixed hr.start hr.size hr.ok hun
    exact Or.inr ⟨placement_record hp hrec ((hs hfix hr.ok).disjoint hr.noWrap) slot flags,hrec⟩
  · rw [heq]
    rcases arenaAlloc_spec hp hb with h | h
    · cases ha.symm.trans h
      exact Or.inl (if_pos rfl)
    rw [ha] at h
    have hne : base ≠ 0#64 := by
      rintro rfl
      exact absurd (show userMmapBase.toNat ≤ (0#64 : U64).toNat from h.low) (by decide)
    rw [if_neg hne]
    have hrec := recordable_taken hp hb hpos h
    have hd : Disjoint (Set.Ico base.toNat (base + bytes).toNat) (arenaFree vm') :=
      disjoint_left.mpr fun a ha hf => (h.left hf).2 ha
    exact Or.inr ⟨placement_record (arenaTaken_placement hp h) hrec hd slot flags,h.sameVmas ▸ hrec⟩

theorem uvmRelease_placement {ph : Phys} {addr : U64} (hp : Placement vm)
    (hs : userMmapBase ≤ addr → addr + bytes ≤ userMmapLimit → addr + bytes ≤ vm.mmapNextVa) :
    Placement (vm.uvmRelease ph addr bytes).2.1 := by
  rcases vm.uvmRelease_cases ph addr bytes with heq | ⟨_,vm',vm'',_,hr,hrem,hadd,heq⟩
  · rw [heq]
    exact hp
  rw [heq]
  obtain ⟨hok,hsub,hvmas⟩ := vmaRemoveRange_spec hp.vmas hr.lt hr.start hr.stop hrem
  have hp' : Placement vm' := by
    rw [hvmas]
    exact ⟨hok,hp.holes,hp.bumpAligned,hp.bumpLow,hp.bumpHigh,
      hp.apart.mono_left (hsub.trans sdiff_subset)⟩
  rcases hadd with ⟨hlow,hhigh,rfl⟩ | rfl
  · have hrange : ArenaRange vm'.mmapNextVa addr (addr + bytes) := by
      refine ⟨hr.start,hr.stop,BitVec.le_def.mp hlow,hr.lt.le,?_⟩
      rw [hvmas]
      exact BitVec.le_def.mp (hs hlow hhigh)
    obtain ⟨h1,h2,h3⟩ := holeAdd_spec hp'.holes hrange
    rw [h3]
    refine ⟨hok,h1,hp'.bumpAligned,hp'.bumpLow,hp'.bumpHigh,?_⟩
    have hclear : Disjoint (reserved vm'.vmas) (Set.Ico addr.toNat (addr + bytes).toNat) :=
      disjoint_left.mpr fun a ha => (hsub ha).2
    refine Disjoint.mono_right (union_subset_union_left _ h2) ?_
    rw [union_right_comm]
    exact disjoint_union_right.mpr ⟨hp'.apart,hclear⟩
  · exact hp'

theorem step_placement (s : State) (op : Op) (hp : Placement s.vm) (h : RespectsArena s op) :
    Placement (step s op).vm := by
  cases op with
  | reserve addr bytes flags fixed =>
    rcases uvmReserve_spec s.phys flags hp h with he | ⟨he,_⟩
    · simp only [step,he]; exact hp
    · exact he
  | release addr bytes => exact uvmRelease_placement hp h
  | protect addr bytes flags => exact hp
  | discard addr bytes => exact hp
  | faultIn addr writable => exact hp
  | bufferOk p bytes writable => exact hp
  | environment ph => exact hp

theorem placement_reservationsDisjoint (hp : Placement vm) : ReservationsDisjoint vm := by
  refine ⟨fun i hu => ?_,hp.vmas.apart.apart⟩
  obtain ⟨h1,h2,h3,_⟩ := hp.vmas.wellFormed i hu
  exact ⟨h1,h2,h3⟩

/-- In every run from a fresh address space whose calls respect the arena, the used records
are disjoint page-aligned intervals, and a further reservation that respects the arena
returns a range that overlaps no record. -/
theorem run_reservationsDisjoint (vm : TaskVm) (ph : Phys) (ops : List Op)
    (h : Admissible step RespectsArena ⟨vm.uvmInit,ph⟩ ops) :
    let s := run step ⟨vm.uvmInit,ph⟩ ops
    ReservationsDisjoint s.vm ∧
      ∀ addr bytes flags fixed, RespectsArena s (.reserve addr bytes flags fixed) →
        let base := (s.vm.uvmReserve s.phys addr bytes flags fixed).1
        base ≠ 0#64 → ∀ i, (s.vm.vmas i).used = true →
          base + bytes ≤ (s.vm.vmas i).start ∨ (s.vm.vmas i).stop ≤ base := by
  have hp : Placement (run step ⟨vm.uvmInit,ph⟩ ops).vm :=
    h.invariant (I := fun s => Placement s.vm) (fun s op hs hop => step_placement s op hs hop)
      (uvmInit_placement vm)
  generalize run step ⟨vm.uvmInit,ph⟩ ops = s at hp
  refine ⟨placement_reservationsDisjoint hp,?_⟩
  intro addr bytes flags fixed hr base hb i hu
  rcases uvmReserve_spec s.phys flags hp hr with he | ⟨_,hrec⟩
  · exact absurd (congrArg Prod.fst he) hb
  · change Recordable s.vm.vmas base bytes at hrec
    have hd := disjoint_left.mp (hrec.clear i)
    obtain ⟨_,_,h3,_⟩ := hp.vmas.wellFormed i hu
    have hpos := hrec.pos
    have hadd := hrec.noWrap
    simp only [BitVec.le_def]
    by_contra hc
    refine hd (a := max (s.vm.vmas i).start.toNat base.toNat) ⟨hu,?_,?_⟩ ⟨?_,?_⟩ <;> omega

def bareVm : TaskVm where
  userPml4 := some 0x200000#64
  brkBase := 0
  brkCurrent := 0
  shmemNextVa := 0
  mmapNextVa := 0
  mmapHoles := fun _ => VmHole.empty
  vmas := fun _ => UserVma.empty
  shmemSharedOut := 0

def barePhys : Phys where
  mem := fun _ _ => 0#64
  pmm := ⟨fun _ => 0xFF#8,0,0,pmmGeneralFirst,by decide⟩

theorem reserve_release_reserve_disjoint :
    ReservationsDisjoint (run step ⟨bareVm.uvmInit,barePhys⟩
      [.reserve 0 4096 7 false, .release 0x70000000 4096, .reserve 0 8192 7 false]).vm := by
  refine (run_reservationsDisjoint bareVm barePhys
    [.reserve 0 4096 7 false, .release 0x70000000 4096, .reserve 0 8192 7 false]
    ⟨?_,?_,?_,trivial⟩).1
  · exact fun h => absurd h (by decide)
  · exact fun _ _ => by decide +kernel
  · exact fun h => absurd h (by decide)

/-- Releasing the first page of the arena before anything was placed there puts it on the
free list while the bump pointer still covers it; two auto placements then return it. -/
theorem release_of_unplaced_page_overlaps :
    ¬ ReservationsDisjoint (run step ⟨bareVm.uvmInit,barePhys⟩
      [.release 0x70000000 4096, .reserve 0 4096 7 false, .reserve 0 4096 5 false]).vm := by
  intro h
  have := h.2 ⟨0,by decide⟩ ⟨1,by decide⟩ (by decide) (by decide +kernel) (by decide +kernel)
  revert this
  decide +kernel

end GaiaKernel.Uvm
