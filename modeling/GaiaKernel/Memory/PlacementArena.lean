import GaiaKernel.Memory.Placement

/-! # The free list and the bump pointer of the arena

`hole_add` coalesces a freed range with every hole it touches; `arena_alloc` cuts a range
off a hole or off the end of the arena.
-/
namespace GaiaKernel
open DisjointFamily Function Finset VmHole
open BitVec (toNat_add lt_def le_def)
variable {h : VmHole} {vm : TaskVm}
namespace TaskVm
variable {stop : U64} {i : Fin taskMmapHoles}

structure ArenaRange (next base stop : U64) : Prop where
  baseAligned : PageAligned base
  stopAligned : PageAligned stop
  low : userMmapBase.toNat ≤ base.toNat
  le : base.toNat ≤ stop.toNat
  high : stop.toNat ≤ next.toNat

variable {next base bytes : U64} {holes : Fin taskMmapHoles → VmHole}
section
variable (hw : h.base.toNat + h.len.toNat < 2 ^ 64)
include hw

theorem hole_end_toNat : (h.base + h.len).toNat = h.base.toNat + h.len.toNat := by
  rw [toNat_add]
  omega

theorem holeTouches_iff : holeTouches h base stop = true ↔
    h.len ≠ 0#64 ∧ base.toNat ≤ h.base.toNat + h.len.toNat ∧ h.base.toNat ≤ stop.toNat := by
  simp [holeTouches,lt_def,hole_end_toNat hw]

theorem merged_toNat (base stop : U64) :
    (if h.base < base then h.base else base).toNat = min h.base.toNat base.toNat ∧
      (if h.base + h.len > stop then h.base + h.len else stop).toNat =
        max (h.base.toNat + h.len.toNat) stop.toNat := by
  have he := hole_end_toNat hw
  constructor <;> split_ifs with hc <;> simp only [gt_iff_lt,lt_def] at hc <;> omega

theorem merged_region (ht : holeTouches h base stop = true) :
    Set.Ico (if h.base < base then h.base else base).toNat
        (if h.base + h.len > stop then h.base + h.len else stop).toNat =
      h.region ∪ Set.Ico base.toNat stop.toNat := by
  obtain ⟨_,h1,h2⟩ := (holeTouches_iff hw).mp ht
  obtain ⟨hlow,hhigh⟩ := merged_toNat hw base stop
  rw [hlow,hhigh,region,Set.Ico_union_Ico' h1 h2]

end

theorem VmHole.WellFormed.noWrap (hw : h.WellFormed next) :
    h.base.toNat + h.len.toNat < 2 ^ 64 := by
  by_cases hl : h.len = 0#64
  · rw [hl]
    exact h.base.isLt
  · exact (hw hl).2.2.2.trans_lt next.isLt

theorem region_span (hle : base.toNat ≤ stop.toNat) :
    (stop - base).toNat = stop.toNat - base.toNat ∧
      region ⟨base,stop - base⟩ = Set.Ico base.toNat stop.toNat := by
  have hsub : (stop - base).toNat = stop.toNat - base.toNat :=
    BitVec.toNat_sub_of_le (by rwa [le_def])
  refine ⟨hsub,?_⟩
  rw [region,hsub,Nat.add_sub_cancel' hle]

theorem disjoint_of_not_holeTouches (hw : h.WellFormed next)
    (ht : holeTouches h base stop = false) : Disjoint h.region (Set.Ico base.toNat stop.toNat) := by
  rw [Set.disjoint_left]
  rintro a ⟨ha1,ha2⟩ ⟨hb1,hb2⟩
  have hl : h.len ≠ 0#64 := by
    intro hl
    rw [hl] at ha2
    exact absurd ha1 (by simpa using ha2)
  rw [(holeTouches_iff (VmHole.WellFormed.noWrap hw)).mpr ⟨hl,by omega,by omega⟩] at ht
  cases ht

def nonemptyHoles (holes : Fin taskMmapHoles → VmHole) : Finset (Fin taskMmapHoles) :=
  Finset.univ.filter fun i => (holes i).len ≠ 0#64

theorem card_nonemptyHoles_update (hi : (holes i).len ≠ 0#64) :
    (nonemptyHoles (update holes i empty)).card < (nonemptyHoles holes).card := by
  refine card_lt_card ⟨fun j hj => ?_,fun hsub => ?_⟩
  · simp only [nonemptyHoles,mem_filter,mem_univ,true_and] at hj ⊢
    by_cases hji : j = i
    · subst hji; exact hi
    · rwa [update_of_ne hji] at hj
  · have hmem : i ∈ nonemptyHoles holes := by simp [nonemptyHoles,hi]
    have hnot := (Finset.mem_filter.mp (hsub hmem)).2
    rw [update_self] at hnot
    exact hnot rfl

theorem merged_arenaRange (hw : h.WellFormed next) (hr : ArenaRange next base stop)
    (ht : holeTouches h base stop = true) : ArenaRange next (if h.base < base then h.base else base)
      (if h.base + h.len > stop then h.base + h.len else stop) := by
  have hnoWrap := VmHole.WellFormed.noWrap hw
  have he := hole_end_toNat hnoWrap
  obtain ⟨hl,ht1,ht2⟩ := (holeTouches_iff hnoWrap).mp ht
  obtain ⟨hwa,hwl,hwlow,hwhigh⟩ := hw hl
  have hea : PageAligned (h.base + h.len) := by unfold PageAligned at *; omega
  obtain ⟨hra,hrs,hrlow,hrle,hrhigh⟩ := hr
  split_ifs with h1 h2 h2
  · exact ⟨hwa,hea,hwlow,by omega,by omega⟩
  · exact ⟨hwa,hrs,hwlow,by omega,hrhigh⟩
  · exact ⟨hra,hea,hrlow,by omega,by omega⟩
  · exact ⟨hra,hrs,hrlow,hrle,hrhigh⟩

theorem offered_update (holes : Fin taskMmapHoles → VmHole) (i : Fin taskMmapHoles) (x : VmHole) :
    offered (update holes i x) ∪ (holes i).region = offered holes ∪ x.region := by
  simp only [offered,comp_update]
  exact iUnion_update_union

/-- What each merge keeps holds at the end of the loop, and then no hole touches the range. -/
theorem holeMerge_rule {P : (Fin taskMmapHoles → VmHole) → U64 → U64 → Prop}
    (hstep : ∀ {holes base stop} i, P holes base stop → holeTouches (holes i) base stop = true →
      P (update holes i empty) (if (holes i).base < base then (holes i).base else base)
        (if (holes i).base + (holes i).len > stop then (holes i).base + (holes i).len else stop))
    {fuel : ℕ} (hP : P holes base stop) (hfuel : (nonemptyHoles holes).card < fuel) :
    let m := holeMerge fuel holes base stop
    P m.1 m.2.1 m.2.2 ∧ ∀ j, holeTouches (m.1 j) m.2.1 m.2.2 = false := by
  induction fuel generalizing holes base stop with
  | zero => omega
  | succ fuel ih =>
    unfold holeMerge
    cases hf : holeSlots.find? fun i => holeTouches (holes i) base stop with
    | none => exact ⟨hP,fun j => by simpa using List.find?_eq_none.mp hf j (mem_holeSlots j)⟩
    | some i =>
      have ht := List.find?_some hf
      have hl : (holes i).len ≠ 0#64 := by
        simp only [holeTouches,Bool.and_eq_true,bne_iff_ne] at ht; exact ht.1
      have := card_nonemptyHoles_update hl
      exact ih (hstep i hP ht) (by omega)

theorem card_nonemptyHoles_lt : (nonemptyHoles holes).card < taskMmapHoles + 1 := by
  have := card_le_univ (nonemptyHoles holes)
  simp only [Fintype.card_fin] at this
  omega

theorem ArenaRange.hole (h : ArenaRange next base stop) : WellFormed next ⟨base,stop - base⟩ := by
  intro _
  have hsub := (region_span h.le).1
  have h1 := h.baseAligned
  have h2 := h.stopAligned
  have h3 := h.high
  have h4 := h.le
  refine ⟨h.baseAligned,?_,h.low,?_⟩
  · unfold PageAligned at *; simp only [hsub]; omega
  · simp only [hsub]; omega

theorem holeAdd_spec (hh : HolesOk vm.mmapNextVa vm.mmapHoles)
    (hr : ArenaRange vm.mmapNextVa base (base + bytes)) :
    HolesOk vm.mmapNextVa (vm.holeAdd base bytes).mmapHoles ∧
      offered (vm.holeAdd base bytes).mmapHoles ⊆
        offered vm.mmapHoles ∪ Set.Ico base.toNat (base + bytes).toNat ∧
      vm.holeAdd base bytes = { vm with mmapHoles := (vm.holeAdd base bytes).mmapHoles } := by
  obtain ⟨⟨h1,h2,h4⟩,h3⟩ := holeMerge_rule (P := fun holes b s => HolesOk vm.mmapNextVa holes ∧
      ArenaRange vm.mmapNextVa b s ∧ offered holes ∪ Set.Ico b.toNat s.toNat =
        offered vm.mmapHoles ∪ Set.Ico base.toNat (base + bytes).toNat)
    (fun i ⟨hh,hr,hu⟩ ht => ⟨hh.update (wellFormed_empty _) (by simp),
      merged_arenaRange (hh.wellFormed i) hr ht,by
        rw [merged_region (VmHole.WellFormed.noWrap (hh.wellFormed i)) ht,← Set.union_assoc,
          offered_update,region_empty,Set.union_empty,hu]⟩) ⟨hh,hr,rfl⟩ card_nonemptyHoles_lt
  unfold holeAdd
  generalize holeMerge (taskMmapHoles + 1) vm.mmapHoles base (base + bytes) = m at h1 h2 h3 h4 ⊢
  simp only
  cases hf : holeSlots.find? fun i => (m.1 i).len == 0#64 with
  | none => exact ⟨h1,Set.subset_union_left.trans h4.le,rfl⟩
  | some i =>
    have hreg := (region_span h2.le).2
    refine ⟨h1.update h2.hole fun j _ => ?_,?_,rfl⟩
    · rw [hreg]; exact (disjoint_of_not_holeTouches (h1.wellFormed j) (h3 j)).symm
    · refine Set.Subset.trans ?_ h4.le
      simp only [offered,comp_update,hreg]
      exact iUnion_update_subset_union

/-! ## Taking a range from the arena -/

theorem VmHole.WellFormed.mono {next next' : U64} (hw : h.WellFormed next)
    (hle : next.toNat ≤ next'.toNat) : h.WellFormed next' := fun hl =>
  ⟨(hw hl).1,(hw hl).2.1,(hw hl).2.2.1,(hw hl).2.2.2.trans hle⟩

/-- What an auto placement takes: a page-aligned range the arena had free, and that it no
longer has free afterwards. -/
structure ArenaTaken (vm vm' : TaskVm) (base bytes : U64) : Prop where
  holes : HolesOk vm'.mmapNextVa vm'.mmapHoles
  bumpAligned : PageAligned vm'.mmapNextVa
  bumpLow : userMmapBase.toNat ≤ vm'.mmapNextVa.toNat
  bumpHigh : vm'.mmapNextVa.toNat ≤ userMmapLimit.toNat
  sameVmas : vm'.vmas = vm.vmas
  baseAligned : PageAligned base
  low : userMmapBase.toNat ≤ base.toNat
  noWrap : (base + bytes).toNat = base.toNat + bytes.toNat
  high : (base + bytes).toNat ≤ userMmapLimit.toNat
  taken : Set.Ico base.toNat (base + bytes).toNat ⊆ arenaFree vm
  left : arenaFree vm' ⊆ arenaFree vm \ Set.Ico base.toNat (base + bytes).toNat

section
variable {i : Fin taskMmapHoles} (hw : (holes i).base.toNat + (holes i).len.toNat < 2 ^ 64)
  (hfit : bytes.toNat ≤ (holes i).len.toNat)
include hw hfit

theorem hole_take : ((holes i).base + bytes).toNat = (holes i).base.toNat + bytes.toNat ∧
    ((holes i).len - bytes).toNat = (holes i).len.toNat - bytes.toNat := by
  refine ⟨?_,BitVec.toNat_sub_of_le (by rwa [le_def])⟩
  rw [toNat_add]
  omega

theorem taken_subset :
    Set.Ico (holes i).base.toNat ((holes i).base + bytes).toNat ⊆ (holes i).region := by
  rw [(hole_take hw hfit).1]
  exact Set.Ico_subset_Ico_right (by omega)

theorem region_take : region ⟨(holes i).base + bytes,(holes i).len - bytes⟩ =
    (holes i).region \ Set.Ico (holes i).base.toNat ((holes i).base + bytes).toNat := by
  obtain ⟨hadd,hsub⟩ := hole_take hw hfit
  ext a
  simp only [region,hadd,hsub,Set.mem_sdiff,Set.mem_Ico]
  omega

theorem offered_take (hd : Pairwise (onFun Disjoint (region ∘ holes))) :
    offered (update holes i ⟨(holes i).base + bytes,(holes i).len - bytes⟩) =
      offered holes \ Set.Ico (holes i).base.toNat ((holes i).base + bytes).toNat := by
  simp only [offered,comp_update,region_take hw hfit]
  exact iUnion_update_sdiff hd (taken_subset hw hfit)

end

theorem rest_wellFormed (hw : (holes i).WellFormed next)
    (hb : PageAligned bytes) (hl : (holes i).len ≠ 0#64) (hfit : bytes.toNat ≤ (holes i).len.toNat) :
    WellFormed next ⟨(holes i).base + bytes,(holes i).len - bytes⟩ := by
  obtain ⟨hadd,hsub⟩ := hole_take (VmHole.WellFormed.noWrap hw) hfit
  obtain ⟨hwa,hwl,hwlow,hwhigh⟩ := hw hl
  intro _
  unfold PageAligned at *
  simp only [hadd,hsub]
  omega

/-- The bump pointer can serve an allocation: it neither wraps nor leaves the arena. -/
def BumpFits (vm : TaskVm) (bytes : U64) : Prop :=
  vm.mmapNextVa.toNat + bytes.toNat ≤ userMmapLimit.toNat

/-- Some hole of the list can serve an allocation. -/
def HoleFits (vm : TaskVm) (bytes : U64) : Prop :=
  ∃ i, (vm.mmapHoles i).len ≠ 0#64 ∧ bytes.toNat ≤ (vm.mmapHoles i).len.toNat

theorem bumpFits_iff : BumpFits vm bytes ↔ ¬ (vm.mmapNextVa + bytes < vm.mmapNextVa ∨
    vm.mmapNextVa + bytes > userMmapLimit) := by
  have hlim : userMmapLimit.toNat < 2 ^ 64 := userMmapLimit.isLt
  have h1 := vm.mmapNextVa.isLt
  have h2 := bytes.isLt
  simp only [BumpFits,not_or,lt_def,gt_iff_lt,not_lt,toNat_add]
  omega

theorem BumpFits.toNat_add (h : BumpFits vm bytes) :
    (vm.mmapNextVa + bytes).toNat = vm.mmapNextVa.toNat + bytes.toNat := by
  have hlim : userMmapLimit.toNat < 2 ^ 64 := userMmapLimit.isLt
  unfold BumpFits at h
  rw [BitVec.toNat_add]
  omega

theorem arenaAlloc_cases (vm : TaskVm) (bytes : U64) :
    (¬ HoleFits vm bytes ∧ ¬ BumpFits vm bytes) ∧ vm.arenaAlloc bytes = (0#64, vm) ∨
    (∃ i, (vm.mmapHoles i).len ≠ 0#64 ∧ bytes.toNat ≤ (vm.mmapHoles i).len.toNat ∧
      let rest := ⟨(vm.mmapHoles i).base + bytes,(vm.mmapHoles i).len - bytes⟩
      vm.arenaAlloc bytes =
        ((vm.mmapHoles i).base, { vm with mmapHoles := update vm.mmapHoles i rest })) ∨
    (¬ HoleFits vm bytes ∧ BumpFits vm bytes) ∧
      vm.arenaAlloc bytes = (vm.mmapNextVa, { vm with mmapNextVa := vm.mmapNextVa + bytes }) := by
  unfold arenaAlloc
  cases hf : holeSlots.find? fun i =>
      !((vm.mmapHoles i).len == 0#64 || decide ((vm.mmapHoles i).len < bytes)) with
  | some i =>
    have ht := List.find?_some hf
    simp only [Bool.not_eq_true',Bool.or_eq_false_iff,beq_eq_false_iff_ne,
      decide_eq_false_iff_not,lt_def,not_lt] at ht
    exact .inr (.inl ⟨i,ht.1,ht.2,rfl⟩)
  | none =>
    have hnone : ¬ HoleFits vm bytes := by
      rintro ⟨i,hl,hfit⟩
      have ht := List.find?_eq_none.mp hf i (List.mem_finRange i)
      simp only [Bool.not_eq_true',Bool.not_eq_false,Bool.or_eq_true,beq_iff_eq,decide_eq_true_eq,
        lt_def] at ht
      exact ht.elim hl (not_lt.mpr hfit)
    dsimp only
    split_ifs with hc
    · exact .inl ⟨⟨hnone,fun h => bumpFits_iff.mp h hc⟩,rfl⟩
    · exact .inr (.inr ⟨⟨hnone,bumpFits_iff.mpr hc⟩,rfl⟩)

section
variable (hp : Placement vm) (hb : PageAligned bytes)
include hp hb

theorem arenaAlloc_hole (hl : (vm.mmapHoles i).len ≠ 0#64)
    (hfit : bytes.toNat ≤ (vm.mmapHoles i).len.toNat) :
    let rest : VmHole := ⟨(vm.mmapHoles i).base + bytes,(vm.mmapHoles i).len - bytes⟩
    ArenaTaken vm { vm with mmapHoles := update vm.mmapHoles i rest }
      (vm.mmapHoles i).base bytes := by
  intro rest
  have hw := VmHole.WellFormed.noWrap (hp.holes.wellFormed i)
  have hadd := (hole_take hw hfit).1
  obtain ⟨hwa,_,hwlow,hwhigh⟩ := hp.holes.wellFormed i hl
  have hbump := hp.bumpHigh
  have hfree : (vm.mmapHoles i).region ⊆ arenaFree vm :=
    (Set.subset_iUnion (region ∘ vm.mmapHoles) i).trans Set.subset_union_left
  refine ⟨hp.holes.update (rest_wellFormed (hp.holes.wellFormed i) hb hl hfit) fun j hj => ?_,
    hp.bumpAligned,hp.bumpLow,hp.bumpHigh,rfl,hwa,hwlow,hadd,by omega,
    (taken_subset hw hfit).trans hfree,?_⟩
  · rw [region_take hw hfit]
    exact (hp.holes.disjoint hj.symm).mono_left Set.sdiff_subset
  · rintro a (ha | ha)
    · rw [offered_take hw hfit hp.holes.disjoint] at ha
      exact ⟨.inl ha.1,ha.2⟩
    · refine ⟨.inr ha,fun hc => ?_⟩
      have := ha.1
      have := hc.2
      simp only at *
      omega

theorem arenaAlloc_bump (hadd : (vm.mmapNextVa + bytes).toNat = vm.mmapNextVa.toNat + bytes.toNat)
    (hlim : (vm.mmapNextVa + bytes).toNat ≤ userMmapLimit.toNat) :
    ArenaTaken vm { vm with mmapNextVa := vm.mmapNextVa + bytes } vm.mmapNextVa bytes := by
  have hlow := hp.bumpLow
  refine ⟨⟨fun i => VmHole.WellFormed.mono (hp.holes.wellFormed i)
      (by dsimp only; omega),hp.holes.disjoint⟩,
    ?_,by simp only; omega,hlim,rfl,hp.bumpAligned,hlow,hadd,hlim,?_,?_⟩
  · have := hp.bumpAligned
    unfold PageAligned at *; simp only [hadd]; omega
  · exact fun a ⟨ha1,ha2⟩ => .inr ⟨ha1,by omega⟩
  · rintro a (ha | ha)
    · refine ⟨.inl ha,fun hc => ?_⟩
      obtain ⟨j,ha⟩ := Set.mem_iUnion.mp ha
      have hl : (vm.mmapHoles j).len ≠ 0#64 := by
        intro hz
        simp [region_of_len_zero hz] at ha
      have := (hp.holes.wellFormed j hl).2.2.2
      have := ha.2
      have := hc.1
      dsimp only at *
      omega
    · have := ha.1
      simp only at this
      refine ⟨.inr ⟨by omega,ha.2⟩,fun hc => ?_⟩
      have := hc.2
      omega

theorem arenaAlloc_spec : (vm.arenaAlloc bytes = (0#64, vm)) ∨
      ArenaTaken vm (vm.arenaAlloc bytes).2 (vm.arenaAlloc bytes).1 bytes := by
  rcases vm.arenaAlloc_cases bytes with ⟨-,heq⟩ | ⟨i,hl,hfit,heq⟩ | ⟨⟨-,hfits⟩,heq⟩
  · exact .inl heq
  · rw [heq]
    exact .inr (arenaAlloc_hole hp hb hl hfit)
  · rw [heq]
    exact .inr (arenaAlloc_bump hp hb hfits.toNat_add (hfits.toNat_add.trans_le hfits))

end

/-! ## The free list as a set of addresses -/

/-- The holes are ranges of addresses with a gap between any two of them. -/
structure Spread (holes : Fin taskMmapHoles → VmHole) : Prop where
  noWrap : ∀ i, (holes i).base.toNat + (holes i).len.toNat < 2 ^ 64
  gap : ∀ {i j}, i ≠ j → (holes i).len ≠ 0#64 → (holes j).len ≠ 0#64 →
    (holes i).base.toNat + (holes i).len.toNat < (holes j).base.toNat ∨
      (holes j).base.toNat + (holes j).len.toNat < (holes i).base.toNat

theorem Spread.disjoint (hs : Spread holes) : Pairwise (onFun Disjoint (region ∘ holes)) := by
  intro i j hij
  simp only [onFun,comp_apply]
  by_cases hi : (holes i).len = 0#64
  · simp [region_of_len_zero hi]
  by_cases hj : (holes j).len = 0#64
  · simp [region_of_len_zero hj]
  rw [Set.disjoint_left]
  rintro a ⟨ha1,ha2⟩ ⟨hb1,hb2⟩
  have := hs.gap hij hi hj
  omega

theorem Spread.update (hs : Spread holes) {x : VmHole}
    (hx : x.base.toNat + x.len.toNat < 2 ^ 64) (hgap : ∀ j, (holes j).len ≠ 0#64 → x.len ≠ 0#64 →
      (holes j).base.toNat + (holes j).len.toNat < x.base.toNat ∨
        x.base.toNat + x.len.toNat < (holes j).base.toNat) : Spread (Function.update holes i x) := by
  refine ⟨forall_update (Q := fun h : VmHole => h.base.toNat + h.len.toNat < 2 ^ 64) hs.noWrap hx,
    fun {j k} hjk => ?_⟩
  rw [update_apply,update_apply]
  split_ifs with hj hk hk
  · exact absurd (hj.trans hk.symm) hjk
  · exact fun hx hl => (hgap k hl hx).symm
  · exact hgap j
  · exact hs.gap hjk

/-- An allocation takes exactly what it returns from the list; if no hole is large enough, it
advances the bump pointer, and fails only if that would wrap or leave the arena. -/
def TakesExactly (vm : TaskVm) (bytes : U64) : Prop :=
  let r := vm.arenaAlloc bytes
  (HoleFits vm bytes → Set.Ico r.1.toNat (r.1.toNat + bytes.toNat) ⊆ offered vm.mmapHoles ∧
      offered r.2.mmapHoles =
        offered vm.mmapHoles \ Set.Ico r.1.toNat (r.1.toNat + bytes.toNat)) ∧
    (¬ HoleFits vm bytes → BumpFits vm bytes →
      r = (vm.mmapNextVa, { vm with mmapNextVa := vm.mmapNextVa + bytes })) ∧
    (¬ HoleFits vm bytes → ¬ BumpFits vm bytes → r = (0#64, vm))

theorem Spread.takesExactly (hs : Spread vm.mmapHoles) (bytes : U64) : TakesExactly vm bytes := by
  unfold TakesExactly
  rcases vm.arenaAlloc_cases bytes with ⟨⟨hno,hbump⟩,heq⟩ | ⟨i,hl,hfit,heq⟩ | ⟨⟨hno,hbump⟩,heq⟩
  · exact ⟨fun h => absurd h hno,fun _ h => absurd h hbump,fun _ _ => heq⟩
  · have hyes : HoleFits vm bytes := ⟨i,hl,hfit⟩
    refine ⟨fun _ => ?_,fun h => absurd hyes h,fun h => absurd hyes h⟩
    rw [heq]
    dsimp only
    rw [← (hole_take (hs.noWrap i) hfit).1]
    exact ⟨(taken_subset (hs.noWrap i) hfit).trans
      (Set.subset_iUnion (region ∘ vm.mmapHoles) i),offered_take (hs.noWrap i) hfit hs.disjoint⟩
  · exact ⟨fun h => absurd h hno,fun _ _ => heq,fun _ h => absurd hbump h⟩

/-- `hole_add` comes to an end; either it adds the range to the list, or it finds no slot for
it. -/
theorem hole_list_exact (hs : Spread vm.mmapHoles) (hr : base.toNat + bytes.toNat < 2 ^ 64) :
    let m := holeMerge (taskMmapHoles + 1) vm.mmapHoles base (base + bytes)
    let vm' := vm.holeAdd base bytes
    (∀ j, holeTouches (m.1 j) m.2.1 m.2.2 = false) ∧
      (Spread vm'.mmapHoles ∧ offered vm'.mmapHoles =
          offered vm.mmapHoles ∪ Set.Ico base.toNat (base.toNat + bytes.toNat) ∨
        (∀ j, (vm.mmapHoles j).len ≠ 0#64 ∧
          holeTouches (vm.mmapHoles j) base (base + bytes) = false) ∧ vm' = vm) ∧
      ∀ n, TakesExactly vm' n := by
  have hstop : (base + bytes).toNat = base.toNat + bytes.toNat := by
    rw [BitVec.toNat_add]
    omega
  have hrule := holeMerge_rule (P := fun holes b s => Spread holes ∧
      b.toNat ≤ s.toNat ∧ offered holes ∪ Set.Ico b.toNat s.toNat =
        offered vm.mmapHoles ∪ Set.Ico base.toNat (base.toNat + bytes.toNat) ∧
      ((∃ i, (holes i).len = 0#64) ∨ holes = vm.mmapHoles ∧ b = base ∧ s = base + bytes))
    (fun {holes b s} i ⟨hs,hle,hu,_⟩ ht => by
      refine ⟨hs.update (by simp [empty]) fun _ _ hx => absurd rfl hx,?_,?_,.inl ⟨i,by simp [empty]⟩⟩
      · obtain ⟨hlow,hhigh⟩ := merged_toNat (hs.noWrap i) b s
        omega
      · rw [merged_region (hs.noWrap i) ht,← Set.union_assoc,offered_update,region_empty,
          Set.union_empty,hu])
    ⟨hs,by omega,by rw [hstop],.inr ⟨rfl,rfl,rfl⟩⟩ card_nonemptyHoles_lt
  unfold holeAdd
  generalize holeMerge (taskMmapHoles + 1) vm.mmapHoles base (base + bytes) = m at hrule ⊢
  obtain ⟨⟨h1,hle,hu,hold⟩,hend⟩ := hrule
  dsimp only
  cases hf : holeSlots.find? fun i => (m.1 i).len == 0#64 with
  | some i =>
    obtain ⟨hsub,hreg⟩ := region_span hle
    have hspread : Spread (update m.1 i ⟨m.2.1,m.2.2 - m.2.1⟩) := by
      refine h1.update (by dsimp only; omega) fun j hj _ => ?_
      by_contra hc
      dsimp only at hc
      exact Bool.eq_false_iff.mp (hend j)
        ((holeTouches_iff (h1.noWrap j)).mpr ⟨hj,by omega,by omega⟩)
    refine ⟨hend,.inl ⟨hspread,?_⟩,hspread.takesExactly⟩
    have hnew := offered_update m.1 i ⟨m.2.1,m.2.2 - m.2.1⟩
    rw [region_of_len_zero (by simpa using List.find?_some hf),Set.union_empty,hreg,hu] at hnew
    exact hnew
  | none =>
    have hfull : ∀ j, (m.1 j).len ≠ 0#64 := fun j => by
      simpa using List.find?_eq_none.mp hf j (mem_holeSlots j)
    -- A merge would have left an empty slot.
    obtain ⟨i,hi⟩ | ⟨hh,hb,hs'⟩ := hold
    · exact absurd hi (hfull i)
    · rw [hh,hb,hs'] at hend
      rw [hh] at hfull ⊢
      exact ⟨by rwa [hb,hs'],.inr ⟨fun j => ⟨hfull j,hend j⟩,rfl⟩,hs.takesExactly⟩

/-- Two holes of one page, and two pages between them. -/
def gapped : TaskVm where
  userPml4 := none
  brkBase := 0#64
  brkCurrent := 0#64
  shmemNextVa := 0#64
  mmapNextVa := userMmapBase + 0x4000#64
  mmapHoles i :=
    if i.val = 0 then ⟨userMmapBase,0x1000#64⟩
    else if i.val = 1 then ⟨userMmapBase + 0x3000#64,0x1000#64⟩
    else empty
  vmas _ := UserVma.empty
  shmemSharedOut := 0

theorem spread_gapped : Spread gapped.mmapHoles := ⟨by decide +kernel,by decide +kernel⟩

/-- The two pages come back: they and both holes become one of four pages. -/
theorem hole_list_exact_gapped :
    let vm' := gapped.holeAdd (userMmapBase + 0x1000#64) 0x2000#64
    (holeSlots.map vm'.mmapHoles).filter (·.len ≠ 0#64) = [⟨userMmapBase,0x4000#64⟩] ∧
      ∀ n, TakesExactly vm' n :=
  ⟨by decide +kernel,(hole_list_exact spread_gapped (by decide)).2.2⟩

end TaskVm

end GaiaKernel
