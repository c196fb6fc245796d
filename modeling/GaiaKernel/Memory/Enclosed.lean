import GaiaKernel.Memory.Protection

/-! # What an operation on one space leaves alone

Seen from one address space, a frame that is allocated but not owned belongs to somebody else.
`Enclosed` says that an operation creates and destroys no such frame and writes none of them:
nothing leaks, nothing foreign is freed, and the tables of everybody else stay as they are. Unlike
`FrameSafe` it asks nothing about borrowed frames.
-/
namespace GaiaKernel
variable {lowPd r t pt f va flags e : U64} {ph ph' ph'' : Phys} {own own' own'' : Owner}
  {p q : Path} {i : BitVec 9} {x : Set U64} {pages : Path → Prop}

theorem Tables.ancestor (h : Tables lowPd ph own) (ho : own t = some (r, q))
    (hs : (i :: p) <:+ q) : ∃ t', own t' = some (r, p) ∧ has (ph.mem t' i) vmmPresent = true := by
  induction q generalizing t with
  | nil => simp at hs
  | cons j q ih =>
    obtain ⟨_,_,t',ho',hpres,_⟩ := h.parent ho
    rcases List.suffix_cons_iff.mp hs with heq | hs
    · cases heq
      exact ⟨t',ho',hpres⟩
    · exact ih ho' hs

theorem UserPath.of_mem (hup : UserPath ph own r q)
    (hmem : ∀ t p, own t = some (r, p) → ph'.mem t = ph.mem t) : UserPath ph' own r q := by
  intro t i p ho hs
  rw [hmem t p ho]
  exact hup t i p ho hs

theorem UserPath.writeLeaf (ho : own pt = some (r, p)) (hp : p.length = 3)
    (hq : q.length ≤ 3) (hup : UserPath ph own r q) :
    UserPath (ph.write pt i e) (setPage own r (i :: p) (leafPage e)) r q := by
  intro t j p' ht hs
  have hlen := hs.length_le
  simp only [List.length_cons] at hlen
  rcases setPage_cases ht with ⟨_,hn⟩ | ⟨ht,_⟩
  · exact absurd hn (ne_path_of_length hp (by omega))
  · have htp : t ≠ pt := by
      rintro rfl
      cases ht.symm.trans ho
      omega
    simpa [Phys.write,htp] using hup t j p' ht hs

structure Foreign (ph : Phys) (own : Owner) (g : U64) : Prop where
  frame : IsFrame g
  taken : Taken ph.pmm g
  owner : own g = none

/-- Everything outside the space `r` is as it was, except perhaps the frames of `x`. -/
structure Enclosed (lowPd : U64) (x : Set U64) (ph : Phys) (own : Owner) (r : U64) (ph' : Phys)
    (own' : Owner) : Prop where
  tables : Tables lowPd ph' own'
  roots : SameRoots own own'
  low : SameLow lowPd ph own ph' own'
  frames : ph'.pmm.bitmapFrames = ph.pmm.bitmapFrames
  foreign : ∀ g, g ∉ x → (Foreign ph' own' g ↔ Foreign ph own g)
  mem : ∀ g, g ∉ x → Foreign ph own g → ph'.mem g = ph.mem g
  upper : ∀ i, 256 ≤ i.toNat → ph'.mem r i = ph.mem r i
  lowWay : LowLink lowPd ph own r → UserPath ph own r [0#9, 0#9] → UserPath ph' own' r [0#9, 0#9]

namespace Enclosed

theorem refl (h : Tables lowPd ph own) : Enclosed lowPd x ph own r ph own :=
  ⟨h,fun _ => Iff.rfl,SameLow.refl lowPd ph own,rfl,fun _ _ => Iff.rfl,fun _ _ _ => rfl,
    fun _ _ => rfl,fun _ hu => hu⟩

theorem trans (h : Enclosed lowPd x ph own r ph' own') (h' : Enclosed lowPd x ph' own' r ph'' own'') :
    Enclosed lowPd x ph own r ph'' own'' where
  tables := h'.tables
  roots y := (h'.roots y).trans (h.roots y)
  low := SameLow.trans h.roots h.low h'.low
  frames := h'.frames.trans h.frames
  foreign g hg := (h'.foreign g hg).trans (h.foreign g hg)
  mem g hg hf := (h'.mem g hg ((h.foreign g hg).mpr hf)).trans (h.mem g hg hf)
  upper i hi := (h'.upper i hi).trans (h.upper i hi)
  lowWay hl hu := h'.lowWay ((h.low.link r).mpr hl) (h.lowWay hl hu)

theorem close (h : Enclosed lowPd {f} ph own r ph' own') (hf : ¬ Foreign ph own f)
    (hf' : ¬ Foreign ph' own' f) : Enclosed lowPd ∅ ph own r ph' own' := by
  refine ⟨h.tables,h.roots,h.low,h.frames,fun g _ => ?_,fun g _ hg => ?_,h.upper,h.lowWay⟩
  · by_cases hgf : g = f
    · subst hgf
      exact ⟨fun hc => absurd hc hf',fun hc => absurd hc hf⟩
    · exact h.foreign g hgf
  · refine h.mem g ?_ hg
    rintro rfl
    exact hf hg

end Enclosed

section
variable (h : Tables lowPd ph own)
include h

theorem Walked.enclosed (hr : own r = some (r, []))
    (hw : Walked lowPd ph own r ph' own') : Enclosed lowPd x ph own r ph' own' := by
  refine ⟨hw.tables,hw.sameRoots,hw.sameLow hw.tables,hw.frames,fun g _ => ⟨?_,?_⟩,
    fun g _ hg => ?_,fun i hi => ?_,fun hl hu => hw.userPath h hu fun i p hs => ?_⟩
  · rintro ⟨h1,h2,h3⟩
    refine ⟨h1,?_,hw.none_of_none h3⟩
    exact (hw.alloc h1 h2).resolve_right fun hc => hc h3
  · rintro ⟨h1,h2,h3⟩
    exact ⟨h1,hw.taken h2,hw.owner_none h2 h3⟩
  · exact hw.other (hw.owner_none hg.taken hg.owner)
  · rcases hw.slot (j := i) (h.taken hr) with he | ⟨p,ho,_,hi'⟩
    · exact he
    · cases hr.symm.trans ho
      have := hi' rfl
      omega
  · obtain ⟨t,ho,hpres,_⟩ := hl
    rcases List.suffix_cons_iff.mp hs with heq | hs
    · cases heq
      exact ⟨t,ho,hpres⟩
    · exact h.ancestor ho hs

theorem Tables.enclosed_writeLeaf (ho : own pt = some (r, p))
    (hp : p.length = 3) (he : Placeable lowPd ph own r (i :: p) e)
    (hx : ∀ g, g ∉ x → (own g = some (r, i :: p) ↔ leafPage e = some g)) :
    Enclosed lowPd x ph own r (ph.write pt i e) (setPage own r (i :: p) (leafPage e)) := by
  have hmem : ∀ t, t ≠ pt → (ph.write pt i e).mem t = ph.mem t := by
    intro t ht
    simp [Phys.write,ht]
  refine ⟨h.writeLeaf ho hp he,setPage_sameRoots (by simp) fun g hg => (he g hg).2.2,
    h.sameLow_writeLeaf ho hp he,rfl,fun g hg => ?_,fun g _ hg => hmem g ?_,fun j _ => ?_,
    fun _ hu => hu.writeLeaf ho hp (by simp)⟩
  · have hown : setPage own r (i :: p) (leafPage e) g = none ↔ own g = none := by
      unfold setPage
      by_cases hc : leafPage e = some g
      · rw [if_pos hc,(hx g hg).mpr hc]
      · rw [if_neg hc,if_neg (fun h => hc ((hx g hg).mp h))]
    constructor
    · rintro ⟨h1,h2,h3⟩
      exact ⟨h1,h2,hown.mp h3⟩
    · rintro ⟨h1,h2,h3⟩
      exact ⟨h1,h2,hown.mpr h3⟩
  · rintro rfl
    have := hg.owner
    rw [ho] at this
    cases this
  · rw [hmem r]
    rintro rfl
    have := h.root ho
    rw [ho] at this
    cases this
    simp at hp

theorem Tables.enclosed_freeFrame (hf : IsFrame f) (ho : own f = none)
    (hl : f ≠ lowPd) : Enclosed lowPd {f} ph own r (ph.freeFrame f) own := by
  refine ⟨h.freeFrame hf ho hl,fun _ => Iff.rfl,SameLow.of_mem fun _ _ => rfl,
    Pmm.bitmapFrames_pmmFreeFrame ..,fun g hg => ⟨?_,?_⟩,fun _ _ _ => rfl,fun _ _ => rfl,
    fun _ hu => hu⟩
  · exact fun ⟨h1,h2,h3⟩ => ⟨h1,(taken_freeFrame.mp h2).1,h3⟩
  · exact fun ⟨h1,h2,h3⟩ => ⟨h1,taken_freeFrame.mpr ⟨h2,fun hc => hg (h1.ext hf hc)⟩,h3⟩

end

theorem not_foreign_freeFrame : ¬ Foreign (ph.freeFrame f) own f :=
  fun h => (taken_freeFrame.mp h.taken).2 rfl

theorem Tables.enclosed_allocZero (h : Tables lowPd ph own) (hr : own r = some (r, []))
    (hf : Fresh ph f ph') : Enclosed lowPd {f} ph own r (ph'.zeroFrame f) own := by
  have hmem : ∀ t, t ≠ f → (ph'.zeroFrame f).mem t = ph.mem t := by
    intro t ht
    simp [Phys.zeroFrame,ht,hf.mem]
  refine ⟨?_,fun _ => Iff.rfl,SameLow.of_mem fun t ht => h.mem_zeroFrame hf ht,hf.frames,
    fun g hg => ⟨?_,?_⟩,fun g hg _ => hmem g hg,fun _ _ => ?_,fun _ hu => hu.of_mem fun t p ho => ?_⟩
  · refine h.congr (fun t i ht => ?_) fun g _ hg => hf.taken hg
    rw [h.mem_zeroFrame hf ht]
    exact SameShape.refl _
  · rintro ⟨h1,h2,h3⟩
    exact ⟨h1,(hf.taken_cases h1 h2).resolve_right hg,h3⟩
  · rintro ⟨h1,h2,h3⟩
    exact ⟨h1,hf.taken h2,h3⟩
  · rw [h.mem_zeroFrame hf (.inl (by simp [hr]))]
  · exact h.mem_zeroFrame hf (.inl (by simp [ho]))

/-- A user leaf can be reached from user mode: the way to it is open. -/
def Paved (ph : Phys) (own : Owner) (r : U64) : Prop :=
  ∀ q e, LeafAt ph own r q e → has e vmmUser = true → UserPath ph own r q.tail

theorem Paved.walked (h : Tables lowPd ph own) (hw : Walked lowPd ph own r ph' own')
    (hpv : Paved ph own r) : Paved ph' own' r := by
  intro q e hl hu
  have hl0 := (hw.leafAt_iff r q e).mp hl
  refine hw.userPath h (hpv q e hl0 hu) fun i p hs => ?_
  obtain ⟨pt,j,q',rfl,_,ho,_⟩ := hl0
  exact h.ancestor ho hs

theorem Paved.of_mem (hpv : Paved ph own r) (hmem : ∀ t n, own t = some n → ph'.mem t = ph.mem t) :
    Paved ph' own r := by
  intro q e hl hu
  have hl0 := (leafAt_congr (fun t r' p ho _ => hmem t (r', p) ho) r q e).mp hl
  exact (hpv q e hl0 hu).of_mem fun t p ho => hmem t (r, p) ho

theorem Paved.writeLeaf (h : Tables lowPd ph own) (hpv : Paved ph own r)
    (ho : own pt = some (r, p)) (hp : p.length = 3) (he : Placeable lowPd ph own r (i :: p) e)
    (hu : has e vmmUser = true → UserPath ph own r p) :
    Paved (ph.write pt i e) (setPage own r (i :: p) (leafPage e)) r := by
  intro q e' hl hue
  have hlen := hl.length
  refine UserPath.writeLeaf ho hp (by simp [hlen]) ?_
  have hl' := (h.leafAt_writeLeaf ho hp he r q e').mp hl
  split_ifs at hl' with hc
  · obtain ⟨rfl,_⟩ := hl'
    rw [hc.2]
    exact hu hue
  · exact hpv q e' hl' hue

/-! ## Mapping -/

theorem Tables.vmmMapIn_cases (h : Tables lowPd ph own) (hr : own r = some (r, []))
    (hva : LowerHalf va) (phys flags : U64) : ∃ ph1 own1, Walked lowPd ph own r ph1 own1 ∧
      (ph.vmmMapIn r va phys flags = (false, ph1) ∨ ∃ pt, own1 pt = some (r, tablePath va) ∧
          (has flags vmmUser = true → UserPath ph1 own1 r (tablePath va)) ∧
          ph.vmmMapIn r va phys flags =
            (true, ph1.write pt (ptIndex va) (leafEntry phys flags))) := by
  unfold Phys.vmmMapIn
  by_cases hhigh : has phys 0xFFFF800000000000#64 = true
  · rw [if_pos hhigh]
    exact ⟨ph,own,h.walked,.inl rfl⟩
  rw [if_neg hhigh]
  obtain ⟨own1,hw,hpt⟩ := walkOrCreate_walked h hr hva.pml4Index flags
  generalize ph.walkOrCreate r va flags = w at hw hpt
  obtain ⟨pt,ph1⟩ := w
  cases pt with
  | none => exact ⟨ph1,own1,hw,.inl rfl⟩
  | some pt =>
    obtain ⟨ho,hup⟩ := hpt pt rfl
    exact ⟨ph1,own1,hw,.inr ⟨pt,ho,hup,rfl⟩⟩

def NoPage (own : Owner) (r va : U64) : Prop := ∀ g, own g ≠ some (r, pagePath va)

theorem NoPage.walked (hn : NoPage own r va) (hw : Walked lowPd ph own r ph' own') :
    NoPage own' r va := by
  intro g hg
  rcases hw.new hg with hg | ⟨_,_,hl,_⟩
  · exact hn g hg
  · simp [pagePath,tablePath] at hl

theorem leafPage_leafEntry_shared {phys : U64} (hs : has flags vmmShared = true) :
    leafPage (leafEntry phys flags) = none := by
  have : has (leafEntry phys flags) vmmShared = true := by
    rw [has_leafEntry (by decide)]
    exact hs
  simp [leafPage,this]

theorem leafPage_leafEntry {phys : U64} (hf : IsFrame phys) (hfl : PlainFlags flags) :
    leafPage (leafEntry phys flags) = some phys := by
  have h1 : has (leafEntry phys flags) vmmShared = false := by
    rw [has_leafEntry (by decide)]
    exact hfl.2
  simp only [leafPage,has_leafEntry_present,h1,Bool.not_false,Bool.and_self,if_true,
    tableOf_leafEntry hfl.1]
  rw [hf]

theorem Tables.enclosed_mapShared (h : Tables lowPd ph own) (hr : own r = some (r, []))
    (hva : LowerHalf va) (hn : NoPage own r va) (phys : U64) (hs : has flags vmmShared = true) :
    ∃ own', Enclosed lowPd ∅ ph own r (ph.vmmMapIn r va phys flags).2 own' := by
  obtain ⟨ph1,own1,hw,hres | ⟨pt,ho,_,hres⟩⟩ := h.vmmMapIn_cases hr hva phys flags
  · rw [hres]
    exact ⟨own1,hw.enclosed h hr⟩
  · rw [hres]
    have hnone : leafPage (leafEntry phys flags) = none := leafPage_leafEntry_shared hs
    have hpl : Placeable lowPd ph1 own1 r (pagePath va) (leafEntry phys flags) := by
      intro g hg
      rw [hnone] at hg
      cases hg
    have hwrite := hw.tables.enclosed_writeLeaf (x := ∅) (i := ptIndex va) ho rfl hpl fun g _ => by
      rw [hnone]
      exact ⟨fun hc => absurd hc (hn.walked hw g),fun hc => by cases hc⟩
    exact ⟨_,(hw.enclosed h hr).trans hwrite⟩

/-- Owners, leaves and ways after an attempt to map a fresh frame. -/
structure FreshPage (lowPd : U64) (ph : Phys) (own : Owner) (r va flags : U64) (ok : Bool)
    (ph' : Phys) (own' : Owner) : Prop extends Enclosed lowPd ∅ ph own r ph' own' where
  paved : Paved ph own r → Paved ph' own' r
  mapped : ok = true → ∃ f, SetsLeaf ph own ph' own' r (pagePath va) (leafEntry f flags)
  failed : ok = false → ∀ r q e, LeafAt ph' own' r q e ↔ LeafAt ph own r q e

section
variable (h : Tables lowPd ph own) (hr : own r = some (r, [])) (hva : LowerHalf va)
  (hfl : PlainFlags flags) (hn : NoPage own r va)
include h hr hva hfl hn

theorem Tables.mapFresh_frame : ∃ own', FreshPage lowPd ph own r va flags (ph.mapFresh r va flags).1
        (ph.mapFresh r va flags).2 own' ∧
      ((ph.mapFresh r va flags).1 = true → ∃ f, tableOf (leafEntry f flags) ≠ 0#64 ∧
        SetsLeaf ph own (ph.mapFresh r va flags).2 own' r (pagePath va) (leafEntry f flags)) := by
  unfold Phys.mapFresh
  rcases allocFrame_spec ph with ha | ⟨f,ph1,ha,hf⟩
  · rw [ha]
    exact ⟨own,⟨Enclosed.refl h,id,by simp,fun _ _ _ _ => Iff.rfl⟩,by simp⟩
  rw [ha]
  rw [if_neg hf.ne_zero]
  have hz := h.enclosed_allocZero hr hf
  have hmemz : ∀ t n, own t = some n → (ph1.zeroFrame f).mem t = ph.mem t :=
    fun t n ho => h.mem_zeroFrame hf (.inl (by simp [ho]))
  have hleafz := leafAt_congr (fun t r' p' ho _ => hmemz t (r', p') ho)
  have hof : ¬ Foreign ph own f := fun hc => hf.not_taken hc.taken
  obtain ⟨ph2,own2,hw,hres | ⟨pt,ho,hup,hres⟩⟩ := hz.tables.vmmMapIn_cases hr hva f flags
  · rw [hres]
    have hc := hz.trans (hw.enclosed hz.tables hr)
    have hof2 : own2 f = none := hw.owner_none hf.taken_self (h.owner_none hf)
    have hfree := hc.trans (hc.tables.enclosed_freeFrame hf.frame hof2 (h.ne_lowPd hf).symm)
    refine ⟨own2,⟨hfree.close hof not_foreign_freeFrame,fun hpv => ?_,by simp,
      fun _ r' q e => ?_⟩,by simp⟩
    · exact ((hpv.of_mem hmemz).walked hz.tables hw).of_mem fun _ _ _ => rfl
    · exact (hw.leafAt_iff r' q e).trans (hleafz r' q e)
  · rw [hres]
    have hpage := leafPage_leafEntry hf.frame hfl
    have hpl := (hf.placeable (r := r) (q := pagePath va) h hfl.1).grown hw.toGrown
    have hwrite := hw.tables.enclosed_writeLeaf (x := {f}) (i := ptIndex va) ho rfl hpl
      fun g hg => by
        rw [hpage]
        exact ⟨fun hc => absurd hc (hn.walked hw g),fun hc => absurd (Option.some.inj hc).symm hg⟩
    have hc := (hz.trans (hw.enclosed hz.tables hr)).trans hwrite
    have hset : SetsLeaf ph own (ph2.write pt (ptIndex va) (leafEntry f flags))
        (setPage own2 r (pagePath va) (leafPage (leafEntry f flags))) r (pagePath va)
        (leafEntry f flags) := by
      intro r' q e
      have := hw.tables.leafAt_writeLeaf (i := ptIndex va) ho rfl hpl r' q e
      rw [hw.leafAt_iff,hleafz] at this
      exact this
    refine ⟨_,⟨hc.close hof fun hc => ?_,fun hpv => ?_,fun _ => ⟨f,hset⟩,by simp⟩,
      fun _ => ⟨f,?_,hset⟩⟩
    · have := hc.owner
      simp [setPage,hpage] at this
    · refine ((hpv.of_mem hmemz).walked hz.tables hw).writeLeaf hw.tables ho rfl hpl fun hu => ?_
      rw [has_leafEntry (by decide)] at hu
      exact hup hu
    · rw [tableOf_leafEntry hfl.1,hf.frame]
      exact hf.ne_zero

theorem Tables.mapFresh : ∃ own', FreshPage lowPd ph own r va flags (ph.mapFresh r va flags).1
      (ph.mapFresh r va flags).2 own' := by
  obtain ⟨own',hm,_⟩ := h.mapFresh_frame hr hva hfl hn
  exact ⟨own',hm⟩

end

/-! ## Demand paging -/

/-- Demand paging adds user pages and keeps every page it finds. -/
structure Filled (lowPd : U64) (ph : Phys) (own : Owner) (r : U64) (ph' : Phys) (own' : Owner) :
    Prop extends Enclosed lowPd ∅ ph own r ph' own' where
  paved : Paved ph own r → Paved ph' own' r
  leaf : ∀ {q e}, LeafAt ph own r q e → LeafAt ph' own' r q e

theorem Filled.refl (h : Tables lowPd ph own) : Filled lowPd ph own r ph own :=
  ⟨Enclosed.refl h,id,id⟩

theorem Filled.trans (h : Filled lowPd ph own r ph' own') (h' : Filled lowPd ph' own' r ph'' own'') :
    Filled lowPd ph own r ph'' own'' :=
  ⟨h.toEnclosed.trans h'.toEnclosed,fun hp => h'.paved (h.paved hp),fun hl => h'.leaf (h.leaf hl)⟩

def UserLeaf (ph : Phys) (own : Owner) (r va : U64) : Prop :=
  ∃ e, LeafAt ph own r (pagePath va) e ∧ has e vmmUser = true

theorem noPage_of_no_leaf (h : Tables lowPd ph own) (hn : ∀ e, ¬ LeafAt ph own r (pagePath va) e) :
    NoPage own r va := by
  intro g hg
  obtain ⟨_,_,t,ho,hpres,_⟩ := h.parent hg
  exact hn _ ⟨t,ptIndex va,tablePath va,rfl,rfl,ho,rfl,hpres⟩

namespace TaskVm
variable {vm : TaskVm}
variable (hvm : vm.userPml4 = some r) (hb : Bounded PlainFlags vm)
include hvm hb
variable (h : Tables lowPd ph own) (hr : own r = some (r, []))
include h hr

theorem uvmFaultIn_filled (addr : U64) (writable : Bool) :
    ∃ own', Filled lowPd ph own r (vm.uvmFaultIn ph addr writable).2 own' ∧
      ((vm.uvmFaultIn ph addr writable).1 = true → (pml4Index addr).toNat < 256 →
        UserLeaf (vm.uvmFaultIn ph addr writable).2 own' r addr) := by
  rcases uvmFaultIn_cases hvm ph addr writable with ⟨heq,hgr⟩ | ⟨i,he,hv,hgr,heq⟩
  · rw [heq]
    refine ⟨own,Filled.refl h,fun hok hlow => ?_⟩
    obtain ⟨he,hg⟩ := hgr hok
    rw [vmmEntryIn_pageOf] at he hg
    exact ⟨_,(vmmEntryIn_iff h hr hlow _).mp ⟨rfl,he⟩,hg.1⟩
  rw [heq]
  obtain ⟨hlow,hfl⟩ := vmaAt_spec hb hv
  have habs := no_leafAt_of_entry h hr hlow he
  obtain ⟨own',hm⟩ := h.mapFresh hr hlow hfl (noPage_of_no_leaf h habs)
  refine ⟨own',⟨hm.toEnclosed,hm.paved,fun {q e} hl => ?_⟩,fun hok _ => ?_⟩
  · cases hok : (ph.mapFresh r (pageOf addr) (vm.vmas i).pteFlags).1 with
    | false => exact (hm.failed hok r q e).mpr hl
    | true =>
      obtain ⟨f,hset⟩ := hm.mapped hok
      rw [hset,if_neg]
      · exact hl
      · rintro ⟨_,rfl⟩
        exact habs e hl
  · obtain ⟨f,hset⟩ := hm.mapped hok
    refine ⟨leafEntry f (vm.vmas i).pteFlags,(hset r _ _).mpr ?_,(grants_leafEntry hgr).1⟩
    rw [if_pos ⟨rfl,(pagePath_pageOf addr).symm⟩]
    exact ⟨rfl,has_leafEntry_present _ _⟩

theorem faultInPages_filled (writable : Bool) (n : ℕ) (page : U64) :
    ∃ own', Filled lowPd ph own r (vm.faultInPages writable n page ph).2 own' ∧
      ((vm.faultInPages writable n page ph).1 = true → ∀ i < n, LowerHalf (pageAt page i) →
        UserLeaf (vm.faultInPages writable n page ph).2 own' r (pageAt page i)) := by
  induction n generalizing ph own page with
  | zero => exact ⟨own,Filled.refl h,fun _ i hi => absurd hi (by omega)⟩
  | succ n ih =>
    unfold faultInPages
    obtain ⟨own1,h1,hl1⟩ := uvmFaultIn_filled hvm hb h hr page writable
    generalize vm.uvmFaultIn ph page writable = res at h1 hl1
    obtain ⟨ok,ph1⟩ := res
    cases ok with
    | false => exact ⟨own1,h1,by simp⟩
    | true =>
      obtain ⟨own2,h2,hl2⟩ := ih h1.tables ((h1.roots r).mpr hr) (page + 4096)
      refine ⟨own2,h1.trans h2,fun hok i hi hlow => ?_⟩
      cases i with
      | zero =>
        rw [pageAt_zero] at hlow ⊢
        obtain ⟨e,hl,hu⟩ := hl1 rfl hlow.pml4Index
        exact ⟨e,h2.leaf hl,hu⟩
      | succ i =>
        rw [← pageAt_succ] at hlow ⊢
        exact hl2 hok i (by omega) hlow

theorem uvmBufferOk_filled (pointer bytes : U64) (writable : Bool) :
    ∃ own', Filled lowPd ph own r (vm.uvmBufferOk ph pointer bytes writable).2 own' := by
  unfold uvmBufferOk
  dsimp only
  split_ifs
  case neg => exact (faultInPages_filled hvm hb h hr writable _ _).imp fun _ h' => h'.1
  all_goals exact ⟨own,Filled.refl h⟩

end TaskVm

/-! ## Unmapping -/

structure Emptied (lowPd : U64) (ph : Phys) (own : Owner) (r : U64) (ph' : Phys) (own' : Owner) :
    Prop extends Enclosed lowPd ∅ ph own r ph' own' where
  paved : Paved ph own r → Paved ph' own' r
  leaf : ∀ {r' q e}, LeafAt ph' own' r' q e → LeafAt ph own r' q e

theorem Emptied.refl (h : Tables lowPd ph own) : Emptied lowPd ph own r ph own :=
  ⟨Enclosed.refl h,id,id⟩

theorem Emptied.trans (h : Emptied lowPd ph own r ph' own')
    (h' : Emptied lowPd ph' own' r ph'' own'') : Emptied lowPd ph own r ph'' own'' :=
  ⟨h.toEnclosed.trans h'.toEnclosed,fun hp => h'.paved (h.paved hp),fun hl => h.leaf (h'.leaf hl)⟩

theorem Tables.unmapPage (h : Tables lowPd ph own) (hr : own r = some (r, [])) (hva : LowerHalf va)
    {keepShared : Bool}
    (hfree : ∀ e, LeafAt ph own r (pagePath va) e → (keepShared && has e vmmShared) = false →
      has e vmmShared = false) :
    ∃ own', Emptied lowPd ph own r (TaskVm.unmapPage r keepShared va ph) own' := by
  rcases h.unmapPage_cases hr hva keepShared with ⟨_,heq⟩ | ⟨pt,e,hl,ho,hcase⟩
  · rw [heq]
    exact ⟨own,Emptied.refl h⟩
  have hnone : leafPage 0#64 = none := rfl
  have hpaved : Paved ph own r → Paved (ph.write pt (ptIndex va) 0#64)
      (setPage own r (pagePath va) (leafPage 0#64)) r :=
    fun hpv => hpv.writeLeaf h ho rfl placeable_zero fun hu => absurd hu (by decide)
  have hleaf : ∀ {r' q e'}, LeafAt (ph.write pt (ptIndex va) 0#64)
      (setPage own r (pagePath va) (leafPage 0#64)) r' q e' → LeafAt ph own r' q e' := by
    intro r' q e' hl'
    have := (h.leafAt_writeLeaf (i := ptIndex va) ho rfl placeable_zero r' q e').mp hl'
    split_ifs at this with hc
    · exact absurd this.2 (by decide)
    · exact this
  have hpage : ∀ g, own g = some (r, pagePath va) → tableOf e = g ∧ has e vmmShared = false := by
    intro g hg
    obtain ⟨pt',i,p,hq,hp,ho',hmem,_⟩ := hl
    cases hq
    exact h.leaf_of_owner hg ho' hp hmem
  rcases hcase with ⟨hk,heq⟩ | ⟨hk,heq⟩
  · rw [heq]
    refine ⟨_,h.enclosed_writeLeaf (i := ptIndex va) ho rfl placeable_zero fun g _ => ?_,hpaved,
      hleaf⟩
    -- A borrowed leaf has no page behind it.
    refine ⟨fun hc => ?_,fun hc => by cases hc⟩
    rw [(hpage g hc).2,Bool.and_false] at hk
    cases hk
  rw [heq]
  have hown := h.owner_of_leafAt hl (hfree e hl hk)
  have hwrite := h.enclosed_writeLeaf (x := {tableOf e}) (i := ptIndex va) ho rfl placeable_zero
    fun g hg => by
      exact ⟨fun hc => absurd (hpage g hc).1.symm hg,fun hc => by cases hc⟩
  have hgone : setPage own r (pagePath va) (leafPage 0#64) (tableOf e) = none := by
    simp [setPage,hnone,hown]
  have hc := hwrite.trans
    (hwrite.tables.enclosed_freeFrame (isFrame_tableOf e) hgone (h.ne_low hown))
  exact ⟨_,hc.close (fun hf => by have := hf.owner; rw [hown] at this; cases this)
    not_foreign_freeFrame,fun hpv => (hpaved hpv).of_mem fun _ _ _ => rfl,hleaf⟩

theorem Tables.unmapPages (h : Tables lowPd ph own) (hr : own r = some (r, []))
    (keepShared : Bool) (n : ℕ) (va : U64) (hva : ∀ i < n, LowerHalf (pageAt va i))
    (hfree : ∀ i < n, ∀ e, LeafAt ph own r (pagePath (pageAt va i)) e →
      (keepShared && has e vmmShared) = false → has e vmmShared = false) :
    ∃ own', Emptied lowPd ph own r (TaskVm.unmapPages r keepShared n va ph) own' := by
  induction n generalizing ph own va with
  | zero => exact ⟨own,Emptied.refl h⟩
  | succ n ih =>
    have hva0 := hva 0 (by omega)
    have hfree0 := hfree 0 (by omega)
    rw [pageAt_zero] at hva0 hfree0
    obtain ⟨own1,h1⟩ := h.unmapPage hr hva0 hfree0
    obtain ⟨own2,h2⟩ := ih h1.tables ((h1.roots r).mpr hr) (va + 4096)
      (forall_pages_tail hva)
      (fun i hi e hl hk => by
        rw [pageAt_succ] at hl
        exact hfree (i + 1) (by omega) e (h1.leaf hl) hk)
    exact ⟨own2,h1.trans h2⟩

namespace TaskVm
variable {vm : TaskVm}
variable (hvm : vm.userPml4 = some r) (h : Tables lowPd ph own) (hr : own r = some (r, []))
  (addr bytes : U64)
include hvm h hr addr bytes

theorem uvmRelease_emptied :
    ∃ own', Emptied lowPd ph own r (vm.uvmRelease ph addr bytes).2.2 own' := by
  rcases vm.uvmRelease_cases ph addr bytes with heq | ⟨r',_,_,hvm',hrange,_,_,heq⟩
  · rw [heq]
    exact ⟨own,Emptied.refl h⟩
  cases hvm.symm.trans hvm'
  rw [heq]
  exact h.unmapPages hr true (pageCount bytes) addr
    (fun i hi => uvmRangeOk_lowerHalf hrange.ok hi) fun i hi e hl hk => by simpa using hk

theorem uvmDiscard_emptied :
    ∃ own', Emptied lowPd ph own r (vm.uvmDiscard ph addr bytes).2 own' := by
  rcases vm.uvmDiscard_cases ph addr bytes with heq | ⟨r',hvm',hrange,hdisc,heq⟩
  · rw [heq]
    exact ⟨own,Emptied.refl h⟩
  cases hvm.symm.trans hvm'
  rw [heq]
  exact h.unmapPages hr false (pageCount bytes) addr
    (fun i hi => uvmRangeOk_lowerHalf hrange.ok hi) fun i hi e hl _ =>
      discardable_leaf hdisc h hr hi (uvmRangeOk_lowerHalf hrange.ok hi) hl

end TaskVm

/-! ## Protecting -/

/-- Protecting keeps every page; only `pages` may get other flags. -/
structure Repainted (lowPd : U64) (ph : Phys) (own : Owner) (r : U64) (pages : Path → Prop)
    (ph' : Phys) (own' : Owner) : Prop extends Enclosed lowPd ∅ ph own r ph' own' where
  back : ∀ {q e'}, LeafAt ph' own' r q e' → ∃ e, LeafAt ph own r q e ∧ (e' = e ∨ pages q)
  way : ∀ {q}, q.length ≤ 3 → UserPath ph own r q → UserPath ph' own' r q

theorem Repainted.refl (h : Tables lowPd ph own) : Repainted lowPd ph own r pages ph own :=
  ⟨Enclosed.refl h,fun hl => ⟨_,hl,.inl rfl⟩,fun _ hu => hu⟩

theorem Repainted.trans (h : Repainted lowPd ph own r pages ph' own')
    (h' : Repainted lowPd ph' own' r pages ph'' own'') :
    Repainted lowPd ph own r pages ph'' own'' := by
  refine ⟨h.toEnclosed.trans h'.toEnclosed,fun {q e''} hl'' => ?_,
    fun hq hu => h'.way hq (h.way hq hu)⟩
  obtain ⟨e',hl',he'⟩ := h'.back hl''
  obtain ⟨e,hl,he⟩ := h.back hl'
  exact ⟨e,hl,he'.elim (fun h1 => h1 ▸ he) .inr⟩

theorem Repainted.mono {pages' : Path → Prop} (h : Repainted lowPd ph own r pages ph' own')
    (hp : ∀ q, pages q → pages' q) : Repainted lowPd ph own r pages' ph' own' := by
  refine ⟨h.toEnclosed,fun {q e'} hl' => ?_,h.way⟩
  obtain ⟨e,hl,he⟩ := h.back hl'
  exact ⟨e,hl,he.imp id (hp q)⟩

theorem Tables.vmmProtectIn (h : Tables lowPd ph own) (hr : own r = some (r, []))
    (hva : LowerHalf va) (hfl : PlainFlags flags) :
    ∃ own', Repainted lowPd ph own r (· = pagePath va) (ph.vmmProtectIn r va flags).2 own' ∧
      (UserPath ph own r (tablePath va) → Paved ph own r →
        Paved (ph.vmmProtectIn r va flags).2 own' r) := by
  rcases h.vmmProtectIn_cases hr hva hfl with heq | ⟨pt,e,hl,ho,hpage,hpl,heq⟩
  · rw [heq]
    exact ⟨own,Repainted.refl h,fun _ => id⟩
  rw [heq]
  refine ⟨_,⟨h.enclosed_writeLeaf (i := ptIndex va) ho rfl hpl fun g _ => hpage g,
    fun {q e'} hl' => ?_,fun hq hu => hu.writeLeaf ho rfl hq⟩,
    fun hup hpv => hpv.writeLeaf h ho rfl hpl fun _ => hup⟩
  have := (h.leafAt_writeLeaf (i := ptIndex va) ho rfl hpl r q e').mp hl'
  split_ifs at this with hc
  · rw [hc.2]
    exact ⟨e,hl,.inr rfl⟩
  · exact ⟨e',this,.inl rfl⟩

theorem Tables.protectPages (h : Tables lowPd ph own) (hr : own r = some (r, []))
    (hfl : PlainFlags flags) (n : ℕ) (va : U64) (hva : ∀ i < n, LowerHalf (pageAt va i)) :
    ∃ own', Repainted lowPd ph own r (InPages va n) (TaskVm.protectPages r flags n va ph).2 own' ∧
      ((∀ i < n, UserPath ph own r (tablePath (pageAt va i))) → Paved ph own r →
        Paved (TaskVm.protectPages r flags n va ph).2 own' r) := by
  induction n generalizing ph own va with
  | zero => exact ⟨own,Repainted.refl h,fun _ => id⟩
  | succ n ih =>
    unfold TaskVm.protectPages
    have hva0 := hva 0 (by omega)
    rw [pageAt_zero] at hva0
    obtain ⟨own1,h1,hp1⟩ := h.vmmProtectIn hr hva0 hfl
    have h1 : Repainted lowPd ph own r (InPages va (n + 1)) _ own1 :=
      h1.mono fun q hq => hq ▸ InPages.zero va n
    generalize ph.vmmProtectIn r va flags = res at h1 hp1
    obtain ⟨ok,ph1⟩ := res
    cases ok with
    | false =>
      refine ⟨own1,h1,fun hup => hp1 ?_⟩
      simpa using hup 0 (by omega)
    | true =>
      obtain ⟨own2,h2,hp2⟩ := ih h1.tables ((h1.roots r).mpr hr) (va + 4096)
        (forall_pages_tail hva)
      refine ⟨own2,h1.trans (h2.mono fun q hq => hq.succ),fun hup hpv => ?_⟩
      refine hp2 (fun i hi => ?_) (hp1 (by simpa using hup 0 (by omega)) hpv)
      rw [pageAt_succ]
      exact h1.way (by simp [tablePath]) (hup (i + 1) (by omega))

/-- No page that user mode could not use becomes one that it can. -/
def NoNewUser (ph : Phys) (own : Owner) (r : U64) (ph' : Phys) (own' : Owner) : Prop :=
  ∀ q e e', LeafAt ph own r q e → LeafAt ph' own' r q e' → has e' vmmUser = true →
    has e vmmUser = true

/-- What every entry point of memory/uvm.c does to the space and to everybody else. -/
structure UvmCall (lowPd : U64) (ph : Phys) (own : Owner) (r : U64) (ph' : Phys) (own' : Owner) :
    Prop extends Enclosed lowPd ∅ ph own r ph' own' where
  paved : Paved ph own r → Paved ph' own' r
  noNewUser : NoNewUser ph own r ph' own'

theorem Filled.uvmCall (h : Filled lowPd ph own r ph' own') : UvmCall lowPd ph own r ph' own' := by
  refine ⟨h.toEnclosed,h.paved,fun q e e' hl hl' hu => ?_⟩
  rw [h.tables.leafAt_unique (h.leaf hl) hl']
  exact hu

theorem Emptied.uvmCall (h0 : Tables lowPd ph own) (h : Emptied lowPd ph own r ph' own') :
    UvmCall lowPd ph own r ph' own' := by
  refine ⟨h.toEnclosed,h.paved,fun q e e' hl hl' hu => ?_⟩
  rw [h0.leafAt_unique hl (h.leaf hl')]
  exact hu

theorem TaskVm.uvmProtect_uvmCall {vm : TaskVm} (hvm : vm.userPml4 = some r)
    (hb : Bounded PlainFlags vm) (h : Tables lowPd ph own) (hr : own r = some (r, []))
    (addr bytes : U64) (hfl : PlainFlags flags) :
    ∃ own', UvmCall lowPd ph own r (vm.uvmProtect ph addr bytes flags).2 own' := by
  rcases vm.uvmProtect_cases ph addr bytes flags with heq | ⟨r',hvm',hrange,heq⟩
  · rw [heq]
    exact ⟨own,(Filled.refl h).uvmCall⟩
  cases hvm.symm.trans hvm'
  rw [heq]
  obtain ⟨own1,h1,hl1⟩ := faultInPages_filled hvm hb h hr false (pageCount bytes) addr
  generalize vm.faultInPages false (pageCount bytes) addr ph = res at h1 hl1
  obtain ⟨ok,ph1⟩ := res
  cases ok with
  | false => exact ⟨own1,h1.uvmCall⟩
  | true =>
    have huser : ∀ i < pageCount bytes, UserLeaf ph1 own1 r (pageAt addr i) :=
      fun i hi => hl1 rfl i hi (uvmRangeOk_lowerHalf hrange.ok hi)
    obtain ⟨own2,h2,hp2⟩ := h1.tables.protectPages ((h1.roots r).mpr hr) hfl (pageCount bytes) addr
      fun i hi => uvmRangeOk_lowerHalf hrange.ok hi
    refine ⟨own2,h1.toEnclosed.trans h2.toEnclosed,fun hpv => ?_,fun q e e' hl hl' hu => ?_⟩
    · refine hp2 (fun i hi => ?_) (h1.paved hpv)
      obtain ⟨e,hl,hu⟩ := huser i hi
      exact h1.paved hpv _ e hl hu
    · obtain ⟨e1,hle,he⟩ := h2.back hl'
      have hee := h1.tables.leafAt_unique (h1.leaf hl) hle
      rcases he with rfl | ⟨i,hi,rfl⟩
      · rw [hee]
        exact hu
      · obtain ⟨e2,hl2,hu2⟩ := huser i hi
        rw [h1.tables.leafAt_unique (h1.leaf hl) hl2]
        exact hu2

end GaiaKernel
