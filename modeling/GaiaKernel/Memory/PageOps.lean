import GaiaKernel.Memory.Bounds
import GaiaKernel.Memory.SpaceOps

/-! # Pages come and go

`Faulted` is what demand paging may do: add pages with fresh frames. `Unmapped` is what releasing
may do: take leaves away, and give back only frames that nobody borrows. Both keep `FrameSafe`, page
by page and over whole ranges.
-/
namespace GaiaKernel
variable {lowPd r f va flags : U64} {ph ph' ph'' : Phys} {own own' own'' : Owner} {writable : Bool}

theorem FrameSafe.notLent (h : FrameSafe lowPd ph own) (hf : ¬ Taken ph.pmm f) :
    NotLent ph own f := by
  rintro r q e hl hs rfl
  exact hf (h.shared r q e hl hs).taken

theorem Fresh.lendable (hf : Fresh ph f ph') (h : Tables lowPd ph own) :
    Lendable lowPd (ph'.zeroFrame f) own f where
  taken := hf.taken_self
  ne_low := (h.ne_lowPd hf).symm
  page r p hp := by rw [h.owner_none hf] at hp; cases hp

variable {addr bytes : U64} {gone : Path → Prop} {n : ℕ} {q : Path}

theorem Fresh.placeable (hf : Fresh ph f ph') (h : Tables lowPd ph own)
    (hfl : FlagsOnly flags) : Placeable lowPd (ph'.zeroFrame f) own r q (leafEntry f flags) := by
  intro g hg
  have hgf : f = g := by rw [← (leafPage_some hg).2.2,tableOf_leafEntry hfl,hf.frame]
  subst hgf
  exact ⟨hf.taken_self,(h.ne_lowPd hf).symm,.inl (h.owner_none hf)⟩

/-- Owners, leaves and allocated frames after an attempt to map a fresh frame. -/
structure FreshMap (lowPd : U64) (ph : Phys) (own : Owner) (r va flags : U64) (ok : Bool)
    (ph' : Phys) (own' : Owner) : Prop extends Kept lowPd ph own ph' own' where
  taken : ∀ {g}, Taken ph.pmm g → Taken ph'.pmm g
  owners : ∀ {g n}, own' g = some n → own g = some n ∨ ¬ Taken ph.pmm g
  mapped : ok = true → ∃ f,
    (has flags vmmShared = true → own' (tableOf (leafEntry f flags)) = none) ∧
    SetsLeaf ph own ph' own' r (pagePath va) (leafEntry f flags)
  failed : ok = false → ∀ r q e, LeafAt ph' own' r q e ↔ LeafAt ph own r q e

theorem taken_freeFrame_of_not_taken {g : U64} (hf : ¬ Taken ph.pmm f)
    (ht : ∀ {g}, Taken ph.pmm g → Taken ph'.pmm g) (hg : Taken ph.pmm g) :
    Taken (ph'.freeFrame f).pmm g := by
  refine taken_freeFrame.mpr ⟨ht hg,fun hc => hf ?_⟩
  unfold Taken at hg ⊢
  rwa [← hc]

theorem FrameSafe.mapFresh (h : FrameSafe lowPd ph own) (hr : own r = some (r, []))
    (hva : LowerHalf va) (hfl : FlagsOnly flags) :
    ∃ own', FreshMap lowPd ph own r va flags (ph.mapFresh r va flags).1
      (ph.mapFresh r va flags).2 own' := by
  unfold Phys.mapFresh
  rcases allocFrame_spec ph with ha | ⟨f,ph1,ha,hf⟩
  · rw [ha]
    exact ⟨own,h.kept,id,.inl,by simp,fun _ _ _ _ => Iff.rfl⟩
  rw [ha]
  rw [if_neg hf.ne_zero]
  obtain ⟨hsafe,hleaf⟩ := h.allocZero hf
  have hlow : SameLow lowPd ph own (ph1.zeroFrame f) own :=
    SameLow.of_mem fun t ht => h.tables.mem_zeroFrame hf ht
  have hk : Kept lowPd ph own (ph1.zeroFrame f) own := ⟨hsafe,fun _ => Iff.rfl,hlow⟩
  have htab : tableOf (leafEntry f flags) = f := (tableOf_leafEntry hfl).trans hf.frame
  obtain ⟨own',hm⟩ := hsafe.vmmMapIn hr hva (hf.placeable h.tables hfl)
    fun _ => htab.symm ▸ hf.lendable h.tables
  generalize (ph1.zeroFrame f).vmmMapIn r va f flags = res at hm ⊢
  obtain ⟨ok,ph2⟩ := res
  have howners : ∀ {g n}, own' g = some n → own g = some n ∨ ¬ Taken ph.pmm g := by
    intro g n hg
    rcases hm.owners hg with h1 | h1 | h1
    · exact .inl h1
    · exact .inr fun hc => h1 (hf.taken hc)
    · rw [← (leafPage_some h1).2.2,htab]
      exact .inr hf.not_taken
  cases ok with
  | true =>
    refine ⟨own',hk.trans hm.toKept,fun hg => hm.taken (hf.taken hg),howners,
      fun _ => ⟨f,fun hs => ?_,fun r' q' e' => ?_⟩,by simp⟩
    · -- A leaf stored as borrowed leaves its fresh frame without an owner.
      rw [htab]
      by_contra hc
      obtain ⟨n,hn⟩ := Option.ne_none_iff_exists'.mp hc
      rcases hm.owners hn with h1 | h1 | h1
      · rw [h.tables.owner_none hf] at h1; cases h1
      · exact h1 hf.taken_self
      · have hsh := (leafPage_some h1).2.1
        rw [has_leafEntry (by decide),hs] at hsh
        cases hsh
    · have := hm.mapped rfl r' q' e'
      rwa [hleaf] at this
  | false =>
    obtain ⟨hsame,hnone⟩ := hm.failed rfl
    have hof : own' f = none := hnone f hf.taken_self (h.tables.owner_none hf)
    have hnl : NotLent ph2 own' f := fun r' q' e' hl =>
      h.notLent hf.not_taken r' q' e' ((hleaf _ _ _).mp ((hsame _ _ _).mp hl))
    have hfree : Kept lowPd ph2 own' (ph2.freeFrame f) own' :=
      ⟨hm.safe.freeFrame hf.frame hof (h.tables.ne_lowPd hf).symm hnl,fun _ => Iff.rfl,
        SameLow.of_mem fun _ _ => rfl⟩
    exact ⟨own',(hk.trans hm.toKept).trans hfree,
      fun hg => taken_freeFrame_of_not_taken hf.not_taken (fun hg => hm.taken (hf.taken hg)) hg,
      howners,by simp,fun _ r' q' e' => (hsame r' q' e').trans (hleaf r' q' e')⟩

def Grants (writable : Bool) (e : U64) : Prop :=
  has e vmmUser = true ∧ (writable = true → has e vmmWrite = true)

/-- Demand paging only adds: pages that give the access asked for, their tables, and frames
that were free. -/
structure Faulted (lowPd : U64) (writable : Bool) (ph : Phys) (own : Owner) (ph' : Phys)
    (own' : Owner) : Prop extends Kept lowPd ph own ph' own' where
  taken : ∀ {g}, Taken ph.pmm g → Taken ph'.pmm g
  owners : ∀ {g n}, own' g = some n → own g = some n ∨ ¬ Taken ph.pmm g
  leaf : ∀ {r q e}, LeafAt ph own r q e → LeafAt ph' own' r q e
  new : ∀ {r q e}, LeafAt ph' own' r q e → LeafAt ph own r q e ∨ Grants writable e
  notLent : ∀ {g}, NotLent ph own g → own' g ≠ none → NotLent ph' own' g

theorem FrameSafe.faulted (h : FrameSafe lowPd ph own) (writable : Bool) :
    Faulted lowPd writable ph own ph own := ⟨h.kept,id,.inl,id,.inl,fun hg _ => hg⟩

theorem Faulted.trans (h : Faulted lowPd writable ph own ph' own')
    (h' : Faulted lowPd writable ph' own' ph'' own'') :
    Faulted lowPd writable ph own ph'' own'' where
  toKept := h.toKept.trans h'.toKept
  taken hg := h'.taken (h.taken hg)
  owners hg := by
    rcases h'.owners hg with h1 | h1
    · exact h.owners h1
    · exact .inr fun hc => h1 (h.taken hc)
  leaf hl := h'.leaf (h.leaf hl)
  new hl := by
    rcases h'.new hl with h1 | h1
    · exact h.new h1
    · exact .inr h1
  notLent {g} hg hn := by
    refine h'.notLent ?_ hn
    obtain ⟨n,hn⟩ := Option.ne_none_iff_exists'.mp hn
    rcases h'.owners hn with h1 | h1
    · exact h.notLent hg (by simp [h1])
    · exact h.safe.notLent h1

theorem grants_leafEntry {phys : U64} (h : Grants writable flags) :
    Grants writable (leafEntry phys flags) := by
  unfold Grants
  rw [has_leafEntry (by decide),has_leafEntry (by decide)]
  exact h

theorem FreshMap.faulted {ok : Bool} (h : FreshMap lowPd ph own r va flags ok ph' own')
    (habs : ∀ e, ¬ LeafAt ph own r (pagePath va) e) (hfl : Grants writable flags) :
    Faulted lowPd writable ph own ph' own' := by
  cases ok with
  | false =>
    exact ⟨h.toKept,h.taken,h.owners,(h.failed rfl _ _ _).mpr,
      fun hl => .inl ((h.failed rfl _ _ _).mp hl),
      fun hg _ r q e hl => hg r q e ((h.failed rfl _ _ _).mp hl)⟩
  | true =>
    obtain ⟨f,hun,hset⟩ := h.mapped rfl
    refine ⟨h.toKept,h.taken,h.owners,fun {r' q e} hl => ?_,fun {r' q e} hl => ?_,
      fun {g} hg hn r' q e hl hs heq => ?_⟩
    · rw [hset,if_neg]
      · exact hl
      · rintro ⟨rfl,rfl⟩
        exact habs e hl
    · rw [hset] at hl
      split_ifs at hl with hc
      · rw [hl.1]
        exact .inr (grants_leafEntry hfl)
      · exact .inl hl
    · rw [hset] at hl
      split_ifs at hl with hc
      · rw [hl.1,has_leafEntry (by decide)] at hs
        exact hn (heq ▸ hl.1 ▸ hun hs)
      · exact hg r' q e hl hs heq

namespace TaskVm
variable {vm : TaskVm} {writable keepShared : Bool}

theorem vmaAt_spec {P : U64 → Prop} (hb : Bounded P vm) {i : Fin maxUserVmas}
    (h : vm.vmaAt addr = some i) : LowerHalf addr ∧ P (vm.vmas i).pteFlags := by
  have hi := List.find?_some h
  simp only [Bool.and_eq_true,decide_eq_true_eq,BitVec.lt_def] at hi
  obtain ⟨_,_,_,h4⟩ := hb.vma i hi.1.1
  have hmax : userVaMax.toNat < 2 ^ 47 := by decide
  exact ⟨by unfold LowerHalf; omega,hb.flags i hi.1.1⟩

theorem uvmFaultIn_cases (hvm : vm.userPml4 = some r) (ph : Phys) (addr : U64) (writable : Bool) :
    (vm.uvmFaultIn ph addr writable).2 = ph ∧ ((vm.uvmFaultIn ph addr writable).1 = true →
        ph.vmmEntryIn r (pageOf addr) ≠ 0#64 ∧ Grants writable (ph.vmmEntryIn r (pageOf addr))) ∨
      ∃ i, ph.vmmEntryIn r (pageOf addr) = 0#64 ∧ vm.vmaAt (pageOf addr) = some i ∧
        Grants writable (vm.vmas i).pteFlags ∧
        vm.uvmFaultIn ph addr writable = ph.mapFresh r (pageOf addr) (vm.vmas i).pteFlags := by
  unfold uvmFaultIn
  simp only [hvm]
  by_cases he : ph.vmmEntryIn r (pageOf addr) ≠ 0#64
  · rw [if_pos he]
    refine .inl ⟨rfl,fun hok => ⟨he,?_⟩⟩
    simp only [Bool.and_eq_true,Bool.or_eq_true,Bool.not_eq_true'] at hok
    exact ⟨hok.1,fun hw => hok.2.resolve_left (by simp [hw])⟩
  rw [if_neg he]
  cases vm.vmaAt (pageOf addr) with
  | none => exact .inl ⟨rfl,by simp⟩
  | some i =>
    dsimp only
    split_ifs with hperm
    · exact .inl ⟨rfl,by simp⟩
    · simp only [Bool.or_eq_true,Bool.not_eq_true',Bool.and_eq_true,not_or,not_and,
        Bool.not_eq_false] at hperm
      exact .inr ⟨i,not_not.mp he,rfl,hperm,rfl⟩

theorem no_leafAt_of_entry (h : Tables lowPd ph own) (hr : own r = some (r, [])) {va : U64}
    (hva : LowerHalf va) (he : ph.vmmEntryIn r va = 0#64) (e : U64) :
    ¬ LeafAt ph own r (pagePath va) e := by
  intro hl
  obtain ⟨h1,h2⟩ := (vmmEntryIn_iff h hr hva.pml4Index e).mpr hl
  exact h2 (h1.symm.trans he)

variable (hvm : vm.userPml4 = some r) (hb : Bounded FlagsOnly vm)
include hvm hb
variable (h : FrameSafe lowPd ph own) (hr : own r = some (r, []))
include h hr

theorem uvmFaultIn_faulted (addr : U64) (writable : Bool) :
    ∃ own', Faulted lowPd writable ph own (vm.uvmFaultIn ph addr writable).2 own' := by
  rcases uvmFaultIn_cases hvm ph addr writable with ⟨heq,_⟩ | ⟨i,he,hv,hgr,heq⟩
  · rw [heq]
    exact ⟨own,h.faulted writable⟩
  rw [heq]
  obtain ⟨hlow,hfl⟩ := vmaAt_spec hb hv
  obtain ⟨own',hm⟩ := h.mapFresh hr hlow hfl
  exact ⟨own',hm.faulted (no_leafAt_of_entry h.tables hr hlow he) hgr⟩

theorem faultInPages_faulted (n : ℕ) (page : U64) :
    ∃ own', Faulted lowPd writable ph own (vm.faultInPages writable n page ph).2 own' := by
  induction n generalizing ph own page with
  | zero => exact ⟨own,h.faulted writable⟩
  | succ n ih =>
    unfold faultInPages
    obtain ⟨own1,h1⟩ := uvmFaultIn_faulted hvm hb h hr page writable
    generalize vm.uvmFaultIn ph page writable = res at h1
    obtain ⟨ok,ph1⟩ := res
    cases ok with
    | false => exact ⟨own1,h1⟩
    | true =>
      obtain ⟨own2,h2⟩ := ih h1.safe ((h1.roots r).mpr hr) (page + 4096)
      exact ⟨own2,h1.trans h2⟩

theorem uvmBufferOk_faulted (pointer bytes : U64) (writable : Bool) :
    ∃ own', Faulted lowPd writable ph own (vm.uvmBufferOk ph pointer bytes writable).2 own' := by
  unfold uvmBufferOk
  dsimp only
  split_ifs
  case neg => exact faultInPages_faulted hvm hb h hr _ _
  all_goals exact ⟨own,h.faulted writable⟩

end TaskVm

/-- Releasing only takes away: the leaves of `gone` pages of `r`, and the ownership of their
frames. -/
structure Unmapped (lowPd : U64) (ph : Phys) (own : Owner) (r : U64) (gone : Path → Prop)
    (ph' : Phys) (own' : Owner) : Prop extends Kept lowPd ph own ph' own' where
  leaf : ∀ {r' q e}, LeafAt ph' own' r' q e → LeafAt ph own r' q e
  rest : ∀ {r' q e}, LeafAt ph own r' q e → r' = r ∧ gone q ∨ LeafAt ph' own' r' q e

theorem FrameSafe.unmapped (h : FrameSafe lowPd ph own) : Unmapped lowPd ph own r gone ph own :=
  ⟨h.kept,id,.inr⟩

section
variable (h : Unmapped lowPd ph own r gone ph' own')
include h

theorem Unmapped.trans
    (h' : Unmapped lowPd ph' own' r gone ph'' own'') : Unmapped lowPd ph own r gone ph'' own'' :=
  ⟨h.toKept.trans h'.toKept,fun hl => h.leaf (h'.leaf hl),fun hl => (h.rest hl).elim .inl h'.rest⟩

theorem Unmapped.mono {gone' : Path → Prop}
    (hg : ∀ q, gone q → gone' q) : Unmapped lowPd ph own r gone' ph' own' :=
  ⟨h.toKept,h.leaf,fun hl => (h.rest hl).imp (fun hc => ⟨hc.1,hg _ hc.2⟩) id⟩

theorem Unmapped.notLent {g : U64} (hg : NotLent ph own g) : NotLent ph' own' g :=
  fun r q e hl => hg r q e (h.leaf hl)

end

theorem placeable_zero : Placeable lowPd ph own r q 0#64 := by
  intro g hg
  exact nomatch (show (none : Option U64) = some g from hg)

section
variable (h : Tables lowPd ph own) (hr : own r = some (r, [])) (hva : LowerHalf va)
include h hr hva

theorem Tables.vmmUnmapIn_eq {e : U64} (hl : LeafAt ph own r (pagePath va) e) :
    ∃ pt, own pt = some (r, tablePath va) ∧
      (ph.vmmUnmapIn r va).2 = ph.write pt (ptIndex va) 0#64 := by
  obtain ⟨pt,i,p,hq,_,ho,_,_⟩ := hl
  cases hq
  exact ⟨pt,ho,by simp [Phys.vmmUnmapIn,(walkOnly_iff h hr hva.pml4Index pt).mpr ho]⟩

theorem Tables.unmapPage_cases (keepShared : Bool) :
    ph.vmmEntryIn r va = 0#64 ∧ TaskVm.unmapPage r keepShared va ph = ph ∨
      ∃ pt e, LeafAt ph own r (pagePath va) e ∧ own pt = some (r, tablePath va) ∧
        ((keepShared && has e vmmShared) = true ∧
            TaskVm.unmapPage r keepShared va ph = ph.write pt (ptIndex va) 0#64 ∨
          (keepShared && has e vmmShared) = false ∧ TaskVm.unmapPage r keepShared va ph =
            (ph.write pt (ptIndex va) 0#64).freeFrame (tableOf e)) := by
  unfold TaskVm.unmapPage
  by_cases he : ph.vmmEntryIn r va = 0#64
  · exact .inl ⟨he,if_pos he⟩
  have hl := (vmmEntryIn_iff h hr hva.pml4Index _).mp ⟨rfl,he⟩
  obtain ⟨pt,ho,hw⟩ := h.vmmUnmapIn_eq hr hva hl
  refine .inr ⟨pt,_,hl,ho,?_⟩
  rw [if_neg he,hw]
  by_cases hk : (keepShared && has (ph.vmmEntryIn r va) vmmShared) = true
  · exact .inl ⟨hk,if_pos hk⟩
  · exact .inr ⟨by simpa using hk,if_neg hk⟩

end

theorem FrameSafe.unmapLeaf (h : FrameSafe lowPd ph own) {pt : U64}
    (ho : own pt = some (r, tablePath va)) :
    Unmapped lowPd ph own r (· = pagePath va) (ph.write pt (ptIndex va) 0#64)
      (setPage own r (pagePath va) none) := by
  have hset := h.tables.leafAt_writeLeaf (i := ptIndex va) ho rfl placeable_zero
  refine ⟨⟨?_,?_,?_⟩,fun {r' q' e'} hl' => ?_,fun {r' q' e'} hl' => ?_⟩
  · exact h.writeLeaf (i := ptIndex va) ho rfl placeable_zero fun hs => absurd hs (by decide)
  · exact setPage_sameRoots (by simp [pagePath]) fun _ hg => by cases hg
  · exact h.tables.sameLow_writeLeaf (i := ptIndex va) ho rfl placeable_zero
  · have := (hset r' q' e').mp hl'
    split_ifs at this with hc
    · exact absurd this.2 (by decide)
    · exact this
  · by_cases hc : r' = r ∧ q' = pagePath va
    · exact .inl hc
    · exact .inr ((hset r' q' e').mpr ((if_neg hc).symm ▸ hl'))

theorem FrameSafe.unmapPage (h : FrameSafe lowPd ph own) (hr : own r = some (r, []))
    (hva : LowerHalf va) {keepShared : Bool}
    (hfree : ∀ e, LeafAt ph own r (pagePath va) e → (keepShared && has e vmmShared) = false →
      has e vmmShared = false ∧ NotLent ph own (tableOf e)) :
    ∃ own', Unmapped lowPd ph own r (· = pagePath va) (TaskVm.unmapPage r keepShared va ph)
      own' := by
  rcases h.tables.unmapPage_cases hr hva keepShared with ⟨_,heq⟩ | ⟨pt,e,hl,hpt,hcase⟩
  · rw [heq]
    exact ⟨own,h.unmapped⟩
  have hu := h.unmapLeaf hpt
  rcases hcase with ⟨_,heq⟩ | ⟨hk,heq⟩
  · rw [heq]
    exact ⟨_,hu⟩
  rw [heq]
  obtain ⟨hs,hn⟩ := hfree e hl hk
  have ho := h.tables.owner_of_leafAt hl hs
  have hsafe := hu.safe.freeFrame (isFrame_tableOf e) (by simp [setPage,ho]) (h.tables.ne_low ho)
    (hu.notLent hn)
  exact ⟨_,hu.trans ⟨⟨hsafe,fun _ => Iff.rfl,SameLow.of_mem fun _ _ => rfl⟩,id,.inr⟩⟩

def pageAt (va : U64) (i : ℕ) : U64 := va + BitVec.ofNat 64 (4096 * i)
@[simp] theorem pageAt_zero (va : U64) : pageAt va 0 = va := by simp [pageAt]

theorem pageAt_succ (va : U64) (i : ℕ) : pageAt (va + 4096) i = pageAt va (i + 1) := by
  unfold pageAt
  rw [BitVec.add_assoc,show 4096 * (i + 1) = 4096 + 4096 * i by omega,BitVec.ofNat_add]
  rfl

theorem forall_pages_tail {P : U64 → Prop} {va : U64} {n : ℕ} (h : ∀ i < n + 1, P (pageAt va i)) :
    ∀ i < n, P (pageAt (va + 4096) i) := by
  intro i hi
  rw [pageAt_succ]
  exact h (i + 1) (by omega)

def InPages (va : U64) (n : ℕ) (q : Path) : Prop := ∃ i < n, q = pagePath (pageAt va i)

theorem InPages.zero (va : U64) (n : ℕ) : InPages va (n + 1) (pagePath va) :=
  ⟨0,by omega,by rw [pageAt_zero]⟩

theorem InPages.succ (h : InPages (va + 4096) n q) : InPages va (n + 1) q := by
  obtain ⟨i,hi,rfl⟩ := h
  exact ⟨i + 1,by omega,by rw [pageAt_succ]⟩

theorem FrameSafe.unmapPages (h : FrameSafe lowPd ph own) (hr : own r = some (r, []))
    (keepShared : Bool) (n : ℕ) (va : U64) (hva : ∀ i < n, LowerHalf (pageAt va i))
    (hfree : ∀ i < n, ∀ e, LeafAt ph own r (pagePath (pageAt va i)) e →
      (keepShared && has e vmmShared) = false →
        has e vmmShared = false ∧ NotLent ph own (tableOf e)) :
    ∃ own', Unmapped lowPd ph own r (InPages va n) (TaskVm.unmapPages r keepShared n va ph)
      own' := by
  induction n generalizing ph own va with
  | zero => exact ⟨own,h.unmapped⟩
  | succ n ih =>
    have hva0 := hva 0 (by omega)
    have hfree0 := hfree 0 (by omega)
    rw [pageAt_zero] at hva0 hfree0
    obtain ⟨own1,h1⟩ := h.unmapPage hr hva0 hfree0
    obtain ⟨own2,h2⟩ := ih h1.safe ((h1.roots r).mpr hr) (va + 4096)
      (forall_pages_tail hva)
      (fun i hi e hl hk => by
        rw [pageAt_succ] at hl
        obtain ⟨hs,hn⟩ := hfree (i + 1) (by omega) e (h1.leaf hl) hk
        exact ⟨hs,h1.notLent hn⟩)
    refine ⟨own2,(h1.mono fun q hq => ?_).trans (h2.mono fun q hq => hq.succ)⟩
    exact hq ▸ InPages.zero va n

theorem uvmRangeOk_lowerHalf (h : uvmRangeOk addr bytes = true) {i : ℕ}
    (hi : i < pageCount bytes) : LowerHalf (pageAt addr i) := by
  obtain ⟨h1,h2,h3⟩ := uvmRangeOk_spec h
  have hmax : userVaMax.toNat < 2 ^ 47 := by decide
  unfold pageCount at hi
  unfold LowerHalf pageAt
  rw [BitVec.toNat_add,BitVec.toNat_ofNat]
  omega

namespace TaskVm
variable {vm : TaskVm}

def RangeUnlent (ph : Phys) (own : Owner) (r addr bytes : U64) : Prop :=
  uvmRangeOk addr bytes = true → ∀ i < pageCount bytes, ∀ e,
    LeafAt ph own r (pagePath (pageAt addr i)) e → has e vmmShared = false →
      NotLent ph own (tableOf e)

theorem uvmRelease_unmapped (hvm : vm.userPml4 = some r) (h : FrameSafe lowPd ph own)
    (hr : own r = some (r, [])) (hfree : RangeUnlent ph own r addr bytes) :
    ∃ own', Unmapped lowPd ph own r (InPages addr (pageCount bytes))
      (vm.uvmRelease ph addr bytes).2.2 own' := by
  rcases vm.uvmRelease_cases ph addr bytes with heq | ⟨r',_,_,hvm',hrange,_,_,heq⟩
  · rw [heq]
    exact ⟨own,h.unmapped⟩
  cases hvm.symm.trans hvm'
  rw [heq]
  refine h.unmapPages hr true (pageCount bytes) addr
    (fun i hi => uvmRangeOk_lowerHalf hrange.ok hi) fun i hi e hl hk => ?_
  exact ⟨hk,hfree hrange.ok i hi e hl hk⟩

theorem discardable_unshared {va : U64} (h : vm.discardable ph r n va = true) :
    ∀ i < n, has (ph.vmmEntryIn r (pageAt va i)) vmmShared = false := by
  induction n generalizing va with
  | zero => omega
  | succ n ih =>
    simp only [discardable,Bool.and_eq_true,Bool.not_eq_true'] at h
    intro i hi
    cases i with
    | zero => rw [pageAt_zero]; exact h.1.2
    | succ i => rw [← pageAt_succ]; exact ih h.2 i (by omega)

theorem discardable_leaf {va : U64} (h : vm.discardable ph r n va = true)
    (ht : Tables lowPd ph own) (hr : own r = some (r, [])) {i : ℕ} (hi : i < n)
    (hva : LowerHalf (pageAt va i)) {e : U64} (hl : LeafAt ph own r (pagePath (pageAt va i)) e) :
    has e vmmShared = false :=
  ((vmmEntryIn_iff ht hr hva.pml4Index e).mpr hl).1 ▸ discardable_unshared h i hi

theorem uvmDiscard_unmapped (hvm : vm.userPml4 = some r) (h : FrameSafe lowPd ph own)
    (hr : own r = some (r, [])) (hfree : RangeUnlent ph own r addr bytes) :
    ∃ own', Unmapped lowPd ph own r (InPages addr (pageCount bytes))
      (vm.uvmDiscard ph addr bytes).2 own' := by
  rcases vm.uvmDiscard_cases ph addr bytes with heq | ⟨r',hvm',hrange,hdisc,heq⟩
  · rw [heq]
    exact ⟨own,h.unmapped⟩
  cases hvm.symm.trans hvm'
  rw [heq]
  refine h.unmapPages hr false (pageCount bytes) addr
    (fun i hi => uvmRangeOk_lowerHalf hrange.ok hi) fun i hi e hl _ => ?_
  have hs := discardable_leaf hdisc h.tables hr hi (uvmRangeOk_lowerHalf hrange.ok hi) hl
  exact ⟨hs,hfree hrange.ok i hi e hl hs⟩

end TaskVm

end GaiaKernel
