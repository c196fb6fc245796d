import GaiaKernel.Memory.Spare
import GaiaKernel.Sched.ShareAuthority

/-! # What a share does to the two address spaces

`sys_shmem_share` takes the target range from the bump pointer of the target and installs its
pages one by one. It looks neither at the reservations of the target nor at what is mapped there,
and a call that fails half way leaves the pages it has installed.
-/
namespace GaiaKernel
open BitVec Option
variable {lowPd r va : U64} {ph ph' : Phys} {own own' : Owner}

/-! ### Translations -/

theorem translate_congr (h : Tables lowPd ph own) (hr : own r = some (r, []))
    (h' : Tables lowPd ph' own') (hr' : own' r = some (r, [])) (hva : LowerHalf va)
    (hlow : SameLow lowPd ph own ph' own')
    (hleaf : ∀ e, LeafAt ph' own' r (pagePath va) e ↔ LeafAt ph own r (pagePath va) e) :
    ph'.vmmTranslateIn r va = ph.vmmTranslateIn r va := by
  have hsame : identityAddr ph' lowPd va = identityAddr ph lowPd va := by
    unfold identityAddr
    rw [hlow.mem]
  by_cases ht : ph.vmmTranslateIn r va = 0#64
  · by_contra hne
    rw [ht] at hne
    rcases vmmTranslateIn_cases h' hr' hva hne with ⟨e,hl,-⟩ | ⟨hll,hgib,heq⟩
    · have := translate_of_leafAt h' hr' hl
      rw [← translate_of_leafAt h hr ((hleaf e).mp hl),ht] at this
      exact hne this
    · rw [hsame,← (((hlow.link r).mp hll).lookup h hr hgib).2,ht] at heq
      exact hne heq
  · rcases vmmTranslateIn_cases h hr hva ht with ⟨e,hl,heq⟩ | ⟨hll,hgib,heq⟩
    · rw [heq]
      exact translate_of_leafAt h' hr' ((hleaf e).mpr hl)
    · rw [heq,← hsame]
      exact (((hlow.link r).mpr hll).lookup h' hr' hgib).2

theorem MapResult.translate_other {target tva e : U64} {ok : Bool}
    (hm : MapResult lowPd ph own target tva e ok ph' own') (h : Tables lowPd ph own)
    (hr : own r = some (r, [])) (hva : LowerHalf va)
    (hother : ok = false ∨ r ≠ target ∨ pagePath va ≠ pagePath tva) :
    ph'.vmmTranslateIn r va = ph.vmmTranslateIn r va := by
  refine translate_congr h hr hm.safe.tables ((hm.roots r).mpr hr) hva hm.low fun x => ?_
  cases ok with
  | false => exact (hm.failed rfl).1 r _ x
  | true =>
    rw [hm.mapped rfl,if_neg]
    rintro ⟨h1,h2⟩
    rcases hother with hf | hne | hne
    · cases hf
    · exact hne h1
    · exact hne h2

theorem MapResult.translate_page {target tva e : U64}
    (hm : MapResult lowPd ph own target tva e true ph' own')
    (hr : own target = some (target, [])) (hpath : pagePath va = pagePath tva)
    (he : has e vmmPresent = true) :
    ph'.vmmTranslateIn target va = tableOf e ||| (va &&& 0xFFF#64) := by
  refine translate_of_leafAt hm.safe.tables ((hm.roots target).mpr hr) ?_
  rw [hm.mapped rfl,if_pos ⟨rfl,hpath⟩]
  exact ⟨rfl,he⟩

theorem pageAt_path_inj {i j : ℕ} (hi : i < 2 ^ 40) (hj : j < 2 ^ 40) (h : LowerHalf (pageAt va i))
    (h' : LowerHalf (pageAt va j)) (hpath : pagePath (pageAt va i) = pagePath (pageAt va j)) :
    i = j := by
  have haligned (a : U64) : PageAligned (pageOf a) := by
    unfold PageAligned
    rw [pageOf_toNat]
    omega
  have hpage := h.pageOf.pagePath_inj h'.pageOf (haligned _) (haligned _) (by simpa using hpath)
  have hnat := congrArg BitVec.toNat hpage
  rw [pageOf_toNat,pageOf_toNat] at hnat
  unfold pageAt at hnat
  rw [toNat_add,toNat_add,toNat_ofNat,toNat_ofNat] at hnat
  omega

variable {vm : TaskVm}
namespace Spaces
open Trace

/-! ### The loop -/

section
variable {me target : U64}

theorem length_grants_le (n : ℕ) (inVa targetVa : U64) (ph : Phys) :
    (grants me target n inVa targetVa ph).length ≤ n := by
  induction n generalizing inVa targetVa ph with
  | zero => exact le_rfl
  | succ n ih =>
    unfold grants
    dsimp only
    split
    · exact Nat.zero_le _
    · split
      · exact Nat.zero_le _
      · exact Nat.succ_le_succ (ih _ _ _)

theorem sharePages_ok_iff (n : ℕ) (inVa targetVa : U64) (ph : Phys) :
    (sharePages me target n inVa targetVa ph).1 = .ok () ↔
      (grants me target n inVa targetVa ph).length = n := by
  induction n generalizing inVa targetVa ph with
  | zero => exact iff_of_true rfl rfl
  | succ n ih =>
    unfold grants sharePages
    dsimp only
    split
    · exact iff_of_false (by simp) (by simp)
    · generalize ph.vmmMapIn target targetVa (ph.vmmTranslateIn me inVa) shareFlags = res
      obtain ⟨ok,ph1⟩ := res
      cases ok with
      | false => exact iff_of_false (by simp) (by simp)
      | true =>
        rw [List.length_cons,Nat.add_right_cancel_iff]
        exact ih _ _ _

theorem sharePages_translate {ph0 : Phys} {own0 : Owner} (h0 : Tables lowPd ph0 own0)
    (hme : own0 me = some (me, [])) (htgt : own0 target = some (target, [])) (n : ℕ)
    {inVa targetVa : U64} (hn : n < 2 ^ 40) (hk : Kept lowPd ph0 own0 ph own)
    (hsrc : ∀ i < n, Sharable ph0 me (pageAt inVa i))
    (hdst : ∀ i < n, LowerHalf (pageAt targetVa i)) (hr : own r = some (r, [])) (hva : LowerHalf va) :
    ((r ≠ target ∨ ∀ i < (grants me target n inVa targetVa ph).length,
        pagePath va ≠ pagePath (pageAt targetVa i)) →
      (sharePages me target n inVa targetVa ph).2.vmmTranslateIn r va = ph.vmmTranslateIn r va) ∧
    ∀ i g, (grants me target n inVa targetVa ph)[i]? = some g →
      pagePath va = pagePath (pageAt targetVa i) →
      (sharePages me target n inVa targetVa ph).2.vmmTranslateIn target va =
        g.frame ||| (va &&& 0xFFF#64) := by
  induction n generalizing ph own inVa targetVa r with
  | zero => exact ⟨fun _ => rfl,fun i g hg => by cases hg⟩
  | succ n ih =>
    unfold sharePages grants
    by_cases ht : ph.vmmTranslateIn me inVa = 0#64
    · rw [if_pos ht,if_pos ht]
      exact ⟨fun _ => rfl,fun i g hg => by cases hg⟩
    rw [if_neg ht,if_neg ht]
    have hsrc0 := hsrc 0 (by omega)
    have hdst0 := hdst 0 (by omega)
    rw [pageAt_zero] at hsrc0 hdst0
    have htgt' := (hk.roots target).mpr htgt
    obtain ⟨e,hl,heq⟩ := hsrc0.leafAt h0 hme hk.low hk.safe.tables ((hk.roots me).mpr hme) ht
    obtain ⟨own₁,hm⟩ := hk.safe.shareMap htgt' hdst0 hl heq
    generalize ph.vmmMapIn target targetVa (ph.vmmTranslateIn me inVa) shareFlags = res at hm
    obtain ⟨ok,ph1⟩ := res
    cases ok with
    | false =>
      refine ⟨fun _ => ?_,fun i g hg => by cases hg⟩
      exact hm.translate_other hk.safe.tables hr hva (.inl rfl)
    | true =>
      have hrest {x : U64} (hx : own x = some (x, [])) :=
        ih (by omega) (hk.trans hm.toKept) (forall_pages_tail hsrc) (forall_pages_tail hdst)
          ((hm.roots x).mpr hx)
      constructor
      · intro hother
        have hlater := (hrest hr).1 (hother.imp_right fun h i hi => by
          rw [pageAt_succ]
          exact h (i + 1) (Nat.succ_lt_succ hi))
        rw [hlater]
        refine hm.translate_other hk.safe.tables hr hva (.inr (hother.imp_right fun h => ?_))
        have := h 0 (Nat.succ_pos _)
        rwa [pageAt_zero] at this
      · intro i g hg hpath
        cases i with
        | zero =>
          -- the pages that follow are other pages
          cases hg
          rw [pageAt_zero] at hpath
          rw [(hrest htgt').1 (.inr ?_)]
          · rw [hm.translate_page htgt' hpath (has_leafEntry_present _ _),
              tableOf_leafEntry (by unfold FlagsOnly; decide)]
          · intro j hj hj'
            have hjn : j < n := lt_of_lt_of_le hj (length_grants_le _ _ _ _)
            rw [pageAt_succ,hpath] at hj'
            have hzero : (0 : ℕ) = j + 1 := pageAt_path_inj (by omega) (by omega)
              (hdst 0 (by omega)) (hdst (j + 1) (by omega)) (by rwa [pageAt_zero])
            omega
        | succ i => exact (hrest htgt').2 i g hg (by rw [pageAt_succ]; exact hpath)

theorem sharePages_changed_iff (h : FrameSafe lowPd ph own) (hme : own me = some (me, []))
    (htgt : own target = some (target, [])) (n : ℕ) {inVa targetVa : U64} (hn : n < 2 ^ 40)
    (hsrc : ∀ i < n, Sharable ph me (pageAt inVa i))
    (hdst : ∀ i < n, LowerHalf (pageAt targetVa i)) (hva : LowerHalf va) :
    (sharePages me target n inVa targetVa ph).2.vmmTranslateIn target va ≠
        ph.vmmTranslateIn target va ↔ ∃ i g, (grants me target n inVa targetVa ph)[i]? = some g ∧
        pagePath va = pagePath (pageAt targetVa i) ∧
        ph.vmmTranslateIn target va ≠ g.frame ||| (va &&& 0xFFF#64) := by
  obtain ⟨hother,hpage⟩ := sharePages_translate h.tables hme htgt n hn h.kept hsrc hdst htgt hva
  constructor
  · intro hne
    by_contra hnone
    refine hne (hother (.inr fun i hi hpath => hne ?_))
    have hg := List.getElem?_eq_getElem hi
    rw [hpage i _ hg hpath]
    by_contra hdiff
    exact hnone ⟨i,_,hg,hpath,fun h => hdiff h.symm⟩
  · rintro ⟨i,g,hg,hpath,hdiff⟩ hsame
    rw [hpage i g hg hpath] at hsame
    exact hdiff hsame.symm

/-- The loop goes on with the frames the caller's pages had at its start, as long as what it maps
takes the place of nothing. -/
theorem grants_frame {ph0 : Phys} {own0 : Owner} (h0 : Tables lowPd ph0 own0)
    (hme : own0 me = some (me, [])) (htgt : own0 target = some (target, [])) (n : ℕ)
    {inVa targetVa : U64} (hn : n < 2 ^ 40) (hk : Kept lowPd ph0 own0 ph own)
    (hsrc : ∀ i < n, Sharable ph0 me (pageAt inVa i))
    (hdst : ∀ i < n, LowerHalf (pageAt targetVa i)) {i : ℕ} {g : Grant}
    (hg : (grants me target n inVa targetVa ph)[i]? = some g)
    (hsame : ∀ j < i, ∀ g', (grants me target n inVa targetVa ph)[j]? = some g' → ∀ va,
      LowerHalf va → pagePath va = pagePath (pageAt targetVa j) →
        ph.vmmTranslateIn target va = g'.frame ||| (va &&& 0xFFF#64) ∨
          ph.vmmTranslateIn target va = 0#64)
    (ht : ph.vmmTranslateIn me (pageAt inVa i) ≠ 0#64) :
    g.frame = tableOf (ph.vmmTranslateIn me (pageAt inVa i)) := by
  induction n generalizing ph own inVa targetVa i with
  | zero => cases hg
  | succ n ih =>
    unfold grants at hg hsame
    by_cases ht0 : ph.vmmTranslateIn me inVa = 0#64
    · rw [if_pos ht0] at hg; cases hg
    rw [if_neg ht0] at hg hsame
    have hsrc0 := hsrc 0 (by omega)
    have hdst0 := hdst 0 (by omega)
    rw [pageAt_zero] at hsrc0 hdst0
    have hme' := (hk.roots me).mpr hme
    have htgt' := (hk.roots target).mpr htgt
    obtain ⟨e,hl,heq⟩ := hsrc0.leafAt h0 hme hk.low hk.safe.tables hme' ht0
    obtain ⟨own₁,hm⟩ := hk.safe.shareMap htgt' hdst0 hl heq
    generalize ph.vmmMapIn target targetVa (ph.vmmTranslateIn me inVa) shareFlags = res
      at hm hg hsame
    obtain ⟨_ | _,ph1⟩ := res
    · cases hg
    cases i with
    | zero =>
      cases hg
      rw [pageAt_zero]
    | succ i =>
      have hlen : i < n := by
        obtain ⟨hi,-⟩ := List.getElem?_eq_some_iff.mp hg
        exact lt_of_lt_of_le (Nat.lt_of_succ_lt_succ hi) (length_grants_le _ _ _ _)
      have hsrcI := (hsrc (i + 1) (by omega)).1
      have hpage : ph1.vmmTranslateIn me (pageAt inVa (i + 1)) =
          ph.vmmTranslateIn me (pageAt inVa (i + 1)) := by
        by_cases hc : me = target ∧ pagePath (pageAt inVa (i + 1)) = pagePath targetVa
        · obtain ⟨rfl,hpath⟩ := hc
          rw [hm.translate_page htgt' hpath (has_leafEntry_present _ _),
            tableOf_leafEntry (by unfold FlagsOnly; decide)]
          refine (((hsame 0 (Nat.succ_pos i) _ rfl) _ hsrcI ?_).resolve_right ht).symm
          rwa [pageAt_zero]
        · refine hm.translate_other hk.safe.tables hme' hsrcI (.inr ?_)
          by_cases hmt : me = target
          · exact .inr fun hp => hc ⟨hmt,hp⟩
          · exact .inl hmt
      rw [← pageAt_succ] at ht hpage ⊢
      rw [← hpage]
      refine ih (by omega) (hk.trans hm.toKept)
        (forall_pages_tail hsrc)
        (forall_pages_tail hdst) hg
        (fun j hj g' hg' va hva hpath => ?_) (by rwa [hpage])
      rw [pageAt_succ] at hpath
      rw [hm.translate_other hk.safe.tables htgt' hva (.inr (.inr fun hp => ?_))]
      · exact hsame (j + 1) (Nat.succ_lt_succ hj) g' hg' va hva hpath
      · -- the page mapped just now is another page
        have hzero : j + 1 = 0 := pageAt_path_inj (by omega) (by omega) (hdst (j + 1) (by omega))
          (hdst 0 (by omega)) (by rw [← hpath,hp,pageAt_zero])
        omega

/-- What `vmm_map_in` takes as the address of a frame. -/
def Mappable (x : U64) : Prop := tableOf x ≠ 0#64 ∧ has x 0xFFFF800000000000#64 = false

theorem Mappable.ne_zero {x : U64} (h : Mappable x) : x ≠ 0#64 := by
  rintro rfl
  exact h.1 (by decide)

theorem Mappable.translate {x : U64} (h : Mappable x) (va : U64) :
    Mappable (tableOf x ||| (va &&& 0xFFF#64)) := by
  have hlow : 0xFFF#64 &&& 0xFFFF800000000000#64 = 0#64 := by decide
  have hhigh : x &&& 0xFFFF800000000000#64 = 0#64 := by simpa [has] using h.2
  refine ⟨by rw [tableOf_translate]; exact h.1,?_⟩
  rw [has_or,Bool.or_eq_false_iff]
  unfold has tableOf
  constructor
  · rw [BitVec.and_assoc,BitVec.and_comm vmmAddrMask,← BitVec.and_assoc,hhigh]
    simp
  · rw [BitVec.and_assoc,hlow]
    simp

theorem sharePages_complete {ph0 : Phys} {own0 : Owner} (h0 : Tables lowPd ph0 own0)
    (hme : own0 me = some (me, [])) (htgt : own0 target = some (target, [])) (n : ℕ)
    {inVa targetVa : U64} (hk : Kept lowPd ph0 own0 ph own)
    (hsrc : ∀ i < n, Sharable ph0 me (pageAt inVa i))
    (hmap : ∀ i < n, Mappable (ph.vmmTranslateIn me (pageAt inVa i)))
    (hdst : ∀ i < n, LowerHalf (pageAt targetVa i) ∧ ¬ InLowGiB (pageAt targetVa i))
    (hspare : 3 * n ≤ ph.pmm.spare.card) :
    (sharePages me target n inVa targetVa ph).1 = .ok () := by
  induction n generalizing ph own inVa targetVa with
  | zero => rfl
  | succ n ih =>
    have hsrc0 := hsrc 0 (by omega)
    have hmap0 := hmap 0 (by omega)
    obtain ⟨hlow,hhigh⟩ := hdst 0 (by omega)
    rw [pageAt_zero] at hsrc0 hmap0 hlow hhigh
    have hme' := (hk.roots me).mpr hme
    have htgt' := (hk.roots target).mpr htgt
    obtain ⟨e,hl,heq⟩ := hsrc0.leafAt h0 hme hk.low hk.safe.tables hme' hmap0.ne_zero
    obtain ⟨own₁,hm⟩ := hk.safe.shareMap htgt' hlow hl heq
    obtain ⟨hok,hleft⟩ := vmmMapIn_spare hk.safe.tables htgt' hlow hhigh (by omega) hmap0.2 shareFlags
    unfold sharePages
    rw [if_neg hmap0.ne_zero]
    generalize ph.vmmMapIn target targetVa (ph.vmmTranslateIn me inVa) shareFlags = res
      at hm hok hleft ⊢
    obtain ⟨ok,ph1⟩ := res
    obtain rfl : ok = true := hok
    refine ih (hk.trans hm.toKept) (forall_pages_tail hsrc)
      (fun i hi => ?_) (fun i hi => by rw [pageAt_succ]; exact hdst (i + 1) (by omega)) ?_
    · rw [pageAt_succ]
      by_cases hc : me = target ∧ pagePath (pageAt inVa (i + 1)) = pagePath targetVa
      · obtain ⟨rfl,hpath⟩ := hc
        rw [hm.translate_page htgt' hpath (has_leafEntry_present _ _),
          tableOf_leafEntry (by unfold FlagsOnly; decide)]
        exact hmap0.translate _
      · rw [hm.translate_other hk.safe.tables hme' (hsrc (i + 1) (by omega)).1 (.inr ?_)]
        · exact hmap (i + 1) (by omega)
        · by_cases hmt : me = target
          · exact .inr fun hp => hc ⟨hmt,hp⟩
          · exact .inl hmt
    · dsimp only at hleft
      omega

end

/-! ### The call -/

def Reserves (vm : TaskVm) (va : U64) : Prop :=
  ∃ i, (vm.vmas i).used = true ∧ (vm.vmas i).start ≤ va ∧ va < (vm.vmas i).stop

instance (vm : TaskVm) (va : U64) : Decidable (Reserves vm va) :=
  inferInstanceAs (Decidable (∃ _, _))

/-- An address that a share may fill: unmapped, unreserved and in the general range. -/
def Fillable (ph : Phys) (vm : TaskVm) (r va : U64) : Prop :=
  ph.vmmTranslateIn r va = 0#64 ∧ ¬ Reserves vm va ∧ va < userVaMax

def accounting (p : Proc) : U64 × ℤ := (State.shareBase p.vm, p.vm.shmemSharedOut)

structure SameFor (s s' : State) (pid : ℕ) : Prop where
  translations : ∀ r, s.rootOf pid = some r → ∀ va, LowerHalf va →
    s'.phys.vmmTranslateIn r va = s.phys.vmmTranslateIn r va
  accounts : (s'.procs pid).map accounting = (s.procs pid).map accounting

/-- A successful call changes the translations of the target at fillable addresses only; a
failing one changes nothing for either process. -/
def ShareContract (s : State) (me : ℕ) (targetPid inVa npages out : U64) : Prop :=
  match s.sysShmemShare me targetPid inVa npages out with
  | (.ok _, s') => ∀ t vm r, s.taskFind (targetPid.setWidth 32).toInt = some t →
      s.space t = some (vm, r) → ∀ va, LowerHalf va →
        s'.phys.vmmTranslateIn r va ≠ s.phys.vmmTranslateIn r va → Fillable s.phys vm r va
  | (.error _, s') => SameFor s s' me ∧
      ∀ t, s.taskFind (targetPid.setWidth 32).toInt = some t → SameFor s s' t

def SlotResident (s : State) (me : ℕ) (out : U64) : Prop :=
  ∀ r, s.rootOf me = some r →
    s.phys.vmmEntryIn r (pageOf out) ≠ 0#64 ∧ s.phys.vmmEntryIn r (pageOf (out + 7#64)) ≠ 0#64

/-- Every page of the target that the call gets to map translates to the very frame already, or
is fillable and the call gets to map all its pages. -/
def MapsFillable (s : State) (me : ℕ) (targetPid inVa npages out : U64) : Prop :=
  ∀ t vm r, s.taskFind (targetPid.setWidth 32).toInt = some t → s.space t = some (vm, r) →
    ∀ i g, (s.shareGrants me targetPid inVa npages out)[i]? = some g →
      ∀ va, LowerHalf va → pagePath va = pagePath (pageAt (State.shareBase vm) i) →
        s.phys.vmmTranslateIn r va = g.frame ||| (va &&& 0xFFF#64) ∨
          (s.shareGrants me targetPid inVa npages out).length = npages.toNat ∧
            Fillable s.phys vm r va

variable {s : State} {own₁ : Owner} {me : ℕ} {targetPid inVa npages out : U64}

theorem faultInPages_present (hvm : vm.userPml4 = some r) (w : Bool) (n : ℕ)
    {page : U64} (h : ∀ i < n, ph.vmmEntryIn r (pageOf (pageAt page i)) ≠ 0#64) :
    (vm.faultInPages w n page ph).2 = ph := by
  induction n generalizing page with
  | zero => rfl
  | succ n ih =>
    have h0 := h 0 (by omega)
    rw [pageAt_zero] at h0
    have hfault : ∃ ok, vm.uvmFaultIn ph page w = (ok, ph) := by
      unfold TaskVm.uvmFaultIn
      simp only [hvm,if_pos h0]
      exact ⟨_,rfl⟩
    obtain ⟨ok,hfault⟩ := hfault
    rw [TaskVm.faultInPages,hfault]
    cases ok with
    | false => rfl
    | true =>
      refine ih fun i hi => ?_
      rw [pageAt_succ]
      exact h (i + 1) (by omega)

theorem uvmBufferOk_present (hvm : vm.userPml4 = some r) (hlo : ph.vmmEntryIn r (pageOf out) ≠ 0#64)
    (hhi : ph.vmmEntryIn r (pageOf (out + 7#64)) ≠ 0#64) :
    (vm.uvmBufferOk ph out 8 true).2 = ph := by
  have hlast : out + 8 - 1 = out + 7#64 := by bv_omega
  unfold TaskVm.uvmBufferOk
  simp only [hvm,hlast]
  split
  · rfl
  split
  · rfl
  split
  · rfl
  split
  · rfl
  case isFalse hwrap _ =>
    refine faultInPages_present hvm true _ fun i hi => ?_
    have hstop : ¬ out + 8 < out := fun h => hwrap (.inr h)
    have hfit : out.toNat + 8 < 2 ^ 64 := by
      change ¬ (out.toNat + 8) % 2 ^ 64 < out.toNat at hstop
      omega
    have h7 : (out + 7#64).toNat = out.toNat + 7 := by
      exact Nat.mod_eq_of_lt (show out.toNat + 7 < 2 ^ 64 by omega)
    rw [toNat_sub,pageOf_toNat,pageOf_toNat,h7] at hi
    -- the slot has eight bytes, so a second page is the page of its last byte
    have hcase : pageOf (pageAt (pageOf out) i) = pageOf out ∨
        pageOf (pageAt (pageOf out) i) = pageOf (out + 7#64) := by
      have hpage : (pageOf (pageAt (pageOf out) i)).toNat =
          (out.toNat / 4096 * 4096 + 4096 * i) % 2 ^ 64 / 4096 * 4096 := by
        rw [pageOf_toNat,pageAt,toNat_add,pageOf_toNat,toNat_ofNat]
        omega
      rw [toNat_eq,toNat_eq,hpage,pageOf_toNat,pageOf_toNat,h7]
      omega
    rcases hcase with h | h
    · rwa [h]
    · rwa [h]

theorem shareChecks_phys (hslot : SlotResident s me out) (targetPid inVa npages : U64) :
    (s.shareChecks me targetPid inVa npages out).2 = s.phys ∧
      ∀ c, (s.shareChecks me targetPid inVa npages out).1 = .ok c → c.phys = s.phys := by
  have hfail (e : Errno) : (((.error e, s.phys) : Except Errno State.ShareCall × Phys)).2 = s.phys ∧
      ∀ c, (((.error e, s.phys) : Except Errno State.ShareCall × Phys)).1 = .ok c →
        c.phys = s.phys := ⟨rfl,fun c hc => by cases hc⟩
  unfold State.shareChecks
  split
  · exact hfail _
  split
  · exact hfail _
  split
  · exact hfail _
  split
  · exact hfail _
  cases hme : s.space me with
  | none => exact hfail _
  | some m =>
    obtain ⟨vm,pml4⟩ := m
    obtain ⟨p,hp,rfl,hroot,hrootOf⟩ := space_some hme
    obtain ⟨hlo,hhi⟩ := hslot pml4 hrootOf
    have hphys := uvmBufferOk_present hroot hlo hhi
    dsimp only
    split
    · exact hfail _
    · generalize p.vm.uvmBufferOk s.phys out 8 true = res at hphys
      obtain ⟨ok,ph⟩ := res
      cases ok with
      | false => exact ⟨hphys,fun c hc => by cases hc⟩
      | true =>
        refine ⟨hphys,fun c hc => ?_⟩
        cases hc
        exact hphys

theorem shareBase_ne_zero (vm : TaskVm) : State.shareBase vm ≠ 0#64 := by
  unfold State.shareBase
  split
  · decide
  case isFalse h => exact h

theorem accounting_failed {t : ℕ} (hsp : s.space t = some (vm, r)) (ph : Phys) (pid : ℕ) :
    (({ s with phys := ph }.modifyVm t
        ({ · with shmemNextVa := State.shareBase vm })).procs pid).map accounting =
      (s.procs pid).map accounting := by
  obtain ⟨p,hp,rfl,-,-⟩ := space_some hsp
  by_cases hpid : pid = t
  · subst hpid
    simp only [State.modifyVm,Function.update_self,hp,map_some,accounting]
    rw [State.shareBase,if_neg (shareBase_ne_zero p.vm)]
  · simp [State.modifyVm,Function.update_of_ne hpid]

theorem toNat_of_toInt {x : U64} (hpos : 0 < x.toInt) (hmax : x.toInt ≤ maxShmemPages) :
    x.toNat ≤ 4096 := by
  rw [toInt_eq_toNat_cond] at hpos hmax
  have hm : maxShmemPages = 4096 := rfl
  split at hmax <;> omega

/-- In a sound state, with the slot present, a call keeps the contract if and only if every page
it gets to map was fillable, or translated to the very frame already. -/
theorem Owned.shareContract_iff (h : Owned lowPd s own)
    (hc : SharesOwnPages s me targetPid inVa npages) (hslot : SlotResident s me out) :
    ShareContract s me targetPid inVa npages out ↔ MapsFillable s me targetPid inVa npages out := by
  unfold ShareContract MapsFillable State.shareGrants State.sysShmemShare
  obtain ⟨hphys,hcphys⟩ := shareChecks_phys hslot targetPid inVa npages
  obtain ⟨own₁,-,hok⟩ := h.shareChecks me targetPid inVa npages out
  generalize s.shareChecks me targetPid inVa npages out = res at hphys hcphys hok
  obtain ⟨start,ph⟩ := res
  cases start with
  | error e =>
    obtain rfl : ph = s.phys := hphys
    have hsame (pid : ℕ) : SameFor s { s with phys := s.phys } pid := ⟨fun _ _ _ _ => rfl,rfl⟩
    exact iff_of_true ⟨hsame me,fun t _ => hsame t⟩ (by simp)
  | ok c =>
    obtain ⟨hpos,hmax,-,hs⟩ := hok c rfl
    obtain ⟨vm,hfind,hsp,hva⟩ := hs.target
    have hroot := h.root hs.targetRoot
    have hc := hc hpos hmax
    have hdst : ∀ i < npages.toNat, LowerHalf (pageAt c.targetVa i) := by
      intro i hi
      rw [hva]
      exact (hc i hi).2 c.target vm c.targetPml4 hfind hsp
    have hn : npages.toNat < 2 ^ 40 := by
      have := toNat_of_toInt hpos hmax
      omega
    have hsrc : ∀ i < npages.toNat, Sharable s.phys c.pml4 (pageAt inVa i) :=
      fun i hi => (hc i hi).1 c.pml4 hs.meRoot
    have hchanged {y : U64} (hy : LowerHalf y) := sharePages_changed_iff h.safe
      (h.root hs.meRoot) hroot npages.toNat hn hsrc hdst hy
    have hother {x y : U64} (hx : own x = some (x, [])) (hy : LowerHalf y) (hne : x ≠ c.targetPml4) :=
      (sharePages_translate h.safe.tables (h.root hs.meRoot) hroot npages.toNat hn h.safe.kept
        hsrc hdst hx hy).1 (.inl hne)
    have hcomplete : (sharePages c.pml4 c.targetPml4 npages.toNat inVa c.targetVa s.phys).1 =
        .ok () ↔ (grants c.pml4 c.targetPml4 npages.toNat inVa c.targetVa s.phys).length =
          npages.toNat := sharePages_ok_iff npages.toNat inVa c.targetVa s.phys
    dsimp only
    rw [hcphys c rfl]
    rw [hva] at hchanged hother hcomplete ⊢
    generalize sharePages c.pml4 c.targetPml4 npages.toNat inVa (State.shareBase vm) s.phys = res
      at hchanged hother hcomplete ⊢
    generalize grants c.pml4 c.targetPml4 npages.toNat inVa (State.shareBase vm) s.phys = gs
      at hchanged hcomplete ⊢
    obtain ⟨err,ph'⟩ := res
    cases err with
    | error e =>
      have hlen : gs.length ≠ npages.toNat := fun hl => by cases hcomplete.mpr hl
      constructor
      · rintro ⟨-,hsame⟩ t vm' r ht hsp' i g hg va hlow hpath
        cases hfind.symm.trans ht
        cases hsp.symm.trans hsp'
        by_contra hdiff
        refine (hchanged hlow).mpr ⟨i,g,hg,hpath,fun heq => hdiff (.inl heq)⟩ ?_
        exact (hsame _ hfind).translations _ hs.targetRoot va hlow
      · intro hmaps
        have hsame (pid : ℕ) (r : U64) (hr : s.rootOf pid = some r) (va : U64) (hlow : LowerHalf va) :
            ph'.vmmTranslateIn r va = s.phys.vmmTranslateIn r va := by
          by_cases hrt : r = c.targetPml4
          · by_contra hne
            rw [hrt] at hne
            obtain ⟨i,g,hg,hpath,hdiff⟩ := (hchanged hlow).mp hne
            rcases hmaps _ vm _ hfind hsp i g hg va hlow hpath with heq | ⟨hl,-⟩
            · exact hdiff heq
            · exact hlen hl
          · exact hother (h.root hr) hlow hrt
        exact ⟨⟨hsame me,accounting_failed hsp ph' me⟩,
          fun t _ => ⟨hsame t,accounting_failed hsp ph' t⟩⟩
    | ok _ =>
      have hlen : gs.length = npages.toNat := hcomplete.mp rfl
      constructor
      · intro hadd t vm' r ht hsp' i g hg va hlow hpath
        by_cases heq : s.phys.vmmTranslateIn r va = g.frame ||| (va &&& 0xFFF#64)
        · exact .inl heq
        · cases hfind.symm.trans ht
          cases hsp.symm.trans hsp'
          exact .inr ⟨hlen,hadd _ vm _ hfind hsp va hlow
            ((hchanged hlow).mpr ⟨i,g,hg,hpath,heq⟩)⟩
      · intro hmaps t vm' r ht hsp' va hlow hne
        cases hfind.symm.trans ht
        cases hsp.symm.trans hsp'
        obtain ⟨i,g,hg,hpath,hdiff⟩ := (hchanged hlow).mp hne
        rcases hmaps _ vm _ hfind hsp i g hg va hlow hpath with heq | ⟨-,hfill⟩
        · exact absurd heq hdiff
        · exact hfill

/-- What a call needs besides a target range: the result slot is present, the caller's pages have
entries of their own and frames that `vmm_map_in` takes, the target range lies in the shared memory
arena, and there are frames for three tables a page. -/
structure Ready (s : State) (me : ℕ) (targetPid inVa npages out : U64) : Prop where
  slot : SlotResident s me out
  source : ∀ r, s.rootOf me = some r → ∀ i < npages.toNat, LowerHalf (pageAt inVa i) ∧
    s.phys.vmmEntryIn r (pageAt inVa i) ≠ 0#64 ∧ Mappable (s.phys.vmmTranslateIn r (pageAt inVa i))
  target : ∀ t vm r, s.taskFind (targetPid.setWidth 32).toInt = some t → s.space t = some (vm, r) →
    ∀ i < npages.toNat, LowerHalf (pageAt (State.shareBase vm) i) ∧
      userShmemBase ≤ pageAt (State.shareBase vm) i
  frames : 3 * npages.toNat ≤ s.phys.pmm.spare.card

def Refused (s : State) (me : ℕ) (targetPid inVa npages out : U64) : Prop :=
  ∃ e, (s.shareChecks me targetPid inVa npages out).1 = .error e

/-- Every page of the target range is unmapped, unreserved and below `USER_VA_MAX`, or maps the
frame of the caller's page already. -/
def TargetFree (s : State) (me : ℕ) (targetPid inVa npages : U64) : Prop :=
  ∀ m t vm r, s.rootOf me = some m → s.taskFind (targetPid.setWidth 32).toInt = some t →
    s.space t = some (vm, r) → ∀ i < npages.toNat, ∀ va, LowerHalf va →
      pagePath va = pagePath (pageAt (State.shareBase vm) i) →
        s.phys.vmmTranslateIn r va =
            tableOf (s.phys.vmmTranslateIn m (pageAt inVa i)) ||| (va &&& 0xFFF#64) ∨
          Fillable s.phys vm r va

theorem not_inLowGiB (hva : LowerHalf va) (hbase : userShmemBase ≤ va) : ¬ InLowGiB va := by
  rintro ⟨h4,h3⟩
  have h4 := congrArg BitVec.toNat h4
  have h3 := congrArg BitVec.toNat h3
  simp only [pml4Index,pdptIndex,toNat_setWidth,toNat_ushiftRight,Nat.shiftRight_eq_div_pow] at h4 h3
  unfold LowerHalf at hva
  rw [le_def] at hbase
  change 0x80000000 ≤ _ at hbase
  simp at h4 h3
  omega

/-- The pages of a complete call, in terms of the state it was made in. -/
theorem Owned.mapsFillable_iff (h : Owned lowPd s own)
    (hready : Ready s me targetPid inVa npages out) : MapsFillable s me targetPid inVa npages out ↔
      Refused s me targetPid inVa npages out ∨ TargetFree s me targetPid inVa npages := by
  unfold MapsFillable State.shareGrants Refused TargetFree
  obtain ⟨-,hcphys⟩ := shareChecks_phys hready.slot targetPid inVa npages
  obtain ⟨own₁,-,hok⟩ := h.shareChecks me targetPid inVa npages out
  generalize s.shareChecks me targetPid inVa npages out = res at hcphys hok
  obtain ⟨start,ph⟩ := res
  cases start with
  | error e => exact iff_of_true (by simp) (.inl ⟨e,rfl⟩)
  | ok c =>
    obtain ⟨hpos,hmax,-,hs⟩ := hok c rfl
    obtain ⟨vm,hfind,hsp,hva⟩ := hs.target
    have hme := h.root hs.meRoot
    have htgt := h.root hs.targetRoot
    have hsrc : ∀ i < npages.toNat, Sharable s.phys c.pml4 (pageAt inVa i) := by
      intro i hi
      obtain ⟨hlow,hentry,-⟩ := hready.source c.pml4 hs.meRoot i hi
      exact ⟨hlow,fun _ => hentry⟩
    have hmap : ∀ i < npages.toNat, Mappable (s.phys.vmmTranslateIn c.pml4 (pageAt inVa i)) :=
      fun i hi => (hready.source c.pml4 hs.meRoot i hi).2.2
    have hdst := hready.target c.target vm c.targetPml4 hfind hsp
    have hn : npages.toNat < 2 ^ 40 := by
      have := toNat_of_toInt hpos hmax
      omega
    have hcomplete := (sharePages_ok_iff npages.toNat inVa (State.shareBase vm) s.phys).mp
      (sharePages_complete h.safe.tables hme htgt npages.toNat h.safe.kept hsrc hmap
        (fun i hi => ⟨(hdst i hi).1,not_inLowGiB (hdst i hi).1 (hdst i hi).2⟩) hready.frames)
    have hframe {i : ℕ} {g : Grant} (hi : i < npages.toNat) hg hsame :=
      grants_frame h.safe.tables hme htgt npages.toNat hn h.safe.kept hsrc (fun i hi => (hdst i hi).1)
        (i := i) (g := g) hg hsame (hmap i hi).ne_zero
    dsimp only
    rw [hcphys c rfl,hva]
    generalize grants c.pml4 c.targetPml4 npages.toNat inVa (State.shareBase vm) s.phys = gs
      at hcomplete hframe ⊢
    constructor
    · intro hmaps
      refine .inr fun m t vm' r hm ht hsp' i hi va hlow hpath => ?_
      cases hs.meRoot.symm.trans hm
      cases hfind.symm.trans ht
      cases hsp.symm.trans hsp'
      have hg : gs[i]? = some _ := List.getElem?_eq_getElem (hcomplete ▸ hi)
      rw [← hframe hi hg fun j _ g' hg' va' hlow' hpath' =>
        (hmaps _ vm _ hfind hsp j g' hg' va' hlow' hpath').imp_right (·.2.1)]
      exact (hmaps _ vm _ hfind hsp i _ hg va hlow hpath).imp_right And.right
    · rintro (⟨e,he⟩ | hfree)
      · cases he
      intro t vm' r ht hsp'
      cases hfind.symm.trans ht
      cases hsp.symm.trans hsp'
      have hlt {i : ℕ} {g : Grant} (hg : gs[i]? = some g) : i < npages.toNat :=
        hcomplete ▸ (List.getElem?_eq_some_iff.mp hg).1
      have hpage {i : ℕ} {g : Grant} (hg : gs[i]? = some g) :=
        hfree c.pml4 c.target vm c.targetPml4 hs.meRoot hfind hsp i (hlt hg)
      have hall (i : ℕ) : ∀ g, gs[i]? = some g →
          g.frame = tableOf (s.phys.vmmTranslateIn c.pml4 (pageAt inVa i)) := by
        induction i using Nat.strong_induction_on with
        | _ i ih =>
          refine fun g hg => hframe (hlt hg) hg fun j hj g' hg' va hlow hpath => ?_
          rw [ih j hj g' hg']
          exact (hpage hg' va hlow hpath).imp_right (·.1)
      intro i g hg va hlow hpath
      rw [hall i g hg]
      exact (hpage hg va hlow hpath).imp_right fun hfill => ⟨hcomplete,hfill⟩

theorem space_two {t : ℕ} (ht : twoProcesses.taskFind ((2 : U64).setWidth 32).toInt = some t)
    (hsp : twoProcesses.space t = some (vm, r)) :
    r = 0x105000#64 ∧ ∀ i, (vm.vmas i).used = false := by
  have htwo : t = 2 := by
    refine some.inj (ht.symm.trans ?_)
    decide +kernel
  subst htwo
  have hmap := congrArg (Option.map fun m : TaskVm × U64 =>
    (m.2, decide (∀ i, (m.1.vmas i).used = false))) hsp
  obtain ⟨h1,h2⟩ := Prod.ext_iff.mp (some.inj hmap)
  exact ⟨h1.symm,of_decide_eq_true h2.symm⟩

theorem fillable_two (hvm : ∀ i, (vm.vmas i).used = false) (hlow : LowerHalf va)
    (hpath : pagePath va = pagePath 0x80000000#64) :
    Fillable twoProcesses.phys vm 0x105000#64 va := by
  have hpage : pageOf va = 0x80000000#64 := by
    refine hlow.pageOf.pagePath_inj (by unfold LowerHalf; decide) ?_ (by decide) (by simpa using hpath)
    unfold PageAligned
    rw [pageOf_toNat]
    omega
  have hnat := congrArg BitVec.toNat hpage
  rw [pageOf_toNat] at hnat
  change _ = 0x80000000 at hnat
  have hindex : pml4Index va = pml4Index 0x80000000#64 ∧ pdptIndex va = pdptIndex 0x80000000#64 := by
    simp only [pagePath,tablePath,List.cons.injEq] at hpath
    exact ⟨hpath.2.2.2.1,hpath.2.2.1⟩
  refine ⟨?_,?_,?_⟩
  · unfold Phys.vmmTranslateIn
    rw [hindex.1,hindex.2]
    dsimp only
    split
    · rfl
    · rfl
  · rintro ⟨i,hused,-⟩
    rw [hvm i] at hused
    cases hused
  · rw [lt_def]
    change _ < 0x7F0000000000
    omega

theorem ready_twoProcesses : Ready twoProcesses 1 2 0x50000000 1 0x50000000 where
  slot r hr := by
    cases rootOf_one hr
    exact ⟨by decide +kernel,by decide +kernel⟩
  source r hr i hi := by
    obtain rfl : i = 0 := Nat.lt_one_iff.mp hi
    cases rootOf_one hr
    exact ⟨by unfold LowerHalf; decide,by decide +kernel,by unfold Mappable; decide +kernel⟩
  target t vm r ht hsp i hi := by
    obtain rfl : i = 0 := Nat.lt_one_iff.mp hi
    rw [shareBase_two ht hsp,pageAt_zero]
    exact ⟨by unfold LowerHalf; decide,by decide⟩
  frames := by decide +kernel

/-- Process 2 has reserved the first page of the shared memory range with `MAP_FIXED` and not
touched it yet. -/
def reservedAhead : State :=
  run (step bootKernel) bootState (spawnTwo ++ [.reserve 2 0x80000000 4096 7 true])

end Spaces

end GaiaKernel
