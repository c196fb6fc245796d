import GaiaKernel.Memory.PageOps

/-! # Lending pages

The page loops of `sys_shmem_share` and `sys_shmem_unshare` (arch/syscall.c). A share maps
whatever `vmm_translate_in` finds at the caller's page; the receiver's entry is marked
`VMM_SHARED`, and no reference is taken on the frame.
-/
namespace GaiaKernel
open BitVec
variable {lowPd r f va : U64} {ph ph' : Phys} {own own' : Owner} {inVa me target targetVa : U64}

inductive Errno where
  | efault | einval | esrch | enomem
  deriving DecidableEq, Repr

def shareFlags : U64 := vmmPresent ||| vmmWrite ||| vmmUser ||| vmmShared

/-- Map `n` pages of the caller from `inVa` on into the target from `targetVa` on. Pages
mapped before a failure stay mapped. -/
def sharePages (me target : U64) : ℕ → U64 → U64 → Phys → Except Errno Unit × Phys
  | 0, _, _, ph => (.ok (), ph)
  | n + 1, inVa, targetVa, ph =>
    let phys := ph.vmmTranslateIn me inVa
    if phys = 0#64 then (.error .efault, ph)
    else
      match ph.vmmMapIn target targetVa phys shareFlags with
      | (false, ph') => (.error .enomem, ph')
      | (true, ph') => sharePages me target n (inVa + 4096) (targetVa + 4096) ph'

def unsharePages (target : U64) : ℕ → U64 → Phys → ℕ × Phys
  | 0, _, ph => (0, ph)
  | n + 1, va, ph =>
    let entry := ph.vmmEntryIn target va
    if entry = 0#64 ∨ !has entry vmmShared then unsharePages target n (va + 4096) ph
    else
      let rest := unsharePages target n (va + 4096) (ph.vmmUnmapIn target va).2
      (rest.1 + 1, rest.2)

def InLowGiB (va : U64) : Prop := pml4Index va = 0#9 ∧ pdptIndex va = 0#9

/-- The physical address behind `va` if the identity map is what it reaches. -/
def identityAddr (ph : Phys) (lowPd va : U64) : U64 :=
  (ph.mem lowPd (pdIndex va) &&& vmmAddrMask) ||| (va &&& 0x1FFFFF#64)

theorem vmmTranslateIn_cases (h : Tables lowPd ph own) (hr : own r = some (r, []))
    (hva : LowerHalf va) (ht : ph.vmmTranslateIn r va ≠ 0#64) :
    (∃ e, LeafAt ph own r (pagePath va) e ∧
      ph.vmmTranslateIn r va = tableOf e ||| (va &&& 0xFFF#64)) ∨
    LowLink lowPd ph own r ∧ InLowGiB va ∧ ph.vmmTranslateIn r va = identityAddr ph lowPd va := by
  unfold Phys.vmmTranslateIn at ht ⊢
  by_cases h0 : (!has (ph.mem r (pml4Index va)) vmmPresent) = true
  · rw [if_pos h0] at ht; exact absurd rfl ht
  rw [if_neg h0] at ht ⊢
  simp only [Bool.not_eq_true',Bool.not_eq_false] at h0
  have ho1 := h.below_root hr hva.pml4Index h0
  generalize tableOf (ph.mem r (pml4Index va)) = pdpt at *
  by_cases h1 : (!has (ph.mem pdpt (pdptIndex va)) vmmPresent) = true
  · rw [if_pos h1] at ht; exact absurd rfl ht
  rw [if_neg h1] at ht ⊢
  simp only [Bool.not_eq_true',Bool.not_eq_false] at h1
  obtain ⟨hps1,hn1⟩ := h.table ho1 (by simp) (by simp [LowerIndex]) h1
  rw [if_neg (by simp [hps1])] at ht ⊢
  rcases hn1 with ho2 | ⟨hi0,hi1,hlow,_⟩
  · generalize tableOf (ph.mem pdpt (pdptIndex va)) = pd at *
    by_cases h2 : (!has (ph.mem pd (pdIndex va)) vmmPresent) = true
    · rw [if_pos h2] at ht; exact absurd rfl ht
    rw [if_neg h2] at ht ⊢
    simp only [Bool.not_eq_true',Bool.not_eq_false] at h2
    obtain ⟨hps2,ho3⟩ := h.below_pd ho2 h2
    rw [if_neg (by simp [hps2])] at ht ⊢
    generalize tableOf (ph.mem pd (pdIndex va)) = pt at *
    by_cases h3 : (!has (ph.mem pt (ptIndex va)) vmmPresent) = true
    · rw [if_pos h3] at ht; exact absurd rfl ht
    rw [if_neg h3]
    exact Or.inl ⟨_,⟨pt,ptIndex va,tablePath va,rfl,rfl,ho3,rfl,by simpa using h3⟩,rfl⟩
  · obtain ⟨hpres,hps⟩ := h.lowHuge (pdIndex va)
    have hidx : pml4Index va = 0#9 := (List.cons.inj hi0).1
    rw [hlow,if_neg (by simp [hpres]),if_pos hps]
    refine Or.inr ⟨⟨pdpt,?_,?_,?_⟩,⟨hidx,hi1⟩,rfl⟩
    · rw [ho1,hidx]
    · rw [← hi1]; exact h1
    · rw [← hi1]; exact hlow

theorem LowLink.lookup (h : Tables lowPd ph own) (hr : own r = some (r, []))
    (hl : LowLink lowPd ph own r) (hva : InLowGiB va) :
    ph.vmmEntryIn r va = 0#64 ∧ ph.vmmTranslateIn r va = identityAddr ph lowPd va := by
  obtain ⟨pdpt,ho,hpres,htab⟩ := hl
  obtain ⟨_,_,r',hr',hp0,ht0,_⟩ := h.parent ho
  cases h.inj hr' hr
  obtain ⟨hps,_⟩ := h.table ho (by simp) (by simp [LowerIndex]) hpres
  obtain ⟨hp2,hps2⟩ := h.lowHuge (pdIndex va)
  constructor
  · simp [Phys.vmmEntryIn,Phys.walkOnly,hva.1,hva.2,hp0,ht0,hpres,hps,htab,hps2]
  · simp [Phys.vmmTranslateIn,identityAddr,hva.1,hva.2,hp0,ht0,hpres,hps,htab,hp2,hps2]

variable {e : U64}

theorem translate_of_leafAt (h : Tables lowPd ph own) (hr : own r = some (r, []))
    (hl : LeafAt ph own r (pagePath va) e) :
    ph.vmmTranslateIn r va = tableOf e ||| (va &&& 0xFFF#64) := by
  obtain ⟨pt,i,p,hq,_,ho,rfl,hpres⟩ := hl
  cases hq
  obtain ⟨_,_,pd,ho2,hp2,he2,_⟩ := h.parent ho
  obtain ⟨_,_,pdpt,ho1,hp1,he1,_⟩ := h.parent ho2
  obtain ⟨_,_,r',ho0,hp0,he0,_⟩ := h.parent ho1
  cases h.inj ho0 hr
  have hps1 := (h.table ho1 (by simp) (by simp [LowerIndex]) hp1).1
  have hps2 := (h.below_pd ho2 hp2).1
  simp only [Phys.vmmTranslateIn,hp0,he0,hp1,he1,hp2,he2,hps1,hps2,hpres]
  simp [tableOf]

/-- The page is one the caller may lend: if its address translates at all, it is a page of
the lower half with an entry of its own. -/
def Sharable (ph : Phys) (r va : U64) : Prop :=
  LowerHalf va ∧ (ph.vmmTranslateIn r va ≠ 0#64 → ph.vmmEntryIn r va ≠ 0#64)

/-- A page that was sharable leads to a leaf whenever it translates later on, as long as the
identity map stays where it is. -/
theorem Sharable.leafAt {ph0 : Phys} {own0 : Owner} (hs : Sharable ph0 r va)
    (h0 : Tables lowPd ph0 own0) (hr0 : own0 r = some (r, []))
    (hlow : SameLow lowPd ph0 own0 ph own) (h : Tables lowPd ph own) (hr : own r = some (r, []))
    (ht : ph.vmmTranslateIn r va ≠ 0#64) : ∃ e, LeafAt ph own r (pagePath va) e ∧
      ph.vmmTranslateIn r va = tableOf e ||| (va &&& 0xFFF#64) := by
  rcases vmmTranslateIn_cases h hr hs.1 ht with he | ⟨hl,hva,heq⟩
  · exact he
  · obtain ⟨he0,ht0⟩ := ((hlow.link r).mp hl).lookup h0 hr0 hva
    have hsame : identityAddr ph lowPd va = identityAddr ph0 lowPd va := by
      unfold identityAddr
      rw [hlow.mem]
    refine absurd he0 (hs.2 ?_)
    rw [ht0,← hsame,← heq]
    exact ht

theorem FrameSafe.lendable (h : FrameSafe lowPd ph own) {q : Path}
    (hl : LeafAt ph own r q e) : Lendable lowPd ph own (tableOf e) := by
  cases hs : has e vmmShared with
  | true => exact h.shared r q e hl hs
  | false =>
    have ho := h.tables.owner_of_leafAt hl hs
    refine ⟨h.tables.taken ho,h.tables.ne_low ho,fun r' p' ho' => ?_⟩
    cases ho.symm.trans ho'
    exact hl.length

theorem tableOf_translate (va : U64) : tableOf (tableOf e ||| (va &&& 0xFFF#64)) = tableOf e := by
  have h0 : tableOf (va &&& 0xFFF#64) = 0#64 := by
    unfold tableOf
    rw [BitVec.and_assoc,show 0xFFF#64 &&& vmmAddrMask = 0#64 by decide]
    simp
  rw [tableOf_or,tableOf_tableOf,h0,or_zero]

theorem FrameSafe.shareMap (h : FrameSafe lowPd ph own)
    (htgt : own target = some (target, [])) (hdst : LowerHalf targetVa)
    (hl : LeafAt ph own me (pagePath inVa) e)
    (heq : ph.vmmTranslateIn me inVa = tableOf e ||| (inVa &&& 0xFFF#64)) :
    ∃ own', MapResult lowPd ph own target targetVa
      (leafEntry (ph.vmmTranslateIn me inVa) shareFlags)
      (ph.vmmMapIn target targetVa (ph.vmmTranslateIn me inVa) shareFlags).1
      (ph.vmmMapIn target targetVa (ph.vmmTranslateIn me inVa) shareFlags).2 own' := by
  have hfl : FlagsOnly shareFlags := by unfold FlagsOnly; decide
  have hshared : has (leafEntry (ph.vmmTranslateIn me inVa) shareFlags) vmmShared = true := by
    rw [has_leafEntry (by decide)]; decide
  refine h.vmmMapIn htgt hdst (fun g hg => ?_) fun _ => ?_
  · rw [(leafPage_some hg).2.1] at hshared
    cases hshared
  · rw [tableOf_leafEntry hfl,heq,tableOf_translate]
    exact h.lendable hl

theorem sharePages_kept {ph0 : Phys} {own0 : Owner} (h0 : Tables lowPd ph0 own0)
    (hme : own0 me = some (me, [])) (htgt : own0 target = some (target, [])) (n : ℕ)
    (hk : Kept lowPd ph0 own0 ph own)
    (hsrc : ∀ i < n, Sharable ph0 me (pageAt inVa i))
    (hdst : ∀ i < n, LowerHalf (pageAt targetVa i)) :
    ∃ own', Kept lowPd ph0 own0 (sharePages me target n inVa targetVa ph).2 own' := by
  induction n generalizing ph own inVa targetVa with
  | zero => exact ⟨own,hk⟩
  | succ n ih =>
    unfold sharePages
    by_cases ht : ph.vmmTranslateIn me inVa = 0#64
    · rw [if_pos ht]; exact ⟨own,hk⟩
    rw [if_neg ht]
    have hsrc0 := hsrc 0 (by omega)
    have hdst0 := hdst 0 (by omega)
    rw [pageAt_zero] at hsrc0 hdst0
    obtain ⟨e,hl,heq⟩ := hsrc0.leafAt h0 hme hk.low hk.safe.tables ((hk.roots me).mpr hme) ht
    obtain ⟨own1,hm⟩ := hk.safe.shareMap ((hk.roots target).mpr htgt) hdst0 hl heq
    generalize ph.vmmMapIn target targetVa (ph.vmmTranslateIn me inVa) shareFlags = res at hm
    obtain ⟨ok,ph1⟩ := res
    have hk1 := hk.trans hm.toKept
    cases ok with
    | false => exact ⟨own1,hk1⟩
    | true =>
      exact ih hk1 (forall_pages_tail hsrc)
        (forall_pages_tail hdst)

theorem unsharePages_unmapped (h : FrameSafe lowPd ph own) (hr : own r = some (r, [])) (n : ℕ)
    (hva : ∀ i < n, LowerHalf (pageAt va i)) :
    ∃ own', Unmapped lowPd ph own r (InPages va n) (unsharePages r n va ph).2 own' := by
  induction n generalizing ph own va with
  | zero => exact ⟨own,h.unmapped⟩
  | succ n ih =>
    have hva0 := hva 0 (by omega)
    rw [pageAt_zero] at hva0
    have hrest : ∀ i < n, LowerHalf (pageAt (va + 4096) i) := by
      intro i hi
      rw [pageAt_succ]
      exact hva (i + 1) (by omega)
    unfold unsharePages
    by_cases hc : ph.vmmEntryIn r va = 0#64 ∨ (!has (ph.vmmEntryIn r va) vmmShared) = true
    · rw [if_pos hc]
      obtain ⟨own',hu⟩ := ih h hr hrest
      exact ⟨own',hu.mono fun q hq => hq.succ⟩
    · rw [if_neg hc]
      have hl := (vmmEntryIn_iff h.tables hr hva0.pml4Index _).mp ⟨rfl,(not_or.mp hc).1⟩
      obtain ⟨pt,ho,hw⟩ := h.tables.vmmUnmapIn_eq hr hva0 hl
      have hu := h.unmapLeaf ho
      rw [← hw] at hu
      obtain ⟨own',hu'⟩ := ih hu.safe ((hu.roots r).mpr hr) hrest
      refine ⟨own',(hu.mono fun q hq => ?_).trans (hu'.mono fun q hq => hq.succ)⟩
      exact hq ▸ InPages.zero va n

theorem Tables.exists_va (h : Tables lowPd ph own) {q : Path} (hl : LeafAt ph own r q e) :
    ∃ va, LowerHalf va ∧ pagePath va = q := by
  obtain ⟨pt,i3,p,rfl,hp,ho,_,_⟩ := hl
  match p, hp with
  | [i2, i1, i0], _ =>
    obtain ⟨_,_,pd,ho2,_⟩ := h.parent ho
    obtain ⟨_,_,pdpt,ho1,_⟩ := h.parent ho2
    obtain ⟨_,hi0,_⟩ := h.parent ho1
    have h0 : i0.toNat < 256 := hi0 rfl
    refine ⟨BitVec.ofNat 64 (i0.toNat * 2 ^ 39 + i1.toNat * 2 ^ 30 + i2.toNat * 2 ^ 21 +
      i3.toNat * 2 ^ 12),?_,?_⟩
    · unfold LowerHalf
      rw [toNat_ofNat]
      omega
    · simp only [pagePath,tablePath,List.cons.injEq,and_true]
      refine ⟨?_,?_,?_,?_⟩ <;> refine eq_of_toNat_eq ?_ <;>
        simp only [ptIndex,pdIndex,pdptIndex,pml4Index,toNat_setWidth,
          toNat_ushiftRight,toNat_ofNat,Nat.shiftRight_eq_div_pow] <;> omega

end GaiaKernel
