import GaiaKernel.Syscall.UserAccess

/-! # Which touches succeed, and where they land

On a sound space a touch of an address that demand paging can supply goes through the caller's own
page and leaves every page already there in place. `Reaches` follows a range byte by byte; a range
whose pages can be faulted in one after the other is reached.
-/
namespace GaiaKernel
open Exec
variable {κ : Type} {lowPd r va : U64} {ph ph' ph'' : Phys} {own own' : Owner} {c : Caller}
  {addr : U64} {store : Bool}

theorem mappedIn_of_entry (h : ph.vmmEntryIn r va ≠ 0#64) : ph.mappedIn r va = true := by
  unfold Phys.vmmEntryIn Phys.walkOnly at h
  unfold Phys.mappedIn
  grind

theorem mappedIn_cases (h : Tables lowPd ph own) (hr : own r = some (r, [])) (hva : LowerHalf va)
    (hm : ph.mappedIn r va = true) :
    (∃ e, LeafAt ph own r (pagePath va) e) ∨ LowLink lowPd ph own r ∧ InLowGiB va := by
  simp only [Phys.mappedIn,Bool.and_eq_true,Bool.or_eq_true] at hm
  obtain ⟨⟨h0,h1⟩,h2⟩ := hm
  have ho1 := h.below_root hr hva.pml4Index h0
  generalize tableOf (ph.mem r (pml4Index va)) = pdpt at *
  obtain ⟨hps1,hn1⟩ := h.table ho1 (by simp) (by simp [LowerIndex]) h1
  rcases hn1 with ho2 | ⟨hi0,hi1,hlow,_⟩
  · obtain ⟨hp2,hleaf⟩ := h2.resolve_left (by simp [hps1])
    obtain ⟨hps2,ho3⟩ := h.below_pd ho2 hp2
    exact Or.inl ⟨_,_,ptIndex va,tablePath va,rfl,rfl,ho3,rfl,hleaf.resolve_left (by simp [hps2])⟩
  · have hidx : pml4Index va = 0#9 := (List.cons.inj hi0).1
    refine Or.inr ⟨⟨pdpt,?_,?_,?_⟩,hidx,hi1⟩
    · rw [ho1,hidx]
    · rw [← hi1]; exact h1
    · rw [← hi1]; exact hlow

theorem Caller.root_eq (h : c.vm.userPml4 = some r) : c.root = r := by
  simp [Caller.root,h]

variable {vm : TaskVm}

theorem Accessible.uvmFaultIn (h : Accessible vm ph addr store) :
    vm.uvmFaultIn ph addr store = (true, ph) := by
  obtain ⟨_,r,hvm,hne,hu,hw⟩ := h
  simp only [TaskVm.uvmFaultIn,hvm]
  rw [if_pos hne,hu]
  cases store with
  | false => rfl
  | true => simp [hw rfl]

theorem Accessible.load (h : Accessible vm ph addr store) : Accessible vm ph addr false := by
  obtain ⟨hl,r,hvm,hne,hu,_⟩ := h
  exact ⟨hl,r,hvm,hne,hu,by simp⟩

theorem Accessible.pageIn (h : Accessible c.vm ph addr store) (store' : Bool) :
    c.pageIn ph addr store' = some ph := by
  obtain ⟨_,r,hvm,hne,_⟩ := h
  unfold Caller.pageIn
  rw [Caller.root_eq hvm,if_pos]
  rw [vmmEntryIn_pageOf] at hne
  exact mappedIn_of_entry hne

variable (h : SoundSpace lowPd r vm ph own)
include h

theorem SoundSpace.accessible
    (hva : LowerHalf addr) {e : U64} (hl : LeafAt ph own r (pagePath addr) e)
    (hg : Grants store e) : Accessible vm ph addr store := by
  obtain ⟨he,hne⟩ := (vmmEntryIn_iff h.safe.tables h.root hva.pageOf.pml4Index e).mpr
    (by rwa [pagePath_pageOf])
  exact ⟨hva,r,h.vmRoot,by rw [he]; exact ⟨hne,hg⟩⟩

theorem Accessible.leafAt
    (ha : Accessible vm ph addr store) : ∃ e, LeafAt ph own r (pagePath addr) e ∧ Grants store e := by
  obtain ⟨hva,r',hvm,hne,hg⟩ := ha
  cases h.vmRoot.symm.trans hvm
  have hl := (vmmEntryIn_iff h.safe.tables h.root hva.pageOf.pml4Index _).mp ⟨rfl,hne⟩
  rw [pagePath_pageOf] at hl
  exact ⟨_,hl,hg⟩

omit h in
structure Extended (lowPd r : U64) (vm : TaskVm) (ph : Phys) (own : Owner) (ph' : Phys)
    (own' : Owner) : Prop where
  sound : SoundSpace lowPd r vm ph' own'
  leaf : ∀ {q e}, LeafAt ph own r q e → LeafAt ph' own' r q e

theorem SoundSpace.refl : Extended lowPd r vm ph own ph own := ⟨h,id⟩

theorem Extended.accessible
    (hx : Extended lowPd r vm ph own ph' own') (ha : Accessible vm ph addr store) :
    Accessible vm ph' addr store := by
  obtain ⟨e,hl,hg⟩ := ha.leafAt h
  exact hx.sound.accessible ha.1 (hx.leaf hl) hg

theorem SoundSpace.faulted
    (hf : Faulted lowPd store ph own ph' own') : Extended lowPd r vm ph own ph' own' :=
  ⟨⟨hf.safe,(hf.roots r).mpr h.root,h.vmRoot,h.bounded⟩,hf.leaf⟩

omit h

theorem Caller.pageFault_lowerHalf (hva : LowerHalf addr) :
    c.pageFault ph addr store = match c.vm.uvmFaultIn ph addr store with
      | (true, ph') => some ph'
      | (false, _) => none := by
  have hk : ¬ addr ≥ vmaKernelStart := by
    have : vmaKernelStart.toNat = 0xFFFFFFFFC0000000 := by decide
    unfold LowerHalf at hva
    simp only [ge_iff_le,BitVec.le_def]
    omega
  unfold Caller.pageFault
  rw [if_neg hk]
  rfl

theorem uvmFaultIn_load (h : vm.uvmFaultIn ph addr store = (true, ph')) :
    vm.uvmFaultIn ph addr false = (true, ph') := by
  unfold TaskVm.uvmFaultIn at h ⊢
  cases hvm : vm.userPml4 with
  | none => simp [hvm] at h
  | some r =>
    simp only [hvm] at h ⊢
    grind

/-- A byte that demand paging can supply is touched through a page of the caller that user
mode could have used, and no page goes away. -/
theorem SoundSpace.faultIn (h : SoundSpace lowPd r c.vm ph own) (hva : LowerHalf addr)
    (hf : c.vm.uvmFaultIn ph addr store = (true, ph')) :
    ∃ own', Extended lowPd r c.vm ph own ph' own' ∧ Accessible c.vm ph' addr store ∧
      c.pageIn ph addr store = some ph' ∧ c.pageIn ph addr false = some ph' := by
  have hload := uvmFaultIn_load hf
  by_cases hacc : Accessible c.vm ph addr store
  · cases hacc.uvmFaultIn.symm.trans hf
    exact ⟨own,h.refl,hacc,hacc.pageIn store,hacc.pageIn false⟩
  have hf' := hf
  simp only [TaskVm.uvmFaultIn,h.vmRoot] at hf
  by_cases he : ph.vmmEntryIn r (pageOf addr) ≠ 0#64
  · rw [if_pos he,Prod.mk.injEq,Bool.and_eq_true] at hf
    exact absurd ⟨hva,r,h.vmRoot,he,hf.1.1,fun hs => by simpa [hs] using hf.1.2⟩ hacc
  rw [if_neg he] at hf
  cases hv : c.vm.vmaAt (pageOf addr) with
  | none => simp [hv] at hf
  | some i =>
    simp only [hv] at hf
    split_ifs at hf with hperm
    · cases hf
    have hgr : Grants store (c.vm.vmas i).pteFlags := by
      simp only [Bool.or_eq_true,Bool.not_eq_true',Bool.and_eq_true,not_or,not_and,
        Bool.not_eq_false] at hperm
      exact hperm
    obtain ⟨own',hm⟩ := h.safe.mapFresh h.root hva.pageOf (TaskVm.vmaAt_spec h.bounded hv).2
    rw [hf] at hm
    have habs : ∀ e, ¬ LeafAt ph own r (pagePath (pageOf addr)) e := by
      intro e hl
      obtain ⟨h1,h2⟩ := (vmmEntryIn_iff h.safe.tables h.root hva.pageOf.pml4Index e).mpr hl
      exact h2 (h1.symm.trans (not_not.mp he))
    have hx := h.faulted (hm.faulted habs hgr)
    have hacc' : Accessible c.vm ph' addr store := by
      obtain ⟨f,_,hset⟩ := hm.mapped rfl
      have hl := (hset r (pagePath addr) (leafEntry f (c.vm.vmas i).pteFlags)).mpr
      rw [pagePath_pageOf,if_pos ⟨rfl,rfl⟩] at hl
      exact hx.sound.accessible hva (hl ⟨rfl,has_leafEntry_present _ _⟩) (grants_leafEntry hgr)
    have hmap : ¬ ph.mappedIn r addr = true := by
      intro hc
      rcases mappedIn_cases h.safe.tables h.root hva hc with ⟨e,hl⟩ | ⟨hl,hgib⟩
      · rw [← pagePath_pageOf] at hl
        exact habs e hl
      · -- The identity map would still cover the page afterwards, and hide the new leaf.
        obtain ⟨_,r',hvm,hne,_⟩ := hacc'
        cases h.vmRoot.symm.trans hvm
        rw [vmmEntryIn_pageOf] at hne
        exact hne (((hm.low.link r).mpr hl).lookup hx.sound.safe.tables hx.sound.root hgib).1
    refine ⟨own',hx,hacc',?_,?_⟩
    · rw [Caller.pageIn,Caller.root_eq h.vmRoot,if_neg hmap,Caller.pageFault_lowerHalf hva,hf']
    · rw [Caller.pageIn,Caller.root_eq h.vmRoot,if_neg hmap,Caller.pageFault_lowerHalf hva,hload]

theorem LowerHalf.toNat_add_one (h : LowerHalf addr) : (addr + 1).toNat = addr.toNat + 1 := by
  unfold LowerHalf at h
  have : (1 : U64).toNat = 1 := rfl
  rw [BitVec.toNat_add]
  omega

def reachBytes (vm : TaskVm) (store : Bool) : ℕ → U64 → Phys → Bool × Phys
  | 0, _, ph => (true, ph)
  | n + 1, addr, ph =>
    match vm.uvmFaultIn ph addr store with
    | (false, ph') => (false, ph')
    | (true, ph') => reachBytes vm store n (addr + 1) ph'

theorem uvmFaultIn_pageOf (vm : TaskVm) (ph : Phys) (addr : U64) (store : Bool) :
    vm.uvmFaultIn ph (pageOf addr) store = vm.uvmFaultIn ph addr store := by
  simp only [TaskVm.uvmFaultIn,pageOf_pageOf]

theorem Accessible.pageOf (h : Accessible vm ph addr store) :
    Accessible vm ph (pageOf addr) store := by
  obtain ⟨hl,r,hvm,hne,hg⟩ := h
  exact ⟨hl.pageOf,r,hvm,by rw [pageOf_pageOf]; exact ⟨hne,hg⟩⟩

theorem SoundSpace.reachBytes (h : SoundSpace lowPd r c.vm ph own) {n : ℕ}
    (hn : 0 < n) (hend : addr.toNat + n ≤ 2 ^ 47)
    (hf : c.vm.faultInPages store (pagesSpanned addr n) (pageOf addr) ph = (true, ph')) :
    GaiaKernel.reachBytes c.vm store n addr ph = (true, ph') := by
  induction n generalizing addr ph own with
  | zero => cases hn
  | succ n ih =>
    have hva : LowerHalf addr := by unfold LowerHalf; omega
    obtain ⟨k,hk⟩ : ∃ k, pagesSpanned addr (n + 1) = k + 1 :=
      ⟨(addr.toNat % 4096 + n) / 4096,by unfold pagesSpanned; omega⟩
    rw [hk] at hf
    simp only [TaskVm.faultInPages,uvmFaultIn_pageOf] at hf
    simp only [GaiaKernel.reachBytes]
    cases hfault : c.vm.uvmFaultIn ph addr store with
    | mk ok ph1 =>
    cases ok with
    | false => simp [hfault] at hf
    | true =>
      simp only [hfault] at hf ⊢
      obtain ⟨own1,hx,hacc,_⟩ := h.faultIn hva hfault
      cases n with
      | zero =>
        have hk0 : k = 0 := by unfold pagesSpanned at hk; omega
        subst hk0
        exact hf
      | succ n =>
        have hadd := hva.toNat_add_one
        apply ih hx.sound (Nat.succ_pos n) (by omega)
        by_cases hlast : addr.toNat % 4096 = 4095
        · -- The next byte starts the next page.
          have hpage : pageOf (addr + 1) = pageOf addr + 4096 := by
            apply BitVec.eq_of_toNat_eq
            have h4096 : (4096 : U64).toNat = 4096 := rfl
            rw [BitVec.toNat_add,pageOf_toNat,pageOf_toNat,hadd,h4096]
            omega
          have hcount : pagesSpanned (addr + 1) (n + 1) = k := by
            unfold pagesSpanned at hk ⊢
            omega
          rw [hpage,hcount]
          exact hf
        · have hpage : pageOf (addr + 1) = pageOf addr := by
            apply BitVec.eq_of_toNat_eq
            rw [pageOf_toNat,pageOf_toNat,hadd]
            omega
          have hcount : pagesSpanned (addr + 1) (n + 1) = k + 1 := by
            unfold pagesSpanned at hk ⊢
            omega
          rw [hpage,hcount]
          simp only [TaskVm.faultInPages,hacc.pageOf.uvmFaultIn]
          exact hf

end GaiaKernel
