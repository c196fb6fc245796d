import GaiaKernel.Memory.PageOps

/-! # Changing the permissions of pages

`vmm_protect_in` rewrites the flags of a leaf and keeps its frame and its owner, so no page
comes or goes; `uvm_protect` also faults in what is still lazy.
-/
namespace GaiaKernel
variable {lowPd r va flags : U64} {ph ph' ph'' : Phys} {own own' own'' : Owner}

/-- Flags of a user mapping: no address bits, and not those of a borrowed page. -/
def PlainFlags (flags : U64) : Prop := FlagsOnly flags ∧ has flags vmmShared = false

/-- The leaf `vmm_protect_in` stores in place of `e`. -/
def protEntry (e flags : U64) : U64 :=
  ((e &&& vmmAddrMask) ||| (e &&& vmmShared)) ||| (flags ||| vmmPresent)

theorem tableOf_protEntry (e : U64) (hfl : FlagsOnly flags) :
    tableOf (protEntry e flags) = tableOf e := by
  have h1 : tableOf (e &&& vmmAddrMask) = tableOf e := tableOf_tableOf e
  have h2 : tableOf (e &&& vmmShared) = 0#64 := by
    unfold tableOf
    rw [BitVec.and_assoc,show vmmShared &&& vmmAddrMask = 0#64 by decide,BitVec.and_zero]
  have h3 : tableOf vmmPresent = 0#64 := by decide
  rw [protEntry,tableOf_or,tableOf_or,tableOf_or,h1,h2,h3,hfl]
  simp

theorem has_protEntry_present (e flags : U64) : has (protEntry e flags) vmmPresent = true := by
  simp [protEntry,has_or,show has vmmPresent vmmPresent = true by decide]

theorem has_protEntry_shared (e : U64) (hfl : has flags vmmShared = false) :
    has (protEntry e flags) vmmShared = has e vmmShared := by
  have h1 : has (e &&& vmmAddrMask) vmmShared = false := has_tableOf (by decide)
  have h2 : has (e &&& vmmShared) vmmShared = has e vmmShared := by
    unfold has
    rw [BitVec.and_assoc,BitVec.and_self]
  rw [protEntry,has_or,has_or,has_or,h1,h2,hfl,show has vmmPresent vmmShared = false by decide]
  simp

theorem grants_protEntry {writable : Bool} (e : U64) (h : Grants writable flags) :
    Grants writable (protEntry e flags) := by
  refine ⟨?_,fun hw => ?_⟩
  · simp [protEntry,has_or,h.1]
  · simp [protEntry,has_or,h.2 hw]

/-- Protecting keeps every page with its frame; only `pages` of `r` may change their flags,
and get the access the new flags give. -/
structure Protected (lowPd : U64) (ph : Phys) (own : Owner) (r : U64) (pages : Path → Prop)
    (flags : U64) (ph' : Phys) (own' : Owner) : Prop extends Kept lowPd ph own ph' own' where
  leaf : ∀ {r' q e}, LeafAt ph own r' q e → ∃ e', LeafAt ph' own' r' q e' ∧
    tableOf e' = tableOf e ∧
      (e' = e ∨ r' = r ∧ pages q ∧ ∀ writable, Grants writable flags → Grants writable e')
  back : ∀ {r' q e'}, LeafAt ph' own' r' q e' → ∃ e, LeafAt ph own r' q e ∧
    tableOf e' = tableOf e ∧ has e' vmmShared = has e vmmShared

variable {pages : Path → Prop}

theorem FrameSafe.protected (h : FrameSafe lowPd ph own) :
    Protected lowPd ph own r pages flags ph own :=
  ⟨h.kept,fun hl => ⟨_,hl,rfl,Or.inl rfl⟩,fun hl => ⟨_,hl,rfl,rfl⟩⟩

section
variable (h : Protected lowPd ph own r pages flags ph' own')
include h

theorem Protected.mono {pages' : Path → Prop} (hp : ∀ q, pages q → pages' q) :
    Protected lowPd ph own r pages' flags ph' own' := by
  refine ⟨h.toKept,fun {r' q e} hl => ?_,h.back⟩
  obtain ⟨e',hl',ht,he⟩ := h.leaf hl
  exact ⟨e',hl',ht,he.imp id fun hc => ⟨hc.1,hp q hc.2.1,hc.2.2⟩⟩

theorem Protected.trans (h' : Protected lowPd ph' own' r pages flags ph'' own'') :
    Protected lowPd ph own r pages flags ph'' own'' := by
  refine ⟨h.toKept.trans h'.toKept,fun {r' q e} hl => ?_,fun {r' q e''} hl'' => ?_⟩
  · obtain ⟨e',hl',ht,he⟩ := h.leaf hl
    obtain ⟨e'',hl'',ht',he'⟩ := h'.leaf hl'
    refine ⟨e'',hl'',ht'.trans ht,?_⟩
    rcases he' with rfl | he'
    · exact he
    · exact Or.inr he'
  · obtain ⟨e',hl',ht',hs'⟩ := h'.back hl''
    obtain ⟨e,hl,ht,hs⟩ := h.back hl'
    exact ⟨e,hl,ht'.trans ht,hs'.trans hs⟩

end

theorem Tables.vmmProtectIn_cases (h : Tables lowPd ph own) (hr : own r = some (r, []))
    (hva : LowerHalf va) (hfl : PlainFlags flags) : ph.vmmProtectIn r va flags = (false, ph) ∨
      ∃ pt e, LeafAt ph own r (pagePath va) e ∧ own pt = some (r, tablePath va) ∧
        (∀ g, own g = some (r, pagePath va) ↔ leafPage (protEntry e flags) = some g) ∧
        Placeable lowPd ph own r (pagePath va) (protEntry e flags) ∧
        ph.vmmProtectIn r va flags = (true, ph.write pt (ptIndex va) (protEntry e flags)) := by
  unfold Phys.vmmProtectIn
  cases hw : ph.walkOnly r va with
  | none => exact Or.inl rfl
  | some pt =>
    have ho := (walkOnly_iff h hr hva.pml4Index pt).mp hw
    by_cases hpres : (!has (ph.mem pt (ptIndex va)) vmmPresent) = true
    · exact Or.inl (if_pos hpres)
    have hl : LeafAt ph own r (pagePath va) (ph.mem pt (ptIndex va)) :=
      ⟨pt,ptIndex va,tablePath va,rfl,rfl,ho,rfl,by simpa using hpres⟩
    have htab := tableOf_protEntry (ph.mem pt (ptIndex va)) hfl.1
    have hsh := has_protEntry_shared (ph.mem pt (ptIndex va)) hfl.2
    -- A private page stays the owner of its frame, a borrowed one stays borrowed.
    have hpage : ∀ g, own g = some (r, pagePath va) ↔
        leafPage (protEntry (ph.mem pt (ptIndex va)) flags) = some g := by
      intro g
      constructor
      · intro hg
        obtain ⟨rfl,hs⟩ := h.leaf_of_owner hg ho rfl rfl
        simp [leafPage,has_protEntry_present,hsh,hs,htab]
      · intro hg
        obtain ⟨_,hs,rfl⟩ := leafPage_some hg
        rw [htab]
        exact h.owner_of_leafAt hl (hsh ▸ hs)
    refine Or.inr ⟨pt,_,hl,ho,hpage,fun g hg => ?_,if_neg hpres⟩
    have hown := (hpage g).mpr hg
    exact ⟨h.taken hown,h.ne_low hown,Or.inr hown⟩

section
variable (h : FrameSafe lowPd ph own) (hr : own r = some (r, []))
include h hr

theorem FrameSafe.vmmProtectIn (hva : LowerHalf va) (hfl : PlainFlags flags) :
    ∃ own', Protected lowPd ph own r (· = pagePath va) flags (ph.vmmProtectIn r va flags).2 own' := by
  rcases h.tables.vmmProtectIn_cases hr hva hfl with heq | ⟨pt,e,hl,ho,_,hpl,heq⟩
  · rw [heq]
    exact ⟨own,h.protected⟩
  rw [heq]
  have htab := tableOf_protEntry e hfl.1
  have hsh := has_protEntry_shared e hfl.2
  have hset := h.tables.leafAt_writeLeaf (i := ptIndex va) ho rfl hpl
  have hk : Kept lowPd ph own (ph.write pt (ptIndex va) (protEntry e flags))
      (setPage own r (pagePath va) (leafPage (protEntry e flags))) := by
    refine ⟨h.writeLeaf (i := ptIndex va) ho rfl hpl fun hs _ => ?_,?_,?_⟩
    · rw [htab]
      rw [hsh] at hs
      exact h.shared r _ e hl hs
    · exact setPage_sameRoots (by simp [pagePath]) fun g hg => (hpl g hg).2.2
    · exact h.tables.sameLow_writeLeaf (i := ptIndex va) ho rfl hpl
  refine ⟨_,hk,fun {r' q e0} hl0 => ?_,fun {r' q e1} hl1 => ?_⟩
  · by_cases hc : r' = r ∧ q = pagePath va
    · obtain ⟨rfl,rfl⟩ := hc
      cases h.tables.leafAt_unique hl hl0
      refine ⟨protEntry e flags,(hset _ _ _).mpr ?_,htab,Or.inr ⟨rfl,rfl,?_⟩⟩
      · rw [if_pos ⟨rfl,rfl⟩]
        exact ⟨rfl,has_protEntry_present e flags⟩
      · exact fun _ hg => grants_protEntry e hg
    · exact ⟨e0,(hset _ _ _).mpr ((if_neg hc).symm ▸ hl0),rfl,Or.inl rfl⟩
  · have := (hset _ _ _).mp hl1
    split_ifs at this with hc
    · obtain ⟨rfl,rfl⟩ := hc
      rw [this.1]
      exact ⟨e,hl,htab,hsh⟩
    · exact ⟨e1,this,rfl,rfl⟩

theorem FrameSafe.protectPages
    (hfl : PlainFlags flags) (n : ℕ) (va : U64) (hva : ∀ i < n, LowerHalf (pageAt va i)) :
    ∃ own', Protected lowPd ph own r (InPages va n) flags
      (TaskVm.protectPages r flags n va ph).2 own' := by
  induction n generalizing ph own va with
  | zero => exact ⟨own,h.protected⟩
  | succ n ih =>
    unfold TaskVm.protectPages
    have hva0 := hva 0 (by omega)
    rw [pageAt_zero] at hva0
    obtain ⟨own1,h1⟩ := h.vmmProtectIn hr hva0 hfl
    have h1 : Protected lowPd ph own r (InPages va (n + 1)) flags _ own1 :=
      h1.mono fun q hq => hq ▸ InPages.zero va n
    generalize ph.vmmProtectIn r va flags = res at h1
    obtain ⟨ok,ph1⟩ := res
    cases ok with
    | false => exact ⟨own1,h1⟩
    | true =>
      obtain ⟨own2,h2⟩ := ih h1.safe ((h1.roots r).mpr hr) (va + 4096)
        (forall_pages_tail hva)
      exact ⟨own2,h1.trans (h2.mono fun q hq => hq.succ)⟩

end

theorem TaskVm.uvmProtect_protected {vm : TaskVm} (hvm : vm.userPml4 = some r)
    (hb : Bounded FlagsOnly vm) (h : FrameSafe lowPd ph own) (hr : own r = some (r, []))
    (addr bytes : U64) (hfl : PlainFlags flags) :
    ∃ ph1 own1 own', Faulted lowPd false ph own ph1 own1 ∧
      Protected lowPd ph1 own1 r (InPages addr (pageCount bytes)) flags
        (vm.uvmProtect ph addr bytes flags).2 own' := by
  rcases vm.uvmProtect_cases ph addr bytes flags with heq | ⟨r',hvm',hrange,heq⟩
  · rw [heq]
    exact ⟨ph,own,own,h.faulted false,h.protected⟩
  cases hvm.symm.trans hvm'
  rw [heq]
  obtain ⟨own1,h1⟩ : ∃ own1, Faulted lowPd false ph own
      (vm.faultInPages false (pageCount bytes) addr ph).2 own1 :=
    faultInPages_faulted hvm hb h hr (pageCount bytes) addr
  generalize vm.faultInPages false (pageCount bytes) addr ph = res at h1
  obtain ⟨ok,ph1⟩ := res
  cases ok with
  | false => exact ⟨ph1,own1,own1,h1,h1.safe.protected⟩
  | true =>
    obtain ⟨own2,h2⟩ := h1.safe.protectPages ((h1.roots r).mpr hr) hfl (pageCount bytes) addr
      fun i hi => uvmRangeOk_lowerHalf hrange.ok hi
    exact ⟨ph1,own1,own2,h1,h2⟩

end GaiaKernel
