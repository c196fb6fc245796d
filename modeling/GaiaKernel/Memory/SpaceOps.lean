import GaiaKernel.Memory.FrameSafety

/-! # Address-space operations on frames

What `vmm_map_in`, `uvm_fault_in`, `uvm_release` and `uvm_discard` do to the leaves of the
spaces and to the set of allocated frames, and that they keep `FrameSafe`.
-/
namespace GaiaKernel
open BitVec
variable {lowPd r f va : U64} {ph ph' : Phys} {own own' : Owner} {e flags phys : U64}

def LowerHalf (va : U64) : Prop := va.toNat < 2 ^ 47

theorem LowerHalf.pml4Index (h : LowerHalf va) : (pml4Index va).toNat < 256 := by
  unfold LowerHalf at h
  simp only [GaiaKernel.pml4Index,toNat_setWidth,toNat_ushiftRight,Nat.shiftRight_eq_div_pow]
  omega

theorem LowerHalf.pagePath_inj {va va' : U64} (h : LowerHalf va) (h' : LowerHalf va')
    (ha : PageAligned va) (ha' : PageAligned va') (hp : pagePath va = pagePath va') : va = va' := by
  unfold LowerHalf at h h'
  unfold PageAligned at ha ha'
  simp only [pagePath,tablePath,List.cons.injEq,and_true,ptIndex,pdIndex,pdptIndex,
    GaiaKernel.pml4Index] at hp
  obtain ⟨h1,h2,h3,h4⟩ := hp
  have h1 := congrArg BitVec.toNat h1
  have h2 := congrArg BitVec.toNat h2
  have h3 := congrArg BitVec.toNat h3
  have h4 := congrArg BitVec.toNat h4
  simp only [toNat_setWidth,toNat_ushiftRight,Nat.shiftRight_eq_div_pow]
    at h1 h2 h3 h4
  exact eq_of_toNat_eq (by omega)

theorem LowerHalf.pageOf (h : LowerHalf va) : LowerHalf (pageOf va) := by
  unfold LowerHalf at *
  rw [pageOf_toNat]
  omega

@[simp] theorem pagePath_pageOf (va : U64) : pagePath (pageOf va) = pagePath va := by
  simp only [pagePath,tablePath,List.cons.injEq,and_true,ptIndex,pdIndex,pdptIndex,pml4Index]
  refine ⟨?_,?_,?_,?_⟩
  all_goals
    apply eq_of_toNat_eq
    simp only [toNat_setWidth,toNat_ushiftRight,Nat.shiftRight_eq_div_pow,pageOf_toNat]
    omega

theorem vmmEntryIn_pageOf (ph : Phys) (r va : U64) :
    ph.vmmEntryIn r (pageOf va) = ph.vmmEntryIn r va := by
  have h := pagePath_pageOf va
  simp only [pagePath,tablePath,List.cons.injEq,and_true] at h
  obtain ⟨h1,h2,h3,h4⟩ := h
  simp only [Phys.vmmEntryIn,Phys.walkOnly,h1,h2,h3,h4]

def leafEntry (phys flags : U64) : U64 := (phys &&& vmmAddrMask) ||| (flags ||| vmmPresent)

theorem tableOf_leafEntry (h : FlagsOnly flags) :
    tableOf (leafEntry phys flags) = tableOf phys := by
  have h1 : tableOf (phys &&& vmmAddrMask) = tableOf phys := tableOf_tableOf phys
  have h2 : tableOf vmmPresent = 0#64 := by decide
  rw [leafEntry,tableOf_or,tableOf_or,h1,h,h2]
  simp

@[simp] theorem has_leafEntry_present (phys flags : U64) :
    has (leafEntry phys flags) vmmPresent = true := by
  simp [leafEntry,has_or,show has vmmPresent vmmPresent = true by decide]

theorem has_leafEntry {m : U64}
    (hm : vmmAddrMask &&& m = 0#64 ∧ has vmmPresent m = false) :
    has (leafEntry phys flags) m = has flags m := by
  have h1 : has (phys &&& vmmAddrMask) m = false := has_tableOf hm.1
  rw [leafEntry,has_or,has_or,h1,hm.2]
  simp

theorem Placeable.grown {q : Path} (hg : Grown ph own ph' own')
    (h : Placeable lowPd ph own r q e) : Placeable lowPd ph' own' r q e := by
  intro g hgp
  obtain ⟨h1,h2,h3 | h3⟩ := h g hgp
  · exact ⟨hg.taken h1,h2,.inl (hg.owner_none h1 h3)⟩
  · exact ⟨hg.taken h1,h2,.inr (hg.ext h3)⟩

/-- The space sees the low identity map it shares with the kernel. -/
def LowLink (lowPd : U64) (ph : Phys) (own : Owner) (r : U64) : Prop :=
  ∃ t, own t = some (r, [0#9]) ∧ has (ph.mem t 0#9) vmmPresent = true ∧
    tableOf (ph.mem t 0#9) = lowPd

/-- Nothing changed about the low identity map or about who sees it. -/
structure SameLow (lowPd : U64) (ph : Phys) (own : Owner) (ph' : Phys) (own' : Owner) : Prop where
  link : ∀ r, LowLink lowPd ph' own' r ↔ LowLink lowPd ph own r
  root : ∀ r, own r = some (r, []) → has (ph.mem r 0#9) vmmPresent = true →
    SameShape (ph.mem r 0#9) (ph'.mem r 0#9)
  mem : ph'.mem lowPd = ph.mem lowPd

theorem SameLow.of_mem (h : ∀ t, own t ≠ none ∨ t = lowPd → ph'.mem t = ph.mem t) :
    SameLow lowPd ph own ph' own where
  link r := by
    constructor
    · rintro ⟨t,ho,hpres,ht⟩
      rw [h t (.inl (by simp [ho]))] at hpres ht
      exact ⟨t,ho,hpres,ht⟩
    · rintro ⟨t,ho,hpres,ht⟩
      rw [← h t (.inl (by simp [ho]))] at hpres ht
      exact ⟨t,ho,hpres,ht⟩
  root r hr _ := by rw [h r (.inl (by simp [hr]))]; exact SameShape.refl _
  mem := h lowPd (.inr rfl)

theorem SameLow.refl (lowPd : U64) (ph : Phys) (own : Owner) : SameLow lowPd ph own ph own :=
  SameLow.of_mem fun _ _ => rfl

theorem Grown.sameLow (hg : Grown ph own ph' own') (h : Tables lowPd ph' own') :
    SameLow lowPd ph own ph' own' where
  link r := by
    constructor
    · rintro ⟨t,ho,hpres,ht⟩
      obtain ⟨h1,h2,h3⟩ := hg.link ho (by simp) hpres (by rw [ht]; exact h.lowOwner)
      exact ⟨t,h1,h2,h3.trans ht⟩
    · rintro ⟨t,ho,hpres,ht⟩
      have hs := hg.keep ho (by simp) hpres
      exact ⟨t,hg.ext ho,hs.present.trans hpres,hs.table.trans ht⟩
  root r hr hpres := hg.keep hr (by simp) hpres
  mem := hg.other h.lowOwner

theorem Tables.sameLow_writeLeaf (h : Tables lowPd ph own) {pt : U64} {p : Path} {i : BitVec 9}
    (ho : own pt = some (r, p)) (hp : p.length = 3)
    (he : Placeable lowPd ph own r (i :: p) e) :
    SameLow lowPd ph own (ph.write pt i e) (setPage own r (i :: p) (leafPage e)) := by
  have hmem : ∀ {t r' p'}, own t = some (r', p') → p'.length < 3 →
      (ph.write pt i e).mem t = ph.mem t := by
    intro t r' p' ht hp'
    have htp : t ≠ pt := by
      rintro rfl
      cases ht.symm.trans ho
      omega
    simp [Phys.write,htp]
  have hkeep : ∀ {t r' p'}, own t = some (r', p') → p'.length < 3 →
      setPage own r (i :: p) (leafPage e) t = some (r', p') := by
    intro t r' p' ht hp'
    exact setPage_keep (fun g hg => (he g hg).2.2) ht (ne_path_of_length hp (by omega))
  refine ⟨fun r' => ⟨?_,?_⟩,fun r' hr' _ => ?_,?_⟩
  · rintro ⟨t,ht,hpres,htab⟩
    rcases setPage_cases ht with ⟨_,hn⟩ | ⟨ht,_⟩
    · exact absurd hn (ne_path_of_length hp (by simp))
    · rw [hmem ht (by simp)] at hpres htab
      exact ⟨t,ht,hpres,htab⟩
  · rintro ⟨t,ht,hpres,htab⟩
    rw [← hmem ht (by simp)] at hpres htab
    exact ⟨t,hkeep ht (by simp),hpres,htab⟩
  · rw [hmem hr' (by simp)]
    exact SameShape.refl _
  · simp [Phys.write,(h.ne_low ho).symm]

structure Kept (lowPd : U64) (ph : Phys) (own : Owner) (ph' : Phys) (own' : Owner) : Prop where
  safe : FrameSafe lowPd ph' own'
  roots : SameRoots own own'
  low : SameLow lowPd ph own ph' own'

theorem FrameSafe.kept (h : FrameSafe lowPd ph own) : Kept lowPd ph own ph own :=
  ⟨h,fun _ => Iff.rfl,SameLow.refl lowPd ph own⟩

theorem SameLow.trans {ph'' : Phys} {own'' : Owner} (hr : SameRoots own own')
    (h : SameLow lowPd ph own ph' own') (h' : SameLow lowPd ph' own' ph'' own'') :
    SameLow lowPd ph own ph'' own'' where
  link r := (h'.link r).trans (h.link r)
  root r ho hpres := by
    have h1 := h.root r ho hpres
    exact h1.trans (h'.root r ((hr r).mpr ho) (h1.present.trans hpres))
  mem := h'.mem.trans h.mem

theorem Kept.trans {ph'' : Phys} {own'' : Owner} (h : Kept lowPd ph own ph' own')
    (h' : Kept lowPd ph' own' ph'' own'') : Kept lowPd ph own ph'' own'' :=
  ⟨h'.safe,fun x => (h'.roots x).trans (h.roots x),SameLow.trans h.roots h.low h'.low⟩

structure MapResult (lowPd : U64) (ph : Phys) (own : Owner) (r va e : U64) (ok : Bool)
    (ph' : Phys) (own' : Owner) : Prop extends Kept lowPd ph own ph' own' where
  taken : ∀ {g}, Taken ph.pmm g → Taken ph'.pmm g
  frames : ph'.pmm.bitmapFrames = ph.pmm.bitmapFrames
  owners : ∀ {g n}, own' g = some n → own g = some n ∨ ¬ Taken ph.pmm g ∨ leafPage e = some g
  mapped : ok = true → SetsLeaf ph own ph' own' r (pagePath va) e
  failed : ok = false → (∀ r q e, LeafAt ph' own' r q e ↔ LeafAt ph own r q e) ∧
    ∀ g, Taken ph.pmm g → own g = none → own' g = none

theorem FrameSafe.vmmMapIn (h : FrameSafe lowPd ph own) (hr : own r = some (r, []))
    (hva : LowerHalf va)
    (he : Placeable lowPd ph own r (pagePath va) (leafEntry phys flags))
    (hlend : has flags vmmShared = true → Lendable lowPd ph own (tableOf (leafEntry phys flags))) :
    ∃ own', MapResult lowPd ph own r va (leafEntry phys flags) (ph.vmmMapIn r va phys flags).1
      (ph.vmmMapIn r va phys flags).2 own' := by
  unfold Phys.vmmMapIn
  by_cases hhigh : has phys 0xFFFF800000000000#64 = true
  · rw [if_pos hhigh]
    exact ⟨own,h.kept,id,rfl,.inl,by simp,fun _ => ⟨fun _ _ _ => Iff.rfl,fun _ _ h => h⟩⟩
  rw [if_neg hhigh]
  obtain ⟨own1,ht,hg,hpt⟩ := walkOrCreate_spec h.tables hr hva.pml4Index flags
  generalize ph.walkOrCreate r va flags = w at ht hg hpt
  obtain ⟨pt,ph1⟩ := w
  have hsafe := h.grow ht hg
  have hk : Kept lowPd ph own ph1 own1 := ⟨hsafe,hg.sameRoots,hg.sameLow ht⟩
  have howners : ∀ {g n}, own1 g = some n → own g = some n ∨ ¬ Taken ph.pmm g := by
    rintro g ⟨r',p'⟩ hgo
    exact (hg.new hgo).imp id fun hc => hc.2.2.2.1
  cases pt with
  | none =>
    exact ⟨own1,hk,hg.taken,hg.frames,fun hgo => (howners hgo).imp id .inl,by simp,
      fun _ => ⟨hg.leafAt_iff,fun g hgt ho => hg.owner_none hgt ho⟩⟩
  | some pt =>
    have ho := hpt pt rfl
    have he1 := he.grown hg
    have hsh : has (leafEntry phys flags) vmmShared = has flags vmmShared := has_leafEntry (by decide)
    have hwrite : Kept lowPd ph1 own1 _ _ :=
      ⟨hsafe.writeLeaf (i := ptIndex va) ho rfl he1 fun hs _ => hg.lendable (hlend (hsh ▸ hs)),
        setPage_sameRoots (by simp) fun g hgp => (he1 g hgp).2.2, ht.sameLow_writeLeaf ho rfl he1⟩
    refine ⟨_,hk.trans hwrite,hg.taken,hg.frames,fun hgo => ?_,fun _ => ?_,by simp⟩
    · rcases setPage_cases hgo with ⟨hgp,_⟩ | ⟨hgo,_⟩
      · exact .inr (.inr hgp)
      · exact (howners hgo).imp id .inl
    · intro r' q' e'
      have := hsafe.tables.leafAt_writeLeaf (i := ptIndex va) ho rfl he1 r' q' e'
      rw [hg.leafAt_iff] at this
      exact this

end GaiaKernel
