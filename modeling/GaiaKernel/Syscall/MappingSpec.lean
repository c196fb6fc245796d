import GaiaKernel.Syscall.AccessSpec
import GaiaKernel.Syscall.Mapping

/-! # What the mapping calls do to the pages of a space

`Remaps` covers every one of them: the pages of other spaces stay as they are, and so do the
pages of the caller outside the ranges that the call may give back or protect.
-/
namespace GaiaKernel
variable {lowPd r addr bytes flags : U64} {ph ph' : Phys} {own own' : Owner}

structure NoneLent (ph : Phys) (own : Owner) : Prop where
  apart : ∀ {r q e r' q' e'}, LeafAt ph own r q e → has e vmmShared = true →
    LeafAt ph own r' q' e' → has e' vmmShared = false → tableOf e ≠ tableOf e'

theorem NoneLent.rangeUnlent (h : NoneLent ph own) (r addr bytes : U64) :
    TaskVm.RangeUnlent ph own r addr bytes :=
  fun _ _ _ _ hl hs _ _ _ hl' hs' => h.apart hl' hs' hl hs

theorem NoneLent.of_back (h : NoneLent ph own)
    (hback : ∀ {r q e'}, LeafAt ph' own' r q e' → ∃ e, LeafAt ph own r q e ∧
      tableOf e' = tableOf e ∧ has e' vmmShared = has e vmmShared) : NoneLent ph' own' := by
  refine ⟨fun hl' hs' hl1' hs1' => ?_⟩
  obtain ⟨e,hl,ht,hs⟩ := hback hl'
  obtain ⟨e1,hl1,ht1,hs1⟩ := hback hl1'
  rw [ht,ht1]
  exact h.apart hl (hs ▸ hs') hl1 (hs1 ▸ hs1')

theorem NoneLent.faulted {writable : Bool} (h : FrameSafe lowPd ph own) (hn : NoneLent ph own)
    (hf : Faulted lowPd writable ph own ph' own') : NoneLent ph' own' := by
  refine ⟨fun {r q e r' q' e'} hl hs hl' hs' => ?_⟩
  have ho' := hf.safe.tables.owner_of_leafAt hl' hs'
  refine hf.notLent ?_ (by simp [ho']) r q e hl hs
  rcases hf.owners ho' with ho | hfree
  · obtain ⟨i,p,rfl⟩ : ∃ i p, q' = i :: p := by
      obtain ⟨_,i,p,hq,_⟩ := hl'
      exact ⟨i,p,hq⟩
    obtain ⟨_,_,t,ht,hpres,htab,hsh⟩ := h.tables.parent ho
    have hp : p.length = 3 := by
      have := hl'.length
      simpa using this
    have hold : LeafAt ph own r' (i :: p) (ph.mem t i) := ⟨t,_,_,rfl,hp,ht,rfl,hpres⟩
    intro r1 q1 e1 hl1 hs1
    rw [← htab]
    exact hn.apart hl1 hs1 hold (hsh hp)
  · exact h.notLent hfree

namespace Syscall
variable {m m' m'' : Space} {own'' : Owner} {gone gone' : Path → Prop} {set set' : Path → U64 → Prop}

/-- A space among safe ones: its root, if it has one, is a root, and its record is in
bounds. -/
structure SpaceOk (lowPd : U64) (m : Space) (own : Owner) : Prop where
  safe : FrameSafe lowPd m.phys own
  noneLent : NoneLent m.phys own
  root : ∀ {r}, m.vm.userPml4 = some r → own r = some (r, [])
  bounded : Bounded FlagsOnly m.vm

/-- The caller loses pages in `gone` only, and the entries it has changed are as `set` says. -/
structure Remaps (lowPd : U64) (m : Space) (own : Owner) (gone : Path → Prop)
    (set : Path → U64 → Prop) (m' : Space) (own' : Owner) : Prop
    extends Kept lowPd m.phys own m'.phys own' where
  noneLent : NoneLent m'.phys own'
  root : m'.vm.userPml4 = m.vm.userPml4
  bounded : Bounded FlagsOnly m'.vm
  rest : ∀ {r q e}, LeafAt m.phys own r q e → m.vm.userPml4 = some r ∧ gone q ∨
    ∃ e', LeafAt m'.phys own' r q e' ∧ tableOf e' = tableOf e ∧ (e' = e ∨ set q e')

theorem SpaceOk.remaps (h : SpaceOk lowPd m own) : Remaps lowPd m own gone set m own :=
  ⟨h.safe.kept,h.noneLent,rfl,h.bounded,fun hl => .inr ⟨_,hl,rfl,.inl rfl⟩⟩

theorem Remaps.ok (h : SpaceOk lowPd m own) (hm : Remaps lowPd m own gone set m' own') :
    SpaceOk lowPd m' own' :=
  ⟨hm.safe,hm.noneLent,fun {r} hr => (hm.roots r).mpr (h.root (hm.root ▸ hr)),hm.bounded⟩

theorem Remaps.mono (hm : Remaps lowPd m own gone set m' own') (hg : ∀ q, gone q → gone' q)
    (hs : ∀ q e, set q e → set' q e) : Remaps lowPd m own gone' set' m' own' :=
  ⟨hm.toKept,hm.noneLent,hm.root,hm.bounded,fun hl => (hm.rest hl).imp
    (fun hc => ⟨hc.1,hg _ hc.2⟩) fun ⟨e',hl',ht,he⟩ => ⟨e',hl',ht,he.imp id (hs _ _)⟩⟩

theorem Remaps.trans (hm : Remaps lowPd m own gone set m' own')
    (hm' : Remaps lowPd m' own' gone set m'' own'') : Remaps lowPd m own gone set m'' own'' := by
  refine ⟨hm.toKept.trans hm'.toKept,hm'.noneLent,hm'.root.trans hm.root,hm'.bounded,
    fun {r q e} hl => ?_⟩
  rcases hm.rest hl with hg | ⟨e',hl',ht,he⟩
  · exact .inl hg
  · rcases hm'.rest hl' with hg | ⟨e'',hl'',ht',he'⟩
    · exact .inl ⟨hm.root ▸ hg.1,hg.2⟩
    · refine .inr ⟨e'',hl'',ht'.trans ht,?_⟩
      rcases he' with rfl | hset
      · exact he
      · exact .inr hset

def RangePages (addr bytes : U64) (q : Path) : Prop :=
  PageAligned addr ∧ PageAligned bytes ∧ uvmRangeOk addr bytes = true ∧
    InPages addr (pageCount bytes) q

theorem RangePages.bounds {va : U64} (h : RangePages addr bytes (pagePath va)) (hva : LowerHalf va) :
    addr.toNat ≤ va.toNat ∧ va.toNat < addr.toNat + bytes.toNat := by
  obtain ⟨ha,hb,hok,j,hj,heq⟩ := h
  obtain ⟨_,hsum,hmax⟩ := uvmRangeOk_spec hok
  have hat : (pageAt addr j).toNat = addr.toNat + 4096 * j := by
    unfold pageCount at hj
    unfold pageAt
    rw [BitVec.toNat_add,BitVec.toNat_ofNat]
    omega
  have hsame : pageAt addr j = pageOf va := by
    refine (uvmRangeOk_lowerHalf hok hj).pagePath_inj hva.pageOf ?_ ?_
      (by rw [pagePath_pageOf]; exact heq.symm)
    · unfold PageAligned at ha ⊢
      omega
    · unfold PageAligned
      rw [pageOf_toNat]
      omega
  have hsame := congrArg BitVec.toNat hsame
  rw [hat,pageOf_toNat] at hsame
  unfold PageAligned at ha hb
  unfold pageCount at hj
  omega

section
variable (h : SpaceOk lowPd m own)
include h

theorem SpaceOk.unmapped {vm : TaskVm} (hr : m.vm.userPml4 = some r)
    (hu : Unmapped lowPd m.phys own r gone ph' own') (hroot : vm.userPml4 = m.vm.userPml4)
    (hb : Bounded FlagsOnly vm) : Remaps lowPd m own gone set ⟨vm,ph'⟩ own' := by
  refine ⟨hu.toKept,h.noneLent.of_back fun hl => ⟨_,hu.leaf hl,rfl,rfl⟩,hroot,hb,
    fun {r' q e} hl => ?_⟩
  rcases hu.rest hl with ⟨rfl,hg⟩ | hl'
  · exact .inl ⟨hr,hg⟩
  · exact .inr ⟨e,hl',rfl,.inl rfl⟩

theorem SpaceOk.setVm {vm : TaskVm} (hr : vm.userPml4 = m.vm.userPml4)
    (hb : Bounded FlagsOnly vm) : Remaps lowPd m own gone set { m with vm := vm } own :=
  ⟨h.safe.kept,h.noneLent,hr,hb,fun hl => .inr ⟨_,hl,rfl,.inl rfl⟩⟩

theorem SpaceOk.reserve (addr bytes : U64) (fixed : Bool) (hfl : FlagsOnly flags) :
    Remaps lowPd m own gone set
      { m with vm := (m.vm.uvmReserve m.phys addr bytes flags fixed).2 } own := by
  obtain ⟨hb,hr⟩ := TaskVm.uvmReserve_bounded h.bounded m.phys addr bytes fixed hfl
  exact h.setVm hr hb

theorem SpaceOk.faulted {writable : Bool} (hf : Faulted lowPd writable m.phys own ph' own') :
    Remaps lowPd m own gone set { m with phys := ph' } own' :=
  ⟨hf.toKept,h.noneLent.faulted h.safe hf,rfl,h.bounded,fun hl => .inr ⟨_,hf.leaf hl,rfl,.inl rfl⟩⟩

theorem SpaceOk.faultIn (addr : U64) (writable : Bool) : ∃ own', Remaps lowPd m own gone set
      { m with phys := (m.vm.uvmFaultIn m.phys addr writable).2 } own' := by
  cases hr : m.vm.userPml4 with
  | none => exact ⟨own,by simpa only [TaskVm.uvmFaultIn,hr] using h.remaps⟩
  | some r =>
    obtain ⟨own',hf⟩ := TaskVm.uvmFaultIn_faulted hr h.bounded h.safe (h.root hr) addr writable
    exact ⟨own',h.faulted hf⟩

theorem SpaceOk.bufferOk (pointer bytes : U64) (writable : Bool) :
    ∃ own', Remaps lowPd m own gone set
      { m with phys := (m.vm.uvmBufferOk m.phys pointer bytes writable).2 } own' := by
  cases hr : m.vm.userPml4 with
  | none =>
    have hph : (m.vm.uvmBufferOk m.phys pointer bytes writable).2 = m.phys := by
      unfold TaskVm.uvmBufferOk
      split_ifs <;> simp_all
    rw [hph]
    exact ⟨own,h.remaps⟩
  | some r =>
    obtain ⟨own',hf⟩ := TaskVm.uvmBufferOk_faulted hr h.bounded h.safe (h.root hr) pointer bytes
      writable
    exact ⟨own',h.faulted hf⟩

def SetFlags (addr bytes flags : U64) (q : Path) (e : U64) : Prop :=
  RangePages addr bytes q ∧ flags ≠ 0#64 ∧ ∀ writable, Grants writable flags → Grants writable e

theorem SpaceOk.protect (addr bytes : U64) (hfl : PlainFlags flags) :
    ∃ own', Remaps lowPd m own gone (SetFlags addr bytes flags)
      { m with phys := (m.vm.uvmProtect m.phys addr bytes flags).2 } own' := by
  cases hr : m.vm.userPml4 with
  | none => exact ⟨own,by simpa only [TaskVm.uvmProtect,hr] using h.remaps⟩
  | some r =>
    by_cases hargs : has addr 4095#64 = true ∨ has bytes 4095#64 = true ∨ flags = 0#64
    · exact ⟨own,by simpa only [TaskVm.uvmProtect,hr,if_pos hargs] using h.remaps⟩
    by_cases hok : (!uvmRangeOk addr bytes) = true
    · exact ⟨own,by simpa only [TaskVm.uvmProtect,hr,if_neg hargs,if_pos hok] using h.remaps⟩
    obtain ⟨ph1,own1,own',hf,hp⟩ := TaskVm.uvmProtect_protected hr h.bounded h.safe (h.root hr)
      addr bytes hfl
    rw [not_or,not_or,Bool.not_eq_true,Bool.not_eq_true,has_4095_eq_false_iff,
      has_4095_eq_false_iff] at hargs
    refine ⟨own',hf.toKept.trans hp.toKept,(h.noneLent.faulted h.safe hf).of_back hp.back,rfl,
      h.bounded,fun hl => .inr ?_⟩
    obtain ⟨e',hl',ht,he⟩ := hp.leaf (hf.leaf hl)
    exact ⟨e',hl',ht,he.imp id fun hc =>
      ⟨⟨hargs.1,hargs.2.1,by simpa using hok,hc.2.1⟩,hargs.2.2,hc.2.2⟩⟩

theorem SpaceOk.release (addr bytes : U64) : ∃ own', Remaps lowPd m own (RangePages addr bytes) set
      ⟨(m.vm.uvmRelease m.phys addr bytes).2.1,(m.vm.uvmRelease m.phys addr bytes).2.2⟩ own' := by
  cases hr : m.vm.userPml4 with
  | none => exact ⟨own,by simpa only [TaskVm.uvmRelease,hr] using h.remaps⟩
  | some r =>
    by_cases hargs : has addr 4095#64 = true ∨ has bytes 4095#64 = true
    · exact ⟨own,by simpa only [TaskVm.uvmRelease,hr,if_pos hargs] using h.remaps⟩
    by_cases hok : (!uvmRangeOk addr bytes) = true
    · exact ⟨own,by simpa only [TaskVm.uvmRelease,hr,if_neg hargs,if_pos hok] using h.remaps⟩
    obtain ⟨own',hu⟩ := TaskVm.uvmRelease_unmapped hr h.safe (h.root hr)
      (h.noneLent.rangeUnlent r addr bytes)
    obtain ⟨hb,hroot⟩ := TaskVm.uvmRelease_bounded h.bounded m.phys addr bytes
    rw [not_or,Bool.not_eq_true,Bool.not_eq_true,has_4095_eq_false_iff,has_4095_eq_false_iff]
      at hargs
    exact ⟨own',(h.unmapped hr hu hroot hb).mono (fun q hq =>
      ⟨hargs.1,hargs.2,by simpa using hok,hq⟩) fun _ _ => id⟩

theorem SpaceOk.discard (addr bytes : U64) : ∃ own', Remaps lowPd m own (RangePages addr bytes) set
      { m with phys := (m.vm.uvmDiscard m.phys addr bytes).2 } own' := by
  cases hr : m.vm.userPml4 with
  | none => exact ⟨own,by simpa only [TaskVm.uvmDiscard,hr] using h.remaps⟩
  | some r =>
    by_cases hargs : has addr 4095#64 = true ∨ has bytes 4095#64 = true
    · exact ⟨own,by simpa only [TaskVm.uvmDiscard,hr,if_pos hargs] using h.remaps⟩
    by_cases hok : (!uvmRangeOk addr bytes) = true
    · exact ⟨own,by simpa only [TaskVm.uvmDiscard,hr,if_neg hargs,if_pos hok] using h.remaps⟩
    obtain ⟨own',hu⟩ := TaskVm.uvmDiscard_unmapped hr h.safe (h.root hr)
      (h.noneLent.rangeUnlent r addr bytes)
    rw [not_or,Bool.not_eq_true,Bool.not_eq_true,has_4095_eq_false_iff,has_4095_eq_false_iff]
      at hargs
    exact ⟨own',(h.unmapped hr hu rfl h.bounded).mono (fun q hq =>
      ⟨hargs.1,hargs.2,by simpa using hok,hq⟩) fun _ _ => id⟩

theorem SpaceOk.guard {α : Type} {c : Prop} [Decidable c] {x : α} {t : α × Space}
    (ht : ¬ c → ∃ own', Remaps lowPd m own gone set t.2 own') :
    ∃ own', Remaps lowPd m own gone set (if c then (x, m) else t).2 own' := by
  by_cases hc : c
  · rw [if_pos hc]
    exact ⟨own,h.remaps⟩
  · rw [if_neg hc]
    exact ht hc

def LenPages (addr len : U64) (q : Path) : Prop :=
  ∃ bytes, roundUp len = some bytes ∧ RangePages addr bytes q

theorem SpaceOk.sysMunmap (addr len : U64) :
    ∃ own', Remaps lowPd m own (LenPages addr len) set (m.sysMunmap addr len).2 own' := by
  refine h.guard fun _ => h.guard fun _ => ?_
  cases hb : roundUp len with
  | none => exact ⟨own,h.remaps⟩
  | some bytes =>
    obtain ⟨own',hm⟩ := h.release addr bytes
    exact ⟨own',hm.mono (fun q hq => ⟨bytes,hb,hq⟩) fun _ _ => id⟩

def LenFlags (addr len : U64) (prot : U32) (q : Path) (e : U64) : Prop :=
  ∃ bytes, roundUp len = some bytes ∧ SetFlags addr bytes (protToPte prot) q e

theorem SpaceOk.sysMprotect (registered : U64 → U64 → Bool) (addr len : U64) (prot : U32) :
    ∃ own', Remaps lowPd m own gone (LenFlags addr len prot)
      (m.sysMprotect registered addr len prot).2 own' := by
  refine h.guard fun _ => h.guard fun _ => h.guard fun _ => ?_
  cases hb : roundUp len with
  | none => exact ⟨own,h.remaps⟩
  | some bytes =>
    refine h.guard fun _ => ?_
    obtain ⟨own',hm⟩ := h.protect addr bytes (protToPte_plain prot)
    exact ⟨own',hm.mono (fun _ => id) fun q e he => ⟨bytes,hb,he⟩⟩

/-- Pages that `madvise` may drop: those of a range that is not registered. -/
def AdvisedPages (registered : U64 → U64 → Bool) (addr : U64) (q : Path) : Prop :=
  ∃ bytes, registered addr bytes = false ∧ RangePages addr bytes q

theorem SpaceOk.sysMadvise (registered : U64 → U64 → Bool) (addr len : U64) (advice : U32) :
    ∃ own', Remaps lowPd m own (AdvisedPages registered addr) set
      (m.sysMadvise registered addr len advice).2 own' := by
  refine h.guard fun _ => h.guard fun _ => ?_
  cases hb : roundUp len with
  | none => exact ⟨own,h.remaps⟩
  | some bytes =>
    refine h.guard fun _ => ?_
    by_cases hadv : advice = 4#32 ∨ advice = 8#32
    · rw [if_pos hadv]
      refine h.guard fun _ => h.guard fun hreg => ?_
      obtain ⟨own',hm⟩ := h.discard addr bytes
      exact ⟨own',hm.mono (fun q hq => ⟨bytes,by simpa using hreg,hq⟩) fun _ _ => id⟩
    · rw [if_neg hadv]
      exact ⟨own,h.remaps⟩

/-- Pages that `brk` gives back: those between the new end and the old one. -/
def BrkPages (vm : TaskVm) (addr : U64) (q : Path) : Prop :=
  Space.brkPage addr < Space.brkPage vm.brkCurrent ∧
    RangePages (Space.brkPage addr) (Space.brkPage vm.brkCurrent - Space.brkPage addr) q

theorem SpaceOk.sysBrk (addr : U64) :
    ∃ own', Remaps lowPd m own (BrkPages m.vm addr) set (m.sysBrk addr).2 own' := by
  refine h.guard fun _ => h.guard fun _ => h.guard fun _ => ?_
  dsimp only
  have hfl : FlagsOnly Space.brkFlags := by unfold FlagsOnly; decide
  by_cases hgrow : Space.brkPage addr > Space.brkPage m.vm.brkCurrent
  · have hm : Remaps lowPd m own (BrkPages m.vm addr) set _ own :=
      h.reserve (Space.brkPage m.vm.brkCurrent)
        (Space.brkPage addr - Space.brkPage m.vm.brkCurrent) true hfl
    split_ifs
    · exact ⟨own,hm⟩
    · exact ⟨own,hm.trans ((hm.ok h).setVm rfl (hm.bounded.of_arena rfl rfl rfl))⟩
  rw [if_neg hgrow]
  by_cases hshrink : Space.brkPage addr < Space.brkPage m.vm.brkCurrent
  · obtain ⟨own',hm⟩ := h.release (Space.brkPage addr) (Space.brkPage m.vm.brkCurrent - Space.brkPage addr)
    have hm : Remaps lowPd m own (BrkPages m.vm addr) set _ own' :=
      hm.mono (fun q hq => ⟨hshrink,hq⟩) fun _ _ => id
    split_ifs
    · exact ⟨own',hm⟩
    · exact ⟨own',hm.trans ((hm.ok h).setVm rfl (hm.bounded.of_arena rfl rfl rfl))⟩
  · rw [if_neg hshrink]
    exact ⟨own,h.setVm rfl (h.bounded.of_arena rfl rfl rfl)⟩

theorem SpaceOk.sysMmap (addr len : U64) (prot flags : U32) (fd : FdFile) (offset : U64) :
    Remaps lowPd m own gone set (m.sysMmap addr len prot flags fd offset).2 own := by
  have hplain := protToPte_plain prot
  have hload : ∀ file : Option U64,
      FlagsOnly (if file.isSome then protToPte prot ||| vmmWrite else protToPte prot) := by
    intro file
    unfold FlagsOnly
    split_ifs
    · rw [tableOf_or,hplain.1]; decide
    · exact hplain.1
  unfold Space.sysMmap
  dsimp only
  split_ifs
  · exact h.remaps
  · exact h.remaps
  · exact h.remaps
  cases roundUp len with
  | none => exact h.remaps
  | some bytes =>
    cases Space.mmapFile flags fd offset with
    | error e => exact h.remaps
    | ok file =>
      have hm : Remaps lowPd m own gone set _ own :=
        h.reserve addr bytes (has32 flags MAP_FIXED) (hload file)
      dsimp only
      generalize m.vm.uvmReserve m.phys addr bytes _ (has32 flags MAP_FIXED) = res at hm ⊢
      by_cases hres : res.1 = 0#64
      · rw [if_pos hres]
        exact hm
      · rw [if_neg hres]
        cases file <;> exact hm

theorem SpaceOk.mmapCopyFile (l : Loading) :
    ∃ own', Remaps lowPd m own gone set (m.mmapCopyFile l).2 own' := by
  refine h.guard fun _ => ?_
  dsimp only
  obtain ⟨own',hm⟩ : ∃ own', Remaps lowPd m own gone set _ own' := h.bufferOk l.base
    (if l.size - l.offset > l.bytes then l.bytes else l.size - l.offset) true
  generalize m.vm.uvmBufferOk m.phys l.base
    (if l.size - l.offset > l.bytes then l.bytes else l.size - l.offset) true = res at hm ⊢
  obtain ⟨ok,ph⟩ := res
  cases ok <;> exact ⟨own',hm⟩

theorem SpaceOk.mmapProtect (l : Loading) (rc : ℤ) :
    ∃ own', Remaps lowPd m own gone (SetFlags l.base l.bytes l.pteFlags)
      (m.mmapProtect l rc).2 own' := by
  unfold Space.mmapProtect
  by_cases hc : rc = 0 ∧ l.pteFlags ||| vmmWrite ≠ l.pteFlags
  · rw [if_pos hc]
    exact h.protect l.base l.bytes l.plain
  · rw [if_neg hc]
    exact ⟨own,h.remaps⟩

theorem SpaceOk.mmapFinish (l : Loading) (rc : ℤ) :
    ∃ own', Remaps lowPd m own (RangePages l.base l.bytes) (SetFlags l.base l.bytes l.pteFlags)
      (m.mmapFinish l rc).2 own' := by
  obtain ⟨own1,hm⟩ : ∃ own1, Remaps lowPd m own (RangePages l.base l.bytes) _ _ own1 :=
    h.mmapProtect l rc
  unfold Space.mmapFinish
  dsimp only
  split_ifs
  · obtain ⟨own2,hr⟩ := (hm.ok h).release l.base l.bytes
    exact ⟨own2,hm.trans hr⟩
  · exact ⟨own1,hm⟩

end

end Syscall

end GaiaKernel
