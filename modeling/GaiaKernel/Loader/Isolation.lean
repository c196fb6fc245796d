import GaiaKernel.Loader.Birth
import GaiaKernel.Memory.UvmRuns

/-! # Memory calls stay inside their address space

Runs of the entry points of memory/uvm.c with any addresses and lengths. They write no table of the
kernel and change no translation of another process, and a page that user mode cannot use in the
calling process does not become one that it can.
-/
namespace GaiaKernel
variable {lowPd r va : U64} {ph ph' : Phys} {own own' : Owner}

/-- The address lies in the low identity map that the space shares with the kernel. -/
structure LowAt (lowPd : U64) (ph : Phys) (own : Owner) (r va : U64) : Prop where
  pml4 : pml4Index va = 0#9
  pdpt : pdptIndex va = 0#9
  link : LowLink lowPd ph own r

theorem Tables.userPath_iff (h : Tables lowPd ph own) {t1 t2 : U64} {i0 i1 i2 : BitVec 9}
    (hr : own r = some (r, [])) (h1 : own t1 = some (r, [i0])) (h2 : own t2 = some (r, [i1, i0])) :
    UserPath ph own r [i2, i1, i0] ↔ has (ph.mem r i0) vmmUser = true ∧
      has (ph.mem t1 i1) vmmUser = true ∧ has (ph.mem t2 i2) vmmUser = true := by
  constructor
  · intro hu
    exact ⟨hu r i0 [] hr ⟨[i2, i1],rfl⟩,hu t1 i1 [i0] h1 ⟨[i2],rfl⟩, hu t2 i2 [i1, i0] h2 ⟨[],rfl⟩⟩
  · rintro ⟨e0,e1,e2⟩
    exact ((UserPath.nil.cons h hr e0).cons h h1 e1).cons h h2 e2

variable {e t : U64}
section
variable (h : Tables lowPd ph own)
include h

theorem Tables.userPath_low_iff (hr : own r = some (r, [])) (ht : own t = some (r, [0#9])) :
    UserPath ph own r [0#9, 0#9] ↔ has (ph.mem r 0#9) vmmUser = true ∧
      has (ph.mem t 0#9) vmmUser = true := by
  constructor
  · intro hu
    exact ⟨hu r 0#9 [] hr ⟨[0#9],rfl⟩,hu t 0#9 [0#9] ht ⟨[],rfl⟩⟩
  · rintro ⟨e0,e1⟩
    exact (UserPath.nil.cons h hr e0).cons h ht e1

theorem Tables.present_of_leafAt {q p : Path} {i : BitVec 9}
    (hl : LeafAt ph own r q e) (ho : own t = some (r, p)) (hs : (i :: p) <:+ q) :
    has (ph.mem t i) vmmPresent = true := by
  obtain ⟨pt,j,q,rfl,_,hpt,rfl,hpres⟩ := hl
  rcases List.suffix_cons_iff.mp hs with heq | hs
  · cases heq
    rw [h.inj ho hpt]
    exact hpres
  · obtain ⟨t',ho',hpres'⟩ := h.ancestor hpt hs
    rw [h.inj ho ho']
    exact hpres'

theorem Tables.ne_of_lowAt (hlow : LowAt lowPd ph own r va) :
    own t ≠ some (r, [pdptIndex va, pml4Index va]) := by
  obtain ⟨h0,h1,t',ho,_,hl⟩ := hlow
  rw [h0,h1]
  intro ht
  obtain ⟨_,_,t'',ho'',_,htab,_⟩ := h.parent ht
  rw [h.inj ho'' ho,hl] at htab
  rw [← htab,h.lowOwner] at ht
  cases ht

theorem Tables.entriesIn_cases (hr : own r = some (r, [])) (hva : (pml4Index va).toNat < 256) :
    (ph.leafIn r va = none ∧ ph.userIn r va = false ∧
      (∀ e, ¬ LeafAt ph own r (pagePath va) e) ∧ ¬ LowAt lowPd ph own r va) ∨
    (∃ e, LeafAt ph own r (pagePath va) e ∧ ph.leafIn r va = some e ∧
      (ph.userIn r va = true ↔ has e vmmUser = true ∧ UserPath ph own r (tablePath va))) ∨
    (LowAt lowPd ph own r va ∧ ph.leafIn r va = some (ph.mem lowPd (pdIndex va)) ∧
      (ph.userIn r va = true ↔ has (ph.mem lowPd (pdIndex va)) vmmUser = true ∧
        UserPath ph own r [0#9, 0#9])) := by
  unfold Phys.leafIn Phys.userIn Phys.entriesIn
  dsimp only
  by_cases hp0 : has (ph.mem r (pml4Index va)) vmmPresent = true
  swap
  · rw [Bool.not_eq_true] at hp0
    refine .inl ⟨by simp [hp0,Option.filter],by simp [hp0],fun e hl => ?_,fun hlow => ?_⟩
    · exact absurd (h.present_of_leafAt hl hr ⟨[ptIndex va, pdIndex va, pdptIndex va],rfl⟩)
        (by simp [hp0])
    · obtain ⟨h0,_,t,ho,_⟩ := hlow
      obtain ⟨_,_,r',ho',hpres,_⟩ := h.parent ho
      rw [h.inj ho' hr,← h0,hp0] at hpres
      cases hpres
  have ho1 := h.below_root hr hva hp0
  generalize tableOf (ph.mem r (pml4Index va)) = t1 at ho1 ⊢
  by_cases hp1 : has (ph.mem t1 (pdptIndex va)) vmmPresent = true
  swap
  · rw [Bool.not_eq_true] at hp1
    refine .inl ⟨by simp [hp0,hp1,Option.filter],by simp [hp0,hp1],fun e hl => ?_,fun hlow => ?_⟩
    · exact absurd (h.present_of_leafAt hl ho1 ⟨[ptIndex va, pdIndex va],rfl⟩) (by simp [hp1])
    · obtain ⟨h0,h1,t,ho,hpres,_⟩ := hlow
      rw [h0] at ho1
      rw [h.inj ho ho1,← h1,hp1] at hpres
      cases hpres
  obtain ⟨hs1,ho2 | ⟨hi0,hi1,hlow,_⟩⟩ := h.table ho1 (by simp) (fun hc => by cases hc) hp1
  · generalize tableOf (ph.mem t1 (pdptIndex va)) = t2 at ho2 ⊢
    by_cases hp2 : has (ph.mem t2 (pdIndex va)) vmmPresent = true
    swap
    · refine .inl ⟨by simp [hp0,hp1,hs1,hp2,Option.filter],by simp [hp0,hp1,hs1,hp2],
        fun e hl => ?_,fun hlow => h.ne_of_lowAt hlow ho2⟩
      exact absurd (h.present_of_leafAt hl ho2 ⟨[ptIndex va],rfl⟩) (by simp [hp2])
    obtain ⟨hs2,ho3⟩ := h.below_pd ho2 hp2
    generalize tableOf (ph.mem t2 (pdIndex va)) = t3 at ho3 ⊢
    by_cases hp3 : has (ph.mem t3 (ptIndex va)) vmmPresent = true
    swap
    · refine .inl ⟨by simp [hp0,hp1,hs1,hp2,hs2,hp3,Option.filter],
        by simp [hp0,hp1,hs1,hp2,hs2,hp3],fun e hl => ?_,fun hlow => h.ne_of_lowAt hlow ho2⟩
      exact absurd (h.present_of_leafAt hl ho3 ⟨[],rfl⟩) (by simp [hp3])
    refine .inr (.inl ⟨_,⟨t3,ptIndex va,tablePath va,rfl,rfl,ho3,rfl,hp3⟩,?_,?_⟩)
    · simp [hp0,hp1,hs1,hp2,hs2,hp3,Option.filter]
    · rw [tablePath,h.userPath_iff hr ho1 ho2]
      simp [hp0,hp1,hs1,hp2,hs2,hp3]
      tauto
  · obtain ⟨hp2,hs2⟩ := h.lowHuge (pdIndex va)
    have hi0 : pml4Index va = 0#9 := (List.cons.inj hi0).1
    rw [hi0] at ho1 hp0 ⊢
    rw [hi1] at hp1 hs1 hlow ⊢
    rw [hlow]
    refine .inr (.inr ⟨⟨hi0,hi1,t1,ho1,hp1,hlow⟩,?_,?_⟩)
    · simp [hp0,hp1,hs1,hp2,hs2,Option.filter]
    · rw [h.userPath_low_iff hr ho1]
      simp [hp0,hp1,hs1,hp2,hs2]
      tauto

theorem Tables.not_lowAt (hl : LeafAt ph own r (pagePath va) e) : ¬ LowAt lowPd ph own r va := by
  intro hlow
  obtain ⟨pt,i,p,hq,_,hpt,_⟩ := hl
  cases hq
  obtain ⟨_,_,pd,hpd,_⟩ := h.parent hpt
  exact h.ne_of_lowAt hlow hpd

end

def NoneHidden (ph : Phys) (r : U64) : Prop :=
  ∀ va e, (pml4Index va).toNat < 256 → ph.leafIn r va = some e → has e vmmUser = true →
    ph.userIn r va = true

theorem exists_pagePath (i3 i2 i1 i0 : BitVec 9) : ∃ va, pagePath va = [i3, i2, i1, i0] := by
  refine ⟨BitVec.ofNat 64 (i0.toNat * 2 ^ 39 + i1.toNat * 2 ^ 30 + i2.toNat * 2 ^ 21 +
    i3.toNat * 2 ^ 12),?_⟩
  simp only [pagePath,tablePath,ptIndex,pdIndex,pdptIndex,pml4Index,List.cons.injEq,and_true]
  refine ⟨?_,?_,?_,?_⟩ <;>
    refine BitVec.eq_of_toNat_eq ?_ <;>
    rw [BitVec.toNat_setWidth,BitVec.toNat_ushiftRight,BitVec.toNat_ofNat,
      Nat.shiftRight_eq_div_pow] <;>
    omega

theorem Tables.pml4Index_of_leafAt (h : Tables lowPd ph own)
    (hl : LeafAt ph own r (pagePath va) e) : (pml4Index va).toNat < 256 := by
  obtain ⟨pt,i,p,hq,_,ho,_⟩ := hl
  cases hq
  obtain ⟨_,_,pd,hpd,_⟩ := h.parent ho
  obtain ⟨_,_,pdpt,hpdpt,_⟩ := h.parent hpd
  exact (h.parent hpdpt).2.1 rfl

theorem Tables.paved_iff (h : Tables lowPd ph own) (hr : own r = some (r, [])) :
    NoneHidden ph r ↔ Paved ph own r ∧ ∀ va, LowAt lowPd ph own r va →
      has (ph.mem lowPd (pdIndex va)) vmmUser = true → UserPath ph own r [0#9, 0#9] := by
  constructor
  · refine fun hn => ⟨fun q e hl hu => ?_,fun va hlow hu => ?_⟩
    · obtain ⟨pt,i,p,rfl,hp,ho,he,hpres⟩ := id hl
      match p, hp with
      | [i2, i1, i0], _ =>
        obtain ⟨va,hva⟩ := exists_pagePath i i2 i1 i0
        rw [← hva] at hl ⊢
        have hidx := h.pml4Index_of_leafAt hl
        rcases h.entriesIn_cases hr hidx with ⟨_,_,hn',_⟩ | ⟨e',hl',hle,hiff⟩ | ⟨hlow,_⟩
        · exact absurd hl (hn' e)
        · cases h.leafAt_unique hl hl'
          exact (hiff.mp (hn va e hidx hle hu)).2
        · exact absurd hlow (h.not_lowAt hl)
    · have hidx : (pml4Index va).toNat < 256 := by rw [hlow.pml4]; decide
      rcases h.entriesIn_cases hr hidx with ⟨_,_,_,hn'⟩ | ⟨e',hl',_⟩ | ⟨_,hle,hiff⟩
      · exact absurd hlow hn'
      · exact absurd hlow (h.not_lowAt hl')
      · exact (hiff.mp (hn va _ hidx hle hu)).2
  · rintro ⟨hpv,hlw⟩ va e hidx hle hu
    rcases h.entriesIn_cases hr hidx with ⟨hnone,_⟩ | ⟨e',hl',hle',hiff⟩ | ⟨hlow,hle',hiff⟩
    · rw [hnone] at hle
      cases hle
    · cases hle'.symm.trans hle
      exact hiff.mpr ⟨hu,hpv _ e hl' hu⟩
    · cases hle'.symm.trans hle
      exact hiff.mpr ⟨hu,hlw va hlow hu⟩

/-- Every table that can be reached from the root is allocated and not one of the space's. -/
def Apart (ph : Phys) (own : Owner) (root : U64) : Prop :=
  ∀ n t, Reach ph root n t → Foreign ph own t

theorem Enclosed.sameReach (h : Enclosed lowPd ∅ ph own r ph' own') {root : U64}
    (ha : Apart ph own root) : SameReach ph ph' root := fun n t hr => h.mem t (by simp) (ha n t hr)

theorem Enclosed.apart (h : Enclosed lowPd ∅ ph own r ph' own') {root : U64}
    (ha : Apart ph own root) : Apart ph' own' root :=
  fun n t hr => (h.foreign t (by simp)).mpr (ha n t (((h.sameReach ha).reach_iff n t).mp hr))

def SharesUpper (ph : Phys) (r kernelPml4 : U64) : Prop :=
  ∀ i, 256 ≤ i.toNat → ph.mem r i = ph.mem kernelPml4 i

theorem SharesUpper.entriesIn {kernelPml4 : U64} (h : SharesUpper ph r kernelPml4)
    (hva : 256 ≤ (pml4Index va).toNat) : ph.entriesIn r va = ph.entriesIn kernelPml4 va := by
  unfold Phys.entriesIn
  rw [h _ hva]

namespace Uvm
open Trace

/-- Flags the system calls build from a protection: no address bits, never borrowed. -/
abbrev UserFlags := { flags : U64 // PlainFlags flags }

/-- The entry points of memory/uvm.c as the system calls use them. -/
inductive Call where
  | reserve (addr bytes : U64) (pteFlags : UserFlags) (fixed : Bool)
  | release (addr bytes : U64)
  | protect (addr bytes : U64) (pteFlags : UserFlags)
  | discard (addr bytes : U64)
  | faultIn (addr : U64) (writable : Bool)
  | bufferOk (pointer bytes : U64) (writable : Bool)

def Call.op : Call → Op
  | .reserve addr bytes flags fixed => .reserve addr bytes flags.1 fixed
  | .release addr bytes => .release addr bytes
  | .protect addr bytes flags => .protect addr bytes flags.1
  | .discard addr bytes => .discard addr bytes
  | .faultIn addr writable => .faultIn addr writable
  | .bufferOk pointer bytes writable => .bufferOk pointer bytes writable

def call (s : State) (c : Call) : State := step s c.op

structure Space (lowPd : U64) (s : State) (own : Owner) (r : U64) : Prop where
  tables : Tables lowPd s.phys own
  root : own r = some (r, [])
  vm : s.vm.userPml4 = some r
  bounded : Bounded PlainFlags s.vm

variable {s : State}

theorem Space.call (h : Space lowPd s own r) (c : Call) :
    ∃ own', Space lowPd (call s c) own' r ∧ UvmCall lowPd s.phys own r (Uvm.call s c).phys own' := by
  have hsame : ∀ {ph' own'}, UvmCall lowPd s.phys own r ph' own' →
      Space lowPd { s with phys := ph' } own' r :=
    fun hc => ⟨hc.tables,(hc.roots r).mpr h.root,h.vm,h.bounded⟩
  cases c with
  | reserve addr bytes flags fixed =>
    obtain ⟨hb,hroot⟩ := TaskVm.uvmReserve_bounded h.bounded s.phys addr bytes fixed flags.2
    exact ⟨own,⟨h.tables,h.root,hroot.trans h.vm,hb⟩,(Filled.refl h.tables).uvmCall⟩
  | release addr bytes =>
    obtain ⟨own',hu⟩ := TaskVm.uvmRelease_emptied h.vm h.tables h.root addr bytes
    obtain ⟨hb,hroot⟩ := TaskVm.uvmRelease_bounded h.bounded s.phys addr bytes
    exact ⟨own',⟨hu.tables,(hu.roots r).mpr h.root,hroot.trans h.vm,hb⟩,hu.uvmCall h.tables⟩
  | protect addr bytes flags =>
    obtain ⟨own',hu⟩ := TaskVm.uvmProtect_uvmCall h.vm h.bounded h.tables h.root addr bytes flags.2
    exact ⟨own',hsame hu,hu⟩
  | discard addr bytes =>
    obtain ⟨own',hu⟩ := TaskVm.uvmDiscard_emptied h.vm h.tables h.root addr bytes
    exact ⟨own',hsame (hu.uvmCall h.tables),hu.uvmCall h.tables⟩
  | faultIn addr writable =>
    obtain ⟨own',hu,_⟩ := TaskVm.uvmFaultIn_filled h.vm h.bounded h.tables h.root addr writable
    exact ⟨own',hsame hu.uvmCall,hu.uvmCall⟩
  | bufferOk pointer bytes writable =>
    obtain ⟨own',hu⟩ :=
      TaskVm.uvmBufferOk_filled h.vm h.bounded h.tables h.root pointer bytes writable
    exact ⟨own',hsame hu.uvmCall,hu.uvmCall⟩

theorem Space.run (h : Space lowPd s own r) (calls : List Call) :
    ∃ own', Space lowPd (run Uvm.call s calls) own' r ∧
      Enclosed lowPd ∅ s.phys own r (run Uvm.call s calls).phys own' ∧
      (Paved s.phys own r → Paved (run Uvm.call s calls).phys own' r) := by
  induction calls generalizing s own with
  | nil => exact ⟨own,h,Enclosed.refl h.tables,id⟩
  | cons c calls ih =>
    obtain ⟨own1,h1,hc⟩ := h.call c
    obtain ⟨own2,h2,hc2,hp2⟩ := ih h1
    exact ⟨own2,h2,hc.toEnclosed.trans hc2,fun hp => hp2 (hc.paved hp)⟩

theorem UvmCall.supervisor (h : Tables lowPd ph own) (hr : own r = some (r, []))
    (hc : UvmCall lowPd ph own r ph' own') (hva : (pml4Index va).toNat < 256)
    (hl : ph.leafIn r va = some e) (he : has e vmmUser = false) : ph'.userIn r va = false := by
  by_contra hu
  rw [Bool.not_eq_false] at hu
  rcases hc.tables.entriesIn_cases ((hc.roots r).mpr hr) hva with
    ⟨_,hn,_⟩ | ⟨e',hl',_,hiff⟩ | ⟨hlow',_,hiff⟩
  · rw [hn] at hu
    cases hu
  · have hue := (hiff.mp hu).1
    rcases h.entriesIn_cases hr hva with ⟨hn,_⟩ | ⟨e0,hl0,hle,_⟩ | ⟨hlow,_⟩
    · rw [hn] at hl
      cases hl
    · cases hle.symm.trans hl
      rw [hc.noNewUser _ _ _ hl0 hl' hue] at he
      cases he
    · exact hc.tables.not_lowAt hl' ⟨hlow.pml4,hlow.pdpt,(hc.low.link r).mpr hlow.link⟩
  · have hue := (hiff.mp hu).1
    have hlow : LowAt lowPd ph own r va := ⟨hlow'.pml4,hlow'.pdpt,(hc.low.link r).mp hlow'.link⟩
    rcases h.entriesIn_cases hr hva with ⟨hn,_⟩ | ⟨e0,hl0,_⟩ | ⟨_,hle,_⟩
    · rw [hn] at hl
      cases hl
    · exact h.not_lowAt hl0 hlow
    · cases hle.symm.trans hl
      rw [hc.low.mem,he] at hue
      cases hue

/-- A process of a running kernel: the upper half of its root is the kernel's, and the tables
of the kernel are allocated and not the process's own. -/
structure Process (lowPd kernelPml4 : U64) (s : State) (own : Owner) (r : U64) : Prop
    extends Space lowPd s own r where
  upper : SharesUpper s.phys r kernelPml4
  kernel : Apart s.phys own kernelPml4

variable {kernelPml4 : U64}

theorem Process.enclosed (h : Process lowPd kernelPml4 s own r) {s' : State}
    (hs : Space lowPd s' own' r) (hc : Enclosed lowPd ∅ s.phys own r s'.phys own') :
    Process lowPd kernelPml4 s' own' r := by
  refine ⟨hs,fun i hi => ?_,hc.apart h.kernel⟩
  rw [hc.upper i hi,h.upper i hi,hc.sameReach h.kernel 0 kernelPml4 .root]

theorem userIn_eq_false_of_leaf (hl : ph.leafIn r va = some e)
    (he : has e vmmUser = false) : ph.userIn r va = false := by
  obtain ⟨hlast,_⟩ := Option.filter_eq_some_iff.mp hl
  refine List.all_eq_false.mpr ⟨e,List.mem_of_getLast? hlast,?_⟩
  simp [he]

/-- What one more call may do after a run: nothing to the tables of others, and nothing that
lets user mode in where the address led to a page that was closed to it. -/
structure Isolated (lowPd kernelPml4 : U64) (own : Owner) (r : U64) (s s₁ s₂ : State) : Prop where
  kernel : ∀ n t, Reach s.phys kernelPml4 n t → s₂.phys.mem t = s.phys.mem t
  low : s₂.phys.mem lowPd = s.phys.mem lowPd
  others : ∀ root, Apart s.phys own root → ∀ va,
    s₂.phys.vmmTranslateIn root va = s.phys.vmmTranslateIn root va ∧
      s₂.phys.userIn root va = s.phys.userIn root va
  supervisor : ∀ va e, s₁.phys.leafIn r va = some e → has e vmmUser = false →
    s₂.phys.userIn r va = false
  closed : NoneHidden s.phys r → ∀ va e, s₁.phys.leafIn r va = some e →
    s₁.phys.userIn r va = false → s₂.phys.userIn r va = false

/-- Every run of memory calls is isolated at every call. -/
theorem calls_isolated (h : Process lowPd kernelPml4 s own r) (calls : List Call) (c : Call) :
    Isolated lowPd kernelPml4 own r s (run call s calls) (call (run call s calls) c) := by
  obtain ⟨own₁,h1,hc₁,hp₁⟩ := h.toSpace.run calls
  obtain ⟨own₂,h2,hc₂⟩ := h1.call c
  generalize run call s calls = s₁ at h1 hc₁ hp₁ h2 hc₂ ⊢
  have hproc₁ := h.enclosed h1 hc₁
  have hproc₂ := hproc₁.enclosed h2 hc₂.toEnclosed
  have hc := hc₁.trans hc₂.toEnclosed
  -- The upper half is the kernel's, whose tables the call leaves alone.
  have hupper : ∀ va, 256 ≤ (pml4Index va).toNat →
      (call s₁ c).phys.userIn r va = s₁.phys.userIn r va := by
    intro va hva
    unfold Phys.userIn
    rw [hproc₂.upper.entriesIn hva,hproc₁.upper.entriesIn hva,
      (hc₂.sameReach hproc₁.kernel).entriesIn]
  have hsup : ∀ va e, s₁.phys.leafIn r va = some e → has e vmmUser = false →
      (call s₁ c).phys.userIn r va = false := by
    intro va e hl he
    by_cases hva : (pml4Index va).toNat < 256
    · exact UvmCall.supervisor h1.tables h1.root hc₂ hva hl he
    · rw [hupper va (by omega)]
      exact userIn_eq_false_of_leaf hl he
  refine ⟨fun n t ht => hc.sameReach h.kernel n t ht,hc.low.mem,fun root ha va => ?_,hsup,
    fun hn va e hl hu => ?_⟩
  · have hsame := hc.sameReach ha
    refine ⟨hsame.vmmTranslateIn va,?_⟩
    unfold Phys.userIn
    rw [hsame.entriesIn]
  · by_cases hva : (pml4Index va).toNat < 256
    · refine hsup va e hl ?_
      -- A user leaf that is there is open, since none was hidden to begin with.
      obtain ⟨hpv,hlow⟩ := (h.tables.paved_iff h.root).mp hn
      have hn₁ : NoneHidden s₁.phys r := by
        refine (h1.tables.paved_iff h1.root).mpr ⟨hp₁ hpv,fun va' hl' hu' => ?_⟩
        have hl₀ : LowAt lowPd s.phys own r va' :=
          ⟨hl'.pml4,hl'.pdpt,(hc₁.low.link r).mp hl'.link⟩
        rw [hc₁.low.mem] at hu'
        exact hc₁.lowWay hl₀.link (hlow va' hl₀ hu')
      by_contra he
      rw [Bool.not_eq_false] at he
      rw [hn₁ va e hva hl he] at hu
      cases hu
    · rw [hupper va (by omega)]
      exact hu

def newTask (vm : TaskVm) (r : U64) : TaskVm := { vm.uvmInit with userPml4 := some r }

theorem Process.born (hk : KernelMap ph kernelPml4 lowPd)
    (hb : Born lowPd (KernelTables.ofPml4 ph kernelPml4) ph r ph' own) (vm : TaskVm) :
    Process lowPd kernelPml4 ⟨newTask vm r,ph'⟩ own r := by
  have hmem : SameReach ph ph' kernelPml4 := fun n t ht => hb.mem t (hk.taken n t ht)
  refine ⟨⟨hb.tables,hb.root,rfl,?_⟩,fun i hi => ?_,fun n t ht => ?_⟩
  · exact (TaskVm.uvmInit_bounded vm).of_arena rfl rfl rfl
  · rw [hb.upper i hi,hmem 0 kernelPml4 .root]
    rfl
  · have hr := (hmem.reach_iff n t).mp ht
    exact (hb.foreign t).mpr ⟨hk.isFrame hr,hk.taken n t hr⟩

theorem noneHidden_born {k : KernelTables} (hb : Born lowPd k ph r ph' own)
    (hlow : ∀ i, has (ph'.mem lowPd i) vmmUser = false) : NoneHidden ph' r := by
  refine (hb.tables.paved_iff hb.root).mpr ⟨fun q e hl _ => absurd hl (hb.empty q e),?_⟩
  intro va _ hu
  rw [hlow] at hu
  cases hu

/-- 2 MiB of frames: the identity map in frame 1, the kernel's root in frame 2, and below it a table
for the low half and one for the upper. -/
def kernelPhys : Phys where
  mem := fun t i =>
    if t = 0x1000#64 then (i.setWidth 64 <<< 21) ||| 0x83#64
    else if t = 0x2000#64 ∧ i = 0#9 then 0x3003#64
    else if t = 0x2000#64 ∧ i = 511#9 then 0x4003#64
    else if t = 0x3000#64 ∧ i = 0#9 then 0x1003#64
    else if t = 0x4000#64 ∧ i = 0#9 then 0x83#64
    else 0#64
  pmm := ⟨fun n => if n < 32 then 0xFF#8 else 0#8,512,256,256,by decide⟩

theorem reach_kernelPhys {n : ℕ} (h : Reach kernelPhys 0x2000#64 n t) :
    n = 0 ∧ t = 0x2000#64 ∨ n = 1 ∧ (t = 0x3000#64 ∨ t = 0x4000#64) ∨ n = 2 ∧ t = 0x1000#64 := by
  have hhuge : ∀ i, has (kernelPhys.mem 0x1000#64 i) vmmPs = true := by decide +kernel
  have hroot : ∀ i, has (kernelPhys.mem 0x2000#64 i) vmmPresent = true →
      tableOf (kernelPhys.mem 0x2000#64 i) = 0x3000#64 ∨
        tableOf (kernelPhys.mem 0x2000#64 i) = 0x4000#64 := by decide +kernel
  have hlow : ∀ i, has (kernelPhys.mem 0x3000#64 i) vmmPresent = true →
      tableOf (kernelPhys.mem 0x3000#64 i) = 0x1000#64 := by decide +kernel
  have hhigh : ∀ i, has (kernelPhys.mem 0x4000#64 i) vmmPresent = true →
      has (kernelPhys.mem 0x4000#64 i) vmmPs = true := by decide +kernel
  induction h with
  | root => exact .inl ⟨rfl,rfl⟩
  | down i _ _ hpres hps ih =>
    rcases ih with ⟨rfl,rfl⟩ | ⟨rfl,rfl | rfl⟩ | ⟨rfl,rfl⟩
    · exact .inr (.inl ⟨rfl,hroot i hpres⟩)
    · exact .inr (.inr ⟨rfl,hlow i hpres⟩)
    · rw [hhigh i hpres] at hps
      simp at hps
    · rw [hhuge i] at hps
      simp at hps

theorem kernelMap_kernelPhys : KernelMap kernelPhys 0x2000#64 0x1000#64 where
  frame := by unfold IsFrame; decide
  taken n t h := by
    rcases reach_kernelPhys h with ⟨_,rfl⟩ | ⟨_,rfl | rfl⟩ | ⟨_,rfl⟩ <;>
      exact ⟨by decide,by decide⟩
  slot := by decide
  entry := by decide
  noHuge := by decide
  low := by decide
  huge := by decide +kernel

def kernelSpace : U64 × Phys :=
  kernelPhys.processPml4Create (KernelTables.ofPml4 kernelPhys 0x2000#64)

def noTask : TaskVm :=
  ⟨none,0,0,0,0,fun _ => VmHole.empty,fun _ => UserVma.empty,0⟩

theorem plainFlags_seven : PlainFlags 7#64 := by
  unfold PlainFlags FlagsOnly
  decide

def twoCalls : List Call :=
  [.reserve 0x50000000#64 0x2000#64 ⟨7#64,plainFlags_seven⟩ true,
    .faultIn 0x50000000#64 true]

theorem calls_isolated_twoCalls : ∃ own,
    Process 0x1000#64 0x2000#64 ⟨newTask noTask kernelSpace.1,kernelSpace.2⟩ own kernelSpace.1 ∧
      NoneHidden kernelSpace.2 kernelSpace.1 ∧
      (run call ⟨newTask noTask kernelSpace.1,kernelSpace.2⟩ twoCalls).phys.userIn
        kernelSpace.1 0x50000000#64 = true ∧
      Isolated 0x1000#64 0x2000#64 own kernelSpace.1 ⟨newTask noTask kernelSpace.1,kernelSpace.2⟩
        (run call ⟨newTask noTask kernelSpace.1,kernelSpace.2⟩ twoCalls)
        (call (run call ⟨newTask noTask kernelSpace.1,kernelSpace.2⟩ twoCalls)
          (.protect 0x50000000#64 0x1000#64 ⟨1#64,by unfold PlainFlags FlagsOnly; decide⟩)) := by
  have hk := kernelMap_kernelPhys
  rcases create_cases hk.tables hk.sharesLow with ⟨hc,_⟩ | ⟨_,own,hb⟩
  · exact absurd hc (by decide +kernel)
  · have hp := Process.born hk hb noTask
    exact ⟨own,hp,noneHidden_born hb (by decide +kernel),by decide +kernel,
      calls_isolated hp twoCalls _⟩

end Uvm

end GaiaKernel
