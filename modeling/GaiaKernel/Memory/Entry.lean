import GaiaKernel.Memory.Vmm

/-! # Page-table entries as bit fields

An entry is a frame address in bits 12 to 51 and flags elsewhere. The lemmas here compute
`has` and `tableOf` on the entries the walks build, so that no proof above looks at bits.
-/
namespace GaiaKernel
open BitVec

/-- The low 1 GiB of the space is its own. -/
def pml4PrivateLow : U64 := 0x400#64
def IsFrame (f : U64) : Prop := tableOf f = f

theorem has_or (a b m : U64) : has (a ||| b) m = (has a m || has b m) := by
  have h : (a ||| b) &&& m = (a &&& m) ||| (b &&& m) := by ext i; simp [Bool.and_or_distrib_right]
  unfold has
  rw [h,Bool.eq_iff_iff]
  simp only [bne_iff_ne,ne_eq,or_eq_zero_iff,Bool.or_eq_true,not_and_or]

theorem or_privateLow {e : U64} (h : has e pml4PrivateLow = true) : e ||| pml4PrivateLow = e := by
  have hmask : ∀ i < 64, pml4PrivateLow.getLsbD i = decide (i = 10) := by decide
  have hbit : e.getLsbD 10 = true := by
    by_contra hc
    have hzero : e &&& pml4PrivateLow = 0#64 := by
      apply eq_of_getLsbD_eq
      intro i hi
      rw [getLsbD_and,hmask i hi,getLsbD_zero]
      by_cases h10 : i = 10
      · rw [h10,eq_false_of_ne_true hc,Bool.false_and]
      · simp [h10]
    simp [has,hzero] at h
  apply eq_of_getLsbD_eq
  intro i hi
  rw [getLsbD_or,hmask i hi]
  by_cases h10 : i = 10
  · rw [h10,hbit,Bool.true_or]
  · simp [h10]

theorem tableOf_or (a b : U64) : tableOf (a ||| b) = tableOf a ||| tableOf b := by
  unfold tableOf
  ext i; simp [Bool.and_or_distrib_right]

@[simp] theorem tableOf_tableOf (e : U64) : tableOf (tableOf e) = tableOf e := by
  unfold tableOf
  ext i; simp

theorem isFrame_tableOf (e : U64) : IsFrame (tableOf e) := tableOf_tableOf e

variable {f m : U64}

theorem has_eq_false_of_isFrame (hf : IsFrame f) (hm : vmmAddrMask &&& m = 0#64) :
    has f m = false := by
  unfold has
  rw [← hf,tableOf,BitVec.and_assoc,hm]
  simp

theorem has_tableOf {e : U64} (hm : vmmAddrMask &&& m = 0#64) : has (tableOf e) m = false :=
  has_eq_false_of_isFrame (isFrame_tableOf e) hm

def FlagsOnly (flags : U64) : Prop := tableOf flags = 0#64

theorem tableOf_and_user (flags : U64) : tableOf (flags &&& vmmUser) = 0#64 := by
  unfold tableOf
  rw [BitVec.and_assoc]
  have : vmmUser &&& vmmAddrMask = 0#64 := by decide
  rw [this]
  simp

theorem has_and_of_disjoint {flags a : U64} (h : a &&& m = 0#64) : has (flags &&& a) m = false := by
  unfold has
  rw [BitVec.and_assoc,h]
  simp

theorem tableOf_linkEntry (flags : U64) (hf : IsFrame f) : tableOf (linkEntry f flags) = f := by
  unfold linkEntry
  simp only [tableOf_or,tableOf_and_user,show tableOf vmmPresent = 0#64 by decide,
    show tableOf vmmWrite = 0#64 by decide,or_zero]
  exact hf

@[simp] theorem has_linkEntry_present (f flags : U64) :
    has (linkEntry f flags) vmmPresent = true := by
  simp [linkEntry,has_or,show has vmmPresent vmmPresent = true by decide]

theorem has_linkEntry (flags : U64) (hf : IsFrame f) (hm : vmmAddrMask &&& m = 0#64)
    (hp : has vmmPresent m = false) (hw : has vmmWrite m = false) (hu : vmmUser &&& m = 0#64) :
    has (linkEntry f flags) m = false := by
  simp [linkEntry,has_or,has_eq_false_of_isFrame hf hm,hp,hw,has_and_of_disjoint hu]

theorem has_linkEntry_user (f : U64) {flags : U64} (h : has flags vmmUser = true) :
    has (linkEntry f flags) vmmUser = true := by
  have hu : has (flags &&& vmmUser) vmmUser = has flags vmmUser := by
    unfold has
    rw [BitVec.and_assoc,BitVec.and_self]
  rw [linkEntry,has_or,hu,h,Bool.or_true]

@[simp] theorem tableOf_or_user (e : U64) : tableOf (e ||| vmmUser) = tableOf e := by
  rw [tableOf_or,show tableOf vmmUser = 0#64 by decide]; simp

theorem has_or_user (e : U64) (hm : has vmmUser m = false) : has (e ||| vmmUser) m = has e m := by
  rw [has_or,hm]; simp

/-- Two entries that differ in permissions only. -/
structure SameShape (e e' : U64) : Prop where
  present : has e' vmmPresent = has e vmmPresent
  ps : has e' vmmPs = has e vmmPs
  shared : has e' vmmShared = has e vmmShared
  privateLow : has e' pml4PrivateLow = has e pml4PrivateLow
  table : tableOf e' = tableOf e

theorem SameShape.refl (e : U64) : SameShape e e := ⟨rfl,rfl,rfl,rfl,rfl⟩

theorem sameShape_or_user (e : U64) : SameShape e (e ||| vmmUser) :=
  ⟨has_or_user e (by decide),has_or_user e (by decide),has_or_user e (by decide),
    has_or_user e (by decide),tableOf_or_user e⟩

theorem SameShape.trans {a b c : U64} (h : SameShape a b) (h' : SameShape b c) : SameShape a c :=
  ⟨h'.present.trans h.present,h'.ps.trans h.ps,h'.shared.trans h.shared,
    h'.privateLow.trans h.privateLow,h'.table.trans h.table⟩

theorem addrMask_getLsbD : ∀ i < 64, vmmAddrMask.getLsbD i = (decide (12 ≤ i) && decide (i < 52)) := by
  decide

theorem tableOf_toNat (e : U64) : (tableOf e).toNat = e.toNat % 2 ^ 52 / 2 ^ 12 * 2 ^ 12 := by
  rw [← Nat.shiftRight_eq_div_pow,← Nat.shiftLeft_eq]
  refine Nat.eq_of_testBit_eq fun i => ?_
  rw [Nat.testBit_shiftLeft,Nat.testBit_shiftRight,Nat.testBit_mod_two_pow,tableOf,
    testBit_toNat,getLsbD_and,testBit_toNat]
  by_cases hi : i < 64
  · rw [addrMask_getLsbD i hi]
    by_cases h12 : 12 ≤ i
    · simp [h12,Bool.and_comm]
    · simp [h12]
  · simp [getLsbD_of_ge e i (by omega)]
    omega

theorem isFrame_of_lt (ha : f.toNat % 4096 = 0) (hl : f.toNat < 2 ^ 52) : IsFrame f := by
  refine eq_of_toNat_eq ?_
  rw [tableOf_toNat,Nat.mod_eq_of_lt hl]
  omega

theorem IsFrame.aligned (hf : IsFrame f) : f.toNat % 4096 = 0 := by
  have h := congrArg BitVec.toNat hf
  rw [tableOf_toNat] at h
  omega

theorem IsFrame.ext {g : U64} (hf : IsFrame f) (hg : IsFrame g)
    (h : f.toNat / 4096 = g.toNat / 4096) : f = g := by
  have h1 := hf.aligned
  have h2 := hg.aligned
  exact eq_of_toNat_eq (by omega)

end GaiaKernel
