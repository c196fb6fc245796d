import Mathlib.Data.BitVec

/-! # Machine words, page-table bits and the user address-space layout

The constants are those of memory/vmm.h, memory/uvm.h and loader/process.h.
-/
namespace GaiaKernel
open BitVec

abbrev U64 := BitVec 64
abbrev U32 := BitVec 32
abbrev Byte := BitVec 8

def vmmPresent : U64 := 1#64
def vmmWrite : U64 := 2#64
def vmmUser : U64 := 4#64
def vmmPs : U64 := 0x80#64
def vmmShared : U64 := 0x200#64
def vmmNx : U64 := 0x8000000000000000#64
def vmmAddrMask : U64 := 0x000FFFFFFFFFF000#64

def userVaMin : U64 := 0x1000#64
def userMmapBase : U64 := 0x70000000#64
def userMmapLimit : U64 := 0x80000000#64
def userShmemBase : U64 := 0x80000000#64
def userVaMax : U64 := 0x00007F0000000000#64
def userStackTop : U64 := 0x00007FFFFFFFE000#64
def userStackLow : U64 := 0x00007FFFFFDFE000#64

def maxUserVmas : ℕ := 64
def taskMmapHoles : ℕ := 16

/-- The bits of `mask` that `e` has; `e & mask` used as a C condition. -/
abbrev has (e mask : U64) : Bool := e &&& mask != 0#64
def PageAligned (a : U64) : Prop := a.toNat % 4096 = 0
instance (a : U64) : Decidable (PageAligned a) := inferInstanceAs (Decidable (_ = _))
def pageOf (a : U64) : U64 := a &&& ~~~4095#64

theorem and_4095_toNat (a : U64) : (a &&& 4095#64).toNat = a.toNat % 4096 := by
  exact Nat.and_two_pow_sub_one_eq_mod a.toNat 12

theorem has_4095_eq_false_iff (a : U64) : has a 4095#64 = false ↔ PageAligned a := by
  unfold has PageAligned
  rw [← and_4095_toNat,bne_eq_false_iff_eq,toNat_eq]
  rfl

theorem and_mask_toNat (a m : U64) (k : ℕ) (hm : ∀ i : Fin 64, m.getLsbD i = decide (k ≤ i.val)) :
    (a &&& m).toNat = a.toNat / 2 ^ k * 2 ^ k := by
  have hshift : a &&& m = (a >>> k) <<< k := by
    apply eq_of_getLsbD_eq
    intro i hi
    simp only [getLsbD_and,hm ⟨i,hi⟩,getLsbD_shiftLeft,getLsbD_ushiftRight]
    by_cases hk : i < k
    · simp [hk]
    · simp [hi,show k ≤ i by omega,show k + (i - k) = i by omega]
  have hle : a.toNat / 2 ^ k * 2 ^ k ≤ a.toNat := Nat.div_mul_le_self _ _
  rw [hshift,toNat_shiftLeft,toNat_ushiftRight,Nat.shiftRight_eq_div_pow,
    Nat.shiftLeft_eq,Nat.mod_eq_of_lt (lt_of_le_of_lt hle a.isLt)]

theorem pageOf_toNat (a : U64) : (pageOf a).toNat = a.toNat / 4096 * 4096 :=
  and_mask_toNat a _ 12 (by decide)

@[simp] theorem pageOf_pageOf (a : U64) : pageOf (pageOf a) = pageOf a := by
  apply eq_of_toNat_eq
  simp only [pageOf_toNat]
  omega

end GaiaKernel
