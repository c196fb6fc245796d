import GaiaKernel.Memory.Vmm

/-! # What the processor sees of a space

The tables that can be reached from a root, the leaf an address ends in, and whether user
mode may use it. All three depend on the tables that can be reached and on nothing else.
-/
namespace GaiaKernel

/-- The table is `n` levels below the root. Huge pages end a path; the entries of a root
cannot be huge. -/
inductive Reach (ph : Phys) (root : U64) : ℕ → U64 → Prop
  | root : Reach ph root 0 root
  | down {n : ℕ} {t : U64} (i : BitVec 9) : Reach ph root n t → n < 3 →
      has (ph.mem t i) vmmPresent = true → (n = 0 ∨ has (ph.mem t i) vmmPs = false) →
      Reach ph root (n + 1) (tableOf (ph.mem t i))

namespace Phys
variable (ph : Phys)

/-- The entries on the way of an address: the walk ends at an entry that is absent, at a huge
page, or at the page table. -/
def entriesIn (pml4 virt : U64) : List U64 :=
  let e := ph.mem pml4 (pml4Index virt)
  if !has e vmmPresent then [e]
  else
    let e₁ := ph.mem (tableOf e) (pdptIndex virt)
    if !has e₁ vmmPresent || has e₁ vmmPs then [e, e₁]
    else
      let e₂ := ph.mem (tableOf e₁) (pdIndex virt)
      if !has e₂ vmmPresent || has e₂ vmmPs then [e, e₁, e₂]
      else [e, e₁, e₂, ph.mem (tableOf e₂) (ptIndex virt)]

def leafIn (pml4 virt : U64) : Option U64 :=
  (ph.entriesIn pml4 virt).getLast?.filter (has · vmmPresent)

/-- User mode may use the address: every entry on the way is present and has `VMM_USER`. -/
def userIn (pml4 virt : U64) : Bool :=
  (ph.entriesIn pml4 virt).all fun e => has e vmmPresent && has e vmmUser

end Phys

variable {ph ph' : Phys} {root : U64}

/-- The two memories agree on every table that can be reached. -/
def SameReach (ph ph' : Phys) (root : U64) : Prop :=
  ∀ n t, Reach ph root n t → ph'.mem t = ph.mem t

theorem SameReach.reach_iff (h : SameReach ph ph' root) (n : ℕ) (t : U64) :
    Reach ph' root n t ↔ Reach ph root n t := by
  constructor
  · intro hr
    induction hr with
    | root => exact .root
    | down i _ hn hpres hps ih =>
      rw [h _ _ ih] at hpres hps ⊢
      exact .down i ih hn hpres hps
  · intro hr
    induction hr with
    | root => exact .root
    | @down n t i hr hn hpres hps ih =>
      rw [← h n t hr] at hpres hps ⊢
      exact .down i ih hn hpres hps

theorem SameReach.entriesIn (h : SameReach ph ph' root) (va : U64) :
    ph'.entriesIn root va = ph.entriesIn root va := by
  unfold Phys.entriesIn
  rw [h 0 root .root]
  generalize he : ph.mem root (pml4Index va) = e
  dsimp only
  by_cases h0 : (!has e vmmPresent) = true
  · rw [if_pos h0,if_pos h0]
  have hr1 : Reach ph root 1 (tableOf e) := by
    subst he
    exact .down _ .root (by omega) (by simpa using h0) (Or.inl rfl)
  rw [h 1 _ hr1]
  generalize he1 : ph.mem (tableOf e) (pdptIndex va) = e1
  by_cases h1 : (!has e1 vmmPresent || has e1 vmmPs) = true
  · rw [if_pos h1,if_pos h1]
  have hr2 : Reach ph root 2 (tableOf e1) := by
    subst he1
    simp only [Bool.or_eq_true,Bool.not_eq_true',not_or,Bool.not_eq_false,Bool.not_eq_true] at h1
    exact .down _ hr1 (by omega) h1.1 (Or.inr h1.2)
  rw [h 2 _ hr2]
  generalize he2 : ph.mem (tableOf e1) (pdIndex va) = e2
  by_cases h2 : (!has e2 vmmPresent || has e2 vmmPs) = true
  · rw [if_pos h2,if_pos h2]
  have hr3 : Reach ph root 3 (tableOf e2) := by
    subst he2
    simp only [Bool.or_eq_true,Bool.not_eq_true',not_or,Bool.not_eq_false,Bool.not_eq_true] at h2
    exact .down _ hr2 (by omega) h2.1 (Or.inr h2.2)
  rw [h 3 _ hr3]

def translateOf (virt : U64) : List U64 → U64
  | [_, e] => if has e vmmPresent then (e &&& vmmAddrMask) ||| (virt &&& 0x3FFFFFFF#64) else 0#64
  | [_, _, e] => if has e vmmPresent then (e &&& vmmAddrMask) ||| (virt &&& 0x1FFFFF#64) else 0#64
  | [_, _, _, e] => if has e vmmPresent then (e &&& vmmAddrMask) ||| (virt &&& 0xFFF#64) else 0#64
  | _ => 0#64

theorem vmmTranslateIn_eq (ph : Phys) (root va : U64) :
    ph.vmmTranslateIn root va = translateOf va (ph.entriesIn root va) := by
  unfold Phys.vmmTranslateIn Phys.entriesIn
  dsimp only
  generalize ph.mem root (pml4Index va) = e
  generalize ph.mem (tableOf e) (pdptIndex va) = e1
  generalize ph.mem (tableOf e1) (pdIndex va) = e2
  generalize ph.mem (tableOf e2) (ptIndex va) = e3
  cases has e vmmPresent
  · rfl
  cases h1 : has e1 vmmPresent
  · simp [translateOf,h1]
  cases h2 : has e1 vmmPs
  · cases h3 : has e2 vmmPresent
    · simp [translateOf,h3]
    · cases h4 : has e2 vmmPs <;> cases h5 : has e3 vmmPresent <;> simp [translateOf,h3,h5]
  · simp [translateOf,h1]

theorem SameReach.vmmTranslateIn (h : SameReach ph ph' root) (va : U64) :
    ph'.vmmTranslateIn root va = ph.vmmTranslateIn root va := by
  rw [vmmTranslateIn_eq,vmmTranslateIn_eq,h.entriesIn]

end GaiaKernel
