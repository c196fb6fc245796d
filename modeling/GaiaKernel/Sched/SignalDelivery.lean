import GaiaKernel.Sched.Signal
import Mathlib.Order.Bounds.Basic

/-! # What one delivery attempt leaves behind

`deliver` takes the lowest signal that is pending and not blocked, and no other. A signal whose
action became "ignore" after it was queued uses up the attempt.
-/
namespace GaiaKernel.Signal

theorem isLeast_ctz {x : U64} (hx : x ≠ 0#64) : IsLeast {i | x.getLsbD i = true} (ctz x) := by
  unfold ctz
  cases h : (List.range 64).find? fun i => x.getLsbD i with
  | none =>
    refine absurd (BitVec.eq_of_getLsbD_eq fun i hi => ?_) hx
    simpa using List.find?_eq_none.mp h i (List.mem_range.mpr hi)
  | some i =>
    obtain ⟨hi,-,hlow⟩ := List.find?_range_eq_some.mp h
    refine ⟨hi,fun j hj => ?_⟩
    by_contra hlt
    have hclear := hlow j (by simpa using hlt)
    rw [show x.getLsbD j = true from hj] at hclear
    simp at hclear

namespace Task
variable (t : Task)

def Waits (i : ℕ) : Prop := (t.sigPending &&& ~~~t.sigBlocked).getLsbD i = true

/-- Signal `i + 1` has a handler, or its default action ends the task. -/
def Acts (i : ℕ) : Prop :=
  (t.actions i).handler ≠ sigIgn ∧
    ((t.actions i).handler = sigDfl → defaultIgnored (i + 1) = false)

instance (i : ℕ) : Decidable (t.Waits i) := inferInstanceAs (Decidable (_ = true))
instance (i : ℕ) : Decidable (t.Acts i) := inferInstanceAs (Decidable (_ ∧ _))

/-- A handler frame was pushed, or the task ended, or no signal is left that would do either. -/
def Complete : Delivery → Prop
  | .unchanged t => ∀ i, t.Waits i → ¬ t.Acts i
  | .entered _ => True
  | .exited _ => True

variable {t}

theorem ctz_ready {i : ℕ} (hi : IsLeast {j | t.Waits j} i) :
    t.sigPending &&& ~~~t.sigBlocked ≠ 0#64 ∧ ctz (t.sigPending &&& ~~~t.sigBlocked) = i := by
  have hready : t.sigPending &&& ~~~t.sigBlocked ≠ 0#64 := by
    intro h0
    have hwaits : t.Waits i := hi.1
    simp [Waits,h0] at hwaits
  exact ⟨hready,(isLeast_ctz hready).unique hi⟩

theorem complete_of_acts {i : ℕ} (err trapno : U64) (hi : IsLeast {j | t.Waits j} i)
    (ha : t.Acts i) : Complete (t.deliver err trapno) := by
  obtain ⟨hready,hctz⟩ := ctz_ready hi
  obtain ⟨hign,hdfl⟩ := ha
  unfold deliver
  simp only [if_neg hready,hctz,Nat.add_sub_cancel,if_neg hign]
  split
  · next h =>
    rw [hdfl h]
    exact trivial
  · split
    · exact trivial
    · split <;> exact trivial

theorem deliver_ignored {i : ℕ} (err trapno : U64) (hi : IsLeast {j | t.Waits j} i)
    (ha : ¬ t.Acts i) :
    t.deliver err trapno = .unchanged { t with sigPending := t.sigPending &&& ~~~(sigBit (i + 1)) } := by
  obtain ⟨hready,hctz⟩ := ctz_ready hi
  unfold deliver
  simp only [if_neg hready,hctz,Nat.add_sub_cancel]
  split
  · rfl
  · next hign =>
    have hdfl : (t.actions i).handler = sigDfl ∧ defaultIgnored (i + 1) = true := by
      by_contra hc
      refine ha ⟨hign,fun h => ?_⟩
      simpa [h] using hc
    rw [if_pos hdfl.1,if_pos hdfl.2]

theorem waits_clear {i j : ℕ} (hij : i ≠ j) :
    Waits { t with sigPending := t.sigPending &&& ~~~(sigBit (i + 1)) } j ↔ t.Waits j := by
  have hbit : (sigBit (i + 1)).getLsbD j = false := by
    have hne : i ≤ j → ¬ j - i = 0 := by omega
    simpa [sigBit] using fun _ => hne
  simp only [Waits,BitVec.getLsbD_and,BitVec.getLsbD_not,hbit]
  cases decide (j < 64) <;> simp

/-- The attempt is complete exactly if the lowest signal that waits acts, or none does. -/
theorem deliver_complete_iff (t : Task) (err trapno : U64) :
    Complete (t.deliver err trapno) ↔
      ∀ low, IsLeast {i | t.Waits i} low → (∃ i, t.Waits i ∧ t.Acts i) → t.Acts low := by
  constructor
  · rintro h low hlow ⟨i,hw,ha⟩
    by_contra hno
    rw [deliver_ignored err trapno hlow hno] at h
    have hne : low ≠ i := fun hc => hno (hc ▸ ha)
    exact h i ((waits_clear hne).mpr hw) ha
  · intro h
    by_cases hready : t.sigPending &&& ~~~t.sigBlocked = 0#64
    · unfold deliver
      rw [if_pos hready]
      intro i hw
      simp [Waits,hready] at hw
    · have hlow : IsLeast {i | t.Waits i} _ := isLeast_ctz hready
      by_cases ha : t.Acts (ctz (t.sigPending &&& ~~~t.sigBlocked))
      · exact complete_of_acts err trapno hlow ha
      · rw [deliver_ignored err trapno hlow ha]
        intro i hw hi
        by_cases hne : ctz (t.sigPending &&& ~~~t.sigBlocked) = i
        · exact ha (hne ▸ hi)
        · exact ha (h _ hlow ⟨i,(waits_clear hne).mp hw,hi⟩)

/-- SIGUSR1 and SIGUSR2 pending; SIGUSR1 is ignored by now, SIGUSR2 has a handler. -/
def twoPending : Task where
  regs := Regs.ofWords fun _ => 0#64
  userFx _ := 0#8
  mem _ := 0#8
  vm := ⟨fun _ _ => true,fun _ => true,fun _ _ => rfl⟩
  sigPending := sigBit 10 ||| sigBit 12
  sigBlocked := 0#64
  actions i := if i = 11 then ⟨0x400100#64,saRestorer,0x400200#64,0#64⟩ else
    ⟨sigIgn,0#64,0#64,0#64⟩

theorem twoPending_incomplete : ¬ Complete (twoPending.deliver 0#64 0#64) := by
  intro h
  exact h 11 (by decide) (by decide)

end Task

end GaiaKernel.Signal
