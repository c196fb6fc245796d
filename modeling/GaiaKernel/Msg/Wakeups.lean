import GaiaKernel.Msg.PipeStream

/-! # No wakeup is lost

A task that sleeps in a call on a pipe does so because the call cannot go on: every change that
lets it go on wakes it.
-/
namespace GaiaKernel.Pipes
open Trace List State

/-- What the call waits for has not come about. -/
def Pipe.Stuck (p : Pipe) : Call → Prop
  | .read .. => p.count = 0 ∧ p.writers ≠ 0
  | .write _ buf written _ => p.readers ≠ 0 ∧
      pipeCapacity - p.count < if buf.length ≤ pipeBuf then buf.length - written else 1

theorem Pipe.writeLoop_stuck (p : Pipe) (buf : List Byte) (written : ℕ) (nonblock signal : Bool) :
    let r := p.writeLoop buf written nonblock signal
    (r.2.1 = [] → r.1 = p) ∧ p.count ≤ r.1.count ∧ r.1.readers = p.readers ∧
      ∀ id, r.2.2.2 = none → r.1.Stuck (.write id buf r.2.2.1 nonblock) := by
  fun_induction Pipe.writeLoop p buf written nonblock signal with
  | case4 p written hlt hr space need hroom => exact ⟨fun _ => rfl,le_rfl,rfl,fun _ _ => ⟨hr,hroom⟩⟩
  | case5 p written hlt hr space need hroom chunk bytes r ih =>
    exact ⟨by simp,(Nat.le_add_right _ _).trans ih.2.1,ih.2.2⟩
  | _ => simp

variable {ι : Type*} {s : State ι} {p : Pipe}

def Alert (s : State ι) : Prop :=
  ∀ i, (s.tasks i).ready = false → ∀ c ∈ (s.tasks i).call, s.pipe.Stuck c

namespace Alert
variable (h : Alert s)
include h

theorem wakeAll {readable : Bool}
    (hp : ∀ c, Call.onReadable c ≠ readable → s.pipe.Stuck c → p.Stuck c) :
    Alert ({ s with pipe := p }.wakeAll readable) := by
  intro i hready c hc
  rw [call_wakeAll] at hc
  simp only [State.wakeAll] at hready
  split_ifs at hready with hany
  refine hp c (fun he => hany ?_) (h i hready c hc)
  rw [Option.mem_def.mp hc]
  exact beq_iff_eq.mpr he

theorem pipeUnref (w : Bool) : Alert (s.pipeUnref w) := by
  unfold State.pipeUnref
  cases w <;> dsimp only <;> split_ifs
  all_goals first
    | exact h
    -- the last end of a kind is gone, and those who wait for the other kind are woken
    | refine h.wakeAll ?_
      rintro (_ | _) hne hs <;> first | exact hs | cases hne rfl
    | intro i hready c hc
      have hs := h i hready c hc
      cases c <;> first | exact hs | exact ⟨hs.1,by assumption⟩ | exact ⟨by assumption,hs.2⟩

variable [DecidableEq ι]

theorem setTask (i : ι) {t : Task} (ht : t.ready = false → ∀ c ∈ t.call, s.pipe.Stuck c) :
    Alert (s.setTask i t) := by
  intro j
  by_cases hj : j = i
  · subst hj
    simpa [State.setTask] using ht
  · simpa [State.setTask,hj] using h j

theorem setEnds (i : ι) (w : Bool) (n : ℕ) : Alert (s.setTask i ((s.tasks i).setEnds w n)) :=
  h.setTask i (by cases w <;> exact h i)

theorem leave (i : ι) : Alert (s.leave i) := h.setTask i (by simp)

theorem runRead (i : ι) (n : ℕ) (nonblock signal : Bool) : Alert (s.runRead i n nonblock signal) := by
  unfold State.runRead
  split_ifs with hf hn h0 hw
  case neg =>
    refine h.setTask i fun _ c hc => ?_
    cases hc
    exact ⟨h0,hw⟩
  case neg =>
    refine (h.wakeAll (p := (s.pipe.take n).2) ?_).leave i
    rintro (_ | _) hne hs
    · exact absurd hs.1 h0
    · cases hne rfl
  all_goals first | exact h | exact h.leave i

theorem runWrite (i : ι) (id : ℕ) (buf : List Byte) (written : ℕ) (nonblock signal : Bool) :
    Alert (s.runWrite i id buf written nonblock signal) := by
  obtain ⟨hnil,hcount,hreaders,hstuck⟩ := s.pipe.writeLoop_stuck buf written nonblock signal
  unfold State.runWrite
  split
  · exact h
  dsimp only
  generalize s.pipe.writeLoop buf written nonblock signal = r at *
  set s₁ : State ι := { s with pipe := r.1, log := s.log ++ r.2.1.map (id, ·) }
  have hput : Alert (if r.2.1.isEmpty then s₁ else s₁.wakeAll true) := by
    split
    case isTrue hempty =>
      intro j hready c hc
      rw [show s₁.pipe = s.pipe from hnil (isEmpty_iff.mp hempty)]
      exact h j hready c hc
    case isFalse =>
      -- a write only leaves less room for the other writers
      refine h.wakeAll (p := r.1) ?_
      rintro (_ | _) hne ⟨hr,hroom⟩
      · cases hne rfl
      · exact ⟨hreaders.trans_ne hr,by omega⟩
  have hpipe : (if r.2.1.isEmpty then s₁ else s₁.wakeAll true).pipe = r.1 := by split <;> rfl
  cases hrc : r.2.2.2 with
  | some rc => exact hput.leave i
  | none =>
    refine hput.setTask i fun _ c hc => ?_
    cases hc
    rw [hpipe]
    exact hstuck id hrc

theorem dup (i : ι) (w : Bool) (n : ℕ) :
    Alert ((s.pipeRef w).setTask i ((s.tasks i).setEnds w n)) := by
  unfold pipeRef
  split
  · exact h.setEnds i w n
  · intro j hready c hc
    have hs := h.setEnds i w n j hready c hc
    cases c <;> cases w <;> first
      | exact hs
      | exact ⟨hs.1,Nat.succ_ne_zero _⟩
      | exact ⟨Nat.succ_ne_zero _,hs.2⟩

theorem step (op : Op ι) : Alert (step s op) := by
  cases op with
  | wake i =>
    refine h.setTask i fun h0 c hc => ?_
    rw [Option.mem_def.mp hc] at h0
    cases h0
  | _ =>
    simp only [Pipes.step,resume]
    repeat' split
    all_goals first
      | exact h
      | exact h.leave _
      | exact h.runRead _ _ _ _
      | exact h.runWrite _ _ _ _ _ _
      | exact runWrite (s := { s with nextId := s.nextId + 1 }) h _ _ _ _ _ _
      | exact h.dup _ _ _
      | exact (h.setEnds _ _ _).pipeUnref _

end Alert

theorem alert_create [DecidableEq ι] (i : ι) : Alert (create i) := by
  intro j _ c hc
  by_cases hj : j = i
  · subst hj
    simp [create] at hc
  · simp [create,hj] at hc

/-- Whatever the tasks do, none of them sleeps in a call on the pipe that could go on. -/
theorem run_alert [DecidableEq ι] (i : ι) (ops : List (Op ι)) : Always step Alert (create i) ops :=
  always_of_invariant (fun _ op h => h.step op) (fun _ h => h) (alert_create i) ops

def Sleeps (s : State ι) (readable : Bool) : Prop :=
  ∃ i, (s.tasks i).ready = false ∧ ∃ c ∈ (s.tasks i).call, Call.onReadable c = readable

/-- Readers and writers never wait for each other: an empty pipe has room for every write. -/
theorem run_no_deadlock [DecidableEq ι] (i : ι) (ops : List (Op ι)) :
    Always step (fun s => ¬ (Sleeps s true ∧ Sleeps s false)) (create i) ops := by
  refine always_of_invariant (fun _ op h => h.step op) (fun s h => ?_) (alert_create i) ops
  rintro ⟨⟨j,hj,c,hc,hr⟩,k,hk,d,hd,hw⟩
  have hread := h j hj c hc
  have hwrite := h k hk d hd
  cases c <;> cases hr
  cases d <;> cases hw
  have hroom := hwrite.2
  rw [hread.1] at hroom
  split at hroom
  · simp only [pipeCapacity,pipeBuf] at *
    omega
  · simp [pipeCapacity] at hroom

end GaiaKernel.Pipes
