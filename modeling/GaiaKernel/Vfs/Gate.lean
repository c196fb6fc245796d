import GaiaKernel.Lib.LinkedQueue
import GaiaKernel.Lib.Trace

/-! # The gate of the VFS

fs/vfs/lock.c: one owner, and a list of waiters that the tasks queue on in `vfs_lock`. A waiter
record lies on the stack of its task and a task has one at a time, so a record is named by its
task. Interrupts are off in both calls, so a call is one step up to the `task_block` in the loop
of `vfs_lock`; what a task does after each return from `task_block` is a step of its own.
-/
namespace GaiaKernel.Vfs
open Function List Option
open LinkedQueue (Queue Holds push pop)
variable {ι : Type*} [DecidableEq ι]

/-- Where a task is: not there, outside the gate, in the loop of `vfs_lock`, or between the
return of `vfs_lock` and `vfs_unlock`. -/
inductive Place where
  | absent
  | outside
  | waiting
  | inside
  deriving DecidableEq

/-- `parked` holds of a task blocked in the loop of `vfs_lock`. `arrived` and `granted` are history:
the tasks in the order in which they queued, and were passed the gate by `vfs_unlock`. -/
structure Gate (ι : Type*) where
  owner : Option ι
  queue : Queue ι
  next : ι → Option ι
  vfsActive : ι → Bool
  place : ι → Place
  parked : ι → Bool
  arrived : List ι
  granted : List ι

namespace Gate

def init (boot : ι) : Gate ι where
  owner := none
  queue := ⟨none,none⟩
  next _ := none
  vfsActive _ := false
  place i := if i = boot then .outside else .absent
  parked _ := false
  arrived := []
  granted := []

variable (boot : ι) (g : Gate ι)

/-- `vfs_lock` up to its return or its first `task_block`; none for a panic. -/
def vfsLock (i : ι) : Option (Gate ι) :=
  if g.owner = some i ∨ g.vfsActive i then none
  else
    match g.owner with
    | none =>
      some { g with
        owner := some i
        vfsActive := update g.vfsActive i true
        place := update g.place i .inside }
    | some _ =>
      if i = boot then none
      else
        let q := push g.next g.queue i
        some { g with
          next := q.1
          queue := q.2
          vfsActive := update g.vfsActive i true
          place := update g.place i .waiting
          parked := update g.parked i true
          arrived := g.arrived ++ [i] }

def lockRetry (i : ι) : Gate ι :=
  if g.owner ≠ some i then { g with parked := update g.parked i true }
  else { g with place := update g.place i .inside }

def taskWakeup (i : ι) : Gate ι := { g with parked := update g.parked i false }

def vfsUnlock (i : ι) : Option (Gate ι) :=
  if g.owner ≠ some i ∨ !g.vfsActive i then none
  else
    let left := { g with
      vfsActive := update g.vfsActive i false
      place := update g.place i .outside }
    match pop g.next g.queue with
    | some (t, next, queue) =>
      some ({ left with next, queue, owner := some t, granted := g.granted ++ [t] }.taskWakeup t)
    | none => some { left with owner := none }

/-- `task_kill` of a task; `allowed` stands for its later checks, which do not concern the
gate. -/
def taskKill (i : ι) (allowed : Bool) : Gate ι :=
  if g.vfsActive i then g
  else if allowed then { g with place := update g.place i .absent }
  else g

def taskExit (i : ι) : Option (Gate ι) :=
  if g.vfsActive i then none
  else some { g with place := update g.place i .absent }

def taskSpawn (i : ι) : Gate ι :=
  { g with
    vfsActive := update g.vfsActive i false
    place := update g.place i .outside }

inductive Op (ι : Type*) where
  | lock (i : ι)
  | retry (i : ι)
  | unlock (i : ι)
  | wakeup (i : ι)
  | kill (i : ι) (allowed : Bool)
  | exit (i : ι)
  | spawn (i : ι)

/-- The task executes code of its own outside the loop of `vfs_lock`. -/
def Runs (i : ι) : Prop := g.place i = .outside ∨ g.place i = .inside
instance (i : ι) : Decidable (g.Runs i) := inferInstanceAs (Decidable (_ ∨ _))

/-- Any task may take the next step. A call that panics has no next state. -/
def step : Op ι → Gate ι
  | .lock i => if g.Runs i then (g.vfsLock boot i).getD g else g
  | .retry i => if g.place i = .waiting ∧ ¬ g.parked i then g.lockRetry i else g
  | .unlock i => if g.Runs i then (g.vfsUnlock i).getD g else g
  | .wakeup i => g.taskWakeup i
  | .kill i allowed => if g.place i ≠ .absent ∧ i ≠ boot then g.taskKill i allowed else g
  | .exit i => if g.Runs i ∧ i ≠ boot then (g.taskExit i).getD g else g
  | .spawn i => if g.place i = .absent then g.taskSpawn i else g

end Gate

/-- One task inside at most; the waiters are those who queued and were not given the gate yet, in
that order; nobody waits for a free gate; `vfs_active` marks the owner and the waiters. -/
structure Serial (g : Gate ι) : Prop where
  exclusive : ∀ i j, g.place i = .inside → g.place j = .inside → i = j
  fifo : ∃ waiters, Holds g.next g.queue waiters ∧ g.arrived = g.granted ++ waiters ∧
    (g.owner = none → waiters = []) ∧
    (∀ i, g.vfsActive i = true ↔ g.owner = some i ∨ i ∈ waiters) ∧
    ∀ i, g.parked i = true → i ∈ waiters

structure Ordered (g : Gate ι) (waiters : List ι) : Prop where
  holds : Holds g.next g.queue waiters
  history : g.arrived = g.granted ++ waiters
  free : g.owner = none → waiters = []
  active : ∀ i, g.vfsActive i = true ↔ g.owner = some i ∨ i ∈ waiters
  owner_not_waiter : ∀ i, g.owner = some i → i ∉ waiters
  inside : ∀ i, g.place i = .inside → g.owner = some i
  /-- Who owns the gate or waits for it is inside or in the loop, and nobody else is. -/
  engaged : ∀ i, (g.place i = .inside ∨ g.place i = .waiting) ↔ g.owner = some i ∨ i ∈ waiters
  parked : ∀ i, g.parked i = true → i ∈ waiters

omit [DecidableEq ι] in
theorem Ordered.serial {g : Gate ι} {waiters : List ι} (h : Ordered g waiters) : Serial g where
  exclusive i j hi hj := some.inj ((h.inside i hi).symm.trans (h.inside j hj))
  fifo := ⟨waiters,h.holds,h.history,h.free,h.active,h.parked⟩

theorem ordered_init (boot : ι) : Ordered (Gate.init boot) [] where
  holds := ⟨rfl,nodup_nil,rfl⟩
  history := rfl
  free _ := rfl
  active i := by simp [Gate.init]
  owner_not_waiter i h := by cases h
  inside i h := by
    simp only [Gate.init] at h
    split at h <;> cases h
  engaged i := by
    simp only [Gate.init]
    split <;> simp
  parked i h := by cases h

namespace Ordered
variable {boot : ι} {g g' : Gate ι} {waiters : List ι} {i : ι}
section
variable (h : Ordered g waiters)
include h

theorem move (hi : ¬ (g.owner = some i ∨ i ∈ waiters)) {p : Place}
    (hp : ¬ (p = .inside ∨ p = .waiting)) :
    Ordered { g with place := update g.place i p } waiters where
  holds := h.holds
  history := h.history
  free := h.free
  active := h.active
  owner_not_waiter := h.owner_not_waiter
  inside j hj := by
    simp only [update_apply] at hj
    split_ifs at hj with hne
    · exact absurd (Or.inl hj) hp
    · exact h.inside j hj
  engaged j := by
    dsimp only
    by_cases hne : j = i
    · rw [hne,update_self]
      exact iff_of_false hp hi
    · rw [update_of_ne hne]
      exact h.engaged j
  parked := h.parked

theorem vfsLock (hg : g.vfsLock boot i = some g') : ∃ waiters', Ordered g' waiters' := by
  unfold Gate.vfsLock at hg
  split at hg
  · cases hg
  case isFalse hfree =>
    obtain ⟨ho,hflag⟩ := not_or.mp hfree
    have hw : i ∉ waiters := fun hw => hflag ((h.active i).mpr (Or.inr hw))
    split at hg
    case h_1 howner =>
      -- the gate is free, so the task takes it and nobody waits
      cases hg
      obtain rfl := h.free howner
      refine ⟨[],h.holds,h.history,fun _ => rfl,?_,?_,?_,?_,h.parked⟩
      · intro j
        have hj := h.active j
        by_cases hne : j = i
        · simp [hne]
        · simpa [hne,howner,Ne.symm hne] using hj
      · intro j _
        exact not_mem_nil
      · intro j hj
        dsimp only at hj
        by_cases hne : j = i
        · rw [hne]
        · rw [update_of_ne hne] at hj
          exact absurd (h.inside j hj) (by simp [howner])
      · intro j
        have hj := h.engaged j
        by_cases hne : j = i
        · simp [hne]
        · simpa [hne,howner,Ne.symm hne] using hj
    case h_2 k howner =>
      split at hg
      · cases hg
      · -- the gate is taken, so the task goes to the end of the list
        cases hg
        refine ⟨waiters ++ [i],h.holds.push hw,?_,?_,?_,?_,?_,?_,?_⟩
        · rw [h.history,append_assoc]
        · intro hnone
          exact absurd hnone (by simp [howner])
        · intro j
          have hj := h.active j
          by_cases hne : j = i
          · simp [hne]
          · simpa [hne] using hj
        · intro j hj
          have hne : j ≠ i := by
            rintro rfl
            exact ho hj
          simp [h.owner_not_waiter j hj,hne]
        · intro j hj
          dsimp only at hj
          by_cases hne : j = i
          · simp [hne] at hj
          · rw [update_of_ne hne] at hj
            exact h.inside j hj
        · intro j
          have hj := h.engaged j
          by_cases hne : j = i
          · simp [hne]
          · simpa [hne] using hj
        · intro j hj
          dsimp only at hj
          by_cases hne : j = i
          · simp [hne]
          · rw [update_of_ne hne] at hj
            exact mem_append_left _ (h.parked j hj)

theorem taskWakeup (i : ι) : Ordered (g.taskWakeup i) waiters := { h with
    parked := by
      intro j hj
      simp only [Gate.taskWakeup] at hj
      by_cases hne : j = i
      · simp [hne] at hj
      · rw [update_of_ne hne] at hj
        exact h.parked j hj }

theorem lockRetry (hi : g.place i = .waiting) : Ordered (g.lockRetry i) waiters := by
  have hengaged := (h.engaged i).mp (Or.inr hi)
  unfold Gate.lockRetry
  split
  case isTrue ho =>
    refine { h with parked := ?_ }
    intro j hj
    dsimp only at hj
    by_cases hne : j = i
    · rw [hne]
      exact hengaged.resolve_left ho
    · rw [update_of_ne hne] at hj
      exact h.parked j hj
  case isFalse ho =>
    have howner : g.owner = some i := not_not.mp ho
    refine { h with inside := ?_, engaged := ?_ }
    · intro j hj
      dsimp only at hj
      by_cases hne : j = i
      · rw [hne,howner]
      · rw [update_of_ne hne] at hj
        exact h.inside j hj
    · intro j
      dsimp only
      by_cases hne : j = i
      · rw [hne,update_self]
        exact iff_of_true (Or.inl rfl) hengaged
      · rw [update_of_ne hne]
        exact h.engaged j

theorem leave (howner : g.owner = some i) {o : Option ι} {l granted : List ι}
    {next : ι → Option ι} {queue : Queue ι} {parked : ι → Bool} (hq : Holds next queue l)
    (hhistory : g.arrived = granted ++ l) (hfree : o = none → l = [])
    (hsplit : ∀ j, j ∈ waiters ↔ o = some j ∨ j ∈ l) (ho : ∀ j, o = some j → j ∉ l)
    (hparked : ∀ j, parked j = true → j ∈ l) : Ordered { g with
        next, queue, granted, parked
        owner := o
        vfsActive := update g.vfsActive i false
        place := update g.place i .outside } l where
  holds := hq
  history := hhistory
  free := hfree
  active j := by
    dsimp only
    rw [← hsplit]
    by_cases hne : j = i
    · simp [hne,h.owner_not_waiter i howner]
    · rw [update_of_ne hne,h.active j,howner]
      simp [Ne.symm hne]
  owner_not_waiter := ho
  inside j hj := by
    dsimp only at hj
    by_cases hne : j = i
    · simp [hne] at hj
    · rw [update_of_ne hne] at hj
      exact absurd (some.inj (howner.symm.trans (h.inside j hj))).symm hne
  engaged j := by
    dsimp only
    rw [← hsplit]
    by_cases hne : j = i
    · simp [hne,h.owner_not_waiter i howner]
    · rw [update_of_ne hne,h.engaged j,howner]
      simp [Ne.symm hne]
  parked := hparked

theorem vfsUnlock (hg : g.vfsUnlock i = some g') : ∃ waiters', Ordered g' waiters' := by
  unfold Gate.vfsUnlock at hg
  split at hg
  · cases hg
  case isFalse hown =>
    have howner : g.owner = some i := not_not.mp (not_or.mp hown).1
    cases waiters with
    | nil =>
      have hhead : g.queue.head = none := h.holds.head_eq
      simp only [pop,hhead,map_none,some.injEq] at hg
      subst hg
      exact ⟨[],h.leave howner h.holds h.history (fun _ => rfl) (by simp) (by simp) h.parked⟩
    | cons t l =>
      obtain ⟨q',hpop,hq'⟩ := h.holds.pop_cons
      have ht : t ∉ l := (List.nodup_cons.mp h.holds.nodup).1
      simp only [hpop,some.injEq] at hg
      subst hg
      refine ⟨l,h.leave howner hq' ?_ (by simp) ?_ ?_ ?_⟩
      · rw [h.history,append_assoc]
        rfl
      · simp [eq_comm]
      · rintro j ⟨⟩
        exact ht
      · -- the new owner has been woken, so only later waiters can be parked
        intro j hj
        by_cases hne : j = t
        · simp [hne] at hj
        · rw [update_of_ne hne] at hj
          exact (List.mem_cons.mp (h.parked j hj)).resolve_left hne

theorem depart (hi : ¬ g.vfsActive i = true) :
    Ordered { g with place := update g.place i .absent } waiters :=
  h.move (mt (h.active i).mpr hi) (by simp)

theorem taskSpawn (hi : g.place i = .absent) : Ordered (g.taskSpawn i) waiters := by
  have hidle : ¬ (g.owner = some i ∨ i ∈ waiters) := by
    rw [← h.engaged i,hi]
    simp
  refine { h.move hidle (p := .outside) (by simp) with active := ?_ }
  intro j
  by_cases hne : j = i
  · simp [Gate.taskSpawn,hne,hidle]
  · simp only [Gate.taskSpawn,update_of_ne hne]
    exact h.active j

end

omit [DecidableEq ι] in
theorem getD {o : Option (Gate ι)} (h : Ordered g waiters)
    (ho : ∀ g', o = some g' → ∃ waiters', Ordered g' waiters') :
    ∃ waiters', Ordered (o.getD g) waiters' := by
  cases o with
  | none => exact ⟨waiters,h⟩
  | some g' => exact ho g' rfl

theorem step (h : Ordered g waiters) (op : Gate.Op ι) :
    ∃ waiters', Ordered (g.step boot op) waiters' := by
  cases op with
  | lock i =>
    dsimp only [Gate.step]
    split
    · exact h.getD fun g' hg => h.vfsLock hg
    · exact ⟨waiters,h⟩
  | retry i =>
    dsimp only [Gate.step]
    split
    case isTrue hi => exact ⟨waiters,h.lockRetry hi.1⟩
    · exact ⟨waiters,h⟩
  | unlock i =>
    dsimp only [Gate.step]
    split
    · exact h.getD fun g' hg => h.vfsUnlock hg
    · exact ⟨waiters,h⟩
  | wakeup i => exact ⟨waiters,h.taskWakeup i⟩
  | kill i allowed =>
    dsimp only [Gate.step,Gate.taskKill]
    split_ifs with _ hactive
    · exact ⟨waiters,h⟩
    · exact ⟨waiters,h.depart hactive⟩
    · exact ⟨waiters,h⟩
    · exact ⟨waiters,h⟩
  | exit i =>
    dsimp only [Gate.step]
    split
    · refine h.getD fun g' hg => ?_
      unfold Gate.taskExit at hg
      split at hg
      · cases hg
      case isFalse hactive =>
        cases hg
        exact ⟨waiters,h.depart hactive⟩
    · exact ⟨waiters,h⟩
  | spawn i =>
    dsimp only [Gate.step]
    split
    case isTrue hi => exact ⟨waiters,h.taskSpawn hi⟩
    · exact ⟨waiters,h⟩

end Ordered

/-- Nobody is kept out of a free gate; who leaves hands it to the first waiter, or frees it; and a
task that the gate was handed to gets in as soon as it runs. -/
structure Passes (boot : ι) (g : Gate ι) : Prop where
  granted : ∀ i, g.owner = none → g.Runs i → ∃ g', g.vfsLock boot i = some g' ∧
    g'.owner = some i ∧ g'.place i = .inside
  handed : ∀ i t l, g.place i = .inside → Holds g.next g.queue (t :: l) →
    ∃ g', g.vfsUnlock i = some g' ∧ g'.owner = some t ∧ g'.parked t = false ∧
      g'.place i = .outside ∧ Holds g'.next g'.queue l
  freed : ∀ i, g.place i = .inside → Holds g.next g.queue [] →
    ∃ g', g.vfsUnlock i = some g' ∧ g'.owner = none ∧ g'.place i = .outside
  enters : ∀ i, g.owner = some i → g.parked i = false ∧ (g.lockRetry i).place i = .inside

theorem Ordered.passes {g : Gate ι} {waiters : List ι} (h : Ordered g waiters) (boot : ι) :
    Passes boot g where
  granted i hfree _ := by
    have hactive : g.vfsActive i = false := by
      rw [← Bool.not_eq_true,h.active i,hfree,h.free hfree]
      simp
    rw [Gate.vfsLock,if_neg (by simp [hfree,hactive]),hfree]
    exact ⟨_,rfl,rfl,update_self _ _ _⟩
  handed i t l hi hq := by
    have howner := h.inside i hi
    have hactive := (h.active i).mpr (.inl howner)
    obtain ⟨q',hpop,hq'⟩ := hq.pop_cons
    rw [Gate.vfsUnlock,if_neg (by simp [howner,hactive])]
    simp only [hpop]
    exact ⟨_,rfl,rfl,update_self _ _ _,update_self _ _ _,hq'⟩
  freed i hi hq := by
    have howner := h.inside i hi
    have hactive := (h.active i).mpr (.inl howner)
    have hhead : g.queue.head = none := hq.head_eq
    rw [Gate.vfsUnlock,if_neg (by simp [howner,hactive])]
    simp only [pop,hhead,map_none]
    exact ⟨_,rfl,rfl,update_self _ _ _⟩
  enters i howner := by
    refine ⟨?_,?_⟩
    · rw [← Bool.not_eq_true]
      exact fun hp => h.owner_not_waiter i howner (h.parked i hp)
    · rw [Gate.lockRetry,if_neg (not_not.mpr howner)]
      exact update_self _ _ _

/-- Along every interleaving, with tasks that come and go, are woken too early or killed, the
gate serves one task at a time and passes on in the order of arrival. -/
theorem gate_serial (boot : ι) (ops : List (Gate.Op ι)) :
    Trace.Always (Gate.step boot) (fun g => Serial g ∧ Passes boot g) (Gate.init boot) ops :=
  Trace.always_of_invariant (I := fun g => ∃ waiters, Ordered g waiters)
    (fun _ op h => h.elim fun _ h => h.step op)
    (fun _ h => h.elim fun _ h => ⟨h.serial,h.passes boot⟩) ⟨[],ordered_init boot⟩ ops

-- task 2 queues behind task 1, cannot be killed, wakes once for nothing, and then has its turn
example :
    let g := Trace.run (Gate.step 0) (Gate.init 0)
      [.spawn 1, .spawn 2, .lock 1, .lock 2, .kill 2 true, .wakeup 2, .retry 2, .unlock 1, .retry 2]
    g.place 2 = .inside ∧ g.place 1 = .outside ∧ g.granted = [2] := by decide

end GaiaKernel.Vfs
