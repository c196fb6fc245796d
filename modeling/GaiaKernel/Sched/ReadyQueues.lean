import GaiaKernel.Lib.Counting
import GaiaKernel.Sched.Effects

/-! # Ready queues and the counters

`Placed off s` says where every task stands in the queues and counters of `s`, but for those of
`off`, which are in hand: taken off their queue or about to be put on one. The scheduler takes tasks
in hand, changes them and puts them back, and one lemma per primitive says how `Placed` follows.
-/
namespace GaiaKernel.Scheduler
open Finset
open GaiaKernel.Sched (TaskState maxTasks taskSlots)
open LinkedQueue Function

def asleep (off : Finset Slot) (s : Sched) : Finset Slot :=
  Finset.univ.filter fun i => i ∉ off ∧ (s.tasks i).state = .sleeping

def timed (s : Sched) : Finset Slot := Finset.univ.filter fun i => (s.tasks i).blockDeadline ≠ 0
def Queued (s : Sched) (i : Slot) : Prop := (s.tasks i).state = .ready ∧ s.idleTask ≠ some i

/-- The queues hold the lists `l` of the queued tasks that are not in hand, each on the level of its
priority; the counters count. A slot that is free is as good as zeroed. -/
structure Lists (off : Finset Slot) (l : Level → List Slot) (s : Sched) : Prop where
  holds : ∀ p, Holds s.next (s.ready p) (l p)
  mem : ∀ p i, i ∈ l p ↔ i ∉ off ∧ Queued s i ∧ levelOf (s.tasks i).prio = p
  sleeping : s.nSleeping = (asleep off s).card
  timed : s.nTimedBlocked = (timed s).card
  deadline : ∀ i ∉ off, (s.tasks i).blockDeadline ≠ 0 → (s.tasks i).state = .blocked
  prio : ∀ i, Level.low.prio ≤ (s.tasks i).prio ∧ (s.tasks i).prio ≤ Level.high.prio
  free : ∀ i ∉ off, (s.tasks i).pid = 0 → ∃ q, s.tasks i = { Task.empty with prio := q }

def Placed (off : Finset Slot) (s : Sched) : Prop := ∃ l, Lists off l s

/-- There is an idle task; it is a kernel thread and always ready or running. -/
def IdleReady (s : Sched) : Prop :=
  ∃ j, s.idleTask = some j ∧ (s.tasks j).pid ≠ 0 ∧ (s.tasks j).vm = 0 ∧
    ((s.tasks j).state = .ready ∨ (s.tasks j).state = .running)

/-- The queues and counters are in order but for the tasks in hand, and there is an idle task. -/
structure Core (off : Finset Slot) (s : Sched) : Prop where
  placed : Placed off s
  idle : IdleReady s
  pid : 0 < s.nextPid

section
variable {off off' : Finset Slot} {s s' : Sched} {i j : Slot} {t : Task}

/-! ### A change of one task

`post` and `nap` are what the task `t` in slot `i` adds to the queues and to the sleepers. -/

def post (off : Finset Slot) (idle : Option Slot) (i : Slot) (t : Task) : Option Level :=
  if i ∉ off ∧ t.state = .ready ∧ idle ≠ some i then some (levelOf t.prio) else none

def nap (off : Finset Slot) (i : Slot) (t : Task) : ℤ :=
  if i ∉ off ∧ t.state = .sleeping then 1 else 0

structure Fits (off : Finset Slot) (idle : Option Slot) (i : Slot) (t : Task) : Prop where
  deadline : i ∉ off → t.blockDeadline ≠ 0 → t.state = .blocked
  prio : Level.low.prio ≤ t.prio ∧ t.prio ≤ Level.high.prio
  free : i ∉ off → t.pid = 0 → ∃ q, t = { Task.empty with prio := q }
  idle : idle = some i → t.pid ≠ 0 ∧ t.vm = 0 ∧ (t.state = .ready ∨ t.state = .running)

theorem Core.fits (h : Core off s) (i : Slot) : Fits off s.idleTask i (s.tasks i) := by
  obtain ⟨⟨l,hl⟩,⟨j,hj,hidle⟩,_⟩ := h
  refine ⟨hl.deadline i,hl.prio i,hl.free i,fun hi => ?_⟩
  obtain rfl : j = i := Option.some.inj (hj.symm.trans hi)
  exact hidle

theorem Core.state_of_pid (h : Core off s) (hi : i ∉ off) (hpid : (s.tasks i).pid = 0) :
    (s.tasks i).state = .running := by
  obtain ⟨q,hq⟩ := (h.fits i).free hi hpid
  rw [hq]
  rfl

theorem Core.deadline (h : Core off s) (hi : i ∉ off) (hb : (s.tasks i).state ≠ .blocked) :
    (s.tasks i).blockDeadline = 0 := by
  by_contra hd
  exact hb ((h.fits i).deadline hi hd)

variable {l : Level → List Slot}

theorem Lists.mem_iff (h : Lists off l s) (p : Level) (i : Slot) :
    i ∈ l p ↔ post off s.idleTask i (s.tasks i) = some p := by
  rw [h.mem,post,Queued]
  simp [and_assoc]

/-- A call that changes one slot, and takes it in hand or lets go of it, keeps all in order if
the slot is queued as before, the counters follow, and the new task fits. -/
theorem Core.move (h : Core off s) (ht : s'.tasks = update s.tasks i t)
    (hoff : ∀ j ≠ i, (j ∈ off' ↔ j ∈ off))
    (hsame : s'.next = s.next ∧ s'.ready = s.ready ∧ s'.idleTask = s.idleTask ∧
      s.nextPid ≤ s'.nextPid) (hpost : post off' s.idleTask i t = post off s.idleTask i (s.tasks i))
    (hnap : s'.nSleeping = s.nSleeping + nap off' i t - nap off i (s.tasks i))
    (hdue : s'.nTimedBlocked = s.nTimedBlocked + due t - due (s.tasks i))
    (hfits : Fits off' s.idleTask i t) : Core off' s' := by
  obtain ⟨hnext,hready,hidle,hpid⟩ := hsame
  have hself : s'.tasks i = t := by rw [ht,update_self]
  have hother : ∀ j ≠ i, s'.tasks j = s.tasks j := fun j hj => by rw [ht,update_of_ne hj]
  have hall : ∀ j, Fits off' s'.idleTask j (s'.tasks j) ∧
      post off' s'.idleTask j (s'.tasks j) = post off s.idleTask j (s.tasks j) := by
    intro j
    rw [hidle]
    by_cases hj : j = i
    · subst hj
      rw [hself]
      exact ⟨hfits,hpost⟩
    · obtain ⟨hd,hp,hf,hi⟩ := h.fits j
      have hout : j ∉ off' → j ∉ off := mt (hoff j hj).mpr
      rw [hother j hj]
      exact ⟨⟨hd ∘ hout,hp,hf ∘ hout,hi⟩,by simp only [post,hoff j hj]⟩
  obtain ⟨⟨l,hl⟩,⟨k,hk,_⟩,hpos⟩ := h
  refine ⟨⟨l,by rw [hnext,hready]; exact hl.holds,fun p j => ?_,?_,?_,
    fun j => (hall j).1.deadline,fun j => (hall j).1.prio,fun j => (hall j).1.free⟩,
    ⟨k,hidle.trans hk,(hall k).1.idle (hidle.trans hk)⟩,hpos.trans_le hpid⟩
  · rw [hl.mem_iff,← (hall j).2,post,Queued]
    simp [and_assoc]
  · have hcard := Counting.card_change (p := fun j => j ∉ off ∧ (s.tasks j).state = .sleeping)
      (q := fun j => j ∉ off' ∧ (s'.tasks j).state = .sleeping) i fun j hj => by
        rw [hother j hj,hoff j hj]
    rw [hself] at hcard
    rw [hnap,hl.sleeping]
    exact hcard.symm
  · have hcard := Counting.card_change (p := fun j => (s.tasks j).blockDeadline ≠ 0)
      (q := fun j => (s'.tasks j).blockDeadline ≠ 0) i fun j hj => by rw [hother j hj]
    rw [hself] at hcard
    rw [hdue,hl.timed]
    exact hcard.symm

/-- All that is asked of the scheduler's state is asked of these fields. -/
def Sched.view (s : Sched) :=
  (s.tasks, s.next, s.ready, s.idleTask, s.nSleeping, s.nTimedBlocked, s.nextPid)

structure SameDuty (t t' : Task) : Prop where
  state : t'.state = t.state
  prio : t'.prio = t.prio
  blockDeadline : t'.blockDeadline = t.blockDeadline
  pid : t'.pid = t.pid
  vm : t.vm = 0 → t'.vm = 0

namespace Core

theorem of_view (h : Core off s) (hview : s'.view = s.view) : Core off s' := by
  cases s'
  obtain ⟨rfl,rfl,rfl,rfl,rfl,rfl,rfl⟩ := hview
  obtain ⟨⟨l,h⟩,hidle,hpid⟩ := h
  exact ⟨⟨l,h.holds,h.mem,h.sleeping,h.timed,h.deadline,h.prio,h.free⟩,hidle,hpid⟩

theorem hold (h : Core off s) (hq : ¬ Queued s i) (hs : (s.tasks i).state ≠ .sleeping) :
    Core (insert i off) s := by
  have hfits := h.fits i
  refine h.move (update_eq_self i s.tasks).symm (by simp +contextual) ⟨rfl,rfl,rfl,le_rfl⟩ ?_ ?_
    (by simp) ⟨by simp,hfits.prio,by simp,hfits.idle⟩
  · rw [Queued] at hq
    simp [post,hq]
  · simp [nap,hs]

theorem modify_same (h : Core off s) (hpid : (s.tasks i).pid ≠ 0) {f : Task → Task}
    (hf : SameDuty (s.tasks i) (f (s.tasks i))) : Core off (s.modify i f) := by
  obtain ⟨hstate,hprio,hdeadline,hsame,hvm⟩ := hf
  have hfits := h.fits i
  refine h.move rfl (fun _ _ => Iff.rfl) ⟨rfl,rfl,rfl,le_rfl⟩ ?_ ?_ ?_ ⟨?_,?_,fun _ h0 => ?_,fun hi => ?_⟩
  · simp only [post,hstate,hprio]
  · simp [nap,hstate,Sched.modify]
  · simp [due,hdeadline,Sched.modify]
  · rw [hdeadline,hstate]
    exact hfits.deadline
  · rw [hprio]
    exact hfits.prio
  · exact absurd (hsame.symm.trans h0) hpid
  · rw [hsame,hstate]
    exact ⟨hpid,hvm (hfits.idle hi).2.1,(hfits.idle hi).2.2⟩

end Core

theorem asleep_of_not_sleeping (h : (s.tasks i).state ≠ .sleeping) :
    asleep (insert i off) s = asleep off s := by
  ext j
  simp only [asleep,mem_filter,mem_univ,true_and,mem_insert,not_or]
  refine ⟨fun hj => ⟨hj.1.2,hj.2⟩,fun hj => ⟨⟨?_,hj.1⟩,hj.2⟩⟩
  rintro rfl
  exact h hj.2

/-! ### The queues -/

theorem Lists.lines (h : Lists off l s) : Lines s.next s.ready l :=
  ⟨h.holds,fun hp hq => ((h.mem _ _).mp hp).2.2.symm.trans ((h.mem _ _).mp hq).2.2⟩

theorem Core.readyPush (h : Core (insert i off) s) (hi : i ∉ off) (hq : Queued s i)
    (hd : (s.tasks i).blockDeadline = 0) (hpid : (s.tasks i).pid ≠ 0) :
    Core off (s.readyPush i) := by
  obtain ⟨⟨l,h⟩,hidle,hnext⟩ := h
  set p := levelOf (s.tasks i).prio with hp
  have hnot : ∀ q, i ∉ l q := fun q hmem => ((h.mem q i).mp hmem).1 (mem_insert_self i off)
  refine ⟨⟨update l p (l p ++ [i]),fun q => ?_,fun q j => ?_,?_,h.timed,
    fun j hj hjd => ?_,h.prio,fun j hj hjp => ?_⟩,hidle,hnext⟩
  · exact (h.lines.push hnot p).holds q
  · show j ∈ update l p (l p ++ [i]) q ↔ j ∉ off ∧ Queued s j ∧ levelOf (s.tasks j).prio = q
    by_cases hji : j = i
    · subst hji
      by_cases hqp : q = p
      · subst hqp
        simp [hi,hq,← hp]
      · rw [update_of_ne hqp]
        exact ⟨fun hj => absurd hj (hnot q),fun hj => absurd hj.2.2.symm hqp⟩
    · have hmem : j ∈ update l p (l p ++ [i]) q ↔ j ∈ l q := by
        by_cases hqp : q = p
        · subst hqp
          simp [hji]
        · rw [update_of_ne hqp]
      rw [hmem,h.mem,mem_insert,not_or]
      simp [hji]
  · rw [show asleep off (s.readyPush i) = asleep (insert i off) s from
      (asleep_of_not_sleeping (s := s) (by rw [hq.1]; decide)).symm]
    exact h.sleeping
  · by_cases hji : j = i
    · subst hji
      exact absurd hd hjd
    · exact h.deadline j (by simp [hji,hj]) hjd
  · by_cases hji : j = i
    · subst hji
      exact absurd hjp hpid
    · exact h.free j (by simp [hji,hj]) hjp

theorem Lists.unlink (h : Lists off l s) {p : Level} (hi : i ∈ l p)
    {next : Slot → Option Slot} {ready : Level → Queue Slot}
    (hlines : Lines next ready (update l p ((l p).erase i))) :
    Lists (insert i off) (update l p ((l p).erase i)) { s with next := next, ready := ready } := by
  obtain ⟨-,hqueued,-⟩ := (h.mem p i).mp hi
  refine ⟨hlines.holds,fun r j => ?_,?_,h.timed,fun j hj => ?_,h.prio,fun j hj => ?_⟩
  · show j ∈ update l p ((l p).erase i) r ↔
      j ∉ insert i off ∧ Queued s j ∧ levelOf (s.tasks j).prio = r
    rw [mem_insert,not_or]
    by_cases hji : j = i
    · subst hji
      refine iff_of_false (fun hj => ?_) (fun hj => hj.1.1 rfl)
      rw [update_apply] at hj
      split_ifs at hj with hr
      · subst hr
        exact (h.holds r).nodup.not_mem_erase hj
      · exact hr (h.lines.apart hj hi)
    · have hmem : j ∈ update l p ((l p).erase i) r ↔ j ∈ l r := by
        by_cases hr : r = p
        · subst hr
          rw [update_self,List.mem_erase_of_ne hji]
        · rw [update_of_ne hr]
      rw [hmem,h.mem]
      simp [hji]
  · refine h.sleeping.trans ?_
    have hawake : (s.tasks i).state ≠ .sleeping := by rw [hqueued.1]; decide
    rw [← asleep_of_not_sleeping hawake]
    rfl
  · exact h.deadline j fun hj' => hj (mem_insert_of_mem hj')
  · exact h.free j fun hj' => hj (mem_insert_of_mem hj')

theorem Core.readyRemove (h : Core off s) (hi : i ∉ off) (hq : Queued s i) :
    ∃ s', s.readyRemove i = some s' ∧ Core (insert i off) s' := by
  obtain ⟨⟨l,h⟩,hidle,hnext⟩ := h
  have hmem : ∀ p, i ∈ l p ↔ levelOf (s.tasks i).prio = p := by
    intro p
    rw [h.mem]
    simp [hi,hq]
  set p := levelOf (s.tasks i).prio
  have hlen : (l p).length ≤ maxTasks := by
    have hcard := Fintype.card_fin maxTasks
    exact hcard ▸ (h.holds p).nodup.length_le_card
  obtain ⟨r,hr,hh,hframe⟩ := (h.holds p).remove_mem ((hmem p).mpr rfl) hlen
  have hother : ∀ q ≠ p, remove s.next (s.ready q) maxTasks i = none := by
    intro q hqp
    exact (h.holds q).remove_not_mem (fun hin => hqp ((hmem q).mp hin).symm) _
  refine ⟨{ s with next := r.1, ready := update s.ready p r.2 },?_,
    ⟨_,h.unlink ((hmem p).mpr rfl) (h.lines.replace hh (fun _ => List.mem_of_mem_erase) hframe)⟩,hidle,hnext⟩
  unfold Sched.readyRemove levels
  cases hp : p
  case low => rw [hp] at hr; simp [hr]
  case normal =>
    rw [hp] at hr hother
    simp [hr,hother .low (by decide)]
  case high =>
    rw [hp] at hr hother
    simp [hr,hother .low (by decide),hother .normal (by decide)]

theorem Core.readyRemove_none (h : Core off s) (hi : ¬ Queued s i) : s.readyRemove i = none := by
  obtain ⟨⟨l,h⟩,_,_⟩ := h
  refine List.findSome?_eq_none_iff.mpr fun p _ => ?_
  rw [(h.holds p).remove_not_mem fun hmem => ?_]
  · rfl
  · exact hi ((h.mem p i).mp hmem).2.1

theorem Sched.readyPop_none (h : s.chooseLevel = none) :
    s.readyPop = (s.idleTask.filter fun i => s.current ≠ i, { s with highStreak := 0 }) := by
  rw [Sched.readyPop,h]

theorem Sched.readyPop_some {p : Level} (h : s.chooseLevel = some p) : ∃ i next q,
    pop s.next (s.ready p) = some (i, next, q) ∧ s.readyPop = (some i, { s with
        next := next
        ready := update s.ready p q
        highStreak := if p = .high then (s.highStreak + 1).bmod (2 ^ 32) else 0
        lowStarve := if p = .low then 0
          else if s.lowStarve < schedLowFloor then s.lowStarve + 1 else s.lowStarve }) := by
  have hhead : (s.ready p).head.isSome := by
    unfold Sched.chooseLevel at h
    grind
  obtain ⟨i,hi⟩ := Option.isSome_iff_exists.mp hhead
  refine ⟨i,_,_,by rw [pop,hi]; rfl,?_⟩
  rw [Sched.readyPop,h]
  simp only [pop,hi,Option.map_some]

/-- The task `ready_pop` hands out is in hand, and it is not the caller. Only the idle task may
get nothing. -/
theorem Core.readyPop (h : Core off s) (hoff : ∀ j ∈ off, s.idleTask ≠ some j)
    (hcur : (s.tasks s.current).state ≠ .ready) :
    (∃ n s1, s.readyPop = (some n, s1) ∧ Core (insert n off) s1 ∧ Requeued s s1 ∧ n ∉ off ∧
        n ≠ s.current ∧ (s.tasks n).pid ≠ 0 ∧ (s.tasks n).blockDeadline = 0) ∨
      (s.idleTask = some s.current ∧ ∃ s1, s.readyPop = (none, s1) ∧ Core off s1 ∧
        Requeued s s1) := by
  have hreq := s.requeued_readyPop
  cases hc : s.chooseLevel with
  | none =>
    have heq := s.readyPop_none hc
    rw [heq] at hreq
    have hcore : Core off { s with highStreak := 0 } := h.of_view rfl
    obtain ⟨j,hj,hpid,_,hstate⟩ := h.idle
    rw [heq]
    by_cases hj' : s.current = j
    · exact .inr ⟨by rw [hj,hj'],_,by rw [hj]; simp [hj'],hcore,hreq⟩
    · have hjoff : j ∉ off := fun hmem => hoff j hmem hj
      have hawake : (s.tasks j).state ≠ .sleeping ∧ (s.tasks j).state ≠ .blocked := by
        rcases hstate with hs | hs <;> rw [hs] <;> decide
      exact .inl ⟨j,_,by rw [hj]; simp [hj'],hcore.hold (fun hq => hq.2 hj) hawake.1,hreq,hjoff,
        Ne.symm hj',hpid,h.deadline hjoff hawake.2⟩
  | some p =>
    obtain ⟨⟨l,hl⟩,hidle,hnext⟩ := id h
    obtain ⟨i,next,q,hpop,heq⟩ := s.readyPop_some hc
    obtain ⟨hmem,-,hlines⟩ := hl.lines.pop hpop
    obtain ⟨hi,hq,-⟩ := (hl.mem p i).mp hmem
    have hcore : Core (insert i off) { s with next := next, ready := update s.ready p q } :=
      ⟨⟨_,hl.unlink hmem hlines⟩,hidle,hnext⟩
    rw [heq] at hreq ⊢
    refine .inl ⟨i,_,rfl,hcore.of_view rfl,hreq,hi,?_,fun h0 => ?_,
      h.deadline hi (by rw [hq.1]; decide)⟩
    · rintro rfl
      exact hcur hq.1
    · exact absurd (hq.1.symm.trans (h.state_of_pid hi h0)) (by decide)

end

end GaiaKernel.Scheduler
