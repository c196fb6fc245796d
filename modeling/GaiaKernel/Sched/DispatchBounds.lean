import GaiaKernel.Sched.ReadyQueues

/-! # How long a ready task waits for its turn

Runs of `ready_push` and `ready_pop`. A window is a part of a run; the bounds say how many
dispatches of other levels it can hold while a level has a task queued. A dispatch from LOW ends the
burst of HIGH, so a NORMAL task that waits while `low_starve` comes to its floor waits for a second
burst.
-/
namespace GaiaKernel.Scheduler
open List Scheduler.Sched
open GaiaKernel.Sched (TaskState maxTasks taskSlots)
open LinkedQueue Function

inductive Turn where
  | push (i : Slot) (prio : ℤ)
  | pop

namespace Sched

def line (s : Sched) (p : Level) : List Slot := nodesFrom s.next maxTasks (s.ready p).head

def turn (s : Sched) : Turn → Sched
  | .push i prio => (s.modify i fun t => { t with prio := prio }).readyPush i
  | .pop => s.readyPop.2

def after (s : Sched) (turns : List Turn) : Sched := turns.foldl turn s

def picked (s : Sched) : Option (Level × Slot) :=
  s.chooseLevel.bind fun p => s.readyPop.1.map fun i => (p, i)

def dispatches (s : Sched) : List Turn → List (Option (Level × Slot))
  | [] => []
  | .push i prio :: turns => dispatches (s.turn (.push i prio)) turns
  | .pop :: turns => s.picked :: dispatches (s.turn .pop) turns

def Throughout (P : Sched → Prop) (s : Sched) : List Turn → Prop
  | [] => True
  | t :: turns => P s ∧ Throughout P (s.turn t) turns

def Valid (s : Sched) : List Turn → Prop
  | [] => True
  | .push i prio :: turns => (∀ p ∈ levels, i ∉ s.line p) ∧ Valid (s.turn (.push i prio)) turns
  | .pop :: turns => Valid (s.turn .pop) turns

instance decidableThroughout (P : Sched → Prop) [DecidablePred P] (s : Sched) :
    (turns : List Turn) → Decidable (s.Throughout P turns)
  | [] => isTrue trivial
  | t :: turns =>
    have := decidableThroughout P (s.turn t) turns
    inferInstanceAs (Decidable (_ ∧ _))

instance decidableValid (s : Sched) : (turns : List Turn) → Decidable (s.Valid turns)
  | [] => isTrue trivial
  | .push i prio :: turns =>
    have := decidableValid (s.turn (.push i prio)) turns
    inferInstanceAs (Decidable (_ ∧ _))
  | .pop :: turns => decidableValid (s.turn .pop) turns

end Sched

def pushed (p : Level) (turns : List Turn) : List Slot :=
  turns.filterMap fun
    | .push i prio => if levelOf prio = p then some i else none
    | .pop => none

def servedFrom (p : Level) (ds : List (Option (Level × Slot))) : List Slot :=
  ds.filterMap fun d => d.bind fun x => if x.1 = p then some x.2 else none

def highRow (ds : List (Option (Level × Slot))) : ℕ :=
  (ds.reverse.takeWhile fun d => d.map Prod.fst = some .high).length

def Serves (p : Level) (ds : List (Option (Level × Slot))) : Prop := ∃ i, some (p, i) ∈ ds

variable {s : Sched} {p : Level} {i : Slot} {turns : List Turn} {ds : List (Option (Level × Slot))}

/-! ### One dispatch -/

theorem Sched.line_ne_nil : s.line p ≠ [] ↔ (s.ready p).head.isSome := by
  unfold line
  cases (s.ready p).head with
  | none => exact iff_of_false (fun h => h rfl) (by simp)
  | some a => exact iff_of_true (cons_ne_nil a _) rfl

theorem Sched.chooseLevel_normal (h : s.line .normal ≠ []) :
    s.chooseLevel = some .normal ∨ s.chooseLevel = some .low ∧ schedLowFloor ≤ s.lowStarve ∨
      s.chooseLevel = some .high ∧ s.highStreak < schedHighBurst := by
  rw [line_ne_nil] at h
  unfold chooseLevel
  grind

theorem Sched.chooseLevel_low (h : s.line .low ≠ []) :
    ∃ p, s.chooseLevel = some p ∧ (p ≠ .low → s.lowStarve < schedLowFloor) := by
  rw [line_ne_nil] at h
  unfold chooseLevel
  dsimp only
  repeat' split
  all_goals exact ⟨_,rfl,by grind⟩

theorem Sched.turn_pop_none (h : s.chooseLevel = none) :
    s.picked = none ∧ s.turn .pop = { s with highStreak := 0 } := by
  rw [picked,h,turn,s.readyPop_none h]
  exact ⟨rfl,rfl⟩

theorem Sched.turn_pop (h : s.chooseLevel = some p) : ∃ i next q,
    pop s.next (s.ready p) = some (i, next, q) ∧ s.picked = some (p, i) ∧ s.turn .pop = { s with
        next := next
        ready := update s.ready p q
        highStreak := if p = .high then (s.highStreak + 1).bmod (2 ^ 32) else 0
        lowStarve := if p = .low then 0
          else if s.lowStarve < schedLowFloor then s.lowStarve + 1 else s.lowStarve } := by
  obtain ⟨i,next,q,hpop,heq⟩ := s.readyPop_some h
  refine ⟨i,next,q,hpop,?_,?_⟩
  · rw [picked,h,heq]
    rfl
  · rw [turn,heq]

theorem serves_cons {d : Level × Slot} : Serves p (some d :: ds) ↔ d.1 = p ∨ Serves p ds := by
  simp only [Serves,mem_cons,Option.some.injEq]
  constructor
  · rintro ⟨i,rfl | hi⟩
    · exact Or.inl rfl
    · exact Or.inr ⟨i,hi⟩
  · rintro (rfl | ⟨i,hi⟩)
    · exact ⟨d.2,Or.inl rfl⟩
    · exact ⟨i,Or.inr hi⟩

/-! ### Windows -/

def Sched.burst (s : Sched) : ℤ := max 0 (schedHighBurst - s.highStreak)

/-- Dispatches that a queued NORMAL task can still be passed over for: what is left of the burst,
and one of LOW with a new burst if the floor is reached by then. -/
def Sched.patience (s : Sched) : ℤ :=
  s.burst + if schedLowFloor ≤ s.lowStarve + s.burst then 1 + schedHighBurst else 0

theorem Sched.patience_low (h : s.chooseLevel = some .low) (hfloor : schedLowFloor ≤ s.lowStarve) :
    (s.turn .pop).highStreak = 0 ∧ (s.turn .pop).patience + 1 ≤ s.patience := by
  obtain ⟨i,next,q,-,-,heq⟩ := s.turn_pop h
  rw [heq]
  unfold patience burst schedHighBurst schedLowFloor at *
  refine ⟨rfl,?_⟩
  simp only [reduceCtorEq,if_false,if_true]
  split <;> split <;> omega

theorem Sched.patience_high (h : s.chooseLevel = some .high)
    (hburst : s.highStreak < schedHighBurst) (h0 : 0 ≤ s.highStreak) :
    0 ≤ (s.turn .pop).highStreak ∧ (s.turn .pop).patience + 1 ≤ s.patience ∧
      (s.turn .pop).burst + 1 = s.burst := by
  obtain ⟨i,next,q,-,-,heq⟩ := s.turn_pop h
  rw [heq]
  unfold patience burst schedHighBurst schedLowFloor at *
  have hwrap : (s.highStreak + 1).bmod (2 ^ 32) = s.highStreak + 1 :=
    Int.bmod_eq_of_le (by omega) (by omega)
  simp only [reduceCtorEq,if_false,if_true,hwrap]
  refine ⟨by omega,?_,by omega⟩
  split <;> split <;> split <;> omega

theorem window_normal (hq : s.Throughout (·.line .normal ≠ []) turns) (h0 : 0 ≤ s.highStreak)
    (hn : ¬ Serves .normal (s.dispatches turns)) : (s.dispatches turns).length ≤ s.patience ∧
      (¬ Serves .low (s.dispatches turns) → (s.dispatches turns).length ≤ s.burst) := by
  induction turns generalizing s with
  | nil =>
    have hburst : 0 ≤ s.burst := le_max_left 0 _
    exact ⟨add_nonneg hburst (Int.natCast_nonneg _),fun _ => hburst⟩
  | cons t turns ih =>
    obtain ⟨hline,hq⟩ := hq
    cases t with
    | push i prio => exact ih hq h0 hn
    | pop =>
      rcases s.chooseLevel_normal hline with h | ⟨h,hfloor⟩ | ⟨h,hburst⟩ <;>
        obtain ⟨i,next,q,-,hpicked,-⟩ := s.turn_pop h <;>
        rw [dispatches,hpicked,serves_cons,not_or] at hn <;>
        rw [dispatches,hpicked,length_cons,serves_cons]
      · exact absurd rfl hn.1
      · obtain ⟨hstreak,hless⟩ := s.patience_low h hfloor
        have hrest := (ih hq hstreak.ge hn.2).1
        exact ⟨by omega,fun hlow => absurd (Or.inl rfl) hlow⟩
      · obtain ⟨hpos,hless,hless'⟩ := s.patience_high h hburst h0
        obtain ⟨hrest,hrest'⟩ := ih hq hpos hn.2
        refine ⟨by omega,fun hlow => ?_⟩
        have hnone := hrest' fun hc => hlow (Or.inr hc)
        omega

theorem not_serves_low (hq : s.Throughout (·.line .low = []) turns) :
    ¬ Serves .low (s.dispatches turns) := by
  induction turns generalizing s with
  | nil => simp [Serves,dispatches]
  | cons t turns ih =>
    obtain ⟨hline,hq⟩ := hq
    cases t with
    | push i prio => exact ih hq
    | pop =>
      rw [dispatches]
      cases h : s.chooseLevel with
      | none =>
        rw [(s.turn_pop_none h).1]
        rintro ⟨i,hi⟩
        exact ih hq ⟨i,(mem_cons.mp hi).resolve_left (by simp)⟩
      | some p =>
        obtain ⟨i,next,q,hpop,hpicked,-⟩ := s.turn_pop h
        rw [hpicked,serves_cons,not_or]
        refine ⟨?_,ih hq⟩
        rintro rfl
        have hnone : (s.ready .low).head = none := by
          simpa using mt line_ne_nil.mpr (not_not.mpr hline)
        simp [LinkedQueue.pop,hnone] at hpop

theorem window_low (hq : s.Throughout (·.line .low ≠ []) turns)
    (hn : ¬ Serves .low (s.dispatches turns)) :
    (s.dispatches turns).length ≤ schedLowFloor - s.lowStarve := by
  induction turns generalizing s with
  | nil => exact Nat.zero_le _
  | cons t turns ih =>
    obtain ⟨hline,hq⟩ := hq
    cases t with
    | push i prio => exact ih hq hn
    | pop =>
      obtain ⟨p,h,hfloor⟩ := s.chooseLevel_low hline
      obtain ⟨i,next,q,-,hpicked,heq⟩ := s.turn_pop h
      rw [dispatches,hpicked,serves_cons,not_or] at hn
      have hlt := hfloor hn.1
      have hstarve : (s.turn .pop).lowStarve = s.lowStarve + 1 := by
        rw [heq]
        exact (if_neg hn.1).trans (if_pos hlt)
      have hrest := ih hq hn.2
      rw [dispatches,hpicked,length_cons]
      omega

/-! ### The counter -/

theorem Sched.dispatches_append (s : Sched) (before turns : List Turn) :
    s.dispatches (before ++ turns) = s.dispatches before ++ (s.after before).dispatches turns := by
  induction before generalizing s with
  | nil => rfl
  | cons t before ih =>
    cases t with
    | push i prio => exact ih _
    | pop => exact congrArg (s.picked :: ·) (ih _)

theorem highRow_concat (ds : List (Option (Level × Slot))) (d : Option (Level × Slot)) :
    highRow (ds ++ [d]) = if d.map Prod.fst = some .high then highRow ds + 1 else 0 := by
  unfold highRow
  split <;> simp_all

/-- `high_streak` counts the dispatches from HIGH in a row, up to the range of an `int`. -/
theorem highStreak_after (h0 : s.highStreak = 0) :
    (s.after turns).highStreak = (highRow (s.dispatches turns) : ℤ).bmod (2 ^ 32) := by
  induction turns using reverseRecOn with
  | nil =>
    rw [show highRow (s.dispatches []) = 0 from rfl,Nat.cast_zero,Int.zero_bmod]
    exact h0
  | append_singleton turns t ih =>
    rw [Sched.dispatches_append]
    unfold Sched.after at ih ⊢
    rw [foldl_concat]
    cases t with
    | push i prio =>
      rw [dispatches,dispatches,append_nil]
      exact ih
    | pop =>
      set s' := turns.foldl turn s
      show _ = (highRow (_ ++ [s'.picked]) : ℤ).bmod _
      rw [highRow_concat]
      cases h : s'.chooseLevel with
      | none =>
        obtain ⟨hpicked,heq⟩ := s'.turn_pop_none h
        rw [heq,hpicked,if_neg (by simp),Nat.cast_zero,Int.zero_bmod]
      | some p =>
        obtain ⟨i,next,q,-,hpicked,heq⟩ := s'.turn_pop h
        rw [heq,hpicked]
        dsimp only
        rw [ih]
        by_cases hp : p = .high
        · simp [hp]
        · simp [hp]

/-! ### The order within a level -/

variable {l : Level → List Slot}
section
variable (h : Lines s.next s.ready l)
include h

theorem line_eq (p : Level) : s.line p = l p := by
  refine (h.holds p).chain.nodesFrom ?_
  simpa using (h.holds p).nodup.length_le_card

theorem lines_push (hi : ∀ p, i ∉ l p) (prio : ℤ) :
    Lines (s.turn (.push i prio)).next (s.turn (.push i prio)).ready
      (update l (levelOf prio) (l (levelOf prio) ++ [i])) := by
  have hlevel : levelOf ((s.modify i fun t => { t with prio := prio }).tasks i).prio = levelOf prio := by
    simp [Sched.modify]
  unfold Sched.turn Sched.readyPush
  simp only [hlevel]
  exact h.push hi _

theorem served_in_order (hv : s.Valid turns) (p : Level) :
    l p ++ pushed p turns = servedFrom p (s.dispatches turns) ++ (s.after turns).line p := by
  induction turns generalizing s l with
  | nil =>
    rw [Sched.after,foldl_nil,line_eq h]
    simp [pushed,servedFrom,Sched.dispatches]
  | cons t turns ih =>
    cases t with
    | push i prio =>
      obtain ⟨hi,hv⟩ := hv
      have hnot : ∀ p, i ∉ l p := fun p => line_eq h p ▸ hi p (by cases p <;> decide)
      rw [dispatches]
      refine Eq.trans ?_ (ih (lines_push h hnot prio) hv)
      by_cases hp : levelOf prio = p
      · subst hp
        simp [pushed]
      · simp [hp,pushed,update_of_ne (Ne.symm hp)]
    | pop =>
      cases hp : s.chooseLevel with
      | none =>
        obtain ⟨hpicked,heq⟩ := s.turn_pop_none hp
        rw [dispatches,hpicked]
        exact ih (by rw [heq]; exact h) hv
      | some q =>
        obtain ⟨i,next,queue,hpop,hpicked,heq⟩ := s.turn_pop hp
        obtain ⟨-,hl,hlines⟩ := h.pop hpop
        have hrest := ih (l := update l q ((l q).erase i)) (by rw [heq]; exact hlines) hv
        rw [dispatches,hpicked,servedFrom,filterMap_cons]
        rw [update_apply] at hrest
        split_ifs at hrest with hpq
        · subst hpq
          rw [hl]
          simpa [pushed,servedFrom,Sched.after] using hrest
        · simpa [Ne.symm hpq,pushed,servedFrom,Sched.after] using hrest

end

theorem lines_schedInit : Lines schedInit.next schedInit.ready fun _ => [] := by
  refine ⟨fun p => ?_,fun h => absurd h not_mem_nil⟩
  rw [show schedInit.ready p = ⟨none,none⟩ by cases p <;> rfl]
  exact ⟨rfl,nodup_nil,rfl⟩

/-! ### The bounds -/

theorem dispatch_bounds (before window : List Turn) (hvalid : schedInit.Valid (before ++ window)) :
    (∀ p, pushed p (before ++ window) =
      servedFrom p (schedInit.dispatches (before ++ window)) ++
        (schedInit.after (before ++ window)).line p) ∧
    ((schedInit.after before).Throughout (·.line .low ≠ []) window →
      schedLowFloor + 1 ≤ ((schedInit.after before).dispatches window).length →
        Serves .low ((schedInit.after before).dispatches window)) ∧
    (highRow (schedInit.dispatches before) < 2 ^ 31 →
      (schedInit.after before).Throughout (·.line .normal ≠ []) window →
        (schedHighBurst + 1 ≤ ((schedInit.after before).dispatches window).length →
          ¬ Serves .low ((schedInit.after before).dispatches window) →
            Serves .normal ((schedInit.after before).dispatches window)) ∧
        (schedHighBurst + 1 ≤ ((schedInit.after before).dispatches window).length →
          (schedInit.after before).lowStarve + schedHighBurst < schedLowFloor ∨
              (schedInit.after before).Throughout (·.line .low = []) window →
            Serves .normal ((schedInit.after before).dispatches window)) ∧
        (2 * (schedHighBurst + 1) ≤ ((schedInit.after before).dispatches window).length →
          Serves .normal ((schedInit.after before).dispatches window))) := by
  refine ⟨fun p => ?_,fun hq hlen => ?_,fun hrow hq => ?_⟩
  · exact served_in_order lines_schedInit hvalid p
  · by_contra hn
    have := window_low hq hn
    omega
  · have hstreak : (schedInit.after before).highStreak = _ := highStreak_after rfl
    rw [Int.bmod_eq_of_le (by omega) (by omega)] at hstreak
    have h0 : 0 ≤ (schedInit.after before).highStreak := hstreak ▸ Int.natCast_nonneg _
    have hburst : (schedInit.after before).burst ≤ 4 := by
      unfold burst schedHighBurst
      omega
    have hpatience : (schedInit.after before).patience ≤ (schedInit.after before).burst + 5 := by
      unfold patience schedHighBurst
      split <;> omega
    unfold schedHighBurst
    refine ⟨fun hlen hlow => ?_,fun hlen hcalm => ?_,fun hlen => ?_⟩ <;> by_contra hn
    · have := (window_normal hq h0 hn).2 hlow
      omega
    · rcases hcalm with hcalm | hnone
      · have := (window_normal hq h0 hn).1
        unfold patience at this
        rw [if_neg (by omega)] at this
        omega
      · have := (window_normal hq h0 hn).2 (not_serves_low hnone)
        omega
    · have := (window_normal hq h0 hn).1
      omega

def high : Turn := .push ⟨2,by decide⟩ Level.high.prio
def normal : Turn := .push ⟨3,by decide⟩ Level.normal.prio
def low : Turn := .push ⟨4,by decide⟩ Level.low.prio

/-- HIGH is never empty: LOW waits for the floor, NORMAL for the end of the burst. -/
theorem dispatch_bounds_rounds :
    Serves .low ((schedInit.after [low]).dispatches (replicate 65 [high, .pop]).flatten) ∧
      Serves .normal ((schedInit.after [low, normal]).dispatches (replicate 5 [high, .pop]).flatten) :=
  ⟨(dispatch_bounds [low] (replicate 65 [high, .pop]).flatten (by decide +kernel)).2.1
      (by decide +kernel) (by decide +kernel),
    ((dispatch_bounds [low, normal] (replicate 5 [high, .pop]).flatten (by decide +kernel)).2.2
      (by decide +kernel) (by decide +kernel)).2.1 (by decide +kernel) (.inl (by decide +kernel))⟩

/-- HIGH has had 64 turns when a NORMAL and a LOW task are queued as well. -/
def busy : List Turn := (replicate 64 [high, .pop]).flatten ++ [normal, low, high]
def burst : List Turn := [.pop, .pop, high, .pop, high, .pop, high, .pop]

/-- The floor gives LOW a turn, and with it HIGH gets a new burst. -/
theorem normal_passed_over :
    schedInit.Valid (busy ++ burst) ∧
      (schedInit.after busy).Throughout (·.line .normal ≠ []) burst ∧
      ((schedInit.after busy).dispatches burst).map (Option.map Prod.fst) =
        [some .low, some .high, some .high, some .high, some .high] := by
  decide +kernel

end GaiaKernel.Scheduler
