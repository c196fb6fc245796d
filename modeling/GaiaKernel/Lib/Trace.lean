import Mathlib.Data.Fintype.Basic

/-! # Traces of a deterministic transition system

A trace is a list of operations run from a state. `Admissible` says that every operation meets a
condition in the state it is run in; `Admissible.invariant` is the induction rule.
-/
namespace GaiaKernel.Trace
open Function
variable {σ ι : Type*}

/-- State reached by running the operations in order. -/
def run (step : σ → ι → σ) (s : σ) (ops : List ι) : σ := ops.foldl step s

@[simp] theorem run_nil (step : σ → ι → σ) (s : σ) : run step s [] = s := rfl
@[simp] theorem run_cons (step : σ → ι → σ) (s : σ) (op : ι) (ops : List ι) :
    run step s (op :: ops) = run step (step s op) ops := rfl

/-- Every operation of the trace meets `G` in the state it is run in. -/
def Admissible (step : σ → ι → σ) (G : σ → ι → Prop) : σ → List ι → Prop
  | _, [] => True
  | s, op :: ops => G s op ∧ Admissible step G (step s op) ops

variable {step : σ → ι → σ} {G : σ → ι → Prop} {I P : σ → Prop} {s : σ} {ops : List ι}

/-- An invariant kept by every admissible operation holds wherever a trace leads. -/
theorem Admissible.invariant (hstep : ∀ s op, I s → G s op → I (step s op)) (hs : I s)
    (h : Admissible step G s ops) : I (run step s ops) := by
  induction ops generalizing s with
  | nil => exact hs
  | cons op ops ih => exact ih (hstep s op hs h.1) h.2

theorem invariant_run (hstep : ∀ s op, I s → I (step s op)) (hs : I s) (ops : List ι) :
    I (run step s ops) := by
  induction ops generalizing s with
  | nil => exact hs
  | cons op ops ih => exact ih (hstep s op hs)

/-- The property holds in every state a trace passes through, its first and last included. -/
def Always (step : σ → ι → σ) (P : σ → Prop) : σ → List ι → Prop
  | s, [] => P s
  | s, op :: ops => P s ∧ Always step P (step s op) ops

theorem Always.head (h : Always step P s ops) : P s := by
  cases ops with
  | nil => exact h
  | cons => exact h.1

/-- A property implied by an invariant of admissible operations holds all along the trace. -/
theorem Admissible.always (h : Admissible step G s ops)
    (hstep : ∀ s op, I s → G s op → I (step s op)) (hP : ∀ s, I s → P s) (hs : I s) :
    Always step P s ops := by
  induction ops generalizing s with
  | nil => exact hP s hs
  | cons op ops ih => exact ⟨hP s hs,ih h.2 (hstep s op hs h.1)⟩

/-- A property implied by an invariant of every operation holds along every trace. -/
theorem always_of_invariant (hstep : ∀ s op, I s → I (step s op)) (hP : ∀ s, I s → P s)
    (hs : I s) (ops : List ι) : Always step P s ops := by
  induction ops generalizing s with
  | nil => exact hP s hs
  | cons op ops ih => exact ⟨hP s hs,ih (hstep s op hs)⟩

/-- When admissible operations keep an invariant that implies `P`, and an inadmissible one breaks
`P` at once, `P` always holds exactly along the admissible traces. -/
theorem always_iff_admissible (hstep : ∀ s op, I s → G s op → I (step s op)) (hP : ∀ s, I s → P s)
    (hbreak : ∀ s op, I s → ¬ G s op → ¬ P (step s op)) (hs : I s) (ops : List ι) :
    Always step P s ops ↔ Admissible step G s ops := by
  induction ops generalizing s with
  | nil => exact ⟨fun _ => trivial,fun _ => hP s hs⟩
  | cons op ops ih =>
    constructor
    · rintro ⟨_,hrest⟩
      have hG : G s op := by
        by_contra hG
        exact hbreak s op hs hG hrest.head
      exact ⟨hG,(ih (hstep s op hs hG)).mp hrest⟩
    · rintro ⟨hG,hrest⟩
      exact ⟨hP s hs,(ih (hstep s op hs hG)).mpr hrest⟩

/-- Two conditions that agree on an operation wherever an invariant holds agree on traces, when
the operations that meet them keep the invariant. -/
theorem admissible_congr {P : σ → ι → Prop}
    (hiff : ∀ s op, I s → (P s op ↔ G s op)) (hstep : ∀ s op, I s → G s op → I (step s op))
    (hs : I s) (ops : List ι) : Admissible step P s ops ↔ Admissible step G s ops := by
  induction ops generalizing s with
  | nil => exact Iff.rfl
  | cons op ops ih =>
    constructor
    · rintro ⟨hP,hrest⟩
      have hG := (hiff s op hs).mp hP
      exact ⟨hG,(ih (hstep s op hs hG)).mp hrest⟩
    · rintro ⟨hG,hrest⟩
      exact ⟨(hiff s op hs).mpr hG,(ih (hstep s op hs hG)).mpr hrest⟩

/-- A loop that visits a list: what the visit of `a` establishes about `a`, and no later
visit destroys, holds of every visited element at the end. -/
theorem foldl_establishes {α β : Type*} {f : β → α → β} {I : β → Prop} {Q : β → α → Prop}
    (hinv : ∀ b a, I b → I (f b a)) (hset : ∀ b a, I b → Q (f b a) a)
    (hkeep : ∀ b a j, I b → Q b j → Q (f b a) j) {b : β} (hb : I b) (l : List α) :
    ∀ j, (Q b j ∨ j ∈ l) → Q (l.foldl f b) j := by
  induction l generalizing b with
  | nil => simp
  | cons a l ih =>
    intro j hj
    refine ih (hinv b a hb) j ?_
    rcases hj with hj | hj
    · exact Or.inl (hkeep b a j hb hj)
    · rcases List.mem_cons.mp hj with rfl | hj
      · exact Or.inl (hset b j hb)
      · exact Or.inr hj

/-- A loop that visits every slot of a table once and rewrites it by `f`. -/
theorem foldl_update {α β : Type*} [DecidableEq α] {f : β → β} {step : (α → β) → α → α → β}
    {l : List α} (hl : l.Nodup) {b : α → β}
    (hstep : ∀ c, ∀ x ∈ l, c x = b x → step c x = update c x (f (b x))) (x : α) :
    l.foldl step b x = if x ∈ l then f (b x) else b x := by
  induction l generalizing b with
  | nil => rfl
  | cons y l ih =>
    obtain ⟨hy,hl⟩ := List.nodup_cons.mp hl
    have hother : ∀ z ∈ l, update b y (f (b y)) z = b z := by
      intro z hz
      refine update_of_ne ?_ _ _
      rintro rfl
      exact hy hz
    rw [List.foldl_cons,hstep b y (List.mem_cons_self ..) rfl,ih hl fun c z hz hcz => ?_]
    · by_cases hx : x ∈ l
      · rw [if_pos hx,if_pos (List.mem_cons_of_mem y hx),hother x hx]
      · by_cases hxy : x = y
        · subst hxy
          rw [if_neg hx,if_pos (List.mem_cons_self ..),update_self]
        · rw [if_neg hx,if_neg (by simp [hx,hxy]),update_of_ne hxy]
    · rw [hother z hz] at hcz ⊢
      exact hstep c z (List.mem_cons_of_mem y hz) hcz

end GaiaKernel.Trace
