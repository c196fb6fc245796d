import Mathlib.Tactic.Common

/-! # Computations that may never return

A computation over a state returns a value and a state or does not return at all. `Returns` is its
total reading (it returns, and the postcondition holds), `Whenever` the partial one. The rules
follow the shape of a program.
-/
namespace GaiaKernel.Exec

universe u

variable {σ α β : Type u}

/-- A computation over a state; `none` is a run that never returns. -/
abbrev Comp (σ α : Type u) := StateT σ Option α

/-- The computation returns, and its result satisfies `Q`. -/
def Returns (m : Comp σ α) (s : σ) (Q : α → σ → Prop) : Prop :=
  ∃ a s', m s = some (a, s') ∧ Q a s'

/-- If the computation returns, its result satisfies `Q`. -/
def Whenever (m : Comp σ α) (s : σ) (Q : α → σ → Prop) : Prop :=
  ∀ a s', m s = some (a, s') → Q a s'

section
variable {m : Comp σ α} {f : α → Comp σ β} {s : σ} {Q Q' : α → σ → Prop} {R : β → σ → Prop}

@[simp] theorem returns_pure (a : α) : Returns (pure a) s Q ↔ Q a s := by
  constructor
  · rintro ⟨_,_,h,hq⟩
    cases h
    exact hq
  · exact fun hq => ⟨a,s,rfl,hq⟩

theorem bind_eq_some {b : β} {s' : σ} :
    (m >>= f) s = some (b, s') ↔ ∃ a s1, m s = some (a, s1) ∧ f a s1 = some (b, s') := by
  change (m s).bind (fun p => f p.1 p.2) = _ ↔ _
  rw [Option.bind_eq_some_iff]
  constructor
  · rintro ⟨⟨a,s1⟩,h1,h2⟩
    exact ⟨a,s1,h1,h2⟩
  · rintro ⟨a,s1,h1,h2⟩
    exact ⟨(a, s1),h1,h2⟩

@[simp] theorem returns_bind :
    Returns (m >>= f) s R ↔ Returns m s fun a s1 => Returns (f a) s1 R := by
  constructor
  · rintro ⟨b,s',h,hr⟩
    obtain ⟨a,s1,h1,h2⟩ := bind_eq_some.mp h
    exact ⟨a,s1,h1,b,s',h2,hr⟩
  · rintro ⟨a,s1,h1,b,s',h2,hr⟩
    exact ⟨b,s',bind_eq_some.mpr ⟨a,s1,h1,h2⟩,hr⟩

@[simp] theorem returns_get {Q : σ → σ → Prop} : Returns (get : Comp σ σ) s Q ↔ Q s s := by
  constructor
  · rintro ⟨_,_,h,hq⟩
    cases h
    exact hq
  · exact fun hq => ⟨_,_,rfl,hq⟩

@[simp] theorem returns_modify {g : σ → σ} {Q : PUnit → σ → Prop} :
    Returns (modify g : Comp σ PUnit) s Q ↔ Q ⟨⟩ (g s) := by
  constructor
  · rintro ⟨_,_,h,hq⟩
    cases h
    exact hq
  · exact fun hq => ⟨_,_,rfl,hq⟩

variable (h : Returns m s Q)
include h

theorem Returns.mono (himp : ∀ a s', Q a s' → Q' a s') : Returns m s Q' := by
  obtain ⟨a,s',h1,hq⟩ := h
  exact ⟨a,s',h1,himp a s' hq⟩

theorem Returns.and (h' : Whenever m s Q') : Returns m s fun a s' => Q a s' ∧ Q' a s' := by
  obtain ⟨a,s',h1,hq⟩ := h
  exact ⟨a,s',h1,hq,h' a s' h1⟩

theorem Returns.whenever : Whenever m s Q := by
  obtain ⟨a,s',h1,hq⟩ := h
  intro a' s'' h2
  cases h1.symm.trans h2
  exact hq

theorem Returns.inter (h' : Returns m s Q') : Returns m s fun a s' => Q a s' ∧ Q' a s' :=
  h.and h'.whenever

theorem Returns.exists (h' : Whenever m s Q') : ∃ a s', Q a s' ∧ Q' a s' := by
  obtain ⟨a,s',_,hq⟩ := h.and h'
  exact ⟨a,s',hq⟩

omit h

@[simp] theorem whenever_pure (a : α) : Whenever (pure a) s Q ↔ Q a s := by
  constructor
  · exact fun h => h a s rfl
  · rintro hq _ _ h
    cases h
    exact hq

@[simp] theorem whenever_bind :
    Whenever (m >>= f) s R ↔ Whenever m s fun a s1 => Whenever (f a) s1 R := by
  constructor
  · exact fun h a s1 h1 b s' h2 => h b s' (bind_eq_some.mpr ⟨a,s1,h1,h2⟩)
  · intro h b s' hb
    obtain ⟨a,s1,h1,h2⟩ := bind_eq_some.mp hb
    exact h a s1 h1 b s' h2

@[simp] theorem whenever_modify {g : σ → σ} {Q : PUnit → σ → Prop} :
    Whenever (modify g : Comp σ PUnit) s Q ↔ Q ⟨⟩ (g s) := by
  constructor
  · exact fun h => h _ _ rfl
  · rintro hq _ _ h
    cases h
    exact hq

@[simp] theorem whenever_get {Q : σ → σ → Prop} : Whenever (get : Comp σ σ) s Q ↔ Q s s := by
  constructor
  · exact fun h => h _ _ rfl
  · rintro hq _ _ h
    cases h
    exact hq

theorem Whenever.mono (h : Whenever m s Q) (himp : ∀ a s', Q a s' → Q' a s') : Whenever m s Q' :=
  fun a s' h1 => himp a s' (h a s' h1)

theorem whenever_not (h : ¬ Whenever m s Q) : Whenever m s fun a s' => ¬ Q a s' := by
  intro a s' h1 hq
  apply h
  intro a' s'' h2
  cases h1.symm.trans h2
  exact hq

theorem whenever_of_forall (h : ∀ a s', Q a s') : Whenever m s Q := fun a s' _ => h a s'

end

end GaiaKernel.Exec
