import Mathlib.Tactic.Common

/-! # Programs that can stop

A program over a state returns a value or stops with an error. A `Contract` names an invariant of
the states and the errors that are allowed for; `Contract.Ok` says that a program keeps the
invariant and meets its postcondition.
-/
namespace GaiaKernel.Fallible
open List Except

/-- A program: its result and the state it leaves. -/
def Prog (σ ε α : Type) := σ → Except ε α × σ

namespace Prog
variable {σ ε α β : Type}

instance : Monad (Prog σ ε) where
  pure a := fun s => (.ok a, s)
  bind p f := fun s =>
    match p s with
    | (.ok a, s₁) => f a s₁
    | (.error e, s₁) => (.error e, s₁)

def look : Prog σ ε σ := fun s => (.ok s, s)
def change (f : σ → σ) : Prog σ ε Unit := fun s => (.ok (), f s)
def stop (e : ε) : Prog σ ε α := fun s => (.error e, s)

def onlyIf (c : Prop) [Decidable c] (p : Prog σ ε Unit) : Prog σ ε Unit :=
  if c then p else pure ()

def forEach (body : α → Prog σ ε Unit) : List α → Prog σ ε Unit
  | [] => pure ()
  | x :: xs => do
    body x
    forEach body xs

def firstOf (body : α → Prog σ ε (Option β)) : List α → Prog σ ε (Option β)
  | [] => pure none
  | x :: xs => do
    match ← body x with
    | some answer => pure (some answer)
    | none => firstOf body xs

end Prog

/-! ### What a program returns -/

variable {c : Prop}
section
variable {σ ε α β : Type} {p : Prog σ ε α} {f : α → Prog σ ε β} {s s₁ s₂ : σ} {a : α} {b : β}

/-- The program returns this value and leaves this state. -/
def Yields (p : Prog σ ε α) (s : σ) (a : α) (s' : σ) : Prop := (p s).1 = .ok a ∧ (p s).2 = s'
theorem Yields.look : Yields (Prog.look : Prog σ ε σ) s s s := ⟨rfl,rfl⟩

theorem Yields.run_bind (hp : Yields p s a s₁) : (p >>= f) s = f a s₁ := by
  obtain ⟨hval,rfl⟩ := hp
  simp only [Bind.bind]
  split <;> simp_all

theorem Yields.bind (hp : Yields p s a s₁) (hf : Yields (f a) s₁ b s₂) : Yields (p >>= f) s b s₂ := by
  unfold Yields
  rw [hp.run_bind]
  exact hf

end

section
variable {σ ε α β : Type}

/-- If the program returns, its value and the state it leaves satisfy `Q`. -/
def Whenever (p : Prog σ ε α) (s : σ) (Q : α → σ → Prop) : Prop :=
  ∀ a, (p s).1 = .ok a → Q a (p s).2

variable {p : Prog σ ε α} {f : α → Prog σ ε β} {s : σ} {Q Q' : α → σ → Prop}
  {R : β → σ → Prop}

theorem whenever_pure {a : α} (h : Q a s) : Whenever (pure a : Prog σ ε α) s Q := by
  intro b hb
  obtain rfl := ok.inj hb
  exact h

theorem Whenever.bind (hp : Whenever p s Q) (hf : ∀ a s₁, Q a s₁ → Whenever (f a) s₁ R) :
    Whenever (p >>= f) s R := by
  unfold Whenever at hp
  cases hrun : p s with
  | mk r s₁ =>
    rw [hrun] at hp
    cases r with
    | error e =>
      have hbind : (p >>= f) s = (.error e, s₁) := by simp [Bind.bind,hrun]
      intro b hb
      rw [hbind] at hb
      cases hb
    | ok a =>
      have hbind : (p >>= f) s = f a s₁ := by simp [Bind.bind,hrun]
      intro b hb
      rw [hbind] at hb ⊢
      exact hf a s₁ (hp a rfl) b hb

theorem Whenever.mono (h : Whenever p s Q) (himp : ∀ a s', Q a s' → Q' a s') :
    Whenever p s Q' := fun a ha => himp a _ (h a ha)

theorem Whenever.look {f : σ → Prog σ ε β} (h : Whenever (f s) s R) :
    Whenever (Prog.look >>= f) s R := fun b hb => h b hb

theorem Whenever.change {g : σ → σ} {f : Unit → Prog σ ε β} (h : Whenever (f ()) (g s) R) :
    Whenever (Prog.change g >>= f) s R := fun b hb => h b hb

theorem Whenever.ite [Decidable c] {q : Prog σ ε α} (hp : c → Whenever p s Q)
    (hq : ¬ c → Whenever q s Q) : Whenever (if c then p else q) s Q := by
  split_ifs with h
  · exact hp h
  · exact hq h

end

/-- An invariant of the states, and the errors that are allowed for. -/
structure Contract (σ ε : Type) where
  inv : σ → Prop
  benign : ε → Prop

namespace Contract
variable {σ ε α β : Type} (C : Contract σ ε)

/-- A run keeps the invariant, and ends with a value that satisfies `Q` or with a benign error. -/
def Ok (p : Prog σ ε α) (Q : α → Prop) : Prop :=
  ∀ s, C.inv s → C.inv (p s).2 ∧
    (∀ a, (p s).1 = .ok a → Q a) ∧ ∀ e, (p s).1 = .error e → C.benign e

variable {C} {p : Prog σ ε α} {f : α → Prog σ ε β} {Q Q' : α → Prop} {R : β → Prop}

theorem Ok.pure {a : α} (h : Q a) : C.Ok (Pure.pure a) Q := by
  intro s hs
  refine ⟨hs,fun b hb => ?_,fun e he => nomatch he⟩
  obtain rfl := ok.inj hb
  exact h

theorem Ok.bind (hp : C.Ok p Q) (hf : ∀ a, Q a → C.Ok (f a) R) : C.Ok (p >>= f) R := by
  intro s hs
  obtain ⟨hinv,hQ,hbenign⟩ := hp s hs
  cases hrun : p s with
  | mk r s₁ =>
    rw [hrun] at hinv hQ hbenign
    cases r with
    | error e =>
      have hbind : (p >>= f) s = (.error e, s₁) := by simp [Bind.bind,hrun]
      rw [hbind]
      exact ⟨hinv,fun a ha => (nomatch ha),fun e' he => hbenign e' (error.inj he ▸ rfl)⟩
    | ok a =>
      have hbind : (p >>= f) s = f a s₁ := by simp [Bind.bind,hrun]
      rw [hbind]
      exact hf a (hQ a rfl) s₁ hinv

theorem Ok.option {p : Prog σ ε (Option α)} {f : Option α → Prog σ ε β} {Q : Option α → Prop}
    (hp : C.Ok p Q) (hnone : C.Ok (f none) R) (hsome : ∀ a, Q (some a) → C.Ok (f (some a)) R) :
    C.Ok (p >>= f) R := by
  refine hp.bind fun r hr => ?_
  cases r with
  | none => exact hnone
  | some a => exact hsome a hr

theorem Ok.mono (h : C.Ok p Q) (himp : ∀ a, Q a → Q' a) : C.Ok p Q' := by
  intro s hs
  obtain ⟨hinv,hQ,hbenign⟩ := h s hs
  exact ⟨hinv,fun a ha => himp a (hQ a ha),hbenign⟩

theorem Ok.whenever (h : C.Ok p Q) {s : σ} (hs : C.inv s) :
    Whenever p s fun a s' => C.inv s' ∧ Q a := by
  intro a ha
  obtain ⟨hinv,hQ,-⟩ := h s hs
  exact ⟨hinv,hQ a ha⟩

theorem Ok.then {q : Prog σ ε β} (hp : C.Ok p Q) (hq : C.Ok q R) : C.Ok (p >>= fun _ => q) R :=
  hp.bind fun _ _ => hq

theorem Ok.look : C.Ok Prog.look C.inv := by
  intro s hs
  refine ⟨hs,fun b hb => ?_,fun e he => nomatch he⟩
  obtain rfl := ok.inj hb
  exact hs

theorem Ok.change {g : σ → σ} (h : ∀ s, C.inv s → C.inv (g s)) :
    C.Ok (Prog.change g) fun _ => True :=
  fun s hs => ⟨h s hs,fun _ _ => trivial,fun _ he => nomatch he⟩

theorem Ok.stop {e : ε} (h : C.benign e) : C.Ok (Prog.stop e) Q := by
  intro s hs
  refine ⟨hs,fun a ha => (nomatch ha),fun e' he => ?_⟩
  obtain rfl := error.inj he
  exact h

theorem Ok.ite [Decidable c] {q : Prog σ ε α} (hp : c → C.Ok p Q)
    (hq : ¬ c → C.Ok q Q) : C.Ok (if c then p else q) Q := by
  split_ifs with h
  · exact hp h
  · exact hq h

theorem Ok.early [Decidable c] {a : α} (h : Q a) (hp : ¬ c → C.Ok p Q) :
    C.Ok (if c then Pure.pure a else p) Q := Ok.ite (fun _ => Ok.pure h) hp

theorem Ok.onlyIf [Decidable c] {p : Prog σ ε Unit}
    (hp : c → C.Ok p fun _ => True) : C.Ok (Prog.onlyIf c p) fun _ => True :=
  Ok.ite hp fun _ => Ok.pure trivial

variable {body : α → Prog σ ε (Option β)}

theorem Ok.firstOf {xs : List α} (h : ∀ x ∈ xs, C.Ok (body x) fun r => ∀ b, r = some b → R b) :
    C.Ok (Prog.firstOf body xs) fun r => ∀ b, r = some b → R b := by
  induction xs with
  | nil => exact Ok.pure fun _ hb => nomatch hb
  | cons x xs ih =>
    apply (h x mem_cons_self).bind
    intro r hr
    cases r with
    | some b => exact Ok.pure hr
    | none => exact ih fun y hy => h y (mem_cons_of_mem x hy)

/-! ### Programs whose value does not matter -/

variable (C) in
/-- A contract that asks nothing of the value. -/
abbrev Safe (p : Prog σ ε α) : Prop := C.Ok p fun _ => True
theorem Safe.pure (a : α) : C.Safe (Pure.pure a) := Ok.pure trivial

theorem Safe.bind (hp : C.Safe p) (hf : ∀ a, C.Ok (f a) R) : C.Ok (p >>= f) R :=
  Ok.bind hp fun a _ => hf a

theorem Safe.option {p : Prog σ ε (Option α)} {f : Option α → Prog σ ε β} (hp : C.Safe p)
    (hnone : C.Ok (f none) R) (hsome : ∀ a, C.Ok (f (some a)) R) : C.Ok (p >>= f) R :=
  Ok.option hp hnone fun a _ => hsome a

theorem Safe.ite [Decidable c] {q : Prog σ ε α} (hp : C.Safe p) (hq : C.Safe q) :
    C.Safe (if c then p else q) := Ok.ite (fun _ => hp) fun _ => hq

theorem Safe.early [Decidable c] {a : α} (hp : C.Safe p) : C.Safe (if c then Pure.pure a else p) :=
  (Safe.pure a).ite hp

theorem Safe.firstOf {xs : List α}
    (h : ∀ x ∈ xs, C.Safe (body x)) : C.Safe (Prog.firstOf body xs) :=
  (Ok.firstOf fun x hx => (h x hx).mono fun _ _ _ _ => trivial).mono fun _ _ => trivial

end Contract

end GaiaKernel.Fallible
