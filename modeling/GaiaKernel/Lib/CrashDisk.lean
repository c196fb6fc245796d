import Mathlib.Data.List.Perm.Subperm

/-! # A disk with a write cache

Writes are atomic per block. Those since the last flush may reach the disk in any order or not at
all; a flush puts all of them there, in some order. `Along` asserts a condition at every crash point
of a sequence of device calls.
-/
namespace GaiaKernel.CrashDisk
open Function List
variable {α β : Type*} [DecidableEq α]

/-- What the disk holds durably, and the writes since the last flush. -/
structure Disk (α β : Type*) where
  durable : α → β
  pending : List (α × β)

def patch (c : α → β) (ws : List (α × β)) : α → β :=
  ws.foldl (fun c w => Function.update c w.1 w.2) c

theorem patch_cases (c : α → β) (ws : List (α × β)) (a : α) :
    (a, patch c ws a) ∈ ws ∨ (∀ x, (a, x) ∉ ws) ∧ patch c ws a = c a := by
  induction ws generalizing c with
  | nil => exact .inr ⟨fun x hx => (not_mem_nil hx).elim,rfl⟩
  | cons w ws ih =>
    rcases ih (update c w.1 w.2) with hmem | ⟨hno,heq⟩
    · exact .inl (mem_cons_of_mem w hmem)
    · change (a, patch (update c w.1 w.2) ws a) ∈ w :: ws ∨ (∀ x, (a, x) ∉ w :: ws) ∧
        patch (update c w.1 w.2) ws a = c a
      rw [heq]
      by_cases ha : a = w.1
      · subst ha
        rw [update_self]
        exact .inl (mem_cons_self ..)
      · rw [update_of_ne ha]
        refine .inr ⟨fun x hx => ?_,rfl⟩
        rcases mem_cons.mp hx with rfl | hx
        · exact ha rfl
        · exact hno x hx

namespace Disk
variable (d : Disk α β)

def write (a : α) (x : β) : Disk α β := { d with pending := d.pending ++ [(a, x)] }
def Crash (c : α → β) : Prop := ∃ ws, ws.Subperm d.pending ∧ c = patch d.durable ws

def Flushed (d' : Disk α β) : Prop :=
  d'.pending = [] ∧ ∃ ws, ws.Perm d.pending ∧ d'.durable = patch d.durable ws

variable {d} {d' : Disk α β}

theorem Crash.cases {c : α → β} (h : d.Crash c) (a : α) :
    c a = d.durable a ∨ (a, c a) ∈ d.pending := by
  obtain ⟨ws,hsub,rfl⟩ := h
  rcases patch_cases d.durable ws a with hmem | ⟨_,heq⟩
  · exact .inr (hsub.subset hmem)
  · exact .inl heq

theorem Flushed.cases (h : d.Flushed d') (a : α) : (a, d'.durable a) ∈ d.pending ∨
    (∀ x, (a, x) ∉ d.pending) ∧ d'.durable a = d.durable a := by
  obtain ⟨_,ws,hperm,heq⟩ := h
  rw [heq]
  rcases patch_cases d.durable ws a with hmem | ⟨hno,hsame⟩
  · exact .inl (hperm.subset hmem)
  · exact .inr ⟨fun x hx => hno x (hperm.symm.subset hx),hsame⟩

end Disk

/-- A call of the device and whether it reported success. -/
inductive Call (α β : Type*) where
  | write (a : α) (x : β) (ok : Bool)
  | flush (ok : Bool)

def Call.ok : Call α β → Bool
  | .write _ _ ok => ok
  | .flush ok => ok

/-- What one call does. A write that failed may still reach the disk; a flush that failed
promises nothing. -/
inductive CallStep : Disk α β → Call α β → Disk α β → Prop
  | write (d : Disk α β) (a : α) (x : β) (ok : Bool) : CallStep d (.write a x ok) (d.write a x)
  | flush {d d' : Disk α β} (h : d.Flushed d') : CallStep d (.flush true) d'
  | flushFailed (d : Disk α β) : CallStep d (.flush false) d

/-- What a sequence of calls does. -/
inductive CallRun : Disk α β → List (Call α β) → Disk α β → Prop
  | nil (d : Disk α β) : CallRun d [] d
  | cons {d d₁ d₂ : Disk α β} {c : Call α β} {cs : List (Call α β)} (h : CallStep d c d₁)
      (hs : CallRun d₁ cs d₂) : CallRun d (c :: cs) d₂

/-- `Q` holds at every point of the sequence of calls, and `R` at its end. -/
def Along (Q R : Disk α β → Prop) : Disk α β → List (Call α β) → Prop
  | d, [] => Q d ∧ R d
  | d, c :: cs => Q d ∧ ∀ d', CallStep d c d' → Along Q R d' cs

namespace Along
variable {Q R R' : Disk α β → Prop} {d d' : Disk α β} {cs cs' : List (Call α β)}

theorem start (h : Along Q R d cs) : Q d := by
  cases cs with
  | nil => exact h.1
  | cons c cs => exact h.1

theorem imp (h : Along Q R d cs) (hR : ∀ d, R d → R' d) : Along Q R' d cs := by
  induction cs generalizing d with
  | nil => exact ⟨h.1,hR d h.2⟩
  | cons c cs ih => exact ⟨h.1,fun d1 hc => ih (h.2 d1 hc)⟩

theorem append {l m : List (Call α β)} {S : Disk α β → Prop} (h : Along Q R d l)
    (h' : ∀ d', R d' → Along Q S d' m) : Along Q S d (l ++ m) := by
  induction l generalizing d with
  | nil => exact h' d h.2
  | cons c cs ih => exact ⟨h.1,fun d1 hc => ih (h.2 d1 hc)⟩

theorem crashPoint (h : Along Q R d cs) {pre : List (Call α β)} (hpre : pre <+: cs)
    (hrun : CallRun d pre d') : Q d' := by
  induction hrun generalizing cs with
  | nil d => exact h.start
  | cons hc _ ih =>
    cases cs with
    | nil => exact absurd (prefix_nil.mp hpre) (cons_ne_nil _ _)
    | cons c cs =>
      obtain ⟨rfl,hrest⟩ := cons_prefix_cons.mp hpre
      exact ih (h.2 _ hc) hrest

theorem post (h : Along Q R d cs) (hrun : CallRun d cs d') : R d' := by
  induction hrun with
  | nil d => exact h.2
  | cons hc _ ih => exact ih (h.2 _ hc)

theorem write {a : α} {x : β} {ok : Bool} (h : Q d) (h' : Q (d.write a x))
    (hR : R (d.write a x)) : Along Q R d [.write a x ok] := by
  refine ⟨h,fun d' hc => ?_⟩
  cases hc
  exact ⟨h',hR⟩

theorem flush (h : Q d) (h' : ∀ d', d.Flushed d' → Q d' ∧ R d') : Along Q R d [.flush true] := by
  refine ⟨h,fun d' hc => ?_⟩
  cases hc with
  | flush hf => exact h' d' hf

theorem flushFailed (h : Q d) (hR : R d) : Along Q R d [.flush false] := by
  refine ⟨h,fun d' hc => ?_⟩
  cases hc
  exact ⟨h,hR⟩

end Along

/-- The values each block may hold durably and those that may be on their way to it. -/
structure Within (dur pen : α → β → Prop) (d : Disk α β) : Prop where
  durable : ∀ a, dur a (d.durable a)
  pending : ∀ a x, (a, x) ∈ d.pending → pen a x

namespace Within
variable {dur pen dur' pen' : α → β → Prop} {d d' : Disk α β}

omit [DecidableEq α] in
theorem write (h : Within dur pen d) {a : α} {x : β} (hx : pen a x) :
    Within dur pen (d.write a x) := by
  refine ⟨h.durable,fun b y hy => ?_⟩
  rcases mem_append.mp hy with hy | hy
  · exact h.pending b y hy
  · cases mem_singleton.mp hy
    exact hx

theorem crash (h : Within dur pen d) {c : α → β} (hc : d.Crash c) (a : α) :
    dur a (c a) ∨ pen a (c a) := by
  rcases hc.cases a with heq | hmem
  · rw [heq]
    exact .inl (h.durable a)
  · exact .inr (h.pending a _ hmem)

/-- After a flush every block holds a value that was on its way to it, or the old one if
there was none. -/
theorem flushed (h : Within dur pen d) (hf : d.Flushed d') (hp : ∀ a x, pen a x → dur' a x)
    (hd : ∀ a x, dur a x → (∀ y, (a, y) ∉ d.pending) → dur' a x) : Within dur' pen' d' := by
  refine ⟨fun a => ?_,fun a x hx => ?_⟩
  · rcases hf.cases a with hmem | ⟨hno,heq⟩
    · exact hp a _ (h.pending a _ hmem)
    · rw [heq]
      exact hd a _ (h.durable a) hno
  · rw [hf.1] at hx
    exact (not_mem_nil hx).elim

end Within

end GaiaKernel.CrashDisk
