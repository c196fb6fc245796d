import Mathlib.Data.List.Chain

/-! # Address-ordered block lists

A stretch of memory tiled by blocks, each with a header of four words in front of its payload: size
of the payload, free flag, addresses of the next and of the previous header. `Seg m prev a bs next`
says that `m` holds the blocks `bs` one after the other from `a` on, doubly linked in address order.
`Seg.splice` is the rule for all local edits: replace some blocks in the middle and repair the link
back to them.
-/
namespace GaiaKernel.BlockList
open Function List

abbrev Mem := ℕ → ℕ

structure Blk where
  size : ℕ
  free : Bool
deriving DecidableEq

/-- Address just past the blocks laid out from `a` on. -/
def endOf (a : ℕ) : List Blk → ℕ
  | [] => a
  | b :: bs => endOf (a + 32 + b.size) bs

/-- Header address of the last of the blocks laid out from `a` on, or `prev` without any. -/
def lastOf (prev a : ℕ) : List Blk → ℕ
  | [] => prev
  | b :: bs => lastOf a (a + 32 + b.size) bs

/-- What the link of a block holds when `bs` follows it at `stop`. -/
def linkOf (stop next : ℕ) : List Blk → ℕ
  | [] => next
  | _ :: _ => stop

/-- The header at `a` describes the block `b`. -/
structure Header (m : Mem) (prev a next : ℕ) (b : Blk) : Prop where
  size : m a = b.size
  free : m (a + 8) ≠ 0 ↔ b.free = true
  next : m (a + 16) = next
  prev : m (a + 24) = prev

/-- The blocks are laid out and linked from `a` on. -/
def Seg (m : Mem) (prev a : ℕ) : List Blk → ℕ → Prop
  | [], _ => True
  | b :: bs, next =>
    Header m prev a (linkOf (a + 32 + b.size) next bs) b ∧ Seg m a (a + 32 + b.size) bs next

def Located (a : ℕ) : List Blk → ℕ → Blk → Prop
  | [], _, _ => False
  | d :: bs, c, b => (c = a ∧ b = d) ∨ Located (a + 32 + d.size) bs c b

variable {m m' : Mem} {prev a next : ℕ} {xs ys mid mid' bs : List Blk}

@[simp] theorem endOf_append : endOf a (xs ++ ys) = endOf (endOf a xs) ys := by
  induction xs generalizing a with
  | nil => rfl
  | cons b xs ih => exact ih

@[simp] theorem lastOf_append :
    lastOf prev a (xs ++ ys) = lastOf (lastOf prev a xs) (endOf a xs) ys := by
  induction xs generalizing prev a with
  | nil => rfl
  | cons b xs ih => exact ih

@[simp] theorem linkOf_append {stop : ℕ} :
    linkOf stop next (xs ++ ys) = linkOf stop (linkOf stop next ys) xs := by
  cases xs <;> rfl

theorem le_endOf (a : ℕ) (bs : List Blk) : a ≤ endOf a bs := by
  induction bs generalizing a with
  | nil => exact le_rfl
  | cons b bs ih =>
    have := ih (a + 32 + b.size)
    simp only [endOf]
    omega

theorem length_le_endOf (a : ℕ) (bs : List Blk) : a + 32 * bs.length ≤ endOf a bs := by
  induction bs generalizing a with
  | nil => exact le_rfl
  | cons b bs ih =>
    have := ih (a + 32 + b.size)
    simp only [endOf,length_cons]
    omega

theorem lt_endOf_cons (a : ℕ) (b : Blk) (bs : List Blk) :
    a + 32 + b.size ≤ endOf a (b :: bs) := le_endOf _ bs

theorem seg_append : Seg m prev a (xs ++ ys) next ↔ Seg m prev a xs (linkOf (endOf a xs) next ys) ∧
      Seg m (lastOf prev a xs) (endOf a xs) ys next := by
  induction xs generalizing prev a with
  | nil => simp [Seg,lastOf,endOf]
  | cons b xs ih =>
    simp only [cons_append,Seg,ih,linkOf_append,lastOf,endOf,and_assoc]
    cases xs <;> rfl

theorem Seg.congr (h : Seg m prev a bs next) (heq : ∀ k, a ≤ k → k < endOf a bs → m' k = m k) :
    Seg m' prev a bs next := by
  induction bs generalizing prev a with
  | nil => trivial
  | cons b bs ih =>
    obtain ⟨hb,hrest⟩ := h
    have hend := lt_endOf_cons a b bs
    refine ⟨⟨?_,?_,?_,?_⟩,ih hrest fun k h1 h2 => heq k (by omega) h2⟩
    · rw [heq a le_rfl (by omega)]; exact hb.size
    · rw [heq (a + 8) (by omega) (by omega)]; exact hb.free
    · rw [heq (a + 16) (by omega) (by omega)]; exact hb.next
    · rw [heq (a + 24) (by omega) (by omega)]; exact hb.prev

theorem Seg.relink {prev' : ℕ} (h : Seg m prev a bs next)
    (heq : ∀ k, a ≤ k → k < endOf a bs → k ≠ a + 24 → m' k = m k)
    (hprev : bs ≠ [] → m' (a + 24) = prev') : Seg m' prev' a bs next := by
  cases bs with
  | nil => trivial
  | cons b bs =>
    obtain ⟨hb,hrest⟩ := h
    have hend := lt_endOf_cons a b bs
    refine ⟨⟨?_,?_,?_,hprev (by simp)⟩,hrest.congr fun k h1 h2 => heq k (by omega) h2 (by omega)⟩
    · rw [heq a le_rfl (by omega) (by omega)]; exact hb.size
    · rw [heq (a + 8) (by omega) (by omega) (by omega)]; exact hb.free
    · rw [heq (a + 16) (by omega) (by omega) (by omega)]; exact hb.next

/-- The two memories agree below `stop` outside `[s, t)`, except for the back link of a block
at `t`. -/
def SameOutside (m m' : Mem) (s t stop : ℕ) : Prop :=
  ∀ k, k < s ∨ (t ≤ k ∧ k < stop ∧ k ≠ t + 24) → m' k = m k

/-- Replace the blocks `mid` by `mid'`. The new blocks fill the same stretch, unless nothing
follows them. -/
theorem Seg.splice {s t : ℕ} (h : Seg m prev a (xs ++ mid ++ ys) next)
    (hs : s = endOf a xs) (ht : t = endOf s mid) (hold : mid ≠ []) (hnew : mid' ≠ [])
    (hsame : SameOutside m m' s t (endOf t ys))
    (hmid : Seg m' (lastOf prev a xs) s mid' (linkOf t next ys))
    (hfill : ys = [] ∨ endOf s mid' = t)
    (hback : ys ≠ [] → m' (t + 24) = lastOf (lastOf prev a xs) s mid') :
    Seg m' prev a (xs ++ mid' ++ ys) next := by
  subst hs ht
  rw [append_assoc,seg_append] at h ⊢
  obtain ⟨hxs,hrest⟩ := h
  rw [seg_append] at hrest ⊢
  have hlink : linkOf (endOf a xs) next (mid' ++ ys) = linkOf (endOf a xs) next (mid ++ ys) := by
    cases mid with
    | nil => exact absurd rfl hold
    | cons c mid =>
      cases mid' with
      | nil => exact absurd rfl hnew
      | cons b mid' => rfl
  refine ⟨?_,?_,?_⟩
  · rw [hlink]
    exact hxs.congr fun k _ hk => hsame k (Or.inl hk)
  · rcases hfill with rfl | hfill
    · exact hmid
    · rwa [hfill]
  · cases ys with
    | nil => trivial
    | cons y ys =>
      rw [hfill.resolve_left (by simp)]
      exact hrest.2.relink (fun k h1 h2 h3 => hsame k (Or.inr ⟨h1,h2,h3⟩)) fun _ => hback (by simp)

theorem Seg.unique (h : Seg m prev a xs 0) (h' : Seg m prev a ys 0) (hx : xs ≠ [])
    (hy : ys ≠ []) : xs = ys := by
  induction xs generalizing prev a ys with
  | nil => exact absurd rfl hx
  | cons b xs ih =>
    cases ys with
    | nil => exact absurd rfl hy
    | cons c ys =>
      obtain ⟨hb,hrest⟩ := h
      obtain ⟨hc,hrest'⟩ := h'
      have hsize : b.size = c.size := hb.size.symm.trans hc.size
      have hfree : b.free = c.free := by rw [Bool.eq_iff_iff,← hb.free,← hc.free]
      obtain rfl : b = c := by
        cases b
        simp only at hsize hfree
        rw [hsize,hfree]
      have hlink := hb.next.symm.trans hc.next
      cases xs with
      | nil =>
        cases ys with
        | nil => rfl
        | cons d ys => simp only [linkOf] at hlink; omega
      | cons d xs =>
        cases ys with
        | nil => simp only [linkOf] at hlink; omega
        | cons e ys => rw [ih hrest hrest' (by simp) (by simp)]

/-! ## Where blocks lie -/

variable {b : Blk} {c : ℕ}

theorem located_append :
    Located a (xs ++ ys) c b ↔ Located a xs c b ∨ Located (endOf a xs) ys c b := by
  induction xs generalizing a with
  | nil => simp [Located,endOf]
  | cons d xs ih => simp [Located,ih,endOf,or_assoc]

section
variable (h : Located a bs c b)
include h

theorem Located.bounds : a ≤ c ∧ c + 32 + b.size ≤ endOf a bs := by
  induction bs generalizing a with
  | nil => exact h.elim
  | cons d bs ih =>
    rcases h with ⟨rfl,rfl⟩ | h
    · exact ⟨le_rfl,le_endOf _ bs⟩
    · have := ih h
      simp only [endOf]
      omega

theorem Located.split : ∃ xs ys, bs = xs ++ b :: ys ∧ c = endOf a xs := by
  induction bs generalizing a with
  | nil => exact h.elim
  | cons d bs ih =>
    rcases h with ⟨rfl,rfl⟩ | h
    · exact ⟨[],bs,rfl,rfl⟩
    · obtain ⟨xs,ys,rfl,rfl⟩ := ih h
      exact ⟨d :: xs,ys,rfl,rfl⟩

theorem Located.unique {b' : Blk} (h' : Located a bs c b') : b = b' := by
  induction bs generalizing a with
  | nil => exact h.elim
  | cons d bs ih =>
    rcases h with ⟨rfl,rfl⟩ | h <;> rcases h' with ⟨hc,rfl⟩ | h'
    · rfl
    · have := h'.bounds.1
      omega
    · have := h.bounds.1
      omega
    · exact ih h h'

theorem Located.disjoint {c' : ℕ} {b' : Blk} (h' : Located a bs c' b')
    (hne : c ≠ c') : c + 32 + b.size ≤ c' ∨ c' + 32 + b'.size ≤ c := by
  induction bs generalizing a with
  | nil => exact h.elim
  | cons d bs ih =>
    rcases h with ⟨rfl,rfl⟩ | h <;> rcases h' with ⟨rfl,rfl⟩ | h'
    · exact absurd rfl hne
    · exact Or.inl h'.bounds.1
    · exact Or.inr h.bounds.1
    · exact ih h h'

end

theorem Seg.payload {k v : ℕ} (h : Seg m prev a bs next) (hb : Located a bs c b)
    (hlo : c + 32 ≤ k) (hhi : k < c + 32 + b.size) : Seg (update m k v) prev a bs next := by
  induction bs generalizing prev a with
  | nil => trivial
  | cons d bs ih =>
    obtain ⟨hd,hrest⟩ := h
    have hk : a + 32 ≤ k := by
      rcases hb with ⟨rfl,rfl⟩ | hb
      · exact hlo
      · have := hb.bounds.1
        omega
    refine ⟨⟨?_,?_,?_,?_⟩,?_⟩
    · rw [update_of_ne (by omega)]; exact hd.size
    · rw [update_of_ne (by omega)]; exact hd.free
    · rw [update_of_ne (by omega)]; exact hd.next
    · rw [update_of_ne (by omega)]; exact hd.prev
    · rcases hb with ⟨rfl,rfl⟩ | hb
      · exact hrest.congr fun j h1 _ => update_of_ne (by omega) _ _
      · exact ih hrest hb

theorem endOf_mod {n : ℕ} (hn : 32 % n = 0) (ha : a % n = 0) (h : ∀ b ∈ bs, b.size % n = 0) :
    endOf a bs % n = 0 := by
  induction bs generalizing a with
  | nil => exact ha
  | cons b bs ih =>
    refine ih ?_ fun c hc => h c (mem_cons_of_mem _ hc)
    have hb := h b mem_cons_self
    rw [Nat.add_mod,Nat.add_mod a,ha,hn,hb]
    simp

end GaiaKernel.BlockList
