import Mathlib.Data.List.Nodup

/-! # Singly linked queues

A queue is a head and a tail pointer. The links live in one map `next`, which several queues may
share as long as their nodes differ. `Holds next q l` says that the queue represents the list `l`;
the operations are described by what they do to that list, and a frame fact says which links they
leave alone.
-/
namespace GaiaKernel.LinkedQueue
open Function List
variable {ι : Type*}

structure Queue (ι : Type*) where
  head : Option ι
  tail : Option ι

/-- Following the links from the pointer `h` visits exactly the nodes of `l` and then stands
at the pointer `e`. -/
def Seg (next : ι → Option ι) (e : Option ι) : Option ι → List ι → Prop
  | h, [] => h = e
  | h, a :: l => h = some a ∧ Seg next e (next a) l

/-- The queue represents `l`: its links visit the nodes of `l` once each and end, and the
tail pointer stands at the last of them. -/
structure Holds (next : ι → Option ι) (q : Queue ι) (l : List ι) : Prop where
  chain : Seg next none q.head l
  nodup : l.Nodup
  tail : q.tail = l.getLast?

variable {a target : ι} {fuel : ℕ}
section
variable {next next' : ι → Option ι} {h e : Option ι} {l l₁ l₂ : List ι}

theorem Seg.congr (hs : Seg next e h l) (heq : ∀ a ∈ l, next' a = next a) : Seg next' e h l := by
  induction l generalizing h with
  | nil => exact hs
  | cons a l ih =>
    obtain ⟨rfl,hs⟩ := hs
    refine ⟨rfl,?_⟩
    rw [heq a mem_cons_self]
    exact ih hs fun b hb => heq b (mem_cons_of_mem a hb)

theorem seg_append : Seg next e h (l₁ ++ l₂) ↔ ∃ m, Seg next m h l₁ ∧ Seg next e m l₂ := by
  induction l₁ generalizing h with
  | nil => exact ⟨fun hs => ⟨h,rfl,hs⟩,by rintro ⟨m,rfl,hs⟩; exact hs⟩
  | cons a l₁ ih =>
    constructor
    · rintro ⟨rfl,hs⟩
      obtain ⟨m,hs1,hs2⟩ := ih.mp hs
      exact ⟨m,⟨rfl,hs1⟩,hs2⟩
    · rintro ⟨m,⟨rfl,hs1⟩,hs2⟩
      exact ⟨rfl,ih.mpr ⟨m,hs1,hs2⟩⟩

/-- The first `n` nodes that the links visit from a pointer on. -/
def nodesFrom (next : ι → Option ι) : ℕ → Option ι → List ι
  | 0, _ => []
  | _ + 1, none => []
  | n + 1, some a => a :: nodesFrom next n (next a)

theorem Seg.nodesFrom (hs : Seg next none h l) (hfuel : l.length ≤ fuel) :
    nodesFrom next fuel h = l := by
  induction l generalizing h fuel with
  | nil =>
    obtain rfl : h = none := hs
    cases fuel <;> rfl
  | cons a l ih =>
    obtain ⟨rfl,hs⟩ := hs
    cases fuel with
    | zero => cases hfuel
    | succ fuel => exact congrArg (a :: ·) (ih hs (Nat.le_of_succ_le_succ hfuel))

theorem Holds.congr {q : Queue ι} (hq : Holds next q l) (heq : ∀ a ∈ l, next' a = next a) :
    Holds next' q l := ⟨hq.chain.congr heq,hq.nodup,hq.tail⟩

theorem Holds.head_eq {q : Queue ι} (hq : Holds next q l) : q.head = l.head? := by
  have hc := hq.chain
  cases l with
  | nil => exact hc
  | cons a l => exact hc.1

theorem Holds.tail_mem {q : Queue ι} (hq : Holds next q l) (ha : q.tail = some a) : a ∈ l :=
  mem_of_getLast? (hq.tail ▸ ha)

end

section
variable [DecidableEq ι] {next : ι → Option ι} {q : Queue ι} {l : List ι}

/-- Append the node `t`. -/
def push (next : ι → Option ι) (q : Queue ι) (t : ι) : (ι → Option ι) × Queue ι :=
  match q.tail with
  | none => (update next t none, ⟨some t,some t⟩)
  | some last => (update (update next t none) last (some t), ⟨q.head,some t⟩)

theorem push_frame (next : ι → Option ι) (q : Queue ι) {t : ι} (ht : a ≠ t)
    (hlast : q.tail ≠ some a) : (push next q t).1 a = next a := by
  unfold push
  split
  case h_1 => exact update_of_ne ht _ _
  case h_2 last hl =>
    have hne : a ≠ last := by
      rintro rfl
      exact hlast hl
    exact (update_of_ne hne _ _).trans (update_of_ne ht _ _)

theorem Holds.push (hq : Holds next q l) {t : ι} (ht : t ∉ l) :
    Holds (push next q t).1 (push next q t).2 (l ++ [t]) := by
  have hnodup : (l ++ [t]).Nodup := by
    rw [nodup_append]
    refine ⟨hq.nodup,nodup_singleton t,fun a ha b hb hab => ht ?_⟩
    rw [mem_singleton] at hb
    exact hb ▸ hab ▸ ha
  rcases eq_nil_or_concat' l with rfl | ⟨l',last,rfl⟩
  · have htail : q.tail = none := hq.tail
    rw [LinkedQueue.push,htail]
    exact ⟨⟨rfl,update_self t _ _⟩,hnodup,rfl⟩
  · have htail : q.tail = some last := by rw [hq.tail]; simp
    obtain ⟨m,hs,hlast⟩ := seg_append.mp hq.chain
    obtain ⟨rfl,_⟩ := hlast
    have hdisj := (nodup_append.mp hq.nodup).2.2
    have hne : t ≠ last := by
      rintro rfl
      exact ht (by simp)
    rw [LinkedQueue.push,htail]
    dsimp only
    refine ⟨?_,hnodup,by simp⟩
    -- the links up to the old tail stand, the old tail now points to `t`
    rw [append_assoc]
    refine seg_append.mpr ⟨some last,hs.congr fun a ha => ?_,rfl,?_⟩
    · have hat : a ≠ t := by
        rintro rfl
        exact ht (mem_append_left _ ha)
      rw [update_of_ne (hdisj a ha last (mem_singleton_self last)),update_of_ne hat]
    · rw [update_self]
      refine ⟨rfl,?_⟩
      rw [update_of_ne hne,update_self]
      rfl

def pop (next : ι → Option ι) (q : Queue ι) : Option (ι × (ι → Option ι) × Queue ι) :=
  q.head.map fun t =>
    (t, update next t none, ⟨next t,if (next t).isNone then none else q.tail⟩)

theorem Holds.pop_cons (hq : Holds next q (a :: l)) :
    ∃ q', pop next q = some (a, update next a none, q') ∧ Holds (update next a none) q' l := by
  have hhead : q.head = some a := hq.head_eq
  obtain ⟨ha,hl⟩ := nodup_cons.mp hq.nodup
  have hseg : Seg next none (next a) l := hq.chain.2
  have hnext : next a = l.head? := by
    cases l with
    | nil => exact hseg
    | cons b l => exact hseg.1
  refine ⟨_,by rw [pop,hhead]; rfl,?_,hl,?_⟩
  · refine hseg.congr fun b hb => update_of_ne ?_ _ _
    rintro rfl
    exact ha hb
  · rw [hnext,hq.tail]
    cases l with
    | nil => rfl
    | cons b l => rfl

/-- The walk that looks for `target` from the pointer `cur`, with the node before it at hand,
and unlinks it. It gives up after `fuel` nodes. -/
def unlinkFrom (next : ι → Option ι) (q : Queue ι) (target : ι) :
    ℕ → Option ι → Option ι → Option ((ι → Option ι) × Queue ι)
  | 0, _, _ => none
  | _ + 1, _, none => none
  | fuel + 1, previous, some a =>
    if a ≠ target then unlinkFrom next q target fuel (some a) (next a)
    else
      let tail := if q.tail = some a then previous else q.tail
      match previous with
      | some p => some (update (update next p (next a)) a none, ⟨q.head,tail⟩)
      | none => some (update next a none, ⟨next a,tail⟩)

/-- Unlink `target`; `none` if the queue does not hold it. -/
def remove (next : ι → Option ι) (q : Queue ι) (fuel : ℕ) (target : ι) :
    Option ((ι → Option ι) × Queue ι) :=
  unlinkFrom next q target fuel none q.head

theorem unlinkFrom_not_mem {rest : List ι} {prev cur : Option ι}
    (hcur : Seg next none cur rest) (hrest : target ∉ rest) :
    unlinkFrom next q target fuel prev cur = none := by
  induction rest generalizing fuel prev cur with
  | nil =>
    obtain rfl : cur = none := hcur
    cases fuel <;> rfl
  | cons a rest ih =>
    obtain ⟨rfl,hcur⟩ := hcur
    obtain ⟨hne,hrest⟩ := not_or.mp (fun h => hrest (mem_cons.mpr h))
    cases fuel with
    | zero => rfl
    | succ fuel =>
      rw [unlinkFrom,if_pos (Ne.symm hne)]
      exact ih hcur hrest

/-- The walk has passed `done` and stands before `rest`, which holds the node it looks for. -/
theorem Holds.unlinkFrom_mem {done rest : List ι} {cur : Option ι}
    (hq : Holds next q (done ++ rest)) (hdone : Seg next cur q.head done)
    (hcur : Seg next none cur rest) (hmem : target ∈ rest) (hfuel : rest.length ≤ fuel) :
    ∃ r, unlinkFrom next q target fuel done.getLast? cur = some r ∧
      Holds r.1 r.2 (done ++ rest.erase target) ∧ ∀ a ∉ done ++ rest, r.1 a = next a := by
  induction rest generalizing done fuel cur with
  | nil => cases hmem
  | cons a rest ih =>
    obtain ⟨rfl,hcur⟩ := hcur
    obtain ⟨fuel,rfl⟩ : ∃ n, fuel = n + 1 := ⟨fuel - 1,by simp at hfuel; omega⟩
    by_cases hat : a = target
    · subst hat
      obtain ⟨hnd,hnr,hdisj⟩ := nodup_append.mp hq.nodup
      obtain ⟨har,hnr⟩ := nodup_cons.mp hnr
      have had : a ∉ done := fun h => hdisj a h a mem_cons_self rfl
      have hnodup : (done ++ rest).Nodup :=
        nodup_append.mpr ⟨hnd,hnr,fun b hb c hc => hdisj b hb c (mem_cons_of_mem a hc)⟩
      have htail : (if q.tail = some a then done.getLast? else q.tail) =
          (done ++ rest).getLast? := by
        rw [hq.tail]
        rcases eq_nil_or_concat' rest with rfl | ⟨rest',b,rfl⟩
        · simp
        · have hba : b ≠ a := by
            rintro rfl
            exact har (by simp)
          have hlast : (done ++ a :: (rest' ++ [b])).getLast? = some b := by
            rw [← cons_append,← append_assoc,getLast?_concat]
          simp [hlast,hba]
      have hrest : ∀ b ∈ rest, b ≠ a := by
        rintro b hb rfl
        exact har hb
      rw [erase_cons_head,unlinkFrom,if_neg (by simp)]
      rcases eq_nil_or_concat' done with rfl | ⟨done',p,rfl⟩
      · refine ⟨_,rfl,⟨?_,hnodup,htail⟩,fun b hb => ?_⟩
        · exact hcur.congr fun b hb => update_of_ne (hrest b hb) _ _
        · exact update_of_ne (fun h => hb (by simp [h])) _ _
      · have hprev : (done' ++ [p]).getLast? = some p := getLast?_concat
        rw [hprev] at htail ⊢
        obtain ⟨m,hs,rfl,_⟩ := seg_append.mp hdone
        have hpa : p ≠ a := by
          rintro rfl
          exact had (by simp)
        refine ⟨_,rfl,⟨?_,hnodup,htail⟩,fun b hb => ?_⟩ <;> dsimp only
        · rw [append_assoc]
          refine seg_append.mpr ⟨some p,hs.congr fun b hb => ?_,rfl,?_⟩
          · have hbp : b ≠ p := (nodup_append.mp hnd).2.2 b hb p (mem_singleton_self p)
            have hba : b ≠ a := by
              rintro rfl
              exact had (mem_append_left _ hb)
            rw [update_of_ne hba,update_of_ne hbp]
          · rw [update_of_ne hpa,update_self]
            refine hcur.congr fun b hb => ?_
            have hbp : b ≠ p := fun h =>
              hdisj p (by simp) b (mem_cons_of_mem a hb) h.symm
            rw [update_of_ne (hrest b hb),update_of_ne hbp]
        · have hba : b ≠ a := fun h => hb (by simp [h])
          have hbp : b ≠ p := fun h => hb (by simp [h])
          rw [update_of_ne hba,update_of_ne hbp]
    · have hq' : Holds next q ((done ++ [a]) ++ rest) := by
        rw [append_assoc]
        exact hq
      have hdone' : Seg next (next a) q.head (done ++ [a]) := seg_append.mpr ⟨some a,hdone,rfl,rfl⟩
      have hmem' : target ∈ rest := (mem_cons.mp hmem).resolve_left (Ne.symm hat)
      obtain ⟨r,hr,hh,hframe⟩ := ih hq' hdone' hcur hmem' (by simp at hfuel; omega)
      rw [getLast?_concat] at hr
      refine ⟨r,by rw [unlinkFrom,if_pos hat]; exact hr,?_,?_⟩
      · rw [erase_cons_tail (by simpa using hat)]
        rwa [append_assoc] at hh
      · intro b hb
        exact hframe b (by rwa [append_assoc])

theorem Holds.remove_not_mem (hq : Holds next q l) (h : target ∉ l) (fuel : ℕ) :
    remove next q fuel target = none := unlinkFrom_not_mem hq.chain h

theorem Holds.remove_mem (hq : Holds next q l) (h : target ∈ l) (hfuel : l.length ≤ fuel) :
    ∃ r, remove next q fuel target = some r ∧ Holds r.1 r.2 (l.erase target) ∧
      ∀ a ∉ l, r.1 a = next a :=
  (show Holds next q ([] ++ l) from hq).unlinkFrom_mem rfl hq.chain h hfuel

end

section
variable {κ : Type*} {next next' : ι → Option ι} {ready : κ → Queue ι} {l : κ → List ι} {k : κ}

/-- Queues that share their links hold `l`, and no node is in two of them. -/
structure Lines (next : ι → Option ι) (ready : κ → Queue ι) (l : κ → List ι) : Prop where
  holds : ∀ k, Holds next (ready k) (l k)
  apart : ∀ {k k' a}, a ∈ l k → a ∈ l k' → k = k'

variable [DecidableEq ι] [DecidableEq κ]
variable (h : Lines next ready l)
include h

theorem Lines.push (ha : ∀ k, a ∉ l k) (k : κ) :
    Lines (push next (ready k) a).1 (update ready k (push next (ready k) a).2)
      (update l k (l k ++ [a])) := by
  refine ⟨fun k' => ?_,fun {k1 k2 b} hb hb' => ?_⟩
  · by_cases hk : k' = k
    · subst hk
      rw [update_self,update_self]
      exact (h.holds k').push (ha k')
    · rw [update_of_ne hk,update_of_ne hk]
      -- the nodes of another queue are neither `a` nor the tail of this one
      refine (h.holds k').congr fun b hb => push_frame _ _ ?_ fun htail => ?_
      · rintro rfl
        exact ha k' hb
      · exact hk (h.apart hb ((h.holds k).tail_mem htail))
  · have hmem : ∀ k', b ∈ update l k (l k ++ [a]) k' → b ∈ l k' ∨ b = a ∧ k' = k := by
      intro k' hb
      by_cases hk : k' = k
      · subst hk
        simpa using hb
      · rw [update_of_ne hk] at hb
        exact Or.inl hb
    rcases hmem k1 hb with h1 | ⟨rfl,rfl⟩ <;> rcases hmem k2 hb' with h2 | ⟨hba,rfl⟩
    · exact h.apart h1 h2
    · exact absurd (hba ▸ h1) (ha k1)
    · exact absurd h2 (ha k2)
    · rfl

omit [DecidableEq ι] in
theorem Lines.replace {q : Queue ι} {l' : List ι} (hq : Holds next' q l')
    (hl : ∀ b ∈ l', b ∈ l k) (hframe : ∀ b ∉ l k, next' b = next b) :
    Lines next' (update ready k q) (update l k l') := by
  have hsub : ∀ {k' b}, b ∈ update l k l' k' → b ∈ l k' := by
    intro k' b hb
    by_cases hk : k' = k
    · subst hk
      rw [update_self] at hb
      exact hl b hb
    · rwa [update_of_ne hk] at hb
  refine ⟨fun k' => ?_,fun hb hb' => h.apart (hsub hb) (hsub hb')⟩
  by_cases hk : k' = k
  · subst hk
    rw [update_self,update_self]
    exact hq
  · rw [update_of_ne hk,update_of_ne hk]
    exact (h.holds k').congr fun b hb => hframe b fun hbk => hk (h.apart hb hbk)

theorem Lines.pop_cons {rest : List ι} (hl : l k = a :: rest) :
    ∃ q, pop next (ready k) = some (a, update next a none, q) ∧
      Lines (update next a none) (update ready k q) (update l k rest) := by
  obtain ⟨q,hpop,hq⟩ := (hl ▸ h.holds k : Holds next (ready k) (a :: rest)).pop_cons
  refine ⟨q,hpop,h.replace hq (fun b hb => hl ▸ mem_cons_of_mem a hb)
    fun c hc => update_of_ne ?_ _ _⟩
  rintro rfl
  exact hc (hl ▸ mem_cons_self)

theorem Lines.pop {q : Queue ι}
    (hpop : pop next (ready k) = some (a, next', q)) : a ∈ l k ∧ l k = a :: (l k).erase a ∧
      Lines next' (update ready k q) (update l k ((l k).erase a)) := by
  cases hl : l k with
  | nil =>
    have hhead := (h.holds k).head_eq
    rw [hl] at hhead
    simp [LinkedQueue.pop,hhead] at hpop
  | cons b rest =>
    obtain ⟨q',hpop',hq⟩ := h.pop_cons hl
    obtain ⟨rfl,rfl,rfl⟩ : b = a ∧ update next b none = next' ∧ q' = q := by
      simpa using hpop'.symm.trans hpop
    rw [erase_cons_head]
    exact ⟨mem_cons_self,rfl,hq⟩

end

end GaiaKernel.LinkedQueue
