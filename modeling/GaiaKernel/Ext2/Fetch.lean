import Mathlib.Order.Interval.Finset.Nat
import GaiaKernel.Ext2.Reading

/-! # Which pages a read needs

A call that needs a set of pages asks the device for those that are not in memory, each once as long
as the device answers. Whether it gets them is settled by the answers to the next requests, as many
as there are pages missing.
-/
namespace GaiaKernel.Ext2
open Bytes Fallible Prog Contract List Whenever Option
variable {v v' : Volume} {S T : Finset ℕ}

namespace Lazy
variable (lz : Lazy)

def absent (S : Finset ℕ) : Finset ℕ := S.filter fun p => lz.loaded p = false

/-- The pages of `S` have been read in. -/
def fetch (S : Finset ℕ) : Lazy where
  loaded p := lz.loaded p || decide (p ∈ S)
  disk := lz.disk
  answers := lz.answers
  asked := lz.asked + (lz.absent S).card

theorem fetch_empty : lz.fetch ∅ = lz := by
  cases lz
  simp [fetch,absent]

theorem absent_union (S T : Finset ℕ) : (lz.absent (S ∪ T)).card =
    (lz.absent S).card + ((lz.fetch S).absent T).card := by
  have hunion : lz.absent (S ∪ T) = lz.absent S ∪ (lz.fetch S).absent T := by
    ext p
    simp only [absent,fetch,Finset.mem_filter,Finset.mem_union,Bool.or_eq_false_iff,
      decide_eq_false_iff_not]
    tauto
  rw [hunion,Finset.card_union_of_disjoint]
  rw [Finset.disjoint_left]
  intro p hp hp'
  simp only [absent,fetch,Finset.mem_filter,Bool.or_eq_false_iff,decide_eq_false_iff_not] at hp hp'
  exact hp'.2.2 hp.1

theorem fetch_fetch (S T : Finset ℕ) : (lz.fetch S).fetch T = lz.fetch (S ∪ T) := by
  have hcard := lz.absent_union S T
  simp only [fetch,Finset.mem_union,Bool.decide_or,Bool.or_assoc] at hcard ⊢
  rw [hcard,Nat.add_assoc]

end Lazy

/-- The device answers the next requests, as many as there are pages of `S` to be read in. -/
def Volume.Answered (v : Volume) (S : Finset ℕ) : Prop :=
  ∀ lz ∈ v.lazy, ∀ n < (lz.absent S).card, lz.answers (lz.asked + n) = true

instance (v : Volume) (S : Finset ℕ) : Decidable (v.Answered S) :=
  inferInstanceAs (Decidable (∀ _ ∈ _, _))

def Fetched (v : Volume) (S : Finset ℕ) (v' : Volume) : Prop := v'.lazy = v.lazy.map (·.fetch S)

theorem answered_empty (v : Volume) : v.Answered ∅ := by
  intro lz _ n hn
  simp [Lazy.absent] at hn

theorem fetched_empty (v : Volume) : Fetched v ∅ v := by
  unfold Fetched
  cases v.lazy with
  | none => rfl
  | some lz => rw [map_some,lz.fetch_empty]

theorem Fetched.trans {v'' : Volume} (h : Fetched v S v') (h' : Fetched v' T v'') :
    Fetched v (S ∪ T) v'' := by
  unfold Fetched at *
  rw [h',h,Option.map_map]
  exact congrArg (v.lazy.map ·) (funext fun lz => lz.fetch_fetch S T)

theorem Fetched.loaded (h : Fetched v S v') {i : ℕ} (hi : i / ext2Page ∈ S) : v'.Loaded i := by
  intro lz hlz
  unfold Fetched at h
  rw [h] at hlz
  obtain ⟨lz0,-,rfl⟩ := map_eq_some_iff.mp hlz
  simp [Lazy.fetch,hi]

theorem Volume.Answered.mono (h : v.Answered T) (hST : S ⊆ T) : v.Answered S := by
  intro lz hlz n hn
  exact h lz hlz n (hn.trans_le (Finset.card_le_card (Finset.filter_subset_filter _ hST)))

theorem answered_union (h : Fetched v S v') :
    v.Answered (S ∪ T) ↔ v.Answered S ∧ v'.Answered T := by
  unfold Fetched at h
  unfold Volume.Answered
  rw [h]
  cases v.lazy with
  | none => simp
  | some lz =>
    simp only [map_some,mem_def,some.injEq,forall_eq',lz.absent_union S T]
    constructor
    · refine fun hall => ⟨fun n hn => hall n (by omega),fun n hn => ?_⟩
      rw [Lazy.fetch,Nat.add_assoc]
      exact hall _ (by omega)
    · rintro ⟨h1,h2⟩ n hn
      by_cases hlt : n < (lz.absent S).card
      · exact h1 n hlt
      · have hrest := h2 (n - (lz.absent S).card) (by omega)
        rwa [Lazy.fetch,Nat.add_assoc,Nat.add_sub_cancel' (not_lt.mp hlt)] at hrest

/-- A program that needs the pages of `S`: it returns `good` once they are in memory, and `bad` if
one of them cannot be read in. -/
structure Fetches {α : Type} (v : Volume) (S : Finset ℕ) (good bad r : α) (v' : Volume) : Prop where
  answered : v.Answered S → r = good ∧ Fetched v S v'
  refused : ¬ v.Answered S → r = bad

theorem fetches_nothing {α : Type} {a b : α} : Fetches v ∅ a b a v :=
  ⟨fun _ => ⟨rfl,fetched_empty v⟩,fun h => absurd (answered_empty v) h⟩

theorem whenever_reads {α : Type} {p : M α} {Q : α → Volume → Prop}
    (h : (reading v fun _ => True).Safe p) (hQ : Whenever p v Q) :
    Whenever p v fun a v' => Reads v v' ∧ Q a v' := fun a ha => ⟨reads_of_reading h,hQ a ha⟩

theorem Fetches.bind {α β : Type} {p : M α} {f : α → M β} {good bad : α} {good' bad' : β}
    (hsafe : (reading v fun _ => True).Safe p) (hp : Whenever p v (Fetches v S good bad))
    (hgood : ∀ v', Reads v v' → Fetched v S v' → Whenever (f good) v' (Fetches v' T good' bad'))
    (hbad : ∀ v', Whenever (f bad) v' fun r _ => r = bad') :
    Whenever (p >>= f) v (Fetches v (S ∪ T) good' bad') := by
  refine (whenever_reads hsafe hp).bind ?_
  rintro a v1 ⟨hreads,ha⟩
  by_cases hS : v.Answered S
  · obtain ⟨rfl,hfetched⟩ := ha.answered hS
    refine (hgood v1 hreads hfetched).mono fun r v2 hr => ⟨fun hST => ?_,fun hST => ?_⟩
    · obtain ⟨h1,h2⟩ := hr.answered ((answered_union hfetched).mp hST).2
      exact ⟨h1,hfetched.trans h2⟩
    · exact hr.refused fun hT => hST ((answered_union hfetched).mpr ⟨hS,hT⟩)
  · obtain rfl := ha.refused hS
    refine (hbad v1).mono fun r v2 hr => ⟨fun hST => ?_,fun _ => hr⟩
    exact absurd (hST.mono Finset.subset_union_left) hS

/-! ### Pages and bytes -/

theorem fetches_loadPage (v : Volume) (page : ℕ) :
    Whenever (loadPage page) v (Fetches v {page} true false) := by
  refine look ?_
  cases hlazy : v.lazy with
  | none =>
    have hanswered : v.Answered {page} := by
      intro lz hlz
      rw [hlazy] at hlz
      cases hlz
    refine whenever_pure ⟨fun _ => ⟨rfl,?_⟩,fun h => absurd hanswered h⟩
    rw [Fetched,hlazy]
    rfl
  | some lz =>
    refine ite (fun hloaded => ?_) fun hloaded => ?_
    · have habsent : lz.absent {page} = ∅ := by simp [Lazy.absent,Finset.filter_singleton,hloaded]
      have hfetch : lz.fetch {page} = lz := by
        cases lz
        simp only [Lazy.fetch,habsent,Finset.card_empty,Nat.add_zero,Finset.mem_singleton]
        congr
        funext p
        by_cases hp : p = page
        · simp [hp] at hloaded ⊢
          exact hloaded
        · simp [hp]
      refine whenever_pure ⟨fun _ => ⟨rfl,?_⟩,fun h => absurd ?_ h⟩
      · rw [Fetched,hlazy,map_some,hfetch]
      · intro lz' hlz' n hn
        obtain rfl := some.inj (hlazy.symm.trans hlz')
        simp [habsent] at hn
    · have habsent : lz.absent {page} = {page} := by
        simp [Lazy.absent,Finset.filter_singleton,hloaded]
      refine ite (fun hanswer => ?_) fun hanswer => ?_
      · refine change (whenever_pure ⟨fun _ => ⟨rfl,?_⟩,fun h => absurd ?_ h⟩)
        · have hloads : Function.update lz.loaded page true =
              fun p => lz.loaded p || decide (p ∈ ({page} : Finset ℕ)) := by
            funext p
            by_cases hp : p = page <;> simp [hp]
          rw [Fetched,hlazy,map_some,Lazy.fetch,habsent,Finset.card_singleton,hloads]
        · intro lz' hlz' n hn
          obtain rfl := some.inj (hlazy.symm.trans hlz')
          rw [habsent,Finset.card_singleton,Nat.lt_one_iff] at hn
          rwa [hn]
      · refine change (whenever_pure ⟨fun h => absurd ?_ hanswer,fun _ => rfl⟩)
        exact h lz hlazy 0 (by simp [habsent])

theorem fetches_pages (v : Volume) (pages : List ℕ) : Whenever (firstOf (fun page => do
      if ← loadPage page then pure none else pure (some ())) pages) v
        (Fetches v pages.toFinset none (some ())) := by
  induction pages generalizing v with
  | nil => exact whenever_pure fetches_nothing
  | cons page pages ih =>
    have hpage : Whenever (do if ← loadPage page then pure none else pure (some ())) v
        (Fetches v {page} none (some ())) := by
      refine (fetches_loadPage v page).bind fun ok v1 h => ?_
      cases ok with
      | true =>
        exact whenever_pure ⟨fun ha => ⟨rfl,(h.answered ha).2⟩,fun hn => absurd (h.refused hn) (by simp)⟩
      | false =>
        exact whenever_pure ⟨fun ha => absurd (h.answered ha).1 (by simp),fun _ => rfl⟩
    rw [toFinset_cons,Finset.insert_eq]
    refine Fetches.bind ?_ hpage (fun v1 _ _ => ih v1) fun v1 => whenever_pure rfl
    refine Safe.bind (safe_page page) fun ok => ?_
    cases ok <;> exact Ok.pure trivial

/-- The pages that hold so many bytes from an offset on. -/
def pagesAt (offset length : ℕ) : Finset ℕ :=
  Finset.Icc (offset / ext2Page) ((offset + length - 1) / ext2Page)

theorem mem_pagesAt {offset length i : ℕ} (hi : offset ≤ i) (hi' : i < offset + length) :
    i / ext2Page ∈ pagesAt offset length :=
  Finset.mem_Icc.mpr ⟨Nat.div_le_div_right hi,Nat.div_le_div_right (by omega)⟩

theorem fetches_ensure {offset length : ℕ} (hlength : 0 < length)
    (hsize : offset + length ≤ v.imageSize) :
    Whenever (ext2LazyEnsure offset length) v (Fetches v (pagesAt offset length) true false) := by
  refine look ?_
  rw [if_neg (by omega),if_neg (by omega)]
  have hpages : (range' (offset / ext2Page)
      ((offset + length - 1) / ext2Page + 1 - offset / ext2Page)).toFinset =
        pagesAt offset length := by
    have hle : offset / ext2Page ≤ (offset + length - 1) / ext2Page :=
      Nat.div_le_div_right (by omega)
    ext p
    rw [List.mem_toFinset,mem_range'_1,pagesAt,Finset.mem_Icc]
    omega
  rw [← hpages]
  refine (fetches_pages v _).bind fun r v1 h => whenever_pure ⟨fun ha => ?_,fun hn => ?_⟩
  · obtain ⟨rfl,hfetched⟩ := h.answered ha
    exact ⟨rfl,hfetched⟩
  · obtain rfl := h.refused hn
    rfl

theorem fetches_bytes {offset length : ℕ} (hlength : 0 < length)
    (hsize : offset + length ≤ v.imageSize) :
    Whenever (ext2Bytes offset length) v (Fetches v (pagesAt offset length) (some offset) none) := by
  refine look ?_
  rw [if_neg (by omega)]
  refine (fetches_ensure hlength hsize).bind fun ok v1 h => ?_
  cases ok with
  | true =>
    exact whenever_pure ⟨fun ha => ⟨rfl,(h.answered ha).2⟩,fun hn => absurd (h.refused hn) (by simp)⟩
  | false => exact change (whenever_pure ⟨fun ha => absurd (h.answered ha).1 (by simp),fun _ => rfl⟩)

end GaiaKernel.Ext2
