import GaiaKernel.Memory.Entry

/-! # Who owns which frame

Every frame of a user address space is a node of its tree of tables: its owner is the root and the
path of indices that leads to it, deepest index first. A path of length at most three is a table,
one of length four a page. `Tables` says that memory and the owners agree. The one table that
several trees share is the page directory of the low identity map, which holds nothing but huge
pages.
-/
namespace GaiaKernel

abbrev Path := List (BitVec 9)
abbrev Owner := U64 → Option (U64 × Path)

def Taken (p : Pmm) (f : U64) : Prop :=
  f.toNat / 4096 < p.bitmapFrames ∧ p.bitmapTest (f.toNat / 4096) = true

def FreeInPmm (p : Pmm) (f : U64) : Prop :=
  f.toNat / 4096 < p.bitmapFrames ∧ p.bitmapTest (f.toNat / 4096) = false

def LowerIndex (p : Path) (i : BitVec 9) : Prop := p = [] → i.toNat < 256

structure Tables (lowPd : U64) (ph : Phys) (own : Owner) : Prop where
  root : ∀ {t r p}, own t = some (r, p) → own r = some (r, [])
  inj : ∀ {t t' n}, own t = some n → own t' = some n → t = t'
  taken : ∀ {t n}, own t = some n → Taken ph.pmm t
  frame : ∀ {t n}, own t = some n → IsFrame t
  table : ∀ {t r p i}, own t = some (r, p) → p.length < 3 → LowerIndex p i →
    has (ph.mem t i) vmmPresent = true → has (ph.mem t i) vmmPs = false ∧
      (own (tableOf (ph.mem t i)) = some (r, i :: p) ∨
        p = [0#9] ∧ i = 0#9 ∧ tableOf (ph.mem t i) = lowPd ∧
          has (ph.mem r 0#9) pml4PrivateLow = false)
  leaf : ∀ {t r p i}, own t = some (r, p) → p.length = 3 →
    has (ph.mem t i) vmmPresent = true → has (ph.mem t i) vmmShared = false →
      own (tableOf (ph.mem t i)) = some (r, i :: p)
  parent : ∀ {t r i p}, own t = some (r, i :: p) → p.length < 4 ∧ LowerIndex p i ∧
    ∃ t', own t' = some (r, p) ∧ has (ph.mem t' i) vmmPresent = true ∧
      tableOf (ph.mem t' i) = t ∧ (p.length = 3 → has (ph.mem t' i) vmmShared = false)
  lowTaken : Taken ph.pmm lowPd
  lowFrame : IsFrame lowPd
  lowOwner : own lowPd = none
  lowHuge : ∀ i, has (ph.mem lowPd i) vmmPresent = true ∧ has (ph.mem lowPd i) vmmPs = true

theorem Tables.ne_low {lowPd g : U64} {ph : Phys} {own : Owner} {n : U64 × Path}
    (h : Tables lowPd ph own) (ho : own g = some n) : g ≠ lowPd := by
  rintro rfl
  rw [h.lowOwner] at ho
  cases ho

section
variable {lowPd t r : U64} {ph : Phys} {own : Owner} {i j k : BitVec 9} (h : Tables lowPd ph own)
include h

theorem Tables.below_root (hr : own r = some (r, [])) (hi : i.toNat < 256)
    (hpres : has (ph.mem r i) vmmPresent = true) : own (tableOf (ph.mem r i)) = some (r, [i]) :=
  (h.table hr (by simp) (fun _ => hi) hpres).2.resolve_right (by simp)

theorem Tables.below_pd (ho : own t = some (r, [j, k])) (hpres : has (ph.mem t i) vmmPresent = true) :
    has (ph.mem t i) vmmPs = false ∧ own (tableOf (ph.mem t i)) = some (r, [i, j, k]) := by
  obtain ⟨hps,hn⟩ := h.table ho (by simp) (fun hc => by cases hc) hpres
  exact ⟨hps,hn.resolve_right (by simp)⟩

end

/-- Path of the page table that holds the leaf of an address. -/
def tablePath (va : U64) : Path := [pdIndex va, pdptIndex va, pml4Index va]
def pagePath (va : U64) : Path := ptIndex va :: tablePath va

def LeafAt (ph : Phys) (own : Owner) (r : U64) (q : Path) (e : U64) : Prop :=
  ∃ pt i p, q = i :: p ∧ p.length = 3 ∧ own pt = some (r, p) ∧ ph.mem pt i = e ∧
    has e vmmPresent = true

theorem leafAt_congr {ph ph' : Phys} {own : Owner}
    (h : ∀ t r p, own t = some (r, p) → p.length = 3 → ph'.mem t = ph.mem t) (r : U64) (q : Path)
    (e : U64) : LeafAt ph' own r q e ↔ LeafAt ph own r q e := by
  constructor
  · rintro ⟨pt,i,p,hq,hp,ho,he,hpres⟩
    exact ⟨pt,i,p,hq,hp,ho,by rw [← h pt r p ho hp]; exact he,hpres⟩
  · rintro ⟨pt,i,p,hq,hp,ho,he,hpres⟩
    exact ⟨pt,i,p,hq,hp,ho,by rw [h pt r p ho hp]; exact he,hpres⟩

/-- Nothing but tables was added: the leaves of every space are those of before. -/
structure Grown (ph : Phys) (own : Owner) (ph' : Phys) (own' : Owner) : Prop where
  ext : ∀ {t n}, own t = some n → own' t = some n
  new : ∀ {t r p}, own' t = some (r, p) → own t = some (r, p) ∨
    own t = none ∧ p ≠ [] ∧ p.length ≤ 3 ∧ ¬ Taken ph.pmm t ∧
      (p.length = 3 → ∀ i, ph'.mem t i = 0#64)
  leaf : ∀ {t r p}, own t = some (r, p) → p.length = 3 → ph'.mem t = ph.mem t
  other : ∀ {t}, own' t = none → ph'.mem t = ph.mem t
  taken : ∀ {f}, Taken ph.pmm f → Taken ph'.pmm f
  frames : ph'.pmm.bitmapFrames = ph.pmm.bitmapFrames
  keep : ∀ {t r p i}, own t = some (r, p) → p.length < 3 → has (ph.mem t i) vmmPresent = true →
    SameShape (ph.mem t i) (ph'.mem t i)
  link : ∀ {t r p i}, own' t = some (r, p) → p.length < 3 → has (ph'.mem t i) vmmPresent = true →
    own' (tableOf (ph'.mem t i)) = none → own t = some (r, p) ∧
      has (ph.mem t i) vmmPresent = true ∧ tableOf (ph.mem t i) = tableOf (ph'.mem t i)

namespace Grown
variable {ph ph' ph'' : Phys} {own own' own'' : Owner}

theorem refl (ph : Phys) (own : Owner) : Grown ph own ph own :=
  ⟨id,Or.inl,fun _ _ => rfl,fun _ => rfl,id,rfl,fun _ _ _ => SameShape.refl _,
    fun h _ hp _ => ⟨h,hp,rfl⟩⟩

section
variable (h : Grown ph own ph' own')
include h

theorem none_of_none {t : U64} (ht : own' t = none) : own t = none := by
  by_contra hc
  obtain ⟨n,hn⟩ := Option.ne_none_iff_exists'.mp hc
  rw [h.ext hn] at ht
  cases ht

theorem trans (h' : Grown ph' own' ph'' own'') : Grown ph own ph'' own'' where
  ext ht := h'.ext (h.ext ht)
  new ht := by
    rcases h'.new ht with h1 | ⟨h1,h2,h3,h4,h5⟩
    · rcases h.new h1 with h6 | ⟨h6,h7,h8,h9,h10⟩
      · exact Or.inl h6
      · refine Or.inr ⟨h6,h7,h8,h9,fun hp i => ?_⟩
        rw [h'.leaf h1 hp]
        exact h10 hp i
    · exact Or.inr ⟨h.none_of_none h1,h2,h3,fun ht' => h4 (h.taken ht'),h5⟩
  leaf ht hp := (h'.leaf (h.ext ht) hp).trans (h.leaf ht hp)
  other ht := (h'.other ht).trans (h.other (h'.none_of_none ht))
  taken ht := h'.taken (h.taken ht)
  frames := h'.frames.trans h.frames
  keep ht hp hpres := by
    have h1 := h.keep ht hp hpres
    exact h1.trans (h'.keep (h.ext ht) hp (h1.present.trans hpres))
  link ht hp hpres hn := by
    obtain ⟨h1,h2,h3⟩ := h'.link ht hp hpres hn
    rw [← h3] at hn ⊢
    exact h.link h1 hp h2 (h'.none_of_none hn)

theorem leafAt_iff (r : U64) (q : Path) (e : U64) :
    LeafAt ph' own' r q e ↔ LeafAt ph own r q e := by
  constructor
  · rintro ⟨pt,i,p,hq,hp,ho,he,hpres⟩
    rcases h.new ho with h1 | ⟨_,_,_,_,hz⟩
    · exact ⟨pt,i,p,hq,hp,h1,by rw [← h.leaf h1 hp]; exact he,hpres⟩
    · rw [← he,hz hp i] at hpres
      exact absurd hpres (by decide)
  · rintro ⟨pt,i,p,hq,hp,ho,he,hpres⟩
    exact ⟨pt,i,p,hq,hp,h.ext ho,by rw [h.leaf ho hp]; exact he,hpres⟩

end

end Grown

end GaiaKernel
