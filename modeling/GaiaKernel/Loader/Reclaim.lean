import GaiaKernel.Loader.Process
import GaiaKernel.Memory.Enclosed

/-! # Teardown gives back exactly what a space owns

`free_user_pml4` walks the tree of the space once. It gives back exactly the nodes of the tree:
below each table those of its subtree, and of the leaves the private ones.
-/
namespace GaiaKernel
open List Set
variable {lowPd r t g : U64} {ph ph' ph'' : Phys} {own : Owner} {p q : Path} {S T : Set U64}

/-- Nothing happened but that the frames of `S` were given back. -/
structure Freed (ph : Phys) (S : Set U64) (ph' : Phys) : Prop where
  mem : ph'.mem = ph.mem
  frames : ph'.pmm.bitmapFrames = ph.pmm.bitmapFrames
  taken : ∀ g, IsFrame g → (Taken ph'.pmm g ↔ Taken ph.pmm g ∧ g ∉ S)

theorem Freed.refl (ph : Phys) : Freed ph ∅ ph := ⟨rfl,rfl,by simp⟩

theorem Freed.trans (h : Freed ph S ph') (h' : Freed ph' T ph'') : Freed ph (S ∪ T) ph'' where
  mem := h'.mem.trans h.mem
  frames := h'.frames.trans h.frames
  taken g hg := by rw [h'.taken g hg,h.taken g hg,mem_union,not_or,and_assoc]

theorem freed_freeFrame {f : U64} (hf : IsFrame f) : Freed ph {f} (ph.freeFrame f) where
  mem := rfl
  frames := Pmm.bitmapFrames_pmmFreeFrame ..
  taken g hg := by
    rw [taken_freeFrame]
    exact and_congr_right fun _ => not_congr ⟨hg.ext hf,fun h => h ▸ rfl⟩

theorem Freed.foldl {α : Type*} {f : Phys → α → Phys} {S : α → Set U64} {l : List α}
    (hstep : ∀ b a, a ∈ l → b.mem = ph.mem → Freed b (S a) (f b a)) (hmem : ph'.mem = ph.mem) :
    Freed ph' (⋃ a ∈ l, S a) (l.foldl f ph') := by
  induction l generalizing ph' with
  | nil => simpa using Freed.refl ph'
  | cons a l ih =>
    have h1 := hstep ph' a (by simp) hmem
    have h2 := ih (fun b c hc => hstep b c (by simp [hc])) (h1.mem.trans hmem)
    simpa using h1.trans h2

theorem mem_entrySlots_range {a b : ℕ} (hb : b ≤ 512) (i : BitVec 9) :
    i ∈ (entrySlots.take b).drop a ↔ a ≤ i.toNat ∧ i.toNat < b := by
  rw [entrySlots,← map_take,← map_drop,take_range,Nat.min_eq_left hb]
  simp only [mem_map,mem_drop_iff_getElem,getElem_range,length_range]
  constructor
  · rintro ⟨_,⟨k,hk,rfl⟩,rfl⟩
    rw [BitVec.toNat_ofNat,Nat.mod_eq_of_lt (by omega)]
    omega
  · rintro ⟨ha,hi⟩
    exact ⟨i.toNat,⟨i.toNat - a,by omega,by omega⟩,by simp⟩

def below (own : Owner) (r : U64) (p : Path) : Set U64 := {g | ∃ q, own g = some (r, q) ∧ p <:+ q}

theorem suffix_cases (h : p <:+ q) : q = p ∨ ∃ i, (i :: p) <:+ q := by
  obtain ⟨l,rfl⟩ := h
  rcases eq_nil_or_concat l with rfl | ⟨l',i,rfl⟩
  · exact Or.inl rfl
  · exact Or.inr ⟨i,l',by simp⟩

variable {i : BitVec 9}
section
variable (h : Tables lowPd ph own)
include h
section
variable (ho : own t = some (r, p))
include ho

theorem Tables.below_eq : below own r p = (⋃ i, below own r (i :: p)) ∪ {t} := by
  ext g
  simp only [below,mem_ofPred_eq,mem_union,mem_iUnion,mem_singleton_iff]
  constructor
  · rintro ⟨q,hg,hs⟩
    rcases suffix_cases hs with rfl | ⟨i,hi⟩
    · exact Or.inr (h.inj hg ho)
    · exact Or.inl ⟨i,q,hg,hi⟩
  · rintro (⟨i,q,hg,hi⟩ | rfl)
    · exact ⟨q,hg,(suffix_cons i p).trans hi⟩
    · exact ⟨p,ho,suffix_rfl⟩

theorem Tables.present_of_below
    (hg : g ∈ below own r (i :: p)) : has (ph.mem t i) vmmPresent = true ∧ LowerIndex p i := by
  obtain ⟨q,hg,hs⟩ := hg
  induction q generalizing g with
  | nil => simp at hs
  | cons j q ih =>
    obtain ⟨_,hlow,t',ho',hpres,_⟩ := h.parent hg
    rcases suffix_cons_iff.mp hs with heq | hs
    · cases heq
      rw [h.inj ho ho']
      exact ⟨hpres,hlow⟩
    · exact ih ho' hs

theorem Tables.below_eq_empty
    (hi : has (ph.mem t i) vmmPresent = false) : below own r (i :: p) = ∅ := by
  refine Set.eq_empty_iff_forall_notMem.mpr fun g hg => ?_
  rw [(h.present_of_below ho hg).1] at hi
  cases hi

end

theorem Tables.below_page (hp : p.length = 3) (hg : g ∈ below own r (i :: p)) :
    own g = some (r, i :: p) := by
  obtain ⟨q,hg,hs⟩ := hg
  rcases suffix_cases hs with rfl | ⟨j,hj⟩
  · exact hg
  · have hlen := hj.length_le
    cases q with
    | nil => simp at hlen
    | cons k q =>
      have := (h.parent hg).1
      simp only [length_cons] at hlen
      omega

section
variable (hmem : ph'.mem = ph.mem) (ho : own t = some (r, p))
include hmem ho

theorem Tables.freed_freeLeaf (hp : p.length = 3) (k : BitVec 9) :
    Freed ph' (below own r (k :: p)) (Phys.freeLeaf t ph' k) := by
  unfold Phys.freeLeaf
  rw [hmem]
  have hsub : ∀ g ∈ below own r (k :: p), tableOf (ph.mem t k) = g ∧
      has (ph.mem t k) vmmShared = false :=
    fun g hg => h.leaf_of_owner (h.below_page hp hg) ho hp rfl
  by_cases hpres : (!has (ph.mem t k) vmmPresent) = true
  · simp only [if_pos hpres]
    rw [h.below_eq_empty ho (by simpa using hpres)]
    exact Freed.refl ph'
  simp only [if_neg hpres]
  by_cases hs : has (ph.mem t k) vmmShared = true
  · rw [if_pos hs]
    have : below own r (k :: p) = ∅ := Set.eq_empty_iff_forall_notMem.mpr fun g hg => by
      rw [(hsub g hg).2] at hs
      cases hs
    rw [this]
    exact Freed.refl ph'
  · rw [if_neg hs]
    have hown := h.leaf ho hp (by simpa using hpres) (by simpa using hs)
    have : below own r (k :: p) = {tableOf (ph.mem t k)} := by
      ext g
      constructor
      · exact fun hg => (hsub g hg).1.symm
      · rintro rfl
        exact ⟨_,hown,suffix_rfl⟩
    rw [this]
    exact freed_freeFrame (isFrame_tableOf _)

theorem Tables.freed_freePt
    (hp : p.length = 3) : Freed ph' (below own r p) (Phys.freePt t ph') := by
  unfold Phys.freePt
  have hstep : ∀ b k, k ∈ entrySlots → b.mem = ph.mem →
      Freed b (below own r (k :: p)) (Phys.freeLeaf t b k) :=
    fun b k _ hb => h.freed_freeLeaf hb ho hp k
  have := (Freed.foldl hstep hmem).trans (freed_freeFrame (h.frame ho))
  simpa [h.below_eq ho,mem_entrySlots] using this

theorem Tables.freed_freeTable
    (hp : p.length < 3) {slots : List (BitVec 9)} {child : U64 → Phys → Phys}
    (hslots : ∀ i ∈ slots, LowerIndex p i ∧
      (p = [0#9] → i = 0#9 → has (ph.mem r 0#9) pml4PrivateLow = true))
    (hrest : ∀ i, i ∉ slots → below own r (i :: p) = ∅)
    (hchild : ∀ i t' b, own t' = some (r, i :: p) → b.mem = ph.mem →
      Freed b (below own r (i :: p)) (child t' b)) :
    Freed ph' (below own r p) (Phys.freeTable slots child t ph') := by
  unfold Phys.freeTable
  have hstep : ∀ b i, i ∈ slots → b.mem = ph.mem → Freed b (below own r (i :: p))
      (if (!has (b.mem t i) vmmPresent || has (b.mem t i) vmmPs) = true then b
        else child (tableOf (b.mem t i)) b) := by
    intro b i hi hb
    rw [hb]
    by_cases hpres : has (ph.mem t i) vmmPresent = true
    swap
    · rw [if_pos (by simp [hpres]),h.below_eq_empty ho (by simpa using hpres)]
      exact Freed.refl b
    obtain ⟨hlow,hpriv⟩ := hslots i hi
    obtain ⟨hps,hnext⟩ := h.table ho hp hlow hpres
    rw [if_neg (by simp [hpres,hps])]
    rcases hnext with hn | ⟨h1,h2,_,h4⟩
    · exact hchild i _ b hn hb
    · rw [hpriv h1 h2] at h4
      cases h4
  have := (Freed.foldl hstep hmem).trans (freed_freeFrame (h.frame ho))
  rw [h.below_eq ho]
  convert this using 2
  ext g
  simp only [mem_iUnion,exists_prop]
  constructor
  · rintro ⟨i,hi⟩
    refine ⟨i,?_,hi⟩
    by_contra hc
    rw [hrest i hc] at hi
    exact hi
  · rintro ⟨i,_,hi⟩
    exact ⟨i,hi⟩

end

theorem Tables.freed_freePdptSubtree (hmem : ph'.mem = ph.mem)
    (ho : own t = some (r, [i])) {start : ℕ} (hle : start ≤ 1)
    (hstart : i = 0#9 → start = 0 → has (ph.mem r 0#9) pml4PrivateLow = true)
    (hskip : start = 1 → below own r [0#9, i] = ∅) :
    Freed ph' (below own r [i]) (Phys.freePdptSubtree t start ph') := by
  have hdrop : ∀ j, j ∈ entrySlots.drop start ↔ start ≤ j.toNat := by
    intro j
    have hall : entrySlots.take 512 = entrySlots := take_of_length_le (by simp [entrySlots])
    rw [← hall,mem_entrySlots_range le_rfl]
    exact and_iff_left j.isLt
  refine h.freed_freeTable hmem ho (by simp) (fun j hj => ⟨by simp [LowerIndex],fun hi hj0 => ?_⟩)
    (fun j hj => ?_) fun j t' b hot hb => ?_
  · rw [hdrop,hj0] at hj
    exact hstart (cons.inj hi).1 (by simpa using hj)
  · -- Only slot 0 is ever left out.
    rw [hdrop] at hj
    have hj0 : j = 0#9 := BitVec.eq_of_toNat_eq (by simp; omega)
    rw [hj0]
    exact hskip (by omega)
  · refine h.freed_freeTable hb hot (by simp) (fun k _ => ⟨by simp [LowerIndex],by simp⟩)
      (fun k hk => absurd (mem_entrySlots k) hk) fun k t'' b' hot' hb' => ?_
    exact h.freed_freePt hb' hot' (by simp)

/-- The teardown gives back every frame of the space and nothing else, whether the space kept the
low identity map or made the low gigabyte its own. -/
theorem Tables.freed_freeUserPml4 (hr : own r = some (r, []))
    (hlow : has (ph.mem r 0#9) pml4PrivateLow = true ∨ LowLink lowPd ph own r) :
    Freed ph (below own r []) (Phys.freeUserPml4 r ph) := by
  have hskip : has (ph.mem r 0#9) pml4PrivateLow = false → below own r [0#9, 0#9] = ∅ := by
    intro hpriv
    obtain ⟨pdpt,ho,hpres,hl⟩ := hlow.resolve_left (by simp [hpriv])
    refine Set.eq_empty_iff_forall_notMem.mpr fun g hg => ?_
    -- A table below slot 0 would have to be the shared directory.
    obtain ⟨q,hg,hs⟩ := hg
    obtain ⟨x,hx⟩ : ∃ x, own x = some (r, [0#9, 0#9]) := by
      induction q generalizing g with
      | nil => simp at hs
      | cons j q ih =>
        rcases suffix_cons_iff.mp hs with heq | hs
        · exact ⟨g,heq ▸ hg⟩
        · obtain ⟨_,_,t',ho',_⟩ := h.parent hg
          exact ih t' ho' hs
    obtain ⟨_,_,t',ho',_,ht,_⟩ := h.parent hx
    rw [h.inj ho' ho,hl] at ht
    rw [← ht,h.lowOwner] at hx
    cases hx
  unfold Phys.freeUserPml4
  have h0 : Freed ph (below own r [0#9])
      (if has (ph.mem r 0#9) vmmPresent = true then
        Phys.freePdptSubtree (tableOf (ph.mem r 0#9))
          (if has (ph.mem r 0#9) pml4PrivateLow = true then 0 else 1) ph
      else ph) := by
    by_cases hpres : has (ph.mem r 0#9) vmmPresent = true
    · rw [if_pos hpres]
      have ho := h.below_root hr (by simp) hpres
      by_cases hpriv : has (ph.mem r 0#9) pml4PrivateLow = true
      · rw [if_pos hpriv]
        exact h.freed_freePdptSubtree rfl ho (by omega) (fun _ _ => hpriv) (by simp)
      · rw [if_neg hpriv]
        exact h.freed_freePdptSubtree rfl ho (by omega) (by simp) fun _ => hskip (by simpa using hpriv)
    · rw [if_neg hpres,h.below_eq_empty hr (by simpa using hpres)]
      exact Freed.refl ph
  have hrange : ∀ i, i ∈ (entrySlots.take 256).drop 1 ↔ 1 ≤ i.toNat ∧ i.toNat < 256 :=
    mem_entrySlots_range (by omega)
  have hstep : ∀ b i, i ∈ (entrySlots.take 256).drop 1 → b.mem = ph.mem →
      Freed b (below own r [i]) (if (!has (b.mem r i) vmmPresent) = true then b
        else Phys.freePdptSubtree (tableOf (b.mem r i)) 0 b) := by
    intro b i hi hb
    rw [hb]
    rw [hrange] at hi
    by_cases hpres : has (ph.mem r i) vmmPresent = true
    · rw [if_neg (by simp [hpres])]
      refine h.freed_freePdptSubtree hb (h.below_root hr hi.2 hpres) (by simp) (fun hc => ?_) (by simp)
      rw [hc] at hi
      simp at hi
    · rw [if_pos (by simpa using hpres),h.below_eq_empty hr (by simpa using hpres)]
      exact Freed.refl b
  have := (h0.trans (Freed.foldl hstep h0.mem)).trans (freed_freeFrame (h.frame hr))
  rw [h.below_eq hr]
  convert this using 2
  ext g
  simp only [mem_iUnion,mem_union,exists_prop,hrange]
  constructor
  · rintro ⟨i,hi⟩
    have hlt := (h.present_of_below hr hi).2 rfl
    by_cases hi0 : i = 0#9
    · exact Or.inl (hi0 ▸ hi)
    · refine Or.inr ⟨i,⟨?_,hlt⟩,hi⟩
      by_contra hc
      exact hi0 (BitVec.eq_of_toNat_eq (by simp; omega))
  · rintro (hi | ⟨i,_,hi⟩)
    · exact ⟨0#9,hi⟩
    · exact ⟨i,hi⟩

end

end GaiaKernel
