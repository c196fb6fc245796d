import GaiaKernel.Memory.LeafSpec
import GaiaKernel.Memory.Uvm

/-! # Frames behind leaves are allocated

`FrameSafe` adds to `Tables` that a borrowed frame is allocated and is nobody's page table. Together
they say that no present leaf of a live space points to a free frame.
-/
namespace GaiaKernel
variable {lowPd r f pt : U64} {ph ph' : Phys} {own own' : Owner}

/-- The frame may be lent out: it is allocated and is not a page table. -/
structure Lendable (lowPd : U64) (ph : Phys) (own : Owner) (g : U64) : Prop where
  taken : Taken ph.pmm g
  ne_low : g ≠ lowPd
  page : ∀ r p, own g = some (r, p) → p.length = 4

structure FrameSafe (lowPd : U64) (ph : Phys) (own : Owner) : Prop where
  tables : Tables lowPd ph own
  shared : ∀ r q e, LeafAt ph own r q e → has e vmmShared = true →
    Lendable lowPd ph own (tableOf e)

def SameRoots (own own' : Owner) : Prop := ∀ x, own' x = some (x, []) ↔ own x = some (x, [])

def NotLent (ph : Phys) (own : Owner) (g : U64) : Prop :=
  ∀ r q e, LeafAt ph own r q e → has e vmmShared = true → tableOf e ≠ g

variable {e g : U64} {i : BitVec 9} {p q : Path}

theorem LeafAt.length (h : LeafAt ph own r q e) : q.length = 4 := by
  obtain ⟨_,_,_,rfl,hp,_⟩ := h
  simp [hp]

theorem Tables.root_of_leafAt (h : Tables lowPd ph own)
    (hl : LeafAt ph own r q e) : own r = some (r, []) := by
  obtain ⟨_,_,_,_,_,ho,_⟩ := hl
  exact h.root ho

theorem FrameSafe.taken_of_leafAt (h : FrameSafe lowPd ph own)
    (hl : LeafAt ph own r q e) : Taken ph.pmm (tableOf e) := by
  cases hs : has e vmmShared with
  | true => exact (h.shared r q e hl hs).taken
  | false =>
    obtain ⟨pt,i,p,_,hp,ho,rfl,hpres⟩ := hl
    exact h.tables.taken (h.tables.leaf ho hp hpres hs)

section
variable (h : Tables lowPd ph own)
include h

theorem Tables.owner_of_leafAt
    (hl : LeafAt ph own r q e) (hs : has e vmmShared = false) : own (tableOf e) = some (r, q) := by
  obtain ⟨pt,i,p,rfl,hp,ho,rfl,hpres⟩ := hl
  exact h.leaf ho hp hpres hs

theorem Tables.leaf_of_owner
    (hg : own g = some (r, i :: p)) (ho : own pt = some (r, p)) (hp : p.length = 3)
    (he : ph.mem pt i = e) : tableOf e = g ∧ has e vmmShared = false := by
  obtain ⟨_,_,t,ho',_,ht,hs⟩ := h.parent hg
  cases h.inj ho' ho
  rw [he] at ht hs
  exact ⟨ht,hs hp⟩

theorem Tables.leafAt_unique {e' : U64}
    (hl : LeafAt ph own r q e) (hl' : LeafAt ph own r q e') : e = e' := by
  obtain ⟨pt,i,p,rfl,_,ho,he,_⟩ := hl
  obtain ⟨pt',i',p',hq,_,ho',he',_⟩ := hl'
  cases hq
  cases h.inj ho ho'
  exact he.symm.trans he'

end

section
variable (hg : Grown ph own ph' own')
include hg

theorem Grown.owner_none (ht : Taken ph.pmm g) (ho : own g = none) : own' g = none := by
  by_contra hc
  obtain ⟨⟨r,p⟩,hn⟩ := Option.ne_none_iff_exists'.mp hc
  rcases hg.new hn with h | ⟨_,_,_,h,_⟩
  · rw [ho] at h; cases h
  · exact h ht

theorem Grown.sameRoots : SameRoots own own' := by
  intro x
  constructor
  · intro hx
    rcases hg.new hx with h | ⟨_,h,_⟩
    · exact h
    · exact absurd rfl h
  · exact hg.ext

theorem Grown.lendable (h : Lendable lowPd ph own g) : Lendable lowPd ph' own' g := by
  refine ⟨hg.taken h.taken,h.ne_low,fun r p hp => ?_⟩
  rcases hg.new hp with h1 | ⟨_,_,_,h1,_⟩
  · exact h.page r p h1
  · exact absurd h.taken h1

end

variable (h : FrameSafe lowPd ph own)
include h

theorem FrameSafe.grow (ht : Tables lowPd ph' own')
    (hg : Grown ph own ph' own') : FrameSafe lowPd ph' own' :=
  ⟨ht,fun r q e hl hs => hg.lendable (h.shared r q e ((hg.leafAt_iff r q e).mp hl) hs)⟩

omit h in
theorem Lendable.setPage (h : Lendable lowPd ph own g) (hp : p.length = 3) :
    Lendable lowPd (ph.write pt i e) (GaiaKernel.setPage own r (i :: p) (leafPage e)) g := by
  refine ⟨h.taken,h.ne_low,fun r' p' ho => ?_⟩
  rcases setPage_cases ho with ⟨_,hn⟩ | ⟨ho,_⟩
  · cases hn; simp [hp]
  · exact h.page r' p' ho

theorem FrameSafe.writeLeaf
    (ho : own pt = some (r, p)) (hp : p.length = 3) (he : Placeable lowPd ph own r (i :: p) e)
    (hlend : has e vmmShared = true → has e vmmPresent = true → Lendable lowPd ph own (tableOf e)) :
    FrameSafe lowPd (ph.write pt i e) (setPage own r (i :: p) (leafPage e)) := by
  refine ⟨h.tables.writeLeaf ho hp he,fun r' q' e' hl hs => ?_⟩
  have hl' := (h.tables.leafAt_writeLeaf ho hp he r' q' e').mp hl
  split_ifs at hl' with hq
  · obtain ⟨rfl,hpres⟩ := hl'
    exact (hlend hs hpres).setPage hp
  · exact (h.shared r' q' e' hl' hs).setPage hp

omit h in
theorem setPage_sameRoots {g : Option U64} (hq : q ≠ [])
    (hf : ∀ x, g = some x → own x = none ∨ own x = some (r, q)) :
    SameRoots own (setPage own r q g) := by
  intro x
  have hne : ((x, []) : U64 × Path) ≠ (r, q) := fun hc => hq (Prod.mk.inj hc).2.symm
  constructor
  · intro hx
    rcases setPage_cases hx with ⟨_,hn⟩ | ⟨hx,_⟩
    · exact absurd hn hne
    · exact hx
  · exact fun hx => setPage_keep hf hx hne

theorem FrameSafe.freeFrame (hf : IsFrame f) (ho : own f = none)
    (hl : f ≠ lowPd) (hn : NotLent ph own f) : FrameSafe lowPd (ph.freeFrame f) own := by
  refine ⟨h.tables.freeFrame hf ho hl,fun r q e hleaf hs => ?_⟩
  have hle := h.shared r q e hleaf hs
  refine ⟨taken_freeFrame.mpr ⟨hle.taken,fun hc => ?_⟩,hle.ne_low,hle.page⟩
  exact hn r q e hleaf hs ((isFrame_tableOf e).ext hf hc)

theorem FrameSafe.of_tables (ht : Tables lowPd ph' own)
    (hleaf : ∀ t r p, own t = some (r, p) → p.length = 3 → ph'.mem t = ph.mem t)
    (htaken : ∀ {g}, Taken ph.pmm g → Taken ph'.pmm g) : FrameSafe lowPd ph' own := by
  refine ⟨ht,fun r q e hl hs => ?_⟩
  have hle := h.shared r q e ((leafAt_congr hleaf r q e).mp hl) hs
  exact ⟨htaken hle.taken,hle.ne_low,hle.page⟩

omit h in
theorem Tables.mem_zeroFrame (h : Tables lowPd ph own) (hf : Fresh ph f ph') {t : U64}
    (ht : own t ≠ none ∨ t = lowPd) : (ph'.zeroFrame f).mem t = ph.mem t := by
  have htf : t ≠ f := by
    rintro rfl
    rcases ht with ht | ht
    · exact ht (h.owner_none hf)
    · exact h.ne_lowPd hf ht.symm
  simp [Phys.zeroFrame,htf,hf.mem]

theorem FrameSafe.allocZero (hf : Fresh ph f ph') : FrameSafe lowPd (ph'.zeroFrame f) own ∧
      ∀ r q e, LeafAt (ph'.zeroFrame f) own r q e ↔ LeafAt ph own r q e := by
  have hmem : ∀ {t}, own t ≠ none ∨ t = lowPd → (ph'.zeroFrame f).mem t = ph.mem t :=
    fun ht => h.tables.mem_zeroFrame hf ht
  have hleaf : ∀ t r p, own t = some (r, p) → p.length = 3 → (ph'.zeroFrame f).mem t = ph.mem t :=
    fun t r p ho _ => hmem (Or.inl (by simp [ho]))
  refine ⟨h.of_tables (h.tables.congr (fun t i ht => ?_) fun g _ hg => hf.taken hg) hleaf hf.taken,
    leafAt_congr hleaf⟩
  rw [hmem ht]
  exact SameShape.refl _

end GaiaKernel
