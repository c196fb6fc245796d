import GaiaKernel.Memory.WalkSpec

/-! # Writing leaves and freeing frames

`Tables.writeLeaf` covers every store the kernel makes into a page table: mapping a fresh
frame, mapping a borrowed one, changing permissions and unmapping.
-/
namespace GaiaKernel
open Option
variable {lowPd r f pt : U64} {ph ph' : Phys} {own own' : Owner} {p : Path} {i : BitVec 9}

def setPage (own : Owner) (r : U64) (q : Path) (f : Option U64) : Owner := fun t =>
  if f = some t then some (r, q) else if own t = some (r, q) then none else own t

/-- The frame a leaf makes a private page: none if the leaf is absent or borrowed. -/
def leafPage (e : U64) : Option U64 :=
  if has e vmmPresent && !has e vmmShared then some (tableOf e) else none

/-- The leaf may be stored for the page with path `q`: its frame, if it becomes a private
page, is taken and is not already in other use. -/
def Placeable (lowPd : U64) (ph : Phys) (own : Owner) (r : U64) (q : Path) (e : U64) : Prop :=
  ∀ g, leafPage e = some g →
    Taken ph.pmm g ∧ g ≠ lowPd ∧ (own g = none ∨ own g = some (r, q))

theorem leafPage_some {e g : U64} (h : leafPage e = some g) :
    has e vmmPresent = true ∧ has e vmmShared = false ∧ tableOf e = g := by
  unfold leafPage at h
  split_ifs at h with hc
  simp only [Bool.and_eq_true,Bool.not_eq_true'] at hc
  exact ⟨hc.1,hc.2,some.inj h⟩

theorem setPage_cases {q : Path} {f : Option U64} {t : U64} {n : U64 × Path}
    (h : setPage own r q f t = some n) :
    (f = some t ∧ n = (r, q)) ∨ (own t = some n ∧ n ≠ (r, q)) := by
  unfold setPage at h
  split_ifs at h with h1 h2
  · exact Or.inl ⟨h1,(some.inj h).symm⟩
  · exact Or.inr ⟨h,fun hc => h2 (hc ▸ h)⟩

theorem setPage_keep {q : Path} {f : Option U64} {t : U64} {n : U64 × Path}
    (hf : ∀ g, f = some g → own g = none ∨ own g = some (r, q)) (ht : own t = some n)
    (hn : n ≠ (r, q)) : setPage own r q f t = some n := by
  unfold setPage
  rw [if_neg,if_neg,ht]
  · rw [ht]; simpa using hn
  · intro hc
    rcases hf t hc with h | h
    · rw [ht] at h; cases h
    · rw [ht] at h; exact hn (some.inj h)

theorem ne_path_of_length {r' : U64} {p' : Path} (hp : p.length = 3) (hp' : p'.length ≤ 3) :
    ((r', p') : U64 × Path) ≠ (r, i :: p) := by
  intro hc
  have := congrArg (fun n => n.2.length) hc
  simp only [List.length_cons] at this
  omega

theorem Tables.writeLeaf (h : Tables lowPd ph own) (ho : own pt = some (r, p))
    (hp : p.length = 3) {e : U64} (he : Placeable lowPd ph own r (i :: p) e) :
    Tables lowPd (ph.write pt i e) (setPage own r (i :: p) (leafPage e)) := by
  have hkeep : ∀ {t n}, own t = some n → n ≠ (r, i :: p) →
      setPage own r (i :: p) (leafPage e) t = some n :=
    fun ht hn => setPage_keep (fun g hg => (he g hg).2.2) ht hn
  have hmem : ∀ x j, ¬ (x = pt ∧ j = i) → (ph.write pt i e).mem x j = ph.mem x j := by
    intro x j hx; simp [Phys.write,hx]
  have hmemPt : (ph.write pt i e).mem pt i = e := by simp [Phys.write]
  have hnotPt : ∀ {x r' p'}, own x = some (r', p') → p'.length ≠ 3 → x ≠ pt := by
    rintro x r' p' hx hl rfl
    cases hx.symm.trans ho
    exact hl hp
  refine ⟨fun {x r' p'} hx => ?_,fun {x x' n} hx hx' => ?_,fun {x n} hx => ?_,
    fun {x n} hx => ?_,fun {x r' p' j} hx hp' hj hpres => ?_,
    fun {x r' p' j} hx hp' hpres hsh => ?_,fun {x r' j p'} hx => ?_,h.lowTaken,h.lowFrame,?_,
    fun j => ?_⟩
  · have hroot : own r' = some (r', []) := by
      rcases setPage_cases hx with ⟨_,hn⟩ | ⟨hx,_⟩
      · cases hn; exact h.root ho
      · exact h.root hx
    exact hkeep hroot (ne_path_of_length hp (by simp))
  · rcases setPage_cases hx with ⟨hf,hn⟩ | ⟨hox,hn⟩ <;>
      rcases setPage_cases hx' with ⟨hf',hn'⟩ | ⟨hox',hn'⟩
    · exact some.inj (hf.symm.trans hf')
    · exact absurd hn hn'
    · exact absurd hn' hn
    · exact h.inj hox hox'
  · rcases setPage_cases hx with ⟨hf,_⟩ | ⟨hox,_⟩
    · exact (he x hf).1
    · exact h.taken hox
  · rcases setPage_cases hx with ⟨hf,_⟩ | ⟨hox,_⟩
    · rw [← (leafPage_some hf).2.2]; exact isFrame_tableOf e
    · exact h.frame hox
  · rcases setPage_cases hx with ⟨_,hn⟩ | ⟨hox,_⟩
    · cases hn; simp only [List.length_cons] at hp'; omega
    · have hxpt := hnotPt hox (by omega)
      rw [hmem x j (fun hc => hxpt hc.1)] at hpres ⊢
      have hr := hnotPt (h.root hox) (by simp)
      rw [hmem r' 0#9 (fun hc => hr hc.1)]
      obtain ⟨h1,h2 | h2⟩ := h.table hox hp' hj hpres
      · exact ⟨h1,Or.inl (hkeep h2 (ne_path_of_length hp (by simp; omega)))⟩
      · exact ⟨h1,Or.inr h2⟩
  · rcases setPage_cases hx with ⟨_,hn⟩ | ⟨hox,_⟩
    · cases hn; simp only [List.length_cons] at hp'; omega
    · by_cases hxt : x = pt ∧ j = i
      · obtain ⟨rfl,rfl⟩ := hxt
        cases hox.symm.trans ho
        rw [hmemPt] at hpres hsh ⊢
        simp [setPage,leafPage,hpres,hsh]
      · rw [hmem x j hxt] at hpres hsh ⊢
        refine hkeep (h.leaf hox hp' hpres hsh) fun hc => hxt ?_
        cases hc
        exact ⟨h.inj hox ho,rfl⟩
  · rcases setPage_cases hx with ⟨hf,hn⟩ | ⟨hox,hn⟩
    · cases hn
      obtain ⟨h1,h2,h3⟩ := leafPage_some hf
      refine ⟨by omega,fun hc => by rw [hc] at hp; simp at hp,pt,
        hkeep ho (ne_path_of_length hp (by omega)),?_,?_,fun _ => ?_⟩ <;> rw [hmemPt] <;> assumption
    · obtain ⟨h1,h2,t',h3,h4,h5,h6⟩ := h.parent hox
      have hxt : ¬ (t' = pt ∧ j = i) := by
        rintro ⟨rfl,rfl⟩
        cases h3.symm.trans ho
        exact hn rfl
      refine ⟨h1,h2,t',hkeep h3 (ne_path_of_length hp (by omega)),?_,?_,?_⟩ <;>
        rw [hmem t' j hxt] <;> assumption
  · unfold setPage
    rw [if_neg,if_neg,h.lowOwner]
    · rw [h.lowOwner]; simp
    · exact fun hc => (he lowPd hc).2.1 rfl
  · rw [hmem lowPd j fun hc => h.ne_low ho hc.1.symm]
    exact h.lowHuge j

def SetsLeaf (ph : Phys) (own : Owner) (ph' : Phys) (own' : Owner) (r : U64) (q : Path)
    (e : U64) : Prop :=
  ∀ r' q' e', LeafAt ph' own' r' q' e' ↔
    if r' = r ∧ q' = q then e' = e ∧ has e vmmPresent = true else LeafAt ph own r' q' e'

theorem Tables.leafAt_writeLeaf (h : Tables lowPd ph own) (ho : own pt = some (r, p))
    (hp : p.length = 3) {e : U64} (he : Placeable lowPd ph own r (i :: p) e) :
    SetsLeaf ph own (ph.write pt i e) (setPage own r (i :: p) (leafPage e)) r (i :: p) e := by
  intro r' q' e'
  have hf : ∀ g, leafPage e = some g → own g = none ∨ own g = some (r, i :: p) :=
    fun g hg => (he g hg).2.2
  by_cases hq : r' = r ∧ q' = i :: p
  · obtain ⟨rfl,rfl⟩ := hq
    rw [if_pos ⟨rfl,rfl⟩]
    constructor
    · rintro ⟨pt',j,p',hq,hp',ho',hmem,hpres⟩
      cases hq
      rcases setPage_cases ho' with ⟨_,hn⟩ | ⟨ho',_⟩
      · exact absurd hn (ne_path_of_length hp (by omega))
      · cases h.inj ho' ho
        have : e = e' := by simpa [Phys.write] using hmem
        subst this
        exact ⟨rfl,hpres⟩
    · rintro ⟨rfl,hpres⟩
      exact ⟨pt,i,p,rfl,hp,setPage_keep hf ho (ne_path_of_length hp (by omega)),
        by simp [Phys.write],hpres⟩
  · rw [if_neg hq]
    have hne : ∀ {pt' j p'}, q' = j :: p' → own pt' = some (r', p') → ¬ (pt' = pt ∧ j = i) := by
      rintro pt' j p' hq' ho' ⟨rfl,rfl⟩
      cases ho'.symm.trans ho
      exact hq ⟨rfl,hq'⟩
    constructor
    · rintro ⟨pt',j,p',hq',hp',ho',hmem,hpres⟩
      rcases setPage_cases ho' with ⟨_,hn⟩ | ⟨ho',_⟩
      · exact absurd hn (ne_path_of_length hp (by omega))
      · exact ⟨pt',j,p',hq',hp',ho',by simpa [Phys.write,hne hq' ho'] using hmem,hpres⟩
    · rintro ⟨pt',j,p',hq',hp',ho',hmem,hpres⟩
      exact ⟨pt',j,p',hq',hp',setPage_keep hf ho' (ne_path_of_length hp (by omega)),
        by simpa [Phys.write,hne hq' ho'] using hmem,hpres⟩

theorem taken_freeFrame {g : U64} :
    Taken (ph.freeFrame f).pmm g ↔ Taken ph.pmm g ∧ g.toNat / 4096 ≠ f.toNat / 4096 := by
  unfold Taken Phys.freeFrame
  simp only [Pmm.bitmapFrames_pmmFreeFrame,Pmm.bitmapTest_pmmFreeFrame,Bool.and_eq_true,
    Bool.not_eq_true',decide_eq_false_iff_not,not_and]
  constructor
  · rintro ⟨h1,h2,h3⟩
    exact ⟨⟨h1,h2⟩,fun hc => h3 hc h1⟩
  · rintro ⟨⟨h1,h2⟩,h3⟩
    exact ⟨h1,h2,fun hc => absurd hc h3⟩

theorem Tables.freeFrame (h : Tables lowPd ph own) (hf : IsFrame f) (ho : own f = none)
    (hl : f ≠ lowPd) : Tables lowPd (ph.freeFrame f) own := by
  refine h.congr (fun t i _ => SameShape.refl _) fun g hg hgt => taken_freeFrame.mpr ⟨hgt,?_⟩
  intro hc
  rcases hg with hg | rfl
  · obtain ⟨n,hn⟩ := ne_none_iff_exists'.mp hg
    rw [(h.frame hn).ext hf hc] at hg
    exact hg ho
  · exact hl (h.lowFrame.ext hf hc).symm

end GaiaKernel
