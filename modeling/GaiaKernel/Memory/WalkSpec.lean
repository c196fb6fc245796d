import GaiaKernel.Memory.Ownership

/-! # What the walks do to the tables

`walkOrCreate_spec` and `walkOnly_iff` are what everything above uses: growing a tree changes no
leaf of any space, and the page table a walk finds is the one that owns the path.
-/
namespace GaiaKernel
open Function
open Phys (write)
variable {lowPd r f t : U64} {ph ph' : Phys} {own : Owner} {p : Path} {i : BitVec 9}

theorem Tables.congr (h : Tables lowPd ph own)
    (hmem : ∀ t i, own t ≠ none ∨ t = lowPd → SameShape (ph.mem t i) (ph'.mem t i))
    (htaken : ∀ f, own f ≠ none ∨ f = lowPd → Taken ph.pmm f → Taken ph'.pmm f) :
    Tables lowPd ph' own where
  root := h.root
  inj := h.inj
  taken ht := htaken _ (.inl (by simp [ht])) (h.taken ht)
  frame := h.frame
  table {t r p i} ht hp hi hpres := by
    have hs := hmem t i (.inl (by simp [ht]))
    have hr := hmem r 0#9 (.inl (by simp [h.root ht]))
    rw [hs.present] at hpres
    rw [hs.ps,hs.table,hr.privateLow]
    exact h.table ht hp hi hpres
  leaf {t r p i} ht hp hpres hsh := by
    have hs := hmem t i (.inl (by simp [ht]))
    rw [hs.present] at hpres
    rw [hs.shared] at hsh
    rw [hs.table]
    exact h.leaf ht hp hpres hsh
  parent {t r i p} ht := by
    obtain ⟨h1,h2,t',h3,h4,h5,h6⟩ := h.parent ht
    have hs := hmem t' i (.inl (by simp [h3]))
    refine ⟨h1,h2,t',h3,?_,?_,?_⟩
    · rw [hs.present]; exact h4
    · rw [hs.table]; exact h5
    · rw [hs.shared]; exact h6
  lowTaken := htaken _ (.inr rfl) h.lowTaken
  lowFrame := h.lowFrame
  lowOwner := h.lowOwner
  lowHuge i := by
    have hs := hmem lowPd i (.inr rfl)
    rw [hs.present,hs.ps]
    exact h.lowHuge i

/-- A successful allocation: the frame was not taken, is now, and nothing else changed. -/
structure Fresh (ph : Phys) (f : U64) (ph' : Phys) : Prop where
  ne_zero : f ≠ 0#64
  frame : IsFrame f
  low : f.toNat < 2 ^ 39
  free : FreeInPmm ph.pmm f
  mem : ph'.mem = ph.mem
  frames : ph'.pmm.bitmapFrames = ph.pmm.bitmapFrames
  test : ∀ n, ph'.pmm.bitmapTest n = (decide (n = f.toNat / 4096) || ph.pmm.bitmapTest n)

section
variable (h : Fresh ph f ph')
include h

theorem Fresh.not_taken : ¬ Taken ph.pmm f := by
  intro ht
  have := h.free.2
  rw [ht.2] at this
  cases this

theorem Fresh.taken {g : U64} (hg : Taken ph.pmm g) : Taken ph'.pmm g :=
  ⟨by rw [h.frames]; exact hg.1,by rw [h.test,hg.2,Bool.or_true]⟩

theorem Fresh.taken_self : Taken ph'.pmm f :=
  ⟨by rw [h.frames]; exact h.free.1,by rw [h.test]; simp⟩

theorem Fresh.taken_cases {g : U64} (hgf : IsFrame g)
    (hg : Taken ph'.pmm g) : Taken ph.pmm g ∨ g = f := by
  obtain ⟨h1,h2⟩ := hg
  rw [h.frames] at h1
  rw [h.test,Bool.or_eq_true,decide_eq_true_eq] at h2
  rcases h2 with h2 | h2
  · exact .inr (hgf.ext h.frame h2)
  · exact .inl ⟨h1,h2⟩

end

theorem allocFrame_spec (ph : Phys) :
    ph.allocFrame = (0#64, ph) ∨ ∃ f ph', ph.allocFrame = (f, ph') ∧ Fresh ph f ph' := by
  rcases ph.pmm.pmmAllocFrame_spec with ⟨h,_⟩ | ⟨n,hlow,hn,htest,h⟩
  · exact .inl (by simp [Phys.allocFrame,h])
  · refine .inr ⟨BitVec.ofNat 64 (n * 4096),{ ph with pmm := ph.pmm.allocateFrameAt n },
      by simp [Phys.allocFrame,h],?_⟩
    have hle := ph.pmm.framesLe
    have hnat : (BitVec.ofNat 64 (n * 4096)).toNat = n * 4096 := by rw [BitVec.toNat_ofNat]; omega
    have hdiv : (BitVec.ofNat 64 (n * 4096)).toNat / 4096 = n := by omega
    have hpos : 256 ≤ n := hlow
    refine ⟨fun hz => ?_,isFrame_of_lt (by omega) (by omega),by omega,?_,rfl,rfl,fun m => ?_⟩
    · rw [hz] at hnat
      simp at hnat
      omega
    · exact ⟨by rw [hdiv]; exact hn,by rw [hdiv]; exact htest⟩
    · rw [hdiv]; exact Pmm.bitmapTest_allocateFrameAt n m

variable (h : Tables lowPd ph own)
include h

theorem Tables.owner_none (hf : Fresh ph f ph') : own f = none := by
  by_contra hc
  obtain ⟨n,hn⟩ := Option.ne_none_iff_exists'.mp hc
  exact hf.not_taken (h.taken hn)

theorem Tables.ne_lowPd (hf : Fresh ph f ph') : lowPd ≠ f := by
  rintro rfl
  exact hf.not_taken h.lowTaken

theorem Tables.ne_fresh (hf : Fresh ph f ph') (hx : own x = some n) : x ≠ f := by
  rintro rfl
  rw [h.owner_none hf] at hx
  cases hx

omit h in
theorem owner_cases {m : U64 × Path} (hx : update own f (some m) x = some n) :
    x = f ∧ n = m ∨ x ≠ f ∧ own x = some n := by
  rw [update_apply] at hx
  split_ifs at hx with hxf
  · exact .inl ⟨hxf,(Option.some.inj hx).symm⟩
  · exact .inr ⟨hxf,hx⟩

theorem Tables.fresh (hf : Fresh ph f ph') : Tables lowPd ph' own :=
  h.congr (fun t i _ => by rw [hf.mem]; exact SameShape.refl _) fun _ _ hg => hf.taken hg

omit h

theorem mem_link (f t : U64) (i : BitVec 9) (flags x : U64) (j : BitVec 9) :
    ((ph.zeroFrame f).write t i (linkEntry f flags)).mem x j =
      if x = t ∧ j = i then linkEntry f flags else if x = f then 0#64 else ph.mem x j := rfl

section
variable (h : Tables lowPd ph own) (ho : own t = some (r, p)) (hp : p.length < 3)
include h ho hp

theorem Tables.link
    (hi : LowerIndex p i) (habs : has (ph.mem t i) vmmPresent = false) (hf : Fresh ph f ph')
    (flags : U64) : Tables lowPd ((ph'.zeroFrame f).write t i (linkEntry f flags))
      (update own f (some (r, i :: p))) := by
  have hlow := h.ne_lowPd hf
  have hkeep : ∀ {x n}, own x = some n → update own f (some (r, i :: p)) x = some n := by
    intro x n hx; rw [update_of_ne (h.ne_fresh hf hx)]; exact hx
  have hmem : ∀ x j, x ≠ f → ¬ (x = t ∧ j = i) →
      ((ph'.zeroFrame f).write t i (linkEntry f flags)).mem x j = ph.mem x j := by
    intro x j hx hxt
    rw [mem_link,if_neg hxt,if_neg hx,hf.mem]
  have hmemT : ((ph'.zeroFrame f).write t i (linkEntry f flags)).mem t i = linkEntry f flags := by
    rw [mem_link,if_pos ⟨rfl,rfl⟩]
  have hmemF : ∀ j, ((ph'.zeroFrame f).write t i (linkEntry f flags)).mem f j = 0#64 := by
    intro j; rw [mem_link,if_neg (fun hc => h.ne_fresh hf ho hc.1.symm),if_pos rfl]
  have hzero : ∀ m, has 0#64 m = false := by simp [has]
  refine ⟨fun {x r' p'} hx => ?_,fun {x x' n} hx hx' => ?_,fun {x n} hx => ?_,
    fun {x n} hx => ?_,fun {x r' p' j} hx hp' hj hpres => ?_,fun {x r' p' j} hx hp' hpres hsh => ?_,
    fun {x r' j p'} hx => ?_,hf.taken h.lowTaken,h.lowFrame,?_,fun j => ?_⟩
  · rcases owner_cases hx with ⟨rfl,hn⟩ | ⟨_,hx⟩
    · cases hn; exact hkeep (h.root ho)
    · exact hkeep (h.root hx)
  · -- A second owner of the new path would need an entry at the very slot that was empty.
    have habsurd : ∀ {y}, own y = some (r, i :: p) → False := by
      intro y hy
      obtain ⟨_,_,t',ht',hpres,_⟩ := h.parent hy
      rw [h.inj ht' ho,habs] at hpres
      cases hpres
    rcases owner_cases hx with ⟨hxf,hn⟩ | ⟨_,hox⟩ <;> rcases owner_cases hx' with ⟨hxf',hn'⟩ | ⟨_,hox'⟩
    · rw [hxf,hxf']
    · rw [hn] at hox'; exact (habsurd hox').elim
    · rw [hn'] at hox; exact (habsurd hox).elim
    · exact h.inj hox hox'
  · rcases owner_cases hx with ⟨rfl,_⟩ | ⟨_,hx⟩
    · exact hf.taken_self
    · exact hf.taken (h.taken hx)
  · rcases owner_cases hx with ⟨rfl,_⟩ | ⟨_,hx⟩
    · exact hf.frame
    · exact h.frame hx
  · rcases owner_cases hx with ⟨rfl,_⟩ | ⟨hxf,hox⟩
    · rw [hmemF,hzero] at hpres; cases hpres
    · by_cases hxt : x = t ∧ j = i
      · obtain ⟨rfl,rfl⟩ := hxt
        cases hox.symm.trans ho
        rw [hmemT,tableOf_linkEntry flags hf.frame]
        exact ⟨has_linkEntry flags hf.frame (by decide) (by decide) (by decide) (by decide),
          .inl (update_self f _ own)⟩
      · rw [hmem x j hxf hxt] at hpres ⊢
        obtain ⟨h1,h2 | ⟨h2,h3,h4,h5⟩⟩ := h.table hox hp' hj hpres
        · exact ⟨h1,.inl (hkeep h2)⟩
        · refine ⟨h1,.inr ⟨h2,h3,h4,?_⟩⟩
          by_cases hr : r' = t ∧ 0#9 = i
          · obtain ⟨rfl,rfl⟩ := hr
            rw [hmemT]
            exact has_linkEntry flags hf.frame (by decide) (by decide) (by decide) (by decide)
          · rw [hmem r' 0#9 (h.ne_fresh hf (h.root hox)) hr]; exact h5
  · rcases owner_cases hx with ⟨rfl,_⟩ | ⟨hxf,hox⟩
    · rw [hmemF,hzero] at hpres; cases hpres
    · have hxt : ¬ (x = t ∧ j = i) := by
        rintro ⟨rfl,_⟩
        cases hox.symm.trans ho
        omega
      rw [hmem x j hxf hxt] at hpres hsh ⊢
      exact hkeep (h.leaf hox hp' hpres hsh)
  · rcases owner_cases hx with ⟨hxf,hn⟩ | ⟨hxf,hox⟩
    · cases hn
      subst hxf
      refine ⟨by omega,hi,t,hkeep ho,?_,?_,fun hc => by omega⟩
      · rw [hmemT]; exact has_linkEntry_present x flags
      · rw [hmemT]; exact tableOf_linkEntry flags hf.frame
    · obtain ⟨h1,h2,t',h3,h4,h5,h6⟩ := h.parent hox
      have hxt : ¬ (t' = t ∧ j = i) := by
        rintro ⟨rfl,rfl⟩
        rw [habs] at h4; cases h4
      refine ⟨h1,h2,t',hkeep h3,?_,?_,?_⟩ <;> rw [hmem t' j (h.ne_fresh hf h3) hxt] <;> assumption
  · rw [update_of_ne hlow]; exact h.lowOwner
  · rw [hmem lowPd j hlow fun hc => h.ne_low ho hc.1.symm]
    exact h.lowHuge j

theorem grown_link
    (habs : has (ph.mem t i) vmmPresent = false) (hf : Fresh ph f ph') (flags : U64) :
    Grown ph own ((ph'.zeroFrame f).write t i (linkEntry f flags))
      (update own f (some (r, i :: p))) := by
  refine ⟨fun {x n} hx => ?_,fun {x r' p'} hx => ?_,fun {x r' p'} hx hp' => ?_,fun {x} hx => ?_,
    hf.taken,hf.frames,fun {x r' p' j} hx hp' hpres => ?_,fun {x r' p' j} hx hp' hpres hn => ?_⟩
  · rw [update_of_ne (h.ne_fresh hf hx)]; exact hx
  · rcases owner_cases hx with ⟨rfl,hn⟩ | ⟨_,hx⟩
    · cases hn
      refine .inr ⟨h.owner_none hf,by simp,by simp; omega,hf.not_taken,fun _ j => ?_⟩
      rw [mem_link,if_neg (fun hc => h.ne_fresh hf ho hc.1.symm),if_pos rfl]
    · exact .inl hx
  · funext j
    have hxt : ¬ (x = t ∧ j = i) := by
      rintro ⟨rfl,_⟩
      cases hx.symm.trans ho
      omega
    rw [mem_link,if_neg hxt,if_neg (h.ne_fresh hf hx),hf.mem]
  · have hxf : x ≠ f := by rintro rfl; rw [update_self] at hx; cases hx
    rw [update_of_ne hxf] at hx
    funext j
    have hxt : ¬ (x = t ∧ j = i) := by rintro ⟨rfl,_⟩; rw [ho] at hx; cases hx
    rw [mem_link,if_neg hxt,if_neg hxf,hf.mem]
  · have hxt : ¬ (x = t ∧ j = i) := by rintro ⟨rfl,rfl⟩; rw [habs] at hpres; cases hpres
    rw [mem_link,if_neg hxt,if_neg (h.ne_fresh hf hx),hf.mem]
    exact SameShape.refl _
  · by_cases hxt : x = t ∧ j = i
    · obtain ⟨rfl,rfl⟩ := hxt
      rw [mem_link,if_pos ⟨rfl,rfl⟩,tableOf_linkEntry flags hf.frame,update_self] at hn
      cases hn
    · by_cases hxf : x = f
      · rw [mem_link,if_neg hxt,if_pos hxf] at hpres
        exact absurd hpres (by simp [has])
      · rw [update_of_ne hxf] at hx
        rw [mem_link,if_neg hxt,if_neg hxf,hf.mem] at hpres ⊢
        exact ⟨hx,hpres,rfl⟩

theorem Tables.widen : Tables lowPd (ph.write t i (ph.mem t i ||| vmmUser)) own ∧
      Grown ph own (ph.write t i (ph.mem t i ||| vmmUser)) own := by
  have hshape : ∀ x j, SameShape (ph.mem x j) ((ph.write t i (ph.mem t i ||| vmmUser)).mem x j) := by
    intro x j
    by_cases hx : x = t ∧ j = i
    · obtain ⟨rfl,rfl⟩ := hx
      simpa [write] using sameShape_or_user _
    · simpa [write,hx] using SameShape.refl _
  constructor
  · exact h.congr (fun x j _ => hshape x j) (fun _ _ hg => hg)
  · refine ⟨id,.inl,fun {x r' p'} hx hp' => ?_,fun {x} hx => ?_,id,rfl,
      fun _ _ _ => hshape _ _,fun {x r' p' j} hx _ hpres _ => ⟨hx,?_,(hshape x j).table.symm⟩⟩
    · funext j
      have hxt : ¬ (x = t ∧ j = i) := by
        rintro ⟨rfl,_⟩
        cases hx.symm.trans ho
        omega
      simp [write,hxt]
    · funext j
      have hxt : ¬ (x = t ∧ j = i) := by rintro ⟨rfl,_⟩; rw [ho] at hx; cases hx
      simp [write,hxt]
    · rw [← (hshape x j).present]; exact hpres

end

/-- A creating walk in the tree of `r`: which slots of allocated memory it may write, and that
it takes no user access away. -/
structure Walked (lowPd : U64) (ph : Phys) (own : Owner) (r : U64) (ph' : Phys) (own' : Owner) :
    Prop extends Grown ph own ph' own' where
  tables : Tables lowPd ph' own'
  alloc : ∀ {g}, IsFrame g → Taken ph'.pmm g → Taken ph.pmm g ∨ own' g ≠ none
  slot : ∀ {x j}, Taken ph.pmm x → ph'.mem x j = ph.mem x j ∨
    ∃ p, own x = some (r, p) ∧ p.length < 3 ∧ LowerIndex p j
  user : ∀ {x j}, Taken ph.pmm x → has (ph.mem x j) vmmPresent = true →
    has (ph.mem x j) vmmUser = true →
      has (ph'.mem x j) vmmPresent = true ∧ has (ph'.mem x j) vmmUser = true

theorem Tables.walked (h : Tables lowPd ph own) : Walked lowPd ph own r ph own :=
  ⟨Grown.refl ph own,h,fun _ hg => .inl hg,fun _ => .inl rfl,fun _ hp hu => ⟨hp,hu⟩⟩

theorem Walked.trans {ph'' : Phys} {own' own'' : Owner} (h : Walked lowPd ph own r ph' own')
    (h' : Walked lowPd ph' own' r ph'' own'') : Walked lowPd ph own r ph'' own'' where
  toGrown := h.toGrown.trans h'.toGrown
  tables := h'.tables
  alloc hgf hg := by
    rcases h'.alloc hgf hg with hg | hg
    · refine (h.alloc hgf hg).imp id fun hn hc => hn ?_
      exact h'.toGrown.none_of_none hc
    · exact .inr hg
  slot {x j} hx := by
    rcases h'.slot (j := j) (h.taken hx) with he' | ⟨p,ho,hp,hj⟩
    · exact (h.slot hx).imp (he'.trans ·) id
    · -- A table that was allocated before the walk has the owner it had.
      refine .inr ⟨p,?_,hp,hj⟩
      rcases h.new ho with ho | ⟨_,_,_,hn,_⟩
      · exact ho
      · exact absurd hx hn
  user hx hp hu := by
    obtain ⟨hp',hu'⟩ := h.user hx hp hu
    exact h'.user (h.taken hx) hp' hu'

section
variable (h : Tables lowPd ph own) (ho : own t = some (r, p)) (hp : p.length < 3)
  (hi : LowerIndex p i)
include h ho hp hi

theorem Tables.walked_link (habs : has (ph.mem t i) vmmPresent = false) (hf : Fresh ph f ph')
    (flags : U64) : Walked lowPd ph own r ((ph'.zeroFrame f).write t i (linkEntry f flags))
      (update own f (some (r, i :: p))) := by
  have hne : ∀ {x}, Taken ph.pmm x → x ≠ f := by
    rintro x hx rfl
    exact hf.not_taken hx
  refine ⟨grown_link h ho hp habs hf flags,h.link ho hp hi habs hf flags,fun {g} hgf hg => ?_,
    fun {x j} hx => ?_,fun {x j} hx hpres hu => ?_⟩
  · rcases hf.taken_cases hgf hg with hg | rfl
    · exact .inl hg
    · exact .inr (by simp)
  · rw [mem_link]
    split_ifs with h1 h2
    · obtain ⟨rfl,rfl⟩ := h1
      exact .inr ⟨p,ho,hp,hi⟩
    · exact absurd h2 (hne hx)
    · exact .inl (by rw [hf.mem])
  · have hxt : ¬ (x = t ∧ j = i) := by
      rintro ⟨rfl,rfl⟩
      rw [habs] at hpres
      cases hpres
    rw [mem_link,if_neg hxt,if_neg (hne hx),hf.mem]
    exact ⟨hpres,hu⟩

theorem Tables.walked_widen :
    Walked lowPd ph own r (ph.write t i (ph.mem t i ||| vmmUser)) own := by
  obtain ⟨h1,h2⟩ := h.widen (i := i) ho hp
  refine ⟨h2,h1,fun _ hg => .inl hg,fun {x j} hx => ?_,fun {x j} hx hpres hu => ?_⟩
  · by_cases hxt : x = t ∧ j = i
    · obtain ⟨rfl,rfl⟩ := hxt
      exact .inr ⟨p,ho,hp,hi⟩
    · exact .inl (by simp [write,hxt])
  · by_cases hxt : x = t ∧ j = i
    · obtain ⟨rfl,rfl⟩ := hxt
      simp [write,has_or,hpres,hu]
    · simp [write,hxt,hpres,hu]

/-- One level of a creating walk from an owned table fails without effect, or reaches the owner of
the longer path, unless that is the shared directory of the low identity map. A user mapping leaves
the entry it went through open to user mode. -/
theorem walkLevel_walked (huge : Bool) (flags : U64) : ph.walkLevel huge t i flags = (none, ph) ∨
      ∃ t' ph' own', ph.walkLevel huge t i flags = (some t', ph') ∧ Walked lowPd ph own r ph' own' ∧
        (own' t' = some (r, i :: p) ∨ t' = lowPd ∧ p = [0#9] ∧ i = 0#9) ∧
        has (ph'.mem t i) vmmPresent = true ∧
        (has flags vmmUser = true → has (ph'.mem t i) vmmUser = true) := by
  unfold Phys.walkLevel
  by_cases hpres : has (ph.mem t i) vmmPresent = true
  · obtain ⟨hps,hnext⟩ := h.table ho hp hi hpres
    have hnext' : own (tableOf (ph.mem t i)) = some (r, i :: p) ∨
        tableOf (ph.mem t i) = lowPd ∧ p = [0#9] ∧ i = 0#9 :=
      hnext.imp id fun hc => ⟨hc.2.2.1,hc.1,hc.2.1⟩
    rw [if_pos hpres,if_neg (by simp [hps])]
    by_cases hu : (has flags vmmUser && !has (ph.mem t i) vmmUser) = true
    · simp only [if_pos hu]
      refine .inr ⟨_,_,own,rfl,h.walked_widen ho hp hi,?_,?_,fun _ => ?_⟩
      · simpa [write] using hnext'
      · simp [write,has_or,hpres]
      · simp [write,has_or,show has vmmUser vmmUser = true by decide]
    · simp only [if_neg hu]
      refine .inr ⟨_,_,own,rfl,h.walked,hnext',hpres,fun hfl => ?_⟩
      simpa [hfl] using hu
  · rw [if_neg hpres]
    rcases allocFrame_spec ph with ha | ⟨f,ph',ha,hf⟩
    · rw [ha]; exact .inl (if_pos rfl)
    · rw [ha,if_neg hf.ne_zero]
      rw [Bool.not_eq_true] at hpres
      refine .inr ⟨f,_,_,rfl,h.walked_link ho hp hi hpres hf flags,
        .inl (update_self f _ own),?_,fun hfl => ?_⟩
      · rw [mem_link,if_pos ⟨rfl,rfl⟩]
        exact has_linkEntry_present f flags
      · rw [mem_link,if_pos ⟨rfl,rfl⟩]
        exact has_linkEntry_user f hfl

end

theorem walkLevel_lowPd (h : Tables lowPd ph own) (i : BitVec 9) (flags : U64) :
    ph.walkLevel true lowPd i flags = (none, ph) := by
  obtain ⟨h1,h2⟩ := h.lowHuge i
  simp [Phys.walkLevel,h1,h2]

/-- Every entry on the way from the root to the table with this path is open to user mode. -/
def UserPath (ph : Phys) (own : Owner) (r : U64) (q : Path) : Prop :=
  ∀ t i p, own t = some (r, p) → (i :: p) <:+ q → has (ph.mem t i) vmmUser = true

theorem UserPath.nil : UserPath ph own r [] := by
  intro t i p _ hs
  simp at hs

theorem UserPath.cons (h : Tables lowPd ph own) (ho : own t = some (r, p))
    (hp : UserPath ph own r p) (hu : has (ph.mem t i) vmmUser = true) :
    UserPath ph own r (i :: p) := by
  intro t' j p' ht' hs
  rcases List.suffix_cons_iff.mp hs with heq | hs
  · cases heq
    rw [h.inj ht' ho]
    exact hu
  · exact hp t' j p' ht' hs

theorem Walked.userPath {own' : Owner} (h : Tables lowPd ph own)
    (hw : Walked lowPd ph own r ph' own') {q : Path} (hup : UserPath ph own r q)
    (hex : ∀ i p, (i :: p) <:+ q → ∃ t, own t = some (r, p) ∧ has (ph.mem t i) vmmPresent = true) :
    UserPath ph' own' r q := by
  intro t i p ht hs
  obtain ⟨t0,ho,hpres⟩ := hex i p hs
  rw [hw.tables.inj ht (hw.ext ho)]
  exact (hw.user (h.taken ho) hpres (hup t0 i p ho hs)).2

variable (h : Tables lowPd ph own) (hr : own r = some (r, [])) {va : U64}
  (hva : (pml4Index va).toNat < 256)
include h hr hva

/-- A creating walk writes no leaf of any space; a page table it reaches is the one that owns
the path, and a user mapping can be reached from user mode. -/
theorem walkOrCreate_walked (flags : U64) :
    ∃ own', Walked lowPd ph own r (ph.walkOrCreate r va flags).2 own' ∧
      ∀ pt, (ph.walkOrCreate r va flags).1 = some pt → own' pt = some (r, tablePath va) ∧
        (has flags vmmUser = true →
          UserPath (ph.walkOrCreate r va flags).2 own' r (tablePath va)) := by
  unfold Phys.walkOrCreate
  rcases walkLevel_walked h hr (by simp) (fun _ => hva) false flags with
    h1 | ⟨pdpt,ph1,own1,h1,hw1,hn1,hp₁,hu1⟩
  · simp only [h1]
    exact ⟨own,h.walked,by simp⟩
  simp only [h1]
  have ho1 : own1 pdpt = some (r, [pml4Index va]) := by
    rcases hn1 with hn | ⟨_,hn,_⟩
    · exact hn
    · cases hn
  rcases walkLevel_walked (i := pdptIndex va) hw1.tables ho1 (by simp) (fun hc => by cases hc) true
    flags with
    h2 | ⟨pd,ph2,own2,h2,hw2,hn2,hp2,hu2⟩
  · simp only [h2]
    exact ⟨own1,hw1,by simp⟩
  simp only [h2]
  rcases hn2 with hn | ⟨hlow,_,_⟩
  · rcases walkLevel_walked (i := pdIndex va) hw2.tables hn (by simp) (fun hc => by cases hc) true
      flags with
      h3 | ⟨pt,ph3,own3,h3,hw3,hn3,hp3,hu3⟩
    · simp only [h3]
      exact ⟨own2,hw1.trans hw2,by simp⟩
    · simp only [h3]
      refine ⟨own3,(hw1.trans hw2).trans hw3,fun pt' hpt => ?_⟩
      cases hpt
      have ho3 : own3 pt = some (r, tablePath va) := by
        rcases hn3 with hn3 | ⟨_,hn3,_⟩
        · exact hn3
        · simp at hn3
      refine ⟨ho3,fun hfl => ?_⟩
      -- Each level opens its own entry, and the levels below keep it open.
      have hw := hw2.trans hw3
      have hr1 := hw1.ext hr
      have hp0 := hw.user (hw1.tables.taken hr1) hp₁ (hu1 hfl)
      have hp1 := hw3.user (hw2.tables.taken (hw2.ext ho1)) hp2 (hu2 hfl)
      have ht := hw3.tables
      exact ((UserPath.nil.cons ht (hw.ext hr1) hp0.2).cons ht (hw.ext ho1) hp1.2).cons ht
        (hw3.ext hn) (hu3 hfl)
  · subst hlow
    rw [walkLevel_lowPd hw2.tables]
    exact ⟨own2,hw1.trans hw2,by simp⟩

theorem walkOrCreate_spec (flags : U64) : ∃ own', Tables lowPd (ph.walkOrCreate r va flags).2 own' ∧
      Grown ph own (ph.walkOrCreate r va flags).2 own' ∧
      ∀ pt, (ph.walkOrCreate r va flags).1 = some pt → own' pt = some (r, tablePath va) := by
  obtain ⟨own',hw,hpt⟩ := walkOrCreate_walked h hr hva flags
  exact ⟨own',hw.tables,hw.toGrown,fun pt h1 => (hpt pt h1).1⟩

theorem walkOnly_iff (pt : U64) : ph.walkOnly r va = some pt ↔ own pt = some (r, tablePath va) := by
  unfold Phys.walkOnly
  dsimp only
  constructor
  · intro hw
    split_ifs at hw with h0 h1 h2
    simp only [Bool.not_eq_true',Bool.or_eq_true,not_or,Bool.not_eq_false,Bool.not_eq_true]
      at h0 h1 h2
    cases hw
    have ho1 := h.below_root hr hva h0
    rcases (h.table ho1 (by simp) (fun hc => by cases hc) h1.1).2 with ho2 | ⟨_,_,hlow,_⟩
    · exact (h.below_pd ho2 h2.1).2
    · have := (h.lowHuge (pdIndex va)).2
      rw [hlow,this] at h2
      exact absurd h2.2 (by simp)
  · intro ho
    obtain ⟨_,_,pd,ho2,hp2,he2,_⟩ := h.parent ho
    obtain ⟨_,_,pdpt,ho1,hp1,he1,_⟩ := h.parent ho2
    obtain ⟨_,_,r',ho0,hp0,he0,_⟩ := h.parent ho1
    cases h.inj ho0 hr
    have hps1 := (h.table ho1 (by simp) (fun hc => by cases hc) hp1).1
    have hps2 := (h.below_pd ho2 hp2).1
    simp [hp0,he0,hp1,he1,hp2,he2,hps1,hps2]

theorem vmmEntryIn_iff (e : U64) :
    (ph.vmmEntryIn r va = e ∧ e ≠ 0#64) ↔ LeafAt ph own r (pagePath va) e := by
  constructor
  · rintro ⟨he,hne⟩
    unfold Phys.vmmEntryIn at he
    cases hw : ph.walkOnly r va with
    | none => rw [hw] at he; exact absurd he.symm hne
    | some pt =>
      simp only [hw] at he
      split_ifs at he with hp
      · exact absurd he.symm hne
      · refine ⟨pt,ptIndex va,tablePath va,rfl,rfl,(walkOnly_iff h hr hva pt).mp hw,he,?_⟩
        rw [← he]; simpa using hp
  · rintro ⟨pt,i,p,hq,_,ho,he,hpres⟩
    cases hq
    have hw := (walkOnly_iff h hr hva pt).mpr ho
    have hne : e ≠ 0#64 := by rintro rfl; exact absurd hpres (by decide)
    refine ⟨?_,hne⟩
    simp [Phys.vmmEntryIn,hw,he,hpres]

end GaiaKernel
