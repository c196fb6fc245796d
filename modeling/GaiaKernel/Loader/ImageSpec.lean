import GaiaKernel.Loader.Teardown
import GaiaKernel.Memory.PageOps

/-! # New images

A space under construction owns everything it maps and lends nothing, so it can be dropped
again at any point; `loadImage_spec` says what `load_image` leaves behind.
-/
namespace GaiaKernel
open Function Phys
variable {lowPd r f t e : U64} {ph ph' ph₁ : Phys} {own own' : Owner} {k : KernelTables}

theorem Tables.addRoot (h : Tables lowPd ph own) (hf : Fresh ph f ph₁)
    (hmem : ∀ t, t ≠ f → ph'.mem t = ph.mem t) (hpmm : ph'.pmm = ph₁.pmm)
    (habs : ∀ i, i.toNat < 256 → has (ph'.mem f i) vmmPresent = false) :
    Tables lowPd ph' (update own f (some (f, []))) := by
  have hkeep : ∀ {x n}, own x = some n → update own f (some (f, [])) x = some n := by
    intro x n hx
    rw [update_of_ne (h.ne_fresh hf hx)]
    exact hx
  have hself : update own f (some (f, [])) f = some (f, []) := update_self f _ own
  have htaken : ∀ {g}, Taken ph₁.pmm g → Taken ph'.pmm g := by
    intro g hg
    rw [hpmm]
    exact hg
  refine ⟨fun {x r' p'} hx => ?_,fun {x x' n} hx hx' => ?_,fun {x n} hx => ?_,
    fun {x n} hx => ?_,fun {x r' p' j} hx hp' hj hpres => ?_,
    fun {x r' p' j} hx hp' hpres hsh => ?_,fun {x r' j p'} hx => ?_,
    htaken (hf.taken h.lowTaken),h.lowFrame,?_,fun j => ?_⟩
  · rcases owner_cases hx with ⟨_,hn⟩ | ⟨_,hx⟩
    · cases hn; exact hself
    · exact hkeep (h.root hx)
  · rcases owner_cases hx with ⟨hxf,hn⟩ | ⟨_,hox⟩ <;> rcases owner_cases hx' with ⟨hxf',hn'⟩ | ⟨_,hox'⟩
    · rw [hxf,hxf']
    · rw [hn] at hox'; exact absurd rfl (h.ne_fresh hf (h.root hox'))
    · rw [hn'] at hox; exact absurd rfl (h.ne_fresh hf (h.root hox))
    · exact h.inj hox hox'
  · rcases owner_cases hx with ⟨rfl,_⟩ | ⟨_,hx⟩
    · exact htaken hf.taken_self
    · exact htaken (hf.taken (h.taken hx))
  · rcases owner_cases hx with ⟨rfl,_⟩ | ⟨_,hx⟩
    · exact hf.frame
    · exact h.frame hx
  · rcases owner_cases hx with ⟨rfl,hn⟩ | ⟨_,hox⟩
    · cases hn
      rw [habs j (hj rfl)] at hpres
      cases hpres
    · rw [hmem x (h.ne_fresh hf hox)] at hpres ⊢
      rw [hmem r' (h.ne_fresh hf (h.root hox))]
      obtain ⟨h1,h2 | h2⟩ := h.table hox hp' hj hpres
      · exact ⟨h1,.inl (hkeep h2)⟩
      · exact ⟨h1,.inr h2⟩
  · rcases owner_cases hx with ⟨_,hn⟩ | ⟨_,hox⟩
    · cases hn; simp at hp'
    · rw [hmem x (h.ne_fresh hf hox)] at hpres hsh ⊢
      exact hkeep (h.leaf hox hp' hpres hsh)
  · rcases owner_cases hx with ⟨_,hn⟩ | ⟨_,hox⟩
    · cases hn
    · obtain ⟨h1,h2,t',h3,h4⟩ := h.parent hox
      refine ⟨h1,h2,t',hkeep h3,?_⟩
      rw [hmem t' (h.ne_fresh hf h3)]
      exact h4
  · rw [update_of_ne (h.ne_lowPd hf)]
    exact h.lowOwner
  · rw [hmem lowPd (h.ne_lowPd hf)]
    exact h.lowHuge j

/-- Rewriting slot 0 of the table at path `[0]` to reach the shared directory, or nothing,
while no table of the space hangs there. -/
theorem Tables.writeLow (h : Tables lowPd ph own) (ho : own t = some (r, [0#9]))
    (hfree : has (ph.mem t 0#9) vmmPresent = false ∨ tableOf (ph.mem t 0#9) = lowPd)
    (he : has e vmmPresent = false ∨ has e vmmPresent = true ∧ has e vmmPs = false ∧
      tableOf e = lowPd ∧ has (ph.mem r 0#9) pml4PrivateLow = false) :
    Tables lowPd (ph.write t 0#9 e) own := by
  have hmem : ∀ x j, ¬ (x = t ∧ j = 0#9) → (ph.write t 0#9 e).mem x j = ph.mem x j := by
    intro x j hx
    simp [write,hx]
  have hmemT : (ph.write t 0#9 e).mem t 0#9 = e := by simp [write]
  have hroot : ∀ {x r' p'}, own x = some (r', p') → (ph.write t 0#9 e).mem r' 0#9 = ph.mem r' 0#9 := by
    intro x r' p' hx
    refine hmem r' 0#9 fun hc => ?_
    have := h.root hx
    rw [hc.1,ho] at this
    cases this
  refine ⟨h.root,h.inj,h.taken,h.frame,fun {x r' p' j} hx hp' hj hpres => ?_,
    fun {x r' p' j} hx hp' hpres hsh => ?_,fun {x r' j p'} hx => ?_,h.lowTaken,h.lowFrame,
    h.lowOwner,fun j => ?_⟩
  · rw [hroot hx]
    by_cases hxt : x = t ∧ j = 0#9
    · obtain ⟨rfl,rfl⟩ := hxt
      cases hx.symm.trans ho
      rw [hmemT] at hpres ⊢
      rcases he with he | ⟨_,h2,h3,h4⟩
      · rw [he] at hpres; cases hpres
      · exact ⟨h2,.inr ⟨rfl,rfl,h3,h4⟩⟩
    · rw [hmem x j hxt] at hpres ⊢
      exact h.table hx hp' hj hpres
  · have hxt : ¬ (x = t ∧ j = 0#9) := by
      rintro ⟨rfl,_⟩
      cases hx.symm.trans ho
      simp at hp'
    rw [hmem x j hxt] at hpres hsh ⊢
    exact h.leaf hx hp' hpres hsh
  · obtain ⟨h1,h2,t',h3,h4,h5,h6⟩ := h.parent hx
    have hxt : ¬ (t' = t ∧ j = 0#9) := by
      rintro ⟨rfl,rfl⟩
      rcases hfree with hc | hc
      · rw [hc] at h4; cases h4
      · rw [← h5,hc,h.lowOwner] at hx; cases hx
    refine ⟨h1,h2,t',h3,?_,?_,?_⟩ <;> rw [hmem t' j hxt] <;> assumption
  · rw [hmem lowPd j fun hc => h.ne_low ho hc.1.symm]
    exact h.lowHuge j

theorem Tables.setPrivate (h : Tables lowPd ph own) (hr : own r = some (r, []))
    (hno : ∀ t, own t = some (r, [0#9]) → has (ph.mem t 0#9) vmmPresent = false) :
    Tables lowPd (ph.write r 0#9 (ph.mem r 0#9 ||| pml4PrivateLow)) own := by
  have hor : ∀ m, has pml4PrivateLow m = false →
      has (ph.mem r 0#9 ||| pml4PrivateLow) m = has (ph.mem r 0#9) m := by
    intro m hm
    rw [has_or,hm,Bool.or_false]
  have htab : tableOf (ph.mem r 0#9 ||| pml4PrivateLow) = tableOf (ph.mem r 0#9) := by
    rw [tableOf_or,show tableOf pml4PrivateLow = 0#64 by decide,BitVec.or_zero]
  generalize hph : ph.write r 0#9 (ph.mem r 0#9 ||| pml4PrivateLow) = ph'
  have hfields : ∀ x j, has (ph'.mem x j) vmmPresent = has (ph.mem x j) vmmPresent ∧
      has (ph'.mem x j) vmmPs = has (ph.mem x j) vmmPs ∧
      has (ph'.mem x j) vmmShared = has (ph.mem x j) vmmShared ∧
      tableOf (ph'.mem x j) = tableOf (ph.mem x j) ∧ (x ≠ r → ph'.mem x j = ph.mem x j) := by
    intro x j
    subst hph
    by_cases hx : x = r ∧ j = 0#9
    · obtain ⟨rfl,rfl⟩ := hx
      simp only [write,and_self,if_true]
      exact ⟨hor _ (by decide),hor _ (by decide),hor _ (by decide),htab,fun hc => absurd rfl hc⟩
    · simp [write,hx]
  have hpmm : ph'.pmm = ph.pmm := by subst hph; rfl
  refine ⟨h.root,h.inj,fun hx => hpmm ▸ h.taken hx,h.frame,fun {x r' p' j} hx hp' hj hpres => ?_,
    fun {x r' p' j} hx hp' hpres hsh => ?_,fun {x r' j p'} hx => ?_,hpmm ▸ h.lowTaken,h.lowFrame,
    h.lowOwner,fun j => ?_⟩
  · obtain ⟨e1,e2,_,e4,_⟩ := hfields x j
    rw [e1] at hpres
    rw [e2,e4]
    obtain ⟨h1,h2 | ⟨h2,h3,h4,h5⟩⟩ := h.table hx hp' hj hpres
    · exact ⟨h1,.inl h2⟩
    · refine ⟨h1,.inr ⟨h2,h3,h4,?_⟩⟩
      have hne : r' ≠ r := by
        rintro rfl
        subst h2 h3
        rw [hno x hx] at hpres
        cases hpres
      rw [(hfields r' 0#9).2.2.2.2 hne]
      exact h5
  · obtain ⟨e1,_,e3,e4,_⟩ := hfields x j
    rw [e1] at hpres
    rw [e3] at hsh
    rw [e4]
    exact h.leaf hx hp' hpres hsh
  · obtain ⟨h1,h2,t',h3,h4,h5,h6⟩ := h.parent hx
    obtain ⟨e1,_,e3,e4,_⟩ := hfields t' j
    refine ⟨h1,h2,t',h3,?_,?_,?_⟩
    · rw [e1]; exact h4
    · rw [e4]; exact h5
    · rw [e3]; exact h6
  · obtain ⟨e1,e2,_⟩ := hfields lowPd j
    rw [e1,e2]
    exact h.lowHuge j

/-- A space under construction: it owns what it maps, and nobody borrows from it. -/
structure Image (lowPd : U64) (ph : Phys) (own : Owner) (r : U64) : Prop where
  root : own r = some (r, [])
  present : has (ph.mem r 0#9) vmmPresent = true
  low : has (ph.mem r 0#9) pml4PrivateLow = true ∨ LowLink lowPd ph own r
  unlent : ∀ g p, own g = some (r, p) → NotLent ph own g
  unshared : ∀ q e, LeafAt ph own r q e → has e vmmShared = false

theorem FreshMap.image {va flags : U64} {ok : Bool} (h : FrameSafe lowPd ph own)
    (hm : FreshMap lowPd ph own r va flags ok ph' own') (hi : Image lowPd ph own r)
    (hfl : has flags vmmShared = false) : Image lowPd ph' own' r := by
  have hshape := hm.low.root r hi.root hi.present
  have hleaf : ∀ r' q e, LeafAt ph' own' r' q e →
      LeafAt ph own r' q e ∨ has e vmmShared = false := by
    intro r' q e hl
    cases ok with
    | false => exact .inl ((hm.failed rfl r' q e).mp hl)
    | true =>
      obtain ⟨f,_,hset⟩ := hm.mapped rfl
      rw [hset] at hl
      split_ifs at hl with hc
      · rw [hl.1,has_leafEntry (by decide)]
        exact .inr hfl
      · exact .inl hl
  refine ⟨(hm.roots r).mpr hi.root,hshape.present.trans hi.present,?_,fun g p hg => ?_,
    fun q e hl => ?_⟩
  · rw [hshape.privateLow,hm.low.link]
    exact hi.low
  · intro r' q e hl hs
    rcases hleaf r' q e hl with hl | hl
    · rcases hm.owners hg with ho | ho
      · exact hi.unlent g p ho r' q e hl hs
      · exact h.notLent ho r' q e hl hs
    · rw [hl] at hs; cases hs
  · rcases hleaf r q e hl with hl | hl
    · exact hi.unshared q e hl
    · exact hl

theorem Image.unlent_forget (hi : Image lowPd ph own r) : Unlent ph own r := by
  intro g p hg r' q e hl
  exact hi.unlent g p hg r' q e (leafAt_forget.mp hl).1

/-- The low gigabyte of a space is its own: slot 0 of the root is marked, and slot 0 of the
table below it is the only other entry that may have changed. -/
structure MadePrivate (lowPd : U64) (ph : Phys) (own : Owner) (r : U64) (ph' : Phys) : Prop where
  tables : Tables lowPd ph' own
  pmm : ph'.pmm = ph.pmm
  slot : ph'.mem r 0#9 = ph.mem r 0#9 ||| pml4PrivateLow
  root : ∀ i, i ≠ 0#9 → ph'.mem r i = ph.mem r i
  pdpt : ∀ t i, own t = some (r, [0#9]) → i ≠ 0#9 → ph'.mem t i = ph.mem t i
  mem : ∀ t, own t ≠ some (r, []) → own t ≠ some (r, [0#9]) → ph'.mem t = ph.mem t
  same : has (ph.mem r 0#9) pml4PrivateLow = true → ph' = ph

theorem Tables.enableLow (h : Tables lowPd ph own) (hr : own r = some (r, []))
    (hpres : has (ph.mem r 0#9) vmmPresent = true)
    (hlow : has (ph.mem r 0#9) pml4PrivateLow = true ∨ LowLink lowPd ph own r) :
    MadePrivate lowPd ph own r (ph.processPml4EnableLowElf r) := by
  unfold processPml4EnableLowElf
  by_cases hpriv : has (ph.mem r 0#9) pml4PrivateLow = true
  · rw [if_pos hpriv]
    exact ⟨h,rfl,(or_privateLow hpriv).symm,fun _ _ => rfl,fun _ _ _ _ => rfl,
      fun _ _ _ => rfl,fun _ => rfl⟩
  rw [if_neg hpriv]
  -- The space still shares the identity map, so slot 0 holds no table of its own.
  obtain ⟨pdpt,ho,_,hlink⟩ := hlow.resolve_left hpriv
  have hpdpt : tableOf (ph.mem r 0#9) = pdpt := h.inj (h.below_root hr (by decide) hpres) ho
  have hne : r ≠ pdpt := by
    rintro rfl
    have := hr.symm.trans ho
    simp at this
  rw [hpdpt]
  have h1 := h.writeLow (e := 0#64) ho (.inr hlink) (.inl (by decide))
  have h2 := h1.setPrivate hr fun t ht => by
    rw [h.inj ht ho]
    simp [write,has]
  refine ⟨h2,rfl,by simp [write,hne],fun i hi => ?_,fun t i ht hi => ?_,
    fun t ht ht' => ?_,fun hc => absurd hc hpriv⟩
  · simp [write,hi]
  · simp [write,hi]
  · have htr : t ≠ r := by
      rintro rfl
      exact ht hr
    have htp : t ≠ pdpt := by
      rintro rfl
      exact ht' ho
    simp [write,htr,htp]

namespace MadePrivate
variable (h : MadePrivate lowPd ph own r ph')
include h

theorem present (hpres : has (ph.mem r 0#9) vmmPresent = true) :
    has (ph'.mem r 0#9) vmmPresent = true := by
  rw [h.slot,has_or,hpres,Bool.true_or]

theorem privateLow : has (ph'.mem r 0#9) pml4PrivateLow = true := by
  rw [h.slot,has_or,show has pml4PrivateLow pml4PrivateLow = true by decide,Bool.or_true]

theorem pageTable {p : Path} (ho : own t = some (f, p))
    (hp : p.length = 3) : ph'.mem t = ph.mem t := by
  refine h.mem t (fun hc => ?_) fun hc => ?_
  · cases ho.symm.trans hc
    simp at hp
  · cases ho.symm.trans hc
    simp at hp

theorem leafAt_iff (r' : U64) (q : Path) (e : U64) : LeafAt ph' own r' q e ↔ LeafAt ph own r' q e :=
  leafAt_congr (fun _ _ _ ho hp => h.pageTable ho hp) r' q e

end MadePrivate

theorem Image.enableLow (h : FrameSafe lowPd ph own) (hi : Image lowPd ph own r) :
    FrameSafe lowPd (ph.processPml4EnableLowElf r) own ∧
      Image lowPd (ph.processPml4EnableLowElf r) own r ∧
      ∀ r' q e, LeafAt (ph.processPml4EnableLowElf r) own r' q e ↔ LeafAt ph own r' q e := by
  have hp := h.tables.enableLow hi.root hi.present hi.low
  refine ⟨h.of_tables hp.tables (fun _ _ _ ho hl => hp.pageTable ho hl) fun hg => hp.pmm ▸ hg,
    ⟨hi.root,hp.present hi.present,.inl hp.privateLow,fun g p hg r' q e hl => ?_,
      fun q e hl => ?_⟩,hp.leafAt_iff⟩
  · exact hi.unlent g p hg r' q e ((hp.leafAt_iff r' q e).mp hl)
  · exact hi.unshared q e ((hp.leafAt_iff r q e).mp hl)

/-- What loading does: the image stays one, and nothing happens to the other spaces. -/
structure Loaded (lowPd : U64) (ph : Phys) (own : Owner) (r : U64) (ph' : Phys) (own' : Owner) :
    Prop where
  safe : FrameSafe lowPd ph' own'
  roots : SameRoots own own'
  image : Image lowPd ph' own' r
  leaf : ∀ {r' q e}, r' ≠ r → (LeafAt ph' own' r' q e ↔ LeafAt ph own r' q e)

section
variable (h : FrameSafe lowPd ph own)
include h

theorem Image.loaded (hi : Image lowPd ph own r) : Loaded lowPd ph own r ph own :=
  ⟨h,fun _ => Iff.rfl,hi,fun _ => Iff.rfl⟩

theorem FreshMap.loaded {va flags : U64} {ok : Bool}
    (hm : FreshMap lowPd ph own r va flags ok ph' own') (hi : Image lowPd ph own r)
    (hfl : has flags vmmShared = false) : Loaded lowPd ph own r ph' own' := by
  refine ⟨hm.safe,hm.roots,hm.image h hi hfl,fun {r' q e} hne => ?_⟩
  cases ok with
  | false => exact hm.failed rfl r' q e
  | true =>
    obtain ⟨f,_,hset⟩ := hm.mapped rfl
    rw [hset,if_neg (fun hc => hne hc.1)]

theorem Image.loadStep (hi : Image lowPd ph own r) (s : LoadStep) :
    ∃ own', Loaded lowPd ph own r (ph.loadStep r s).2 own' := by
  cases s with
  | enableLow =>
    obtain ⟨h1,h2,h3⟩ := hi.enableLow h
    exact ⟨own,h1,fun _ => Iff.rfl,h2,fun _ => h3 _ _ _⟩
  | page va flags =>
    unfold Phys.loadStep
    dsimp only
    split_ifs
    · exact ⟨own,hi.loaded h⟩
    · obtain ⟨own',hm⟩ := h.mapFresh hi.root va.2 flags.2.1
      exact ⟨own',hm.loaded h hi flags.2.2⟩

theorem Image.loadSteps (hi : Image lowPd ph own r)
    (steps : List LoadStep) : ∃ own', Loaded lowPd ph own r (loadSteps r steps ph).2 own' := by
  induction steps generalizing ph own with
  | nil => exact ⟨own,hi.loaded h⟩
  | cons s steps ih =>
    unfold loadSteps
    obtain ⟨own1,h1⟩ := hi.loadStep h s
    generalize ph.loadStep r s = res at h1
    obtain ⟨ok,ph₁⟩ := res
    cases ok with
    | false => exact ⟨own1,h1⟩
    | true =>
      obtain ⟨own2,h2⟩ := ih h1.safe h1.image
      exact ⟨own2,h2.safe,fun x => (h2.roots x).trans (h1.roots x),h2.image,
        fun hne => (h2.leaf hne).trans (h1.leaf hne)⟩

end

/-- The kernel's low entry leads to the directory of the identity map. -/
def KernelTables.SharesLow (k : KernelTables) (lowPd : U64) : Prop :=
  ∃ e, k.low = some e ∧ has e vmmPresent = true ∧ has e vmmPs = false ∧ tableOf e = lowPd

structure Created (lowPd : U64) (ph : Phys) (own : Owner) (r : U64) (ph' : Phys) (own' : Owner) :
    Prop where
  safe : FrameSafe lowPd ph' own'
  fresh : own r = none
  roots : ∀ x, own' x = some (x, []) ↔ own x = some (x, []) ∨ x = r
  image : Image lowPd ph' own' r
  leaf : ∀ {r' q e}, r' ≠ r → (LeafAt ph' own' r' q e ↔ LeafAt ph own r' q e)

theorem createTables_eq {a b : U64} (ph : Phys) (hab : a ≠ b) :
    (((ph.zeroFrame b).write b 0#9 e).write a 0#9 (linkEntry b vmmUser)).copyUpper k a =
      (((ph.copyUpper k a).zeroFrame b).write a 0#9 (linkEntry b vmmUser)).write b 0#9 e := by
  simp only [copyUpper,write,zeroFrame,mk.injEq,and_true]
  funext t i
  by_cases hta : t = a
  · subst hta
    by_cases hi : i = 0#9
    · subst hi; simp [hab]
    · simp [hab,hi]
  · simp [hta]

def newOwner (own : Owner) (a b : U64) : Owner :=
  Function.update (Function.update own a (some (a, []))) b (some (a, [0#9]))

section
variable {k : KernelTables} {a b : U64} {ph₂ : Phys}

theorem newOwner_cases {g : U64} {n : U64 × Path} (hg : newOwner own a b g = some n) :
    g = a ∧ n = (a, []) ∨ g = b ∧ n = (a, [0#9]) ∨ g ≠ a ∧ g ≠ b ∧ own g = some n := by
  rcases owner_cases hg with hgb | ⟨hgb,hg⟩
  · exact .inr (.inl hgb)
  · rcases owner_cases hg with hga | ⟨hga,hg⟩
    · exact .inl hga
    · exact .inr (.inr ⟨hga,hgb,hg⟩)

variable (h : FrameSafe lowPd ph own) (hfa : Fresh ph a ph₁) (hfb : Fresh (ph₁.zeroFrame a) b ph₂)
include h hfa hfb

theorem createTables_tables (he1 : has e vmmPresent = true) (he2 : has e vmmPs = false)
    (he3 : tableOf e = lowPd) :
    Tables lowPd ((((ph₂.copyUpper k a).zeroFrame b).write a 0#9 (linkEntry b vmmUser)).write b
      0#9 e) (newOwner own a b) := by
  have hab : a ≠ b := by
    rintro rfl
    exact hfb.not_taken hfa.taken_self
  have hmemA : ∀ t, t ≠ a → ((ph₁.zeroFrame a).copyUpper k a).mem t = ph.mem t := by
    intro t ht
    simp [copyUpper,zeroFrame,ht,hfa.mem]
  have hrootA : ∀ i : BitVec 9, i.toNat < 256 → ((ph₁.zeroFrame a).copyUpper k a).mem a i = 0#64 := by
    intro i hi
    have hn : ¬ 256 ≤ i.toNat := by omega
    simp [copyUpper,zeroFrame,hn]
  have hA := h.tables.addRoot hfa hmemA rfl fun i hi => by rw [hrootA i hi]; decide
  have hfb' : Fresh ((ph₁.zeroFrame a).copyUpper k a) b (ph₂.copyUpper k a) := by
    refine ⟨hfb.ne_zero,hfb.frame,hfb.low,hfb.free,?_,hfb.frames,hfb.test⟩
    simp [copyUpper,hfb.mem]
  have hselfA : update own a (some (a, [])) a = some (a, []) := update_self a _ own
  have habs : has (((ph₁.zeroFrame a).copyUpper k a).mem a 0#9) vmmPresent = false := by
    rw [hrootA 0#9 (by decide)]; decide
  have hB := hA.link hselfA (by simp) (fun _ => by decide) habs hfb' vmmUser
  refine hB.writeLow (update_self b _ _) (.inl ?_) (.inr ⟨he1,he2,he3,?_⟩)
  · rw [mem_link,if_neg (fun hc => hab hc.1.symm),if_pos rfl]; decide
  · rw [mem_link,if_pos ⟨rfl,rfl⟩]
    exact has_linkEntry vmmUser hfb.frame (by decide) (by decide) (by decide) (by decide)

theorem createTables_created (he1 : has e vmmPresent = true) (he2 : has e vmmPs = false)
    (he3 : tableOf e = lowPd) :
    Created lowPd ph own a ((((ph₂.copyUpper k a).zeroFrame b).write a 0#9
      (linkEntry b vmmUser)).write b 0#9 e) (newOwner own a b) := by
  have hC := createTables_tables (k := k) h hfa hfb he1 he2 he3
  have hab : a ≠ b := by
    rintro rfl
    exact hfb.not_taken hfa.taken_self
  have hoa := h.tables.owner_none hfa
  have hnotb : ¬ Taken ph.pmm b := fun hc => hfb.not_taken (hfa.taken hc)
  generalize hph : (((ph₂.copyUpper k a).zeroFrame b).write a 0#9 (linkEntry b vmmUser)).write b
    0#9 e = ph' at hC
  have hmem : ∀ {t}, t ≠ a → t ≠ b → ph'.mem t = ph.mem t := by
    intro t hta htb
    subst hph
    simp [write,zeroFrame,copyUpper,hta,htb,hfb.mem,hfa.mem]
  have hold : ∀ {g n}, own g = some n → g ≠ a ∧ g ≠ b ∧ newOwner own a b g = some n := by
    intro g n hg
    have hga : g ≠ a := by rintro rfl; rw [hoa] at hg; cases hg
    have hgb : g ≠ b := by rintro rfl; exact hnotb (h.tables.taken hg)
    refine ⟨hga,hgb,?_⟩
    rw [newOwner,update_of_ne hgb,update_of_ne hga]
    exact hg
  have hleaf : ∀ r q e, LeafAt ph' (newOwner own a b) r q e ↔ LeafAt ph own r q e := by
    intro r q e
    constructor
    · rintro ⟨pt,i,p,hq,hp,ho,he,hpres⟩
      rcases newOwner_cases ho with ⟨_,hn⟩ | ⟨_,hn⟩ | ⟨hga,hgb,ho'⟩
      · cases hn; simp at hp
      · cases hn; simp at hp
      · exact ⟨pt,i,p,hq,hp,ho',by rw [← hmem hga hgb]; exact he,hpres⟩
    · rintro ⟨pt,i,p,hq,hp,ho,he,hpres⟩
      obtain ⟨hga,hgb,ho'⟩ := hold ho
      exact ⟨pt,i,p,hq,hp,ho',by rw [hmem hga hgb]; exact he,hpres⟩
  have hnew : ∀ {g p}, newOwner own a b g = some (a, p) → ¬ Taken ph.pmm g := by
    intro g p hg
    rcases newOwner_cases hg with ⟨rfl,_⟩ | ⟨rfl,_⟩ | ⟨_,_,ho'⟩
    · exact hfa.not_taken
    · exact hnotb
    · rw [h.tables.root ho'] at hoa; cases hoa
  have hroot : newOwner own a b a = some (a, []) := by rw [newOwner,update_of_ne hab,update_self]
  refine ⟨⟨hC,fun r q e hl hs => ?_⟩,hoa,fun x => ⟨fun hx => ?_,?_⟩,⟨hroot,?_,
    .inr ⟨b,update_self b _ _,?_,?_⟩,fun g p hg r q e hl hs => ?_,
    fun q e hl => ?_⟩,fun _ => hleaf _ _ _⟩
  · have hle := h.shared r q e ((hleaf r q e).mp hl) hs
    refine ⟨?_,hle.ne_low,fun r' p' ho => ?_⟩
    · subst hph
      exact hfb.taken (hfa.taken hle.taken)
    · rcases newOwner_cases ho with ⟨hg,_⟩ | ⟨hg,_⟩ | ⟨_,_,ho'⟩
      · exact absurd hle.taken (hg ▸ hfa.not_taken)
      · exact absurd hle.taken (hg ▸ hnotb)
      · exact hle.page r' p' ho'
  · rcases newOwner_cases hx with ⟨hxa,_⟩ | ⟨_,hn⟩ | ⟨_,_,ho'⟩
    · exact .inr hxa
    · cases hn
    · exact .inl ho'
  · rintro (hx | rfl)
    · exact (hold hx).2.2
    · exact hroot
  · subst hph
    simp [write,hab]
  · subst hph
    simp [write,he1]
  · subst hph
    simp [write,he3]
  · exact h.notLent (hnew hg) r q e ((hleaf r q e).mp hl) hs
  · obtain ⟨pt,i,p,_,_,ho,_,_⟩ := (hleaf a q e).mp hl
    rw [h.tables.root ho] at hoa
    cases hoa

end

structure SameLeaves (lowPd : U64) (ph : Phys) (own : Owner) (ph' : Phys) (own' : Owner) :
    Prop where
  safe : FrameSafe lowPd ph' own'
  roots : SameRoots own own'
  leaf : ∀ {r q e}, LeafAt ph' own' r q e ↔ LeafAt ph own r q e

theorem FrameSafe.create (h : FrameSafe lowPd ph own) (hk : k.SharesLow lowPd) :
    (ph.processPml4Create k).1 = 0#64 ∧ SameLeaves lowPd ph own (ph.processPml4Create k).2 own ∨
      (ph.processPml4Create k).1 ≠ 0#64 ∧ ∃ own',
        Created lowPd ph own (ph.processPml4Create k).1 (ph.processPml4Create k).2 own' := by
  obtain ⟨e,hke,he1,he2,he3⟩ := hk
  unfold processPml4Create
  rcases allocFrame_spec ph with ha | ⟨a,ph₁,ha,hfa⟩
  · rw [ha]
    exact .inl ⟨rfl,h,fun _ => Iff.rfl,Iff.rfl⟩
  rw [ha]
  rw [if_neg hfa.ne_zero]
  rcases allocFrame_spec (ph₁.zeroFrame a) with hb | ⟨b,ph₂,hb,hfb⟩
  · obtain ⟨hza,hleafa⟩ := h.allocZero hfa
    have hoa := h.tables.owner_none hfa
    rw [hb]
    refine .inl ⟨rfl,hza.freeFrame hfa.frame hoa (h.tables.ne_lowPd hfa).symm ?_,
      fun _ => Iff.rfl,hleafa _ _ _⟩
    intro r q e hl
    exact h.notLent hfa.not_taken r q e ((hleafa r q e).mp hl)
  · have hab : a ≠ b := by
      rintro rfl
      exact hfb.not_taken hfa.taken_self
    rw [hb,if_neg hfb.ne_zero]
    simp only [hke]
    rw [createTables_eq ph₂ hab]
    exact .inr ⟨hfa.ne_zero,_,createTables_created h hfa hfb he1 he2 he3⟩

theorem FrameSafe.loadImage (h : FrameSafe lowPd ph own)
    (hk : k.SharesLow lowPd) (steps : List LoadStep) (ok : Bool) :
    match (ph.loadImage k steps ok).1 with
    | none => ∃ own', SameLeaves lowPd ph own (ph.loadImage k steps ok).2 own'
    | some r => ∃ own', Created lowPd ph own r (ph.loadImage k steps ok).2 own' := by
  unfold Phys.loadImage
  rcases h.create hk with ⟨hc,hsafe⟩ | ⟨hc,own1,hcr⟩
  · rw [if_pos hc]
    exact ⟨own,hsafe⟩
  rw [if_neg hc]
  generalize ph.processPml4Create k = c at hc hcr
  obtain ⟨r,ph₁⟩ := c
  obtain ⟨own2,hload⟩ := hcr.image.loadSteps hcr.safe steps
  generalize loadSteps r steps ph₁ = res at hload
  obtain ⟨loaded,ph₂⟩ := res
  have h2 := hload.safe
  have hi2 := hload.image
  have hroots : ∀ x, own2 x = some (x, []) ↔ own x = some (x, []) ∨ x = r :=
    fun x => (hload.roots x).trans (hcr.roots x)
  have hne : ∀ x, own x = some (x, []) → x ≠ r := by
    rintro x hx rfl
    have := hcr.fresh
    rw [hx] at this
    cases this
  have hfail : ∃ own', SameLeaves lowPd ph own (freeUserPml4 r ph₂) own' := by
    have ht := h2.tables.freeUserPml4 hi2.unlent_forget h2 hi2.root
    refine ⟨GaiaKernel.forget own2 r,ht.safe,fun x => ?_,fun {r' q e} => ?_⟩
    · rw [forget_eq_some,hroots]
      constructor
      · rintro ⟨hx | hx,hxr⟩
        · exact hx
        · exact absurd hx hxr
      · exact fun hx => ⟨.inl hx,hne x hx⟩
    · rw [ht.leafAt]
      constructor
      · rintro ⟨hl,hr'⟩
        exact (hcr.leaf hr').mp ((hload.leaf hr').mp hl)
      · intro hl
        have hr' := hne r' (h.tables.root_of_leafAt hl)
        exact ⟨(hload.leaf hr').mpr ((hcr.leaf hr').mpr hl),hr'⟩
  cases loaded with
  | false => exact hfail
  | true =>
    cases ok with
    | false => exact hfail
    | true => exact ⟨own2,h2,hcr.fresh,hroots,hi2,fun hr' => (hload.leaf hr').trans (hcr.leaf hr')⟩

end GaiaKernel
