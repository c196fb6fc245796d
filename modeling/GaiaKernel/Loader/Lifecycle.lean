import GaiaKernel.Loader.Isolation
import GaiaKernel.Loader.Reclaim

/-! # The life of an address space

From `process_pml4_create` to `free_user_pml4`. In between the space is given fresh and borrowed
frames and uses the calls of memory/uvm.c, while everybody else takes frames and gives them back.
After careful steps the teardown leaves exactly the frames free that were free before.
-/
namespace GaiaKernel.Lifecycle
open Trace Uvm List
variable {kernelPml4 lowPd r : U64} {ph ph' : Phys} {own own' : Owner}

/-- One space and its surroundings: the frames that others took since it was created, and the frames
it was given to borrow while their holders keep them. -/
structure State extends Uvm.State where
  held : List U64
  lent : List U64

abbrev SharedFlags := { flags : U64 // FlagsOnly flags ∧ has flags vmmShared = true }
abbrev UserVa := { va : U64 // LowerHalf va }

inductive Op where
  | mapFresh (va : UserVa) (flags : Uvm.UserFlags)
  | mapShared (va : UserVa) (frame : U64) (flags : SharedFlags)
  | call (c : Uvm.Call)
  | enableLow
  | take
  | give (frame : U64)

/-- `mapFresh` and `mapShared` are the two uses of `vmm_map_in`; `take` and `give` are
`pmm_alloc_frame` and `pmm_free_frame` as called by others. -/
def step (r : U64) (s : State) : Op → State
  | .mapFresh va flags => { s with phys := (s.phys.mapFresh r va.1 flags.1).2 }
  | .mapShared va frame flags =>
    let m := s.phys.vmmMapIn r va.1 frame flags.1
    { s with phys := m.2, lent := if m.1 then tableOf frame :: s.lent else s.lent }
  | .call c => { s with toState := call s.toState c }
  | .enableLow => { s with phys := s.phys.processPml4EnableLowElf r }
  | .take =>
    let a := s.phys.allocFrame
    { s with phys := a.2, held := if a.1 = 0#64 then s.held else a.1 :: s.held }
  | .give frame =>
    if frame ∈ s.held then
      { s with
        phys := s.phys.freeFrame frame
        held := s.held.erase frame
        lent := s.lent.filter (· ≠ frame) }
    else s

def Vacant (s : State) (r va : U64) : Prop :=
  s.phys.vmmEntryIn r va = 0#64 ∨ has (s.phys.vmmEntryIn r va) vmmShared = true

instance (s : State) (r va : U64) : Decidable (Vacant s r va) := inferInstanceAs (Decidable (_ ∨ _))

/-- Nothing is mapped over a page of the space's own, and a borrowed frame belongs to
somebody else: it was allocated before the space was, or others took it since. -/
def Careful (ph : Phys) (r : U64) (s : State) : Op → Prop
  | .mapFresh va _ => Vacant s r va.1
  | .mapShared va frame _ =>
    Vacant s r va.1 ∧ (Taken ph.pmm (tableOf frame) ∨ tableOf frame ∈ s.held)
  | _ => True

/-- The space and its surroundings, relative to the memory `ph` before it was created. -/
structure Alive (lowPd : U64) (ph : Phys) (r : U64) (s : State) (own : Owner) : Prop where
  space : Uvm.Space lowPd s.toState own r
  only : ∀ x, own x = some (x, []) → x = r
  slot : has (s.phys.mem r 0#9) vmmPresent = true
  low : has (s.phys.mem r 0#9) pml4PrivateLow = true ∨ LowLink lowPd s.phys own r
  frames : s.phys.pmm.bitmapFrames = ph.pmm.bitmapFrames
  foreign : ∀ g, Foreign s.phys own g ↔ IsFrame g ∧ (Taken ph.pmm g ∨ g ∈ s.held)
  mem : ∀ g, IsFrame g → Taken ph.pmm g → s.phys.mem g = ph.mem g
  heldFrame : ∀ g ∈ s.held, IsFrame g ∧ ¬ Taken ph.pmm g
  heldNodup : s.held.Nodup
  lent : ∀ g ∈ s.lent, IsFrame g ∧ (Taken ph.pmm g ∨ g ∈ s.held)
  lowTaken : Taken ph.pmm lowPd

variable {s : State}
section
variable (h : Alive lowPd ph r s own)
include h

theorem Alive.enclosed {u : Uvm.State} {lent : List U64}
    (hs : Uvm.Space lowPd u own' r) (hc : Enclosed lowPd ∅ s.phys own r u.phys own')
    (hl : ∀ g ∈ lent, IsFrame g ∧ (Taken ph.pmm g ∨ g ∈ s.held)) :
    Alive lowPd ph r ⟨u,s.held,lent⟩ own' := by
  have hshape := hc.low.root r h.space.root h.slot
  refine ⟨hs,fun x hx => h.only x ((hc.roots x).mp hx),hshape.present.trans h.slot,?_,
    hc.frames.trans h.frames,fun g => (hc.foreign g (by simp)).trans (h.foreign g),
    fun g hg ht => ?_,h.heldFrame,h.heldNodup,hl,h.lowTaken⟩
  · rw [hshape.privateLow,hc.low.link]
    exact h.low
  · rw [hc.mem g (by simp) ((h.foreign g).mpr ⟨hg,.inl ht⟩),h.mem g hg ht]

theorem Alive.phys (hc : Enclosed lowPd ∅ s.phys own r ph' own') {lent : List U64}
    (hl : ∀ g ∈ lent, IsFrame g ∧ (Taken ph.pmm g ∨ g ∈ s.held)) :
    Alive lowPd ph r { s with phys := ph', lent := lent } own' :=
  h.enclosed (u := { s.toState with phys := ph' })
    ⟨hc.tables,(hc.roots r).mpr h.space.root,h.space.vm,h.space.bounded⟩ hc hl

theorem Alive.noPage {va : U64} (hva : LowerHalf va) (hv : Vacant s r va) : NoPage own r va := by
  intro g hg
  obtain ⟨_,_,t,ho,hpres,_,hs⟩ := h.space.tables.parent hg
  have hl : LeafAt s.phys own r (pagePath va) (s.phys.mem t (ptIndex va)) :=
    ⟨t,ptIndex va,tablePath va,rfl,rfl,ho,rfl,hpres⟩
  obtain ⟨he,hne⟩ := (vmmEntryIn_iff h.space.tables h.space.root hva.pml4Index _).mpr hl
  unfold Vacant at hv
  rw [he] at hv
  rcases hv with hv | hv
  · exact hne hv
  · rw [hs rfl] at hv
    cases hv

theorem Alive.take : Alive lowPd ph r (step r s .take) own := by
  unfold step
  dsimp only
  rcases allocFrame_spec s.phys with ha | ⟨f,ph1,ha,hf⟩
  · rw [ha]
    exact h
  rw [ha,if_neg hf.ne_zero]
  have hof := h.space.tables.owner_none hf
  have hnot : ¬ Taken ph.pmm f := by
    intro hc
    exact hf.not_taken ((h.foreign f).mpr ⟨hf.frame,.inl hc⟩).taken
  refine ⟨⟨h.space.tables.fresh hf,h.space.root,h.space.vm,h.space.bounded⟩,h.only,?_,?_,
    hf.frames.trans h.frames,fun g => ⟨?_,?_⟩,fun g hg ht => ?_,fun g hg => ?_,?_,
    fun g hg => ?_,h.lowTaken⟩
  · rw [hf.mem]
    exact h.slot
  · unfold LowLink
    rw [hf.mem]
    exact h.low
  · rintro ⟨h1,h2,h3⟩
    rcases hf.taken_cases h1 h2 with h2 | rfl
    · obtain ⟨_,h4⟩ := (h.foreign g).mp ⟨h1,h2,h3⟩
      exact ⟨h1,h4.imp id (mem_cons_of_mem f)⟩
    · exact ⟨h1,.inr (by simp)⟩
  · rintro ⟨h1,h2⟩
    by_cases hgf : g = f
    · subst hgf
      exact ⟨h1,hf.taken_self,hof⟩
    · have hg := (h.foreign g).mpr ⟨h1,h2.imp id fun hm => (mem_cons.mp hm).resolve_left hgf⟩
      exact ⟨h1,hf.taken hg.taken,hg.owner⟩
  · rw [hf.mem]
    exact h.mem g hg ht
  · rcases mem_cons.mp hg with rfl | hg
    · exact ⟨hf.frame,hnot⟩
    · exact h.heldFrame g hg
  · refine nodup_cons.mpr ⟨fun hm => ?_,h.heldNodup⟩
    exact hf.not_taken ((h.foreign f).mpr ⟨hf.frame,.inr hm⟩).taken
  · exact (h.lent g hg).imp id (Or.imp id (mem_cons_of_mem f))

theorem Alive.give (f : U64) : Alive lowPd ph r (step r s (.give f)) own := by
  unfold step
  dsimp only
  by_cases hf : f ∈ s.held
  swap
  · rw [if_neg hf]
    exact h
  rw [if_pos hf]
  obtain ⟨hframe,hnot⟩ := h.heldFrame f hf
  have hof : own f = none := ((h.foreign f).mpr ⟨hframe,.inr hf⟩).owner
  have hlow : f ≠ lowPd := by
    rintro rfl
    exact hnot h.lowTaken
  have hmem : ∀ g, g ∈ s.held.erase f ↔ g ≠ f ∧ g ∈ s.held := fun g => h.heldNodup.mem_erase_iff
  refine ⟨⟨h.space.tables.freeFrame hframe hof hlow,h.space.root,h.space.vm,h.space.bounded⟩,
    h.only,h.slot,h.low,(Pmm.bitmapFrames_pmmFreeFrame ..).trans h.frames,fun g => ⟨?_,?_⟩,
    h.mem,fun g hg => h.heldFrame g ((hmem g).mp hg).2,h.heldNodup.erase f,fun g hg => ?_,
    h.lowTaken⟩
  · rintro ⟨h1,h2,h3⟩
    obtain ⟨h4,h5⟩ := taken_freeFrame.mp h2
    obtain ⟨_,h6⟩ := (h.foreign g).mp ⟨h1,h4,h3⟩
    exact ⟨h1,h6.imp id fun hm => (hmem g).mpr ⟨fun hc => h5 (hc ▸ rfl),hm⟩⟩
  · rintro ⟨h1,h2⟩
    have hgf : g ≠ f := by
      rintro rfl
      exact h2.elim hnot fun hm => ((hmem g).mp hm).1 rfl
    have hg := (h.foreign g).mpr ⟨h1,h2.imp id fun hm => ((hmem g).mp hm).2⟩
    exact ⟨h1,taken_freeFrame.mpr ⟨hg.taken,fun hc => hgf (h1.ext hframe hc)⟩,hg.owner⟩
  · simp only [mem_filter,decide_eq_true_eq] at hg
    obtain ⟨h1,h2⟩ := h.lent g hg.1
    exact ⟨h1,h2.imp id fun hm => (hmem g).mpr ⟨hg.2,hm⟩⟩

theorem Alive.enableLow : Alive lowPd ph r (step r s .enableLow) own := by
  have hp := h.space.tables.enableLow h.space.root h.slot h.low
  unfold step
  refine ⟨⟨hp.tables,h.space.root,h.space.vm,h.space.bounded⟩,h.only,hp.present h.slot,
    .inl hp.privateLow,(congrArg Pmm.bitmapFrames hp.pmm).trans h.frames,fun g => ?_,
    fun g hg htk => ?_,h.heldFrame,h.heldNodup,h.lent,h.lowTaken⟩
  · rw [← h.foreign g]
    exact ⟨fun ⟨h1,h2,h3⟩ => ⟨h1,hp.pmm ▸ h2,h3⟩,fun ⟨h1,h2,h3⟩ => ⟨h1,hp.pmm ▸ h2,h3⟩⟩
  · -- The two tables written are the space's own, so not allocated before it.
    have hf := ((h.foreign g).mpr ⟨hg,.inl htk⟩).owner
    rw [← h.mem g hg htk]
    exact hp.mem g (by simp [hf]) (by simp [hf])

theorem Alive.step (op : Op) (hc : Careful ph r s op) :
    ∃ own', Alive lowPd ph r (step r s op) own' := by
  cases op with
  | mapFresh va flags =>
    obtain ⟨own',hm⟩ := h.space.tables.mapFresh h.space.root va.2 flags.2 (h.noPage va.2 hc)
    exact ⟨own',h.phys hm.toEnclosed h.lent⟩
  | mapShared va frame flags =>
    obtain ⟨own',hm⟩ := h.space.tables.enclosed_mapShared h.space.root va.2 (h.noPage va.2 hc.1)
      frame flags.2.2
    refine ⟨own',h.phys hm fun g hg => ?_⟩
    split_ifs at hg
    · rcases mem_cons.mp hg with rfl | hg
      · exact ⟨isFrame_tableOf frame,hc.2⟩
      · exact h.lent g hg
    · exact h.lent g hg
  | call c =>
    obtain ⟨own',hs,hu⟩ := h.space.call c
    exact ⟨own',h.enclosed hs hu.toEnclosed h.lent⟩
  | enableLow => exact ⟨own,h.enableLow⟩
  | take => exact ⟨own,h.take⟩
  | give f => exact ⟨own,h.give f⟩

end

def freeFrames (p : Pmm) : Set ℕ := {n | n < p.bitmapFrames ∧ p.bitmapTest n = false}

/-- The kernel's tables are as they were and allocated, and so is every frame that the space
was given to borrow. -/
structure Respects (ph : Phys) (kernelPml4 : U64) (lent : List U64) (ph' : Phys) : Prop where
  kernel : ∀ n t, Reach ph kernelPml4 n t → Taken ph'.pmm t ∧ ph'.mem t = ph.mem t
  lent : ∀ g ∈ lent, Taken ph'.pmm g

/-- Whenever the space is torn down, what is free afterwards is what was free before it was
created, except for what others took meanwhile. -/
structure Conserved (ph : Phys) (kernelPml4 r : U64) (s : State) : Prop where
  alive : Respects ph kernelPml4 s.lent s.phys
  torn : Respects ph kernelPml4 s.lent (Phys.freeUserPml4 r s.phys)
  free : freeFrames (Phys.freeUserPml4 r s.phys).pmm =
    freeFrames ph.pmm \ {n | ∃ g ∈ s.held, g.toNat / 4096 = n}

theorem Alive.respects (h : Alive lowPd ph r s own) (hk : KernelMap ph kernelPml4 lowPd) :
    Respects ph kernelPml4 s.lent s.phys := by
  refine ⟨fun n t ht => ?_,fun g hg => ((h.foreign g).mpr (h.lent g hg)).taken⟩
  have hf := hk.isFrame ht
  have htk := hk.taken n t ht
  exact ⟨((h.foreign t).mpr ⟨hf,.inl htk⟩).taken,h.mem t hf htk⟩

theorem Alive.taken_freeUserPml4 (h : Alive lowPd ph r s own) {g : U64} (hg : IsFrame g) :
    Taken (Phys.freeUserPml4 r s.phys).pmm g ↔ Taken ph.pmm g ∨ g ∈ s.held := by
  have hfreed := h.space.tables.freed_freeUserPml4 h.space.root h.low
  have hbelow : g ∉ below own r [] ↔ own g = none := by
    rw [← not_iff_not,not_not]
    constructor
    · rintro ⟨q,ho,_⟩
      simp [ho]
    · intro hne
      obtain ⟨⟨r',p⟩,ho⟩ := Option.ne_none_iff_exists'.mp hne
      cases h.only r' (h.space.tables.root ho)
      exact ⟨p,ho,nil_suffix⟩
  rw [hfreed.taken g hg,hbelow]
  constructor
  · rintro ⟨h1,h2⟩
    exact ((h.foreign g).mp ⟨hg,h1,h2⟩).2
  · intro h1
    have hf := (h.foreign g).mpr ⟨hg,h1⟩
    exact ⟨hf.taken,hf.owner⟩

theorem exists_frame {p : Pmm} {n : ℕ} (hn : n < p.bitmapFrames) :
    ∃ g, IsFrame g ∧ g.toNat / 4096 = n := by
  have hle := p.framesLe
  refine ⟨BitVec.ofNat 64 (n * 4096),isFrame_of_lt ?_ ?_,?_⟩ <;>
    rw [BitVec.toNat_ofNat] <;> omega

theorem Alive.conserved (h : Alive lowPd ph r s own)
    (hk : KernelMap ph kernelPml4 lowPd) : Conserved ph kernelPml4 r s := by
  have hfreed := h.space.tables.freed_freeUserPml4 h.space.root h.low
  refine ⟨h.respects hk,⟨fun n t ht => ?_,fun g hg => ?_⟩,?_⟩
  · have hf := hk.isFrame ht
    have htk := hk.taken n t ht
    refine ⟨(h.taken_freeUserPml4 hf).mpr (.inl htk),?_⟩
    rw [hfreed.mem,h.mem t hf htk]
  · obtain ⟨h1,h2⟩ := h.lent g hg
    exact (h.taken_freeUserPml4 h1).mpr h2
  · have hframes := hfreed.frames.trans h.frames
    ext n
    simp only [freeFrames,Set.mem_ofPred_eq,Set.mem_sdiff,hframes,not_exists,not_and]
    constructor
    · rintro ⟨hn,hfree⟩
      obtain ⟨g,hg,rfl⟩ := exists_frame hn
      have hnot : ¬ (Taken ph.pmm g ∨ g ∈ s.held) := by
        rw [← h.taken_freeUserPml4 hg]
        rintro ⟨_,hc⟩
        rw [hfree] at hc
        cases hc
      refine ⟨⟨hn,?_⟩,fun g' hg' hc => hnot (.inr ?_)⟩
      · rw [← Bool.not_eq_true]
        exact fun hc => hnot (.inl ⟨hn,hc⟩)
      · rw [← (h.heldFrame g' hg').1.ext hg hc]
        exact hg'
    · rintro ⟨⟨hn,hfree⟩,hheld⟩
      obtain ⟨g,hg,rfl⟩ := exists_frame hn
      refine ⟨hn,?_⟩
      rw [← Bool.not_eq_true]
      intro hc
      rcases (h.taken_freeUserPml4 hg).mp ⟨by rw [hframes]; exact hn,hc⟩ with ⟨_,h1⟩ | h1
      · rw [hfree] at h1
        cases h1
      · exact hheld g h1 rfl

def newborn (vm : TaskVm) (c : U64 × Phys) : State :=
  { vm := newTask vm c.1, phys := c.2, held := [], lent := [] }

theorem Alive.born (hk : KernelMap ph kernelPml4 lowPd)
    (hb : Born lowPd (KernelTables.ofPml4 ph kernelPml4) ph r ph' own) (vm : TaskVm) :
    Alive lowPd ph r (newborn vm (r, ph')) own := by
  have hp := Uvm.Process.born hk hb vm
  obtain ⟨t,ho,_⟩ := id hb.link
  obtain ⟨_,_,r',hr',hpres,_⟩ := hb.tables.parent ho
  refine ⟨hp.toSpace,hb.only,?_,.inr hb.link,hb.frames,fun g => ?_,fun g _ ht => hb.mem g ht,
    by simp [newborn],by simp [newborn],by simp [newborn],hk.taken 2 lowPd hk.reach_low⟩
  · rw [hb.tables.inj hr' hb.root] at hpres
    exact hpres
  · rw [show (newborn vm (r, ph')).phys = ph' from rfl,hb.foreign g]
    simp [newborn]

/-- Frames are conserved over the life of a space: a failed creation leaves the allocator and
the kernel's tables as they were, and after any run of careful steps so does the teardown. -/
theorem space_conserved (hk : KernelMap ph kernelPml4 lowPd) (vm : TaskVm) (ops : List Op)
    {c : U64 × Phys} (hcr : ph.processPml4Create (KernelTables.ofPml4 ph kernelPml4) = c) :
    (c.1 = 0#64 → freeFrames c.2.pmm = freeFrames ph.pmm ∧ Respects ph kernelPml4 [] c.2) ∧
      (c.1 ≠ 0#64 → Admissible (step c.1) (Careful ph c.1) (newborn vm c) ops →
        Always (step c.1) (Conserved ph kernelPml4 c.1) (newborn vm c) ops) := by
  subst hcr
  rcases create_cases hk.tables hk.sharesLow with ⟨hc,hu⟩ | ⟨hc,own,hb⟩
  · refine ⟨fun _ => ⟨?_,fun n t ht => ?_,by simp⟩,fun hne => absurd hc hne⟩
    · ext n
      simp only [freeFrames,Set.mem_ofPred_eq,hu.frames]
      refine and_congr_right fun hn => ?_
      obtain ⟨g,hg,rfl⟩ := exists_frame hn
      have := hu.taken g hg
      unfold Taken at this
      rw [hu.frames] at this
      rw [← Bool.not_eq_true,← Bool.not_eq_true,not_iff_not]
      exact ⟨fun h => (this.mp ⟨hn,h⟩).2,fun h => (this.mpr ⟨hn,h⟩).2⟩
    · have htk := hk.taken n t ht
      exact ⟨(hu.taken t (hk.isFrame ht)).mpr htk,hu.mem t htk⟩
  · refine ⟨fun h0 => absurd h0 hc,fun _ hops => ?_⟩
    refine hops.always (I := fun s => ∃ own, Alive lowPd ph _ s own) (fun s op hs hg => ?_)
      (fun s hs => ?_) ⟨own,Alive.born hk hb vm⟩
    · obtain ⟨own',hs⟩ := hs
      exact hs.step op hg
    · obtain ⟨own',hs⟩ := hs
      exact hs.conserved hk

/-- The space borrows a frame that somebody else took, drops it, and maps a page of its own in
the same place. -/
def borrowThenOwn : List Op :=
  [.take,
    .mapShared ⟨0x60000000#64,by unfold LowerHalf; decide⟩ 0x102000#64
      ⟨0x207#64,by unfold FlagsOnly; decide⟩,
    .call (.release 0x60000000#64 0x1000#64),
    .mapFresh ⟨0x60000000#64,by unfold LowerHalf; decide⟩
      ⟨7#64,plainFlags_seven⟩]

theorem space_conserved_borrowThenOwn :
    kernelSpace.1 ≠ 0#64 ∧
      Always (step kernelSpace.1) (Conserved kernelPhys 0x2000#64 kernelSpace.1)
        (newborn noTask kernelSpace) borrowThenOwn := by
  have hne : kernelSpace.1 ≠ 0#64 := by decide +kernel
  have hops : Admissible (step kernelSpace.1) (Careful kernelPhys kernelSpace.1)
      (newborn noTask kernelSpace) borrowThenOwn :=
    ⟨trivial,⟨by decide +kernel,.inr (by decide +kernel)⟩,trivial,
      show Vacant _ _ _ by decide +kernel,trivial⟩
  exact ⟨hne,(space_conserved kernelMap_kernelPhys noTask borrowThenOwn rfl).2 hne hops⟩

def mapTwice : List Op :=
  [.mapFresh ⟨0x50000000#64,by unfold LowerHalf; decide⟩
      ⟨7#64,plainFlags_seven⟩,
    .mapFresh ⟨0x50000000#64,by unfold LowerHalf; decide⟩
      ⟨7#64,plainFlags_seven⟩]

set_option maxRecDepth 20000 in
/-- `vmm_map_in` stores the second leaf over the first, whose frame nobody frees any more. -/
theorem mapTwice_leaks : ¬ Conserved kernelPhys 0x2000#64 kernelSpace.1
    (run (step kernelSpace.1) (newborn noTask kernelSpace) mapTwice) := by
  intro h
  have hheld : (run (step kernelSpace.1) (newborn noTask kernelSpace) mapTwice).held = [] :=
    rfl
  have hmem : 258 ∈ freeFrames kernelPhys.pmm := ⟨by decide,by decide⟩
  have hfree : (258 : ℕ) ∈ freeFrames (Phys.freeUserPml4 kernelSpace.1
      (run (step kernelSpace.1) (newborn noTask kernelSpace) mapTwice).phys).pmm := by
    rw [h.free,hheld]
    exact ⟨hmem,by simp⟩
  exact absurd hfree.2 (by decide +kernel)

end GaiaKernel.Lifecycle
