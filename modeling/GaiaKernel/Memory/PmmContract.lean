import GaiaKernel.Memory.Pmm
import GaiaKernel.Lib.Trace
import Mathlib.Order.Interval.Finset.Nat

/-! # Contract of the physical-frame allocator

The limited and contiguous entry points of memory/pmm.c, and what every call promises: the counter
of taken frames is the number of set bits, an allocation takes free frames of the range the caller
may have, and it fails only when that range holds no free run of the length.

The address 0 is also the answer "no frame", so a limited request that finds frame 0 free takes it
and reports a failure: the only way a call breaks its contract.
-/
namespace GaiaKernel
open Trace BitVec Finset
variable {hi lo n s stop : ℕ} {result : U64 × Pmm}
namespace Pmm
variable (p : Pmm)

/-- `first_frame` of the limited allocations: only a limit at or below 1 MiB asks for the
ISA DMA pool. -/
def firstFrameBelow (limit : U64) : ℕ :=
  if limit.toNat > 0x100000 then pmmGeneralFirst else 0

def framesBelow (limit : U64) : ℕ :=
  if limit.toNat / 4096 > p.bitmapFrames then p.bitmapFrames else limit.toNat / 4096

def cursorAfter (start next : ℕ) : ℕ :=
  if start ≥ pmmGeneralFirst then
    if next ≥ p.bitmapFrames then pmmGeneralFirst else next
  else p.nextFreeFrame

def pmmAllocFrameBelow (limit : U64) : U64 × Pmm :=
  let frames := p.framesBelow limit
  let f := p.findFreeFrame (firstFrameBelow limit) frames
  if f < frames then
    (BitVec.ofNat 64 (f * 4096),
      { p.bitmapSet f with
        usedFrames := p.usedFrames + 1
        nextFreeFrame := p.cursorAfter f (f + 1) })
  else (0#64, p)

/-- The scan of `pmm_alloc_contiguous_below` for the first run of `numFrames` free frames.
`consecutive` free frames from `startFrame` on end just before `f`. -/
def contiguousScan (maxFrames numFrames : ℕ) : ℕ → ℕ → ℕ → ℕ → Option ℕ
  | 0, _, _, _ => none
  | fuel + 1, f, consecutive, startFrame =>
    if f < maxFrames then
      if !p.bitmapTest f then
        let startFrame := if consecutive = 0 then f else startFrame
        if consecutive + 1 = numFrames then some startFrame
        else contiguousScan maxFrames numFrames fuel (f + 1) (consecutive + 1) startFrame
      else contiguousScan maxFrames numFrames fuel (f + 1) 0 startFrame
    else none

def markRun (start n : ℕ) : Pmm :=
  (List.range' start n).foldl
    (fun q i => { q.bitmapSet i with usedFrames := q.usedFrames + 1 }) p

def pmmAllocContiguousBelow (limit numFrames : U64) : U64 × Pmm :=
  if numFrames = 0#64 then (0#64, p)
  else
    let maxFrames := p.framesBelow limit
    match p.contiguousScan maxFrames numFrames.toNat (maxFrames + 1)
        (firstFrameBelow limit) 0 0 with
    | some start =>
      (BitVec.ofNat 64 (start * 4096),
        { p.markRun start numFrames.toNat with
          nextFreeFrame := p.cursorAfter start (start + numFrames.toNat) })
    | none => (0#64, p)

/-- The address arithmetic wraps as the source's does. -/
def pmmFreeContiguous (frame numFrames : U64) : Pmm :=
  (List.range numFrames.toNat).foldl
    (fun q i => q.pmmFreeFrame (frame + BitVec.ofNat 64 i * 4096#64)) p

/-! ## The contract -/

def setBits : Finset ℕ := (range p.bitmapFrames).filter fun f => p.bitmapTest f = true
def Counted : Prop := p.usedFrames = p.setBits.card
instance : Decidable p.Counted := inferInstanceAs (Decidable (_ = _))

def FreeRun (lo hi n start : ℕ) : Prop :=
  0 < n ∧ lo ≤ start ∧ start + n ≤ hi ∧
    ∀ g, start ≤ g → g < start + n → p.bitmapTest g = false

/-- What a request for `n` frames of `[lo, hi)` promises. A success marks exactly a run that was
free; a failure changes nothing and means that there was no such run. -/
def Serves (lo hi n : ℕ) (result : U64 × Pmm) : Prop :=
  if result.1 = 0#64 then result.2 = p ∧ ∀ start, ¬ p.FreeRun lo hi n start
  else ∃ start, result.1.toNat = start * 4096 ∧ p.FreeRun lo hi n start ∧
    ∀ g, result.2.bitmapTest g = (p.bitmapTest g || decide (start ≤ g ∧ g < start + n))

/-- Calls of the allocator, with arbitrary arguments. -/
inductive Call where
  | allocFrame
  | allocFrameBelow (limit : U64)
  | allocContiguousBelow (limit numFrames : U64)
  | freeFrame (frame : U64)
  | freeContiguous (frame numFrames : U64)

def call : Call → U64 × Pmm
  | .allocFrame => p.pmmAllocFrame
  | .allocFrameBelow limit => p.pmmAllocFrameBelow limit
  | .allocContiguousBelow limit numFrames => p.pmmAllocContiguousBelow limit numFrames
  | .freeFrame frame => (0#64, p.pmmFreeFrame frame)
  | .freeContiguous frame numFrames => (0#64, p.pmmFreeContiguous frame numFrames)

def step (c : Call) : Pmm := (p.call c).2

/-- The contract of one call: the counter stays right, general allocations serve a frame at
or above 1 MiB, limited ones serve a run below the limit. -/
def Meets (c : Call) : Prop :=
  (p.step c).Counted ∧
  match c with
  | .allocFrame => p.Serves pmmGeneralFirst p.bitmapFrames 1 (p.call c)
  | .allocFrameBelow limit => p.Serves (firstFrameBelow limit) (p.framesBelow limit) 1 (p.call c)
  | .allocContiguousBelow limit numFrames =>
    p.Serves (firstFrameBelow limit) (p.framesBelow limit) numFrames.toNat (p.call c)
  | .freeFrame _ => True
  | .freeContiguous _ _ => True

def Careful : Call → Prop
  | .allocFrameBelow limit => ¬ p.FreeRun (firstFrameBelow limit) (p.framesBelow limit) 1 0
  | .allocContiguousBelow limit numFrames =>
    ¬ p.FreeRun (firstFrameBelow limit) (p.framesBelow limit) numFrames.toNat 0
  | _ => True

variable {p}

/-! ## The byte-skipping search is complete -/

theorem ctz_spec {b : BitVec 8} (hb : b ≠ 0#8) :
    ctz b < 8 ∧ b.getLsbD (ctz b) = true ∧ ∀ i < ctz b, b.getLsbD i = false := by
  unfold ctz
  cases h : (List.range 8).find? b.getLsbD with
  | none =>
    exfalso
    refine hb (eq_of_getLsbD_eq fun i hi => ?_)
    have hnone := List.find?_eq_none.mp h i (List.mem_range.mpr hi)
    simpa using hnone
  | some i =>
    obtain ⟨hi,hmem,hlow⟩ := List.find?_range_eq_some.mp h
    refine ⟨List.mem_range.mp hmem,hi,fun j hj => ?_⟩
    simpa using hlow j hj

theorem getLsbD_freeBits (first i : ℕ) (hi : i < 8) :
    (~~~(p.bitmap (first / 8)) &&& (0xFF#8 <<< (first % 8))).getLsbD i =
      (!p.bitmapTest (first / 8 * 8 + i) && decide (first ≤ first / 8 * 8 + i)) := by
  have hdiv : (first / 8 * 8 + i) / 8 = first / 8 := by omega
  have hmod : (first / 8 * 8 + i) % 8 = i := by omega
  have hones : (0xFF#8 <<< (first % 8)).getLsbD i = decide (first ≤ first / 8 * 8 + i) := by
    have h255 : (0xFF#8 : BitVec 8) = allOnes 8 := by decide
    rw [h255,getLsbD_shiftLeft,getLsbD_allOnes]
    by_cases hle : first ≤ first / 8 * 8 + i
    · simp [hi,hle,show ¬ i < first % 8 by omega,show i - first % 8 < 8 by omega]
    · simp [hle,show i < first % 8 by omega]
  rw [getLsbD_and,getLsbD_not,hones,bitmapTest,hdiv,hmod,decide_eq_true hi,Bool.true_and]

/-- The search finds the first free frame of its window, if there is one. Every round passes
a whole byte, so the induction on the rounds left carries `stop ≤ first + fuel`. -/
theorem findFreeFrameLoop_spec (hstop : stop ≤ p.bitmapFrames) (fuel first : ℕ)
    (hfuel : stop ≤ first + fuel) :
    let f := p.findFreeFrameLoop stop fuel first
    (f < stop → first ≤ f ∧ p.bitmapTest f = false) ∧
      ∀ g, first ≤ g → g < f → g < stop → p.bitmapTest g = true := by
  induction fuel generalizing first with
  | zero =>
    refine ⟨fun h => ?_,fun g hfg _ hgs => ?_⟩
    · simp only [findFreeFrameLoop] at h; omega
    · omega
  | succ fuel ih =>
    simp only [findFreeFrameLoop]
    by_cases hs : first < stop
    · rw [if_pos hs]
      generalize hbits : ~~~(p.bitmap (first / 8)) &&& (0xFF#8 <<< (first % 8)) = bits
      have hbit : ∀ i < 8, bits.getLsbD i =
          (!p.bitmapTest (first / 8 * 8 + i) && decide (first ≤ first / 8 * 8 + i)) := by
        intro i hi
        rw [← hbits]
        exact getLsbD_freeBits first i hi
      -- a frame of this byte whose bit is clear in `bits` is taken
      have htaken : ∀ g, first ≤ g → g < first / 8 * 8 + 8 →
          bits.getLsbD (g - first / 8 * 8) = false → p.bitmapTest g = true := by
        intro g hfg hg hclear
        rw [hbit _ (by omega),show first / 8 * 8 + (g - first / 8 * 8) = g by omega] at hclear
        simpa [hfg] using hclear
      by_cases hb : bits = 0#8
      · rw [if_neg (by simpa using hb)]
        obtain ⟨hfound,hbefore⟩ := ih (first / 8 * 8 + 8) (by omega)
        refine ⟨fun h => ⟨by omega,(hfound h).2⟩,fun g hfg hgf hgs => ?_⟩
        by_cases hg : g < first / 8 * 8 + 8
        · exact htaken g hfg hg (by simp [hb])
        · exact hbefore g (by omega) hgf hgs
      · rw [if_pos hb]
        obtain ⟨hlt,hset,hlow⟩ := ctz_spec hb
        rw [hbit _ hlt] at hset
        have hfree : p.bitmapTest (first / 8 * 8 + ctz bits) = false ∧
            first ≤ first / 8 * 8 + ctz bits := by simpa using hset
        have hbefore : ∀ g, first ≤ g → g < first / 8 * 8 + ctz bits → p.bitmapTest g = true :=
          fun g hfg hg => htaken g hfg (by omega) (hlow _ (by omega))
        by_cases hf : first / 8 * 8 + ctz bits < stop
        · rw [if_pos hf]
          exact ⟨fun _ => ⟨hfree.2,hfree.1⟩,fun g hfg hg _ => hbefore g hfg hg⟩
        · rw [if_neg hf]
          exact ⟨fun h => by omega,fun g hfg _ hgs => hbefore g hfg (by omega)⟩
    · rw [if_neg hs]
      exact ⟨fun h => by omega,fun g hfg _ hgs => by omega⟩

theorem findFreeFrame_spec (hstop : stop ≤ p.bitmapFrames) (first : ℕ) :
    let f := p.findFreeFrame first stop
    (f < stop → first ≤ f ∧ p.bitmapTest f = false) ∧
      ∀ g, first ≤ g → g < f → g < stop → p.bitmapTest g = true :=
  findFreeFrameLoop_spec hstop stop first (by omega)

theorem allocScan_none (hstop : stop ≤ p.bitmapFrames) {fuel f : ℕ}
    (hfuel : stop < f + fuel) (h : p.allocScan stop fuel f = none) :
    ∀ g, f ≤ g → g < stop → p.bitmapTest g = true := by
  induction fuel generalizing f with
  | zero => omega
  | succ fuel ih =>
    intro g hfg hgs
    unfold allocScan at h
    rw [if_pos (show f < stop by omega)] at h
    by_cases ht : p.bitmapTest f = true
    · rw [if_neg (by simp [ht])] at h
      obtain ⟨hfound,hbefore⟩ := findFreeFrame_spec hstop (f + 1)
      rcases Nat.eq_or_lt_of_le hfg with rfl | hlt
      · exact ht
      · rcases Nat.lt_or_ge g (p.findFreeFrame (f + 1) stop) with hg | hg
        · exact hbefore g hlt hg hgs
        · exact ih (by omega) h g hg hgs
    · simp [ht] at h

/-! ## Marking and counting -/

theorem mem_setBits {f : ℕ} : f ∈ p.setBits ↔ f < p.bitmapFrames ∧ p.bitmapTest f = true := by
  simp [setBits]

/-- The state after `n` frames from `start` on have been marked and charged. -/
structure Marks (p q : Pmm) (start n : ℕ) : Prop where
  frames : q.bitmapFrames = p.bitmapFrames
  bits : ∀ g, q.bitmapTest g = (p.bitmapTest g || decide (start ≤ g ∧ g < start + n))
  used : q.usedFrames = p.usedFrames + n

theorem Counted.marks {q : Pmm} {start : ℕ} (hp : p.Counted) (hm : Marks p q start n)
    (hrun : p.FreeRun lo hi n start) (hhi : hi ≤ p.bitmapFrames) : q.Counted := by
  obtain ⟨_,_,hend,hfree⟩ := hrun
  have hbits : q.setBits = p.setBits ∪ Finset.Ico start (start + n) := by
    ext g
    simp only [mem_union,mem_setBits,mem_Ico,hm.frames,hm.bits g,Bool.or_eq_true,decide_eq_true_eq]
    constructor
    · rintro ⟨hg,ht | hr⟩
      · exact .inl ⟨hg,ht⟩
      · exact .inr hr
    · rintro (⟨hg,ht⟩ | hr)
      · exact ⟨hg,.inl ht⟩
      · exact ⟨by omega,.inr hr⟩
  have hdisj : Disjoint p.setBits (Finset.Ico start (start + n)) := by
    refine Finset.disjoint_left.mpr fun g hg hr => ?_
    rw [mem_Ico] at hr
    rw [mem_setBits,hfree g hr.1 hr.2] at hg
    exact Bool.false_ne_true hg.2
  unfold Counted at hp ⊢
  rw [hm.used,hbits,card_union_of_disjoint hdisj,Nat.card_Ico,hp]
  omega

theorem Counted.freeFrame (hp : p.Counted) (frame : U64) : (p.pmmFreeFrame frame).Counted := by
  have hbits := bitmapTest_pmmFreeFrame (p := p) frame
  have hframes := bitmapFrames_pmmFreeFrame (p := p) frame
  by_cases hreal : frame.toNat / 4096 < p.bitmapFrames ∧ p.bitmapTest (frame.toNat / 4096) = true
  · have hset : (p.pmmFreeFrame frame).setBits = p.setBits.erase (frame.toNat / 4096) := by
      ext g
      simp only [mem_erase,mem_setBits,hframes,hbits g,Bool.and_eq_true,
        Bool.not_eq_true',decide_eq_false_iff_not]
      constructor
      · rintro ⟨hg,ht,hne⟩
        exact ⟨fun he => hne ⟨he,hg⟩,hg,ht⟩
      · rintro ⟨hne,hg,ht⟩
        exact ⟨hg,ht,fun he => hne he.1⟩
    have hused : (p.pmmFreeFrame frame).usedFrames = p.usedFrames - 1 := by
      simp only [pmmFreeFrame]
      rw [if_neg (by omega),if_pos hreal.2]
    unfold Counted at hp ⊢
    rw [hused,hset,card_erase_of_mem (mem_setBits.mpr hreal),hp]
  · have hsame : p.pmmFreeFrame frame = p := by
      simp only [pmmFreeFrame]
      by_cases hf : frame.toNat / 4096 ≥ p.bitmapFrames
      · rw [if_pos hf]
      · rw [if_neg hf,if_neg fun ht => hreal ⟨by omega,ht⟩]
    rwa [hsame]

theorem Counted.freeContiguous (hp : p.Counted) (frame numFrames : U64) :
    (p.pmmFreeContiguous frame numFrames).Counted := by
  unfold pmmFreeContiguous
  generalize List.range numFrames.toNat = l
  induction l generalizing p with
  | nil => exact hp
  | cons i l ih => exact ih (hp.freeFrame _)

theorem markRun_marks (start n : ℕ) : Marks p (p.markRun start n) start n := by
  unfold markRun
  induction n generalizing p start with
  | zero => exact ⟨rfl,fun g => by simp [show ¬ (start ≤ g ∧ g < start) by omega],rfl⟩
  | succ n ih =>
    rw [List.range'_succ,List.foldl_cons]
    have hrest := ih (p := { p.bitmapSet start with usedFrames := p.usedFrames + 1 }) (start + 1)
    refine ⟨hrest.frames,fun g => ?_,hrest.used.trans (Nat.add_right_comm _ _ _)⟩
    have hone : ({ p.bitmapSet start with usedFrames := p.usedFrames + 1 } : Pmm).bitmapTest g =
        (decide (g = start) || p.bitmapTest g) := bitmapTest_bitmapSet start g
    rw [hrest.bits g,hone]
    by_cases hg : g = start
    · subst hg; simp
    · have hiff : (start + 1 ≤ g ∧ g < start + 1 + n) ↔ (start ≤ g ∧ g < start + (n + 1)) := by
        omega
      rw [decide_eq_false hg,Bool.false_or,decide_eq_decide.mpr hiff]

/-! ## The scan for a run -/

/-- The scan returns the first free run of the window. The counter is shorter than the run, the
frames it counts are free, the frame before them is taken or outside the window, and no run ends
before `f`. -/
theorem contiguousScan_spec (lo hi n fuel f consecutive startFrame : ℕ)
    (hfuel : hi < f + fuel) (hlo : lo + consecutive ≤ f) (hshort : consecutive < n)
    (hstart : 0 < consecutive → startFrame + consecutive = f)
    (hfree : ∀ g, f ≤ g + consecutive → g < f → p.bitmapTest g = false)
    (hedge : lo + consecutive < f → p.bitmapTest (f - consecutive - 1) = true)
    (hnone : ∀ s, lo ≤ s → s + n ≤ f → ¬ p.FreeRun lo hi n s) :
    match p.contiguousScan hi n fuel f consecutive startFrame with
    | some s => p.FreeRun lo hi n s ∧ ∀ s' < s, ¬ p.FreeRun lo hi n s'
    | none => ∀ s, ¬ p.FreeRun lo hi n s := by
  induction fuel generalizing f consecutive startFrame with
  | zero =>
    intro s hs
    exact hnone s hs.2.1 (by have := hs.2.2.1; omega) hs
  | succ fuel ih =>
    unfold contiguousScan
    by_cases hf : f < hi
    · rw [if_pos hf]
      by_cases ht : p.bitmapTest f = true
      · -- a taken frame: no run reaches past it, and the count starts again
        rw [if_neg (by simp [ht])]
        refine ih (f + 1) 0 startFrame (by omega) (by omega) (by omega) (by omega)
          (fun g h1 h2 => by omega) (fun _ => by simpa using ht) fun s hs hend hrun => ?_
        rcases Nat.eq_or_lt_of_le hend with he | hlt
        · have := hrun.2.2.2 f (by omega) (by omega)
          rw [ht] at this
          exact Bool.false_ne_true this.symm
        · exact hnone s hs (by omega) hrun
      · rw [if_pos (by simpa using ht)]
        have hcount : (if consecutive = 0 then f else startFrame) + consecutive = f := by
          split_ifs with h0
          · omega
          · exact hstart (by omega)
        have hfree' : ∀ g, f ≤ g + consecutive → g < f + 1 → p.bitmapTest g = false := by
          intro g h1 h2
          rcases Nat.eq_or_lt_of_le (Nat.lt_succ_iff.mp h2) with rfl | hlt
          · simpa using ht
          · exact hfree g h1 hlt
        -- a run that ends at `f` and is longer than the count meets the frame before it
        have hnew : ∀ s, lo ≤ s → s + n ≤ f + 1 → s + (consecutive + 1) < f + 1 →
            ¬ p.FreeRun lo hi n s := by
          intro s hs hend hlong hrun
          rcases Nat.eq_or_lt_of_le hend with he | hlt
          · have htaken := hedge (by omega)
            rw [hrun.2.2.2 (f - consecutive - 1) (by omega) (by omega)] at htaken
            exact Bool.false_ne_true htaken
          · exact hnone s hs (by omega) hrun
        by_cases hn : consecutive + 1 = n
        · rw [if_pos hn]
          refine ⟨⟨by omega,by omega,by omega,fun g h1 h2 => hfree' g (by omega) (by omega)⟩,
            fun s' hs' hrun => ?_⟩
          exact hnew s' hrun.2.1 (by omega) (by omega) hrun
        · rw [if_neg hn]
          refine ih (f + 1) (consecutive + 1) _ (by omega) (by omega) (by omega)
            (fun _ => by omega) (fun g h1 h2 => hfree' g (by omega) h2) (fun h => ?_)
            fun s hs hend => hnew s hs hend (by omega)
          have := hedge (by omega)
          rwa [show f + 1 - (consecutive + 1) - 1 = f - consecutive - 1 by omega]
    · rw [if_neg hf]
      intro s hs
      exact hnone s hs.2.1 (by have := hs.2.2.1; omega) hs

/-! ## The calls -/

theorem framesBelow_le (limit : U64) : p.framesBelow limit ≤ p.bitmapFrames := by
  unfold framesBelow
  split_ifs <;> omega

/-- What a request for `n` frames of `[lo, hi)` does: it takes the first run there is, or
fails for want of one. -/
def FirstFit (p : Pmm) (lo hi n : ℕ) (result : U64 × Pmm) : Prop :=
  (result = (0#64, p) ∧ ∀ s, ¬ p.FreeRun lo hi n s) ∨
    ∃ s, result.1 = BitVec.ofNat 64 (s * 4096) ∧ Marks p result.2 s n ∧
      p.FreeRun lo hi n s ∧ ∀ s' < s, ¬ p.FreeRun lo hi n s'

theorem pmmAllocFrameBelow_firstFit (limit : U64) :
    p.FirstFit (firstFrameBelow limit) (p.framesBelow limit) 1 (p.pmmAllocFrameBelow limit) := by
  obtain ⟨hfound,hbefore⟩ := findFreeFrame_spec (framesBelow_le limit) (firstFrameBelow limit)
  simp only [pmmAllocFrameBelow]
  generalize p.findFreeFrame (firstFrameBelow limit) (p.framesBelow limit) = f at hfound hbefore ⊢
  have htaken : ∀ s < f, ¬ p.FreeRun (firstFrameBelow limit) (p.framesBelow limit) 1 s := by
    intro s hs hrun
    have hfree := hrun.2.2.2 s le_rfl (by omega)
    rw [hbefore s hrun.2.1 hs (by have := hrun.2.2.1; omega)] at hfree
    exact Bool.false_ne_true hfree.symm
  by_cases hf : f < p.framesBelow limit
  · rw [if_pos hf]
    refine .inr ⟨f,rfl,⟨rfl,fun g => ?_,rfl⟩,?_,htaken⟩
    · have hiff : (g = f) ↔ (f ≤ g ∧ g < f + 1) := by omega
      exact (bitmapTest_bitmapSet f g).trans (by rw [Bool.or_comm]; simp [hiff])
    · refine ⟨by omega,(hfound hf).1,by omega,fun g h1 h2 => ?_⟩
      obtain rfl : g = f := by omega
      exact (hfound hf).2
  · rw [if_neg hf]
    refine .inl ⟨rfl,fun s hrun => htaken s ?_ hrun⟩
    have := hrun.2.2.1
    omega

theorem pmmAllocContiguousBelow_firstFit (limit numFrames : U64) :
    p.FirstFit (firstFrameBelow limit) (p.framesBelow limit) numFrames.toNat
      (p.pmmAllocContiguousBelow limit numFrames) := by
  simp only [pmmAllocContiguousBelow]
  by_cases h0 : numFrames = 0#64
  · rw [if_pos h0]
    exact .inl ⟨rfl,fun s hrun => by have := hrun.1; simp [h0] at this⟩
  · rw [if_neg h0]
    have hpos : 0 < numFrames.toNat := by
      rw [Nat.pos_iff_ne_zero]
      exact fun h => h0 (eq_of_toNat_eq (by simpa using h))
    have hscan := contiguousScan_spec (p := p) (firstFrameBelow limit) (p.framesBelow limit)
      numFrames.toNat (p.framesBelow limit + 1)
      (firstFrameBelow limit) 0 0 (by omega) (by omega) hpos (by omega) (fun g _ _ => by omega)
      (by omega) (fun s _ _ => by omega)
    revert hscan
    cases p.contiguousScan (p.framesBelow limit) numFrames.toNat (p.framesBelow limit + 1)
        (firstFrameBelow limit) 0 0 with
    | none => exact fun hscan => .inl ⟨rfl,hscan⟩
    | some s =>
      intro hscan
      have hm := markRun_marks (p := p) s numFrames.toNat
      exact .inr ⟨s,rfl,⟨hm.frames,hm.bits,hm.used⟩,hscan⟩

theorem pmmAllocFrame_serves :
    (p.pmmAllocFrame = (0#64, p) ∧ ∀ s, ¬ p.FreeRun pmmGeneralFirst p.bitmapFrames 1 s) ∨
      ∃ s, p.pmmAllocFrame.1 = BitVec.ofNat 64 (s * 4096) ∧ Marks p p.pmmAllocFrame.2 s 1 ∧
        p.FreeRun pmmGeneralFirst p.bitmapFrames 1 s := by
  rcases pmmAllocFrame_spec (p := p) with ⟨hfail,start,hstart,h1,h2⟩ | ⟨f,hge,hlt,hfree,heq⟩
  · refine .inl ⟨hfail,fun s hrun => ?_⟩
    have hs := hrun.2.2.2 s le_rfl (by omega)
    obtain ⟨_,hlo,hhi,_⟩ := hrun
    -- both scans came back empty
    rcases Nat.lt_or_ge s start with hlt | hge
    · have htaken := allocScan_none (by omega) (by omega) h2 s hlo hlt
      rw [hs] at htaken
      exact Bool.false_ne_true htaken
    · have htaken := allocScan_none le_rfl (by omega) h1 s hge (by omega)
      rw [hs] at htaken
      exact Bool.false_ne_true htaken
  · refine .inr ⟨f,by rw [heq],?_,by omega,hge,by omega,fun g h1 h2 => ?_⟩
    · rw [heq]
      refine ⟨rfl,fun g => ?_,rfl⟩
      have hiff : (g = f) ↔ (f ≤ g ∧ g < f + 1) := by omega
      exact (bitmapTest_allocateFrameAt f g).trans (by rw [Bool.or_comm]; simp [hiff])
    · obtain rfl : g = f := by omega
      exact hfree

theorem toNat_frameAddress (hs : s ≤ p.bitmapFrames) :
    (BitVec.ofNat 64 (s * 4096)).toNat = s * 4096 := by
  have := p.framesLe
  rw [toNat_ofNat,Nat.mod_eq_of_lt (by omega)]

theorem frameAddress_eq_zero (hs : s ≤ p.bitmapFrames) :
    BitVec.ofNat 64 (s * 4096) = 0#64 ↔ s = 0 := by
  have := toNat_frameAddress hs
  constructor
  · intro h
    rw [h] at this
    simp only [toNat_ofNat,Nat.zero_mod] at this
    omega
  · rintro rfl
    simp

theorem serves_of_marks (hhi : hi ≤ p.bitmapFrames)
    (haddr : result.1 = BitVec.ofNat 64 (s * 4096)) (hm : Marks p result.2 s n)
    (hrun : p.FreeRun lo hi n s) : p.Serves lo hi n result ↔ s ≠ 0 := by
  have hs : s ≤ p.bitmapFrames := by have := hrun.2.2.1; omega
  have hzero : result.1 = 0#64 ↔ s = 0 := by rw [haddr,frameAddress_eq_zero hs]
  unfold Serves
  by_cases h0 : s = 0
  · rw [if_pos (hzero.mpr h0)]
    exact ⟨fun h => absurd hrun (h.2 s),fun h => absurd h0 h⟩
  · rw [if_neg fun h => h0 (hzero.mp h),haddr]
    exact ⟨fun _ => h0,fun _ => ⟨s,toNat_frameAddress hs,hrun,hm.bits⟩⟩

theorem serves_of_none (hnone : ∀ s, ¬ p.FreeRun lo hi n s) : p.Serves lo hi n (0#64, p) := by
  unfold Serves
  exact ⟨rfl,hnone⟩

theorem FirstFit.serves_iff (hhi : hi ≤ p.bitmapFrames) (h : p.FirstFit lo hi n result) :
    p.Serves lo hi n result ↔ ¬ p.FreeRun lo hi n 0 := by
  rcases h with ⟨rfl,hnone⟩ | ⟨s,haddr,hm,hrun,hfirst⟩
  · exact ⟨fun _ => hnone 0,fun _ => serves_of_none hnone⟩
  · rw [serves_of_marks hhi haddr hm hrun]
    constructor
    · exact fun h0 => hfirst 0 (Nat.pos_of_ne_zero h0)
    · rintro hno rfl
      exact hno hrun

theorem FirstFit.counted (hhi : hi ≤ p.bitmapFrames)
    (hp : p.Counted) (h : p.FirstFit lo hi n result) : result.2.Counted := by
  rcases h with ⟨rfl,_⟩ | ⟨s,_,hm,hrun,_⟩
  · exact hp
  · exact hp.marks hm hrun hhi

theorem pmmAllocFrame_counted (hp : p.Counted) : p.pmmAllocFrame.2.Counted := by
  rcases pmmAllocFrame_serves (p := p) with ⟨hfail,_⟩ | ⟨s,_,hm,hrun⟩
  · rwa [hfail]
  · exact hp.marks hm hrun le_rfl

theorem Counted.step (hp : p.Counted) (c : Call) : (p.step c).Counted := by
  cases c with
  | allocFrame => exact pmmAllocFrame_counted hp
  | allocFrameBelow limit => exact (pmmAllocFrameBelow_firstFit limit).counted (framesBelow_le _) hp
  | allocContiguousBelow limit n =>
    exact (pmmAllocContiguousBelow_firstFit limit n).counted (framesBelow_le _) hp
  | freeFrame frame => exact hp.freeFrame frame
  | freeContiguous frame n => exact hp.freeContiguous frame n

theorem meets_iff_careful (hp : p.Counted) (c : Call) : p.Meets c ↔ p.Careful c := by
  have hcount := hp.step c
  cases c with
  | allocFrame =>
    refine ⟨fun _ => trivial,fun _ => ⟨hcount,?_⟩⟩
    rcases pmmAllocFrame_serves (p := p) with ⟨hfail,hnone⟩ | ⟨s,haddr,hm,hrun⟩
    · have hserves := serves_of_none hnone
      rwa [← hfail] at hserves
    · refine (serves_of_marks le_rfl haddr hm hrun).mpr ?_
      have := hrun.2.1
      unfold pmmGeneralFirst at this
      omega
  | allocFrameBelow limit =>
    have h := (pmmAllocFrameBelow_firstFit limit).serves_iff (framesBelow_le (p := p) limit)
    exact ⟨fun hm => h.mp hm.2,fun hc => ⟨hcount,h.mpr hc⟩⟩
  | allocContiguousBelow limit n =>
    have h := (pmmAllocContiguousBelow_firstFit limit n).serves_iff (framesBelow_le (p := p) limit)
    exact ⟨fun hm => h.mp hm.2,fun hc => ⟨hcount,h.mpr hc⟩⟩
  | freeFrame frame => exact ⟨fun _ => trivial,fun _ => ⟨hcount,trivial⟩⟩
  | freeContiguous frame n => exact ⟨fun _ => trivial,fun _ => ⟨hcount,trivial⟩⟩

theorem careful_of_frame_zero_taken (h0 : p.bitmapTest 0 = true) (c : Call) : p.Careful c := by
  have hno : ∀ lo hi n, ¬ p.FreeRun lo hi n 0 := by
    intro lo hi n hrun
    have hfree := hrun.2.2.2 0 le_rfl (by have := hrun.1; omega)
    rw [h0] at hfree
    exact Bool.false_ne_true hfree.symm
  cases c with
  | allocFrameBelow limit => exact hno _ _ _
  | allocContiguousBelow limit n => exact hno _ _ _
  | _ => trivial

/-- Along every run of calls the counter of taken frames is the number of set bits, and the
calls all meet their contracts exactly when none of them is a limited request that would be
given frame 0. -/
theorem run_meets_iff (hp : p.Counted) (cs : List Call) :
    Always step Counted p cs ∧ (Admissible step Meets p cs ↔ Admissible step Careful p cs) := by
  constructor
  · exact always_of_invariant (fun _ c h => h.step c) (fun _ h => h) hp cs
  · apply admissible_congr (I := Counted) _ _ hp
    · intro q c hq
      exact meets_iff_careful hq c
    · intro q c hq _
      exact hq.step c

theorem sixteen_frames_le : 16 ≤ 134217728 := by decide

def allTaken : Pmm where
  bitmap := fun _ => 0xFF#8
  bitmapFrames := 16
  usedFrames := 16
  nextFreeFrame := pmmGeneralFirst
  framesLe := sixteen_frames_le

theorem run_meets_iff_allTaken :
    allTaken.Counted ∧
      Admissible step Careful allTaken [.freeFrame 0x5000#64, .allocFrameBelow 0x10000#64] ∧
      Admissible step Meets allTaken [.freeFrame 0x5000#64, .allocFrameBelow 0x10000#64] := by
  have hc : allTaken.Counted := by decide +kernel
  have hcareful : Admissible step Careful allTaken
      [.freeFrame 0x5000#64, .allocFrameBelow 0x10000#64] :=
    ⟨trivial,careful_of_frame_zero_taken (by decide +kernel) _,trivial⟩
  exact ⟨hc,hcareful,(run_meets_iff hc _).2.mpr hcareful⟩

/-- Frame 0 is released and then the only free frame. A limited request marks it taken and
answers 0, the value that stands for "no frame below the limit". -/
theorem frame_zero_taken_and_lost :
    allTaken.Counted ∧ (allTaken.step (.freeFrame 0#64)).FreeRun 0 16 1 0 ∧
      ((allTaken.step (.freeFrame 0#64)).call (.allocFrameBelow 0x10000#64)).1 = 0#64 ∧
      ((allTaken.step (.freeFrame 0#64)).call (.allocFrameBelow 0x10000#64)).2.bitmapTest 0 = true ∧
      ¬ Admissible step Meets allTaken [.freeFrame 0#64, .allocFrameBelow 0x10000#64] := by
  have hrun : (allTaken.step (.freeFrame 0#64)).FreeRun 0 16 1 0 :=
    ⟨by decide,le_rfl,by decide,fun g _ hg => by
      obtain rfl : g = 0 := by omega
      decide +kernel⟩
  have hzero : ((allTaken.step (.freeFrame 0#64)).call (.allocFrameBelow 0x10000#64)).1 = 0#64 := by
    decide +kernel
  refine ⟨by decide +kernel,hrun,hzero,by decide +kernel,fun h => ?_⟩
  have hserves := h.2.1.2
  exact hserves.2 0 hrun

end Pmm

end GaiaKernel
