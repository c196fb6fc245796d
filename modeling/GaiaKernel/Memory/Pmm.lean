import GaiaKernel.Memory.Word

/-! # Physical-frame allocator

The bitmap allocator of memory/pmm.c: one bit per 4 KiB frame, set while the frame is taken, with a
next-fit hint. `pmmAllocFrame_spec` and `bitmapTest_pmmFreeFrame` say what calls do to the set of
free frames; nothing above this module looks at the bitmap.
-/
namespace GaiaKernel
open Function BitVec

/-- Static state of pmm.c. The direct map holds at most 512 GiB of RAM (`hhdm_extend`
halts beyond it), so the bitmap never covers more than `2 ^ 27` frames. -/
structure Pmm where
  bitmap : ℕ → BitVec 8
  bitmapFrames : ℕ
  usedFrames : ℕ
  nextFreeFrame : ℕ
  framesLe : bitmapFrames ≤ 134217728

def pmmGeneralFirst : ℕ := 0x100000 / 4096

namespace Pmm
variable (p : Pmm)

def bitmapSet (frame : ℕ) : Pmm :=
  let byte := p.bitmap (frame / 8) ||| (1#8 <<< (frame % 8))
  { p with bitmap := Function.update p.bitmap (frame / 8) byte }

def bitmapClear (frame : ℕ) : Pmm :=
  let byte := p.bitmap (frame / 8) &&& ~~~(1#8 <<< (frame % 8))
  { p with bitmap := Function.update p.bitmap (frame / 8) byte }

def bitmapTest (frame : ℕ) : Bool := (p.bitmap (frame / 8)).getLsbD (frame % 8)
def ctz (b : BitVec 8) : ℕ := ((List.range 8).find? b.getLsbD).getD 8

/-- The byte-skipping scan of `find_free_frame`; every round advances by at least one
frame, so `stop` rounds are enough. -/
def findFreeFrameLoop (stop : ℕ) : ℕ → ℕ → ℕ
  | 0, _ => p.bitmapFrames
  | fuel + 1, first =>
    if first < stop then
      let freeBits := ~~~(p.bitmap (first / 8)) &&& (0xFF#8 <<< (first % 8))
      if freeBits ≠ 0#8 then
        let frame := first / 8 * 8 + ctz freeBits
        if frame < stop then frame else p.bitmapFrames
      else findFreeFrameLoop stop fuel (first / 8 * 8 + 8)
    else p.bitmapFrames

def findFreeFrame (first stop : ℕ) : ℕ := p.findFreeFrameLoop stop stop first

def allocateFrameAt (frame : ℕ) : Pmm :=
  let next := frame + 1
  { p.bitmapSet frame with
    usedFrames := p.usedFrames + 1
    nextFreeFrame := if next ≥ p.bitmapFrames then pmmGeneralFirst else next }

/-- One of the two scans of `pmm_alloc_frame`: test the current frame, and look for the next
free one when it is taken. -/
def allocScan (stop : ℕ) : ℕ → ℕ → Option ℕ
  | 0, _ => none
  | fuel + 1, f =>
    if f < stop then
      if !p.bitmapTest f then some f else allocScan stop fuel (p.findFreeFrame (f + 1) stop)
    else none

/-- The frame's physical address, or 0 when no frame is left. -/
def pmmAllocFrame : U64 × Pmm :=
  let first := pmmGeneralFirst
  let start := if p.nextFreeFrame < first ∨ p.nextFreeFrame ≥ p.bitmapFrames then first
    else p.nextFreeFrame
  match p.allocScan p.bitmapFrames (p.bitmapFrames + 1) start with
  | some f => (BitVec.ofNat 64 (f * 4096), p.allocateFrameAt f)
  | none =>
    match p.allocScan start (p.bitmapFrames + 1) first with
    | some f => (BitVec.ofNat 64 (f * 4096), p.allocateFrameAt f)
    | none => (0#64, p)

def pmmFreeFrame (frame : U64) : Pmm :=
  let f := frame.toNat / 4096
  if f ≥ p.bitmapFrames then p
  else if p.bitmapTest f then
    let q := p.bitmapClear f
    { q with
      usedFrames := p.usedFrames - 1
      nextFreeFrame := if f ≥ pmmGeneralFirst ∧ f < p.nextFreeFrame then f
        else p.nextFreeFrame }
  else p

variable {p}

theorem getLsbD_bit (f g : ℕ) : (1#8 <<< (f % 8)).getLsbD (g % 8) = decide (g % 8 = f % 8) := by
  rw [← twoPow_eq,getLsbD_twoPow,decide_eq_true (Nat.mod_lt f (by decide)),Bool.true_and]
  exact decide_eq_decide.mpr eq_comm

theorem bitmapTest_bitmapSet (f g : ℕ) :
    (p.bitmapSet f).bitmapTest g = (decide (g = f) || p.bitmapTest g) := by
  by_cases hb : g / 8 = f / 8
  · have hfg : (g % 8 = f % 8) ↔ g = f := by omega
    simp only [bitmapTest,bitmapSet,hb,update_self,getLsbD_or,getLsbD_bit,hfg,Bool.or_comm]
  · have hne : g ≠ f := by rintro rfl; exact hb rfl
    simp [bitmapTest,bitmapSet,update_of_ne hb,hne]

theorem bitmapTest_bitmapClear (f g : ℕ) :
    (p.bitmapClear f).bitmapTest g = (decide (g ≠ f) && p.bitmapTest g) := by
  have hm : g % 8 < 8 := Nat.mod_lt _ (by decide)
  by_cases hb : g / 8 = f / 8
  · have hfg : (g % 8 = f % 8) ↔ g = f := by omega
    simp only [bitmapTest,bitmapClear,hb,update_self,getLsbD_and,getLsbD_not,getLsbD_bit,hfg,hm]
    simp [Bool.and_comm]
  · have hne : g ≠ f := by rintro rfl; exact hb rfl
    simp [bitmapTest,bitmapClear,update_of_ne hb,hne]

@[simp] theorem bitmapFrames_pmmFreeFrame (frame : U64) :
    (p.pmmFreeFrame frame).bitmapFrames = p.bitmapFrames := by
  simp only [pmmFreeFrame]
  split_ifs <;> rfl

theorem bitmapTest_allocateFrameAt (f g : ℕ) :
    (p.allocateFrameAt f).bitmapTest g = (decide (g = f) || p.bitmapTest g) :=
  bitmapTest_bitmapSet f g

theorem allocScan_some {stop fuel f g : ℕ} (h : p.allocScan stop fuel f = some g) :
    g < stop ∧ p.bitmapTest g = false := by
  induction fuel generalizing f with
  | zero => simp [allocScan] at h
  | succ fuel ih =>
    unfold allocScan at h
    split_ifs at h with hf ht
    · cases h
      exact ⟨hf,by simpa using ht⟩
    · exact ih h

theorem le_ctz_of_mask (b : BitVec 8) (k : ℕ) (hk : k < 8) : k ≤ ctz (b &&& (0xFF#8 <<< k)) := by
  unfold ctz
  cases h : (List.range 8).find? (b &&& (0xFF#8 <<< k)).getLsbD with
  | none => simp only [Option.getD_none]; omega
  | some i =>
    have hi := List.find?_some h
    simp only [getLsbD_and,getLsbD_shiftLeft,Bool.and_eq_true] at hi
    simpa using hi.2.1.2

theorem findFreeFrameLoop_ge (stop fuel first : ℕ) :
    p.findFreeFrameLoop stop fuel first = p.bitmapFrames ∨
      first ≤ p.findFreeFrameLoop stop fuel first := by
  induction fuel generalizing first with
  | zero => exact Or.inl rfl
  | succ fuel ih =>
    simp only [findFreeFrameLoop]
    split_ifs with hs hb hf
    · have := le_ctz_of_mask (~~~(p.bitmap (first / 8))) (first % 8) (Nat.mod_lt _ (by decide))
      omega
    · exact Or.inl rfl
    · rcases ih (first / 8 * 8 + 8) with h | h <;> omega
    · exact Or.inl rfl

theorem allocScan_ge {stop fuel f g : ℕ} (hstop : stop ≤ p.bitmapFrames)
    (h : p.allocScan stop fuel f = some g) : f ≤ g := by
  induction fuel generalizing f with
  | zero => simp [allocScan] at h
  | succ fuel ih =>
    unfold allocScan at h
    split_ifs at h with hf ht
    · cases h; rfl
    · have hle := ih h
      rcases findFreeFrameLoop_ge (p := p) stop stop (f + 1) with he | he
      · unfold findFreeFrame at hle; omega
      · unfold findFreeFrame at hle; omega

theorem pmmAllocFrame_spec : (p.pmmAllocFrame = (0#64, p) ∧ ∃ start,
        (start = pmmGeneralFirst ∨ start ≤ p.bitmapFrames) ∧
        p.allocScan p.bitmapFrames (p.bitmapFrames + 1) start = none ∧
        p.allocScan start (p.bitmapFrames + 1) pmmGeneralFirst = none) ∨
      ∃ f, pmmGeneralFirst ≤ f ∧ f < p.bitmapFrames ∧ p.bitmapTest f = false ∧
        p.pmmAllocFrame = (BitVec.ofNat 64 (f * 4096), p.allocateFrameAt f) := by
  simp only [pmmAllocFrame]
  generalize hst : (if p.nextFreeFrame < pmmGeneralFirst ∨ p.nextFreeFrame ≥ p.bitmapFrames
    then pmmGeneralFirst else p.nextFreeFrame) = start
  have hstart : pmmGeneralFirst ≤ start ∧ (start = pmmGeneralFirst ∨ start ≤ p.bitmapFrames) := by
    rw [← hst]; split_ifs <;> omega
  cases h1 : p.allocScan p.bitmapFrames (p.bitmapFrames + 1) start with
  | some f =>
    have hs := allocScan_some h1
    exact Or.inr ⟨f,hstart.1.trans (allocScan_ge le_rfl h1),hs.1,hs.2,rfl⟩
  | none =>
    cases h2 : p.allocScan start (p.bitmapFrames + 1) pmmGeneralFirst with
    | none => exact Or.inl ⟨rfl,start,hstart.2,h1,h2⟩
    | some f =>
      have hs := allocScan_some h2
      rcases hstart.2 with he | hle
      · simp [allocScan,he] at h2
      · exact Or.inr ⟨f,allocScan_ge hle h2,hs.1.trans_le hle,hs.2,rfl⟩

theorem bitmapTest_pmmFreeFrame (frame : U64) (g : ℕ) : (p.pmmFreeFrame frame).bitmapTest g =
      (p.bitmapTest g && !(decide (g = frame.toNat / 4096 ∧ g < p.bitmapFrames))) := by
  simp only [pmmFreeFrame]
  by_cases hf : frame.toNat / 4096 ≥ p.bitmapFrames
  · have : ¬ (g = frame.toNat / 4096 ∧ g < p.bitmapFrames) := by omega
    simp [hf,this]
  · by_cases ht : p.bitmapTest (frame.toNat / 4096) = true
    · rw [if_neg hf,if_pos ht]
      refine (bitmapTest_bitmapClear _ _).trans ?_
      by_cases hg : g = frame.toNat / 4096
      · subst hg; simp [show frame.toNat / 4096 < p.bitmapFrames by omega]
      · simp [hg]
    · rw [if_neg hf,if_neg ht]
      by_cases hg : g = frame.toNat / 4096
      · subst hg; simp [ht]
      · simp [hg]

end Pmm

end GaiaKernel
