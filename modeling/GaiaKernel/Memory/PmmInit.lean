import GaiaKernel.Memory.PmmContract

/-! # Building the frame bitmap at boot

`pmm_init` of memory/pmm.c: size and place the bitmap, mark every frame taken, release the frames of
the usable regions and take back the reserved areas. Its inputs are the entries of the memory-map
tag and the module tags in the order of the walk; an absent map halts as an empty one does. Halting
is `none`. The page-table writes of `hhdm_extend` go to frames just allocated and are left out.

`mark_region_free` rounds the base of a region down, so a region that starts inside a frame releases
that whole frame.
-/
namespace GaiaKernel
open List Nat
open BitVec (toNat_add ofNat toNat_setWidth)
variable {f g : ℕ}
namespace Pmm
variable (p : Pmm)

def useFrame (f : ℕ) : Pmm :=
  if !p.bitmapTest f then { p.bitmapSet f with usedFrames := p.usedFrames + 1 } else p

def releaseFrame (f : ℕ) : Pmm :=
  if p.bitmapTest f then { p.bitmapClear f with usedFrames := p.usedFrames - 1 } else p

def regionFrames (start stop : ℕ) : List ℕ :=
  List.range' start (min stop p.bitmapFrames - start)

def usedSpan (base length : U64) : ℕ × ℕ :=
  (base.toNat / 4096, (base + length + 4095#64).toNat / 4096)

def freeSpan (base length : U64) : ℕ × ℕ :=
  (base.toNat / 4096, (base + length).toNat / 4096)

def markRegionUsed (base length : U64) : Pmm :=
  (p.regionFrames (usedSpan base length).1 (usedSpan base length).2).foldl useFrame p

def markRegionFree (base length : U64) : Pmm :=
  (p.regionFrames (freeSpan base length).1 (freeSpan base length).2).foldl releaseFrame p

variable {p}

@[simp] theorem bitmapFrames_useFrame (f : ℕ) : (p.useFrame f).bitmapFrames = p.bitmapFrames := by
  unfold useFrame
  split_ifs <;> rfl

@[simp] theorem bitmapFrames_releaseFrame (f : ℕ) :
    (p.releaseFrame f).bitmapFrames = p.bitmapFrames := by
  unfold releaseFrame
  split_ifs <;> rfl

theorem bitmapTest_useFrame (f g : ℕ) :
    (p.useFrame f).bitmapTest g = (p.bitmapTest g || decide (g = f)) := by
  unfold useFrame
  by_cases ht : p.bitmapTest f = true
  · rw [if_neg (by simp [ht])]
    by_cases hg : g = f
    · simp [hg,ht]
    · simp [hg]
  · rw [if_pos (by simpa using ht)]
    exact (bitmapTest_bitmapSet f g).trans (Bool.or_comm _ _)

theorem bitmapTest_releaseFrame (f g : ℕ) :
    (p.releaseFrame f).bitmapTest g = (p.bitmapTest g && !decide (g = f)) := by
  unfold releaseFrame
  by_cases ht : p.bitmapTest f = true
  · rw [if_pos ht]
    exact (bitmapTest_bitmapClear f g).trans (by rw [Bool.and_comm]; simp)
  · rw [if_neg ht]
    by_cases hg : g = f
    · simp [hg,ht]
    · simp [hg]

theorem mem_regionFrames {start stop : ℕ} :
    g ∈ p.regionFrames start stop ↔ start ≤ g ∧ g < stop ∧ g < p.bitmapFrames := by
  unfold regionFrames
  rw [mem_range'_1]
  omega

theorem bitmapFrames_foldl {α : Type*} {mark : Pmm → α → Pmm}
    (h : ∀ q a, (mark q a).bitmapFrames = q.bitmapFrames) (l : List α) :
    (l.foldl mark p).bitmapFrames = p.bitmapFrames := by
  induction l generalizing p with
  | nil => rfl
  | cons a l ih => exact ih.trans (h p a)

@[simp] theorem bitmapFrames_markRegionUsed (base length : U64) :
    (p.markRegionUsed base length).bitmapFrames = p.bitmapFrames :=
  bitmapFrames_foldl (fun _ _ => bitmapFrames_useFrame _) _

@[simp] theorem bitmapFrames_markRegionFree (base length : U64) :
    (p.markRegionFree base length).bitmapFrames = p.bitmapFrames :=
  bitmapFrames_foldl (fun _ _ => bitmapFrames_releaseFrame _) _

theorem bitmapTest_foldl_useFrame (l : List ℕ) (g : ℕ) :
    (l.foldl useFrame p).bitmapTest g = (p.bitmapTest g || decide (g ∈ l)) := by
  induction l generalizing p with
  | nil => simp
  | cons f l ih =>
    rw [foldl_cons,ih,bitmapTest_useFrame]
    simp [Bool.or_assoc]

theorem bitmapTest_foldl_releaseFrame (l : List ℕ) (g : ℕ) :
    (l.foldl releaseFrame p).bitmapTest g = (p.bitmapTest g && !decide (g ∈ l)) := by
  induction l generalizing p with
  | nil => simp
  | cons f l ih =>
    rw [foldl_cons,ih,bitmapTest_releaseFrame]
    simp [Bool.and_assoc]

theorem markRegionUsed_free (base length : U64) (hg : g < p.bitmapFrames) :
    (p.markRegionUsed base length).bitmapTest g = false ↔ p.bitmapTest g = false ∧
        ¬ ((usedSpan base length).1 ≤ g ∧ g < (usedSpan base length).2) := by
  rw [markRegionUsed,bitmapTest_foldl_useFrame]
  simp [mem_regionFrames,hg]

theorem markRegionFree_free (base length : U64) (hg : g < p.bitmapFrames) :
    (p.markRegionFree base length).bitmapTest g = false ↔
      p.bitmapTest g = false ∨ ((freeSpan base length).1 ≤ g ∧ g < (freeSpan base length).2) := by
  rw [markRegionFree,bitmapTest_foldl_releaseFrame]
  simp only [Bool.and_eq_false_iff,Bool.not_eq_false',decide_eq_true_eq,mem_regionFrames,hg,
    and_true]

end Pmm

namespace PmmInit
open Pmm

structure MmapEntry where
  base : U64
  len : U64
  type : U32

structure BootModule where
  modStart : U32
  modEnd : U32

/-- What `pmm_init` reads: the memory map, the module tags, the kernel's extent and the
place of the boot information block. -/
structure BootInfo where
  mmap : List MmapEntry
  modules : List BootModule
  kernelPhysStart : U64
  kernelPhysEnd : U64
  mb2Addr : U64
  mb2Size : U32

def MmapEntry.usable (e : MmapEntry) : Bool := e.type == 1#32
def maxU64 (a b : U64) : U64 := if a > b then a else b
def alignUp (value : U64) : U64 := (value + 4095#64) &&& ~~~4095#64

def highestUsable (mmap : List MmapEntry) : U64 :=
  mmap.foldl (fun highest e =>
    if e.usable ∧ e.base + e.len > highest then e.base + e.len else highest) 0#64

def findBitmapRegion (bitmapBytes : ℕ) (minAddr : U64) : List MmapEntry → U64
  | [] => 0#64
  | e :: rest =>
    if e.usable then
      let regionTop := e.base + e.len
      let candidate := alignUp (maxU64 e.base minAddr)
      if candidate < regionTop ∧ bitmapBytes ≤ (regionTop - candidate).toNat then candidate
      else findBitmapRegion bitmapBytes minAddr rest
    else findBitmapRegion bitmapBytes minAddr rest

variable (b : BootInfo)

def bitmapFrames : ℕ := (highestUsable b.mmap).toNat / 4096
def bitmapBytes : ℕ := (bitmapFrames b + 7) / 8

def minBitmapAddr : U64 :=
  b.modules.foldl (fun addr m => maxU64 addr (m.modEnd.setWidth 64))
    (maxU64 (maxU64 b.kernelPhysEnd (b.mb2Addr + b.mb2Size.setWidth 64)) 0x100000#64)

def bitmapPhys : U64 := findBitmapRegion (bitmapBytes b) (minBitmapAddr b) b.mmap

/-- The bitmap lies outside the 4 GiB that are mapped this early. -/
def outsideHhdm : Prop :=
  (bitmapPhys b).toNat ≥ 0x100000000 ∨ bitmapBytes b > 0x100000000 - (bitmapPhys b).toNat

instance : Decidable (outsideHhdm b) := inferInstanceAs (Decidable (_ ∨ _))
def requiredGib : ℕ := (highestUsable b.mmap + 0x3FFFFFFF#64).toNat / 0x40000000

/-- Base and length of every area marked taken again, in the order of the calls. -/
def reservedCalls : List (U64 × U64) :=
  [(0#64, 0x10000#64), (0xA0000#64, 0x60000#64),
    (b.kernelPhysStart, b.kernelPhysEnd - b.kernelPhysStart),
    (bitmapPhys b, BitVec.ofNat 64 (bitmapBytes b)),
    (b.mb2Addr, b.mb2Size.setWidth 64)] ++
  b.modules.map fun m => (m.modStart.setWidth 64, (m.modEnd - m.modStart).setWidth 64)

def blank (frames : ℕ) (h : frames ≤ 134217728) : Pmm where
  bitmap := fun _ => 0xFF#8
  bitmapFrames := frames
  usedFrames := frames
  nextFreeFrame := pmmGeneralFirst
  framesLe := h

/-- The passes over the memory map and over the reserved areas. -/
def markBoot (p : Pmm) : Pmm :=
  let released := (b.mmap.filter MmapEntry.usable).foldl (fun q e => q.markRegionFree e.base e.len) p
  (reservedCalls b).foldl (fun q a => q.markRegionUsed a.1 a.2) released

def hhdmExtend (gib : ℕ) (p : Pmm) : Option Pmm :=
  (List.range' 4 (gib - 4)).foldlM (fun q _ =>
    if (q.pmmAllocFrameBelow 0x100000000#64).1 = 0#64 then none
    else some (q.pmmAllocFrameBelow 0x100000000#64).2) p

theorem bitmapFrames_le (hplace : ¬ outsideHhdm b) (hgib : ¬ requiredGib b > 512) :
    bitmapFrames b ≤ 134217728 := by
  unfold outsideHhdm bitmapBytes bitmapFrames at hplace
  unfold requiredGib at hgib
  unfold bitmapFrames
  rw [toNat_add,show (0x3FFFFFFF#64).toNat = 0x3FFFFFFF from rfl,
    mod_eq_of_lt (by omega)] at hgib
  omega

/-- `pmm_init`. The test for more than 512 GiB stands in `hhdm_extend`, after the marking; it comes
first here because it bounds the bitmap, and a boot that fails it never returns either way. -/
def pmmInit : Option Pmm :=
  if highestUsable b.mmap = 0#64 then none
  else if bitmapPhys b = 0#64 then none
  else if hplace : outsideHhdm b then none
  else if hgib : requiredGib b > 512 then none
  else hhdmExtend (requiredGib b)
    (markBoot b (blank (bitmapFrames b) (bitmapFrames_le b hplace hgib)))

/-! ## Soundness of the result -/

def Inside (e : MmapEntry) (f : ℕ) : Prop :=
  e.base.toNat ≤ f * 4096 ∧ (f + 1) * 4096 ≤ e.base.toNat + e.len.toNat

def Overlaps (area : ℕ × ℕ) (f : ℕ) : Prop :=
  area.1 < area.2 ∧ area.1 < (f + 1) * 4096 ∧ f * 4096 < area.2

/-- The low area, the kernel image, the bitmap, the boot information block and the modules,
each as the range of addresses it occupies. -/
def reservedAreas : List (ℕ × ℕ) :=
  [(0, 0x10000), (0xA0000, 0x100000),
    (b.kernelPhysStart.toNat, b.kernelPhysEnd.toNat),
    ((bitmapPhys b).toNat, (bitmapPhys b).toNat + bitmapBytes b),
    (b.mb2Addr.toNat, b.mb2Addr.toNat + b.mb2Size.toNat)] ++
  b.modules.map fun m => (m.modStart.toNat, m.modEnd.toNat)

structure Sound (p : Pmm) : Prop where
  inside : ∀ f < p.bitmapFrames, p.bitmapTest f = false →
    ∃ e ∈ b.mmap, e.usable = true ∧ Inside e f
  apart : ∀ f < p.bitmapFrames, p.bitmapTest f = false →
    ∀ area ∈ reservedAreas b, ¬ Overlaps area f

def Touched (f : ℕ) : Prop :=
  ∃ a ∈ reservedCalls b, (usedSpan a.1 a.2).1 ≤ f ∧ f < (usedSpan a.1 a.2).2

/-- No usable region of the map that starts inside a frame releases that frame, unless the
frame lies wholly inside another usable region or is touched by a reserved area. -/
def StartsHarmless : Prop :=
  ∀ e ∈ b.mmap, e.usable = true → e.base.toNat % 4096 ≠ 0 →
    e.base.toNat / 4096 < (e.base + e.len).toNat / 4096 →
    e.base.toNat / 4096 < bitmapFrames b →
    (∃ e' ∈ b.mmap, e'.usable = true ∧ Inside e' (e.base.toNat / 4096)) ∨
      Touched b (e.base.toNat / 4096)

variable {b}

theorem bitmapTest_blank (frames : ℕ) (h : frames ≤ 134217728) (g : ℕ) :
    (blank frames h).bitmapTest g = true := by
  have hm : g % 8 < 8 := mod_lt _ (by decide)
  have h255 : (0xFF#8 : BitVec 8) = BitVec.allOnes 8 := by decide
  rw [bitmapTest,blank,h255,BitVec.getLsbD_allOnes,decide_eq_true hm]

theorem foldl_markRegionFree (es : List MmapEntry) (p : Pmm) (hg : g < p.bitmapFrames) :
    (es.foldl (fun q e => q.markRegionFree e.base e.len) p).bitmapTest g = false ↔
      p.bitmapTest g = false ∨
        ∃ e ∈ es, (freeSpan e.base e.len).1 ≤ g ∧ g < (freeSpan e.base e.len).2 := by
  induction es generalizing p with
  | nil => simp
  | cons e es ih =>
    rw [foldl_cons,ih _ (by simpa using hg),markRegionFree_free _ _ hg,exists_mem_cons_iff,or_assoc]

theorem foldl_markRegionUsed (as : List (U64 × U64)) (p : Pmm) (hg : g < p.bitmapFrames) :
    (as.foldl (fun q a => q.markRegionUsed a.1 a.2) p).bitmapTest g = false ↔
      p.bitmapTest g = false ∧ ¬ ∃ a ∈ as, (usedSpan a.1 a.2).1 ≤ g ∧ g < (usedSpan a.1 a.2).2 := by
  induction as generalizing p with
  | nil => simp
  | cons a as ih =>
    rw [foldl_cons,ih _ (by simpa using hg),markRegionUsed_free _ _ hg,
      exists_mem_cons_iff,not_or,and_assoc]

theorem bitmapFrames_markBoot (p : Pmm) : (markBoot b p).bitmapFrames = p.bitmapFrames :=
  (bitmapFrames_foldl (fun _ _ => bitmapFrames_markRegionUsed _ _) _).trans
    (bitmapFrames_foldl (fun _ _ => bitmapFrames_markRegionFree _ _) _)

theorem markBoot_free {frames : ℕ} (h : frames ≤ 134217728) (hf : f < frames) :
    (markBoot b (blank frames h)).bitmapTest f = false ↔
      (∃ e ∈ b.mmap, e.usable = true ∧ e.base.toNat / 4096 ≤ f ∧
        f < (e.base + e.len).toNat / 4096) ∧ ¬ Touched b f := by
  have hreleased : f < ((b.mmap.filter MmapEntry.usable).foldl
      (fun q e => q.markRegionFree e.base e.len) (blank frames h)).bitmapFrames := by
    rw [bitmapFrames_foldl fun _ _ => bitmapFrames_markRegionFree _ _]
    exact hf
  rw [markBoot,foldl_markRegionUsed _ _ hreleased,foldl_markRegionFree _ (blank frames h) hf,
    bitmapTest_blank]
  simp [Touched,freeSpan,and_assoc]

/-! ### Rounding -/

theorem inside_of_released {e : MmapEntry} (hlo : e.base.toNat / 4096 ≤ f)
    (hhi : f < (e.base + e.len).toNat / 4096)
    (hstart : e.base.toNat % 4096 ≠ 0 → f ≠ e.base.toNat / 4096) : Inside e f := by
  rw [toNat_add] at hhi
  unfold Inside
  by_cases hwrap : e.base.toNat + e.len.toNat < 2 ^ 64
  · by_cases ha : e.base.toNat % 4096 = 0
    · omega
    · omega
  · omega

theorem toNat_alignUp_of_wrap {v : U64} (h : v.toNat + 4095 ≥ 2 ^ 64) : alignUp v = 0#64 := by
  have hsum : (v + 4095#64).toNat < 4096 := by
    rw [toNat_add,show (4095#64).toNat = 4095 from rfl]
    omega
  have hlow : (v + 4095#64) &&& 4095#64 = v + 4095#64 := by
    apply BitVec.eq_of_toNat_eq
    rw [and_4095_toNat,mod_eq_of_lt hsum]
  rw [alignUp,← hlow,BitVec.and_assoc]
  simp

theorem le_maxU64 (a c : U64) : a.toNat ≤ (maxU64 a c).toNat ∧ c.toNat ≤ (maxU64 a c).toNat := by
  unfold maxU64
  split_ifs with h
  · exact ⟨le_rfl,le_of_lt h⟩
  · exact ⟨by simpa [BitVec.lt_def] using h,le_rfl⟩

theorem le_foldl_maxU64 (ms : List BootModule) (a : U64) :
    a.toNat ≤ (ms.foldl (fun addr m => maxU64 addr (m.modEnd.setWidth 64)) a).toNat := by
  induction ms generalizing a with
  | nil => exact le_rfl
  | cons m ms ih => exact (le_maxU64 _ _).1.trans (ih _)

theorem findBitmapRegion_of_wrap (bytes : ℕ) {minAddr : U64} (h : minAddr.toNat + 4095 ≥ 2 ^ 64)
    (mmap : List MmapEntry) : findBitmapRegion bytes minAddr mmap = 0#64 := by
  induction mmap with
  | nil => rfl
  | cons e rest ih =>
    have hcand : alignUp (maxU64 e.base minAddr) = 0#64 :=
      toNat_alignUp_of_wrap (by have := (le_maxU64 e.base minAddr).2; omega)
    simp [findBitmapRegion,hcand,ih]

theorem ends_of_placed (hplaced : bitmapPhys b ≠ 0#64) : b.kernelPhysEnd.toNat + 4095 < 2 ^ 64 ∧
      (b.mb2Addr + b.mb2Size.setWidth 64).toNat + 4095 < 2 ^ 64 := by
  have hmin : (minBitmapAddr b).toNat + 4095 < 2 ^ 64 := by
    by_contra h
    exact hplaced (findBitmapRegion_of_wrap _ (Nat.le_of_not_lt h) _)
  have h0 := le_foldl_maxU64 b.modules
    (maxU64 (maxU64 b.kernelPhysEnd (b.mb2Addr + b.mb2Size.setWidth 64)) 0x100000#64)
  have h1 := (le_maxU64 (maxU64 b.kernelPhysEnd (b.mb2Addr + b.mb2Size.setWidth 64))
    0x100000#64).1
  have h2 := le_maxU64 b.kernelPhysEnd (b.mb2Addr + b.mb2Size.setWidth 64)
  unfold minBitmapAddr at hmin
  omega

theorem span_of_overlaps {base length : U64} {area : ℕ × ℕ} (ho : Overlaps area f)
    (hlo : base.toNat = area.1) (hhi : area.2 ≤ (base + length).toNat)
    (hwrap : (base + length).toNat + 4095 < 2 ^ 64) :
    (usedSpan base length).1 ≤ f ∧ f < (usedSpan base length).2 := by
  obtain ⟨_,h1,h2⟩ := ho
  have hstop : (base + length + 4095#64).toNat = (base + length).toNat + 4095 := by
    rw [toNat_add (base + length),show (4095#64).toNat = 4095 from rfl,mod_eq_of_lt hwrap]
  unfold usedSpan
  constructor <;> dsimp only <;> omega

theorem touched_of_overlaps (hplaced : bitmapPhys b ≠ 0#64) (hplace : ¬ outsideHhdm b)
    (hf : f < 134217728) {area : ℕ × ℕ} (hmem : area ∈ reservedAreas b) (ho : Overlaps area f) :
    Touched b f := by
  obtain ⟨hkernel,hinfo⟩ := ends_of_placed hplaced
  unfold outsideHhdm at hplace
  simp only [reservedAreas,cons_append,nil_append,mem_cons,mem_map] at hmem
  rcases hmem with rfl | rfl | rfl | rfl | rfl | ⟨m,hm,rfl⟩
  · exact ⟨(0#64, 0x10000#64),by simp [reservedCalls],
      span_of_overlaps ho (by decide) (by decide) (by decide)⟩
  · exact ⟨(0xA0000#64, 0x60000#64),by simp [reservedCalls],
      span_of_overlaps ho (by decide) (by decide) (by decide)⟩
  · have hend : b.kernelPhysStart + (b.kernelPhysEnd - b.kernelPhysStart) = b.kernelPhysEnd := by
      rw [BitVec.add_comm,BitVec.sub_add_cancel]
    exact ⟨(b.kernelPhysStart, b.kernelPhysEnd - b.kernelPhysStart),by simp [reservedCalls],
      span_of_overlaps ho rfl (by rw [hend]) (by rw [hend]; exact hkernel)⟩
  · have hend : (bitmapPhys b + ofNat 64 (bitmapBytes b)).toNat =
        (bitmapPhys b).toNat + bitmapBytes b := by
      rw [toNat_add,BitVec.toNat_ofNat,mod_eq_of_lt (by omega : bitmapBytes b < _),
        mod_eq_of_lt (by omega)]
    exact ⟨(bitmapPhys b, ofNat 64 (bitmapBytes b)),by simp [reservedCalls],
      span_of_overlaps ho rfl (by rw [hend]) (by rw [hend]; omega)⟩
  · have hlow : b.mb2Addr.toNat < (f + 1) * 4096 := ho.2.1
    have hend : (b.mb2Addr + b.mb2Size.setWidth 64).toNat = b.mb2Addr.toNat + b.mb2Size.toNat := by
      rw [toNat_add,toNat_setWidth,mod_eq_of_lt (by omega : b.mb2Size.toNat < _),
        mod_eq_of_lt (by omega)]
    exact ⟨(b.mb2Addr, b.mb2Size.setWidth 64),by simp [reservedCalls],
      span_of_overlaps ho rfl (by rw [hend]) hinfo⟩
  · have he := m.modEnd.isLt
    have hlt : m.modStart.toNat < m.modEnd.toNat := ho.1
    have hlen : ((m.modEnd - m.modStart).setWidth 64).toNat = m.modEnd.toNat - m.modStart.toNat := by
      rw [toNat_setWidth,BitVec.toNat_sub]
      omega
    have hbase : (m.modStart.setWidth 64).toNat = m.modStart.toNat := by
      rw [toNat_setWidth]
      omega
    have hend : (m.modStart.setWidth 64 + (m.modEnd - m.modStart).setWidth 64).toNat =
        m.modEnd.toNat := by
      rw [toNat_add,hlen,hbase]
      omega
    refine ⟨(m.modStart.setWidth 64, (m.modEnd - m.modStart).setWidth 64),?_,
      span_of_overlaps ho hbase (by rw [hend]) (by rw [hend]; omega)⟩
    simp only [reservedCalls,mem_append,mem_map]
    exact Or.inr ⟨m,hm,rfl⟩

/-! ### The result -/

theorem sound_markBoot_iff (hplaced : bitmapPhys b ≠ 0#64) (hplace : ¬ outsideHhdm b)
    (hframes : bitmapFrames b ≤ 134217728) :
    Sound b (markBoot b (blank (bitmapFrames b) hframes)) ↔ StartsHarmless b := by
  constructor
  · intro hs e he hu ha hlt hreal
    by_cases ht : Touched b (e.base.toNat / 4096)
    · exact Or.inr ht
    · left
      have hfree := (markBoot_free hframes hreal).mpr ⟨⟨e,he,hu,le_rfl,hlt⟩,ht⟩
      exact hs.inside _ (by rwa [bitmapFrames_markBoot]) hfree
  · intro hstart
    refine ⟨fun f hf hfree => ?_,fun f hf hfree area hmem ho => ?_⟩
    · rw [bitmapFrames_markBoot] at hf
      obtain ⟨⟨e,he,hu,hlo,hhi⟩,ht⟩ := (markBoot_free hframes hf).mp hfree
      by_cases hfirst : e.base.toNat % 4096 ≠ 0 ∧ f = e.base.toNat / 4096
      · obtain ⟨ha,rfl⟩ := hfirst
        exact (hstart e he hu ha hhi hf).resolve_right ht
      · exact ⟨e,he,hu,inside_of_released hlo hhi fun ha hfe => hfirst ⟨ha,hfe⟩⟩
    · rw [bitmapFrames_markBoot] at hf
      refine ((markBoot_free hframes hf).mp hfree).2 ?_
      exact touched_of_overlaps hplaced hplace (hf.trans_le hframes) hmem ho

theorem Sound.of_taken {p q : Pmm} (h : Sound b p) (hframes : q.bitmapFrames = p.bitmapFrames)
    (hbits : ∀ f, q.bitmapTest f = false → p.bitmapTest f = false) : Sound b q where
  inside f hf hfree := h.inside f (hframes ▸ hf) (hbits f hfree)
  apart f hf hfree := h.apart f (hframes ▸ hf) (hbits f hfree)

theorem Sound.allocFrameBelow {p : Pmm} (h : Sound b p) (limit : U64) :
    Sound b (p.pmmAllocFrameBelow limit).2 := by
  rcases pmmAllocFrameBelow_firstFit (p := p) limit with ⟨hfail,_⟩ | ⟨s,_,hm,_,_⟩
  · rwa [hfail]
  · refine h.of_taken hm.frames fun f hfree => ?_
    rw [hm.bits,Bool.or_eq_false_iff] at hfree
    exact hfree.1

theorem Sound.hhdmExtend {gib : ℕ} {p q : Pmm} (h : Sound b p) (hq : hhdmExtend gib p = some q) :
    Sound b q := by
  unfold PmmInit.hhdmExtend at hq
  generalize range' 4 (gib - 4) = l at hq
  induction l generalizing p with
  | nil =>
    simp only [foldlM_nil,Option.pure_def,Option.some.injEq] at hq
    exact hq ▸ h
  | cons g l ih =>
    rw [foldlM_cons] at hq
    by_cases h0 : (p.pmmAllocFrameBelow 0x100000000#64).1 = 0#64
    · simp [h0] at hq
    · rw [if_neg h0] at hq
      exact ih (h.allocFrameBelow _) hq

/-- When `pmm_init` returns, the marking passes have left a sound bitmap exactly when the
starts of the usable regions do no harm, and then its final result is sound too: the tables
of the direct map only take frames. -/
theorem pmmInit_sound_iff {p : Pmm} (h : pmmInit b = some p) :
    ∃ hframes : bitmapFrames b ≤ 134217728,
      (Sound b (markBoot b (blank (bitmapFrames b) hframes)) ↔ StartsHarmless b) ∧
        (StartsHarmless b → Sound b p) := by
  unfold pmmInit at h
  split_ifs at h with h0 hplaced hplace hgib
  have hframes := bitmapFrames_le b hplace hgib
  have hiff := sound_markBoot_iff hplaced hplace hframes
  exact ⟨hframes,hiff,fun hstart => (hiff.mpr hstart).hhdmExtend h⟩

/-- A usable region in low memory that starts at `lowBase`, one from 1 MiB on that holds the
kernel's page and the bitmap, and the boot information in the first page. -/
def smallBoot (lowBase : U64) : BootInfo where
  mmap := [⟨lowBase,0x1800#64,1#32⟩, ⟨0x100000#64,0x3000#64,1#32⟩]
  modules := []
  kernelPhysStart := 0x100000#64
  kernelPhysEnd := 0x101000#64
  mb2Addr := 0x1000#64
  mb2Size := 0x100#32

theorem pmmInit_sound_smallBoot :
    ∃ p, pmmInit (smallBoot 0x20000#64) = some p ∧ p.bitmapTest 0x20 = false ∧
      Sound (smallBoot 0x20000#64) p := by
  have hrun : (pmmInit (smallBoot 0x20000#64)).map (fun p => p.bitmapTest 0x20) = some false := by
    decide +kernel
  obtain ⟨p,hp,hfree⟩ := Option.map_eq_some_iff.mp hrun
  obtain ⟨_,_,hsound⟩ := pmmInit_sound_iff hp
  refine ⟨p,hp,hfree,hsound fun e he _ ha => ?_⟩
  simp only [smallBoot,mem_cons,not_mem_nil,or_false] at he
  rcases he with rfl | rfl <;> exact absurd (by decide) ha

/-- A usable region that starts in the middle of frame 0x20: the whole frame is released,
although its first half belongs to no usable region. -/
theorem unaligned_region_frees_first_frame :
    ∃ p, pmmInit (smallBoot 0x20800#64) = some p ∧ p.bitmapTest 0x20 = false ∧
      ¬ ∃ e ∈ (smallBoot 0x20800#64).mmap, e.usable = true ∧ Inside e 0x20 := by
  have hrun : (pmmInit (smallBoot 0x20800#64)).map (fun p => p.bitmapTest 0x20) = some false := by
    decide +kernel
  obtain ⟨p,hp,hfree⟩ := Option.map_eq_some_iff.mp hrun
  refine ⟨p,hp,hfree,?_⟩
  rintro ⟨e,he,_,hin⟩
  simp only [smallBoot,mem_cons,not_mem_nil,or_false] at he
  rcases he with rfl | rfl <;> exact absurd hin.1 (by decide)

end PmmInit

end GaiaKernel
