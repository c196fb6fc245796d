import GaiaKernel.Fat.Volume

/-! # What an accepted FAT volume looks like

`fatMountFormat_spec` says what the checks of the mount establish. They bound the sum of the sizes
but not the product of the number of tables and their size: the regions lie in the volume, apart
from each other, exactly when that product does not wrap.
-/
namespace GaiaKernel.Fat
open Bytes Nat
variable {v : Volume}

structure Mounted (img : Image) (v : Volume) : Prop where
  size : v.imageSize = img.size
  perSector : 512 ≤ v.bytesPerSector ∧ v.bytesPerSector ≤ 4096
  power : v.bytesPerSector &&& (v.bytesPerSector - 1) = 0
  perCluster : 0 < v.sectorsPerCluster
  start : 0 < v.fatStartSector ∧ v.fatStartSector < 2 ^ 16
  count : 0 < v.fatCount ∧ v.fatCount = (Bpb.read img.byte).numFats
  table : 0 < v.sectorsPerFat ∧ v.sectorsPerFat = (Bpb.read img.byte).fatSectors
  total : (Bpb.read img.byte).totalSectors * v.bytesPerSector ≤ v.imageSize
  rootStart : v.rootStartSector = u32 (v.fatStartSector + u32 (v.fatCount * v.sectorsPerFat))
  rootStart_le : v.fatStartSector ≤ v.rootStartSector
  rootEntries : v.rootEntries < 2 ^ 16
  dataStart : v.dataStartSector = u32 (v.rootStartSector + v.rootSectors)
  dataStart_le : v.rootStartSector ≤ v.dataStartSector
  dataStart_lt : v.dataStartSector < (Bpb.read img.byte).totalSectors
  limit : 2 < v.clusterLimit
  limit_data : v.clusterLimit ≤ u32 (((Bpb.read img.byte).totalSectors - v.dataStartSector) /
    v.sectorsPerCluster + 2)
  limit_table : v.clusterLimit ≤ u32 (v.sectorsPerFat * v.bytesPerSector / v.entryWidth)
  limit_fat16 : v.type = .fat16 → v.clusterLimit < 0xFFF0 ∧ 0 < v.rootEntries
  root_fat32 : v.type = .fat32 → v.rootEntries = 0 ∧ v.clusterIsValid v.rootCluster

theorem of_guard {α : Type*} {c : Prop} [Decidable c] {x : Option α} {a : α}
    (h : (if c then none else x) = some a) : ¬ c ∧ x = some a := by
  split_ifs at h with hc
  exact ⟨hc,h⟩

variable {img : Image}

theorem fatMountFormat_spec (h : fatMountFormat img = some v) : Mounted img v := by
  have hroot := le16_lt img.byte 17
  have hres := le16_lt img.byte 14
  obtain ⟨hsize,h⟩ := of_guard h
  extract_lets b rootSectors fatStart rootStart dataStart dataClusters type entryBytes fatEntries
    most limit at h
  obtain ⟨hfields,h⟩ := of_guard h
  obtain ⟨hstarts,h⟩ := of_guard h
  obtain ⟨hclusters,h⟩ := of_guard h
  obtain ⟨hlimit,h⟩ := of_guard h
  obtain ⟨h16,h⟩ := of_guard h
  obtain ⟨hroot16,h⟩ := of_guard h
  obtain ⟨hroot32,h⟩ := of_guard h
  obtain ⟨hcluster,h⟩ := of_guard h
  obtain rfl := Option.some.inj h
  simp only [not_or,not_lt,not_not] at hfields hstarts
  obtain ⟨hlow,hhigh,hpow,hspc,hres0,hfats,htable,htotal0,htotal⟩ := hfields
  have hmost : limit ≤ most ∧ limit ≤ fatEntries := by
    simp only [limit]
    split_ifs <;> omega
  have hsmall : b.rootEntries * 32 + b.bytesPerSector - 1 < 2 ^ 32 := by
    have : b.rootEntries < 2 ^ 16 := hroot
    omega
  have hsectors : rootSectors = (b.rootEntries * 32 + b.bytesPerSector - 1) / b.bytesPerSector := by
    simp [rootSectors,u32_of_lt hsmall]
  have hwidth : (if type = .fat16 then 2 else 4) = entryBytes := by
    simp only [entryBytes]
    cases type <;> rfl
  refine ⟨rfl,⟨hlow,hhigh⟩,hpow,Nat.pos_of_ne_zero hspc,⟨Nat.pos_of_ne_zero hres0,hres⟩,
    ⟨Nat.pos_of_ne_zero hfats,rfl⟩,⟨Nat.pos_of_ne_zero htable,rfl⟩,htotal,rfl,hstarts.1,hroot,
    ?_,hstarts.2.1,?_,?_,hmost.1,?_,fun ht => ?_,fun ht => ?_⟩
  · simp only [Volume.rootSectors]
    rw [← hsectors]
  · exact Nat.lt_of_not_le hstarts.2.2
  · exact Nat.lt_of_not_le hlimit
  · simp only [Volume.entryWidth]
    rw [hwidth]
    exact hmost.2
  · have ht' : type = .fat16 := ht
    simp only [ht',true_and,not_or] at h16 hroot16
    exact ⟨Nat.lt_of_not_le h16,Nat.pos_of_ne_zero hroot16.1⟩
  · have ht' : type = .fat32 := ht
    simp only [ht',true_and,not_or,not_not,not_lt] at hroot32 hcluster
    simp only [Volume.clusterIsValid,ht',if_true]
    exact ⟨hroot32.1,hcluster.1,Nat.lt_of_not_le hcluster.2⟩

theorem fatMountFormat_bytesPerSector (h : fatMountFormat img = some v) :
    v.bytesPerSector = (Bpb.read img.byte).bytesPerSector := by
  obtain ⟨-,h⟩ := of_guard h
  obtain ⟨-,h⟩ := of_guard h
  obtain ⟨-,h⟩ := of_guard h
  obtain ⟨-,h⟩ := of_guard h
  obtain ⟨-,h⟩ := of_guard h
  obtain ⟨-,h⟩ := of_guard h
  obtain ⟨-,h⟩ := of_guard h
  obtain ⟨-,h⟩ := of_guard h
  obtain ⟨-,h⟩ := of_guard h
  rw [← Option.some.inj h]

theorem totalSectors_lt (byte : ℕ → Byte) : (Bpb.read byte).totalSectors < 2 ^ 32 := by
  have h16 := le16_lt byte 19
  have h32 := le32_lt byte 32
  unfold Bpb.totalSectors
  by_cases h : (Bpb.read byte).totalSectors16 ≠ 0
  · rw [if_pos h]
    exact h16.trans (by decide)
  · rw [if_neg h]
    exact h32

inductive Region where
  | fat (f : ℕ)
  | root
  | cluster (c : ℕ)

namespace Volume
variable (v : Volume)

def Used : Region → Prop
  | .fat f => f < v.fatCount
  | .root => v.type = .fat16
  | .cluster c => v.clusterIsValid c

def first : Region → ℕ
  | .fat f => v.fatSector f
  | .root => v.rootStartSector
  | .cluster c => v.clusterSector c

def sectors : Region → ℕ
  | .fat _ => v.sectorsPerFat
  | .root => v.rootSectors
  | .cluster _ => v.sectorsPerCluster

structure Placed (total : ℕ) : Prop where
  inside : ∀ r, v.Used r → v.first r + v.sectors r ≤ total
  apart : ∀ r r', v.Used r → v.Used r' → r ≠ r' →
    v.first r + v.sectors r ≤ v.first r' ∨ v.first r' + v.sectors r' ≤ v.first r

structure InBounds : Prop where
  entry : ∀ f c, f < v.fatCount → v.clusterIsValid c →
    v.entryOffset f c + v.entryWidth ≤ v.imageSize
  data : ∀ c at', v.clusterData c = some at' → at' + v.clusterBytes ≤ v.imageSize

end Volume

structure Layout (total : ℕ) (v : Volume) : Prop where
  root : v.rootStartSector = v.fatStartSector + v.fatCount * v.sectorsPerFat
  data : v.dataStartSector = v.rootStartSector + v.rootSectors
  clusters : v.dataStartSector + (v.clusterLimit - 2) * v.sectorsPerCluster ≤ total
  table : v.clusterLimit * v.entryWidth ≤ v.sectorsPerFat * v.bytesPerSector
  total_lt : total < 2 ^ 32
  image : total * v.bytesPerSector ≤ v.imageSize

theorem u32_add_of_le {a b : ℕ} (ha : a < 2 ^ 32) (hb : b < 2 ^ 32) (h : a ≤ u32 (a + b)) :
    u32 (a + b) = a + b := by
  unfold u32 at h ⊢
  omega

theorem Mounted.layout (h : Mounted img v)
    (hwrap : v.fatCount * v.sectorsPerFat < 2 ^ 32) :
    Layout (Bpb.read img.byte).totalSectors v := by
  have htotal := totalSectors_lt img.byte
  have hstart := h.start.2
  have hrootStart := h.rootStart
  rw [u32_of_lt hwrap] at hrootStart
  have hroot : v.rootStartSector = v.fatStartSector + v.fatCount * v.sectorsPerFat := by
    rw [hrootStart]
    exact u32_add_of_le (by omega) hwrap (hrootStart ▸ h.rootStart_le)
  have hsectors : v.rootSectors < 2 ^ 32 := by
    have hentries := h.rootEntries
    have hper := h.perSector
    refine lt_of_le_of_lt (div_le_self _ _) ?_
    omega
  have hdata : v.dataStartSector = v.rootStartSector + v.rootSectors := by
    rw [h.dataStart]
    refine u32_add_of_le ?_ hsectors (h.dataStart ▸ h.dataStart_le)
    exact hrootStart ▸ u32_lt _
  refine ⟨hroot,hdata,?_,?_,htotal,h.total⟩
  · have hlimit := h.limit_data.trans (u32_le _)
    have hclusters : v.clusterLimit - 2 ≤
        ((Bpb.read img.byte).totalSectors - v.dataStartSector) / v.sectorsPerCluster :=
      Nat.sub_le_iff_le_add.mpr hlimit
    have hmul := (mul_le_mul_right v.sectorsPerCluster hclusters).trans (div_mul_le_self _ _)
    have hlt := h.dataStart_lt
    omega
  · have hlimit := h.limit_table.trans (u32_le _)
    exact (mul_le_mul_right _ hlimit).trans (div_mul_le_self _ _)

namespace Layout
variable {total : ℕ} {v : Volume} {c f : ℕ}
variable (h : Layout total v)
include h

theorem cluster_le (hc : v.clusterIsValid c) :
    v.dataStartSector + (c - 2) * v.sectorsPerCluster + v.sectorsPerCluster ≤ total := by
  have hle : c - 2 + 1 ≤ v.clusterLimit - 2 := by
    have := hc.1
    have := hc.2
    omega
  have hmul := mul_le_mul_right v.sectorsPerCluster hle
  rw [add_mul,one_mul] at hmul
  have := h.clusters
  omega

theorem clusterSector_eq (hc : v.clusterIsValid c) :
    v.clusterSector c = v.dataStartSector + (c - 2) * v.sectorsPerCluster := by
  have hle := h.cluster_le hc
  have hlt := h.total_lt
  unfold Volume.clusterSector
  rw [u32_of_lt (n := (c - 2) * v.sectorsPerCluster) (by omega),u32_of_lt (by omega)]

omit h in
theorem fat_le (hf : f < v.fatCount) :
    f * v.sectorsPerFat + v.sectorsPerFat ≤ v.fatCount * v.sectorsPerFat := by
  have hmul := mul_le_mul_right v.sectorsPerFat (succ_le_of_lt hf)
  rwa [succ_mul] at hmul

theorem fatSector_eq (hf : f < v.fatCount) :
    v.fatSector f = v.fatStartSector + f * v.sectorsPerFat := by
  have hle := fat_le hf
  have hlt := h.total_lt
  have hroot := h.root
  have hdata := h.data
  have hclusters := h.clusters
  unfold Volume.fatSector
  rw [u32_of_lt (n := f * v.sectorsPerFat) (by omega),u32_of_lt (by omega)]

omit h in
theorem mul_apart {a b : ℕ} (n : ℕ) (h : a ≠ b) : a * n + n ≤ b * n ∨ b * n + n ≤ a * n := by
  rcases lt_or_gt_of_ne h with hlt | hlt
  · left
    rw [← succ_mul]
    exact mul_le_mul_right n hlt
  · right
    rw [← succ_mul]
    exact mul_le_mul_right n hlt

theorem placed : v.Placed total := by
  have hroot := h.root
  have hdata := h.data
  have hclusters := h.clusters
  have hfat : ∀ {f}, v.Used (.fat f) → v.first (.fat f) = v.fatStartSector + f * v.sectorsPerFat ∧
      v.first (.fat f) + v.sectorsPerFat ≤ v.rootStartSector := by
    intro f hf
    have heq : v.first (.fat f) = _ := h.fatSector_eq hf
    have := fat_le hf
    omega
  have hcluster : ∀ {c}, v.Used (.cluster c) →
      v.first (.cluster c) = v.dataStartSector + (c - 2) * v.sectorsPerCluster := by
    intro c hc
    exact h.clusterSector_eq hc
  refine ⟨fun r hr => ?_,fun r r' hr hr' hne => ?_⟩
  · cases r with
    | fat f =>
      have := (hfat hr).2
      change v.first (.fat f) + v.sectorsPerFat ≤ total
      omega
    | root =>
      change v.rootStartSector + v.rootSectors ≤ total
      omega
    | cluster c =>
      rw [hcluster hr]
      exact h.cluster_le hr
  · cases r with
    | fat f =>
      have hf := hfat hr
      cases r' with
      | fat f' =>
        have hf' := hfat hr'
        have hmul := mul_apart v.sectorsPerFat (a := f) (b := f') fun hff => hne (by rw [hff])
        simp only [Volume.sectors]
        omega
      | root => exact Or.inl hf.2
      | cluster c =>
        left
        rw [hcluster hr']
        exact hf.2.trans (by omega)
    | root =>
      cases r' with
      | fat f' => exact Or.inr (hfat hr').2
      | root => exact absurd rfl hne
      | cluster c =>
        left
        rw [hcluster hr']
        change v.rootStartSector + v.rootSectors ≤ _
        omega
    | cluster c =>
      cases r' with
      | fat f' =>
        right
        rw [hcluster hr]
        exact (hfat hr').2.trans (by omega)
      | root =>
        right
        rw [hcluster hr]
        change v.rootStartSector + v.rootSectors ≤ _
        omega
      | cluster c' =>
        rw [hcluster hr,hcluster hr']
        have h2 : 2 ≤ c := hr.1
        have h2' : 2 ≤ c' := hr'.1
        have hcc : c - 2 ≠ c' - 2 := by
          intro hcc
          exact hne (by rw [show c = c' by omega])
        have hmul := mul_apart v.sectorsPerCluster hcc
        simp only [Volume.sectors]
        omega

theorem inBounds : v.InBounds := by
  have hplaced := h.placed
  refine ⟨fun f c hf hc => ?_,fun c at' hat => ?_⟩
  · have hfit : v.first (.fat f) + v.sectorsPerFat ≤ total := hplaced.inside (.fat f) hf
    have hbytes := (mul_le_mul_right v.bytesPerSector hfit).trans h.image
    have hentry : c * v.entryWidth + v.entryWidth ≤ v.sectorsPerFat * v.bytesPerSector := by
      rw [← succ_mul]
      exact (mul_le_mul_right _ hc.2).trans h.table
    rw [add_mul] at hbytes
    change v.fatSector f * v.bytesPerSector + c * v.entryWidth + v.entryWidth ≤ v.imageSize
    change v.fatSector f * v.bytesPerSector + _ ≤ _ at hbytes
    omega
  · unfold Volume.clusterData at hat
    split_ifs at hat with hc
    cases hat
    have hfit := hplaced.inside (.cluster c) hc
    have hbytes := (mul_le_mul_right v.bytesPerSector hfit).trans h.image
    rw [add_mul] at hbytes
    exact hbytes

end Layout

theorem Volume.Placed.no_wrap {total : ℕ} (h : v.Placed total)
    (htotal : total < 2 ^ 32) (hstart : v.fatStartSector < total) :
    v.fatCount * v.sectorsPerFat < 2 ^ 32 := by
  have hall : ∀ f ≤ v.fatCount, v.fatStartSector + f * v.sectorsPerFat ≤ total := by
    intro f hf
    induction f with
    | zero => omega
    | succ f ih =>
      have hin : u32 (v.fatStartSector + u32 (f * v.sectorsPerFat)) + v.sectorsPerFat ≤ total :=
        h.inside (.fat f) hf
      rw [u32_of_lt (n := f * v.sectorsPerFat) (by omega),u32_of_lt (by omega)] at hin
      rw [succ_mul]
      omega
  have hlast := hall v.fatCount le_rfl
  omega

/-- The regions of an accepted volume are placed, and accesses for a valid cluster number
stay in the image, exactly when the size of all tables together fits a `u32`. -/
theorem mount_placed_iff {img : Image} {v : Volume} (h : fatMountFormat img = some v) :
    (v.Placed (Bpb.read img.byte).totalSectors ∧ v.InBounds) ↔
      (Bpb.read img.byte).numFats * (Bpb.read img.byte).fatSectors < 2 ^ 32 := by
  have hm := fatMountFormat_spec h
  rw [← hm.count.2,← hm.table.2]
  constructor
  · rintro ⟨hplaced,_⟩
    have hle := hm.rootStart_le
    have hle' := hm.dataStart_le
    have hlt := hm.dataStart_lt
    exact hplaced.no_wrap (totalSectors_lt _) (by omega)
  · intro hwrap
    exact ⟨(hm.layout hwrap).placed,(hm.layout hwrap).inBounds⟩

def bootImage (size : ℕ) (boot : List Byte) : Image := ⟨size,fun i => boot.getD i 0⟩

/-- A FAT16 boot sector: 512-byte sectors, one per cluster, 2 tables, 16 root entries, 5000
sectors, and tables of the given number of sectors in the 32-bit field. -/
def boot16 (tableSectors : List Byte) : List Byte :=
  [0, 0, 0, 0, 0, 0, 0, 0, 0, 0, 0, 0x00, 0x02, 1, 1, 0, 2, 16, 0, 0x88, 0x13, 0, 0, 0, 0, 0, 0, 0,
    0, 0, 0, 0, 0, 0, 0, 0] ++ tableSectors

theorem mount_placed_boot16 :
    ∃ v, fatMountFormat (bootImage 2560000 (boot16 [20, 0, 0, 0])) = some v ∧
      v.Placed 5000 ∧ v.InBounds := by
  have hmount : (fatMountFormat (bootImage 2560000 (boot16 [20, 0, 0, 0]))).isSome := by
    decide +kernel
  obtain ⟨v,hv⟩ := Option.isSome_iff_exists.mp hmount
  exact ⟨v,hv,(mount_placed_iff hv).mpr (by decide +kernel)⟩

/-- Two tables of 2^31 + 256 sectors are accepted in a volume of 5000 sectors, and `fat_set`
then writes the second table far outside the image. -/
theorem mount_table_outside :
    ∃ v, fatMountFormat (bootImage 2560000 (boot16 [0, 1, 0, 0x80])) = some v ∧
      v.clusterIsValid 2 ∧ 1 < v.fatCount ∧ v.imageSize < v.entryOffset 1 2 := by
  have hmount : (fatMountFormat (bootImage 2560000 (boot16 [0, 1, 0, 0x80]))).any (fun v =>
      decide (v.clusterIsValid 2) && decide (1 < v.fatCount) &&
        decide (v.imageSize < v.entryOffset 1 2)) := by
    decide +kernel
  cases hv : fatMountFormat (bootImage 2560000 (boot16 [0, 1, 0, 0x80])) with
  | none =>
    rw [hv] at hmount
    exact absurd hmount Bool.false_ne_true
  | some v =>
    rw [hv] at hmount
    simp only [Option.any_some,Bool.and_eq_true,decide_eq_true_eq] at hmount
    exact ⟨v,rfl,hmount.1.1,hmount.1.2,hmount.2⟩

end GaiaKernel.Fat
