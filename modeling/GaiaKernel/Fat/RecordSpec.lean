import GaiaKernel.Fat.Directory

/-! # Fields of a record

What the setters of a directory record change, and that its getters read them back.
-/
namespace GaiaKernel.Fat
open Bytes

theorem toNat_word (n : ℕ) : (BitVec.ofNat 8 n).toNat + 256 * (BitVec.ofNat 8 (n / 256)).toNat =
    n % 65536 := by
  simp only [BitVec.toNat_ofNat]
  omega

variable (data : ℕ → Byte)

theorem le16_blit (off n : ℕ) (xs : List Byte) :
    le16 (blit data off (word n ++ xs)) off = n % 65536 := by
  have h0 : blit data off (word n ++ xs) (off + 0) = BitVec.ofNat 8 n := blit_of_mem (by simp [word])
  have h1 : blit data off (word n ++ xs) (off + 1) = BitVec.ofNat 8 (n / 256) :=
    blit_of_mem (by simp [word])
  rw [Nat.add_zero] at h0
  rw [le16,h0,h1,toNat_word]

theorem le16_blit_snd (off m n : ℕ) :
    le16 (blit data off (word m ++ word n)) (off + 2) = n % 65536 := by
  have h0 : blit data off (word m ++ word n) (off + 2) = BitVec.ofNat 8 n :=
    blit_of_mem (i := 2) (by simp [word])
  have h1 : blit data off (word m ++ word n) (off + 3) = BitVec.ofNat 8 (n / 256) :=
    blit_of_mem (i := 3) (by simp [word])
  rw [le16,h0,Nat.add_assoc,h1,toNat_word]

theorem le32_blit (off n : ℕ) :
    le32 (blit data off (word n ++ word (n / 65536))) off = n % 2 ^ 32 := by
  rw [le32,le16_blit,le16_blit_snd]
  omega

theorem le16_congr {data data' : ℕ → Byte} {off off' : ℕ} (h0 : data off = data' off')
    (h1 : data (off + 1) = data' (off' + 1)) : le16 data off = le16 data' off' := by
  rw [le16,le16,h0,h1]

theorem le32_congr {data data' : ℕ → Byte} {off off' : ℕ}
    (h : ∀ i < 4, data (off + i) = data' (off' + i)) : le32 data off = le32 data' off' := by
  have hlow : le16 data off = le16 data' off' := le16_congr (h 0 (by decide)) (h 1 (by decide))
  have hhigh : le16 data (off + 2) = le16 data' (off' + 2) :=
    le16_congr (h 2 (by decide)) (h 3 (by decide))
  rw [le32,le32,hlow,hhigh]

/-! ## Setters -/

theorem setTimestamp_of (clock : Option (ℕ × ℕ)) (entry : Slot) {i : ℕ}
    (hi : i < 13 ∨ i = 20 ∨ i = 21 ∨ 26 ≤ i) : setTimestamp clock entry i = entry i := by
  unfold setTimestamp
  split
  · rfl
  · dsimp only
    split_ifs
    · rw [blit_of_not_mem (by simp [word]; omega),blit_of_not_mem (by simp [word]; omega),
        blit_of_not_mem (by simp [word]; omega)]
    · rw [blit_of_not_mem (by simp [word]; omega),blit_of_not_mem (by simp [word]; omega)]

theorem entrySetSize_of (entry : Slot) (size : ℕ) {i : ℕ} (hi : i < 28) :
    entrySetSize entry size i = entry i := blit_of_not_mem (Or.inl hi)

/-! ## Getters -/

theorem entryGetCluster_congr {wide : Bool} {entry entry' : Slot}
    (h : ∀ i, i = 20 ∨ i = 21 ∨ i = 26 ∨ i = 27 → entry i = entry' i) :
    entryGetCluster wide entry = entryGetCluster wide entry' := by
  have h26 : le16 entry 26 = le16 entry' 26 := le16_congr (h 26 (by omega)) (h 27 (by omega))
  have h20 : le16 entry 20 = le16 entry' 20 := le16_congr (h 20 (by omega)) (h 21 (by omega))
  rw [entryGetCluster,entryGetCluster,h26,h20]

theorem entryGetCluster_set (wide : Bool) (entry : Slot) (cluster : ℕ) :
    entryGetCluster wide (entrySetCluster wide entry cluster) =
      if wide then cluster % 2 ^ 32 else cluster % 2 ^ 16 := by
  have hlow : le16 (entrySetCluster wide entry cluster) 26 = cluster % 65536 := by
    have hblit := le16_blit entry 26 cluster []
    rw [← hblit]
    exact le16_congr (blit_of_not_mem (Or.inr (by simp [word])))
      (blit_of_not_mem (Or.inr (by simp [word])))
  have hhigh : le16 (entrySetCluster wide entry cluster) 20 =
      (if wide then cluster / 65536 else 0) % 65536 := by
    have hblit := le16_blit (blit entry 26 (word cluster)) 20 (if wide then cluster / 65536 else 0) []
    exact hblit
  unfold entryGetCluster
  rw [hlow,hhigh]
  cases wide with
  | true =>
    simp only [if_true]
    omega
  | false => rfl

theorem size_set (entry : Slot) (size : ℕ) : le32 (entrySetSize entry size) 28 = size % 2 ^ 32 :=
  le32_blit entry 28 size

end GaiaKernel.Fat
