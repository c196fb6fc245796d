import Mathlib.Data.BitVec

/-! # Byte arrays

An array is a function from offsets to cells. `slice` copies out of it and `blit` into it;
`le16` and `le32` read little-endian fields.
-/
namespace GaiaKernel.Bytes
open List
section
variable {α : Type*}

/-- The `n` cells from `off` on. -/
def slice (data : ℕ → α) (off n : ℕ) : List α := (List.range n).map fun i => data (off + i)

/-- The cells once `xs` is copied to `off` on. -/
def blit (data : ℕ → α) (off : ℕ) (xs : List α) : ℕ → α := fun i =>
  if off ≤ i then xs.getD (i - off) (data i) else data i

variable (data : ℕ → α)

@[simp] theorem length_slice (off n : ℕ) : (slice data off n).length = n := by simp [slice]

variable (off : ℕ)

@[simp] theorem blit_nil : blit data off [] = data := by
  funext i
  simp [blit]

theorem blit_of_mem {data : ℕ → α} {off i : ℕ} {xs : List α} (hi : i < xs.length) :
    blit data off xs (off + i) = xs[i] := by
  simp [blit,hi]

@[simp] theorem blit_singleton (x : α) : blit data off [x] off = x := by simp [blit]

theorem blit_of_not_mem {data : ℕ → α} {off i : ℕ} {xs : List α}
    (hi : i < off ∨ off + xs.length ≤ i) : blit data off xs i = data i := by
  unfold blit
  split_ifs with h
  · rw [getD_eq_getElem?_getD,getElem?_eq_none (by omega),Option.getD_none]
  · rfl

theorem slice_congr {data data' : ℕ → α} {off n : ℕ}
    (h : ∀ i, off ≤ i → i < off + n → data i = data' i) : slice data off n = slice data' off n := by
  refine map_congr_left fun i hi => h _ (Nat.le_add_right _ _) ?_
  have := mem_range.mp hi
  omega

theorem slice_blit_of_disjoint {data : ℕ → α} {off n a : ℕ} {xs : List α}
    (h : off + n ≤ a ∨ a + xs.length ≤ off) : slice (blit data a xs) off n = slice data off n :=
  slice_congr fun _ _ _ => blit_of_not_mem (by omega)

theorem slice_add (off m n : ℕ) :
    slice data off (m + n) = slice data off m ++ slice data (off + m) n := by
  simp only [slice,range_add,map_append,map_map]
  congr 1
  refine map_congr_left fun i _ => ?_
  rw [Function.comp_apply,Nat.add_assoc]

theorem slice_blit_self (xs : List α) : slice (blit data off xs) off xs.length = xs := by
  refine ext_getElem (length_slice _ _ _) fun i _ hi => ?_
  simp only [slice,getElem_map,getElem_range]
  exact blit_of_mem hi

theorem blit_slice (data src : ℕ → α) (off s : ℕ) {i n : ℕ} (hi : i < n) :
    blit data off (slice src s n) (off + i) = src (s + i) := by
  rw [blit_of_mem (by rwa [length_slice])]
  simp [slice]

theorem slice_blit_add (xs : List α) (n : ℕ) :
    slice (blit data off xs) off (xs.length + n) = xs ++ slice data (off + xs.length) n := by
  rw [slice_add,slice_blit_self]
  exact congrArg (xs ++ ·) (slice_congr fun i hi _ => blit_of_not_mem (.inr hi))

theorem blit_append (xs ys : List α) :
    blit data off (xs ++ ys) = blit (blit data off xs) (off + xs.length) ys := by
  funext i
  by_cases hi : off + xs.length ≤ i
  · obtain ⟨j,rfl⟩ := Nat.exists_eq_add_of_le hi
    simp only [blit,if_pos hi,if_pos (show off ≤ off + xs.length + j by omega),
      getD_eq_getElem?_getD]
    rw [getElem?_append_right (by omega),
      getElem?_eq_none (show xs.length ≤ off + xs.length + j - off by omega)]
    congr 2
    omega
  · have hout : blit (blit data off xs) (off + xs.length) ys i = blit data off xs i :=
      blit_of_not_mem (.inl (by omega))
    rw [hout]
    by_cases hoff : off ≤ i
    · simp only [blit,if_pos hoff,getD_eq_getElem?_getD]
      rw [getElem?_append_left (by omega)]
    · simp [blit,if_neg hoff]

end

/-! ### Little-endian fields of any width -/

section

/-- The low `k` bytes of a number. -/
def leBytes : ℕ → ℕ → List (BitVec 8)
  | 0, _ => []
  | k + 1, n => BitVec.ofNat 8 n :: leBytes k (n / 256)

/-- The number in the `k` bytes from `off` on. -/
def leNat (data : ℕ → BitVec 8) : ℕ → ℕ → ℕ
  | _, 0 => 0
  | off, k + 1 => (data off).toNat + 256 * leNat data (off + 1) k

variable {data data' : ℕ → BitVec 8} {off k n : ℕ}

@[simp, grind =] theorem length_leBytes (k n : ℕ) : (leBytes k n).length = k := by
  induction k generalizing n with
  | zero => rfl
  | succ k ih => exact congrArg (· + 1) (ih (n / 256))

theorem leNat_congr (h : ∀ i, off ≤ i → i < off + k → data i = data' i) :
    leNat data off k = leNat data' off k := by
  induction k generalizing off with
  | zero => rfl
  | succ k ih =>
    rw [leNat,leNat,h off le_rfl (by omega),ih fun i hi hi' => h i (by omega) (by omega)]

theorem leNat_blit_of_disjoint {a : ℕ} {xs : List (BitVec 8)}
    (h : off + k ≤ a ∨ a + xs.length ≤ off) : leNat (blit data a xs) off k = leNat data off k :=
  leNat_congr fun _ _ _ => blit_of_not_mem (by omega)

variable (data)

theorem leNat_blit (off : ℕ) (hn : n < 256 ^ k) :
    leNat (blit data off (leBytes k n)) off k = n := by
  induction k generalizing data off n with
  | zero => exact (Nat.lt_one_iff.mp hn).symm
  | succ k ih =>
    have hdiv : n / 256 < 256 ^ k := Nat.div_lt_of_lt_mul (by rwa [Nat.mul_comm,← Nat.pow_succ])
    have hsplit : blit data off (leBytes (k + 1) n) =
        blit (blit data off [BitVec.ofNat 8 n]) (off + 1) (leBytes k (n / 256)) :=
      blit_append data off [BitVec.ofNat 8 n] (leBytes k (n / 256))
    rw [leNat,hsplit,ih _ _ hdiv,blit_of_not_mem (.inl (Nat.lt_succ_self off))]
    rw [blit_singleton,BitVec.toNat_ofNat]
    exact Nat.mod_add_div n 256

theorem blit_leNat (off k : ℕ) : blit data off (leBytes k (leNat data off k)) = data := by
  induction k generalizing off with
  | zero => exact blit_nil data off
  | succ k ih =>
    have hbyte : BitVec.ofNat 8 (leNat data off (k + 1)) = data off := by
      apply BitVec.eq_of_toNat_eq
      rw [BitVec.toNat_ofNat,leNat]
      omega
    have hrest : leNat data off (k + 1) / 256 = leNat data (off + 1) k := by
      rw [leNat]
      omega
    have hone : blit data off [data off] = data := by
      funext i
      by_cases hi : i = off
      · rw [hi]
        exact blit_singleton data off (data off)
      · exact blit_of_not_mem (by simp only [length_singleton]; omega)
    rw [leBytes,hbyte,hrest]
    have hsplit := blit_append data off [data off] (leBytes k (leNat data (off + 1) k))
    rw [hone] at hsplit
    exact hsplit.trans (ih (off + 1))

/-- Fields of one width, stored one after the other. -/
def leFields (k : ℕ) (ns : List ℕ) : List (BitVec 8) := ns.flatMap (leBytes k)

@[simp] theorem length_leFields (k : ℕ) (ns : List ℕ) : (leFields k ns).length = k * ns.length := by
  induction ns with
  | nil => rfl
  | cons n ns ih =>
    rw [leFields,flatMap_cons,length_append,length_leBytes,length_cons]
    rw [leFields] at ih
    rw [ih,Nat.mul_succ,Nat.add_comm]

theorem leNat_blit_fields (off : ℕ) {ns : List ℕ}
    (hns : ∀ n ∈ ns, n < 256 ^ k) {i : ℕ} (hi : i < ns.length) :
    leNat (blit data off (leFields k ns)) (off + k * i) k = ns[i] := by
  induction ns generalizing data off i with
  | nil => exact absurd hi (Nat.not_lt_zero i)
  | cons n ns ih =>
    have hsplit : blit data off (leFields k (n :: ns)) =
        blit (blit data off (leBytes k n)) (off + k) (leFields k ns) := by
      rw [leFields,flatMap_cons,blit_append,length_leBytes]
      rfl
    rw [hsplit]
    cases i with
    | zero =>
      rw [leNat_congr fun j _ hj => blit_of_not_mem (.inl (by omega))]
      exact leNat_blit data off (hns n mem_cons_self)
    | succ i =>
      have := ih (blit data off (leBytes k n)) (off + k)
        (fun m hm => hns m (mem_cons_of_mem n hm)) (Nat.lt_of_succ_lt_succ hi)
      rw [Nat.mul_succ,Nat.add_comm (k * i),← Nat.add_assoc]
      exact this

end

def le16 (data : ℕ → BitVec 8) (off : ℕ) : ℕ := (data off).toNat + 256 * (data (off + 1)).toNat
def le32 (data : ℕ → BitVec 8) (off : ℕ) : ℕ := le16 data off + 65536 * le16 data (off + 2)

theorem le16_lt (data : ℕ → BitVec 8) (off : ℕ) : le16 data off < 2 ^ 16 := by
  unfold le16
  omega

theorem le32_lt (data : ℕ → BitVec 8) (off : ℕ) : le32 data off < 2 ^ 32 := by
  have h0 := le16_lt data off
  have h1 := le16_lt data (off + 2)
  unfold le32
  omega

/-- `Fin 3` has a zero; stated once, for the modules that do not import the instance. -/
theorem neZero_three : NeZero 3 := ⟨by decide⟩

end GaiaKernel.Bytes
