import GaiaKernel.Lib.Bytes

/-! # Circular buffers

`cap` cells, of which `count` from `head` on hold the queue `view`, wrapping at the end. Copies are
done in two straight pieces: `slice_wrap` and `view_blit` say that together they are the queue
operations.
-/
namespace GaiaKernel.Circular
open Bytes List
variable {α : Type*} {cap head count n : ℕ}

def view (cap : ℕ) (data : ℕ → α) (head count : ℕ) : List α :=
  (List.range count).map fun i => data ((head + i) % cap)

variable (data : ℕ → α)

@[simp] theorem length_view : (view cap data head count).length = count := by simp [view]

@[simp] theorem view_zero : view cap data head 0 = [] := rfl

theorem wrap (hh : head < cap) (hn : n ≤ cap) :
    (head + n) % cap = if head + n < cap then head + n else head + n - cap := by
  split_ifs with h
  · exact Nat.mod_eq_of_lt h
  · rw [Nat.mod_eq_sub_mod (by omega),Nat.mod_eq_of_lt (by omega)]

theorem view_split (hn : n ≤ count) :
    view cap data head n ++ view cap data ((head + n) % cap) (count - n) =
      view cap data head count := by
  obtain ⟨m,rfl⟩ := Nat.exists_eq_add_of_le hn
  rw [Nat.add_sub_cancel_left]
  simp only [view,range_add,map_append,map_map]
  congr 1
  apply map_congr_left
  simp [Nat.add_assoc]

theorem slice_wrap (hh : head < cap) (hn : n ≤ cap) :
    slice data head (min (cap - head) n) ++ slice data 0 (n - min (cap - head) n) =
      view cap data head n := by
  apply ext_getElem
  · rw [length_append,length_slice,length_slice,length_view]
    omega
  intro i h1 h2
  simp only [length_view] at h2
  have hw := wrap (n := i) hh (by omega)
  simp only [view,getElem_map,getElem_range,hw]
  by_cases hi : i < min (cap - head) n
  · rw [getElem_append_left (by rwa [length_slice]),if_pos (by omega)]
    simp [slice]
  · rw [getElem_append_right (by rw [length_slice]; omega),if_neg (by omega)]
    simp only [slice,getElem_map,getElem_range,length_map,length_range]
    congr 1
    omega

theorem view_blit (xs : List α) (hh : head < cap)
    (hroom : count + xs.length ≤ cap) :
    let tail := (head + count) % cap
    let first := min (cap - tail) xs.length
    view cap (blit (blit data tail (xs.take first)) 0 (xs.drop first)) head (count + xs.length) =
      view cap data head count ++ xs := by
  intro tail first
  have htail : tail = if head + count < cap then head + count else head + count - cap :=
    wrap hh (by omega)
  apply ext_getElem
  · simp
  intro i h1 h2
  simp only [length_view] at h1
  have hw := wrap (n := i) hh (by omega)
  simp only [view,getElem_map,getElem_range,hw]
  by_cases hi : i < count
  · -- An element that was there before: its cell is in neither piece.
    rw [getElem_append_left (by simpa using hi)]
    simp only [getElem_map,getElem_range,hw]
    rw [blit_of_not_mem,blit_of_not_mem]
    · rw [length_take]
      split_ifs at htail ⊢ <;> omega
    · rw [length_drop]
      split_ifs at htail ⊢ <;> omega
  · rw [getElem_append_right (by simpa using hi)]
    simp only [length_map,length_range]
    obtain ⟨j,rfl⟩ := Nat.exists_eq_add_of_le (Nat.le_of_not_lt hi)
    simp only [Nat.add_sub_cancel_left]
    by_cases hjf : j < first
    · -- The first piece ends before the wrap, and the second one does not reach it.
      have hcell : (if head + (count + j) < cap then head + (count + j)
          else head + (count + j) - cap) = tail + j := by
        split_ifs at htail ⊢ <;> omega
      rw [hcell,blit_of_not_mem,blit_of_mem (by rw [length_take]; omega),getElem_take]
      rw [length_drop]
      omega
    · have hcell : (if head + (count + j) < cap then head + (count + j)
          else head + (count + j) - cap) = 0 + (j - first) := by
        split_ifs at htail ⊢ <;> omega
      rw [hcell,blit_of_mem (by rw [length_drop]; omega),getElem_drop]
      congr 1
      omega

end GaiaKernel.Circular
