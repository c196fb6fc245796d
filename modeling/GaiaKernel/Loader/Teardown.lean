import GaiaKernel.Loader.Process
import GaiaKernel.Memory.SpaceOps

/-! # Tearing down an address space

`free_user_pml4` gives back only frames that the space owns: its tables and its private
pages. If nobody else borrows one of those pages, the spaces that remain are as safe as
before.
-/
namespace GaiaKernel
open List
variable {lowPd r g : U64} {ph ph' : Phys} {own : Owner} {p : Path}

def forget (own : Owner) (r : U64) : Owner := fun t =>
  if (own t).map Prod.fst = some r then none else own t

theorem forget_eq_some {t : U64} {n : U64 × Path} :
    forget own r t = some n ↔ own t = some n ∧ n.1 ≠ r := by
  unfold forget
  split_ifs with h
  · constructor
    · intro hc; cases hc
    · rintro ⟨ho,hn⟩
      rw [ho] at h
      exact absurd (Option.some.inj h) hn
  · constructor
    · intro ho
      refine ⟨ho,fun hn => h ?_⟩
      rw [ho,Option.map_some,hn]
    · exact And.left

theorem leafAt_forget {r' : U64} {q : Path} {e : U64} :
    LeafAt ph (forget own r) r' q e ↔ LeafAt ph own r' q e ∧ r' ≠ r := by
  constructor
  · rintro ⟨pt,i,p,hq,hp,ho,he,hpres⟩
    obtain ⟨ho,hne⟩ := forget_eq_some.mp ho
    exact ⟨⟨pt,i,p,hq,hp,ho,he,hpres⟩,hne⟩
  · rintro ⟨⟨pt,i,p,hq,hp,ho,he,hpres⟩,hne⟩
    exact ⟨pt,i,p,hq,hp,forget_eq_some.mpr ⟨ho,hne⟩,he,hpres⟩

theorem Tables.forget (h : Tables lowPd ph own) (r : U64) :
    Tables lowPd ph (GaiaKernel.forget own r) where
  root ht := by
    obtain ⟨ho,hne⟩ := forget_eq_some.mp ht
    exact forget_eq_some.mpr ⟨h.root ho,hne⟩
  inj ht ht' := h.inj (forget_eq_some.mp ht).1 (forget_eq_some.mp ht').1
  taken ht := h.taken (forget_eq_some.mp ht).1
  frame ht := h.frame (forget_eq_some.mp ht).1
  table ht hp hi hpres := by
    obtain ⟨ho,hne⟩ := forget_eq_some.mp ht
    obtain ⟨h1,h2 | h2⟩ := h.table ho hp hi hpres
    · exact ⟨h1,Or.inl (forget_eq_some.mpr ⟨h2,hne⟩)⟩
    · exact ⟨h1,Or.inr h2⟩
  leaf ht hp hpres hs := by
    obtain ⟨ho,hne⟩ := forget_eq_some.mp ht
    exact forget_eq_some.mpr ⟨h.leaf ho hp hpres hs,hne⟩
  parent ht := by
    obtain ⟨ho,hne⟩ := forget_eq_some.mp ht
    obtain ⟨h1,h2,t',h3,h4⟩ := h.parent ho
    exact ⟨h1,h2,t',forget_eq_some.mpr ⟨h3,hne⟩,h4⟩
  lowTaken := h.lowTaken
  lowFrame := h.lowFrame
  lowOwner := by
    unfold GaiaKernel.forget
    rw [h.lowOwner]
    split_ifs <;> rfl
  lowHuge := h.lowHuge

theorem FrameSafe.forget (h : FrameSafe lowPd ph own) (r : U64) :
    FrameSafe lowPd ph (GaiaKernel.forget own r) := by
  refine ⟨h.tables.forget r,fun r' q e hl hs => ?_⟩
  have hle := h.shared r' q e (leafAt_forget.mp hl).1 hs
  exact ⟨hle.taken,hle.ne_low,fun r'' p hp => hle.page r'' p (forget_eq_some.mp hp).1⟩

structure Torn (lowPd : U64) (ph : Phys) (own : Owner) (r : U64) (ph' : Phys) : Prop where
  safe : FrameSafe lowPd ph' (forget own r)
  mem : ph'.mem = ph.mem

theorem Torn.leafAt (h : Torn lowPd ph own r ph') {r' : U64} {q : Path} {e : U64} :
    LeafAt ph' (GaiaKernel.forget own r) r' q e ↔ LeafAt ph own r' q e ∧ r' ≠ r := by
  rw [leafAt_congr (fun t _ _ _ _ => congrFun h.mem t),leafAt_forget]

def Unlent (ph : Phys) (own : Owner) (r : U64) : Prop :=
  ∀ g p, own g = some (r, p) → NotLent ph (forget own r) g

section
variable (h : Tables lowPd ph own) (hu : Unlent ph own r)
include h hu
section
variable (ht : Torn lowPd ph own r ph')
include ht

theorem Torn.freeFrame (ho : own g = some (r, p)) : Torn lowPd ph own r (ph'.freeFrame g) := by
  refine ⟨ht.safe.freeFrame (h.frame ho) ?_ ?_ ?_,ht.mem⟩
  · simp [forget,ho]
  · exact h.ne_low ho
  · intro r' q e hl hs
    obtain ⟨pt,i,p',hq,hp,hpt,he,hpres⟩ := hl
    rw [ht.mem] at he
    exact hu g p ho r' q e ⟨pt,i,p',hq,hp,hpt,he,hpres⟩ hs

theorem Torn.freeLeaf {pt : U64} (ho : own pt = some (r, p))
    (hp : p.length = 3) (k : BitVec 9) : Torn lowPd ph own r (Phys.freeLeaf pt ph' k) := by
  unfold Phys.freeLeaf
  simp only [ht.mem]
  split_ifs with h1 h2
  · exact ht
  · exact ht
  · exact ht.freeFrame h hu (h.leaf ho hp (by simpa using h1) (by simpa using h2))

theorem Torn.freePt {pt : U64} (ho : own pt = some (r, p))
    (hp : p.length = 3) : Torn lowPd ph own r (Phys.freePt pt ph') := by
  have hloop := foldlRecOn (motive := Torn lowPd ph own r) entrySlots (Phys.freeLeaf pt) ht
    fun _ hb k _ => Torn.freeLeaf h hu hb ho hp k
  exact hloop.freeFrame h hu ho

theorem Torn.freeTable {table : U64} (ho : own table = some (r, p))
    (hp : p.length < 3) {slots : List (BitVec 9)} {child : U64 → Phys → Phys}
    (hslots : ∀ i ∈ slots, LowerIndex p i ∧
      (p = [0#9] → i = 0#9 → has (ph.mem r 0#9) pml4PrivateLow = true))
    (hchild : ∀ i t ph', own t = some (r, i :: p) → Torn lowPd ph own r ph' →
      Torn lowPd ph own r (child t ph')) :
    Torn lowPd ph own r (Phys.freeTable slots child table ph') := by
  refine Torn.freeFrame h hu (foldlRecOn (motive := Torn lowPd ph own r) slots _ ht
    fun b hb i hi => ?_) ho
  dsimp only
  rw [hb.mem]
  split_ifs with hc
  · exact hb
  · simp only [Bool.or_eq_true,Bool.not_eq_true',not_or,Bool.not_eq_false,Bool.not_eq_true]
      at hc
    obtain ⟨hlow,hpriv⟩ := hslots i hi
    rcases (h.table ho hp hlow hc.1).2 with hn | ⟨h1,h2,_,h4⟩
    · exact hchild i _ b hn hb
    · rw [hpriv h1 h2] at h4
      cases h4

theorem Torn.freePdptSubtree {pdpt : U64} {i : BitVec 9} (ho : own pdpt = some (r, [i])) {start : ℕ}
    (hstart : i = 0#9 → start = 0 → has (ph.mem r 0#9) pml4PrivateLow = true) :
    Torn lowPd ph own r (Phys.freePdptSubtree pdpt start ph') := by
  refine ht.freeTable h hu ho (by simp) (fun j hj => ⟨(by simp [LowerIndex]),fun hi hj0 => ?_⟩)
    fun j t ph' hot ht' => ht'.freeTable h hu hot (by simp)
      (fun k _ => ⟨(by simp [LowerIndex]),by simp⟩)
      fun k t' ph'' hot' ht'' => ht''.freePt h hu hot' (by simp)
  -- Slot 0 is walked only when the walk starts there.
  cases start with
  | zero => exact hstart (cons.inj hi).1 rfl
  | succ n =>
    subst hj0
    obtain ⟨m,hm,hget⟩ := getElem_of_mem hj
    simp only [entrySlots,getElem_drop,getElem_map,getElem_range] at hget
    simp only [entrySlots,length_drop,length_map,length_range] at hm
    have := congrArg BitVec.toNat hget
    simp at this
    omega

end

theorem Tables.freeUserPml4 (hs : FrameSafe lowPd ph own) (hr : own r = some (r, [])) :
    Torn lowPd ph own r (Phys.freeUserPml4 r ph) := by
  have ht : Torn lowPd ph own r ph := ⟨hs.forget r,rfl⟩
  unfold Phys.freeUserPml4
  dsimp only
  refine Torn.freeFrame h hu ?_ hr
  refine foldlRecOn (motive := Torn lowPd ph own r) _ _ ?_ fun b hb i hi => ?_
  · split_ifs with h1 h2
    · exact ht.freePdptSubtree h hu (h.below_root hr (by simp) h1) fun _ _ => h2
    · exact ht.freePdptSubtree h hu (h.below_root hr (by simp) h1) fun _ hc => by cases hc
    · exact ht
  · rw [hb.mem]
    obtain ⟨m,hm,hget⟩ := getElem_of_mem hi
    simp only [entrySlots,getElem_drop,getElem_take,getElem_map,getElem_range] at hget
    simp only [entrySlots,length_drop,length_take,length_map,length_range] at hm
    have hval := congrArg BitVec.toNat hget
    simp at hval
    split_ifs with h1
    · exact hb
    · refine hb.freePdptSubtree h hu (h.below_root hr (by omega) (by simpa using h1)) fun hc _ => ?_
      rw [hc] at hval
      simp at hval
      omega

end

end GaiaKernel
