import GaiaKernel.Fat.NameSpec

/-! # The long-name codec

The records of a long name give the name back only as a whole: a record that is missing or
stands in another place, or a short entry with another checksum, leaves no name.
-/
namespace GaiaKernel.Fat
open Bytes List

def lfnSlot (name : List Byte) (checksum : Byte) (seq : ℕ) : Slot :=
  writeLfnSlot name seq (seq == (name.length + 12) / 13) checksum

def lfnFeedAll : LfnState → ℕ → List Slot → LfnState
  | state, _, [] => state
  | state, index, slot :: slots => lfnFeedAll (lfnFeed state slot index) (index + 1) slots

variable {name : List Byte} {checksum : Byte} {state : LfnState} {entry : Slot}
  {order : List ℕ} {start index s : ℕ}

def partsFrom (s : ℕ) : List ℕ := (List.range' 1 s).reverse

theorem partsFrom_succ (s : ℕ) : partsFrom (s + 1) = (s + 1) :: partsFrom s := by
  rw [partsFrom,range'_1_concat,reverse_append,Nat.add_comm]
  rfl

theorem lfnSlots_eq (s : ℕ) :
    lfnSlots name checksum s = (partsFrom s).map (lfnSlot name checksum) := by
  induction s with
  | zero => rfl
  | succ s ih =>
    rw [partsFrom_succ,map_cons,← ih]
    rfl

/-! ## What is written -/

section
variable (h : Ascii name) (hmax : (name.length + 12) / 13 ≤ 20)
include h hmax

theorem Reading.lfnFeedAll
    (hs : s < (name.length + 12) / 13) (hr : Reading name checksum start s state) (index : ℕ) :
    Reading name checksum start 0 (lfnFeedAll state index (lfnSlots name checksum s)) := by
  induction s generalizing state index with
  | zero => exact hr
  | succ s ih =>
    rw [lfnSlots,beq_eq_false_iff_ne.mpr hs.ne]
    exact ih (by omega) (lfnFeed_next h hr index (by omega)) _

theorem lfnFeedAll_written (hs : s + 1 = (name.length + 12) / 13) (state : LfnState) (index : ℕ) :
    Reading name checksum index 0 (lfnFeedAll state index (lfnSlots name checksum (s + 1))) := by
  rw [lfnSlots,beq_iff_eq.mpr hs]
  exact (lfnFeed_first h hs (by omega) checksum state index).lfnFeedAll h hmax (by omega) _

end

/-! ## What is not -/

theorem lfnTake_invalid (h : state.valid = false) : lfnTake state entry = none := by
  unfold lfnTake
  rw [if_pos (Or.inl (by simp [h]))]

theorem lfnSlot_earlier (hs : s < (name.length + 12) / 13) :
    lfnSlot name checksum s = writeLfnSlot name s false checksum := by
  rw [lfnSlot,beq_eq_false_iff_ne.mpr hs.ne]

/-- A record that does not start a name goes on with the part that is expected, or it ends the
walk. -/
theorem lfnFeed_other (hmax : (name.length + 12) / 13 ≤ 20)
    (hs : 0 < s ∧ s < (name.length + 12) / 13)
    (hno : state.valid = false ∨ s ≠ state.expect) (index : ℕ) :
    (lfnFeed state (lfnSlot name checksum s) index).valid = false := by
  obtain ⟨-,herased,hseq,hlast⟩ :=
    marker_spec ⟨s,by omega⟩ false (by simpa [Fin.ext_iff] using hs.1.ne')
  have hmarker : writeLfnSlot name s false checksum 0 = BitVec.ofNat 8 s ||| 0 := rfl
  simp only [Bool.false_eq_true,if_false,iff_false,not_not] at herased hseq hlast
  have hrejected : ¬ state.valid = true ∨ s ≠ state.expect ∨
      writeLfnSlot name s false checksum 13 ≠ state.checksum := by
    rcases hno with hno | hno
    · exact Or.inl (by simp [hno])
    · exact Or.inr (Or.inl hno)
  rw [lfnSlot_earlier hs.2]
  unfold lfnFeed
  simp only [hmarker,if_neg herased,hseq,hlast]
  rw [if_neg (by unfold fatLfnMaxSlots; omega),if_pos ⟨by simp,hrejected⟩]
  rfl

theorem lfnFeedAll_invalid (hmax : (name.length + 12) / 13 ≤ 20)
    (horder : ∀ s ∈ order, 0 < s ∧ s < (name.length + 12) / 13) (h : state.valid = false)
    (index : ℕ) : (lfnFeedAll state index (order.map (lfnSlot name checksum))).valid = false := by
  induction order generalizing state index with
  | nil => exact h
  | cons s order ih =>
    obtain ⟨hs,horder⟩ := forall_mem_cons.mp horder
    exact ih horder (lfnFeed_other hmax hs (Or.inl h) index) _

theorem Reading.order_eq (h : Ascii name) (hmax : (name.length + 12) / 13 ≤ 20)
    (hs : s < (name.length + 12) / 13) (hr : Reading name checksum start s state)
    (horder : ∀ s ∈ order, 0 < s ∧ s < (name.length + 12) / 13) {text : List Byte}
    (htake : Fat.lfnTake (Fat.lfnFeedAll state index (order.map (lfnSlot name checksum))) entry =
      some text) : order = partsFrom s ∧ lfnChecksum (slice entry 0 11) = checksum := by
  induction order generalizing s state index with
  | nil =>
    rw [map_nil,Fat.lfnFeedAll,Fat.lfnTake] at htake
    split_ifs at htake with hopen hsum
    rw [not_or,not_not,hr.expect,not_not] at hopen
    rw [not_not,hr.checksum] at hsum
    rw [hopen.2]
    exact ⟨rfl,hsum⟩
  | cons a order ih =>
    obtain ⟨ha,hrest⟩ := forall_mem_cons.mp horder
    by_cases heq : a = s
    · subst heq
      obtain ⟨a,rfl⟩ := Nat.exists_eq_succ_of_ne_zero ha.1.ne'
      have hnext := lfnFeed_next h hr index (by omega)
      rw [← lfnSlot_earlier hs] at hnext
      obtain ⟨htail,hsum⟩ := ih (by omega) hnext hrest htake
      exact ⟨by rw [partsFrom_succ,htail],hsum⟩
    · -- the walk ends here, and none of the records that follow starts another
      have hended : (lfnFeed state (lfnSlot name checksum a) index).valid = false :=
        lfnFeed_other hmax ha (Or.inr (hr.expect ▸ heq)) index
      rw [map_cons,Fat.lfnFeedAll,lfnTake_invalid (lfnFeedAll_invalid hmax hrest hended _)]
        at htake
      cases htake

theorem order_of_lfnTake (h : Ascii name) (hs : s + 1 = (name.length + 12) / 13)
    (hmax : s < 20) (hvalid : state.valid = false) (hnodup : order.Nodup)
    (horder : ∀ i ∈ order, 0 < i ∧ i ≤ s + 1) {text : List Byte}
    (htake : lfnTake (lfnFeedAll state index (order.map (lfnSlot name checksum))) entry =
      some text) : order = partsFrom (s + 1) ∧ lfnChecksum (slice entry 0 11) = checksum := by
  induction order generalizing state index with
  | nil =>
    rw [map_nil,lfnFeedAll,lfnTake_invalid hvalid] at htake
    cases htake
  | cons a order ih =>
    obtain ⟨ha,hrest⟩ := forall_mem_cons.mp horder
    obtain ⟨hfresh,hnodup⟩ := nodup_cons.mp hnodup
    by_cases heq : a = s + 1
    · subst heq
      have hlower : ∀ i ∈ order, 0 < i ∧ i < (name.length + 12) / 13 := by
        intro i hi
        have hne : i ≠ s + 1 := fun heq => hfresh (heq ▸ hi)
        have hle := hrest i hi
        omega
      have hfirst := lfnFeed_first h hs hmax checksum state index
      have hslot : lfnSlot name checksum (s + 1) = writeLfnSlot name (s + 1) true checksum := by
        rw [lfnSlot,beq_iff_eq.mpr hs]
      rw [← hslot] at hfirst
      obtain ⟨htail,hsum⟩ := hfirst.order_eq h (by omega) (by omega) hlower htake
      exact ⟨by rw [partsFrom_succ,htail],hsum⟩
    · have hended : (lfnFeed state (lfnSlot name checksum a) index).valid = false :=
        lfnFeed_other (by omega) ⟨ha.1,by omega⟩ (Or.inl hvalid) index
      -- the records that follow are all there are, so `a` is among them
      obtain ⟨hall,-⟩ := ih hended hnodup hrest htake
      refine absurd ?_ hfresh
      rw [hall,partsFrom,mem_reverse,mem_range'_1]
      omega

/-- A long name of ASCII characters comes back from its records and the short entry they belong
to, whatever was read before them. From some of the records, or from all of them in another
order, or before a short entry with another checksum, no name comes back. A short name that is
stored without an alias is shown as it was given. -/
theorem long_name_codec (name short : List Byte) (hascii : Ascii name) (hne : name ≠ [])
    (hmax : name.length ≤ fatLfnMax) (state : LfnState) (index : ℕ) (entry : Slot) :
    (lfnChecksum (slice entry 0 11) = lfnChecksum short →
      lfnTake (lfnFeedAll state index
        (lfnSlots name (lfnChecksum short) ((name.length + 12) / 13))) entry = some name) ∧
    (∀ order : List ℕ, order.Nodup → (∀ i ∈ order, 0 < i ∧ i ≤ (name.length + 12) / 13) →
      lfnChecksum (slice entry 0 11) ≠ lfnChecksum short ∨
        order.map (lfnSlot name (lfnChecksum short)) ≠
          lfnSlots name (lfnChecksum short) ((name.length + 12) / 13) →
      lfnTake (lfnFeedAll state.reset index
        (order.map (lfnSlot name (lfnChecksum short)))) entry = none) ∧
    ∀ given stored ntCase, shortNameExact given = some (stored, ntCase) →
      slice entry 0 11 = stored → entry ntCaseAt = ntCase → entryShortName entry = given := by
  have hpos := length_pos_iff.mpr hne
  unfold fatLfnMax at hmax
  obtain ⟨s,hs⟩ : ∃ s, s + 1 = (name.length + 12) / 13 := ⟨(name.length + 12) / 13 - 1,by omega⟩
  refine ⟨fun hsum => ?_,fun order hnodup horder hother => ?_,fun _ _ _ => shortNameExact_shown⟩
  · rw [← hs]
    exact (lfnFeedAll_written hascii (by omega) hs state index).lfnTake hascii hne hmax hsum
  · rw [Option.eq_none_iff_forall_ne_some]
    intro text htake
    rw [← hs] at horder hother
    obtain ⟨rfl,hsum⟩ := order_of_lfnTake hascii hs (by omega) rfl hnodup horder htake
    exact hother.elim (fun hne => hne hsum) (fun hne => hne (lfnSlots_eq _).symm)

def abEntry : Slot := blit (blit (fun _ => space) 0 [0x41#8, 0x42#8]) ntCaseAt [fatCaseBaseLower]
def twoRecords : List Byte := List.replicate 26 0x61#8

theorem long_name_codec_sample :
    lfnTake (lfnFeedAll ⟨fun _ => 0,0,0,0,0,false⟩ 0
      (lfnSlots twoRecords (lfnChecksum (slice abEntry 0 11)) 2)) abEntry = some twoRecords ∧
    lfnTake (lfnFeedAll ⟨fun _ => 0,0,0,0,0,false⟩ 0
      ([1, 2].map (lfnSlot twoRecords (lfnChecksum (slice abEntry 0 11))))) abEntry = none ∧
    entryShortName abEntry = [0x61#8, 0x62#8] := by
  obtain ⟨hall,hsome,hshort⟩ := long_name_codec twoRecords (slice abEntry 0 11)
    (by unfold Ascii; decide) (by decide) (by decide) ⟨fun _ => 0,0,0,0,0,false⟩ 0 abEntry
  refine ⟨hall rfl,hsome [1, 2] (by decide) (by decide) (Or.inr fun h => ?_),
    hshort _ (slice abEntry 0 11) fatCaseBaseLower (by decide) rfl rfl⟩
  exact absurd (congrFun (cons.inj h).1 0) (by decide)

end GaiaKernel.Fat
