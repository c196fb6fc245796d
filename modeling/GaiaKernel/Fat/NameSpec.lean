import GaiaKernel.Fat.Directory

/-! # What a stored name reads back as

A long name comes back as it was written, a short name up to case, and the short name of an
entry with a long name has the shape of an alias.
-/
namespace GaiaKernel.Fat
open Bytes List
variable {name m : List Byte} {entry : Slot}

/-! ## Characters -/

theorem shown_toUpper : ∀ (l : Bool) (c : Byte), (if l then isUpper c else isLower c) = false →
    shownAs l (toUpper c) = c := by
  decide +kernel

theorem toUpper_valid : ∀ c : Byte, validShortChar c → toUpper c ≠ space ∧ toUpper c ≠ 0x05#8 ∧
    toUpper c ≠ erased ∧ toUpper c ≠ 0 := by decide +kernel

theorem sameName_iff {a b : List Byte} : sameName a b = true ↔ a.map toLower = b.map toLower := by
  simp [sameName]

/-! ## The shape of an alias -/

/-- The text of a short name with a number: it fits 8.3, and its base ends in `~` and digits. -/
structure AliasText (text : List Byte) : Prop where
  shape : ∃ stem digits ext : List Byte,
    text = stem ++ tilde :: digits ++ (if ext = [] then [] else period :: ext) ∧
      digits ≠ [] ∧ digits.all isDigit ∧ stem.length + digits.length ≤ 7 ∧ ext.length ≤ 3

def AliasShaped (name : List Byte) : Prop := ∃ text, AliasText text ∧ sameName text name = true

/-- Characters a C string can hold and a long name gives back. -/
def Ascii (name : List Byte) : Prop := ∀ c ∈ name, c ≠ 0 ∧ c < 0x80#8

/-! ## Parts of a name -/

theorem splitExtension_spec (name : List Byte) (h : name.getLast? ≠ some period) :
    name = (splitExtension name).1 ++
      (if (splitExtension name).2 = [] then [] else period :: (splitExtension name).2) := by
  unfold splitExtension
  split
  · rename_i i hi
    have hfound := find?_some hi
    have hmem := mem_range.mp (mem_reverse.mp (mem_of_find?_eq_some hi))
    simp only [Bool.and_eq_true,decide_eq_true_eq,beq_iff_eq] at hfound
    have hget : name[i] = period := by simpa [getD_eq_getElem?_getD,hmem] using hfound.2
    have hsplit : name = name.take i ++ period :: name.drop (i + 1) := by
      rw [← hget,getElem_cons_drop hmem,take_append_drop]
    dsimp only
    rw [if_neg]
    · exact hsplit
    · intro hnil
      rw [hnil] at hsplit
      apply h
      rw [hsplit,getLast?_append_cons]
      rfl
  · simp

variable {n s : ℕ} {short xs : List Byte} {taken : List Byte → Bool}

theorem takeWhile_padTo (h : ∀ c ∈ xs, c ≠ space) : (padTo n xs).takeWhile (· ≠ space) = xs := by
  rw [padTo,takeWhile_append_of_pos (fun c hc => decide_eq_true (h c hc))]
  cases hk : n - xs.length with
  | zero => simp
  | succ k => simp [replicate_succ]

theorem length_padTo (h : xs.length ≤ n) : (padTo n xs).length = n := by
  simp [padTo]
  omega

theorem any_padTo (h : ∀ c ∈ xs, c ≠ space) : (padTo n xs).any (· ≠ space) = !xs.isEmpty := by
  cases xs with
  | nil => simp [padTo]
  | cons c cs => simp [padTo,h c (mem_cons_self ..)]

theorem entryShortName_eq {base ext : List Byte} (hb : base.length ≤ 8) (he : ext.length ≤ 3)
    (hbase : ∀ c ∈ base, c ≠ space ∧ c ≠ 0x05#8) (hext : ∀ c ∈ ext, c ≠ space)
    (hs : slice entry 0 11 = padTo 8 base ++ padTo 3 ext) :
    entryShortName entry = base.map (shownAs (entry ntCaseAt &&& fatCaseBaseLower ≠ 0)) ++
      (if ext = [] then [] else
        period :: ext.map (shownAs (entry ntCaseAt &&& fatCaseExtLower ≠ 0))) := by
  have hsplit : slice entry 0 11 = slice entry 0 8 ++ slice entry 8 3 := by simp [slice,range_succ]
  have h8 : slice entry 0 8 = padTo 8 base := by
    have := congrArg (take 8) (hsplit.symm.trans hs)
    rwa [take_left' (length_slice _ _ _),take_left' (length_padTo hb)] at this
  have h3 : slice entry 8 3 = padTo 3 ext := by
    have := congrArg (drop 8) (hsplit.symm.trans hs)
    rwa [drop_left' (length_slice _ _ _),drop_left' (length_padTo hb)] at this
  have hhead : base.head? ≠ some 0x05#8 := by
    cases base with
    | nil => simp
    | cons c cs => simpa using (hbase c (mem_cons_self ..)).2
  unfold entryShortName
  simp only [h8,h3,takeWhile_padTo fun c hc => (hbase c hc).1,takeWhile_padTo hext,
    any_padTo hext,if_neg hhead]
  cases ext with
  | nil => simp
  | cons c cs => simp

/-! ## Names that need no alias -/

theorem shortNameExact_spec {ntCase : Byte} (h : shortNameExact name = some (short, ntCase)) :
    ∃ base ext, name = base ++ (if ext = [] then [] else period :: ext) ∧
      base ≠ [] ∧ base.length ≤ 8 ∧ ext.length ≤ 3 ∧ (∀ c ∈ base, validShortChar c) ∧
      (∀ c ∈ ext, validShortChar c) ∧
      short = padTo 8 (base.map toUpper) ++ padTo 3 (ext.map toUpper) ∧
      (∀ c ∈ base, (if base.any isLower then isUpper c else isLower c) = false) ∧
      (∀ c ∈ ext, (if ext.any isLower then isUpper c else isLower c) = false) ∧
      ntCase = (if base.any isLower then fatCaseBaseLower else 0) |||
        (if ext.any isLower then fatCaseExtLower else 0) := by
  unfold shortNameExact at h
  dsimp only at h
  by_cases h1 : name.isEmpty = true ∨ name.length > 12 ∨ name.getLast? = some period
  · rw [if_pos h1] at h
    cases h
  rw [if_neg h1] at h
  have hname := splitExtension_spec name fun hlast => h1 (Or.inr (Or.inr hlast))
  generalize (splitExtension name).1 = base at h hname
  generalize (splitExtension name).2 = ext at h hname
  by_cases h2 : base.isEmpty = true ∨ base.length > 8 ∨ ext.length > 3
  · rw [if_pos h2] at h
    cases h
  rw [if_neg h2] at h
  by_cases h3 : base.all validShortChar = true ∧ ext.all validShortChar = true
  swap
  · rw [if_pos h3] at h
    cases h
  rw [if_neg (not_not.mpr h3)] at h
  simp only [not_or,Nat.not_lt,List.isEmpty_iff] at h2
  have hbase : ∀ c ∈ base, validShortChar c := all_eq_true.mp h3.1
  refine ⟨base,ext,hname,h2.1,h2.2.1,h2.2.2,hbase,List.all_eq_true.mp h3.2,?_⟩
  by_cases hmixed : (base.any isLower = true ∧ base.any isUpper = true) ∨
      (ext.any isLower = true ∧ ext.any isUpper = true)
  · rw [if_pos hmixed] at h
    cases h
  have hhead : (padTo 8 (base.map toUpper) ++ padTo 3 (ext.map toUpper)).head? ≠ some erased := by
    obtain ⟨c,cs,rfl⟩ := List.exists_cons_of_ne_nil h2.1
    simpa [padTo] using (toUpper_valid c (hbase c (mem_cons_self ..))).2.2.1
  have hcase : ∀ xs : List Byte, ¬ (xs.any isLower = true ∧ xs.any isUpper = true) →
      ∀ c ∈ xs, (if xs.any isLower then isUpper c else isLower c) = false := by
    intro xs hxs c hc
    simp only [any_eq_true,not_and,not_exists] at hxs
    split_ifs with hl
    · simpa using fun hu => hxs (any_eq_true.mp hl) c hc hu
    · simpa using fun hu => hl (any_eq_true.mpr ⟨c,hc,hu⟩)
  rw [if_neg hmixed,if_neg hhead] at h
  obtain ⟨hshort,hcases⟩ := Prod.mk.inj (Option.some.inj h)
  rw [not_or] at hmixed
  exact ⟨hshort.symm,hcase base hmixed.1,hcase ext hmixed.2,hcases.symm⟩

theorem map_shown {l : Bool} {xs : List Byte}
    (h : ∀ c ∈ xs, (if l then isUpper c else isLower c) = false) :
    (xs.map toUpper).map (shownAs l) = xs := by
  rw [map_map]
  exact (map_congr_left fun c hc => shown_toUpper l c (h c hc)).trans (map_id xs)

theorem caseFlags : ∀ b e : Bool,
    decide (((if b then fatCaseBaseLower else 0) ||| (if e then fatCaseExtLower else 0)) &&&
      fatCaseBaseLower ≠ 0) = b ∧
    decide (((if b then fatCaseBaseLower else 0) ||| (if e then fatCaseExtLower else 0)) &&&
      fatCaseExtLower ≠ 0) = e := by
  decide

theorem shortNameExact_shown {ntCase : Byte}
    (h : shortNameExact name = some (short, ntCase)) (hs : slice entry 0 11 = short)
    (hnt : entry ntCaseAt = ntCase) : entryShortName entry = name := by
  obtain ⟨base,ext,rfl,-,hb,he,hbase,hext,rfl,hbcase,hecase,rfl⟩ := shortNameExact_spec h
  have hup : ∀ xs : List Byte, (∀ c ∈ xs, validShortChar c) →
      ∀ c ∈ xs.map toUpper, c ≠ space ∧ c ≠ 0x05#8 := by
    intro xs hxs c hc
    obtain ⟨c',hc',rfl⟩ := mem_map.mp hc
    exact ⟨(toUpper_valid c' (hxs c' hc')).1,(toUpper_valid c' (hxs c' hc')).2.1⟩
  obtain ⟨hblower,helower⟩ := caseFlags (base.any isLower) (ext.any isLower)
  rw [entryShortName_eq (by simpa using hb) (by simpa using he) (hup base hbase)
    (fun c hc => (hup ext hext c hc).1) hs,hnt,hblower,helower,map_shown hbcase, map_shown hecase]
  simp only [map_eq_nil_iff]

/-! ## Aliases -/

theorem aliasPart_spec (n : ℕ) (part : List Byte) :
    (aliasPart n part).length ≤ n ∧ ∀ c ∈ aliasPart n part, c ≠ space ∧ c ≠ 0x05#8 ∧ c ≠ erased ∧
      c ≠ 0 := by
  refine ⟨by simp [aliasPart],fun c hc => ?_⟩
  obtain ⟨c',-,rfl⟩ := mem_map.mp hc
  split_ifs with hv
  · exact toUpper_valid c' hv
  · decide

theorem isDigit_ofNat : ∀ d : Fin 10, isDigit (BitVec.ofNat 8 (0x30 + d)) = true := by decide

theorem suffixDigits_spec (fuel n : ℕ) :
    (suffixDigits fuel n).length ≤ fuel ∧ ∀ c ∈ suffixDigits fuel n, isDigit c = true := by
  induction fuel generalizing n with
  | zero => exact ⟨le_rfl,fun c hc => (not_mem_nil hc).elim⟩
  | succ fuel ih =>
    rw [suffixDigits]
    split_ifs
    · exact ⟨Nat.zero_le _,fun c hc => (not_mem_nil hc).elim⟩
    · obtain ⟨hlen,hall⟩ := ih (n / 10)
      refine ⟨Nat.succ_le_succ hlen,forall_mem_cons.mpr ⟨?_,hall⟩⟩
      exact isDigit_ofNat ⟨n % 10,Nat.mod_lt _ (by decide)⟩

theorem length_suffixDigits {fuel k : ℕ} (h : n < 10 ^ k) : (suffixDigits fuel n).length ≤ k := by
  induction fuel generalizing n k with
  | zero => exact Nat.zero_le _
  | succ fuel ih =>
    rw [suffixDigits]
    split_ifs with hn
    · exact Nat.zero_le _
    · cases k with
      | zero => omega
      | succ k =>
        refine Nat.succ_le_succ (ih (Nat.div_lt_of_lt_mul ?_))
        rwa [pow_succ,Nat.mul_comm] at h

theorem isDigit_ne : ∀ c : Byte, isDigit c → c ≠ space ∧ c ≠ 0x05#8 := by decide +kernel

theorem aliasLoop_spec {base ext : List Byte} {count : ℕ}
    (h : aliasLoop taken base ext count n = some short) :
    ∃ k, n ≤ k ∧ k < n + count ∧ short = aliasWith base ext k := by
  induction count generalizing n with
  | zero => cases h
  | succ count ih =>
    rw [aliasLoop] at h
    split_ifs at h
    · obtain ⟨k,hlo,hhi,hk⟩ := ih h
      exact ⟨k,by omega,by omega,hk⟩
    · cases h
      exact ⟨n,le_rfl,by omega,rfl⟩

theorem shortNameAlias_spec (h : shortNameAlias taken name = some short) :
    ∃ stem digits ext : List Byte, short = padTo 8 (stem ++ tilde :: digits) ++ padTo 3 ext ∧
      stem ≠ [] ∧ digits ≠ [] ∧ digits.all isDigit ∧ stem.length + digits.length ≤ 7 ∧
      ext.length ≤ 3 ∧ (∀ c ∈ stem, c ≠ space ∧ c ≠ 0x05#8 ∧ c ≠ erased ∧ c ≠ 0) ∧
      ∀ c ∈ ext, c ≠ space := by
  unfold shortNameAlias at h
  dsimp only at h
  obtain ⟨hlen,hbase⟩ := aliasPart_spec 8 (splitExtension name).1
  obtain ⟨helen,hext⟩ := aliasPart_spec 3 (splitExtension name).2
  generalize aliasPart 3 (splitExtension name).2 = ext at h helen hext
  have hstem : ∃ base : List Byte, base ≠ [] ∧ (∀ c ∈ base, c ≠ space ∧ c ≠ 0x05#8 ∧ c ≠ erased ∧
      c ≠ 0) ∧ aliasLoop taken base ext 999999 1 = some short := by
    split_ifs at h with hnil
    · refine ⟨_,cons_ne_nil _ _,fun c hc => ?_,h⟩
      rw [mem_singleton.mp hc]
      decide
    · exact ⟨_,by simpa using hnil,hbase,h⟩
  obtain ⟨base,hne,hbase,h⟩ := hstem
  obtain ⟨k,hlo,hhi,rfl⟩ := aliasLoop_spec h
  have hdigits : (suffixDigits 7 k).length ≤ 6 := length_suffixDigits (by omega)
  have hdne : suffixDigits 7 k ≠ [] := by
    rw [suffixDigits,if_neg (by omega)]
    exact cons_ne_nil _ _
  refine ⟨base.take (8 - ((suffixDigits 7 k).reverse.length + 1)),(suffixDigits 7 k).reverse,ext,
    rfl,?_,?_,?_,?_,helen,fun c hc => hbase c (mem_of_mem_take hc), fun c hc => (hext c hc).1⟩
  · rw [Ne,take_eq_nil_iff,length_reverse]
    rintro (h0 | h0)
    · omega
    · exact hne h0
  · simpa using hdne
  · rw [all_reverse]
    exact all_eq_true.mpr (suffixDigits_spec 7 k).2
  · rw [length_take,length_reverse]
    omega

theorem shortNameAlias_shown
    (h : shortNameAlias taken name = some short) (hs : slice entry 0 11 = short)
    (hnt : entry ntCaseAt = 0) : AliasText (entryShortName entry) := by
  obtain ⟨stem,digits,ext,rfl,-,hdne,hdigits,hlen,helen,hstem,hext⟩ := shortNameAlias_spec h
  have hbase : ∀ c ∈ stem ++ tilde :: digits, c ≠ space ∧ c ≠ 0x05#8 := by
    intro c hc
    rcases mem_append.mp hc with hc | hc
    · exact ⟨(hstem c hc).1,(hstem c hc).2.1⟩
    · rcases mem_cons.mp hc with rfl | hc
      · decide
      · exact isDigit_ne c (all_eq_true.mp hdigits c hc)
  have hshown : ∀ xs : List Byte, xs.map (shownAs false) = xs := fun xs => map_id'' (fun _ => rfl) xs
  have hlower : ∀ b : Byte, decide (entry ntCaseAt &&& b ≠ 0) = false := by simp [hnt]
  refine ⟨stem,digits,ext,?_,hdne,hdigits,hlen,helen⟩
  rw [entryShortName_eq (by simp; omega) helen hbase hext hs,hlower,hlower,hshown,hshown]

/-! ## Long names -/

theorem lfnChar_ascii : ∀ c : Byte, c ≠ 0 → c < 0x80#8 → lfnChar c 0 = c := by decide +kernel

theorem lfnChar_lfnBytes (h : Ascii name) (i : ℕ) :
    lfnChar (lfnBytes name i).1 (lfnBytes name i).2 = name.getD i 0 := by
  unfold lfnBytes
  split_ifs with hi heq
  · have hmem : name.getD i 0 ∈ name := by
      rw [getD_eq_getElem?_getD,getElem?_eq_getElem hi]
      exact getElem_mem hi
    exact lfnChar_ascii _ (h _ hmem).1 (h _ hmem).2
  · subst heq
    simp [lfnChar]
  · rw [getD_eq_getElem?_getD,getElem?_eq_none (by omega)]
    rfl

theorem lfnChars_writeLfnSlot (h : Ascii name) (seq : ℕ) (last : Bool) (checksum : Byte) :
    lfnChars (writeLfnSlot name seq last checksum) = slice (name.getD · 0) ((seq - 1) * 13) 13 := by
  have hread : lfnChars (writeLfnSlot name seq last checksum) = (range 13).map fun i =>
      lfnChar (lfnBytes name ((seq - 1) * 13 + i)).1 (lfnBytes name ((seq - 1) * 13 + i)).2 := rfl
  rw [hread]
  exact map_congr_left fun i _ => lfnChar_lfnBytes h _

theorem marker_spec : ∀ (seq : Fin 21) (last : Bool), seq ≠ 0 →
    let marker := BitVec.ofNat 8 seq ||| if last then 0x40#8 else 0
    marker ≠ 0 ∧ marker ≠ erased ∧ (marker &&& 0x1F#8).toNat = seq ∧
      (marker &&& 0x40#8 ≠ 0 ↔ last = true) := by decide

/-- A walk over the long-name records of a name has come down to the part `s`. -/
structure Reading (name : List Byte) (checksum : Byte) (start s : ℕ) (state : LfnState) : Prop where
  valid : state.valid = true
  checksum : state.checksum = checksum
  startIndex : state.startIndex = start
  length : state.length = (name.length + 12) / 13 * 13
  expect : state.expect = s
  chars : ∀ j, s * 13 ≤ j → j < (name.length + 12) / 13 * 13 → state.name j = name.getD j 0

theorem blit_chars {buffer : ℕ → Byte} {xs : ℕ → Byte} {k : ℕ}
    (h : ∀ j, (s + 1) * 13 ≤ j → j < k * 13 → buffer j = xs j) :
    ∀ j, s * 13 ≤ j → j < k * 13 → blit buffer (s * 13) (slice xs (s * 13) 13) j = xs j := by
  intro j hlo hhi
  by_cases hj : j < s * 13 + 13
  · obtain ⟨i,rfl⟩ := Nat.exists_eq_add_of_le hlo
    rw [blit_of_mem (by rw [length_slice]; omega)]
    simp [slice]
  · rw [blit_of_not_mem (Or.inr (by rw [length_slice]; omega))]
    exact h j (by omega) hhi

variable {checksum : Byte} {state : LfnState}

theorem lfnFeed_first (h : Ascii name) (hs : s + 1 = (name.length + 12) / 13)
    (hmax : s < 20) (checksum : Byte) (state : LfnState) (index : ℕ) : Reading name checksum index s
      (lfnFeed state (writeLfnSlot name (s + 1) true checksum) index) := by
  obtain ⟨-,herased,hseq,hlast⟩ := marker_spec ⟨s + 1,by omega⟩ true (by simp)
  have hmarker : writeLfnSlot name (s + 1) true checksum 0 = BitVec.ofNat 8 (s + 1) ||| 0x40#8 := rfl
  have h13 : writeLfnSlot name (s + 1) true checksum 13 = checksum := rfl
  simp only [if_true] at herased hseq hlast
  have hfeed : lfnFeed state (writeLfnSlot name (s + 1) true checksum) index =
      ⟨blit state.name (s * 13) (slice (name.getD · 0) (s * 13) 13),(s + 1) * 13,index,checksum,s,
        true⟩ := by
    unfold lfnFeed
    simp only [hmarker,h13,if_neg herased,hseq,hlast,lfnChars_writeLfnSlot h,Nat.add_sub_cancel]
    rw [if_neg (by unfold fatLfnMaxSlots; omega),if_neg (by simp)]
    rfl
  rw [hfeed]
  refine ⟨rfl,rfl,rfl,by rw [hs],rfl,?_⟩
  exact blit_chars (fun j hlo hhi => absurd hhi (by omega))

theorem lfnFeed_next (h : Ascii name) {start : ℕ}
    (hr : Reading name checksum start (s + 1) state) (index : ℕ) (hmax : s < 20) :
    Reading name checksum start s
      (lfnFeed state (writeLfnSlot name (s + 1) false checksum) index) := by
  obtain ⟨-,herased,hseq,hlast⟩ := marker_spec ⟨s + 1,by omega⟩ false (by simp)
  have hmarker : writeLfnSlot name (s + 1) false checksum 0 = BitVec.ofNat 8 (s + 1) ||| 0 := rfl
  have h13 : writeLfnSlot name (s + 1) false checksum 13 = checksum := rfl
  simp only [Bool.false_eq_true,if_false,iff_false,not_not] at herased hseq hlast
  have hfeed : lfnFeed state (writeLfnSlot name (s + 1) false checksum) index = { state with
        name := blit state.name (s * 13) (slice (name.getD · 0) (s * 13) 13), expect := s } := by
    unfold lfnFeed
    simp only [hmarker,h13,if_neg herased,hseq,hlast,lfnChars_writeLfnSlot h,hr.valid,
      hr.expect,hr.checksum,Nat.add_sub_cancel]
    rw [if_neg (by unfold fatLfnMaxSlots; omega),if_neg (by simp)]
    simp [hr.checksum,hr.valid]
  rw [hfeed]
  exact ⟨hr.valid,hr.checksum,hr.startIndex,hr.length,rfl,blit_chars hr.chars⟩

theorem slice_getD (h : xs.length ≤ n) :
    slice (xs.getD · 0) 0 n = xs ++ replicate (n - xs.length) 0 := by
  refine ext_getElem (by simp; omega) fun i h1 h2 => ?_
  simp only [slice,getElem_map,getElem_range,Nat.zero_add]
  by_cases hi : i < xs.length
  · simp [hi]
  · simp [hi,getElem_append_right (Nat.le_of_not_lt hi)]

theorem Reading.lfnTake {start : ℕ} (hr : Reading name checksum start 0 state) (h : Ascii name)
    (hne : name ≠ []) (hmax : name.length ≤ fatLfnMax)
    (hsum : lfnChecksum (slice entry 0 11) = checksum) : lfnTake state entry = some name := by
  have hchars : slice state.name 0 state.length = name ++
      replicate ((name.length + 12) / 13 * 13 - name.length) 0 := by
    rw [hr.length,← slice_getD (by omega)]
    exact slice_congr fun j _ hj => hr.chars j (by omega) (by omega)
  have htake : (slice state.name 0 state.length).takeWhile (· ≠ 0) = name := by
    rw [hchars,takeWhile_append_of_pos fun c hc => decide_eq_true (h c hc).1]
    cases (name.length + 12) / 13 * 13 - name.length with
    | zero => simp
    | succ k => simp [replicate_succ]
  unfold Fat.lfnTake
  rw [if_neg (by simp [hr.valid,hr.expect]),if_neg (by rw [hr.checksum]; exact not_not.mpr hsum)]
  simp only [htake]
  rw [if_neg (by simp [hne]; exact hmax)]

end GaiaKernel.Fat
