import GaiaKernel.Fat.DirectorySpec
import GaiaKernel.Fat.RecordSpec

/-! # The namespace of a directory

Creating and removing entries whose names are plain changes a directory like a finite map on
names up to case: nothing but the name itself is affected.
-/
namespace GaiaKernel.Fat
open Bytes Trace List Item
variable {slots : List Slot} {items : List Item} {z : ℕ} {d : Dir} {name q : List Byte}

/-! ## New entries -/

theorem DirLayout.grow (h : DirLayout slots items z) (n : ℕ) :
    DirLayout (slots ++ replicate n zeroSlot) items (z + n) := by
  refine ⟨?_,h.ok⟩
  rw [h.eq,append_assoc,replicate_append_replicate]

theorem allocDirSlots_spec (h : DirLayout d.slots items z) (count free : ℕ) :
    ∃ z', DirLayout (allocDirSlots count d free).1.slots items z' ∧
      ∀ start, (allocDirSlots count d free).2 = some start →
        findRun count (allocDirSlots count d free).1.slots 0 0 0 = some start := by
  induction free generalizing d z with
  | zero => exact ⟨z,h,fun start hs => hs⟩
  | succ free ih =>
    rw [allocDirSlots]
    cases hrun : findRun count d.slots 0 0 0 with
    | some start =>
      refine ⟨z,h,fun start' hs => ?_⟩
      cases hs
      exact hrun
    | none =>
      cases d.perCluster with
      | none => exact ⟨z,h,fun start hs => nomatch hs⟩
      | some n => exact ih (h.grow n)

theorem slice_setTimestamp (clock : Option (ℕ × ℕ)) (entry : Slot) :
    slice (setTimestamp clock entry) 0 11 = slice entry 0 11 :=
  slice_congr fun i _ hi => setTimestamp_of clock entry (.inl (by omega))

theorem record_low (e : NewEntry) {short : List Byte} (hs : short.length = 11) (ntCase : Byte) :
    slice (e.record short ntCase) 0 11 = short ∧ e.record short ntCase attrAt = e.attr ∧
      e.record short ntCase ntCaseAt = ntCase := by
  unfold NewEntry.record attrAt ntCaseAt
  rw [slice_setTimestamp,setTimestamp_of _ _ (.inl (by decide)),setTimestamp_of _ _ (.inl (by decide))]
  simp (disch := grind) only [entrySetSize,entrySetCluster,slice_blit_of_disjoint,blit_of_not_mem,
    blit_singleton,and_true]
  exact hs ▸ slice_blit_self _ 0 short

theorem record_usable (e : NewEntry) {short : List Byte} (hs : short.length = 11) (ntCase : Byte)
    (hc : ∀ c, short.head? = some c → c ≠ 0 ∧ c ≠ erased) :
    entryIsUsable (e.record short ntCase) = true := by
  obtain ⟨hslice,hattr,-⟩ := record_low e hs ntCase
  have hhead : (slice (e.record short ntCase) 0 11).head? = some (e.record short ntCase 0) := rfl
  rw [hslice] at hhead
  obtain ⟨h0,he⟩ := hc _ hhead
  rw [entryIsUsable,entryIsFree,entryIsLfn,hattr,beq_eq_false_iff_ne.mpr h0,
    beq_eq_false_iff_ne.mpr he]
  unfold NewEntry.attr
  cases e.directory <;> decide

theorem putEntry_spec (h : DirLayout d.slots items z) (free : ℕ) (long : Option (List Byte))
    (lfn : List Slot) (record : Slot) (hslots : (entry long record).slots = lfn ++ [record])
    (hok : (entry long record).Ok)
    (hlabel : (long.getD (entryShortName record)).map toLower = name.map toLower) :
    let r := match allocDirSlots (lfn.length + 1) d free with
      | (d, none) => (d, none)
      | (d, some start) =>
        ({ d with slots := putSlots d.slots start (lfn ++ [record]) },
          some (⟨start,start + lfn.length,record⟩ : Found))
    ∃ items' z', DirLayout r.1.slots items' z' ∧ match r.2 with
      | none => items' = items
      | some f => ∃ long, Inserted (long, f) (entriesFrom 0 items) (entriesFrom 0 items') ∧
          (long.getD (entryShortName f.entry)).map toLower = name.map toLower := by
  obtain ⟨z',hl,hrun⟩ := allocDirSlots_spec h (lfn.length + 1) free
  generalize allocDirSlots (lfn.length + 1) d free = r at hl hrun
  obtain ⟨d',start⟩ := r
  cases start with
  | none => exact ⟨items,z',hl,rfl⟩
  | some start =>
    have hlen : (entry long record).slots.length = lfn.length + 1 := by simp [hslots]
    have hfound := hrun start rfl
    rw [← hlen] at hfound
    obtain ⟨items',z'',hl',hins⟩ := hl.put hok hfound
    rw [hslots,length_append,length_singleton] at hins
    rw [hslots] at hl'
    exact ⟨items',z'',hl',long,hins,hlabel⟩

theorem createEntry_spec (h : DirLayout d.slots items z) (hascii : Ascii name) (e : NewEntry)
    (free : ℕ) :
    ∃ items' z', DirLayout (createEntry d name e free).1.slots items' z' ∧
      match (createEntry d name e free).2 with
      | none => items' = items
      | some f => ∃ long, Inserted (long, f) (entriesFrom 0 items) (entriesFrom 0 items') ∧
          (long.getD (entryShortName f.entry)).map toLower = name.map toLower := by
  unfold createEntry
  by_cases hbad : name.isEmpty = true ∨ name.length > fatLfnMax
  · rw [if_pos hbad]
    exact ⟨items,z,h,rfl⟩
  rw [if_neg hbad]
  simp only [not_or,Nat.not_lt,List.isEmpty_iff] at hbad
  cases hexact : shortNameExact name with
  | some exact =>
    obtain ⟨short,ntCase⟩ := exact
    obtain ⟨base,ext,-,hbne,hb,he,hbase,-,rfl,-⟩ := shortNameExact_spec hexact
    have hs : (padTo 8 (base.map toUpper) ++ padTo 3 (ext.map toUpper)).length = 11 := by
      rw [length_append,length_padTo (by simpa using hb),length_padTo (by simpa using he)]
    have hhead : ∀ c, (padTo 8 (base.map toUpper) ++ padTo 3 (ext.map toUpper)).head? = some c →
        c ≠ 0 ∧ c ≠ erased := by
      obtain ⟨c,cs,rfl⟩ := exists_cons_of_ne_nil hbne
      have hc := toUpper_valid c (hbase c (mem_cons_self ..))
      intro c' hc'
      obtain rfl : toUpper c = c' := by simpa [padTo] using hc'
      exact ⟨hc.2.2.2,hc.2.2.1⟩
    refine putEntry_spec h free none [] (e.record _ ntCase) rfl ⟨record_usable e hs ntCase hhead,?_⟩ ?_
    · intro n hn
      cases hn
    · obtain ⟨hslice,-,hnt⟩ := record_low e hs ntCase
      rw [Option.getD_none,shortNameExact_shown hexact hslice hnt]
  | none =>
    cases halias : shortNameAlias (shortNameTaken d.slots) name with
    | none => exact ⟨items,z,h,rfl⟩
    | some short =>
      obtain ⟨stem,digits,ext,hshort,hsne,-,-,hlen,helen,hstem,-⟩ := shortNameAlias_spec halias
      have hs : short.length = 11 := by
        rw [hshort,length_append,length_padTo (by simp; omega),length_padTo helen]
      have hhead : ∀ c, short.head? = some c → c ≠ 0 ∧ c ≠ erased := by
        obtain ⟨c,cs,rfl⟩ := exists_cons_of_ne_nil hsne
        have hc := hstem c (mem_cons_self ..)
        intro c' hc'
        obtain rfl : c = c' := by simpa [padTo,hshort] using hc'
        exact ⟨hc.2.2.2,hc.2.2.1⟩
      obtain ⟨hslice,-,hnt⟩ := record_low e hs 0
      refine putEntry_spec h free (some name) _ (e.record short 0) ?_ ⟨record_usable e hs 0 hhead,?_⟩ rfl
      · rw [slots,storedName,hslice]
      · intro n hn
        cases hn
        exact ⟨hascii,hbad.1,hbad.2,shortNameAlias_shown halias hslice hnt⟩

/-! ## Removed entries -/

variable {new old : List (Option (List Byte) × Found)} {x : Option (List Byte) × Found}

theorem mem_entriesFrom {i : ℕ} (h : x ∈ entriesFrom i items) :
    ∃ pre post, items = pre ++ .entry x.1 x.2.entry :: post ∧ x.2.index = i + (flat pre).length ∧
      x.2.indexEnd = i + (flat pre).length + (entry x.1 x.2.entry).slots.length - 1 := by
  induction items generalizing i with
  | nil => exact (not_mem_nil h).elim
  | cons y items ih =>
    cases y with
    | hole record =>
      obtain ⟨pre,post,rfl,hindex,hend⟩ := ih h
      refine ⟨.hole record :: pre,post,rfl,?_,?_⟩
      · simp only [flat_cons,length_append,slots,length_singleton]
        omega
      · simp only [flat_cons,length_append,slots,length_singleton] at hend ⊢
        omega
    | entry long record =>
      rcases mem_cons.mp h with rfl | h
      · exact ⟨[],items,rfl,rfl,rfl⟩
      · obtain ⟨pre,post,rfl,hindex,hend⟩ := ih h
        refine ⟨.entry long record :: pre,post,rfl,?_,?_⟩
        · rw [flat_cons,length_append]
          omega
        · rw [flat_cons,length_append]
          omega

theorem hole_ok (record : Slot) : (hole (blit record 0 [erased])).Ok := by
  have h0 : blit record 0 [erased] 0 = erased := rfl
  refine ⟨?_,?_,fun _ => h0⟩
  · rw [h0]
    decide
  · rfl

theorem eraseEntry_append {a b c : List Slot} {f : Found} (hindex : f.index = a.length)
    (hend : f.indexEnd = a.length + b.length - 1) (hb : 0 < b.length) :
    eraseEntry (a ++ b ++ c) f = a ++ b.map (fun r => blit r 0 [erased]) ++ c := by
  refine ext_getElem (by simp [eraseEntry]) fun i h1 h2 => ?_
  simp only [eraseEntry,getElem_mapIdx,getElem_append,length_append,
    length_map,hindex,hend,getElem_map]
  by_cases hab : i < a.length + b.length
  · by_cases ha : i < a.length
    · rw [dif_pos hab,dif_pos ha,dif_pos hab,dif_pos ha,if_neg (by omega)]
    · rw [dif_pos hab,dif_neg ha,dif_pos hab,dif_neg ha,if_pos (by omega)]
  · rw [dif_neg hab,dif_neg hab,if_neg (by omega)]

theorem DirLayout.erase (h : DirLayout slots items z) (hx : x ∈ entriesFrom 0 items) :
    ∃ items', DirLayout (eraseEntry slots x.2) items' z ∧
      Inserted x (entriesFrom 0 items') (entriesFrom 0 items) := by
  obtain ⟨pre,post,hitems,hindex,hend⟩ := mem_entriesFrom hx
  obtain ⟨long,⟨index,indexEnd,record⟩⟩ := x
  dsimp only at hitems hindex hend
  rw [Nat.zero_add] at hindex hend
  have hpos : 0 < (Item.entry long record).slots.length := by cases long <;> simp [Item.slots]
  let holes := (Item.entry long record).slots.map fun r => Item.hole (blit r 0 [erased])
  have hholes : ∀ y ∈ holes, y.IsHole := by
    intro y hy
    obtain ⟨r,-,rfl⟩ := mem_map.mp hy
    exact ⟨_,rfl⟩
  have hflat : flat holes = (Item.entry long record).slots.map fun r => blit r 0 [erased] := by
    simp only [holes,flat,flatMap_map,Item.slots]
    exact flatMap_pure_eq_map _ _
  obtain ⟨hlen,hnone⟩ := flat_holes hholes
  have hlen' : holes.length = (entry long record).slots.length := length_map _
  refine ⟨pre ++ holes ++ post,⟨?_,?_⟩,entriesFrom 0 pre,
    entriesFrom ((flat pre).length + holes.length) post,?_,?_⟩
  · have hslots : slots = flat pre ++ (entry long record).slots ++
        (flat post ++ replicate z zeroSlot) := by
      rw [h.eq,hitems,flat_append,flat_cons]
      simp
    rw [hslots,eraseEntry_append hindex hend hpos,flat_append,flat_append,hflat]
    simp
  · intro y hy
    rcases mem_append.mp hy with hy | hy
    · rcases mem_append.mp hy with hy | hy
      · exact h.ok y (hitems ▸ mem_append_left _ hy)
      · obtain ⟨r,-,rfl⟩ := mem_map.mp hy
        exact hole_ok r
    · exact h.ok y (hitems ▸ mem_append_right _ (mem_cons_of_mem _ hy))
  · rw [entriesFrom_append,entriesFrom_append,hnone,append_nil,Nat.zero_add,flat_append,
      length_append,hlen]
  · rw [hitems,entriesFrom_append,entriesFrom,Nat.zero_add,hlen',hindex,hend]

/-! ## Lookups by plain names -/

def entryLabel (x : Option (List Byte) × Found) : List Byte :=
  (x.1.getD (entryShortName x.2.entry)).map toLower

structure Distinct (entries : List (Option (List Byte) × Found)) : Prop where
  labels : (entries.map entryLabel).Nodup
  aliased : ∀ x ∈ entries, x.1.isSome → AliasText (entryShortName x.2.entry)

theorem answers_iff
    (hx : x.1.isSome → AliasText (entryShortName x.2.entry)) (hq : ¬ AliasShaped q) :
    answers x.1 x.2.entry q = true ↔ entryLabel x = q.map toLower := by
  obtain ⟨long,f⟩ := x
  cases long with
  | none => simp [answers,entryLabel,sameName_iff]
  | some name =>
    have hno : sameName (entryShortName f.entry) q = false := by
      rw [Bool.eq_false_iff]
      exact fun hs => hq ⟨_,hx rfl,hs⟩
    simp [answers,entryLabel,hno,sameName_iff]

theorem find_eq_some_iff {entries : List (Option (List Byte) × Found)} (h : Distinct entries)
    (hq : ¬ AliasShaped q) : entries.find? (fun e => answers e.1 e.2.entry q) = some x ↔
      x ∈ entries ∧ entryLabel x = q.map toLower := by
  constructor
  · intro hx
    have hmem := mem_of_find?_eq_some hx
    have hanswers : answers x.1 x.2.entry q = true := by simpa using find?_some hx
    exact ⟨hmem,(answers_iff (h.aliased x hmem) hq).mp hanswers⟩
  · rintro ⟨hmem,hlabel⟩
    cases hf : entries.find? fun e => answers e.1 e.2.entry q with
    | none =>
      have := find?_eq_none.mp hf x hmem
      exact absurd ((answers_iff (h.aliased x hmem) hq).mpr hlabel) this
    | some y =>
      have hy := mem_of_find?_eq_some hf
      have hanswers : answers y.1 y.2.entry q = true := by simpa using find?_some hf
      have hylabel := (answers_iff (h.aliased y hy) hq).mp hanswers
      rw [inj_on_of_nodup_map h.labels hy hmem (hylabel.trans hlabel.symm)]

theorem mem_inserted {y : Option (List Byte) × Found} (h : Inserted x old new) :
    y ∈ new ↔ y = x ∨ y ∈ old := by
  obtain ⟨a,b,rfl,rfl⟩ := h
  simp only [mem_append,mem_cons]
  tauto

theorem distinct_inserted (h : Inserted x old new) :
    Distinct new ↔ Distinct old ∧ (∀ y ∈ old, entryLabel y ≠ entryLabel x) ∧
      (x.1.isSome → AliasText (entryShortName x.2.entry)) := by
  have hmem := fun y => mem_inserted (y := y) h
  obtain ⟨a,b,rfl,rfl⟩ := h
  have hnodup : ((a ++ x :: b).map entryLabel).Nodup ↔
      ((a ++ b).map entryLabel).Nodup ∧ entryLabel x ∉ (a ++ b).map entryLabel := by
    rw [map_append,map_cons,nodup_middle,nodup_cons,← map_append]
    exact and_comm
  have hlabels : entryLabel x ∉ (a ++ b).map entryLabel ↔ ∀ y ∈ a ++ b, entryLabel y ≠ entryLabel x := by
    simp only [mem_map,not_exists,not_and]
  constructor
  · rintro ⟨hl,ha⟩
    obtain ⟨hl,hx⟩ := hnodup.mp hl
    exact ⟨⟨hl,fun y hy => ha y ((hmem y).mpr (.inr hy))⟩,hlabels.mp hx,
      ha x ((hmem x).mpr (.inl rfl))⟩
  · rintro ⟨⟨hl,ha⟩,hx,hxa⟩
    refine ⟨hnodup.mpr ⟨hl,hlabels.mpr hx⟩,fun y hy => ?_⟩
    rcases (hmem y).mp hy with rfl | hy
    · exact hxa
    · exact ha y hy

theorem find_inserted (h : Inserted x old new) (hd : Distinct new) (hq : ¬ AliasShaped q) :
    (entryLabel x = q.map toLower → new.find? (fun e => answers e.1 e.2.entry q) = some x ∧
      old.find? (fun e => answers e.1 e.2.entry q) = none) ∧ (entryLabel x ≠ q.map toLower →
      new.find? (fun e => answers e.1 e.2.entry q) = old.find? fun e => answers e.1 e.2.entry q) := by
  obtain ⟨hold,hlabels,hx⟩ := (distinct_inserted h).mp hd
  constructor
  · intro hlabel
    refine ⟨(find_eq_some_iff hd hq).mpr ⟨(mem_inserted h).mpr (.inl rfl),hlabel⟩,?_⟩
    refine find?_eq_none.mpr fun y hy => ?_
    rw [answers_iff (hold.aliased y hy) hq,← hlabel]
    exact hlabels y hy
  · intro hlabel
    obtain ⟨a,b,rfl,rfl⟩ := h
    have hno : answers x.1 x.2.entry q = false := by
      rw [Bool.eq_false_iff]
      exact fun ha => hlabel ((answers_iff hx hq).mp ha)
    rw [find?_append,find?_append,find?_cons_of_neg (by simp [hno])]

theorem answers_label (h : entryLabel x = q.map toLower) : answers x.1 x.2.entry q = true := by
  obtain ⟨long,f⟩ := x
  cases long with
  | none => simpa [answers,entryLabel,sameName_iff] using h
  | some name =>
    have : sameName name q = true := sameName_iff.mpr h
    simp [answers,this]

theorem DirLayout.aliased (h : DirLayout slots items z) :
    ∀ x ∈ entriesFrom 0 items, x.1.isSome → AliasText (entryShortName x.2.entry) := by
  rintro ⟨long,f⟩ hx hsome
  obtain ⟨pre,post,hitems,-,-⟩ := mem_entriesFrom hx
  obtain ⟨-,hlong⟩ := h.ok (.entry long f.entry) (by rw [hitems]; simp)
  obtain ⟨name,rfl⟩ := Option.isSome_iff_exists.mp hsome
  exact (hlong name rfl).2.2.2

/-! ## Runs -/

/-- A directory whose entries are told apart by the names they were created under. -/
def Tidy (d : Dir) : Prop :=
  ∃ items z, DirLayout d.slots items z ∧ Distinct (entriesFrom 0 items)

theorem createAt_spec (h : DirLayout d.slots items z) (hd : Distinct (entriesFrom 0 items))
    (hname : Ascii name) (e : NewEntry) (free : ℕ) :
    ∃ items' z', DirLayout (createAt d name e free).1.slots items' z' ∧
      Distinct (entriesFrom 0 items') ∧ match (createAt d name e free).2 with
      | none => items' = items
      | some f => ∃ long, Inserted (long, f) (entriesFrom 0 items) (entriesFrom 0 items') ∧
          entryLabel (long, f) = name.map toLower ∧
          ∀ x ∈ entriesFrom 0 items, answers x.1 x.2.entry name = false := by
  unfold createAt
  by_cases hfound : (findEntry d.slots name).isSome = true
  · rw [if_pos hfound]
    exact ⟨items,z,h,hd,rfl⟩
  rw [if_neg hfound]
  have hno : ∀ x ∈ entriesFrom 0 items, answers x.1 x.2.entry name = false := by
    rw [h.findEntry,Option.isSome_map,find?_isSome] at hfound
    intro x hx
    rw [Bool.eq_false_iff]
    exact fun ha => hfound ⟨x,hx,ha⟩
  obtain ⟨items',z',hl,hcase⟩ := createEntry_spec h hname e free
  refine ⟨items',z',hl,?_⟩
  cases hresult : (createEntry d name e free).2 with
  | none =>
    rw [hresult] at hcase
    subst hcase
    exact ⟨hd,rfl⟩
  | some f =>
    rw [hresult] at hcase
    obtain ⟨long,hins,hlabel⟩ := hcase
    refine ⟨(distinct_inserted hins).mpr ⟨hd,fun y hy heq => ?_,?_⟩,long,hins,hlabel,hno⟩
    · have := answers_label (heq.trans hlabel)
      rw [hno y hy] at this
      exact Bool.false_ne_true this
    · exact hl.aliased _ ((mem_inserted hins).mpr (.inl rfl))

theorem removeAt_spec (h : DirLayout d.slots items z) (name : List Byte) (isDirectory empty : Bool) :
    (removeAt d name isDirectory empty).2 = false ∧ (removeAt d name isDirectory empty).1 = d ∨
      ∃ x items', (entriesFrom 0 items).find? (fun e => answers e.1 e.2.entry name) = some x ∧
        DirLayout (removeAt d name isDirectory empty).1.slots items' z ∧
        Inserted x (entriesFrom 0 items') (entriesFrom 0 items) := by
  unfold removeAt
  rw [h.findEntry]
  cases hfind : (entriesFrom 0 items).find? fun e => answers e.1 e.2.entry name with
  | none => exact .inl ⟨rfl,rfl⟩
  | some x =>
    dsimp only [Option.map_some]
    split_ifs
    · exact .inl ⟨rfl,rfl⟩
    · exact .inl ⟨rfl,rfl⟩
    · obtain ⟨items',hl,hins⟩ := h.erase (mem_of_find?_eq_some hfind)
      exact .inr ⟨x,items',rfl,hl,hins⟩

def Readable : DirOp → Prop
  | .create name _ _ => Ascii name
  | .remove _ _ _ => True

theorem Tidy.step (hd : Tidy d) {op : DirOp} (hop : Readable op) : Tidy (step d op) := by
  obtain ⟨items,z,h,hdist⟩ := hd
  cases op with
  | create name e free =>
    obtain ⟨items',z',hl,hdist',-⟩ := createAt_spec h hdist hop e free
    exact ⟨items',z',hl,hdist'⟩
  | remove name isDirectory empty =>
    rcases removeAt_spec h name isDirectory empty with ⟨-,heq⟩ | ⟨x,items',-,hl,hins⟩
    · rw [Fat.step,heq]
      exact ⟨items,z,h,hdist⟩
    · exact ⟨items',z,hl,((distinct_inserted hins).mp hdist).1⟩

/-- Names behave like the keys of a map, as long as those that are looked up or removed are not
spelled like aliases. -/
structure Law (d : Dir) : Prop where
  create : ∀ n m e free f, Ascii n → ¬ AliasShaped m → n.map toLower ≠ m.map toLower →
    (createAt d n e free).2 = some f →
      findEntry (createAt d n e free).1.slots n = some f ∧
      findEntry (createAt d n e free).1.slots m = findEntry d.slots m
  remove : ∀ n m isDirectory empty, ¬ AliasShaped n → ¬ AliasShaped m →
    n.map toLower ≠ m.map toLower → (removeAt d n isDirectory empty).2 = true →
      findEntry (removeAt d n isDirectory empty).1.slots n = none ∧
      findEntry (removeAt d n isDirectory empty).1.slots m = findEntry d.slots m
  refuse : ∀ n e free, findEntry d.slots n ≠ none → createAt d n e free = (d, none)

theorem Tidy.law (hd : Tidy d) : Law d := by
  obtain ⟨items,z,h,hdist⟩ := hd
  refine ⟨fun n m e free f hn hm hne hf => ?_,fun n m isDirectory empty hn hm hne hr => ?_,
    fun n e free hfound => ?_⟩
  · obtain ⟨items',z',hl,hdist',hcase⟩ := createAt_spec h hdist hn e free
    rw [hf] at hcase
    obtain ⟨long,hins,hlabel,hno⟩ := hcase
    rw [hl.findEntry,hl.findEntry,h.findEntry]
    constructor
    · obtain ⟨a,b,hold,hnew⟩ := hins
      have ha : a.find? (fun e => answers e.1 e.2.entry n) = none := by
        refine find?_eq_none.mpr fun x hx => ?_
        rw [hno x (hold ▸ mem_append_left _ hx)]
        exact Bool.false_ne_true
      have hx : answers long f.entry n = true := answers_label hlabel
      rw [hnew,find?_append,ha,Option.none_or,find?_cons,hx]
      rfl
    · rw [(find_inserted hins hdist' hm).2 (by rw [hlabel]; exact hne)]
  · rcases removeAt_spec h n isDirectory empty with ⟨hfalse,-⟩ | ⟨x,items',hfind,hl,hins⟩
    · rw [hfalse] at hr
      exact absurd hr Bool.false_ne_true
    · have hlabel := ((find_eq_some_iff hdist hn).mp hfind).2
      rw [hl.findEntry,hl.findEntry,h.findEntry,((find_inserted hins hdist hn).1 hlabel).2,
        (find_inserted hins hdist hm).2 (by rw [hlabel]; exact hne)]
      exact ⟨rfl,rfl⟩
  · rw [createAt,if_pos (Option.isSome_iff_ne_none.mpr hfound)]

/-- Directories before their first operation: an empty root, one with a volume label, and what
`mkdir` makes. -/
inductive Fresh : Dir → Prop
  | root (z : ℕ) (perCluster : Option ℕ) : Fresh ⟨replicate z zeroSlot,perCluster⟩
  | labelled (label : Slot) (z : ℕ) (perCluster : Option ℕ) (h0 : label 0 ≠ 0)
      (hattr : label attrAt = 0x08#8) : Fresh ⟨label :: replicate z zeroSlot,perCluster⟩
  | made (wide : Bool) (cluster parent : ℕ) (clock : Option (ℕ × ℕ)) (perCluster : ℕ) :
      Fresh ⟨initDirCluster wide cluster parent clock perCluster,some perCluster⟩

theorem dotRecord_low (wide : Bool) {dots : List Byte} (hlen : dots.length ≤ 8) (cluster : ℕ)
    (clock : Option (ℕ × ℕ)) :
    slice (dotRecord wide dots cluster clock) 0 11 = padTo 8 dots ++ padTo 3 [] ∧
      dotRecord wide dots cluster clock attrAt = fatAttrDirectory ∧
      dotRecord wide dots cluster clock ntCaseAt = 0 := by
  have hpad : (padTo 11 dots).length = 11 := length_padTo (by omega)
  have hself := slice_blit_self (fun _ => (0 : Byte)) 0 (padTo 11 dots)
  rw [hpad] at hself
  have hsplit : padTo 8 dots ++ padTo 3 [] = padTo 11 dots := by
    rw [padTo,padTo,padTo,nil_append,append_assoc,replicate_append_replicate]
    congr 2
    simp only [length_nil]
    omega
  unfold dotRecord attrAt ntCaseAt
  rw [slice_setTimestamp,setTimestamp_of _ _ (.inl (by decide)),setTimestamp_of _ _ (.inl (by decide))]
  simp (disch := grind) only [entrySetCluster,slice_blit_of_disjoint,blit_of_not_mem,blit_singleton,
    hself,hsplit,and_self]

theorem dotEntry_ok (wide : Bool) (dots : List Byte)
    (hdots : dots = [period] ∨ dots = [period, period]) (cluster : ℕ) (clock : Option (ℕ × ℕ)) :
    (entry none (dotRecord wide dots cluster clock)).Ok ∧
      entryShortName (dotRecord wide dots cluster clock) = dots := by
  have hlen : dots.length ≤ 8 := by rcases hdots with rfl | rfl <;> decide
  have hchars : ∀ c ∈ dots, c = period := by rcases hdots with rfl | rfl <;> decide
  have hhead : dots.head? = some period := by rcases hdots with rfl | rfl <;> rfl
  obtain ⟨hslice,hattr,hnt⟩ := dotRecord_low wide hlen cluster clock
  refine ⟨⟨?_,fun name hname => nomatch hname⟩,?_⟩
  · have h0 : (slice (dotRecord wide dots cluster clock) 0 11).head? =
        some (dotRecord wide dots cluster clock 0) := rfl
    rw [hslice,padTo,append_assoc,head?_append,hhead] at h0
    obtain h0 : period = dotRecord wide dots cluster clock 0 := Option.some.inj h0
    rw [entryIsUsable,entryIsFree,entryIsLfn,← h0,hattr]
    decide
  · have hext : ([] : List Byte).length ≤ 3 := by decide
    rw [entryShortName_eq hlen hext (fun c hc => hchars c hc ▸ by decide)
      (fun c hc => (not_mem_nil hc).elim) hslice,if_pos rfl,append_nil,hnt]
    rcases hdots with rfl | rfl <;> decide

theorem Fresh.tidy (h : Fresh d) : Tidy d := by
  cases h with
  | root z perCluster =>
    exact ⟨[],z,⟨rfl,fun x hx => (not_mem_nil hx).elim⟩,nodup_nil,fun x hx => (not_mem_nil hx).elim⟩
  | labelled label z perCluster h0 hattr =>
    refine ⟨[.hole label],z,⟨rfl,fun x hx => ?_⟩,nodup_nil,fun x hx => (not_mem_nil hx).elim⟩
    rw [mem_singleton.mp hx]
    refine ⟨h0,?_,fun hl => ?_⟩
    · rw [entryIsUsable,hattr]
      simp
    · rw [entryIsLfn,hattr] at hl
      exact absurd hl (by decide)
  | made wide cluster parent clock perCluster =>
    have hdot := dotEntry_ok wide [period] (.inl rfl) cluster clock
    have hdotdot := dotEntry_ok wide [period, period] (.inr rfl) parent clock
    refine ⟨[.entry none (dotRecord wide [period] cluster clock),
      .entry none (dotRecord wide [period, period] parent clock)],perCluster - 2,⟨rfl,?_⟩,?_,?_⟩
    · intro x hx
      rcases mem_cons.mp hx with rfl | hx
      · exact hdot.1
      · rw [mem_singleton.mp hx]
        exact hdotdot.1
    · simp only [entriesFrom,map_cons,map_nil,entryLabel,Option.getD_none,hdot.2,hdotdot.2]
      decide
    · simp [entriesFrom]

/-- Along every run from a fresh directory that creates only names a long name gives back. -/
theorem namespace_law (hfresh : Fresh d) {ops : List DirOp} (hops : ∀ op ∈ ops, Readable op) :
    Always step Law d ops := by
  have hadm : ∀ d, Admissible step (fun _ => Readable) d ops := by
    induction ops with
    | nil => exact fun _ => trivial
    | cons op ops ih =>
      obtain ⟨hop,hops⟩ := forall_mem_cons.mp hops
      exact fun d => ⟨hop,ih hops (step d op)⟩
  exact (hadm d).always (fun d op hd hop => hd.step hop) (fun d hd => hd.law) hfresh.tidy

def newFile : NewEntry := ⟨false,0,false,none⟩

theorem namespace_law_oneFile : Always step Law ⟨replicate 4 zeroSlot,none⟩
    [.create [0x61#8, 0x20#8, 0x62#8] newFile 0, .remove [0x61#8, 0x20#8, 0x62#8] false true] := by
  refine namespace_law (.root 4 none) fun op hop => ?_
  rcases mem_cons.mp hop with rfl | hop
  · show Ascii _
    unfold Ascii
    decide
  · rw [mem_singleton.mp hop]
    trivial

/-- Creating `x y` and `Ab~1`, removing `x y` and creating `a b` changes what `Ab~1` finds: the
alias `AB~1` of `a b` comes first. -/
theorem create_hides_alias_spelling :
    let d := run step ⟨replicate 16 zeroSlot,none⟩
      [.create [0x78#8, 0x20#8, 0x79#8] newFile 0, .create [0x41#8, 0x62#8, 0x7E#8, 0x31#8] newFile 0,
        .remove [0x78#8, 0x20#8, 0x79#8] false true]
    let d' := createAt d [0x61#8, 0x20#8, 0x62#8] newFile 0
    d'.2.map Found.index = some 0 ∧
      (findEntry d.slots [0x41#8, 0x62#8, 0x7E#8, 0x31#8]).map Found.indexEnd = some 3 ∧
      (findEntry d'.1.slots [0x41#8, 0x62#8, 0x7E#8, 0x31#8]).map Found.indexEnd = some 1 := by
  decide +kernel

end GaiaKernel.Fat
