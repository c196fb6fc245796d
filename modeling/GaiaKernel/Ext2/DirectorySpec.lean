import GaiaKernel.Ext2.Directory
import GaiaKernel.Lib.Trace

/-! # The algebra of ext2 directories

In a consistent directory the records tile the blocks and no two live ones share a name: it is a
finite map from names to inodes. `ext2_dir_add` and `ext2_dir_remove` insert and delete in this map,
except where the size of the directory passes `2^32` or the entry added is of inode 0.
-/
namespace GaiaKernel.Ext2
open Bytes Nat List Prod Option
variable {e : DirEntry}

/-! ### Records -/

def Records (data : ℕ → Byte) (bs : ℕ) : ℕ → List DirEntry → ℕ → Prop
  | lo, [], hi => lo = hi
  | lo, e :: es, hi =>
    dirEntryAt data lo = e ∧ EntryValid bs e (lo % bs) ∧ Records data bs (lo + e.recordLength) es hi

variable {b off : ℕ} {post pre : List DirEntry}
section
variable {data data' : ℕ → Byte} {bs lo mid hi : ℕ} {es es' : List DirEntry} {e : DirEntry}

theorem Records.append (h : Records data bs lo es mid) (h' : Records data bs mid es' hi) :
    Records data bs lo (es ++ es') hi := by
  induction es generalizing lo with
  | nil =>
    obtain rfl : lo = mid := h
    exact h'
  | cons e es ih => exact ⟨h.1,h.2.1,ih h.2.2⟩

theorem Records.of_append (h : Records data bs lo (es ++ es') hi) :
    ∃ mid, Records data bs lo es mid ∧ Records data bs mid es' hi := by
  induction es generalizing lo with
  | nil => exact ⟨lo,rfl,h⟩
  | cons e es ih =>
    obtain ⟨mid,hes,hes'⟩ := ih h.2.2
    exact ⟨mid,⟨h.1,h.2.1,hes⟩,hes'⟩

theorem Records.length_le (h : Records data bs lo es hi) : lo + 8 * es.length ≤ hi := by
  induction es generalizing lo with
  | nil => exact le_of_eq h
  | cons e es ih =>
    have hrest := ih h.2.2
    have hlen := h.2.1.1
    rw [length_cons]
    omega

theorem Records.le (h : Records data bs lo es hi) : lo ≤ hi := (le_add_right _ _).trans h.length_le

theorem dirEntryAt_congr (h : ∀ i, lo ≤ i → i < lo + 8 + (data (lo + 6)).toNat → data i = data' i) :
    dirEntryAt data lo = dirEntryAt data' lo := by
  have hlen : data (lo + 6) = data' (lo + 6) := h _ (by omega) (by omega)
  unfold dirEntryAt
  rw [leNat_congr fun i hi hi' => h i hi (by omega),
    leNat_congr fun i hi hi' => h i (by omega) (by omega),h (lo + 7) (by omega) (by omega),
    slice_congr fun i hi hi' => h i (by omega) (by omega),hlen]

theorem length_name (data : ℕ → Byte) (lo : ℕ) :
    (dirEntryAt data lo).name.length = (data (lo + 6)).toNat := length_slice _ _ _

theorem EntryValid.congr (hv : EntryValid bs (dirEntryAt data lo) off)
    (h : ∀ i, lo ≤ i → i < lo + (dirEntryAt data lo).recordLength → data' i = data i) :
    dirEntryAt data' lo = dirEntryAt data lo := by
  obtain ⟨h8,-,-,hname⟩ := hv
  rw [length_name] at hname
  exact (dirEntryAt_congr fun i hi hi' => (h i hi (by omega)).symm).symm

theorem Records.congr (h : Records data bs lo es hi)
    (heq : ∀ i, lo ≤ i → i < hi → data' i = data i) : Records data' bs lo es hi := by
  induction es generalizing lo with
  | nil => exact h
  | cons e es ih =>
    obtain ⟨rfl,hv,hrest⟩ := h
    have hle := hrest.le
    have hsame := hv.congr fun i hi hi' => heq i hi (by omega)
    exact ⟨hsame,hv,ih hrest fun i hi hi' => heq i (by omega) hi'⟩

theorem Records.splice {a : ℕ} (hpre : Records data bs lo pre a)
    (hmid : Records data' bs a es b) (hpost : Records data bs b post hi)
    (hout : ∀ i, i < a ∨ b ≤ i → data' i = data i) :
    Records data' bs lo (pre ++ es ++ post) hi := by
  have hpre' := hpre.congr fun i _ hi => hout i (.inl hi)
  have hpost' := hpost.congr fun i hi _ => hout i (.inr hi)
  exact (hpre'.append hmid).append hpost'

theorem add_mod_of_lt {a c : ℕ} (h : a % b + c < b) : (a + c) % b = a % b + c := by
  rw [add_mod,mod_eq_of_lt (show c < b by omega),mod_eq_of_lt h]

theorem mod_lt_of_valid (h : EntryValid bs e (lo % bs)) : lo % bs + e.recordLength ≤ bs := by
  obtain ⟨h8,-,hblock,-⟩ := h
  omega

theorem Records.split_at (h : Records data bs lo es hi) (hb : bs ∣ b) (hlo : lo ≤ b)
    (hhi : b ≤ hi) :
    ∃ pre post, es = pre ++ post ∧ Records data bs lo pre b ∧ Records data bs b post hi := by
  induction es generalizing lo with
  | nil =>
    obtain rfl : lo = hi := h
    obtain rfl : lo = b := by omega
    exact ⟨[],[],rfl,rfl,rfl⟩
  | cons e es ih =>
    obtain ⟨he,hv,hrest⟩ := h
    rcases hlo.eq_or_lt with rfl | hlt
    · exact ⟨[],e :: es,rfl,rfl,he,hv,hrest⟩
    · -- the next block boundary is at `lo - lo % bs + bs`, and the record ends before it
      have hend : lo + e.recordLength ≤ b := by
        obtain ⟨k,rfl⟩ := hb
        have hfit := mod_lt_of_valid hv
        have hk : lo / bs < k := Nat.div_lt_of_lt_mul hlt
        have hmul : bs * (lo / bs + 1) ≤ bs * k := mul_le_mul_left bs hk
        have hdiv := div_add_mod lo bs
        rw [mul_succ] at hmul
        omega
      obtain ⟨pre,post,rfl,hpre,hpost⟩ := ih hrest hend
      exact ⟨e :: pre,post,rfl,⟨he,hv,hpre⟩,hpost⟩

end

/-! ### Writing records -/

section
variable {data : ℕ → Byte} {pos record inodeNumber : ℕ} {type : Byte} {name : List Byte}

theorem initializeEntry_of_not_mem (hrec : 8 + name.length ≤ record) {i : ℕ}
    (hi : i < pos ∨ pos + record ≤ i) :
    initializeEntry data pos record inodeNumber type name i = data i := by
  unfold initializeEntry
  simp (disch := grind) only [blit_of_not_mem]

theorem dirEntryAt_initializeEntry (hinode : inodeNumber < 2 ^ 32) (hrecord : record < 2 ^ 16)
    (hname : name.length < 2 ^ 8) :
    dirEntryAt (initializeEntry data pos record inodeNumber type name) pos =
      ⟨inodeNumber,record,type,name⟩ := by
  -- the fields are stored in order, so that each is still there at the end
  simp (disch := grind) only [dirEntryAt,initializeEntry,leNat_blit_of_disjoint,leNat_blit,
    blit_of_not_mem,blit_singleton,BitVec.toNat_ofNat,mod_eq_of_lt,slice_blit_self]

theorem dirEntryAt_setLength (hrecord : record < 2 ^ 16) :
    dirEntryAt (blit data (pos + 4) (leBytes 2 record)) pos =
      { dirEntryAt data pos with recordLength := record } := by
  simp (disch := grind) only [dirEntryAt,leNat_blit_of_disjoint,leNat_blit,blit_of_not_mem,
    slice_blit_of_disjoint]

theorem dirEntryAt_setInode (hinode : inodeNumber < 2 ^ 32) :
    dirEntryAt (blit data pos (leBytes 4 inodeNumber)) pos =
      { dirEntryAt data pos with inode := inodeNumber } := by
  simp (disch := grind) only [dirEntryAt,leNat_blit_of_disjoint,leNat_blit,blit_of_not_mem,
    slice_blit_of_disjoint]

theorem directoryRecordSize_ge (n : ℕ) : 8 + n ≤ directoryRecordSize n := by
  unfold directoryRecordSize
  omega

theorem directoryRecordSize_mod (n : ℕ) : directoryRecordSize n % 4 = 0 := by
  unfold directoryRecordSize
  omega

end

/-! ### The walk over the records -/

section
variable {α β : Type} {visit : α → ℕ → ℕ → DirEntry → α ⊕ β}
variable {data : ℕ → Byte} {bs lo hi : ℕ} {es : List DirEntry}

def visitAll (visit : α → ℕ → ℕ → DirEntry → α ⊕ β) : ℕ → α → List DirEntry → Scan β
  | _, _, [] => .finished
  | lo, acc, e :: es =>
    match visit acc lo lo e with
    | .inr answer => .found answer
    | .inl acc' => visitAll visit (lo + e.recordLength) acc' es

theorem scan_eq_visitAll (h : Records data bs lo es hi) (hhi : hi < 2 ^ 32) {fuel : ℕ}
    (hfuel : es.length < fuel) (acc : α) :
    scan (m := Id) (fun off => some (off, dirEntryAt data off)) bs hi visit fuel lo acc =
      visitAll visit lo acc es := by
  induction es generalizing lo fuel acc with
  | nil =>
    obtain rfl : lo = hi := h
    obtain ⟨fuel,rfl⟩ := exists_eq_succ_of_ne_zero (ne_of_gt hfuel)
    exact if_neg (lt_irrefl lo)
  | cons e es ih =>
    obtain ⟨rfl,hv,hrest⟩ := h
    obtain ⟨fuel,rfl⟩ := exists_eq_succ_of_ne_zero (ne_of_gt (zero_lt_of_lt hfuel))
    have hle := hrest.le
    have hlt : lo < hi := by
      have := hv.1
      omega
    have hwrap : (lo + (dirEntryAt data lo).recordLength) % 2 ^ 32 =
        lo + (dirEntryAt data lo).recordLength := mod_eq_of_lt (by omega)
    have hstep := fun acc' => ih hrest (lt_of_succ_lt_succ hfuel) acc'
    have hunfold : scan (m := Id) (fun off => some (off, dirEntryAt data off)) bs hi visit (fuel + 1) lo
        acc = match visit acc lo lo (dirEntryAt data lo) with
          | .inr answer => .found answer
          | .inl acc' => scan (m := Id) (fun off => some (off, dirEntryAt data off)) bs hi visit fuel
              ((lo + (dirEntryAt data lo).recordLength) % 2 ^ 32) acc' := by
      rw [scan,if_pos hlt]
      exact if_pos hv
    rw [hunfold,visitAll]
    cases visit acc lo lo (dirEntryAt data lo) with
    | inr answer => rfl
    | inl acc' =>
      rw [hwrap]
      exact hstep acc'

/-- Where a walk stops: at a record before which every record was passed over. `I` relates the
accumulator to the records passed. -/
theorem Records.stops (h : Records data bs lo es hi) {acc : α} {answer : β}
    (hv : visitAll visit lo acc es = .found answer) (before : List DirEntry)
    {I : List DirEntry → ℕ → α → Prop} (hI : I before lo acc)
    (hpass : ∀ pre off acc e acc', I pre off acc → visit acc off off e = .inl acc' →
      I (pre ++ [e]) (off + e.recordLength) acc') :
    ∃ pre off acc' e post, es = pre ++ e :: post ∧ Records data bs lo pre off ∧
      Records data bs off (e :: post) hi ∧ I (before ++ pre) off acc' ∧
        visit acc' off off e = .inr answer := by
  induction es generalizing lo acc before with
  | nil => cases hv
  | cons e es ih =>
    rw [visitAll] at hv
    cases hvisit : visit acc lo lo e with
    | inr b =>
      rw [hvisit] at hv
      obtain rfl : b = answer := Scan.found.inj hv
      exact ⟨[],lo,acc,e,es,rfl,rfl,h,by rwa [append_nil],hvisit⟩
    | inl acc' =>
      rw [hvisit] at hv
      obtain ⟨pre,off,acc'',e',post,rfl,hpre,hpost,hI',hans⟩ :=
        ih h.2.2 hv (before ++ [e]) (hpass _ _ _ _ _ hI hvisit)
      rw [append_assoc] at hI'
      exact ⟨e :: pre,off,acc'',e',post,rfl,⟨h.1,h.2.1,hpre⟩,hpost,hI',hans⟩

theorem visitAll_finished {visit : Unit → ℕ → ℕ → DirEntry → Unit ⊕ β}
    (h : ∀ e ∈ es, ∀ off, visit () off off e = .inl ()) (lo : ℕ) :
    visitAll visit lo () es = .finished := by
  induction es generalizing lo with
  | nil => rfl
  | cons e es ih =>
    rw [visitAll,h e mem_cons_self lo]
    exact ih (fun e' he' => h e' (mem_cons_of_mem e he')) _

end

/-! ### The listing -/

namespace Directory
variable {d d' : Directory} {es : List DirEntry} {name : List Byte}

def Parses (d : Directory) (es : List DirEntry) : Prop :=
  Records d.data d.blockSize 0 es d.size.toNat

def listing (d : Directory) (es : List DirEntry) : List (List Byte × ℕ × Byte) :=
  (es.filter fun e => e.inode ≠ 0).map fun e => (e.name, e.inode, d.entryFileType e)

theorem blockSize_bounds (d : Directory) :
    1024 ≤ d.blockSize ∧ d.blockSize ≤ 4096 ∧ d.blockSize ∣ 2 ^ 32 ∧ d.blockSize % 4 = 0 := by
  have hcases : ∀ k : Fin 3, 1024 ≤ 1024 * 2 ^ k.val ∧ 1024 * 2 ^ k.val ≤ 4096 ∧
      1024 * 2 ^ k.val ∣ 2 ^ 32 ∧ 1024 * 2 ^ k.val % 4 = 0 := by decide
  exact hcases d.logBlockSize

theorem walk_eq {α β : Type} (h : d.Parses es) (visit : α → ℕ → ℕ → DirEntry → α ⊕ β) (acc : α) :
    d.walk visit acc = visitAll visit 0 acc es := by
  have hlen := Records.length_le h
  have hsize := d.size.isLt
  apply scan_eq_visitAll h hsize
  unfold scanLimit
  omega

theorem visitAll_lookup (es : List DirEntry) (lo : ℕ) :
    (match visitAll (lookupVisit name) lo () es with
      | .found entry => some (entry.inode, d.entryFileType entry)
      | _ => none) = (d.listing es).lookup name := by
  induction es generalizing lo with
  | nil => rfl
  | cons e es ih =>
    rw [visitAll,lookupVisit,listing]
    by_cases hlive : e.inode = 0
    · rw [if_neg (by tauto),filter_cons_of_neg (by simpa using hlive)]
      exact ih _
    · rw [filter_cons_of_pos (by simpa using hlive),map_cons,lookup_cons]
      by_cases hname : e.name = name
      · rw [if_pos ⟨hlive,hname⟩,beq_iff_eq.mpr hname.symm]
      · rw [if_neg (by tauto),beq_eq_false_iff_ne.mpr (Ne.symm hname)]
        exact ih _

theorem dirLookup_eq (h : d.Parses es) (hname : name ≠ []) :
    d.dirLookup name = (d.listing es).lookup name := by
  rw [dirLookup,if_neg hname,walk_eq h]
  exact visitAll_lookup es 0

variable (d)

theorem dirLookup_nil : d.dirLookup [] = none := if_pos rfl

theorem listing_append (es es' : List DirEntry) :
    d.listing (es ++ es') = d.listing es ++ d.listing es' := by
  unfold listing
  rw [filter_append,map_append]

theorem listing_dead (he : e.inode = 0) : d.listing [e] = [] := by
  simp [listing,he]

theorem listing_live (he : e.inode ≠ 0) :
    d.listing [e] = [(e.name, e.inode, d.entryFileType e)] := by
  simp [listing,he]

theorem listing_cons (e : DirEntry) (es : List DirEntry) :
    d.listing (e :: es) = d.listing [e] ++ d.listing es := listing_append d [e] es

theorem listing_setLength (e : DirEntry) (record : ℕ) :
    d.listing [{ e with recordLength := record }] = d.listing [e] := by
  by_cases he : e.inode = 0
  · rw [listing_dead d he,listing_dead d (e := { e with recordLength := record }) he]
  · rw [listing_live d he,listing_live d (e := { e with recordLength := record }) he]
    rfl

variable {d}

/-! ### Adding an entry -/

section
variable {inodeNumber : U32} {type : Byte}

def Inserts (d d' : Directory) (es : List DirEntry) (e : DirEntry) : Prop :=
  ∃ es' A B, d'.Parses es' ∧ d.listing es = A ++ B ∧ d.listing es' = A ++ d.listing [e] ++ B

def entryOf (inodeNumber : U32) (type : Byte) (name : List Byte) (record : ℕ) : DirEntry :=
  ⟨inodeNumber.toNat,record,type,name⟩

theorem recordLength_lt (hv : EntryValid d.blockSize e off) :
    e.recordLength < 2 ^ 16 := by
  have hbs := d.blockSize_bounds
  have hlen := hv.2.2.1
  omega

section
variable (hname : name.length ≤ vfsNameMax) {e : DirEntry}
  (hpre : Records d.data d.blockSize 0 pre off)
  (hpost : Records d.data d.blockSize off (e :: post) d.size.toNat)
include hname hpre hpost

theorem fill_reuse (hdead : e.inode = 0) (hfit : directoryRecordSize name.length ≤ e.recordLength) :
    Inserts d (d.fill name inodeNumber type (.reuse off e)) (pre ++ e :: post)
      (entryOf inodeNumber type name e.recordLength) := by
  obtain ⟨-,hv,hrest⟩ := hpost
  have hsize := directoryRecordSize_ge name.length
  have hnew : Records (d.fill name inodeNumber type (.reuse off e)).data d.blockSize off
      [entryOf inodeNumber type name e.recordLength] (off + e.recordLength) := by
    refine ⟨dirEntryAt_initializeEntry inodeNumber.isLt (recordLength_lt hv)
      (lt_succ_of_le hname),?_,rfl⟩
    exact ⟨hv.1,hv.2.1,hv.2.2.1,by simp only [entryOf]; omega⟩
  refine ⟨_,d.listing pre,d.listing post,hpre.splice hnew hrest ?_,?_,?_⟩
  · intro i hi
    exact initializeEntry_of_not_mem (by omega) hi
  · rw [append_cons,listing_append,listing_append,listing_dead d hdead,append_nil]
  · rw [listing_append,listing_append]

theorem fill_split (hfit : directoryRecordSize e.name.length + directoryRecordSize name.length ≤
      e.recordLength) : Inserts d (d.fill name inodeNumber type (.split off e)) (pre ++ e :: post)
      (entryOf inodeNumber type name (e.recordLength - directoryRecordSize e.name.length)) := by
  obtain ⟨he,hv,hrest⟩ := hpost
  have hsize := directoryRecordSize_ge name.length
  have hused := directoryRecordSize_ge e.name.length
  have hlen := recordLength_lt hv
  have hblock := mod_lt_of_valid hv
  have hmod := hv.2.1
  have hmod' := directoryRecordSize_mod e.name.length
  set used := directoryRecordSize e.name.length with hdef
  set d' := d.fill name inodeNumber type (.split off e) with hd'
  have hdata : d'.data = initializeEntry (blit d.data (off + 4) (leBytes 2 used)) (off + used)
      (e.recordLength - used) inodeNumber.toNat type name := rfl
  -- the record that is cut keeps its entry: the new one starts behind its name
  have hshort : dirEntryAt (blit d.data (off + 4) (leBytes 2 used)) off =
      { e with recordLength := used } := by
    rw [dirEntryAt_setLength (by omega),he]
  have hshortValid : EntryValid d.blockSize { e with recordLength := used } (off % d.blockSize) :=
    ⟨by simp only; omega,hmod',by simp only; omega,by simp only; omega⟩
  have hcut : dirEntryAt d'.data off = { e with recordLength := used } := by
    have hkept := hshortValid
    rw [← hshort] at hkept ⊢
    apply hkept.congr
    intro i hi hi'
    rw [hshort] at hi'
    exact initializeEntry_of_not_mem (by omega) (.inl hi')
  have hnew : Records d'.data d.blockSize (off + used)
      [entryOf inodeNumber type name (e.recordLength - used)] (off + e.recordLength) := by
    have hstart : (off + used) % d.blockSize = off % d.blockSize + used := add_mod_of_lt (by omega)
    refine ⟨dirEntryAt_initializeEntry inodeNumber.isLt (by omega) (lt_succ_of_le hname),
      ⟨?_,?_,?_,?_⟩,?_⟩
    all_goals
      simp only [entryOf,Records]
      omega
  have hmid : Records d'.data d.blockSize off [{ e with recordLength := used },
      entryOf inodeNumber type name (e.recordLength - used)] (off + e.recordLength) :=
    ⟨hcut,hshortValid,hnew⟩
  refine ⟨_,d.listing (pre ++ [e]),d.listing post,hpre.splice hmid hrest ?_,?_,?_⟩
  · intro i hi
    rw [hdata,initializeEntry_of_not_mem (by omega) (by omega)]
    exact blit_of_not_mem (by rw [length_leBytes]; omega)
  · rw [append_cons,listing_append]
  · rw [listing_append,listing_append,listing_cons,listing_setLength,listing_append]
    simp

end

theorem nextLogical_mul (hwhole : d.blockSize ∣ d.size.toNat) :
    d.nextLogical * d.blockSize = d.size.toNat ∧ d.size.toNat + d.blockSize ≤ 2 ^ 32 := by
  obtain ⟨hlow,-,hdvd,-⟩ := d.blockSize_bounds
  have hle : d.size.toNat + d.blockSize ≤ 2 ^ 32 := by
    obtain ⟨a,ha⟩ := hwhole
    obtain ⟨b,hb⟩ := hdvd
    have hlt : a < b := Nat.lt_of_mul_lt_mul_left (by rw [← ha,← hb]; exact d.size.isLt)
    rw [ha,hb,← mul_succ]
    exact mul_le_mul_left _ hlt
  refine ⟨?_,hle⟩
  unfold nextLogical
  obtain ⟨a,ha⟩ := hwhole
  rw [mod_eq_of_lt (by omega),ha]
  have hdiv : (d.blockSize * a + d.blockSize - 1) / d.blockSize = a := by
    rw [Nat.add_sub_assoc (by omega),Nat.mul_add_div (by omega),div_eq_of_lt (by omega),add_zero]
  rw [hdiv,mul_comm]

theorem toNat_size_extend (hwhole : d.blockSize ∣ d.size.toNat) :
    (d.extend name inodeNumber type).size.toNat = (d.size.toNat + d.blockSize) % 2 ^ 32 := by
  rw [extend,BitVec.toNat_ofNat,succ_mul,(nextLogical_mul hwhole).1]

theorem extend_inserts (hname : name.length ≤ vfsNameMax) (hwhole : d.blockSize ∣ d.size.toNat)
    (h : d.Parses es) (hroom : d.size.toNat + d.blockSize < 2 ^ 32) :
    Inserts d (d.extend name inodeNumber type) es (entryOf inodeNumber type name d.blockSize) := by
  obtain ⟨hlow,hhigh,-,hfour⟩ := d.blockSize_bounds
  have hpos := (nextLogical_mul hwhole).1
  have hsmall : name.length ≤ 255 := hname
  have hdata : (d.extend name inodeNumber type).data =
      initializeEntry d.data d.size.toNat d.blockSize inodeNumber.toNat type name := by
    rw [extend,hpos]
  have hnew : Records (d.extend name inodeNumber type).data d.blockSize d.size.toNat
      [entryOf inodeNumber type name d.blockSize] (d.size.toNat + d.blockSize) := by
    refine ⟨?_,⟨by simp only [entryOf]; omega,hfour,?_,by simp only [entryOf]; omega⟩,rfl⟩
    · rw [hdata]
      exact dirEntryAt_initializeEntry inodeNumber.isLt (by omega) (by omega)
    · rw [mod_eq_zero_of_dvd hwhole]
      exact le_refl _
  have hold : Records (d.extend name inodeNumber type).data d.blockSize 0 es d.size.toNat := by
    apply h.congr
    intro i _ hi
    rw [hdata]
    exact initializeEntry_of_not_mem (by omega) (.inl hi)
  refine ⟨es ++ [entryOf inodeNumber type name d.blockSize],d.listing es,[],?_,?_,?_⟩
  · rw [Parses,toNat_size_extend hwhole,mod_eq_of_lt hroom]
    exact hold.append hnew
  · rw [append_nil]
  · rw [listing_append,append_nil]

def NeedsBlock (d : Directory) (name : List Byte) : Prop :=
  d.walk (addVisit (directoryRecordSize name.length)) () = .finished

instance (d : Directory) (name : List Byte) : Decidable (NeedsBlock d name) :=
  inferInstanceAs (Decidable (_ = _))

theorem dirAdd_cases (hwhole : d.blockSize ∣ d.size.toNat) (h : d.Parses es) {room : Bool}
    (hadd : d.dirAdd name inodeNumber type room = some d') :
    name ≠ [] ∧ d.dirLookup name = none ∧ d'.inodeType = d.inodeType ∧ d'.blockSize = d.blockSize ∧
        (if NeedsBlock d name ∧ d.size.toNat + d.blockSize = 2 ^ 32 then d'.size = 0#32
          else (∃ record, Inserts d d' es (entryOf inodeNumber (d.directoryType type) name record)) ∧
            d.blockSize ∣ d'.size.toNat) := by
  unfold dirAdd at hadd
  split at hadd
  · cases hadd
  · rename_i hpre
    push Not at hpre
    obtain ⟨hne,hlen,habsent⟩ := hpre
    have hnone : d.dirLookup name = none := by simpa using habsent
    refine ⟨hne,hnone,?_⟩
    have hwalk := walk_eq h (addVisit (directoryRecordSize name.length)) ()
    cases hres : d.walk (addVisit (directoryRecordSize name.length)) () with
    | invalid => simp [hres] at hadd
    | endless => simp [hres] at hadd
    | found spot =>
      rw [hres] at hadd hwalk
      obtain rfl := some.inj hadd
      obtain ⟨pre,off,_,e,post,rfl,hpre,hpost,-,hvisit⟩ :=
        Records.stops h hwalk.symm [] (I := fun _ _ _ => True) trivial
          fun _ _ _ _ _ _ _ => trivial
      have hneeds : ¬ (NeedsBlock d name ∧ d.size.toNat + d.blockSize = 2 ^ 32) := by
        rintro ⟨hneeds,-⟩
        rw [NeedsBlock,hres] at hneeds
        cases hneeds
      rw [if_neg hneeds]
      unfold addVisit at hvisit
      split_ifs at hvisit with hdead hlive
      · obtain rfl := Sum.inr.inj hvisit
        exact ⟨rfl,rfl,⟨_,fill_reuse hlen hpre hpost hdead.1 hdead.2⟩,hwhole⟩
      · obtain rfl := Sum.inr.inj hvisit
        exact ⟨rfl,rfl,⟨_,fill_split hlen hpre hpost hlive.2⟩,hwhole⟩
    | finished =>
      rw [hres] at hadd
      cases room with
      | false => cases hadd
      | true =>
        obtain rfl := some.inj hadd
        refine ⟨rfl,rfl,?_⟩
        have hle := (nextLogical_mul hwhole).2
        split_ifs with hwrap
        · apply BitVec.eq_of_toNat_eq
          rw [toNat_size_extend hwhole,hwrap.2]
          rfl
        · have hroom : d.size.toNat + d.blockSize < 2 ^ 32 := by
            have : d.size.toNat + d.blockSize ≠ 2 ^ 32 := fun hc => hwrap ⟨hres,hc⟩
            omega
          refine ⟨⟨_,extend_inserts hlen hwhole h hroom⟩,?_⟩
          rw [toNat_size_extend hwhole,mod_eq_of_lt hroom]
          exact Nat.dvd_add_self_right.mpr hwhole

end

/-! ### Removing an entry -/

section

def PassedOver (bs : ℕ) (pre : List DirEntry) (off : ℕ) (previous : Option Previous) : Prop :=
  ∀ p, previous = some p → ∃ pre', pre = pre' ++ [p.entry] ∧
    off = p.address + p.entry.recordLength ∧ p.logical = p.address / bs

def Deletes (d d' : Directory) (es : List DirEntry) (name : List Byte) : Prop :=
  ∃ es' A v B, d'.Parses es' ∧ d.listing es = A ++ (name, v) :: B ∧ d.listing es' = A ++ B

theorem merge_deletes {p : DirEntry} {pos : ℕ} (hpre : Records d.data d.blockSize 0 pre pos)
    (hp : Records d.data d.blockSize pos (p :: e :: post) d.size.toNat)
    (hoff : off = pos + p.recordLength) (hblock : pos / d.blockSize = off / d.blockSize)
    (hlive : e.inode ≠ 0) : Deletes d { d with
        data := blit d.data (pos + 4) (leBytes 2 (p.recordLength + e.recordLength)) }
      (pre ++ p :: e :: post) e.name := by
  obtain ⟨hat,hpv,-,hev,hrest⟩ := hp
  rw [← hoff] at hev hrest
  have hfit := mod_lt_of_valid hev
  have hdiv := div_add_mod pos d.blockSize
  have hdiv' := div_add_mod off d.blockSize
  rw [← hblock] at hdiv'
  obtain ⟨hp8,hp4,-,hpname⟩ := hpv
  obtain ⟨-,he4,-,-⟩ := hev
  have hbs := d.blockSize_bounds
  have hmerged : Records (blit d.data (pos + 4)
      (leBytes 2 (p.recordLength + e.recordLength))) d.blockSize pos
      [{ p with recordLength := p.recordLength + e.recordLength }] (off + e.recordLength) := by
    refine ⟨by rw [dirEntryAt_setLength (by omega),hat],⟨?_,?_,?_,?_⟩,?_⟩
    all_goals
      simp only [Records]
      omega
  refine ⟨_,d.listing (pre ++ [p]),(e.inode, d.entryFileType e),d.listing post,
    hpre.splice hmerged hrest ?_,?_,?_⟩
  · intro i hi
    exact blit_of_not_mem (by rw [length_leBytes]; omega)
  · rw [append_cons,listing_append,listing_cons d e,listing_live d hlive]
    rfl
  · rw [listing_append,listing_append,listing_append,listing_setLength]

theorem kill_deletes (hpre : Records d.data d.blockSize 0 pre off)
    (hpost : Records d.data d.blockSize off (e :: post) d.size.toNat) (hlive : e.inode ≠ 0) :
    Deletes d { d with data := blit d.data off (leBytes 4 0) } (pre ++ e :: post) e.name := by
  obtain ⟨hat,hv,hrest⟩ := hpost
  have hlen := hv.1
  have hkilled : Records (blit d.data off (leBytes 4 0)) d.blockSize off [{ e with inode := 0 }]
      (off + e.recordLength) := by
    refine ⟨?_,hv,rfl⟩
    rw [dirEntryAt_setInode (by decide),hat]
  refine ⟨_,d.listing pre,(e.inode, d.entryFileType e),d.listing post,
    hpre.splice hkilled hrest ?_,?_,?_⟩
  · intro i hi
    exact blit_of_not_mem (by rw [length_leBytes]; omega)
  · rw [listing_append,listing_cons,listing_live d hlive]
    rfl
  · rw [listing_append,listing_append,listing_dead d rfl,append_nil]

theorem dirRemove_cases (h : d.Parses es) (hrem : d.dirRemove name = some d') :
    d'.inodeType = d.inodeType ∧ d'.blockSize = d.blockSize ∧ d'.size = d.size ∧
      Deletes d d' es name := by
  unfold dirRemove at hrem
  have hwalk := walk_eq h (removeVisit d.blockSize name) none
  cases hres : d.walk (removeVisit d.blockSize name) none with
  | invalid => simp [hres] at hrem
  | endless => simp [hres] at hrem
  | finished => simp [hres] at hrem
  | found answer =>
    rw [hres] at hrem hwalk
    have hpass : ∀ pre off acc e acc', PassedOver d.blockSize pre off acc →
        removeVisit d.blockSize name acc off off e = .inl acc' →
          PassedOver d.blockSize (pre ++ [e]) (off + e.recordLength) acc' := by
      intro pre off acc e acc' _ hvisit p hp
      unfold removeVisit at hvisit
      split_ifs at hvisit
      obtain rfl := Sum.inl.inj hvisit
      obtain rfl := some.inj hp
      exact ⟨pre,rfl,rfl,rfl⟩
    obtain ⟨pre,off,acc,e,post,rfl,hpre,hpost,hacc,hvisit⟩ :=
      Records.stops h hwalk.symm [] (fun _ hp => nomatch hp) hpass
    unfold removeVisit at hvisit
    split_ifs at hvisit with hfound
    obtain ⟨hlive,rfl⟩ := hfound
    obtain rfl := Sum.inr.inj hvisit
    cases hprev : acc.filter fun p => p.logical = off / d.blockSize with
    | none =>
      rw [hprev] at hrem
      obtain rfl := some.inj hrem
      exact ⟨rfl,rfl,rfl,kill_deletes hpre hpost hlive⟩
    | some p =>
      rw [hprev] at hrem
      obtain rfl := some.inj hrem
      obtain ⟨hacc',hblock⟩ := filter_eq_some_iff.mp hprev
      obtain ⟨pre',hsplit,hoff,hlogical⟩ := hacc p hacc'
      obtain rfl : pre = pre' ++ [p.entry] := hsplit
      obtain ⟨mid,hpre',hlast,hvalid,hend⟩ := hpre.of_append
      obtain rfl : mid = p.address := by
        have : mid + p.entry.recordLength = off := hend
        omega
      have hrun : Records d.data d.blockSize p.address (p.entry :: e :: post) d.size.toNat :=
        ⟨hlast,hvalid,by rwa [← hoff]⟩
      have hsame : p.address / d.blockSize = off / d.blockSize :=
        hlogical.symm.trans (of_decide_eq_true hblock)
      have hdel := merge_deletes hpre' hrun hoff hsame hlive
      rw [append_assoc]
      exact ⟨rfl,rfl,rfl,hdel⟩

end

/-! ### The laws -/

/-- The records tile the blocks exactly, each of them long enough for its name, and the live
ones have distinct names. -/
structure Consistent (d : Directory) : Prop where
  whole : d.blockSize ∣ d.size.toNat
  parses : ∃ es, d.Parses es ∧ ((d.listing es).map fst).Nodup

def Tiled (d : Directory) : Prop :=
  ∀ b < d.size.toNat / d.blockSize,
    ∃ es, Records d.data d.blockSize (b * d.blockSize) es ((b + 1) * d.blockSize)

theorem Consistent.tiled (h : Consistent d) : Tiled d := by
  obtain ⟨es,hes,-⟩ := h.parses
  intro b hb
  have hend : (b + 1) * d.blockSize ≤ d.size.toNat := by
    calc (b + 1) * d.blockSize ≤ d.size.toNat / d.blockSize * d.blockSize := mul_le_mul_right _ hb
      _ ≤ d.size.toNat := div_mul_le_self _ _
  have hstart : b * d.blockSize ≤ (b + 1) * d.blockSize := mul_le_mul_right _ (by omega)
  obtain ⟨pre,post,-,-,hpost⟩ := hes.split_at (dvd_mul_left _ b) (zero_le _)
    (hstart.trans hend)
  obtain ⟨blk,-,-,hblk,-⟩ := hpost.split_at (dvd_mul_left _ (b + 1)) hstart hend
  exact ⟨blk,hblk⟩

/-- A successful addition makes the name stand for the inode, a removal for nothing; other names are
as before, a name that is there is not added again, and the directory stays consistent. -/
def Lawful (d : Directory) (op : Op) : Prop :=
  (match op with
    | .add name inodeNumber type room =>
      ((d.dirLookup name).isSome → d.dirAdd name inodeNumber type room = none) ∧
        ∀ d', d.dirAdd name inodeNumber type room = some d' →
          (d'.dirLookup name).map fst = some inodeNumber.toNat ∧
            ∀ other, other ≠ name → d'.dirLookup other = d.dirLookup other
    | .remove name =>
      ∀ d', d.dirRemove name = some d' →
        d'.dirLookup name = none ∧
          ∀ other, other ≠ name → d'.dirLookup other = d.dirLookup other) ∧
    Consistent (d.step op) ∧ Tiled (d.step op)

def Fits (d : Directory) : Op → Prop
  | .add name inodeNumber type room =>
    (d.dirAdd name inodeNumber type room).isSome →
      inodeNumber ≠ 0#32 ∧ ¬ (NeedsBlock d name ∧ d.size.toNat + d.blockSize = 2 ^ 32)
  | .remove _ => True

section
variable {κ ν : Type*} [BEq κ] [LawfulBEq κ] {k k' : κ} {v : ν} {A B : List (κ × ν)}

theorem lookup_middle_ne (h : k' ≠ k) : (A ++ (k, v) :: B).lookup k' = (A ++ B).lookup k' := by
  rw [lookup_append,lookup_append,lookup_cons,beq_eq_false_iff_ne.mpr h]

theorem lookup_middle_self (h : (A ++ B).lookup k = none) :
    (A ++ (k, v) :: B).lookup k = some v := by
  rw [lookup_append,or_eq_none_iff] at h
  rw [lookup_append,h.1,none_or,lookup_cons,beq_self_eq_true]

theorem lookup_eq_none_iff_keys {l : List (κ × ν)} : l.lookup k = none ↔ k ∉ l.map fst := by
  simp [lookup_eq_none_iff]
  grind

omit [BEq κ] [LawfulBEq κ] in
theorem nodup_middle_iff : ((A ++ (k, v) :: B).map fst).Nodup ↔
    k ∉ (A ++ B).map fst ∧ ((A ++ B).map fst).Nodup := by
  rw [map_append,map_cons,nodup_middle,nodup_cons,map_append]

end

variable {inodeNumber : U32} {type : Byte} {room : Bool}

theorem listing_eq (h : d'.inodeType = d.inodeType) (es : List DirEntry) :
    d'.listing es = d.listing es := by
  unfold listing entryFileType
  rw [h]

theorem dirLookup_of_parses {es' : List DirEntry} (htype : d'.inodeType = d.inodeType)
    (h : d'.Parses es') (hname : name ≠ []) : d'.dirLookup name = (d.listing es').lookup name := by
  rw [dirLookup_eq h hname,listing_eq htype]

theorem dirLookup_size_zero (h : d.size = 0#32) (name : List Byte) : d.dirLookup name = none := by
  have hparse : d.Parses [] := by
    rw [Parses,h]
    rfl
  by_cases hname : name = []
  · rw [hname,dirLookup_nil]
  · rw [dirLookup_eq hparse hname]
    rfl

theorem Consistent.add (h : Consistent d) (hfits : Fits d (.add name inodeNumber type room))
    (hadd : d.dirAdd name inodeNumber type room = some d') :
    Consistent d' ∧ (d'.dirLookup name).map fst = some inodeNumber.toNat ∧
      ∀ other, other ≠ name → d'.dirLookup other = d.dirLookup other := by
  obtain ⟨es,hes,hnodup⟩ := h.parses
  obtain ⟨hne,habsent,htype,hbs,hins⟩ := dirAdd_cases h.whole hes hadd
  obtain ⟨hinode,hwrap⟩ := hfits (by rw [hadd]; rfl)
  rw [if_neg hwrap] at hins
  obtain ⟨⟨record,es',A,B,hes',hold,hnew⟩,hwhole⟩ := hins
  have hlive : (entryOf inodeNumber (d.directoryType type) name record).inode ≠ 0 := fun hc =>
    hinode (BitVec.eq_of_toNat_eq hc)
  rw [listing_live d hlive,append_assoc,singleton_append] at hnew
  rw [dirLookup_eq hes hne,hold] at habsent
  rw [hold] at hnodup
  refine ⟨⟨by rwa [hbs],es',hes',?_⟩,?_,?_⟩
  · rw [listing_eq htype,hnew]
    exact nodup_middle_iff.mpr ⟨lookup_eq_none_iff_keys.mp habsent,hnodup⟩
  · rw [dirLookup_of_parses htype hes' hne,hnew]
    exact congrArg (Option.map fst) (lookup_middle_self habsent)
  · intro other hother
    by_cases hnil : other = []
    · rw [hnil,dirLookup_nil,dirLookup_nil]
    · rw [dirLookup_of_parses htype hes' hnil,dirLookup_eq hes hnil,hold,hnew]
      exact lookup_middle_ne hother

theorem Consistent.lost (h : Consistent d) (hfits : ¬ Fits d (.add name inodeNumber type room)) :
    ∃ d', d.dirAdd name inodeNumber type room = some d' ∧ d'.dirLookup name = none := by
  obtain ⟨es,hes,-⟩ := h.parses
  unfold Fits at hfits
  push Not at hfits
  obtain ⟨hsome,hbad⟩ := hfits
  obtain ⟨d',hadd⟩ := isSome_iff_exists.mp hsome
  refine ⟨d',hadd,?_⟩
  obtain ⟨hne,habsent,htype,-,hins⟩ := dirAdd_cases h.whole hes hadd
  split_ifs at hins with hwrap
  · exact dirLookup_size_zero hins name
  · obtain ⟨⟨record,es',A,B,hes',hold,hnew⟩,-⟩ := hins
    have hzero : inodeNumber = 0#32 := by
      by_contra hinode
      exact hwrap (hbad hinode)
    rw [listing_dead d (by rw [hzero]; rfl),append_nil] at hnew
    rw [dirLookup_of_parses htype hes' hne,hnew,← hold,← dirLookup_eq hes hne,habsent]

theorem Consistent.remove (h : Consistent d) (hrem : d.dirRemove name = some d') :
    Consistent d' ∧ d'.dirLookup name = none ∧
      ∀ other, other ≠ name → d'.dirLookup other = d.dirLookup other := by
  obtain ⟨es,hes,hnodup⟩ := h.parses
  obtain ⟨htype,hbs,hsize,es',A,v,B,hes',hold,hnew⟩ := dirRemove_cases hes hrem
  rw [hold] at hnodup
  refine ⟨⟨by rw [hbs,hsize]; exact h.whole,es',hes',?_⟩,?_,?_⟩
  · rw [listing_eq htype,hnew]
    exact (nodup_middle_iff.mp hnodup).2
  · by_cases hnil : name = []
    · rw [hnil,dirLookup_nil]
    · rw [dirLookup_of_parses htype hes' hnil,hnew]
      exact lookup_eq_none_iff_keys.mpr (nodup_middle_iff.mp hnodup).1
  · intro other hother
    by_cases hnil : other = []
    · rw [hnil,dirLookup_nil,dirLookup_nil]
    · rw [dirLookup_of_parses htype hes' hnil,dirLookup_eq hes hnil,hold,hnew]
      exact (lookup_middle_ne hother).symm

theorem dirAdd_of_present (h : (d.dirLookup name).isSome) :
    d.dirAdd name inodeNumber type room = none := by
  exact if_pos (.inr (.inr h))

theorem Consistent.step (h : Consistent d) {op : Op} (hfits : Fits d op) :
    Consistent (d.step op) := by
  unfold Directory.step
  cases hcall : d.call op with
  | none => exact h
  | some d' =>
    cases op with
    | add name inodeNumber type room => exact (h.add hfits hcall).1
    | remove name => exact (h.remove hcall).1

theorem lawful_iff_fits (h : Consistent d) (op : Op) : Lawful d op ↔ Fits d op := by
  constructor
  · intro hlaw
    cases op with
    | remove name => trivial
    | add name inodeNumber type room =>
      by_contra hfits
      obtain ⟨d',hadd,hlost⟩ := h.lost hfits
      have hfound := (hlaw.1.2 d' hadd).1
      rw [hlost] at hfound
      cases hfound
  · intro hfits
    have hnext := h.step hfits
    refine ⟨?_,hnext,hnext.tiled⟩
    cases op with
    | remove name => exact fun d' hrem => (h.remove hrem).2
    | add name inodeNumber type room =>
      exact ⟨dirAdd_of_present,fun d' hadd => (h.add hfits hadd).2⟩

/-- From a consistent directory, the calls of a sequence are all lawful just when every one of
them fits. -/
theorem directory_lawful_iff (d : Directory) (hd : Consistent d) (ops : List Op) :
    Trace.Admissible step Lawful d ops ↔ Trace.Admissible step Fits d ops := by
  apply Trace.admissible_congr (I := Consistent)
  · intro s op hs
    exact lawful_iff_fits hs op
  · intro s op hs hfits
    exact hs.step hfits
  · exact hd

def oneBlock : Directory where
  data := fun off => if off = 5 then 4#8 else 0#8
  size := 1024#32
  logBlockSize := 0
  filetype := true
  inodeType := fun _ => 0#8

theorem oneBlock_consistent : Consistent oneBlock :=
  ⟨by decide,[⟨0,1024,0#8,[]⟩],⟨by decide,by decide,rfl⟩,by decide⟩

theorem directory_lawful_oneBlock :
    Consistent oneBlock ∧ Trace.Admissible step Lawful oneBlock
      [.add [0x61#8] 12#32 1#8 false, .add [0x62#8] 13#32 1#8 false, .remove [0x62#8]] := by
  refine ⟨oneBlock_consistent,(directory_lawful_iff _ oneBlock_consistent _).mpr ⟨?_,?_,?_⟩⟩
  · exact fun _ => ⟨by decide,fun h => absurd h.2 (by decide)⟩
  · exact fun _ => ⟨by decide,fun h => absurd h.2 (by decide +kernel)⟩
  · exact ⟨trivial,trivial⟩

/-! ### A directory of four gigabytes -/

/-- The entries `.` and `..`, and dead records of 8 bytes behind them. -/
def fullData (off : ℕ) : Byte :=
  if off < 24 then
    [2#8, 0, 0, 0, 12, 0, 1, 2, 0x2E, 0, 0, 0,
      2, 0, 0, 0, 12, 0, 2, 2, 0x2E, 0x2E, 0, 0].getD off 0#8
  else if off % 8 = 4 then 8#8 else 0#8

def full : Directory where
  data := fullData
  size := 4294966272#32
  logBlockSize := 0
  filetype := true
  inodeType := fun _ => 0#8

def deadRecord : DirEntry := ⟨0,8,0#8,[]⟩

theorem fullData_dead {lo : ℕ} (hlo : 24 ≤ lo) (hmod : lo % 8 = 0) :
    dirEntryAt fullData lo = deadRecord := by
  have hbyte : ∀ i < 8, fullData (lo + i) = if i = 4 then 8#8 else 0#8 := by
    intro i hi
    unfold fullData
    rw [if_neg (by omega),show (lo + i) % 8 = i by omega]
  have h0 : fullData lo = 0#8 := hbyte 0 (by decide)
  unfold dirEntryAt
  simp only [leNat,h0,add_assoc,reduceAdd,hbyte 1 (by decide),hbyte 2 (by decide),
    hbyte 3 (by decide),hbyte 4 (by decide),hbyte 5 (by decide),hbyte 6 (by decide),
    hbyte 7 (by decide)]
  rfl

theorem full_dead (k : ℕ) {lo : ℕ} (hlo : 24 ≤ lo) (hmod : lo % 8 = 0) :
    Records fullData 1024 lo (replicate k deadRecord) (lo + 8 * k) := by
  induction k generalizing lo with
  | zero => rfl
  | succ k ih =>
    refine ⟨fullData_dead hlo hmod,⟨by decide,by decide,?_,by decide⟩,?_⟩
    · simp only [deadRecord]
      omega
    · have hrest := ih (show 24 ≤ lo + 8 by omega) (by omega)
      rwa [mul_succ,add_comm (8 * k),← add_assoc]

def fullRecords (k : ℕ) : List DirEntry :=
  ⟨2,12,2#8,[0x2E#8]⟩ :: ⟨2,12,2#8,[0x2E#8, 0x2E#8]⟩ :: List.replicate k deadRecord

theorem full_parses : ∃ k, full.Parses (fullRecords k) := by
  obtain ⟨k,hk⟩ : ∃ k, 4294966272 = 24 + 8 * k := ⟨536870781,by decide⟩
  refine ⟨k,by decide,by decide,by decide,by decide,?_⟩
  have hrest := full_dead k (le_refl 24) (by decide)
  rw [← hk] at hrest
  exact hrest

theorem full_listing (k : ℕ) : full.listing (fullRecords k) =
    [([0x2E#8], 2, 2#8), ([0x2E#8, 0x2E#8], 2, 2#8)] := by
  have hdead : full.listing (replicate k deadRecord) = [] := by
    unfold listing
    rw [filter_replicate_of_neg (by decide),map_nil]
  have hsplit : fullRecords k = [⟨2,12,2#8,[0x2E#8]⟩, ⟨2,12,2#8,[0x2E#8, 0x2E#8]⟩] ++
      replicate k deadRecord := rfl
  rw [hsplit,listing_append,hdead]
  rfl

theorem full_consistent : Consistent full := by
  obtain ⟨k,hk⟩ := full_parses
  refine ⟨by decide,fullRecords k,hk,?_⟩
  rw [full_listing]
  decide

theorem full_needsBlock : NeedsBlock full [0x61#8] := by
  obtain ⟨k,hk⟩ := full_parses
  rw [NeedsBlock,walk_eq hk]
  apply visitAll_finished
  intro e he off
  rcases mem_cons.mp he with rfl | he
  · rfl
  · rcases mem_cons.mp he with rfl | he
    · rfl
    · obtain rfl := eq_of_mem_replicate he
      rfl

/-- The addition of a name succeeds, its block is allocated, and the size of the directory
wraps to 0: no name is found any more. -/
theorem full_add_empties :
    Consistent full ∧ full.dirLookup [0x2E#8] = some (2, 2#8) ∧
      ∃ d', full.dirAdd [0x61#8] 12#32 1#8 true = some d' ∧ d'.size = 0#32 ∧
        d'.dirLookup [0x61#8] = none ∧ d'.dirLookup [0x2E#8] = none := by
  obtain ⟨k,hk⟩ := full_parses
  have hlookup : ∀ name, name ≠ [] → full.dirLookup name =
      [([0x2E#8], 2, 2#8), ([0x2E#8, 0x2E#8], 2, 2#8)].lookup name := by
    intro name hname
    rw [dirLookup_eq hk hname,full_listing]
  have hadd : full.dirAdd [0x61#8] 12#32 1#8 true =
      some (full.extend [0x61#8] 12#32 1#8) := by
    unfold dirAdd
    rw [if_neg (by rw [hlookup _ (by decide)]; decide),full_needsBlock]
    rfl
  have hsize : (full.extend [0x61#8] 12#32 1#8).size = 0#32 := by decide
  exact ⟨full_consistent,by rfl,_,hadd,hsize,
    dirLookup_size_zero hsize _,dirLookup_size_zero hsize _⟩

end Directory

end GaiaKernel.Ext2
