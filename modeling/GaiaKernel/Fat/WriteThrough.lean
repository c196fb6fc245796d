import GaiaKernel.Fat.FileSpec
import Mathlib.Order.Interval.Set.Basic

/-! # Write-through

Stores leave bytes of the image that the device does not have yet; a flush brings a range up to
date. `Clean` says which bytes may differ: none after an operation, apart from one exit of
`fat_write`.
-/
namespace GaiaKernel.Fat
open Bytes Trace List Set Disk

structure Geometry (v : Volume) : Prop where
  perSector : 0 < v.bytesPerSector
  fits : v.imageSize ≤ 2 ^ 32 * v.bytesPerSector
  cluster : 64 ≤ v.clusterBytes
  limit : v.clusterLimit ≤ if v.type = .fat16 then 2 ^ 16 else 2 ^ 32

def Clean (v : Volume) (s : Disk) (dirty : Set ℕ) : Prop :=
  ∀ i < v.imageSize, i ∉ dirty → s.device i = s.image i

def Coherent (v : Volume) (s : Disk) : Prop := Clean v s ∅

variable {v : Volume} {s : Disk} {dirty : Set ℕ}

theorem Clean.mono {dirty' : Set ℕ} (h : Clean v s dirty) (hsub : dirty ⊆ dirty') :
    Clean v s dirty' := fun i hi hd => h i hi fun hmem => hd (hsub hmem)

theorem Clean.store (h : Clean v s dirty) (off : ℕ) (xs : List Byte) :
    Clean v (s.store off xs) (dirty ∪ Set.Ico off (off + xs.length)) := by
  intro i hi hd
  rw [mem_union,not_or,mem_Ico,not_and_or,not_le,not_lt] at hd
  exact (h i hi hd.1).trans (blit_of_not_mem hd.2).symm

/-! ## Flushing -/

theorem Clean.flushSector (h : Clean v s dirty) (lba : ℕ) : Clean v (s.flushSector v lba)
      (dirty \ Set.Ico (v.sector lba) (v.sector lba + v.bytesPerSector)) := by
  intro i hi hd
  show blit s.device (v.sector lba) (slice s.image (v.sector lba) v.bytesPerSector) i = s.image i
  by_cases hin : v.sector lba ≤ i ∧ i < v.sector lba + v.bytesPerSector
  · obtain ⟨k,rfl⟩ := Nat.exists_eq_add_of_le hin.1
    rw [blit_of_mem (by rw [length_slice]; omega)]
    simp [slice]
  · rw [blit_of_not_mem (by rw [length_slice]; omega)]
    exact h i hi fun hmem => hd ⟨hmem,hin⟩

theorem Clean.flushSectors (h : Clean v s dirty) (first count : ℕ) :
    Clean v ((range' first count).foldl (Disk.flushSector v) s)
      (dirty \ Set.Ico (v.sector first) (v.sector (first + count))) := by
  induction count generalizing first s dirty with
  | zero => exact h.mono fun i hi => ⟨hi,fun hin => absurd (hin.1.trans_lt hin.2) (lt_irrefl _)⟩
  | succ count ih =>
    refine (ih (h.flushSector first) (first + 1)).mono fun i hi => ?_
    obtain ⟨⟨hd,hfirst⟩,hrest⟩ := hi
    refine ⟨hd,fun hin => ?_⟩
    have hnext : v.sector (first + 1) = v.sector first + v.bytesPerSector := Nat.add_one_mul _ _
    rw [mem_Ico] at hfirst hrest hin
    rw [show first + 1 + count = first + (count + 1) by omega] at hrest
    omega

theorem Clean.flushBytes (hv : Geometry v) (h : Clean v s dirty) (start len : ℕ) :
    Clean v (s.flushBytes v start len) (dirty \ Set.Ico start (start + len)) := by
  unfold Disk.flushBytes
  by_cases hnone : len = 0 ∨ v.imageSize ≤ start
  · rw [if_pos hnone]
    intro i hi hd
    exact h i hi fun hmem => hd ⟨hmem,fun hin => by rw [mem_Ico] at hin; omega⟩
  rw [if_neg hnone]
  dsimp only
  rw [not_or,not_le] at hnone
  obtain ⟨hlen,hstart⟩ := hnone
  generalize hlen' : (if len > v.imageSize - start then v.imageSize - start else len) = len'
  have hle : len' ≤ len ∧ start + len' ≤ v.imageSize ∧ 0 < len' ∧
      (start + len' < v.imageSize → len' = len) := by
    rw [← hlen']
    split_ifs <;> omega
  have hsmall : ∀ i < v.imageSize, u32 (i / v.bytesPerSector) = i / v.bytesPerSector := by
    intro i hi
    refine u32_of_lt ((Nat.div_lt_iff_lt_mul hv.perSector).mpr (hi.trans_le hv.fits))
  rw [hsmall start hstart,hsmall (start + len' - 1) (by omega)]
  intro i hi hd
  have hf := h.flushSectors (start / v.bytesPerSector)
    ((start + len' - 1) / v.bytesPerSector + 1 - start / v.bytesPerSector)
  refine hf i hi fun hmem => hd ⟨hmem.1,fun hin => hmem.2 ?_⟩
  -- the sector of `i` is between the sectors of the first and the last byte
  rw [mem_Ico] at hin ⊢
  have hi' : i ≤ start + len' - 1 := by omega
  have hlow : start / v.bytesPerSector ≤ i / v.bytesPerSector := Nat.div_le_div_right hin.1
  have hhigh := Nat.div_le_div_right (c := v.bytesPerSector) hi'
  have hmod := Nat.div_add_mod i v.bytesPerSector
  have hlt := Nat.mod_lt i hv.perSector
  constructor
  · calc start / v.bytesPerSector * v.bytesPerSector
        ≤ i / v.bytesPerSector * v.bytesPerSector := Nat.mul_le_mul_right _ hlow
      _ ≤ i := Nat.div_mul_le_self _ _
  · calc i < (i / v.bytesPerSector + 1) * v.bytesPerSector := by
          rw [Nat.add_mul,Nat.one_mul,Nat.mul_comm]
          omega
      _ ≤ _ := Nat.mul_le_mul_right _ (by omega)

variable {file : File} {off : ℕ}

theorem Clean.storeFlush (hv : Geometry v) (h : Clean v s dirty) {len : ℕ} {xs : List Byte}
    (hlen : xs.length ≤ len) : Clean v ((s.store off xs).flushBytes v off len) dirty := by
  refine ((h.store off xs).flushBytes hv off len).mono fun i hi => ?_
  rcases hi.1 with hd | hin
  · exact hd
  · exact absurd ⟨hin.1,hin.2.trans_le (Nat.add_le_add_left hlen off)⟩ hi.2

/-! ## Clusters -/

section
variable (hv : Geometry v)
include hv
variable (h : Clean v s dirty)
include h

theorem Clean.fatSet (cluster value : ℕ) : Clean v (s.fatSet v cluster value) dirty := by
  unfold Disk.fatSet
  induction range v.fatCount generalizing s with
  | nil => exact h
  | cons f fs ih =>
    refine ih ?_
    unfold fatPut Volume.entryWidth
    cases v.type with
    | fat32 => exact h.storeFlush hv (Nat.le_refl 4)
    | fat16 => exact h.storeFlush hv (Nat.le_refl 2)

theorem Clean.allocCluster : Clean v (s.allocCluster v).1 dirty := by
  unfold Disk.allocCluster
  cases (range' 2 (v.clusterLimit - 2)).find? fun c => s.fatGet v c = 0 with
  | none => exact h
  | some c => exact (h.fatSet hv c _).storeFlush hv (length_replicate ..).le

theorem Clean.freeLoop (count current : ℕ) : Clean v (freeLoop v count s current) dirty := by
  induction count generalizing s current with
  | zero => exact h
  | succ count ih =>
    rw [freeLoop]
    dsimp only
    have hset := h.fatSet hv current 0
    split_ifs
    · exact hset
    · exact ih hset _
    · exact h

theorem Clean.freeIf (cluster : ℕ) :
    Clean v (if cluster = 0 then s else s.freeChain v cluster) dirty := by
  split_ifs
  · exact h
  · exact h.freeLoop hv _ _

/-! ## Directories -/

theorem Clean.allocLoop (count fuel current visited : ℕ) (run : Disk.FreeRun) :
    Clean v (allocLoop v count fuel s current visited run).1 dirty := by
  induction fuel generalizing s current visited run with
  | zero => exact h
  | succ fuel ih =>
    rw [allocLoop]
    cases v.clusterData current with
    | none => exact h
    | some data =>
      dsimp only
      cases hscan : s.scanRun count ((range (perCluster v)).map fun i => data + i * 32)
          (visited * perCluster v) run with
      | mk run found =>
        cases found with
        | true => exact h
        | false =>
          split_ifs
          · exact h
          · cases s.nextCluster v current with
            | broken => exact h
            | next next => exact ih h _ _ _
            | last =>
              have halloc := h.allocCluster hv
              cases hc : s.allocCluster v with
              | mk s' c =>
                rw [hc] at halloc
                cases c with
                | none => exact halloc
                | some next => exact ih (halloc.fatSet hv _ _) _ _ _

variable (dir : FatDir)

theorem Clean.allocDirSlots (count : ℕ) : Clean v (s.allocDirSlots v dir count).1 dirty := by
  unfold Disk.allocDirSlots
  split_ifs
  · dsimp only
    cases s.scanRun count ((range v.rootEntries).map fun i => v.sector v.rootStartSector + i * 32)
      0 ⟨[],0⟩ with
    | mk run found => cases found <;> exact h
  · exact h.allocLoop hv _ _ _ _ _

omit hv in
theorem Clean.setRecords (writes : List (ℕ × Slot)) :
    Clean v (writes.foldl (fun s w => s.setRecord w.1 w.2) s)
      (dirty ∪ {i | ∃ w ∈ writes, w.1 ≤ i ∧ i < w.1 + 32}) := by
  induction writes generalizing s dirty with
  | nil => exact h.mono fun i hi => Or.inl hi
  | cons w writes ih =>
    refine (ih (h.store w.1 (slice w.2 0 32))).mono fun i hi => ?_
    rcases hi with (hd | hin) | ⟨w',hw',hin⟩
    · exact Or.inl hd
    · exact Or.inr ⟨w,mem_cons_self ..,hin⟩
    · exact Or.inr ⟨w',mem_cons_of_mem _ hw',hin⟩

theorem Clean.flushRecords (offsets : List ℕ) :
    Clean v (offsets.foldl (fun s off => s.flushBytes v off 32) s)
      (dirty \ {i | ∃ off ∈ offsets, off ≤ i ∧ i < off + 32}) := by
  induction offsets generalizing s dirty with
  | nil => exact h.mono fun i hi => ⟨hi,fun ⟨off,hoff,_⟩ => (not_mem_nil hoff).elim⟩
  | cons off offsets ih =>
    refine (ih (h.flushBytes hv off 32)).mono fun i hi => ⟨hi.1.1,?_⟩
    rintro ⟨off',hoff',hin⟩
    rcases mem_cons.mp hoff' with rfl | hoff'
    · exact hi.1.2 hin
    · exact hi.2 ⟨off',hoff',hin⟩

theorem Clean.putEntry (lfn : List Slot) (short : List Byte)
    (ntCase : Byte) (directory : Bool) (cluster : ℕ) :
    Clean v (s.putEntry v dir lfn short ntCase directory cluster).1 dirty := by
  unfold Disk.putEntry
  have halloc := h.allocDirSlots hv dir (lfn.length + 1)
  cases hc : s.allocDirSlots v dir (lfn.length + 1) with
  | mk s' run =>
    rw [hc] at halloc
    cases run with
    | none => exact halloc
    | some run =>
      refine (Clean.flushRecords hv (halloc.setRecords _) run.out).mono fun i hi => ?_
      obtain ⟨hd | ⟨w,hw,hin⟩,hout⟩ := hi
      · exact hd
      · exact absurd ⟨w.1,(of_mem_zip hw).1,hin⟩ hout

theorem Clean.createEntry (name : List Byte) (directory : Bool)
    (cluster : ℕ) : Clean v (s.createEntry v dir name directory cluster).1 dirty := by
  unfold Disk.createEntry
  split_ifs
  · exact h
  cases shortNameExact name with
  | some exact => exact h.putEntry hv _ _ _ _ _ _
  | none =>
    cases shortNameAlias (shortNameTaken (s.dirRecords v dir)) name with
    | none => exact h
    | some short => exact h.putEntry hv _ _ _ _ _ _

theorem Clean.eraseLoop (left : ℕ) (cursor : Cursor) :
    Clean v (eraseLoop v left s cursor) dirty := by
  induction left generalizing s cursor with
  | zero => exact h
  | succ left ih =>
    rw [eraseLoop]
    cases s.cursorNext v cursor with
    | none => exact h
    | some next => exact ih (h.storeFlush hv (by decide)) _

theorem Clean.eraseEntry (e : Disk.Located) : Clean v (s.eraseEntry v dir e) dirty := by
  unfold Disk.eraseEntry
  cases s.cursorInit v dir e.index with
  | none => exact h
  | some cursor => exact h.eraseLoop hv _ _

theorem Clean.initDirCluster {cluster : ℕ} {parent : FatDir} {s' : Disk}
    (hs : s.initDirCluster v cluster parent = some s') : Clean v s' dirty := by
  obtain ⟨data,-,rfl⟩ := Option.map_eq_some_iff.mp hs
  refine (Clean.flushBytes hv (((h.store data _).store data _).store (data + 32) _) data
    v.clusterBytes).mono fun i hi => ?_
  have h64 := hv.cluster
  simp only [mem_sdiff,mem_union,mem_Ico,length_replicate,length_slice] at hi
  obtain ⟨((hd | hin) | hin) | hin,hout⟩ := hi
  all_goals omega

variable (parent : FatDir)
variable (name : List Byte)

theorem Clean.removeAt
    (isDirectory : Bool) : Clean v (s.removeAt v parent name isDirectory).1 dirty := by
  unfold Disk.removeAt
  cases s.findEntry v parent name with
  | none => exact h
  | some e =>
    dsimp only
    generalize hs : (if entryGetCluster (wide v) (s.record e.raw) = 0 then s
      else s.freeChain v (entryGetCluster (wide v) (s.record e.raw))) = s'
    have h' : Clean v s' dirty := hs ▸ h.freeIf hv _
    split_ifs
    · exact h
    · exact h
    · exact h'.eraseEntry hv parent e

theorem Clean.createAt : Clean v (s.createAt v parent name).1 dirty := by
  unfold Disk.createAt
  cases s.findEntry v parent name with
  | some e => exact h
  | none => exact h.createEntry hv parent name false 0

theorem Clean.mkdirAt : Clean v (s.mkdirAt v parent name).1 dirty := by
  unfold Disk.mkdirAt
  cases s.findEntry v parent name with
  | some e => exact h
  | none =>
    have halloc := h.allocCluster hv
    cases hc : s.allocCluster v with
    | mk s1 cluster =>
      rw [hc] at halloc
      cases cluster with
      | none => exact halloc
      | some cluster =>
        dsimp only
        cases hinit : s1.initDirCluster v cluster parent with
        | none => exact halloc.freeLoop hv _ _
        | some s2 =>
          have hcreate := (halloc.initDirCluster hv hinit).createEntry hv parent name true cluster
          dsimp only
          cases hentry : s2.createEntry v parent name true cluster with
          | mk s3 e =>
            rw [hentry] at hcreate
            cases e with
            | none => exact hcreate.freeLoop hv _ _
            | some e => exact hcreate

theorem Clean.vfsCreate (dir : Disk.Inode) (name : List Byte) (memory : Bool) :
    Clean v (s.vfsCreate v dir name memory).1 dirty := by
  unfold Disk.vfsCreate
  dsimp only
  have hcreate := h.createAt hv (s.directory v dir) name
  cases hc : s.createAt v (s.directory v dir) name with
  | mk s' e =>
    rw [hc] at hcreate
    cases e with
    | none => exact hcreate
    | some e =>
      cases memory with
      | true => exact hcreate
      | false => exact hcreate.removeAt hv _ _ _

omit h

/-! ## Files -/

omit hv in
theorem Clean.setRecord (h : Clean v s (Set.Ico off (off + 32))) (entry : Slot) :
    Clean v (s.setRecord off entry) (Set.Ico off (off + 32)) := by
  refine (h.store off (slice entry 0 32)).mono fun i hi => ?_
  rw [length_slice,union_self] at hi
  exact hi

omit hv in
theorem Clean.touch (h : Clean v s (Set.Ico off (off + 32))) :
    Clean v (s.touch off) (Set.Ico off (off + 32)) := h.setRecord _

omit hv in
theorem Coherent.clean (h : Coherent v s) (dirty : Set ℕ) : Clean v s dirty :=
  Clean.mono h (empty_subset dirty)

theorem Clean.flushRecord (h : Clean v s (Set.Ico off (off + 32))) :
    Coherent v (s.flushBytes v off 32) := (h.flushBytes hv off 32).mono fun _ hi => absurd hi.1 hi.2

theorem Coherent.fatTruncate (h : Coherent v s) (file : File) : Coherent v (s.fatTruncate v file) := by
  have hfree : Coherent v (if file.firstCluster = 0 then s else s.freeChain v file.firstCluster) :=
    Clean.freeIf hv h file.firstCluster
  refine Clean.flushRecord hv ?_
  exact (((hfree.clean _).setRecord _).setRecord _).setRecord _

theorem Clean.advance (h : Clean v s dirty) (cluster : ℕ) : Clean v (s.advance v cluster).1 dirty := by
  unfold Disk.advance
  cases s.nextCluster v cluster with
  | broken => exact h
  | next next => exact h
  | last =>
    have halloc := h.allocCluster hv
    cases hc : s.allocCluster v with
    | mk s' c =>
      rw [hc] at halloc
      cases c with
      | none => exact halloc
      | some next => exact halloc.fatSet hv _ _

theorem Clean.writeLoop (h : Clean v s dirty) (fuel : ℕ) (file : File) (data : List Byte) :
    Clean v (writeLoop v fuel s file data).1 dirty := by
  induction fuel generalizing s file data with
  | zero => exact h
  | succ fuel ih =>
    rw [writeLoop]
    split_ifs with hnil
    · exact h
    cases v.clusterData file.curCluster with
    | none => exact h
    | some base =>
      dsimp only
      generalize hs1 : Disk.flushBytes v _ _ _ = s1
      have hstore : Clean v s1 dirty := hs1 ▸ h.storeFlush hv (length_take_le _ _)
      split_ifs
      · have hadv := hstore.advance hv file.curCluster
        cases hc : s1.advance v file.curCluster with
        | mk s2 next =>
          rw [hc] at hadv
          cases next with
          | none => exact hadv
          | some next => exact ih hadv _ _
      · exact ih hstore _ _

theorem Clean.writeFrom (h : Clean v s (Set.Ico file.dirEnt (file.dirEnt + 32)))
    (data : List Byte) : Coherent v (s.writeFrom v file data).1 := by
  obtain ⟨cluster,heq,-⟩ := writeFrom_eq (v := v) s file data
  have hloop := h.writeLoop hv (data.length + 1) file data
  rw [heq,(writeLoop_moved (v := v) s (data.length + 1) file data).1.dirEnt]
  refine Clean.flushRecord hv (Clean.touch ?_)
  split_ifs
  · exact hloop.setRecord _
  · exact hloop

theorem Coherent.writeOn (h : Coherent v s) (file : File) (data : List Byte) :
    Coherent v (s.writeOn v file data).1 := by
  unfold Disk.writeOn
  split_ifs
  · have hadv : Coherent v (s.advance v file.curCluster).1 := Clean.advance hv h file.curCluster
    cases hc : s.advance v file.curCluster with
    | mk s' next =>
      rw [hc] at hadv
      cases next with
      | none => exact hadv
      | some next => exact (hadv.clean _).writeFrom hv data
  · exact (h.clean _).writeFrom hv data

/-- The only exit of `fat_write` that leaves a record unflushed is the one at a boundary, for a
file that has just got its first cluster. -/
theorem Coherent.fatWrite (h : Coherent v s) (file : File) (data : List Byte)
    (hb : file.firstCluster = 0 → ¬ Disk.AtBoundary v file data) :
    Coherent v (s.fatWrite v file data).1 := by
  unfold Disk.fatWrite
  split_ifs with hfirst
  · have halloc : Coherent v (s.allocCluster v).1 := Clean.allocCluster hv h
    cases hc : s.allocCluster v with
    | mk s' c =>
      rw [hc] at halloc
      cases c with
      | none => exact halloc
      | some c =>
        have hb' : ¬ Disk.AtBoundary v { file with firstCluster := c, curCluster := c } data :=
          hb hfirst
        dsimp only
        rw [Disk.writeOn,if_neg hb']
        exact Clean.writeFrom hv ((halloc.clean _).setRecord _) data
  · exact h.writeOn hv file data

theorem Coherent.fillLoop (h : Coherent v s) {gap : ℕ} (fuel : ℕ)
    (hb : file.firstCluster = 0 → 0 < file.pos → file.pos % v.clusterBytes ≠ 0)
    (hpos : file.pos = file.size) (hlt : file.pos + gap < 2 ^ 32) :
    Coherent v (fillLoop v fuel s file gap).1 := by
  induction fuel generalizing s file gap with
  | zero => exact h
  | succ fuel ih =>
    by_cases hgap : gap = 0
    · rw [hgap,fillLoop_zero]
      exact h
    obtain ⟨n,s1,file1,total,_,hn,hw,hcase⟩ :=
      fillLoop_cases (v := v) (s := s) fuel (Nat.pos_of_ne_zero hgap) hpos hlt
    have hwrite := h.fatWrite hv file (replicate n 0)
      fun hfirst hbound => hb hfirst hbound.2.1 hbound.2.2.2
    rw [hw] at hwrite
    rcases hcase with heq | ⟨heq,-,hfirst,-,hpos1,hsize1,-⟩
    · rw [heq]
      exact hwrite
    · rw [heq]
      exact ih hwrite (fun h0 => absurd h0 hfirst) (hpos1.trans hsize1.symm) (by omega)

omit hv in
/-- The record of a file is in none of the clusters its next write may go to first. -/
def Apart (v : Volume) (s : Disk) (entry : ℕ) : Prop :=
  ∀ c, v.clusterIsValid c → s.fatGet v c = 0 ∨ c = s.getCluster v entry →
    Disk.Outside entry (v.sector (v.clusterSector c)) v.clusterBytes

structure InFirst (v : Volume) (s : Disk) (file : File) : Prop where
  nonzero : file.firstCluster ≠ 0
  current : file.curCluster = file.firstCluster
  recorded : s.getCluster v file.dirEnt = file.firstCluster
  outside : v.clusterIsValid file.firstCluster →
    Disk.Outside file.dirEnt (v.sector (v.clusterSector file.firstCluster)) v.clusterBytes

theorem fatWrite_inFirst {data : List Byte} (hne : data ≠ [])
    (hpos : file.pos = file.size) (hfit : file.pos + data.length ≤ v.clusterBytes)
    (hlt : file.pos + data.length < 2 ^ 32)
    (hin : if file.firstCluster = 0 then Apart v s file.dirEnt else InFirst v s file)
    (htotal : (s.fatWrite v file data).2.2 = data.length) :
    InFirst v (s.fatWrite v file data).1 (s.fatWrite v file data).2.1 := by
  unfold fatWrite at htotal ⊢
  split_ifs at hin htotal ⊢ with hfirst
  · cases halloc : s.allocCluster v with
    | mk s' c =>
      rw [halloc] at htotal
      cases c with
      | none => exact absurd htotal (length_pos_iff.mpr hne).ne
      | some c =>
        obtain ⟨hvalid,hfree⟩ := allocCluster_valid halloc
        have hout := fun _ : v.clusterIsValid c => hin c hvalid (Or.inl hfree)
        have happ := writeOn_appended { file with firstCluster := c, curCluster := c } hpos hlt
          hne htotal
        obtain ⟨hrec,hcur⟩ := writeOn_fits (v := v) (s := s'.setCluster v file.dirEnt c)
          { file with firstCluster := c, curCluster := c } hne hpos hfit hlt hout htotal
        have hc : (s'.setCluster v file.dirEnt c).getCluster v file.dirEnt = c := by
          have hlimit := hv.limit
          have := hvalid.2
          rw [getCluster_setCluster]
          unfold wide
          cases ht : v.type with
          | fat32 =>
            simp only [ht,reduceCtorEq,if_false] at hlimit
            simp only [decide_true,if_true]
            omega
          | fat16 =>
            simp only [ht,if_true] at hlimit
            simp only [reduceCtorEq,decide_false,Bool.false_eq_true,if_false]
            omega
        refine ⟨?_,?_,?_,?_⟩
        · rw [happ.firstCluster]
          have := hvalid.1
          dsimp only
          omega
        · rw [hcur,happ.firstCluster]
        · rw [happ.dirEnt,happ.firstCluster]
          exact hrec.trans hc
        · rw [happ.dirEnt,happ.firstCluster]
          exact hout
  · have hout := hin.outside
    rw [← hin.current] at hout
    have happ := writeOn_appended file hpos hlt hne htotal
    obtain ⟨hrec,hcur⟩ := writeOn_fits file hne hpos hfit hlt hout htotal
    refine ⟨happ.firstCluster.trans_ne hfirst,?_,?_,?_⟩
    · rw [hcur,happ.firstCluster,hin.current]
    · rw [happ.dirEnt,happ.firstCluster,hrec,hin.recorded]
    · rw [happ.dirEnt,happ.firstCluster]
      exact hin.outside

theorem fillLoop_inFirst {gap : ℕ} (fuel : ℕ) (hgap : 0 < gap)
    (hpos : file.pos = file.size) (hfit : file.pos + gap ≤ v.clusterBytes)
    (hlt : file.pos + gap < 2 ^ 32)
    (hin : if file.firstCluster = 0 then Apart v s file.dirEnt else InFirst v s file)
    (hdone : (fillLoop v fuel s file gap).2 = true) :
    (fillLoop v fuel s file gap).1.getCluster v file.dirEnt ≠ 0 := by
  induction fuel generalizing s file gap with
  | zero => exact absurd (of_decide_eq_true hdone) hgap.ne'
  | succ fuel ih =>
    obtain ⟨n,s1,file1,total,hn0,hn,hw,heq | ⟨heq,rfl,-,hent,hpos1,hsize1,-⟩⟩ :=
      fillLoop_cases (v := v) (s := s) fuel hgap hpos hlt
    all_goals rw [heq] at hdone ⊢
    · cases hdone
    have hlen : (replicate total (0 : Byte)).length = total := length_replicate
    have hin1 := fatWrite_inFirst hv (s := s) (ne_nil_of_length_pos (hn0.trans_eq hlen.symm)) hpos
      (by omega) (by omega) hin
    rw [hlen,hw] at hin1
    have hin1 := hin1 rfl
    rw [← hent]
    by_cases hlast : gap - total = 0
    · rw [hlast,fillLoop_zero,hin1.recorded]
      exact hin1.nonzero
    · exact ih (by omega) (hpos1.trans hsize1.symm) (by omega) (by omega)
        (by rw [if_neg hin1.nonzero]; exact hin1) hdone

/-- What a write needs: its record does not give it a full cluster but no clusters, and no gap is
filled over the record. -/
structure WriteSound (v : Volume) (s : Disk) (entry position : ℕ) : Prop where
  record : ¬ (s.getCluster v entry = 0 ∧ s.getSize entry = v.clusterBytes ∧ v.clusterBytes ≤ position)
  apart : s.getSize entry < v.clusterBytes → position = v.clusterBytes → Apart v s entry

theorem Coherent.vfsWrite (h : Coherent v s) {entry position : ℕ} (hpos : position ≤ 0xFFFFFFFF)
    (hsound : WriteSound v s entry position) (data : List Byte) :
    Coherent v (s.vfsWrite v entry position data).1 := by
  -- at a boundary the file of a cursor has the size of one cluster
  have hboundary : ∀ (s : Disk) (file : File) (p : ℕ) (data : List Byte),
      s.cursor v entry p = some file → file.firstCluster = 0 → 0 < file.pos → file.pos = file.size →
      file.pos % v.clusterBytes = 0 →
      s.getCluster v entry = 0 ∧ s.getSize entry = v.clusterBytes ∧ v.clusterBytes ≤ p := by
    intro s file p data hc hfirst h0 hend hmod
    have hc := cursor_some hc
    obtain ⟨hf,hs,-,hmin⟩ := fatSeek_spec hc
    have hsize := fatSeek_boundary hc (hf.symm.trans hfirst) h0 (hend.trans hs) hmod
    exact ⟨hf.symm.trans hfirst,hsize,by omega⟩
  unfold Disk.vfsWrite
  split_ifs
  · exact h
  have hgap : Coherent v (s.fillGap v entry position).1 ∧ ((s.fillGap v entry position).2 = true →
        ∀ file, (s.fillGap v entry position).1.cursor v entry position = some file →
          file.firstCluster = 0 → ∀ data, ¬ Disk.AtBoundary v file data) := by
    unfold fillGap
    by_cases hle : position ≤ s.getSize entry
    · rw [if_pos hle]
      refine ⟨h,fun _ file hc hfirst data hb => hsound.record ?_⟩
      exact hboundary s file position data hc hfirst hb.2.1 hb.2.2.1 hb.2.2.2
    rw [if_neg hle]
    cases hc : s.cursor v entry (s.getSize entry) with
    | none => exact ⟨h,fun hf => absurd hf Bool.false_ne_true⟩
    | some file =>
      obtain ⟨hf,hs,hent,hmin⟩ := fatSeek_spec (cursor_some hc)
      rw [fileFromEntry] at hf hs hent hmin
      dsimp only at hf hs hent hmin
      rw [Nat.min_self] at hmin
      have hgap : 0 < position - s.getSize entry := by omega
      have hend : file.pos + (position - s.getSize entry) = position := by omega
      have hlt : file.pos + (position - s.getSize entry) < 2 ^ 32 := by omega
      have hco := h.fillLoop hv (position - s.getSize entry)
        (fun hfirst h0 hmod => hsound.record (by
          have := hboundary s file _ data hc hfirst h0 (hmin.trans hs.symm) hmod
          exact ⟨this.1,this.2.1,by omega⟩))
        (hmin.trans hs.symm) hlt
      refine ⟨hco,fun hdone file' hc' hfirst data hb => ?_⟩
      have hsize' := fillLoop_size _ (hmin.trans hs.symm) hlt hdone hgap
      rw [hent,hend] at hsize'
      obtain ⟨hzero,hbytes,-⟩ := hboundary _ file' position data hc' hfirst hb.2.1 hb.2.2.1 hb.2.2.2
      rw [hsize'] at hbytes
      -- the gap ended with the first cluster, so the record has kept its cluster
      have hin : if file.firstCluster = 0 then Apart v s file.dirEnt else InFirst v s file := by
        have hapart := hsound.apart (by omega) hbytes
        split_ifs with hz
        · rw [hent]
          exact hapart
        · refine ⟨hz,?_,by rw [hent,hf],fun hvalid => ?_⟩
          · rw [hf]
            exact fatSeek_first (cursor_some hc) (by rw [fileFromEntry]; omega)
          · rw [hent]
            exact hapart _ hvalid (Or.inr hf)
      have := fillLoop_inFirst hv (position - s.getSize entry) hgap (hmin.trans hs.symm) (by omega) hlt
        hin hdone
      rw [hent] at this
      exact this hzero
  obtain ⟨hco,hb⟩ := hgap
  cases hfill : s.fillGap v entry position with
  | mk s1 done =>
    rw [hfill] at hco hb
    cases done with
    | false => exact hco
    | true =>
      dsimp only
      cases hc : s1.cursor v entry position with
      | none => exact hco
      | some file => exact hco.fatWrite hv file _ fun hfirst => hb rfl file hc hfirst _

end

/-! ## Runs -/

def Sound (v : Volume) (s : Disk) : Disk.DiskOp → Prop
  | .write entry position _ => WriteSound v s entry position
  | _ => True

theorem Coherent.step (hv : Geometry v) (h : Coherent v s) {op : Disk.DiskOp} (hop : Sound v s op) :
    Coherent v (s.step v op) := by
  cases op with
  | create dir name memory => exact Clean.vfsCreate hv h dir name memory
  | mkdir dir name => exact Clean.mkdirAt hv h _ name
  | unlink dir name => exact Clean.removeAt hv h _ name false
  | rmdir dir name => exact Clean.removeAt hv h _ name true
  | write entry position data =>
    rw [Disk.step]
    split_ifs with hpos
    · exact h
    · exact h.vfsWrite hv (Nat.not_lt.mp hpos) hop data
  | truncate entry =>
    rw [Disk.step,Disk.vfsTruncate]
    split_ifs
    · exact h
    · cases s.cursor v entry 0 with
      | none => exact h
      | some file => exact h.fatTruncate hv file

theorem fatMountBlock_spec {device : ℕ → Byte} {sectors : ℕ} {clock : ℕ → Option (ℕ × ℕ)}
    (h : fatMountBlock device sectors clock = some (v, s)) : Geometry v ∧ Coherent v s := by
  unfold fatMountBlock at h
  cases hsize : fatVolumeSize device with
  | none =>
    rw [hsize] at h
    cases h
  | some size =>
    rw [hsize] at h
    dsimp only at h
    split_ifs at h
    obtain ⟨v',hmount,hpair⟩ := Option.map_eq_some_iff.mp h
    obtain ⟨rfl,rfl⟩ := Prod.mk.inj hpair
    have hm := fatMountFormat_spec hmount
    unfold fatVolumeSize at hsize
    dsimp only at hsize
    split_ifs at hsize
    obtain rfl := Option.some.inj hsize
    have hbps := hm.perSector
    have hspc := hm.perCluster
    refine ⟨⟨by omega,?_,?_,?_⟩,fun _ _ _ => rfl⟩
    · rw [hm.size,fatMountFormat_bytesPerSector hmount]
      exact Nat.mul_le_mul_right _ (totalSectors_lt device).le
    · calc 64 ≤ 1 * v'.bytesPerSector := by omega
        _ ≤ v'.sectorsPerCluster * v'.bytesPerSector := Nat.mul_le_mul_right _ hspc
    · have h32 := hm.limit_data.trans_lt (u32_lt _)
      split_ifs with ht
      · have := (hm.limit_fat16 ht).1
        omega
      · omega

/-- Along every run of a mounted device, as long as the writes are sound, the device has all of
the image after every operation. -/
theorem write_through {device : ℕ → Byte} {sectors : ℕ} {clock : ℕ → Option (ℕ × ℕ)}
    (hmount : fatMountBlock device sectors clock = some (v, s)) {ops : List Disk.DiskOp}
    (hops : Admissible (Disk.step v) (Sound v) s ops) : Always (Disk.step v) (Coherent v) s ops := by
  obtain ⟨hv,hs⟩ := fatMountBlock_spec hmount
  exact hops.always (fun _ _ h hop => h.step hv hop) (fun _ h => h) hs

/-- A FAT16 volume with one free cluster whose root directory has a file of one cluster's size
without a cluster. -/
def brokenImage : ℕ → Byte :=
  let boot := blit (fun _ => 0) 11 [0x00#8, 0x02#8, 0x01#8, 0x01#8, 0x00#8, 0x01#8, 0x10#8, 0x00#8, 0xF8#8,
    0x0F#8, 0xF8#8, 0x01#8, 0x00#8]
  let table := fun i => if 512 ≤ i ∧ i < 1024 ∧ i ≠ 516 ∧ i ≠ 517 then 0xFF#8 else boot i
  blit table 1024 ([0x41#8] ++ List.replicate 10 space ++ [fatAttrArchive] ++ List.replicate 17 0 ++ [0x02#8])

theorem write_through_brokenImage : (fatMountBlock brokenImage 4088 fun _ => none).elim False fun m =>
    Always (Disk.step m.1) (Coherent m.1) m.2 [.create none [0x42#8] true, .write 1024 0 [1]] := by
  cases hmount : fatMountBlock brokenImage 4088 fun _ => none with
  | none =>
    have hsome : (fatMountBlock brokenImage 4088 fun _ => none).isSome = true := by decide +kernel
    rw [hmount] at hsome
    exact absurd hsome Bool.false_ne_true
  | some m =>
    have hbytes := (fatMountBlock_spec hmount).1.cluster
    refine write_through hmount ⟨trivial,⟨fun h => ?_,fun _ h => ?_⟩,trivial⟩
    · omega
    · omega

/-- A write at the end of this file gives its record a cluster that the device does not have. -/
theorem write_leaves_record_unflushed :
    (fatMountBlock brokenImage 4088 fun _ => none).map (fun m =>
      let s := m.2.step m.1 (.write 1024 512 [1])
      (s.image 1050, s.device 1050, decide (1050 < m.1.imageSize))) = some (2, 0, true) := by
  decide +kernel

end GaiaKernel.Fat
