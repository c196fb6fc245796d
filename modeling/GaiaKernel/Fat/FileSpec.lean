import GaiaKernel.Fat.DiskSpec
import GaiaKernel.Fat.File

/-! # Files and their records

How the record of a file and the cursor of an open file go together through `fat_write`.
-/
namespace GaiaKernel.Fat
open Bytes List Option
variable {v : Volume} {s : Disk} {data : List Byte} {file file' : File} {position : ℕ}
namespace Disk

/-! ## Fields -/

variable (s)

theorem getSize_touch (off : ℕ) : (s.touch off).getSize off = s.getSize off :=
  le32_congr fun _ _ => record_touch s off (by omega) (by omega)

theorem getCluster_touch (off : ℕ) : (s.touch off).getCluster v off = s.getCluster v off :=
  entryGetCluster_congr fun _ _ => record_touch s off (by omega) (by omega)

theorem getSize_setSize (off size : ℕ) : (s.setSize off size).getSize off = size % 2 ^ 32 := by
  rw [← size_set (s.record off) size]
  exact le32_congr fun _ _ => record_setRecord s off _ (by omega)

theorem getCluster_setSize (off size : ℕ) :
    (s.setSize off size).getCluster v off = s.getCluster v off := entryGetCluster_congr fun _ _ =>
    (record_setRecord s off _ (by omega)).trans (entrySetSize_of _ _ (by omega))

theorem getCluster_setCluster (off cluster : ℕ) : (s.setCluster v off cluster).getCluster v off =
      if wide v then cluster % 2 ^ 32 else cluster % 2 ^ 16 := by
  rw [← entryGetCluster_set (wide v) (s.record off) cluster]
  exact entryGetCluster_congr fun _ _ => record_setRecord s off _ (by omega)

/-! ## Cursors -/

structure Moved (file file' : File) (n : ℕ) : Prop where
  firstCluster : file'.firstCluster = file.firstCluster
  size : file'.size = file.size
  dirEnt : file'.dirEnt = file.dirEnt
  pos : file.pos + n < 2 ^ 32 → file'.pos = file.pos + n

theorem Moved.here (file : File) (cluster : ℕ) : Moved file { file with curCluster := cluster } 0 :=
  ⟨rfl,rfl,rfl,fun _ => rfl⟩

theorem Moved.trans {file'' : File} {m n : ℕ} (h : Moved file file' m)
    (h' : Moved file' file'' n) : Moved file file'' (m + n) := by
  refine ⟨h'.firstCluster.trans h.firstCluster,h'.size.trans h.size,h'.dirEnt.trans h.dirEnt,
    fun hlt => ?_⟩
  have hpos := h.pos (by omega)
  rw [h'.pos (by omega),hpos,Nat.add_assoc]

theorem Moved.by (file : File) (n : ℕ) : Moved file { file with pos := u32 (file.pos + n) } n :=
  ⟨rfl,rfl,rfl,fun hlt => u32_of_lt hlt⟩

theorem writeLoop_moved (fuel : ℕ) (file : File) (data : List Byte) :
    Moved file (writeLoop v fuel s file data).2.1 (writeLoop v fuel s file data).2.2 ∧
      (writeLoop v fuel s file data).2.2 ≤ data.length := by
  induction fuel generalizing s file data with
  | zero => exact ⟨Moved.here file file.curCluster,Nat.zero_le _⟩
  | succ fuel ih =>
    rw [writeLoop]
    by_cases hnil : data = []
    · rw [if_pos hnil]
      exact ⟨Moved.here file file.curCluster,Nat.zero_le _⟩
    rw [if_neg hnil]
    cases v.clusterData file.curCluster with
    | none => exact ⟨Moved.here file file.curCluster,Nat.zero_le _⟩
    | some base =>
      dsimp only
      generalize hchunk : min data.length (v.clusterBytes - file.pos % v.clusterBytes) = chunk
      have hle : chunk ≤ data.length := hchunk ▸ Nat.min_le_left _ _
      generalize flushBytes v _ _ _ = s1
      have hmoved := Moved.by file chunk
      split_ifs
      · cases s1.advance v file.curCluster with
        | mk s2 next =>
          cases next with
          | none => exact ⟨hmoved,hle⟩
          | some next =>
            obtain ⟨hrest,hlen⟩ := ih s2 { file with
              curCluster := next, pos := u32 (file.pos + chunk) } (data.drop chunk)
            rw [length_drop] at hlen
            exact ⟨(hmoved.trans (Moved.here _ next)).trans hrest,Nat.add_le_of_le_sub' hle hlen⟩
      · obtain ⟨hrest,hlen⟩ := ih s1 { file with pos := u32 (file.pos + chunk) } (data.drop chunk)
        rw [length_drop] at hlen
        exact ⟨hmoved.trans hrest,Nat.add_le_of_le_sub' hle hlen⟩

def skips (v : Volume) (file : File) (position : ℕ) : ℕ :=
  if position = file.size ∧ position % v.clusterBytes = 0 then position / v.clusterBytes - 1
  else position / v.clusterBytes

theorem fatSeek_eq (file : File) (position : ℕ) : s.fatSeek v file position =
      if min position file.size = 0 then
        some { file with curCluster := file.firstCluster, pos := 0 }
      else
        (s.walk v (skips v file (min position file.size)) file.firstCluster).map fun cluster =>
          { file with curCluster := cluster, pos := min position file.size } := by
  have hmin : (if position > file.size then file.size else position) = min position file.size := by
    split_ifs <;> omega
  unfold fatSeek
  simp only [hmin,skips]
  by_cases h0 : min position file.size = 0
  · rw [if_pos (Or.inl h0),if_pos h0,h0]
  · rw [if_neg (by omega),if_neg h0]

variable {s}

theorem cursor_some {entry : ℕ} (h : s.cursor v entry position = some file) :
    s.fatSeek v (s.fileFromEntry v entry) position = some file := by
  unfold cursor at h
  split_ifs at h
  exact h

theorem fatSeek_spec (h : s.fatSeek v file position = some file') :
    file'.firstCluster = file.firstCluster ∧ file'.size = file.size ∧ file'.dirEnt = file.dirEnt ∧
      file'.pos = min position file.size := by
  rw [fatSeek_eq] at h
  split_ifs at h with h0
  · obtain rfl := some.inj h
    exact ⟨rfl,rfl,rfl,h0.symm⟩
  · obtain ⟨cluster,-,rfl⟩ := map_eq_some_iff.mp h
    exact ⟨rfl,rfl,rfl,rfl⟩

theorem nextCluster_zero (s : Disk) : s.nextCluster v 0 = .broken := by
  rw [nextCluster,if_pos fun h : v.clusterIsValid 0 => absurd h.1 (by decide)]

theorem fatSeek_first
    (h : s.fatSeek v file position = some file') (hlt : min position file.size < v.clusterBytes) :
    file'.curCluster = file.firstCluster := by
  rw [fatSeek_eq] at h
  split_ifs at h with h0
  · obtain rfl := some.inj h
    rfl
  · have hskip : skips v file (min position file.size) = 0 := by
      unfold skips
      rw [Nat.mod_eq_of_lt hlt,if_neg (by omega),Nat.div_eq_of_lt hlt]
    rw [hskip] at h
    obtain rfl := some.inj h
    rfl

theorem fatSeek_boundary
    (h : s.fatSeek v file position = some file') (hfirst : file.firstCluster = 0)
    (hpos : 0 < file'.pos) (hend : file'.pos = file.size) (hmod : file'.pos % v.clusterBytes = 0) :
    file.size = v.clusterBytes := by
  obtain ⟨-,-,-,hmin⟩ := fatSeek_spec h
  rw [fatSeek_eq,if_neg (by omega),← hmin,hfirst,skips,if_pos ⟨hend,hmod⟩] at h
  obtain ⟨cluster,hwalk,-⟩ := map_eq_some_iff.mp h
  cases hskip : file'.pos / v.clusterBytes - 1 with
  | succ skip =>
    rw [hskip,walk,nextCluster_zero] at hwalk
    cases hwalk
  | zero =>
    have hdiv := Nat.div_add_mod file'.pos v.clusterBytes
    generalize file'.pos / v.clusterBytes = q at hskip hdiv
    obtain rfl | rfl : q = 0 ∨ q = 1 := by omega
    · omega
    · omega

theorem writeFrom_eq (s : Disk) (file : File) (data : List Byte) :
    let r := writeLoop v (data.length + 1) s file data
    ∃ cluster, s.writeFrom v file data =
      (((if r.2.1.pos > r.2.1.size then r.1.setSize r.2.1.dirEnt r.2.1.pos else r.1).touch
          r.2.1.dirEnt).flushBytes v r.2.1.dirEnt 32,
        { r.2.1 with size := max r.2.1.size r.2.1.pos, curCluster := cluster }, r.2.2) ∧
      (r.2.1.size ≤ r.2.1.pos → cluster = r.2.1.curCluster) := by
  unfold writeFrom
  generalize writeLoop v (data.length + 1) s file data = r
  obtain ⟨s1,⟨first,cur,size,pos,dirEnt⟩,total⟩ := r
  by_cases hgrow : pos > size
  · simp only [if_pos hgrow,lt_irrefl,false_and,and_false,if_false]
    exact ⟨cur,by rw [Nat.max_eq_right (Nat.le_of_lt hgrow)],fun _ => rfl⟩
  · simp only [if_neg hgrow,Nat.max_eq_left (Nat.not_lt.mp hgrow)]
    by_cases hmove : pos > 0 ∧ pos < size ∧ pos % v.clusterBytes = 0
    · rw [if_pos hmove]
      cases ((s1.touch dirEnt).flushBytes v dirEnt 32).nextCluster v cur with
      | next next => exact ⟨next,rfl,fun h => absurd hmove.2.1 (Nat.not_lt.mpr h)⟩
      | broken => exact ⟨cur,rfl,fun _ => rfl⟩
      | last => exact ⟨cur,rfl,fun _ => rfl⟩
    · rw [if_neg hmove]
      exact ⟨cur,rfl,fun _ => rfl⟩

structure Appended (v : Volume) (s : Disk) (file file' : File) (n : ℕ) : Prop where
  firstCluster : file'.firstCluster = file.firstCluster
  dirEnt : file'.dirEnt = file.dirEnt
  pos : file'.pos = file.pos + n
  size : file'.size = file.pos + n
  recorded : s.getSize file.dirEnt = file.pos + n

theorem writeFrom_appended (file : File) (hpos : file.pos = file.size)
    (hlt : file.pos + data.length < 2 ^ 32) (hne : data ≠ [])
    (htotal : (s.writeFrom v file data).2.2 = data.length) :
    Appended v (s.writeFrom v file data).1 file (s.writeFrom v file data).2.1 data.length := by
  obtain ⟨cluster,heq,-⟩ := writeFrom_eq (v := v) s file data
  have hmoved := (writeLoop_moved (v := v) s (data.length + 1) file data).1
  have hlen := length_pos_iff.mpr hne
  rw [heq] at htotal ⊢
  rw [htotal] at hmoved
  have hpos' := hmoved.pos hlt
  have hgrow : (writeLoop v (data.length + 1) s file data).2.1.pos >
      (writeLoop v (data.length + 1) s file data).2.1.size := by
    rw [hpos',hmoved.size]
    omega
  refine ⟨hmoved.firstCluster,hmoved.dirEnt,hpos',?_,?_⟩
  · have hmax : max (writeLoop v (data.length + 1) s file data).2.1.size
        (writeLoop v (data.length + 1) s file data).2.1.pos = file.pos + data.length := by
      omega
    exact hmax
  · rw [if_pos hgrow,hmoved.dirEnt,getSize,record_flushBytes]
    change (touch _ _).getSize _ = _
    rw [getSize_touch,getSize_setSize,hpos']
    exact Nat.mod_eq_of_lt hlt

theorem writeOn_appended (file : File) (hpos : file.pos = file.size)
    (hlt : file.pos + data.length < 2 ^ 32) (hne : data ≠ [])
    (htotal : (s.writeOn v file data).2.2 = data.length) :
    Appended v (s.writeOn v file data).1 file (s.writeOn v file data).2.1 data.length := by
  unfold writeOn at htotal ⊢
  split_ifs at htotal ⊢
  · cases hadv : s.advance v file.curCluster with
    | mk s' next =>
      rw [hadv] at htotal
      cases next with
      | none => exact absurd htotal.symm (length_pos_iff.mpr hne).ne'
      | some next =>
        obtain ⟨h1,h2,h3,h4,h5⟩ := writeFrom_appended { file with curCluster := next } hpos hlt
          hne htotal
        exact ⟨h1,h2,h3,h4,h5⟩
  · exact writeFrom_appended file hpos hlt hne htotal

theorem allocCluster_valid {s' : Disk} {c : ℕ} (h : s.allocCluster v = (s', some c)) :
    v.clusterIsValid c ∧ s.fatGet v c = 0 := by
  unfold allocCluster at h
  cases hfind : (range' 2 (v.clusterLimit - 2)).find? fun c => s.fatGet v c = 0 with
  | none =>
    rw [hfind] at h
    cases h
  | some c' =>
    rw [hfind] at h
    obtain rfl : c' = c := some.inj (Prod.mk.inj h).2
    have hmem := mem_range'_1.mp (mem_of_find?_eq_some hfind)
    have hfree := find?_some hfind
    exact ⟨⟨hmem.1,by omega⟩,of_decide_eq_true hfree⟩

theorem fatWrite_appended (file : File) (hpos : file.pos = file.size)
    (hlt : file.pos + data.length < 2 ^ 32) (hne : data ≠ [])
    (htotal : (s.fatWrite v file data).2.2 = data.length) :
    (s.fatWrite v file data).2.1.firstCluster ≠ 0 ∧
      (s.fatWrite v file data).2.1.dirEnt = file.dirEnt ∧
      (s.fatWrite v file data).2.1.pos = file.pos + data.length ∧
      (s.fatWrite v file data).2.1.size = file.pos + data.length ∧
      (s.fatWrite v file data).1.getSize file.dirEnt = file.pos + data.length := by
  unfold fatWrite at htotal ⊢
  by_cases hfirst : file.firstCluster = 0
  · rw [if_pos hfirst] at htotal ⊢
    cases halloc : s.allocCluster v with
    | mk s' c =>
      rw [halloc] at htotal
      cases c with
      | none => exact absurd htotal.symm (length_pos_iff.mpr hne).ne'
      | some c =>
        have hc := (allocCluster_valid halloc).1.1
        have h := writeOn_appended { file with firstCluster := c, curCluster := c } hpos hlt hne
          htotal
        refine ⟨?_,h.dirEnt,h.pos,h.size,h.recorded⟩
        rw [h.firstCluster]
        dsimp only
        omega
  · rw [if_neg hfirst] at htotal ⊢
    have h := writeOn_appended file hpos hlt hne htotal
    exact ⟨h.firstCluster.trans_ne hfirst,h.dirEnt,h.pos,h.size,h.recorded⟩

theorem fillLoop_cases {gap : ℕ} (fuel : ℕ) (hgap : 0 < gap) (hpos : file.pos = file.size)
    (hlt : file.pos + gap < 2 ^ 32) : ∃ n s₁ file₁ total, 0 < n ∧ n ≤ gap ∧
      s.fatWrite v file (replicate n 0) = (s₁, file₁, total) ∧
      (fillLoop v (fuel + 1) s file gap = (s₁, false) ∨
        fillLoop v (fuel + 1) s file gap = fillLoop v fuel s₁ file₁ (gap - n) ∧ total = n ∧
          file₁.firstCluster ≠ 0 ∧ file₁.dirEnt = file.dirEnt ∧ file₁.pos = file.pos + n ∧
          file₁.size = file.pos + n ∧ s₁.getSize file.dirEnt = file.pos + n) := by
  rw [fillLoop,if_neg hgap.ne']
  dsimp only
  generalize hn : (if gap < 512 then gap else 512) = n
  have hn' : 0 < n ∧ n ≤ gap := by
    rw [← hn]
    split_ifs <;> omega
  have hlen : (replicate n (0 : Byte)).length = n := length_replicate
  have hne : replicate n (0 : Byte) ≠ [] := ne_nil_of_length_pos (by omega)
  have happ := fatWrite_appended (v := v) (s := s) file hpos (by omega) hne
  rw [hlen] at happ
  refine ⟨n,_,_,_,hn'.1,hn'.2,rfl,?_⟩
  split_ifs with htotal
  · exact .inl rfl
  · exact .inr ⟨rfl,not_not.mp htotal,happ (not_not.mp htotal)⟩

theorem fillLoop_zero (fuel : ℕ) : (fillLoop v fuel s file 0).1 = s := by
  cases fuel <;> simp [fillLoop]

theorem fillLoop_size {gap : ℕ} (fuel : ℕ) (hpos : file.pos = file.size)
    (hlt : file.pos + gap < 2 ^ 32) (hdone : (fillLoop v fuel s file gap).2 = true)
    (hgap : 0 < gap) : (fillLoop v fuel s file gap).1.getSize file.dirEnt = file.pos + gap := by
  induction fuel generalizing s file gap with
  | zero => exact absurd (of_decide_eq_true hdone) hgap.ne'
  | succ fuel ih =>
    obtain ⟨n,s1,file1,total,hn0,hn,-,heq | ⟨heq,-,-,hent,hpos1,hsize1,hrec⟩⟩ :=
      fillLoop_cases (v := v) (s := s) fuel hgap hpos hlt
    all_goals rw [heq] at hdone ⊢
    · cases hdone
    by_cases hlast : gap - n = 0
    · -- nothing is left to write
      rw [hlast,fillLoop_zero,hrec]
      omega
    · have hrest := ih (hpos1.trans hsize1.symm) (by omega) hdone (by omega)
      rw [hent,hpos1] at hrest
      omega

theorem writeLoop_fits {base : ℕ} (hne : data ≠ [])
    (hbase : v.clusterData file.curCluster = some base)
    (hfit : data.length ≤ v.clusterBytes - file.pos % v.clusterBytes) :
    writeLoop v (data.length + 1) s file data =
      ((s.store (base + file.pos % v.clusterBytes) data).flushBytes v
          (base + file.pos % v.clusterBytes) data.length,
        { file with pos := u32 (file.pos + data.length) }, data.length) := by
  have hnil : ∀ (s : Disk) (file : File), writeLoop v data.length s file [] = (s, file, 0) := by
    intro s file
    cases hlen : data.length with
    | zero => rfl
    | succ k => rw [writeLoop,if_pos rfl]
  rw [writeLoop,if_neg hne,hbase]
  dsimp only
  rw [Nat.min_eq_left hfit,take_length,drop_length,if_neg (fun h => h.2 rfl),hnil]
  rfl

def Outside (off start len : ℕ) : Prop := off + 32 ≤ start ∨ start + len ≤ off

theorem getCluster_store {off start : ℕ} {xs : List Byte} (h : Outside off start xs.length) :
    (s.store start xs).getCluster v off = s.getCluster v off :=
  entryGetCluster_congr fun i hi => blit_of_not_mem (by unfold Outside at h; omega)

theorem getCluster_flushBytes (s : Disk) (start len off : ℕ) :
    (s.flushBytes v start len).getCluster v off = s.getCluster v off := by
  rw [getCluster,record_flushBytes]
  rfl

/-- `fat_write` into the first cluster of a file from its end on keeps the record on its cluster,
as long as the record is not in the table or in this cluster. -/
theorem writeOn_fits (file : File) (hne : data ≠ []) (hpos : file.pos = file.size)
    (hfit : file.pos + data.length ≤ v.clusterBytes) (hlt : file.pos + data.length < 2 ^ 32)
    (hout : v.clusterIsValid file.curCluster →
      Outside file.dirEnt (v.sector (v.clusterSector file.curCluster)) v.clusterBytes)
    (htotal : (s.writeOn v file data).2.2 = data.length) :
    (s.writeOn v file data).1.getCluster v file.dirEnt = s.getCluster v file.dirEnt ∧
      (s.writeOn v file data).2.1.curCluster = file.curCluster := by
  have hlen := length_pos_iff.mpr hne
  have hmod : file.pos % v.clusterBytes = file.pos := Nat.mod_eq_of_lt (by omega)
  have hb : ¬ AtBoundary v file data := by
    rintro ⟨-,h0,-,hmod'⟩
    omega
  rw [writeOn,if_neg hb] at htotal ⊢
  obtain ⟨cluster,heq,hcur⟩ := writeFrom_eq (v := v) s file data
  cases hbase : v.clusterData file.curCluster with
  | none =>
    rw [heq,writeLoop,if_neg hne,hbase] at htotal
    exact absurd htotal hlen.ne
  | some base =>
    obtain ⟨hvalid,rfl⟩ : v.clusterIsValid file.curCluster ∧
        v.sector (v.clusterSector file.curCluster) = base := by
      unfold Volume.clusterData at hbase
      split_ifs at hbase with hvalid
      exact ⟨hvalid,some.inj hbase⟩
    rw [writeLoop_fits hne hbase (by omega)] at heq hcur
    dsimp only at heq hcur
    rw [u32_of_lt hlt] at heq hcur
    rw [heq,if_pos (by omega),getCluster_flushBytes,getCluster_touch,getCluster_setSize,
      getCluster_flushBytes,getCluster_store]
    · exact ⟨rfl,hcur (by omega)⟩
    · have := hout hvalid
      unfold Outside at this ⊢
      omega

end Disk

end GaiaKernel.Fat
