import GaiaKernel.Ext2.Loads

/-! # Calls that only read

`lookup`, `getattr`, `read` and `iterate` of fs/ext2/ext2_vfs.c read pages of the device in and
change nothing else. A page that cannot be read sets `io_failed`.
-/
namespace GaiaKernel.Ext2
open Bytes Fallible Prog Contract Ok
variable {v : Volume} {α : Type}
namespace Volume

/-- What the volume holds: the image where a page has been read in, the device elsewhere. -/
def whole (v : Volume) (i : ℕ) : Byte :=
  match v.lazy with
  | none => v.image i
  | some lz =>
    if lz.loaded (i / ext2Page) then v.image i
    else if i < v.imageSize / blockSectorSize * blockSectorSize then lz.disk i else 0#8

theorem whole_of_loaded {i : ℕ} (h : v.Loaded i) : v.whole i = v.image i := by
  unfold whole
  cases hlazy : v.lazy with
  | none => rfl
  | some lz => exact if_pos (h lz hlazy)

end Volume

/-- All that reading does: pages are read in, and `io_failed` may be set. -/
structure Reads (v v' : Volume) : Prop extends Loads v v' where
  whole : v'.whole = v.whole
  groups : v'.groups = v.groups ∧ v'.groupCount = v.groupCount
  logBlockSize : v'.logBlockSize = v.logBlockSize
  inodeSize : v'.inodeSize = v.inodeSize
  dirtyBlocks : v'.dirtyBlocks = v.dirtyBlocks
  ioFailed : v.ioFailed = true → v'.ioFailed = true

theorem Reads.refl (v : Volume) : Reads v v := ⟨Loads.refl v,rfl,⟨rfl,rfl⟩,rfl,rfl,rfl,id⟩

theorem Reads.trans {v' v'' : Volume} (h : Reads v v') (h' : Reads v' v'') : Reads v v'' :=
  ⟨h.toLoads.trans h'.toLoads,h'.whole.trans h.whole,
    ⟨h'.groups.1.trans h.groups.1,h'.groups.2.trans h.groups.2⟩,
    h'.logBlockSize.trans h.logBlockSize,h'.inodeSize.trans h.inodeSize,h'.dirtyBlocks.trans h.dirtyBlocks,
    fun hf => h'.ioFailed (h.ioFailed hf)⟩

theorem Reads.blockSize {v' : Volume} (h : Reads v v') : v'.blockSize = v.blockSize := by
  unfold Fs.blockSize
  rw [h.logBlockSize]

def reading (v₀ : Volume) (B : Fault → Prop) : Contract Volume Fault := ⟨Reads v₀,B⟩

variable {v₀ : Volume} {B : Fault → Prop}

/-! ### Pages and blocks -/

theorem reads_page {lz : Lazy} {page : ℕ} (hlazy : v.lazy = some lz)
    (hpage : lz.loaded page = false) : Reads v { v with
      image := fun i =>
        if i / ext2Page = page then
          if i < v.imageSize / blockSectorSize * blockSectorSize then lz.disk i else 0#8
        else v.image i
      lazy := some
        { lz with
          loaded := Function.update lz.loaded page true
          asked := lz.asked + 1 } } := by
  refine ⟨⟨rfl,fun i hi => ?_,fun i hi lz' hlz' => ?_⟩,?_,⟨rfl,rfl⟩,rfl,rfl,rfl,id⟩
  · have hne : ¬ i / ext2Page = page := by
      intro hc
      have := hi lz hlazy
      rw [hc,hpage] at this
      cases this
    exact if_neg hne
  · obtain rfl := Option.some.inj hlz'
    by_cases hc : i / ext2Page = page
    · simp [hc]
    · exact (Function.update_of_ne hc _ _).trans (hi lz hlazy)
  · funext i
    simp only [Volume.whole,hlazy]
    by_cases hc : i / ext2Page = page
    · simp [hc,hpage]
    · rw [Function.update_of_ne hc,if_neg hc]

theorem reads_asked {lz : Lazy} (hlazy : v.lazy = some lz) :
    Reads v { v with lazy := some { lz with asked := lz.asked + 1 } } := by
  refine ⟨⟨rfl,fun _ _ => rfl,fun i hi lz' hlz' => ?_⟩,?_,⟨rfl,rfl⟩,rfl,rfl,rfl,id⟩
  · obtain rfl := Option.some.inj hlz'
    exact hi lz hlazy
  · funext i
    simp [Volume.whole,hlazy]

theorem reads_failed (v : Volume) : Reads v { v with ioFailed := true } :=
  ⟨⟨rfl,fun _ _ => rfl,fun _ hi => hi⟩,rfl,⟨rfl,rfl⟩,rfl,rfl,rfl,fun _ => rfl⟩

theorem loadPage_yields (page : ℕ) (v : Volume) :
    ∃ ok v', Yields (loadPage page) v ok v' ∧ Reads v v' := by
  cases hlazy : v.lazy with
  | none =>
    refine ⟨true,v,Yields.look.bind ?_,Reads.refl v⟩
    rw [hlazy]
    exact ⟨rfl,rfl⟩
  | some lz =>
    cases hpage : lz.loaded page with
    | true =>
      refine ⟨true,v,Yields.look.bind ?_,Reads.refl v⟩
      simp only [hlazy,hpage,if_true]
      exact ⟨rfl,rfl⟩
    | false =>
      cases hanswer : lz.answers lz.asked with
      | true =>
        refine ⟨true,_,Yields.look.bind ?_,reads_page hlazy hpage⟩
        simp only [hlazy,hpage,hanswer,if_true,Bool.false_eq_true,if_false]
        exact ⟨rfl,rfl⟩
      | false =>
        refine ⟨false,_,Yields.look.bind ?_,reads_asked hlazy⟩
        simp only [hlazy,hpage,hanswer,Bool.false_eq_true,if_false]
        exact ⟨rfl,rfl⟩

theorem safe_page (page : ℕ) : (reading v₀ B).Safe (loadPage page) := by
  intro v hv
  obtain ⟨ok,v',⟨hok,rfl⟩,hreads⟩ := loadPage_yields page v
  refine ⟨Reads.trans hv hreads,fun _ _ => trivial,fun e he => ?_⟩
  rw [hok] at he
  cases he

theorem safe_load (off k : ℕ) : (reading v₀ B).Safe (load off k) :=
  Ok.look.bind fun _ _ => Ok.pure trivial

theorem safe_ensure (offset length : ℕ) : (reading v₀ B).Safe (ext2LazyEnsure offset length) := by
  apply look.bind
  intro v _
  apply Safe.early
  apply Safe.early
  refine Safe.bind (Safe.firstOf fun page _ => ?_) fun r => pure trivial
  apply (safe_page page).bind
  intro ok
  cases ok <;> exact pure trivial

theorem safe_bytes (offset length : ℕ) : (reading v₀ B).Safe (ext2Bytes offset length) := by
  apply look.bind
  intro v _
  apply Safe.early
  apply (safe_ensure offset length).bind
  intro ok
  cases ok with
  | true => exact pure trivial
  | false => exact (change fun w hw => Reads.trans hw (reads_failed w)).then (pure trivial)

theorem safe_block (number : ℕ) : (reading v₀ B).Safe (ext2Block number) := by
  apply Safe.early
  apply (safe_load _ _).bind
  intro count
  apply Safe.early
  exact look.bind fun v _ => safe_bytes _ _

theorem safe_pointer (inode pointer : ℕ) : (reading v₀ B).Safe (ensurePointerBlock inode pointer false) := by
  apply (safe_load _ _).bind
  intro number
  apply Safe.early
  exact pure trivial

section
variable {create : Bool} (hp : ∀ inode pointer, (reading v₀ B).Safe (ensurePointerBlock inode pointer create))
include hp

theorem safe_indirectBlock (inode ppb level pointer index : ℕ) :
    (reading v₀ B).Safe (indirectBlock inode create ppb level pointer index) := by
  induction level generalizing pointer index with
  | zero => exact hp inode pointer
  | succ level ih =>
    apply (hp inode pointer).bind
    intro number
    apply (safe_block number).option
    · exact pure trivial
    · exact fun entries => ih _ _

theorem safe_mapBlock (inode logical : ℕ) : (reading v₀ B).Safe (ext2InodeBlock inode logical create) := by
  apply look.bind
  intro v _
  apply (hp _ _).ite
  apply (safe_indirectBlock hp _ _ _ _ _).ite
  apply (safe_indirectBlock hp _ _ _ _ _).ite
  apply (safe_indirectBlock hp _ _ _ _ _).ite
  exact pure trivial

end

theorem safe_inodeBlock (inode logical : ℕ) : (reading v₀ B).Safe (ext2InodeBlock inode logical false) :=
  safe_mapBlock safe_pointer inode logical

/-! ### Inodes

A number of inodes per group of 0 stops a call.
-/

section
variable (h0 : B .zeroDivision)
include h0

theorem safe_inodeGet (number : ℕ) : (reading v₀ B).Safe (ext2InodeGet number) := by
  apply Safe.early
  apply (safe_load _ _).bind
  intro count
  apply Safe.early
  apply (safe_load _ _).bind
  intro per
  apply Safe.bind (Safe.ite (stop h0) (.pure _))
  intro r
  apply look.bind
  intro v _
  apply Safe.early
  refine Safe.bind (look.bind fun w _ => safe_load _ _) fun table => ?_
  exact safe_bytes _ _

theorem safe_directoryInode (number : ℕ) : (reading v₀ B).Safe (directoryInode number) := by
  apply (safe_inodeGet h0 number).option
  · exact pure trivial
  intro inode
  apply (safe_load _ _).bind
  intro mode
  exact Safe.ite (.pure _) (.pure _)

theorem safe_entryFileType (entry : DirEntry) : (reading v₀ B).Safe (entryFileType entry) := by
  apply Safe.early
  apply (safe_inodeGet h0 _).option
  · exact pure trivial
  intro inode
  apply (safe_load _ _).bind
  intro mode
  apply Safe.early
  exact Safe.ite (.pure _) (.pure _)

theorem safe_vfsInode (number : ℕ) (memory : Bool) : (reading v₀ B).Safe (ext2VfsInode number memory) := by
  apply (safe_inodeGet h0 number).option
  · exact pure trivial
  intro disk
  apply (safe_load _ _).bind
  intro mode
  apply (safe_load _ _).bind
  intro acl
  apply (safe_load _ _).bind
  intro fragment
  apply (safe_load _ _).bind
  intro flags
  apply (safe_load _ _).bind
  intro directoryAcl
  exact Safe.ite (.pure _) (.pure _)

end

/-! ### Files and the records of directories -/

theorem reading_chunk (block : Option ℕ) (offset chunk : ℕ) :
    (reading v₀ B).Safe (readChunk block offset chunk) := by
  cases block with
  | none => exact pure trivial
  | some block =>
    apply Ok.look.bind
    intro v _
    exact Ok.pure trivial

theorem reading_fileReadLoop (inode fuel position remaining : ℕ) :
    (reading v₀ B).Safe (fileReadLoop inode fuel position remaining) := by
  induction fuel generalizing position remaining with
  | zero => exact pure trivial
  | succ fuel ih =>
    apply Safe.early
    apply look.bind
    intro v _
    apply (safe_inodeBlock _ _).bind
    intro number
    apply (safe_block number).bind
    intro block
    apply (reading_chunk block _ _).bind
    intro bytes
    apply (ih _ _).bind
    intro rest
    exact pure trivial

theorem reading_fileRead (inode position length : ℕ) :
    (reading v₀ B).Safe (ext2FileRead inode position length) := by
  apply (safe_load _ _).bind
  intro size
  apply Safe.early
  exact reading_fileReadLoop _ _ _ _

theorem reading_entryAt (directory offset : ℕ) :
    (reading v₀ B).Safe (entryAt directory offset) := by
  apply look.bind
  intro v _
  apply (safe_inodeBlock _ _).bind
  intro number
  apply (safe_block number).option
  · exact pure trivial
  intro block
  apply Ok.look.bind
  intro w _
  exact Ok.pure trivial

theorem reading_scan {β : Type} (directory bs size : ℕ) (visit : α → ℕ → ℕ → DirEntry → α ⊕ β)
    (fuel offset : ℕ) (acc : α) :
    (reading v₀ B).Safe (scan (entryAt directory) bs size visit fuel offset acc) := by
  induction fuel generalizing offset acc with
  | zero => exact pure trivial
  | succ fuel ih =>
    refine ite (fun _ => ?_) fun _ => pure trivial
    apply (reading_entryAt directory offset).option
    · exact pure trivial
    intro p
    refine ite (fun _ => ?_) fun _ => pure trivial
    cases visit acc offset p.1 p.2 with
    | inr b => exact pure trivial
    | inl acc' => exact ih _ _

/-! ### Directories

A directory without end stops a call.
-/

theorem reading_scanFrom {β : Type} (directory offset : ℕ)
    (visit : α → ℕ → ℕ → DirEntry → α ⊕ β) (acc : α) :
    (reading v₀ fun _ => True).Safe (scanFrom directory offset visit acc) := by
  apply (safe_load _ _).bind
  intro size
  apply look.bind
  intro v _
  apply (reading_scan _ _ _ _ _ _ _).bind
  intro r
  cases r with
  | endless => exact stop trivial
  | found b => exact pure trivial
  | invalid => exact pure trivial
  | finished => exact pure trivial

theorem reading_dirLookup (directory : ℕ) (name : List Byte) :
    (reading v₀ fun _ => True).Safe (ext2DirLookup directory name) := by
  apply (safe_directoryInode trivial directory).option
  · exact pure trivial
  intro inode
  apply Safe.early
  apply (reading_scanFrom _ _ _ _).bind
  intro r
  cases r <;> exact pure trivial

theorem reading_dirReadOne (directory index : ℕ) :
    (reading v₀ fun _ => True).Safe (ext2DirReadOne directory index) := by
  apply (safe_directoryInode trivial directory).option
  · exact pure trivial
  intro inode
  apply (reading_scanFrom _ _ _ _).bind
  intro r
  cases r with
  | found b =>
    apply (safe_entryFileType trivial b.2).bind
    intro type
    exact pure trivial
  | invalid => exact pure trivial
  | finished => exact pure trivial
  | endless => exact pure trivial

/-! ### The calls -/

theorem reading_lookup (dir : Node) (name : List Byte) (memory : Bool) :
    (reading v₀ fun _ => True).Safe (lookup dir name memory) := by
  apply (reading_dirLookup _ _).option
  · exact pure trivial
  intro number
  apply (safe_vfsInode trivial number memory).bind
  intro r
  cases r <;> exact pure trivial

theorem reading_getattr (node : Node) : (reading v₀ fun _ => True).Safe (getattr node) := by
  apply (safe_load _ _).bind
  intro size
  apply (safe_load _ _).bind
  intro sectors
  apply (safe_load _ _).bind
  intro mode
  exact pure trivial

theorem reading_read (node : Node) (position length : ℕ) :
    (reading v₀ fun _ => True).Safe (read node position length) := by
  apply (reading_fileRead _ _ _).bind
  intro bytes
  exact pure trivial

theorem reading_iterate (dir : Node) (index : ℕ) :
    (reading v₀ fun _ => True).Safe (iterate dir index) := by
  apply (reading_dirReadOne _ _).option
  · exact pure trivial
  intro p
  exact pure trivial

theorem reads_of_reading {p : M α} (h : (reading v fun _ => True).Safe p) : Reads v (p v).2 :=
  (h v (Reads.refl v)).1

theorem yields_of_reading {p : M α} (h : (reading v fun _ => False).Safe p) :
    ∃ a v', Yields p v a v' ∧ Reads v v' := by
  obtain ⟨hreads,_,herror⟩ := h v (Reads.refl v)
  cases hp : (p v).1 with
  | ok a => exact ⟨a,_,⟨hp,rfl⟩,hreads⟩
  | error e => exact (herror e hp).elim

end GaiaKernel.Ext2
