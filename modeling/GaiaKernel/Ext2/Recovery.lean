import GaiaKernel.Errno
import GaiaKernel.Ext2.Reading

/-! # Recovery from device errors

`io_failed` of fs/ext2/ext2_io.c is set by a page that cannot be read, a range outside the image and
a failed writeback; only a writeback that succeeds clears it, and `ext2_sync` writes nothing back
when no block is dirty. A volume recovers exactly if there is something to write back.
-/
namespace GaiaKernel.Ext2
open Bytes Fallible Prog Contract Trace Option

namespace Session

/-- What can happen to a mounted volume: a call of the VFS, or a sync of the volume by
`vfs_file_sync` or `vfs_sync_all`. -/
inductive Event where
  | op (op : Op)
  | sync (answers : Answers)

def event (m : Session) : Event → Session
  | .op op => m.step op
  | .sync answers => { m with volume := (ext2SyncVolume answers m.volume).2 }

/-- `vfs_unmount` on the path of the mount: `nested` says whether there is a mount below it. The
volume stays mounted unless the result is 0. -/
def vfsUnmount (m : Session) (openFiles : ℕ) (nested : Bool) (rootReferences : ℕ)
    (answers : Answers) : ℤ × Option Session :=
  if openFiles ≠ 0 ∨ nested then (-EBUSY, some m)
  else if m.nodes.length ≠ 1 ∨ rootReferences ≠ 1 then (-EBUSY, some m)
  else
    let r := ext2SyncVolume answers m.volume
    if r.1 = .ok 0 then (0, none) else (- EIO, some { m with volume := r.2 })

/-- With a device that obeys, a sync succeeds; the calls that change the volume then get past the
check of `io_failed`, and an unmount does not fail for want of a sync. -/
structure Recovers (m : Session) : Prop where
  synced : (ext2SyncVolume willing m.volume).1 = .ok 0
  accepted : ∀ p, unlessFailed p (ext2SyncVolume willing m.volume).2 =
    p (ext2SyncVolume willing m.volume).2
  unmounts : ∀ openFiles nested rootReferences,
    (m.vfsUnmount openFiles nested rootReferences willing).1 ≠ - EIO

end Session

open Session

def AnyDirty (fs : Fs) : Prop :=
  ∃ dirty, fs.dirtyBlocks = some dirty ∧ ∃ n < (fs.blocksCount + 7) / 8 * 8, dirty n = true

/-! ### The sync of a volume -/

theorem ext2SyncVolume_yields (answers : Answers) (v : Volume) :
    Yields (ext2SyncVolume answers) v (ext2Sync v.toFs answers).2.2
      { v with toFs := (ext2Sync v.toFs answers).2.1 } := ⟨rfl,rfl⟩

theorem writeDirty_willing (fs : Fs) (dirty : ℕ → Bool) (numbers : List ℕ) :
    (fs.writeDirty dirty (fun _ => true) numbers).2 = true := by
  induction numbers with
  | nil => rfl
  | cons number rest ih =>
    simp only [Fs.writeDirty,if_true]
    split_ifs
    · exact ih
    · exact ih

theorem ext2Sync_willing {fs : Fs} (h : AnyDirty fs) :
    (ext2Sync fs willing).2.2 = 0 ∧ (ext2Sync fs willing).2.1.ioFailed = false := by
  obtain ⟨dirty,hdirty,hsome⟩ := h
  have hsome' : ∃ n < (fs.blocksCount + 7) / 8 * 8, dirty n := hsome
  simp only [ext2Sync,hdirty,willing,writeDirty_willing]
  rw [if_neg (not_not.mpr hsome')]
  simp

theorem ext2Sync_clean {fs : Fs} (h : ¬ AnyDirty fs) (answers : Answers) :
    (ext2Sync fs answers).2.1 = fs ∧ (fs.ioFailed = false → (ext2Sync fs answers).2.2 = 0) := by
  cases hdirty : fs.dirtyBlocks with
  | none => simp [ext2Sync,hdirty]
  | some dirty =>
    rw [ext2Sync_idle hdirty fun hc => h ⟨dirty,hdirty,hc⟩]
    simp +contextual

variable {m : Session} {v : Volume}

theorem unlessFailed_of_clear (h : v.ioFailed = false) (p : M Reply) : unlessFailed p v = p v := by
  simp only [unlessFailed,look,Bind.bind,h]
  rfl

/-- A volume recovers once the device does exactly if no failure is on record or some block is
dirty. -/
theorem recovers_iff (m : Session) :
    Recovers m ↔ (m.volume.ioFailed = true → AnyDirty m.volume.toFs) := by
  obtain ⟨hret,hvol⟩ := ext2SyncVolume_yields willing m.volume
  constructor
  · intro h hio
    by_contra hclean
    have hfs := (ext2Sync_clean hclean willing).1
    -- The flag stays set, so that every call that changes the volume is turned away.
    have hturned := h.accepted (pure (.status 0))
    rw [hvol,hfs] at hturned
    have hrefused : unlessFailed (pure (.status 0)) m.volume = (.ok refused, m.volume) := by
      simp only [unlessFailed,look,Bind.bind,hio]
      rfl
    have := congrArg Prod.fst (hrefused.symm.trans hturned)
    exact absurd (Except.ok.inj this) (by decide)
  · intro h
    have hsync : (ext2Sync m.volume.toFs willing).2.2 = 0 ∧
        (ext2Sync m.volume.toFs willing).2.1.ioFailed = false := by
      by_cases hdirty : AnyDirty m.volume.toFs
      · exact ext2Sync_willing hdirty
      · have hio : m.volume.ioFailed = false := by
          by_contra hc
          exact hdirty (h (by simpa using hc))
        obtain ⟨hfs,hzero⟩ := ext2Sync_clean hdirty willing
        exact ⟨hzero hio,(congrArg Fs.ioFailed hfs).trans hio⟩
    have hok : (ext2SyncVolume willing m.volume).1 = .ok 0 := by rw [hret,hsync.1]
    refine ⟨hok,fun p => ?_,fun openFiles nested references => ?_⟩
    · apply unlessFailed_of_clear
      rw [hvol]
      exact hsync.2
    · have hbusy : -EBUSY ≠ - EIO := by decide
      unfold vfsUnmount
      split_ifs
      · exact hbusy
      · exact hbusy
      · simp only [if_pos hok]
        decide

/-! ### Failures that stay -/

def Stuck (v : Volume) : Prop := v.ioFailed = true ∧ v.dirtyBlocks = some fun _ => false

section
variable (h : Stuck v)
include h

theorem Stuck.not_anyDirty : ¬ AnyDirty v.toFs := by
  rintro ⟨dirty,hdirty,n,_,hn⟩
  rw [h.2] at hdirty
  obtain rfl := some.inj hdirty
  cases hn

theorem Stuck.reads {v' : Volume} (hr : Reads v v') : Stuck v' :=
  ⟨hr.ioFailed h.1,hr.dirtyBlocks.trans h.2⟩

theorem Stuck.sync (answers : Answers) : Stuck (ext2SyncVolume answers v).2 := by
  rw [(ext2SyncVolume_yields answers v).2,(ext2Sync_clean h.not_anyDirty answers).1]
  exact h

theorem Stuck.unlessFailed (p : M Reply) : Stuck (unlessFailed p v).2 := by
  have hturned : Yields (Ext2.unlessFailed p) v refused v := by
    refine Yields.look.bind ?_
    rw [if_pos h.1]
    exact ⟨rfl,rfl⟩
  rw [hturned.2]
  exact h

theorem Stuck.write (node : Node) (position : ℕ) (bytes : List Byte)
    (answers : Answers) : Stuck (write node position bytes answers v).2 := by
  have hturned : Yields (Ext2.write node position bytes answers) v (.status 0) v := by
    refine Yields.look.bind ?_
    rw [if_pos h.1]
    exact ⟨rfl,rfl⟩
  rw [hturned.2]
  exact h

end

def Op.onlyReads : Op → Bool
  | .lookup .. | .getattr .. | .read .. | .iterate .. | .forget .. => true
  | _ => false

theorem step_reads (m : Session) {op : Op} (h : op.onlyReads = true) :
    Reads m.volume (m.step op).volume := by
  unfold step
  cases hp : m.call op with
  | none =>
    dsimp only
    split <;> exact Reads.refl _
  | some p =>
    cases op with
    | lookup i name memory =>
      obtain ⟨n,_,rfl⟩ := map_eq_some_iff.mp hp
      exact reads_of_reading (reading_lookup n name memory)
    | getattr i =>
      obtain ⟨n,_,rfl⟩ := map_eq_some_iff.mp hp
      exact reads_of_reading (reading_getattr n)
    | read i position length =>
      obtain ⟨n,_,rfl⟩ := map_eq_some_iff.mp hp
      exact reads_of_reading (reading_read n position length)
    | iterate i index =>
      obtain ⟨n,_,rfl⟩ := map_eq_some_iff.mp hp
      exact reads_of_reading (reading_iterate n index)
    | forget i => cases hp
    | setmode | create | unlink | mkdir | rmdir | truncate | write => cases h

theorem run_reads (m : Session) {ops : List Op} (h : ∀ op ∈ ops, op.onlyReads = true) :
    Reads m.volume (run event m (ops.map .op)).volume := by
  induction ops generalizing m with
  | nil => exact Reads.refl _
  | cons op ops ih =>
    have hstep := step_reads m (h op List.mem_cons_self)
    exact hstep.trans (ih (m.step op) fun o ho => h o (List.mem_cons_of_mem op ho))

theorem Stuck.step (h : Stuck m.volume) (op : Op) : Stuck (m.step op).volume := by
  cases hreads : op.onlyReads with
  | true => exact h.reads (step_reads m hreads)
  | false =>
    unfold Session.step
    cases hp : m.call op with
    | none =>
      dsimp only
      split <;> exact h
    | some p =>
      cases op with
      | write i position bytes answers =>
        obtain ⟨n,_,rfl⟩ := map_eq_some_iff.mp hp
        exact h.write n position bytes answers
      | setmode | create | unlink | mkdir | rmdir | truncate =>
        obtain ⟨n,_,rfl⟩ := map_eq_some_iff.mp hp
        exact h.unlessFailed _
      | lookup | getattr | read | iterate | forget => cases hreads

theorem Stuck.event (h : Stuck m.volume) (e : Event) : Stuck (m.event e).volume := by
  cases e with
  | sync answers => exact h.sync answers
  | op op => exact h.step op

theorem stuck_forever (h : Stuck m.volume) (events : List Event) :
    ¬ Recovers (run event m events) := by
  have hstuck : Stuck (run event m events).volume :=
    invariant_run (I := fun m : Session => Stuck m.volume) (fun m e hm => hm.event e) h events
  intro hc
  exact hstuck.not_anyDirty ((recovers_iff _).mp hc hstuck.1)

/-! ### A read that fails once -/

theorem mountRoot_clean {image : ℕ → Byte} {size : ℕ} {lazy : Option Lazy} {memory : Bool}
    (h : mountRoot image size lazy true memory = some m) :
    m.volume.dirtyBlocks = some fun _ => false := by
  unfold mountRoot at h
  cases hv : mount image size lazy true with
  | none =>
    rw [hv] at h
    cases h
  | some v =>
    have hclean : v.dirtyBlocks = some fun _ => false := by
      unfold mount at hv
      split at hv
      · obtain rfl := some.inj hv
        rfl
      · cases hv
    rw [hv] at h
    have hreads := reads_of_reading (v := v) (safe_vfsInode trivial 2 memory)
    dsimp only at h
    split at h
    case h_1 root v' l hroot =>
      obtain rfl := some.inj h
      rw [hroot] at hreads
      exact hreads.dirtyBlocks.trans hclean
    case h_2 => cases h

/-- The volume of one file with an `A` in it, on a device that fails one request: the third
page asked for. -/
def flakyDevice : Lazy where
  loaded := fun _ => false
  disk := blit (smallImage 8) 8192 [0x41#8]
  answers := fun n => n != 2
  asked := 0

def flakySession : Session :=
  (mountRoot (fun _ => 0#8) 9216 (some flakyDevice) true true).getD
    ⟨rawVolume (fun _ => 0#8) 9216 none,[]⟩

theorem flakySession_mounted :
    mountRoot (fun _ => 0#8) 9216 (some flakyDevice) true true = some flakySession := by
  obtain ⟨m,hm⟩ := isSome_iff_exists.mp (show
    (mountRoot (fun _ => 0#8) 9216 (some flakyDevice) true true).isSome by decide +kernel)
  rw [flakySession,hm,getD_some]

def readFile : List Op := [.lookup 0 [0x66#8] true, .read 1 0 1]

/-- One page that cannot be read in, with nothing to write back: no sync succeeds any more, the
volume cannot be unmounted, and nothing that follows changes that. -/
theorem read_error_is_final :
    mountRoot (fun _ => 0#8) 9216 (some flakyDevice) true true = some flakySession ∧
      (ext2SyncVolume willing (run event flakySession (readFile.map .op)).volume).1 = .ok (-1) ∧
      ((run event flakySession ((readFile ++ [Op.forget 1]).map .op)).vfsUnmount
        0 false 1 willing).1 = - EIO ∧
      ∀ events, ¬ Recovers (run event (run event flakySession (readFile.map .op)) events) := by
  have hreads := run_reads flakySession (show ∀ op ∈ readFile, op.onlyReads = true by decide)
  have hclean := hreads.dirtyBlocks.trans (mountRoot_clean flakySession_mounted)
  have hio : (run event flakySession (readFile.map .op)).volume.ioFailed = true := by decide +kernel
  refine ⟨flakySession_mounted,by decide +kernel,by decide +kernel,?_⟩
  exact stuck_forever ⟨hio,hclean⟩

end GaiaKernel.Ext2
