import GaiaKernel.Errno
import GaiaKernel.Memory.Word

/-! # Reading a directory in records

`sys_getdents64` over a directory that does not change: what `vfs_read_dir_one` answers is a
function of the cookie. An entry whose record does not fit is left for the next call; a buffer
that does not hold even the next record gets 0, as at the end.
-/
namespace GaiaKernel.Getdents
open List

def vfsNameMax : ℕ := 255

structure Dirent where
  name : List Byte
  inode : ℕ
  directory : Bool
  short : name.length ≤ vfsNameMax

/-- What `vfs_read_dir_one` answers, with the cookie it leaves: 0 at the end or an error. -/
inductive Answer where
  | entry (e : Dirent) (cookie : ℕ)
  | stop (rc : ℤ) (cookie : ℕ)

structure Directory where
  readOne : ℕ → Answer
  stays : ∀ {c rc c'}, readOne c = .stop rc c' → readOne c' = .stop rc c'

def mountPhase : ℕ := 2 ^ 31
abbrev MountName := {name : List Byte // name.length ≤ vfsNameMax}

/-- A directory that does not change: what its backend answers, below the cookies of the mount
phase, and the names of the mounts right below it. -/
structure Backing where
  iterate : ℕ → Answer
  hasChild : List Byte → Bool
  mounts : List MountName
  eof : ∀ {c rc c'}, c < mountPhase → 0 ≤ rc → iterate c = .stop rc c' →
    c' < mountPhase ∧ iterate c' = .stop rc c'

namespace Backing
variable (b : Backing)

/-- The loop of `virtual_mount_entry`, from the mount with this index on. -/
def mountEntry : List MountName → ℕ → Answer
  | [], i => .stop 0 (mountPhase + i)
  | name :: names, i =>
    if b.hasChild name then mountEntry names (i + 1)
    else .entry ⟨name,0,true,name.2⟩ (mountPhase + (i + 1))

def virtualMountEntry (i : ℕ) : Answer := b.mountEntry (b.mounts.drop i) i

def readDirOneLocked (index : ℕ) : Answer :=
  if mountPhase ≤ index then b.virtualMountEntry (index - mountPhase)
  else
    match b.iterate index with
    | .entry e next =>
      .entry { e with directory := e.directory || b.mounts.any (·.1 = e.name) } next
    | .stop rc backendEof =>
      if rc < 0 then .stop rc backendEof
      else
        match b.virtualMountEntry 0 with
        | .stop _ _ => .stop rc backendEof
        | result => result

def vfsReadDirOne (index : ℕ) : Answer :=
  match b.readDirOneLocked index with
  | .stop rc next => .stop rc (if rc < 0 then index else next)
  | result => result

variable {b} {c c' : ℕ} {rc : ℤ}

theorem mountEntry_stop {names : List MountName} {i : ℕ}
    (h : b.mountEntry names i = .stop rc c') : rc = 0 ∧ c' = mountPhase + (i + names.length) := by
  induction names generalizing i with
  | nil => cases h; exact ⟨rfl,rfl⟩
  | cons name names ih =>
    rw [mountEntry] at h
    split_ifs at h
    rw [length_cons,Nat.add_comm names.length,← Nat.add_assoc i]
    exact ih h

theorem readDirOneLocked_stop (hrc : 0 ≤ rc) (h : b.readDirOneLocked c = .stop rc c') :
    b.readDirOneLocked c' = .stop rc c' := by
  unfold readDirOneLocked at h
  split_ifs at h with hphase
  · -- the index is past the last mount
    obtain ⟨hzero,hend⟩ := mountEntry_stop h
    have hnil : b.mounts.drop (c - mountPhase + (b.mounts.drop (c - mountPhase)).length) = [] := by
      rw [drop_eq_nil_iff,length_drop]
      omega
    rw [hzero,hend,readDirOneLocked,if_pos (Nat.le_add_right ..),Nat.add_sub_cancel_left,
      virtualMountEntry,hnil,mountEntry]
  · cases hiter : b.iterate c with
    | entry e next => rw [hiter] at h; cases h
    | stop rc' eof =>
      rw [hiter] at h
      dsimp only at h
      split_ifs at h with hneg
      · cases h
        omega
      cases hmount : b.virtualMountEntry 0 with
      | entry e next => rw [hmount] at h; cases h
      | stop code last =>
        rw [hmount] at h
        cases h
        obtain ⟨hlt,hstay⟩ := b.eof (not_le.mp hphase) hrc hiter
        rw [readDirOneLocked,if_neg (not_le.mpr hlt),hstay]
        dsimp only
        rw [if_neg hneg,hmount]

/-- The cookie of an error is the one of the call, and the cookie at the end stays there. -/
theorem vfsReadDirOne_stop (h : b.vfsReadDirOne c = .stop rc c') :
    b.vfsReadDirOne c' = .stop rc c' := by
  have hcall := h
  unfold vfsReadDirOne at h
  cases hone : b.readDirOneLocked c with
  | entry e next => rw [hone] at h; cases h
  | stop rc' next =>
    rw [hone] at h
    cases h
    split_ifs with hneg
    · rwa [if_pos hneg] at hcall
    · rw [vfsReadDirOne,readDirOneLocked_stop (not_lt.mp hneg) hone]
      dsimp only
      rw [if_neg hneg]

variable (b) in
def directory : Directory := ⟨b.vfsReadDirOne,vfsReadDirOne_stop⟩

end Backing

structure Record where
  pos : ℕ
  dIno : ℕ
  dOff : ℕ
  dReclen : ℕ
  isDir : Bool
  dName : List Byte

def alignUpSize (value alignment : ℕ) : ℕ := (value + alignment - 1) / alignment * alignment

def sizeofDirent64 : ℕ := 24
def offsetofName : ℕ := 19
def recordLength (e : Dirent) : ℕ := alignUpSize (offsetofName + e.name.length + 1) 8

def record (pos cookie : ℕ) (e : Dirent) : Record where
  pos := pos
  dIno := if e.inode ≠ 0 then e.inode else 1
  dOff := cookie
  dReclen := recordLength e % 2 ^ 16
  isDir := e.directory
  dName := e.name ++ [0#8]

variable (dir : Directory) (len : ℕ)

/-- The loop of `sys_getdents64`, for at most so many rounds: the records, the result and the
cookie. -/
def fill : ℕ → ℕ → ℕ → List Record × ℤ × ℕ
  | 0, cookie, written => ([], written, cookie)
  | n + 1, cookie, written =>
    match dir.readOne cookie with
    | .stop rc cookie' => ([], if rc < 0 ∧ written = 0 then rc else written, cookie')
    | .entry e cookie' =>
      if recordLength e > len - written then ([], written, cookie)
      else
        let (records, result) := fill n cookie' (written + recordLength e)
        (record written cookie' e :: records, result)

def sysGetdents64 (cookie : ℕ) : List Record × ℤ × ℕ :=
  if len < sizeofDirent64 + 2 then ([], -EINVAL, cookie) else fill dir len (len + 1) cookie 0

/-- The entries of the directory from a cookie on. -/
inductive Lists : ℕ → List Dirent → Prop
  | stop {c c' : ℕ} {rc : ℤ} : dir.readOne c = .stop rc c' → Lists c []
  | entry {c c' : ℕ} {e : Dirent} {es : List Dirent} :
      dir.readOne c = .entry e c' → Lists c' es → Lists c (e :: es)

/-- The entries of a listing whose records fit in so many bytes, and the others. -/
def fitting : ℕ → List Dirent → List Dirent × List Dirent
  | _, [] => ([], [])
  | room, e :: es =>
    if recordLength e > room then ([], e :: es)
    else ((e :: (fitting (room - recordLength e) es).1), (fitting (room - recordLength e) es).2)

def Record.Of (r : Record) (e : Dirent) : Prop :=
  r.dName = e.name ++ [0#8] ∧ r.isDir = e.directory ∧ (e.inode ≠ 0 → r.dIno = e.inode)

/-- The records follow each other from `pos` on, whole and aligned, in the buffer. -/
def Laid : ℕ → List Record → Prop
  | _, [] => True
  | pos, r :: rs => r.pos = pos ∧ 8 ∣ pos ∧ 8 ∣ r.dReclen ∧
      offsetofName + r.dName.length ≤ r.dReclen ∧ pos + r.dReclen ≤ len ∧
      Laid (pos + r.dReclen) rs

/-- Calls with these buffers return the entries in order, each once, and 0 only at the end. -/
def Returned : ℕ → List Dirent → List ℕ → Prop
  | _, _, [] => True
  | cookie, es, len :: lens =>
    ∃ now later, es = now ++ later ∧ Forall₂ Record.Of (sysGetdents64 dir len cookie).1 now ∧
      Laid len 0 (sysGetdents64 dir len cookie).1 ∧
      ((sysGetdents64 dir len cookie).2.1 = 0 → later = []) ∧
      Returned (sysGetdents64 dir len cookie).2.2 later lens

def Roomy : List Dirent → List ℕ → Prop
  | _, [] => True
  | es, len :: lens => (∀ e ∈ es.head?, recordLength e ≤ len) ∧ Roomy (fitting len es).2 lens

variable {dir len} {es : List Dirent}

theorem recordLength_spec (e : Dirent) : 8 ∣ recordLength e ∧ recordLength e < 2 ^ 16 ∧
    offsetofName + e.name.length + 1 ≤ recordLength e := by
  have hshort := e.short
  unfold recordLength alignUpSize offsetofName vfsNameMax at *
  omega

theorem fitting_append (room : ℕ) (es : List Dirent) :
    (fitting room es).1 ++ (fitting room es).2 = es := by
  induction es generalizing room with
  | nil => rfl
  | cons e es ih =>
    rw [fitting]
    split_ifs
    · rfl
    · exact congrArg (e :: ·) (ih _)

theorem fill_spec {n cookie written : ℕ} (h : Lists dir cookie es) (hw : 8 ∣ written)
    (hle : written ≤ len) (hn : len - written < n) :
    Forall₂ Record.Of (fill dir len n cookie written).1 (fitting (len - written) es).1 ∧
      Laid len written (fill dir len n cookie written).1 ∧
      Lists dir (fill dir len n cookie written).2.2 (fitting (len - written) es).2 ∧
      (0 < written → 0 < (fill dir len n cookie written).2.1) := by
  induction n generalizing cookie written es with
  | zero => omega
  | succ n ih =>
    rw [fill]
    cases h with
    | stop hstop =>
      rw [hstop]
      refine ⟨.nil,trivial,.stop (dir.stays hstop),fun hpos => ?_⟩
      dsimp only
      omega
    | @entry _ c' e es hentry hes =>
      obtain ⟨hdvd,hlt,hsize⟩ := recordLength_spec e
      rw [hentry,fitting]
      dsimp only
      split_ifs with hroom
      · exact ⟨.nil,trivial,.entry hentry hes,fun hpos => Int.natCast_pos.mpr hpos⟩
      · obtain ⟨hof,hlaid,hrest,hpos⟩ :=
          @ih es c' (written + recordLength e) hes (by omega) (by omega) (by omega)
        rw [Nat.sub_add_eq] at hof hrest
        refine ⟨.cons ⟨rfl,rfl,fun h0 => if_pos h0⟩ hof,⟨rfl,hw,?_⟩,hrest,fun _ => hpos (by omega)⟩
        simp only [record,Nat.mod_eq_of_lt hlt,length_append,length_singleton]
        exact ⟨hdvd,by omega,by omega,hlaid⟩

/-- The call returns 0 before the end exactly if the buffer does not hold the next record. -/
theorem fill_zero_iff {n cookie : ℕ} (h : Lists dir cookie es) (hn : len < n) :
    ((fill dir len n cookie 0).2.1 = 0 → (fitting len es).2 = []) ↔
      ∀ e ∈ es.head?, recordLength e ≤ len := by
  obtain ⟨n,rfl⟩ := Nat.exists_eq_add_of_le' (Nat.zero_lt_of_lt hn)
  cases h with
  | stop => simp [fitting]
  | @entry _ _ e _ hentry hes =>
    obtain ⟨hdvd,-,hsize⟩ := recordLength_spec e
    rw [fill,hentry,fitting,Nat.sub_zero]
    dsimp only
    split_ifs with hroom
    · simpa using hroom
    · obtain ⟨-,-,-,hpos⟩ := @fill_spec dir len _ n _ (0 + recordLength e) hes (by omega) (by omega)
        (by omega)
      exact iff_of_true (fun h0 => absurd h0 (hpos (by omega)).ne') (by simpa using hroom)

/-- The entries are returned in order, each once, and 0 only after the last, exactly if every
buffer holds the record of the next entry. -/
theorem getdents_complete_iff {cookie : ℕ} {lens : List ℕ} (h : Lists dir cookie es)
    (hlens : ∀ len ∈ lens, sizeofDirent64 + 2 ≤ len) :
    Returned dir cookie es lens ↔ Roomy es lens := by
  induction lens generalizing cookie es with
  | nil => exact Iff.rfl
  | cons len lens ih =>
    have hcall : sysGetdents64 dir len cookie = fill dir len (len + 1) cookie 0 :=
      if_neg (not_lt.mpr (hlens len (mem_cons_self ..)))
    have hspec := fill_spec (n := len + 1) h (Nat.dvd_zero 8) (Nat.zero_le len) (Nat.lt_succ_self _)
    obtain ⟨hof,hlaid,hrest,-⟩ := hspec
    rw [Nat.sub_zero] at hof hrest
    have hlater := ih hrest fun l hl => hlens l (mem_cons_of_mem _ hl)
    have hsplit := fitting_append len es
    rw [Returned,Roomy,hcall,← fill_zero_iff h (Nat.lt_succ_self len),← hlater]
    constructor
    · rintro ⟨now,later,heq,hof',-,hzero,hret⟩
      have hlen := hof.length_eq.symm.trans hof'.length_eq
      obtain ⟨rfl,rfl⟩ := append_inj (hsplit.trans heq) hlen
      exact ⟨hzero,hret⟩
    · rintro ⟨hzero,hret⟩
      exact ⟨_,_,hsplit.symm,hof,hlaid,hzero,hret⟩

def hello : Dirent := ⟨[104#8, 101#8, 108#8, 108#8, 111#8],2,false,by decide⟩

def world : Dirent := ⟨[119#8, 111#8, 114#8, 108#8, 100#8],0,true,by decide⟩

/-- A directory with one file, and these mounts below it. -/
def helloBacking (mounts : List MountName) : Backing where
  iterate c := if c = 0 then .entry hello 1 else .stop 0 c
  hasChild name := name = hello.name
  mounts := mounts
  eof := by
    intro c rc c' hc _ h
    split_ifs at h with h0
    cases h
    exact ⟨hc,if_neg h0⟩

def twoEntries : Directory := (helloBacking [⟨world.name,world.short⟩]).directory

theorem lists_twoEntries : Lists twoEntries 0 [hello, world] :=
  .entry rfl (.entry rfl (.stop (c := mountPhase + 1) rfl))

/-- The second entry has no room in the first buffer and is returned by the second call. -/
theorem getdents_complete_twoEntries :
    ((sysGetdents64 twoEntries 48 0).1.map Record.dName).length = 1 ∧
      Returned twoEntries 0 [hello, world] [48, 32, 26] :=
  ⟨by decide,(getdents_complete_iff lists_twoEntries (by decide)).mpr
    ⟨by decide,by decide,by decide,trivial⟩⟩

def oneEntry : Directory := (helloBacking []).directory

/-- A buffer of 26 bytes is accepted, and the call returns 0 though an entry is left. -/
theorem getdents_zero_early : (sysGetdents64 oneEntry 26 0).2.1 = 0 ∧
    ¬ Returned oneEntry 0 [hello] [26] := by
  refine ⟨by decide,?_⟩
  rintro ⟨now,later,heq,hof,-,hzero,-⟩
  obtain rfl := hzero (by decide)
  have hlen := hof.length_eq
  rw [append_nil] at heq
  exact absurd (heq ▸ hlen) (by decide)

end GaiaKernel.Getdents
