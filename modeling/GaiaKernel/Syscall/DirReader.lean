import Mathlib.Tactic.IntervalCases
import GaiaKernel.Syscall.Handlers
import GaiaKernel.Syscall.RangeAccess

/-! # The directory reader and its cookie

`vfs_read_dir` keeps its position in user memory: every round reads the cookie through the
index pointer and stores the next one there. Once the four bytes are accessible a load finds
what the last store left, so a round's outcome is a function of the cookie (`Vfs.peek`).
-/
namespace GaiaKernel.Syscall
open Exec BitVec Function List
open BitVec (ofNat)
variable {Dir : Type} {env : Env Dir} {lowPd r : U64} {ph ph' : Phys} {addr index buf : U64}
  {arg n : ℕ} {s s' : Core Kern} {P : ℕ → Prop} {dir : Dir}

def byteAt (c : Caller) (s : Core Kern) (addr : U64) : Byte :=
  s.data (s.phys.vmmTranslateIn c.root addr)

def wordAt (c : Caller) (s : Core Kern) (addr : U64) : U32 :=
  ofLe 32 ((range 4).map fun i => byteAt c s (addr + BitVec.ofNat 64 i))

variable {bs : List Byte} {length written : ℕ} {st : Bool}
section
variable (h : Accessible env.vm s.phys addr st)
include h

theorem touch_of_accessible {st' : Bool} :
    touch env.toCaller arg addr st' s = some (s.phys.vmmTranslateIn env.root addr,
      { s with touched := ⟨arg,addr,st',s.phys⟩ :: s.touched }) := by
  simp [touch,h.pageIn st',setPhys_self]

theorem loadByte_of_accessible : Returns (loadByte env.toCaller arg addr) s fun b s' =>
      b = byteAt env.toCaller s addr ∧ s'.phys = s.phys ∧ s'.data = s.data := by
  unfold loadByte
  simp only [returns_bind,returns_get,returns_pure]
  exact ⟨_,_,touch_of_accessible h,rfl,rfl,rfl⟩

theorem storeByte_of_accessible (b : Byte) :
    Returns (storeByte env.toCaller arg addr b) s fun _ s' => s'.phys = s.phys ∧
      s'.data = update s.data (s.phys.vmmTranslateIn env.root addr) b := by
  unfold storeByte
  simp only [returns_bind,returns_modify]
  exact ⟨_,_,touch_of_accessible h,rfl,rfl⟩

end

theorem byteAt_congr (hp : s'.phys = s.phys) (hd : s'.data = s.data) (addr : U64) :
    byteAt env.toCaller s' addr = byteAt env.toCaller s addr := by
  unfold byteAt
  rw [hp,hd]

theorem loadBytes_of_accessible
    (h : ∀ i < n, Accessible env.vm s.phys (addr + ofNat 64 i) st) :
    Returns (loadBytes env.toCaller arg n addr) s fun bs s' =>
      bs = (range n).map (fun i => byteAt env.toCaller s (addr + ofNat 64 i)) ∧
        s'.phys = s.phys ∧ s'.data = s.data := by
  induction n generalizing addr s with
  | zero => simp [loadBytes]
  | succ n ih =>
    simp only [loadBytes,returns_bind,returns_pure]
    have h0 : Accessible env.vm s.phys addr st := by simpa using h 0 (Nat.succ_pos n)
    apply (loadByte_of_accessible h0).mono
    rintro b s1 ⟨rfl,hp,hd⟩
    have h1 : ∀ i < n, Accessible env.vm s1.phys (addr + 1 + ofNat 64 i) st := by
      intro i hi
      rw [add_one_add_ofNat,hp]
      exact h (i + 1) (by omega)
    apply (ih h1).mono
    rintro bs s2 ⟨rfl,hp',hd'⟩
    refine ⟨?_,hp'.trans hp,hd'.trans hd⟩
    rw [range_succ_eq_map,map_cons,map_map]
    congr 1
    · simp
    · apply map_congr_left
      intro i _
      rw [byteAt_congr hp hd,add_one_add_ofNat]
      rfl

def writeBytes (ph : Phys) (root : U64) : List Byte → U64 → (U64 → Byte) → U64 → Byte
  | [], _, d => d
  | b :: bs, addr, d =>
    writeBytes ph root bs (addr + 1) (update d (ph.vmmTranslateIn root addr) b)

theorem storeBytes_of_accessible
    (h : ∀ i < bs.length, Accessible env.vm s.phys (addr + ofNat 64 i) st) :
    Returns (storeBytes env.toCaller arg bs addr) s fun _ s' =>
      s'.phys = s.phys ∧ s'.data = writeBytes s.phys env.root bs addr s.data := by
  induction bs generalizing addr s with
  | nil => simp [storeBytes,writeBytes]
  | cons b bs ih =>
    simp only [storeBytes,returns_bind]
    have h0 : Accessible env.vm s.phys addr st := by simpa using h 0 (by simp)
    apply (storeByte_of_accessible h0 b).mono
    rintro _ s1 ⟨hp,hd⟩
    have h1 : ∀ i < bs.length, Accessible env.vm s1.phys (addr + 1 + ofNat 64 i) st := by
      intro i hi
      rw [add_one_add_ofNat,hp]
      exact h (i + 1) (by simpa using hi)
    apply (ih h1).mono
    rintro _ s2 ⟨hp',hd'⟩
    refine ⟨hp'.trans hp,?_⟩
    rw [hd',hp,hd]
    rfl

theorem translate_offset (h : Sound lowPd r env.vm ph) (ha : Accessible env.vm ph addr st) :
    (ph.vmmTranslateIn env.root addr).toNat % 4096 = addr.toNat % 4096 := by
  obtain ⟨own,hs⟩ := h
  obtain ⟨e,hl,_⟩ := ha.leafAt hs
  rw [Caller.root_eq hs.vmRoot,translate_of_leafAt hs.safe.tables hs.root hl,← and_4095_toNat,
    ← and_4095_toNat]
  congr 1
  apply eq_of_getLsbD_eq
  intro i hi
  have hmask : (vmmAddrMask.getLsbD i && (4095#64).getLsbD i) = false :=
    (by decide : ∀ j : Fin 64, (vmmAddrMask.getLsbD j && (4095#64).getLsbD j) = false) ⟨i,hi⟩
  simp only [tableOf,getLsbD_and,getLsbD_or]
  revert hmask
  cases vmmAddrMask.getLsbD i <;> cases (4095#64).getLsbD i <;> simp

theorem writeBytes_of_ne {root a : U64} {d : U64 → Byte}
    (h : ∀ i < bs.length, ph.vmmTranslateIn root (addr + ofNat 64 i) ≠ a) :
    writeBytes ph root bs addr d a = d a := by
  induction bs generalizing addr d with
  | nil => rfl
  | cons b bs ih =>
    unfold writeBytes
    rw [ih,update_of_ne]
    · simpa using (h 0 (by simp)).symm
    · intro i hi
      rw [add_one_add_ofNat]
      exact h (i + 1) (by simpa using hi)

theorem writeBytes_get {root : U64} (d : U64 → Byte) (hinj : ∀ i < bs.length, ∀ j < bs.length,
      ph.vmmTranslateIn root (addr + ofNat 64 i) =
        ph.vmmTranslateIn root (addr + ofNat 64 j) → i = j) : (range bs.length).map (fun i =>
      writeBytes ph root bs addr d (ph.vmmTranslateIn root (addr + ofNat 64 i))) = bs := by
  induction bs generalizing addr d with
  | nil => rfl
  | cons b bs ih =>
    rw [length_cons,range_succ_eq_map,map_cons,map_map]
    congr 1
    · unfold writeBytes
      rw [writeBytes_of_ne]
      · simp
      · intro i hi heq
        rw [add_one_add_ofNat] at heq
        exact absurd (hinj (i + 1) (by simpa using hi) 0 (by simp) heq) (by simp)
    · have hrest := @ih (addr + 1) (update d (ph.vmmTranslateIn root addr) b) ?_
      · refine Eq.trans (map_congr_left fun i _ => ?_) hrest
        simp only [comp_apply,Nat.succ_eq_add_one,← add_one_add_ofNat]
        rfl
      · intro i hi j hj heq
        rw [add_one_add_ofNat,add_one_add_ofNat] at heq
        have := hinj (i + 1) (by simpa using hi) (j + 1) (by simpa using hj) heq
        omega

theorem ofLe_le (w : U32) : ofLe 32 (le 4 w) = w := by
  apply eq_of_getLsbD_eq
  intro i hi
  simp only [le,List.range_succ,List.range_zero,List.nil_append,List.map_cons,
    List.map_nil,List.cons_append,ofLe,getLsbD_or,getLsbD_shiftLeft,
    getLsbD_setWidth,getLsbD_ushiftRight]
  interval_cases i <;> simp

def IndexReady (env : Env Dir) (index : U64) (ph : Phys) : Prop :=
  ∀ i < 4, Accessible env.vm ph (index + BitVec.ofNat 64 i) true

variable (hs : Sound lowPd r env.vm s.phys)
include hs
variable (hi : IndexReady env index s.phys)
include hi

theorem loadWord_ready
    (hP : P arg) : Returns (loadWord env arg index) s fun w s' => w = wordAt env.toCaller s index ∧
      s'.phys = s.phys ∧ s'.data = s.data ∧ Used lowPd r env.vm P s s' := by
  unfold loadWord
  simp only [returns_bind,returns_pure]
  have hr : Reaching lowPd r env.vm true 4 index s.phys s.phys := reaching_of_accessible hs hi
  apply ((loadBytes_of_accessible hi).inter (hr.loadBytes hP le_rfl)).mono
  rintro bs s' ⟨⟨rfl,hp,hd⟩,hu,_⟩
  exact ⟨rfl,hp,hd,hu⟩

omit hi in
omit hs in
theorem IndexReady.translate_inj (hs : Sound lowPd r env.vm ph) (hi : IndexReady env index ph) :
    ∀ i < 4, ∀ j < 4, ph.vmmTranslateIn env.root (index + ofNat 64 i) =
      ph.vmmTranslateIn env.root (index + ofNat 64 j) → i = j := by
  have hbase : index.toNat < 2 ^ 47 := by simpa [LowerHalf] using (hi 0 (by omega)).1
  have hadd : ∀ i < 4, (index + ofNat 64 i).toNat = index.toNat + i := by
    intro i hi4
    rw [toNat_add,toNat_ofNat]
    omega
  intro i hi4 j hj4 heq
  have h1 := translate_offset hs (hi i hi4)
  have h2 := translate_offset hs (hi j hj4)
  rw [heq,h2,hadd i hi4,hadd j hj4] at h1
  omega

theorem storeWord_ready (hP : P arg) (w : U32) :
    Returns (storeWord env arg index w) s fun _ s' => wordAt env.toCaller s' index = w ∧
      s'.phys = s.phys ∧ Used lowPd r env.vm P s s' := by
  have hlen : (le 4 w).length = 4 := by simp [le]
  have hr : Reaching lowPd r env.vm true 4 index s.phys s.phys := reaching_of_accessible hs hi
  apply ((storeBytes_of_accessible (by exact hi)).inter
    (hr.storeBytes hP (le_of_eq hlen))).mono
  rintro _ s' ⟨⟨hp,hd⟩,hu,_⟩
  refine ⟨?_,hp,hu⟩
  have hget := writeBytes_get s.data (by rw [hlen]; exact hi.translate_inj hs)
  unfold wordAt byteAt
  rw [hp,hd]
  exact (congrArg (ofLe 32) hget).trans (ofLe_le w)

theorem storeWords_ready
    (hP : P arg) (ws : List U32) : Returns (storeWords env arg index ws) s fun _ s' =>
      s'.phys = s.phys ∧ Used lowPd r env.vm P s s' := by
  induction ws generalizing s with
  | nil =>
    simp only [storeWords,returns_pure]
    exact ⟨trivial,Used.refl hs⟩
  | cons w ws ih =>
    simp only [storeWords,returns_bind]
    apply (storeWord_ready hs hi hP w).mono
    rintro _ s1 ⟨_,hp,hu⟩
    apply (ih hu.sound (hp ▸ hi)).mono
    rintro _ s2 ⟨hp',hu'⟩
    exact ⟨hp'.trans hp,hu.trans hu'⟩

omit hi in
omit hs in
def Vfs.peek (v : Vfs Dir) (dir : Dir) (cookie : U32) : Outcome :=
  if cookie &&& vfsReaddirMountPhase ≠ 0#32 then
    Outcome.ofMount (v.mountEntry dir (cookie &&& ~~~vfsReaddirMountPhase)).2
  else if !v.isDirectory dir then .error ENOTDIR
  else
    match v.iterate dir with
    | none => .error EIO
    | some read =>
      match (read cookie).2 with
      | none => .error EIO
      | some none =>
        Outcome.ofMount
          (v.mountEntry dir (vfsReaddirMountPhase &&& ~~~vfsReaddirMountPhase)).2
      | some (some d) => .entry (v.overlay dir d)

theorem virtualMountEntry_ready (hP : P arg) :
    Returns (virtualMountEntry env arg dir index) s fun o s' =>
      o = Outcome.ofMount (env.vfs.mountEntry dir
        (wordAt env.toCaller s index &&& ~~~vfsReaddirMountPhase)).2 ∧
      s'.phys = s.phys ∧ Used lowPd r env.vm P s s' := by
  unfold virtualMountEntry
  simp only [returns_bind,returns_pure]
  apply (loadWord_ready hs hi hP).mono
  rintro _ s1 ⟨rfl,hp,_,hu⟩
  apply (storeWord_ready hu.sound (hp ▸ hi) hP _).mono
  rintro _ s2 ⟨_,hp',hu'⟩
  exact ⟨rfl,hp'.trans hp,hu.trans hu'⟩

omit hi in
omit hs in
theorem wordAt_congr (env : Env Dir) (index : U64) (hp : s'.phys = s.phys) (hd : s'.data = s.data) :
    wordAt env.toCaller s' index = wordAt env.toCaller s index := by
  unfold wordAt
  simp [byteAt_congr hp hd]

theorem readDirOneLocked_ready (hP : P arg) :
    Returns (readDirOneLocked env arg dir index) s fun o s' =>
      o = env.vfs.peek dir (wordAt env.toCaller s index) ∧ s'.phys = s.phys ∧
        Used lowPd r env.vm P s s' := by
  unfold readDirOneLocked
  rw [returns_bind]
  apply (loadWord_ready hs hi hP).mono
  rintro _ s1 ⟨rfl,hp1,hd1,hu1⟩
  have hi1 : IndexReady env index s1.phys := hp1 ▸ hi
  have hw1 := wordAt_congr env index hp1 hd1
  generalize wordAt env.toCaller s index = w at hw1 ⊢
  unfold Vfs.peek
  by_cases hphase : w &&& vfsReaddirMountPhase ≠ 0#32
  · rw [if_pos hphase,if_pos hphase]
    apply (virtualMountEntry_ready hu1.sound hi1 hP).mono
    rintro o s2 ⟨rfl,hp2,hu2⟩
    exact ⟨by rw [hw1],hp2.trans hp1,hu1.trans hu2⟩
  rw [if_neg hphase,if_neg hphase,returns_bind]
  unfold iterate
  by_cases hdir : (!env.vfs.isDirectory dir) = true
  · rw [if_pos hdir,if_pos hdir]
    simp only [returns_pure]
    exact ⟨trivial,hp1,hu1⟩
  rw [if_neg hdir,if_neg hdir]
  cases env.vfs.iterate dir with
  | none =>
    simp only [returns_pure]
    exact ⟨trivial,hp1,hu1⟩
  | some read =>
    simp only [returns_bind,returns_pure]
    apply (loadWord_ready hu1.sound hi1 hP).mono
    rintro _ s2 ⟨rfl,hp2,_,hu2⟩
    rw [hw1]
    apply (storeWords_ready hu2.sound (hp2 ▸ hi1) hP _).mono
    rintro _ s3 ⟨hp3,hu3⟩
    have hp : s3.phys = s.phys := hp3.trans (hp2.trans hp1)
    have hu := (hu1.trans hu2).trans hu3
    rcases (read w).2 with _ | _ | d
    · simp only [returns_pure]
      exact ⟨trivial,hp,hu⟩
    · -- At the end of the backend's entries the mounts take over, from cookie 0 on.
      simp only [returns_bind]
      apply (loadWord_ready hu.sound (hp ▸ hi) hP).mono
      rintro eof s4 ⟨_,hp4,_,hu4⟩
      apply (storeWord_ready hu4.sound (hp4 ▸ hp ▸ hi) hP _).mono
      rintro _ s5 ⟨hw5,hp5,hu5⟩
      have hp5 : s5.phys = s.phys := hp5.trans (hp4.trans hp)
      apply (virtualMountEntry_ready hu5.sound (hp5 ▸ hi) hP).mono
      rintro o s6 ⟨rfl,hp6,hu6⟩
      have hu := ((hu.trans hu4).trans hu5).trans hu6
      have hp := hp6.trans hp5
      rw [hw5]
      cases (env.vfs.mountEntry dir (vfsReaddirMountPhase &&& ~~~vfsReaddirMountPhase)).2 with
      | some d =>
        simp only [Outcome.ofMount,returns_pure]
        exact ⟨trivial,hp,hu⟩
      | none =>
        simp only [Outcome.ofMount,returns_bind,returns_pure]
        apply (storeWord_ready hu.sound (hp ▸ hi) hP eof).mono
        rintro _ s7 ⟨_,hp7,hu7⟩
        exact ⟨trivial,hp7.trans hp,hu.trans hu7⟩
    · simp only [returns_pure]
      exact ⟨trivial,hp,hu⟩

omit hi
omit hs

theorem loadWord_reaching (h : Reaching lowPd r env.vm true 4 index s.phys ph') (hP : P arg) :
    Returns (loadWord env arg index) s fun _ s' =>
      IndexReady env index s'.phys ∧ s'.phys = ph' ∧ Used lowPd r env.vm P s s' := by
  unfold loadWord
  simp only [returns_bind,returns_pure]
  apply (h.loadBytes hP le_rfl).mono
  rintro _ s' ⟨hu,hall,hr⟩
  exact ⟨hall,hr.end_eq,hu⟩

theorem readDirLoop_reaching (dir : Dir) {ph1 : Phys}
    (hi : Reaching lowPd r env.vm true 4 index s.phys ph1) (hP : P arg) (hP' : P (arg + 1))
    (hb : Reaching lowPd r env.vm true (length - written) (buf + ofNat 64 written) ph1 ph') :
    Returns (readDirLoop env arg dir index buf length written) s fun _ s' =>
      Used lowPd r env.vm P s s' := by
  induction hm : length - written using Nat.strong_induction_on
    generalizing written s ph1 with
  | _ m ih =>
    unfold readDirLoop
    rw [returns_bind]
    apply (loadWord_reaching hi hP).mono
    rintro before s1 ⟨hready,rfl,hu1⟩
    rw [returns_bind]
    apply (readDirOneLocked_ready hu1.sound hready hP).mono
    rintro o s2 ⟨_,hp,hu2⟩
    have hu := hu1.trans hu2
    have hrestore : Returns (storeWord env arg index before) s2 fun _ s' =>
        Used lowPd r env.vm P s s' :=
      (storeWord_ready hu.sound (hp ▸ hready) hP before).mono fun _ _ h => hu.trans h.2.2
    cases o with
    | error e => simpa only [returns_bind,returns_pure] using hrestore
    | done => simpa only [returns_pure] using hu
    | entry d =>
      dsimp only
      by_cases hfit : d.text.length > length - written
      · rw [dif_pos hfit]
        simpa only [returns_bind,returns_pure] using hrestore
      · rw [dif_neg hfit,returns_bind]
        rw [← hp] at hb
        apply (hb.storeBytes hP' (not_lt.mp hfit)).mono
        rintro _ s3 ⟨hu3,hb3⟩
        have hpos := d.text_length_pos
        have hi3 : Reaching lowPd r env.vm true 4 index s3.phys s3.phys :=
          reaching_of_accessible hu3.sound fun i hi4 => hu3.keeps _ _ (hp ▸ hready i hi4)
        rw [add_assoc,← ofNat_add,Nat.sub_sub] at hb3
        apply (ih _ (by omega) hi3 hb3 rfl).mono
        intro _ s4 hu4
        exact (hu.trans hu3).trans hu4

def Outcome.Refuses : Outcome → ℕ → Prop
  | .error _, _ => True
  | .done, _ => False
  | .entry d, n => n < d.text.length

/-- The cookie, once its page is in, leads to an entry that is refused. -/
def FirstRefused (env : Env Dir) (arg : ℕ) (dir : Dir) (index : U64) (n : ℕ) (s : Core Kern) : Prop :=
  Whenever (loadWord env arg index) s fun _ s' =>
    (env.vfs.peek dir (wordAt env.toCaller s' index)).Refuses n

theorem readDirLoop_refused (hi : Reaching lowPd r env.vm true 4 index s.phys ph') (hP : P arg)
    (href : FirstRefused env arg dir index n s) :
    Returns (readDirLoop env arg dir index buf n 0) s fun res s' =>
      res < 0 ∧ Used lowPd r env.vm P s s' := by
  unfold readDirLoop
  rw [returns_bind]
  apply ((loadWord_reaching hi hP).and href).mono
  rintro before s1 ⟨⟨hready,_,hu1⟩,href⟩
  rw [returns_bind]
  apply (readDirOneLocked_ready hu1.sound hready hP).mono
  rintro o s2 ⟨ho,hp2,hu2⟩
  rw [← ho] at href
  have hu := hu1.trans hu2
  have hrestore : Returns (storeWord env arg index before) s2 fun _ s' =>
      Used lowPd r env.vm P s s' :=
    (storeWord_ready hu.sound (hp2 ▸ hready) hP before).mono fun _ _ h => hu.trans h.2.2
  cases o with
  | error e =>
    simp only [returns_bind,returns_pure]
    apply hrestore.mono
    intro _ s3 hu3
    have := e.pos
    exact ⟨by simp only [if_true]; omega,hu3⟩
  | done => exact href.elim
  | entry d =>
    have hfit : d.text.length > n - 0 := href
    dsimp only
    rw [dif_pos hfit]
    simp only [returns_bind,returns_pure]
    apply hrestore.mono
    intro _ s3 hu3
    exact ⟨by decide,hu3⟩

def StoredThrough (arg : ℕ) (s : Core Kern) : Prop := ∃ t ∈ s.touched, t.arg = arg ∧ t.store = true

theorem touch_touched : Whenever (touch env.toCaller arg addr st) s fun _ s' =>
    ∃ t, t.arg = arg ∧ t.store = st ∧ s'.touched = t :: s.touched := by
  intro pa s' h
  unfold touch at h
  split at h
  · cases h
  · cases h
    exact ⟨_,rfl,rfl,rfl⟩

theorem storeBytes_stored {k : ℕ} (h : StoredThrough k s ∨ k = arg ∧ bs ≠ []) :
    Whenever (storeBytes env.toCaller arg bs addr) s fun _ s' => StoredThrough k s' := by
  induction bs generalizing addr s with
  | nil =>
    simp only [storeBytes,whenever_pure]
    exact h.resolve_right fun hc => hc.2 rfl
  | cons b bs ih =>
    simp only [storeBytes,storeByte,whenever_bind,whenever_modify]
    refine Whenever.mono touch_touched ?_
    rintro _ s1 ⟨t,harg,hst,heq⟩
    apply ih
    left
    rcases h with ⟨t',ht',h'⟩ | ⟨rfl,_⟩
    · exact ⟨t',by simp [heq,ht'],h'⟩
    · exact ⟨t,by simp [heq],harg,hst⟩

/-- Only the first entry can make the call fail, and the cookie has been stored back by then. -/
theorem readDirLoop_negative :
    Whenever (readDirLoop env arg dir index buf length written) s fun res s' =>
      res < 0 → written = 0 ∧ StoredThrough arg s' := by
  induction hm : length - written using Nat.strong_induction_on generalizing written s with
  | _ m ih =>
    unfold readDirLoop
    rw [whenever_bind]
    apply whenever_of_forall
    intro before s1
    rw [whenever_bind]
    apply whenever_of_forall
    intro o s2
    have hrestore {e : ℤ} : Whenever (storeWord env arg index before) s2 fun _ s' =>
        (if written = 0 then e else written) < 0 → written = 0 ∧ StoredThrough arg s' := by
      refine (storeBytes_stored (Or.inr ⟨rfl,by simp [le,range_succ]⟩)).mono fun _ _ h hneg => ?_
      split_ifs at hneg with hw
      · exact ⟨hw,h⟩
      · omega
    cases o with
    | error e => simpa only [whenever_bind,whenever_pure] using hrestore
    | done =>
      simp only [whenever_pure]
      omega
    | entry d =>
      dsimp only
      by_cases hfit : d.text.length > length - written
      · rw [dif_pos hfit]
        simpa only [whenever_bind,whenever_pure] using hrestore
      · rw [dif_neg hfit,whenever_bind]
        apply whenever_of_forall
        intro _ _
        have hpos := d.text_length_pos
        refine (ih _ (by omega) rfl).mono fun _ _ h hneg => ?_
        have := (h hneg).1
        omega

theorem readDirLoop_of_not_refused (hi : Reaching lowPd r env.vm true 4 index s.phys ph')
    (href : ¬ FirstRefused env arg dir index n s) :
    Whenever (readDirLoop env arg dir index buf n 0) s fun res _ => 0 ≤ res := by
  have hP : arg = arg := rfl
  unfold readDirLoop
  rw [whenever_bind]
  refine Whenever.mono ((loadWord_reaching hi hP).and (whenever_not href)).whenever ?_
  rintro before s1 ⟨⟨hready,_,hu1⟩,href⟩
  rw [whenever_bind]
  refine Whenever.mono (readDirOneLocked_ready hu1.sound hready hP).whenever ?_
  rintro o s2 ⟨ho,_⟩
  rw [← ho] at href
  cases o with
  | error e => exact absurd trivial href
  | done => simp
  | entry d =>
    have hfit : ¬ d.text.length > n - 0 := href
    dsimp only
    rw [dif_neg hfit,whenever_bind]
    apply whenever_of_forall
    intro _ _
    have := d.text_length_pos
    refine readDirLoop_negative.mono fun res _ h => ?_
    by_contra hneg
    have := (h (by omega)).1
    omega

end GaiaKernel.Syscall
