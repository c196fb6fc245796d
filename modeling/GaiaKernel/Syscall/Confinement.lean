import GaiaKernel.Sched.SpaceRuns
import GaiaKernel.Syscall.HandlerSpec

/-! # Pointer confinement of the system calls

A call obeys if every touch it makes is one user mode could have made and a pointer range that
cannot be used earns an error and no store. `sys_msg_get` and `sys_msg_peek` check their pointer and
always obey; the other handlers obey exactly when `Admitted` holds.
-/
namespace GaiaKernel.Syscall
open Exec List Call
variable {Dir : Type} {env : Env Dir} {lowPd r : U64} {ph ph' : Phys} {arg n : ℕ}
  {s s' : Core Kern} {P : ℕ → Prop}

/-- A pointer argument and what hangs on it: a range of given length, or a string. -/
inductive PtrArg where
  | span (arg : ℕ) (addr : U64) (len : ℕ) (store : Bool)
  | string (arg : ℕ) (addr : U64)

def PtrArg.number : PtrArg → ℕ
  | .span arg _ _ _ => arg
  | .string arg _ => arg

/-- Follow a string to its terminator, or for `n` bytes, through readable pages. -/
def reachString (c : Caller) : ℕ → U64 → Memory → Bool × Memory
  | 0, _, m => (true, m)
  | n + 1, addr, m =>
    let res := reachRange c.vm addr 1 false m.phys
    let m' := m.setPhys res.2
    if !res.1 then (false, m')
    else if m'.data (m'.phys.vmmTranslateIn c.root addr) = 0#8 then (true, m')
    else reachString c n (addr + 1) m'

/-- Make what hangs on the pointer usable, and say whether that worked. -/
def PtrArg.reach (c : Caller) (m : Memory) : PtrArg → Bool × Memory
  | .span _ addr len store =>
    let res := reachRange c.vm addr len store m.phys
    (res.1, m.setPhys res.2)
  | .string _ addr => reachString c taskCwdMax addr m

/-- The arguments whose range cannot be used, each tried after those before it. -/
def unusable (c : Caller) : List PtrArg → Memory → List ℕ
  | [], _ => []
  | p :: ps, m =>
    let res := p.reach c m
    (if res.1 then [] else [p.number]) ++ unusable c ps res.2

def optional (arg : ℕ) (addr : U64) (len : ℕ) : List PtrArg :=
  if addr = 0#64 then [] else [.span arg addr len true]

def Call.pointers : Call → List PtrArg
  | .msgGet out => [.span 0 out 12 true]
  | .msgPeek out => [.span 0 out 12 true]
  | .mousePos x y buttons => optional 0 x 4 ++ (optional 1 y 4 ++ optional 2 buttons 1)
  | .conWrite buf n => [.span 0 buf n.toInt.toNat false]
  | .ipcSend _ m => [.span 0 m 88 false]
  | .ipcRecv out => [.span 0 out 88 true]
  | .ttyDrain _ out max => [.span 0 out max.toInt.toNat true]
  | .ttyReadInput out max => [.span 0 out max.toInt.toNat true]
  | .readdir index buf n => [.span 0 index 4 true, .span 1 buf n.toNat true]
  | .readdirPath path index buf n =>
    [.string 0 path, .span 1 index 4 true, .span 2 buf n.toNat true]

def Obeys (env : Env Dir) (call : Call) (s : Core Kern) : Prop :=
  Returns (call.run env) s fun res s' =>
    Confined env.vm s'.touched ∧
      ∀ k ∈ unusable env.toCaller call.pointers s.toMemory, res < 0 ∧ ¬ StoredThrough k s'

def Usable (env : Env Dir) (call : Call) (s : Core Kern) : Prop :=
  unusable env.toCaller call.pointers s.toMemory = []

/-- The directory reader is called in vain, or its index can be used and so can its buffer
unless the first entry is refused. -/
def DirAdmitted (env : Env Dir) (arg : ℕ) (path : List Byte) (index buf : U64) (n : ℕ)
    (s : Core Kern) : Prop :=
  index = 0#64 ∨ buf = 0#64 ∨ n = 0 ∨ ∀ dir, env.vfs.lookup path = .ok dir →
    let res := reachRange env.vm index 4 true s.phys
    res.1 = true ∧
      ((reachRange env.vm buf n true res.2).1 = true ∨ FirstRefused env arg dir index n s)

/-- The calls that obey: those that check, those that turn a null pointer or bad argument
away before they use it, and those whose ranges can be used. -/
def Admitted (env : Env Dir) (s : Core Kern) : Call → Prop
  | .msgGet _ => True
  | .msgPeek _ => True
  | .conWrite buf n => buf = 0#64 ∨ n.toInt < 0 ∨ Usable env (.conWrite buf n) s
  | .ipcSend targetPid m =>
    m = 0#64 ∨ s.kernel.accepts (targetPid.setWidth 32).toInt = none ∨
      Usable env (.ipcSend targetPid m) s
  | .ipcRecv out => out = 0#64 ∨ Usable env (.ipcRecv out) s
  | .readdir index buf n => ∀ cwd, env.cwd = some cwd → DirAdmitted env 0 cwd index buf n.toNat s
  | .readdirPath path index buf n => Whenever (resolveUserPath env path) s fun res s' =>
    ∀ resolved, res = .ok resolved → DirAdmitted env 1 resolved index buf n.toNat s'
  | call => Usable env call s

abbrev Used.Any (lowPd r : U64) (vm : TaskVm) (s s' : Core Kern) : Prop :=
  Used lowPd r vm (fun _ => True) s s'

variable {addr : U64} {c : Caller} {call : Call}

theorem obeys_of_used (lowPd r : U64) (hs : s.touched = []) (hu : Usable env call s)
    (h : Returns (call.run env) s fun _ s' => Used.Any lowPd r env.vm s s') : Obeys env call s := by
  apply h.mono
  intro res s' hused
  refine ⟨hused.confined hs,?_⟩
  rw [hu]
  simp

theorem obeys_of_error (hs : s.touched = [])
    (h : Returns (call.run env) s fun res s' => res < 0 ∧ s'.touched = s.touched) :
    Obeys env call s := by
  apply h.mono
  rintro res s' ⟨hneg,ht⟩
  rw [hs] at ht
  refine ⟨by simp [Confined,ht],fun k _ => ⟨hneg,?_⟩⟩
  simp [StoredThrough,ht]

theorem usable_of_obeys (h : Obeys env call s)
    (hpos : Whenever (call.run env) s fun res _ => 0 ≤ res) : Usable env call s := by
  obtain ⟨res,s',⟨_,hbad⟩,hpos⟩ := Returns.exists h hpos
  unfold Usable
  rw [eq_nil_iff_forall_not_mem]
  intro k hk
  have := (hbad k hk).1
  omega

theorem unusable_singleton {store : Bool} {m : Memory} :
    unusable c [.span arg addr n store] m = [] ↔ (reachRange c.vm addr n store m.phys).1 = true := by
  cases h : (reachRange c.vm addr n store m.phys).1 <;> simp [unusable,PtrArg.reach,h]

theorem reaching_of_usable {store : Bool} (h : Sound lowPd r env.vm s.phys)
    (hu : unusable env.toCaller [.span arg addr n store] s.toMemory = []) :
    ∃ ph', Reaching lowPd r env.vm store n addr s.phys ph' :=
  ⟨_,reaching_of_reachRange h (Prod.ext (unusable_singleton.mp hu) rfl)⟩

theorem usable_optional {ps : List PtrArg} {m : Memory}
    (h : unusable c (optional arg addr n ++ ps) m = []) :
    ∃ m' : Memory, (addr ≠ 0#64 → reachRange c.vm addr n true m.phys = (true, m'.phys)) ∧
      (addr = 0#64 → m'.phys = m.phys) ∧ unusable c ps m' = [] := by
  unfold optional at h
  by_cases hz : addr = 0#64
  · rw [if_pos hz] at h
    exact ⟨m,fun hc => absurd hz hc,fun _ => rfl,h⟩
  · rw [if_neg hz,cons_append,nil_append] at h
    simp only [unusable,PtrArg.reach,append_eq_nil_iff] at h
    refine ⟨_,fun _ => Prod.ext ?_ rfl,fun hc => absurd hc hz,h.2⟩
    cases hres : (reachRange c.vm addr n true m.phys).1 with
    | true => rfl
    | false => simp [hres] at h

theorem unusable_pair {k l : ℕ} {p q : U64} {n m : ℕ} {st st' : Bool} {mem : Memory} :
    unusable c [.span k p n st, .span l q m st'] mem =
      let res := reachRange c.vm p n st mem.phys
      (if res.1 then [] else [k]) ++ (if (reachRange c.vm q m st' res.2).1 then [] else [l]) := by
  simp [unusable,PtrArg.reach,PtrArg.number,Memory.setPhys]

theorem storedThrough_of_used (h : Used lowPd r env.vm P s s') {k : ℕ} (hk : StoredThrough k s') :
    StoredThrough k s ∨ P k := by
  obtain ⟨new,heq,hnew⟩ := h.touched
  obtain ⟨t,ht,harg,hst⟩ := hk
  rw [heq,mem_append] at ht
  rcases ht with ht | ht
  · exact .inr (harg ▸ (hnew t ht).1)
  · exact .inl ⟨t,ht,harg,hst⟩

def DirObeys (env : Env Dir) (arg : ℕ) (index buf : U64) (n : ℕ) (s : Core Kern) (res : ℤ)
    (s' : Core Kern) : Prop :=
  ∀ k ∈ unusable env.toCaller [.span arg index 4 true, .span (arg + 1) buf n true] s.toMemory,
    res < 0 ∧ ¬ StoredThrough k s'

theorem vfsReadDir_of_admitted {path : List Byte} {index buf : U64}
    (hsound : Sound lowPd r env.vm s.phys) (hfresh : ∀ k, ¬ StoredThrough k s)
    (hadm : DirAdmitted env arg path index buf n s) :
    Returns (vfsReadDir env arg path index buf n) s fun res s' =>
      Used.Any lowPd r env.vm s s' ∧ DirObeys env arg index buf n s res s' := by
  unfold vfsReadDir
  by_cases hargs : index = 0#64 ∨ buf = 0#64 ∨ n = 0
  · rw [if_pos hargs,returns_pure]
    exact ⟨Used.refl hsound,fun k _ => ⟨by decide,hfresh k⟩⟩
  rw [if_neg hargs]
  cases hlook : env.vfs.lookup path with
  | error e =>
    simp only [returns_pure]
    have := e.pos
    exact ⟨Used.refl hsound,fun k _ => ⟨by omega,hfresh k⟩⟩
  | ok dir =>
    simp only [not_or] at hargs
    obtain ⟨hidx,hrest⟩ := ((hadm.resolve_left hargs.1).resolve_left hargs.2.1).resolve_left
      hargs.2.2 dir hlook
    have hi := reaching_of_reachRange hsound (Prod.ext hidx rfl)
    by_cases hbuf : (reachRange env.vm buf n true (reachRange env.vm index 4 true s.phys).2).1 = true
    · have hb := reaching_of_reachRange hi.finish.1 (Prod.ext hbuf rfl)
      have hret : Returns (readDirLoop env arg dir index buf n 0) s fun _ s' =>
          Used.Any lowPd r env.vm s s' :=
        readDirLoop_reaching dir hi trivial trivial (by simpa using hb)
      apply hret.mono
      intro res s' hu
      refine ⟨hu,fun k hk => ?_⟩
      simp [unusable_pair,hidx,hbuf] at hk
    · have hret : Returns (readDirLoop env arg dir index buf n 0) s fun res s' =>
          res < 0 ∧ Used lowPd r env.vm (fun k => k = arg) s s' :=
        readDirLoop_refused hi rfl (hrest.resolve_left hbuf)
      apply hret.mono
      rintro res s' ⟨hneg,hu⟩
      refine ⟨hu.mono fun _ _ => trivial,fun k hk => ⟨hneg,fun hst => ?_⟩⟩
      have hk : k = arg + 1 := by simpa [unusable_pair,hidx,hbuf] using hk
      rcases storedThrough_of_used hu hst with h | h
      · exact hfresh k h
      · omega

theorem admitted_of_vfsReadDir {path : List Byte} {index buf : U64}
    (hsound : Sound lowPd r env.vm s.phys)
    (h : Returns (vfsReadDir env arg path index buf n) s (DirObeys env arg index buf n s)) :
    DirAdmitted env arg path index buf n s := by
  by_cases hargs : index = 0#64 ∨ buf = 0#64 ∨ n = 0
  · rcases hargs with h | h | h
    · exact .inl h
    · exact .inr (.inl h)
    · exact .inr (.inr (.inl h))
  refine .inr (.inr (.inr fun dir hlook => ?_))
  simp only [vfsReadDir,if_neg hargs,hlook] at h
  have hidx : (reachRange env.vm index 4 true s.phys).1 = true := by
    by_contra hbad
    obtain ⟨res,s',hob,hst⟩ := h.exists readDirLoop_negative
    obtain ⟨hneg,hno⟩ := hob arg (by simp [unusable_pair,hbad])
    exact hno (hst hneg).2
  refine ⟨hidx,?_⟩
  by_contra hcon
  rw [not_or] at hcon
  have hi := reaching_of_reachRange hsound (Prod.ext hidx rfl)
  obtain ⟨res,s',hob,hpos⟩ := h.exists (readDirLoop_of_not_refused hi hcon.2)
  have := (hob (arg + 1) (by simp [unusable_pair,hcon.1])).1
  omega

def LoadsOnly (s s' : Core Kern) : Prop := ∀ k, StoredThrough k s' → StoredThrough k s

theorem loadByte_loadsOnly :
    Whenever (loadByte env.toCaller arg addr) s fun _ s' => LoadsOnly s s' := by
  unfold loadByte
  simp only [whenever_bind,whenever_get,whenever_pure]
  refine Whenever.mono touch_touched ?_
  rintro _ s1 ⟨t,_,hst,heq⟩ k ⟨t',ht',harg,hst'⟩
  rw [heq,mem_cons] at ht'
  rcases ht' with rfl | ht'
  · rw [hst] at hst'
    cases hst'
  · exact ⟨t',ht',harg,hst'⟩

theorem copyString_spec (hsound : Sound lowPd r env.vm s.phys) :
    Returns (copyString env 0 n addr) s fun res s' =>
      Used lowPd r env.vm (fun k => k = 0) s s' ∧ LoadsOnly s s' ∧ match res with
        | .error e => e < 0
        | .ok _ => reachString env.toCaller n addr s.toMemory = (true, s'.toMemory) := by
  induction n generalizing addr s with
  | zero =>
    simp only [copyString,returns_pure]
    exact ⟨Used.refl hsound,fun _ => id,by decide⟩
  | succ n ih =>
    simp only [copyString]
    rw [returns_bind]
    apply (userBufferOk_spec hsound addr 1 false).mono
    rintro ok s1 ⟨hu1,hmem1,hreach⟩
    have hload1 : LoadsOnly s s1 := by
      intro k hk
      rw [hmem1] at hk
      exact hk
    cases ok with
    | false =>
      simp only [Bool.not_false,if_true,returns_pure]
      exact ⟨hu1,hload1,by decide⟩
    | true =>
      have hreach : reachRange env.vm addr 1 false s.phys = (true, s1.phys) := hreach rfl
      have hmem1 : s1.toMemory = s.toMemory.setPhys s1.phys := congrArg Core.toMemory hmem1
      have hall := (reaching_of_reachRange hsound hreach).finish.2.2
      have hacc : Accessible env.vm s1.phys addr false := by simpa using hall 0 one_pos
      have hr : Reaching lowPd r env.vm false 1 addr s1.phys s1.phys :=
        reaching_of_accessible hu1.sound hall
      simp only [Bool.not_true,Bool.false_eq_true,if_false]
      rw [returns_bind]
      apply (((loadByte_of_accessible hacc).inter (hr.loadByte (P := fun k => k = 0) rfl)).and
        loadByte_loadsOnly).mono
      rintro b s2 ⟨⟨⟨hb,hp2,hd2⟩,hu2,_⟩,hload2⟩
      have hmem2 : s2.toMemory = s1.toMemory := Memory.ext hp2 hd2
      have hu := hu1.trans hu2
      have hload : LoadsOnly s s2 := fun k hk => hload1 k (hload2 k hk)
      have hstep : reachString env.toCaller (n + 1) addr s.toMemory =
          if b = 0#8 then (true, s2.toMemory)
          else reachString env.toCaller n (addr + 1) s2.toMemory := by
        rw [hmem2,hb]
        simp only [reachString,hreach,← hmem1]
        rfl
      by_cases hz : b = 0#8
      · rw [if_pos hz,returns_pure]
        rw [if_pos hz] at hstep
        exact ⟨hu,hload,hstep⟩
      · rw [if_neg hz,returns_bind]
        rw [if_neg hz] at hstep
        apply (ih hu.sound).mono
        rintro res s3 ⟨hu3,hload3,hres⟩
        have hload3 : LoadsOnly s s3 := fun k hk => hload k (hload3 k hk)
        cases res with
        | error e =>
          simp only [returns_pure]
          exact ⟨hu.trans hu3,hload3,hres⟩
        | ok bs =>
          simp only [returns_pure]
          exact ⟨hu.trans hu3,hload3,hstep.trans hres⟩

theorem resolveUserPath_spec (path : U64) (hsound : Sound lowPd r env.vm s.phys) :
    Returns (resolveUserPath env path) s fun res s' =>
      Used lowPd r env.vm (fun k => k = 0) s s' ∧ LoadsOnly s s' ∧ match res with
        | .error e => e < 0
        | .ok _ => reachString env.toCaller taskCwdMax path s.toMemory = (true, s'.toMemory) := by
  unfold resolveUserPath copyUserString
  rw [returns_bind]
  by_cases hnull : path = 0#64 ∨ taskCwdMax = 0
  · rw [if_pos hnull]
    simp only [returns_pure]
    exact ⟨Used.refl hsound,fun _ => id,by decide⟩
  rw [if_neg hnull]
  apply (copyString_spec hsound).mono
  rintro res s1 ⟨hu,hload,hres⟩
  cases res with
  | error e =>
    simp only [returns_pure]
    exact ⟨hu,hload,hres⟩
  | ok bs =>
    dsimp only at hres ⊢
    by_cases hempty : bs = []
    · rw [if_pos hempty,returns_pure]
      exact ⟨hu,hload,(by decide : -ENOENT < 0)⟩
    rw [if_neg hempty]
    cases env.cwd with
    | none =>
      simp only [returns_pure]
      exact ⟨hu,hload,by decide⟩
    | some base =>
      cases hpath : resolvePathFrom base bs taskCwdMax with
      | none =>
        simp only [hpath,returns_pure]
        exact ⟨hu,hload,by decide⟩
      | some resolved =>
        simp only [hpath,returns_pure]
        exact ⟨hu,hload,hres⟩

section
variable (hsound : Sound lowPd r env.vm s.phys) (hs : s.touched = [])
include hsound hs

theorem checkedMsg_obeys {out : U64} {drop : Bool}
    (hrun : call.run env = checkedMsg env (takeMsg env drop) out)
    (hptr : call.pointers = [.span 0 out 12 true]) : Obeys env call s := by
  by_cases hout : out = 0#64
  · apply obeys_of_error hs
    rw [hrun,checkedMsg,if_pos hout,returns_pure]
    exact ⟨by decide,rfl⟩
  cases hok : (env.vm.uvmBufferOk s.phys out 12 true).1 with
  | false =>
    apply obeys_of_error hs
    rw [hrun,checkedMsg,if_neg hout,returns_bind]
    refine ⟨_,_,rfl,?_⟩
    simp only [hok,Bool.not_false,if_true,returns_pure]
    exact ⟨by decide,rfl⟩
  | true =>
    obtain ⟨ok,s1,heq,hu,_,hreach⟩ := userBufferOk_spec (P := fun _ => True) hsound out 12 true
    obtain rfl : ok = true := by
      simp only [userBufferOk,Option.some.injEq,Prod.mk.injEq] at heq
      rw [← heq.1,hok]
    have hreach : reachRange env.vm out 12 true s.phys = (true, s1.phys) := hreach rfl
    obtain ⟨hs1,_,hall⟩ := (reaching_of_reachRange hsound hreach).finish
    have husable : Usable env call s := by rw [Usable,hptr,unusable_singleton,hreach]
    have hret : Returns (call.run env) s fun _ s' => Used.Any lowPd r env.vm s s' := by
      rw [hrun,checkedMsg,if_neg hout,returns_bind]
      refine ⟨true,s1,heq,?_⟩
      simp only [Bool.not_true,Bool.false_eq_true,if_false,returns_bind,returns_pure]
      refine (takeMsg_reaching (reaching_of_accessible hs1 hall) ?_ drop).mono
        fun _ s2 hu2 => hu.trans hu2
      trivial
    exact obeys_of_used lowPd r hs husable hret

theorem mousePos_obeys_iff (x y buttons : U64) :
    Obeys env (.mousePos x y buttons) s ↔ Usable env (.mousePos x y buttons) s := by
  constructor
  · intro h
    apply usable_of_obeys h
    simp only [run,sysMousePos,whenever_bind,whenever_pure,le_refl]
    exact whenever_of_forall fun _ _ => whenever_of_forall fun _ _ => whenever_of_forall
      fun _ _ => whenever_of_forall fun _ _ => trivial
  · intro hu
    refine obeys_of_used lowPd r hs hu ?_
    obtain ⟨m1,hx,hx0,hu⟩ := usable_optional hu
    obtain ⟨m2,hy,hy0,hu⟩ := usable_optional hu
    rw [← append_nil (optional 2 buttons 1)] at hu
    obtain ⟨m3,hb,hb0,_⟩ := usable_optional hu
    simp only [run,sysMousePos,kernel,returns_bind,returns_get,returns_pure]
    have step : ∀ {t : Core Kern} {ptr : U64} {bytes : List Byte} {q q' : Phys} (k : ℕ),
        Used.Any lowPd r env.vm s t → t.phys = q →
        (ptr ≠ 0#64 → reachRange env.vm ptr bytes.length true q = (true, q')) →
        (ptr = 0#64 → q' = q) → Returns (storeThrough env k ptr bytes) t fun _ t' =>
          t'.phys = q' ∧ Used.Any lowPd r env.vm s t' := by
      rintro t ptr bytes q q' k hut rfl hne hz
      refine (storeThrough_reaching (P := fun _ => True) hut.sound
        (fun hp => reaching_of_reachRange hut.sound (hne hp)) hz trivial).mono ?_
      rintro _ t' ⟨hp,hut'⟩
      exact ⟨hp,hut.trans hut'⟩
    apply (step 0 (Used.refl hsound) rfl (by rwa [length_le]) hx0).mono
    rintro _ s1 ⟨hp1,hu1⟩
    apply (step 1 hu1 hp1 (by rwa [length_le]) hy0).mono
    rintro _ s2 ⟨hp2,hu2⟩
    apply (step 2 hu2 hp2 hb hb0).mono
    rintro _ s3 ⟨_,hu3⟩
    exact hu3

theorem conWrite_obeys_iff (buf n : U64) : Obeys env (.conWrite buf n) s ↔
    buf = 0#64 ∨ n.toInt < 0 ∨ Usable env (.conWrite buf n) s := by
  by_cases hbuf : buf = 0#64
  · refine iff_of_true (obeys_of_error hs ?_) (.inl hbuf)
    simp only [run,sysConWrite,if_pos hbuf,returns_pure]
    exact ⟨by decide,trivial⟩
  by_cases hn : n.toInt < 0
  · refine iff_of_true (obeys_of_error hs ?_) (.inr (.inl hn))
    simp only [run,sysConWrite,if_neg hbuf,if_pos hn,returns_pure]
    exact ⟨by decide,trivial⟩
  rw [or_iff_right hbuf,or_iff_right hn]
  constructor
  · intro h
    apply usable_of_obeys h
    simp only [run,sysConWrite,if_neg hbuf,if_neg hn,whenever_bind,whenever_pure]
    exact whenever_of_forall fun _ _ => not_lt.mp hn
  · intro hu
    refine obeys_of_used lowPd r hs hu ?_
    obtain ⟨ph',hr⟩ := reaching_of_usable hsound hu
    have hlen : n.toInt.toNat = n.toNat := by
      have := BitVec.toInt_eq_toNat_cond n
      omega
    rw [hlen] at hr
    simp only [run,sysConWrite,if_neg hbuf,if_neg hn,returns_bind,returns_pure]
    exact ttyWriteCh_reaching hr trivial env.tty

theorem ipcSend_obeys_iff (targetPid m : U64) : Obeys env (.ipcSend targetPid m) s ↔
    m = 0#64 ∨ s.kernel.accepts (targetPid.setWidth 32).toInt = none ∨
      Usable env (.ipcSend targetPid m) s := by
  by_cases hm : m = 0#64
  · refine iff_of_true (obeys_of_error hs ?_) (.inl hm)
    simp only [run,sysIpcSend,if_pos hm,returns_pure]
    exact ⟨by decide,trivial⟩
  by_cases hacc : s.kernel.accepts (targetPid.setWidth 32).toInt = none
  · refine iff_of_true (obeys_of_error hs ?_) (.inr (.inl hacc))
    simp only [run,sysIpcSend,if_neg hm,ipcSend,kernel,returns_bind,returns_get,returns_pure,hacc]
    exact ⟨by decide,trivial⟩
  rw [or_iff_right hm,or_iff_right hacc]
  constructor
  · intro h
    apply usable_of_obeys h
    obtain ⟨ring,hring⟩ := Option.ne_none_iff_exists'.mp hacc
    simp only [run,sysIpcSend,if_neg hm,ipcSend,kernel,whenever_bind,whenever_get,
      whenever_pure,hring,le_refl]
    exact whenever_of_forall fun _ _ => whenever_of_forall fun _ _ => trivial
  · intro hu
    refine obeys_of_used lowPd r hs hu ?_
    obtain ⟨ph',hr⟩ := reaching_of_usable hsound hu
    simp only [run,sysIpcSend,if_neg hm]
    exact ipcSend_reaching hr trivial _

theorem ipcRecv_obeys_iff (out : U64) : Obeys env (.ipcRecv out) s ↔
    out = 0#64 ∨ Usable env (.ipcRecv out) s := by
  by_cases hout : out = 0#64
  · refine iff_of_true (obeys_of_error hs ?_) (.inl hout)
    simp only [run,sysIpcRecv,if_pos hout,returns_pure]
    exact ⟨by decide,trivial⟩
  rw [or_iff_right hout]
  constructor
  · intro h
    apply usable_of_obeys h
    simp only [run,sysIpcRecv,if_neg hout,whenever_bind,whenever_pure]
    refine whenever_of_forall fun b _ => ?_
    cases b <;> decide
  · intro hu
    refine obeys_of_used lowPd r hs hu ?_
    obtain ⟨ph',hr⟩ := reaching_of_usable hsound hu
    simp only [run,sysIpcRecv,if_neg hout,returns_bind,returns_pure]
    exact ipcRecv_reaching hr trivial

theorem drain_obeys_iff {field : RingField} {idx : ℤ} {out max : U64} (hrun : call.run env = do
      if out = 0#64 ∨ max.toInt ≤ 0 then return 0
      else return ((← fromChannel (drainInto env field) idx out max.toNat : ℕ) : ℤ))
    (hptr : call.pointers = [.span 0 out max.toInt.toNat true]) :
    Obeys env call s ↔ Usable env call s := by
  constructor
  · intro h
    apply usable_of_obeys h
    rw [hrun]
    split_ifs
    · simp
    · simp only [whenever_bind,whenever_pure]
      exact whenever_of_forall fun k _ => Int.natCast_nonneg k
  · intro hu
    refine obeys_of_used lowPd r hs hu ?_
    rw [Usable,hptr] at hu
    obtain ⟨ph',hr⟩ := reaching_of_usable hsound hu
    rw [hrun]
    by_cases hc : out = 0#64 ∨ max.toInt ≤ 0
    · rw [if_pos hc,returns_pure]
      exact Used.refl hsound
    · have hlen : max.toInt.toNat = max.toNat := by
        have := BitVec.toInt_eq_toNat_cond max
        omega
      rw [hlen] at hr
      rw [if_neg hc]
      simp only [returns_bind,returns_pure]
      exact fromChannel_reaching hr trivial field idx

theorem readdir_obeys_iff (index buf n : U64) : Obeys env (.readdir index buf n) s ↔
    ∀ cwd, env.cwd = some cwd → DirAdmitted env 0 cwd index buf n.toNat s := by
  have hfresh : ∀ k, ¬ StoredThrough k s := by simp [StoredThrough,hs]
  cases hcwd : env.cwd with
  | none =>
    refine iff_of_true (obeys_of_error hs ?_) (by simp)
    simp only [run,sysReaddir,hcwd,returns_pure]
    exact ⟨by decide,trivial⟩
  | some cwd =>
    have hrun : (readdir index buf n).run env = vfsReadDir env 0 cwd index buf n.toNat := by
      simp [run,sysReaddir,hcwd]
    simp only [Option.some.injEq,forall_eq']
    unfold Obeys
    rw [hrun]
    constructor
    · intro h
      exact admitted_of_vfsReadDir hsound (h.mono fun _ _ hob => hob.2)
    · intro hadm
      apply (vfsReadDir_of_admitted hsound hfresh hadm).mono
      rintro res s' ⟨hu,hob⟩
      exact ⟨hu.confined hs,hob⟩

theorem readdirPath_obeys_iff (path index buf n : U64) :
    Obeys env (.readdirPath path index buf n) s ↔
      Whenever (resolveUserPath env path) s fun res s' =>
        ∀ resolved, res = .ok resolved → DirAdmitted env 1 resolved index buf n.toNat s' := by
  have hfresh : ∀ k, ¬ StoredThrough k s := by simp [StoredThrough,hs]
  obtain ⟨res,s1,heq,hu,hload,hres⟩ := resolveUserPath_spec path hsound
  have hfresh1 : ∀ k, ¬ StoredThrough k s1 := fun k hk => hfresh k (hload k hk)
  have hwhen : ∀ Q : Except ℤ (List Byte) → Core Kern → Prop,
      Whenever (resolveUserPath env path) s Q ↔ Q res s1 := by
    intro Q
    constructor
    · exact fun h => h _ _ heq
    · rintro h a s' ha
      cases heq.symm.trans ha
      exact h
  have hret : ∀ Q, Returns ((readdirPath path index buf n).run env) s Q ↔ Returns (match res with
        | .error e => pure e
        | .ok resolved => vfsReadDir env 1 resolved index buf n.toNat) s1 Q := by
    intro Q
    simp only [run,sysReaddirPath,returns_bind]
    constructor
    · rintro ⟨a,s',ha,h⟩
      cases heq.symm.trans ha
      exact h
    · exact fun h => ⟨_,_,heq,h⟩
  rw [hwhen]
  unfold Obeys
  rw [hret]
  cases res with
  | error e =>
    refine iff_of_true ?_ (by simp)
    rw [returns_pure]
    exact ⟨hu.confined hs,fun k _ => ⟨hres,hfresh1 k⟩⟩
  | ok resolved =>
    simp only [Except.ok.injEq,forall_eq']
    have hptr : unusable env.toCaller (readdirPath path index buf n).pointers s.toMemory =
        unusable env.toCaller [.span 1 index 4 true, .span 2 buf n.toNat true] s1.toMemory := by
      rw [pointers,unusable,PtrArg.reach,hres]
      rfl
    rw [hptr]
    constructor
    · intro h
      exact admitted_of_vfsReadDir hu.sound (h.mono fun _ _ hob => hob.2)
    · intro hadm
      apply (vfsReadDir_of_admitted hu.sound hfresh1 hadm).mono
      rintro res s' ⟨hu',hob⟩
      exact ⟨((hu.mono fun _ _ => trivial).trans hu').confined hs,hob⟩

end

/-- On a sound address space a call obeys exactly when it is admitted: the message calls
always, the others when what they are given can be used or is turned away unseen. -/
theorem obeys_iff_admitted {own : Owner} (hspace : SoundSpace lowPd r env.vm s.phys own)
    (hs : s.touched = []) (call : Call) : Obeys env call s ↔ Admitted env s call := by
  have hsound : Sound lowPd r env.vm s.phys := ⟨own,hspace⟩
  cases call with
  | msgGet out => exact iff_of_true (checkedMsg_obeys hsound hs rfl rfl) trivial
  | msgPeek out => exact iff_of_true (checkedMsg_obeys hsound hs rfl rfl) trivial
  | mousePos x y buttons => exact mousePos_obeys_iff hsound hs x y buttons
  | conWrite buf n => exact conWrite_obeys_iff hsound hs buf n
  | ipcSend targetPid m => exact ipcSend_obeys_iff hsound hs targetPid m
  | ipcRecv out => exact ipcRecv_obeys_iff hsound hs out
  | ttyDrain idx out max => exact drain_obeys_iff hsound hs rfl rfl
  | ttyReadInput out max => exact drain_obeys_iff hsound hs rfl rfl
  | readdir index buf n => exact readdir_obeys_iff hsound hs index buf n
  | readdirPath path index buf n => exact readdirPath_obeys_iff hsound hs path index buf n

theorem soundSpace_of_owned {st : Spaces.State} {own : Owner} {pid : ℕ} {p : Spaces.Proc}
    (h : Spaces.Owned lowPd st own) (hp : st.procs pid = some p) (hr : p.vm.userPml4 = some r) :
    SoundSpace lowPd r p.vm st.phys own where
  safe := h.safe
  root := (h.roots r).mpr ⟨pid,by simp [Spaces.State.rootOf,hp,hr]⟩
  vmRoot := hr
  bounded := (h.vmOk hp).bounded

section
open Spaces

def callerProc : Proc := (twoProcesses.procs 1).get (by decide +kernel)

def callerEnv : Env Unit where
  vm := callerProc.vm
  kernelPml4 := 0x1000#64
  pid := 1
  tty := 0
  cwd := none
  kernelPutc := fun chans _ => chans
  vfs := ⟨fun _ => .error ⟨2,Nat.two_pos⟩,fun _ => false,fun _ => none,fun _ _ => (0, none),fun _ _ => false⟩

def callerCore : Core Kern where
  phys := twoProcesses.phys
  data := fun _ => 0#8
  touched := []
  kernel := ⟨none,fun _ => none,0x11223344#32,0,0,fun _ => ⟨⟨fun _ => 0,0,0⟩,⟨fun _ => 0,0,0⟩,false⟩⟩

theorem callerEnv_sound : ∃ own, SoundSpace 0x1000#64 0x100000#64 callerEnv.vm callerCore.phys own := by
  obtain ⟨own,h⟩ := owned_twoProcesses
  exact ⟨own,soundSpace_of_owned h (Option.some_get _).symm (by decide +kernel)⟩

theorem mousePos_own_page_obeys : Obeys callerEnv (.mousePos 0x50000000 0 0) callerCore := by
  obtain ⟨own,h⟩ := callerEnv_sound
  refine (obeys_iff_admitted h rfl _).mpr ?_
  unfold Admitted Usable
  decide +kernel

/-- The same call with an address of the kernel's identity map returns 0 and has overwritten
physical memory at 0x200000. -/
theorem mousePos_overwrites_kernel_memory :
    (∃ own, SoundSpace 0x1000#64 0x100000#64 callerEnv.vm callerCore.phys own) ∧
      (((mousePos 0x200000 0 0).run callerEnv callerCore).map fun p =>
        (p.1, p.2.data 0x200000#64)) = some (0, 0x44#8) ∧
      ¬ Obeys callerEnv (.mousePos 0x200000 0 0) callerCore := by
  refine ⟨callerEnv_sound,by decide +kernel,fun h => ?_⟩
  obtain ⟨own,hspace⟩ := callerEnv_sound
  have hu := (mousePos_obeys_iff ⟨own,hspace⟩ rfl _ _ _).mp h
  unfold Usable at hu
  revert hu
  decide +kernel

end

end GaiaKernel.Syscall
