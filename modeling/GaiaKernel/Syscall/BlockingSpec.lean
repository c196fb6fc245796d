import GaiaKernel.Msg.PipeStream
import GaiaKernel.Sched.SpaceRuns
import GaiaKernel.Syscall.Blocking
import GaiaKernel.Syscall.HandlerSpec
import GaiaKernel.Syscall.MappingSpec

/-! # Buffers of waiting calls

A call checks its buffers once and uses them after a wait. Demand paging only adds pages, so
the check stays good unless another thread gives the pages back or makes them read-only in the
meantime, which nothing prevents.
-/
namespace GaiaKernel.Blocking
open Exec Pipes Syscall Trace Function List
variable {lowPd : U64} {c : Caller} {s s' s'' : Core Objects} {own : Owner}

structure Buffer where
  addr : U64
  len : ℕ
  store : Bool

def optionalBuffer (addr : U64) (len : ℕ) : List Buffer :=
  if addr = 0#64 then [] else [⟨addr,len,true⟩]

def Wait.buffers : Wait → List Buffer
  | .child _ status rusage => optionalBuffer status 4 ++ optionalBuffer rusage linuxRusageBytes
  | .readable _ buf n => [⟨buf,n.toNat,true⟩]
  | .writable _ buf n written => [⟨buf + BitVec.ofNat 64 written,n.toNat - written,false⟩]
  | .datagram _ buf len src addrlen =>
    ⟨buf,len.toNat,true⟩ :: (optionalBuffer src 8 ++ optionalBuffer addrlen 4)

def Buffer.Usable (vm : TaskVm) (ph : Phys) (x : Buffer) : Prop :=
  ∀ k < x.len, Accessible vm ph (x.addr + BitVec.ofNat 64 k) x.store

def AllUsable (vm : TaskVm) (ph : Phys) (xs : List Buffer) : Prop := ∀ x ∈ xs, x.Usable vm ph

def Ok (lowPd : U64) (vm : TaskVm) (ph : Phys) : Prop :=
  ∃ own r, SpaceOk lowPd ⟨vm,ph⟩ own ∧ vm.userPml4 = some r

variable {addr buf : U64} {i n : ℕ} {m : Stretch} {ph : Phys} {store : Bool} {vm : TaskVm}
  {xs : List Buffer}

theorem Ok.sound (h : Ok lowPd vm ph) : ∃ r, Sound lowPd r vm ph := by
  obtain ⟨own,r,hs,hr⟩ := h
  exact ⟨r,own,hs.safe,hs.root hr,hr,hs.bounded⟩

theorem accessible_of_remaps {own' : Owner} {gone : Path → Prop}
    {set : Path → U64 → Prop} {m : Space}
    (hs : SpaceOk lowPd ⟨vm,ph⟩ own) (hm : Remaps lowPd ⟨vm,ph⟩ own gone set m own')
    (ha : Accessible vm ph addr store) (hgone : ¬ gone (pagePath addr))
    (hset : ∀ e, set (pagePath addr) e → Grants store e) : Accessible m.vm m.phys addr store := by
  obtain ⟨hva,r,hr,-⟩ := id ha
  have hsound : SoundSpace lowPd r vm ph own := ⟨hs.safe,hs.root hr,hr,hs.bounded⟩
  have hsound' : SoundSpace lowPd r m.vm m.phys own' :=
    ⟨hm.safe,(hm.roots r).mpr (hs.root hr),hm.root.trans hr,hm.bounded⟩
  obtain ⟨e,hl,hg⟩ := ha.leafAt hsound
  rcases hm.rest hl with ⟨_,hc⟩ | ⟨e',hl',_,rfl | he⟩
  · exact absurd hc hgone
  · exact hsound'.accessible hva hl' hg
  · exact hsound'.accessible hva hl' (hset e' he)

theorem Ok.of_remaps {own' : Owner} {gone : Path → Prop}
    {set : Path → U64 → Prop} {m : Space} {r : U64} (hs : SpaceOk lowPd ⟨vm,ph⟩ own)
    (hr : vm.userPml4 = some r) (hm : Remaps lowPd ⟨vm,ph⟩ own gone set m own') :
    Ok lowPd m.vm m.phys := ⟨own',r,hm.ok hs,hm.root.trans hr⟩

/-- A stretch adds pages at most, and touches only what user mode could touch. -/
structure Grows (lowPd : U64) (vm : TaskVm) (s s' : Core Objects) : Prop where
  ok : Ok lowPd vm s'.phys
  keeps : Keeps vm s.phys s'.phys
  touched : ∃ new, s'.touched = new ++ s.touched ∧
    ∀ t ∈ new, Accessible vm t.memory t.addr t.store

theorem Grows.refl (h : Ok lowPd c.vm s.phys) : Grows lowPd c.vm s s :=
  ⟨h,fun _ _ => id,[],rfl,by simp⟩

section
variable (h : Grows lowPd c.vm s s')
include h

theorem Grows.trans (h' : Grows lowPd c.vm s' s'') : Grows lowPd c.vm s s'' := by
  obtain ⟨new,heq,hnew⟩ := h.touched
  obtain ⟨new',heq',hnew'⟩ := h'.touched
  refine ⟨h'.ok,fun a st ha => h'.keeps a st (h.keeps a st ha),new' ++ new,?_,?_⟩
  · rw [heq',heq,append_assoc]
  · exact forall_mem_append.mpr ⟨hnew',hnew⟩

theorem Grows.congr (hp : s''.phys = s'.phys)
    (ht : s''.touched = s'.touched) : Grows lowPd c.vm s s'' := by
  refine ⟨hp ▸ h.ok,hp ▸ h.keeps,?_⟩
  rw [ht]
  exact h.touched

theorem Grows.usable (hx : AllUsable c.vm s.phys xs) : AllUsable c.vm s'.phys xs :=
  fun x hm k hk => h.keeps _ _ (hx x hm k hk)

end

theorem allUsable_append {ys : List Buffer} :
    AllUsable vm ph (xs ++ ys) ↔ AllUsable vm ph xs ∧ AllUsable vm ph ys := by
  simp only [AllUsable,mem_append,or_imp,forall_and]

theorem allUsable_cons {x : Buffer} :
    AllUsable vm ph (x :: xs) ↔ x.Usable vm ph ∧ AllUsable vm ph xs := by
  simp only [AllUsable,mem_cons,or_imp,forall_and,forall_eq]

theorem AllUsable.shorten {m : ℕ} (h : AllUsable vm ph (optionalBuffer addr n)) (hm : m ≤ n) :
    AllUsable vm ph (optionalBuffer addr m) := by
  unfold optionalBuffer at h ⊢
  by_cases hz : addr = 0#64
  · rw [if_pos hz]
    simp [AllUsable]
  · rw [if_neg hz] at h ⊢
    intro x hx k hk
    cases mem_singleton.mp hx
    exact h _ (mem_singleton_self _) k (lt_of_lt_of_le hk hm)

/-! ## Loads and stores -/

section
variable (h : Ok lowPd c.vm s.phys)
include h

theorem touch_grows (ha : Accessible c.vm s.phys addr store) (arg : ℕ) :
    Returns (touch c arg addr store) s fun _ s' => Grows lowPd c.vm s s' := by
  have heq : touch c arg addr store s = some (s.phys.vmmTranslateIn c.root addr,
      { s with touched := ⟨arg,addr,store,s.phys⟩ :: s.touched }) := by
    simp [touch,ha.pageIn store,setPhys_self]
  refine ⟨_,_,heq,h,fun _ _ => id,[⟨arg,addr,store,s.phys⟩],rfl,fun t ht => ?_⟩
  cases mem_singleton.mp ht
  exact ha

theorem loadBytes_grows (hu : (⟨addr,n,false⟩ : Buffer).Usable c.vm s.phys)
    (arg : ℕ) : Returns (loadBytes c arg n addr) s fun _ s' => Grows lowPd c.vm s s' := by
  induction n generalizing s addr with
  | zero =>
    simp only [loadBytes,returns_pure]
    exact Grows.refl h
  | succ n ih =>
    have h0 : Accessible c.vm s.phys addr false := by simpa using hu 0 (Nat.succ_pos n)
    simp only [loadBytes,loadByte,returns_bind,returns_get,returns_pure]
    refine (touch_grows h h0 arg).mono fun _ s1 h1 => ?_
    refine (ih h1.ok fun k hk => ?_).mono fun _ s2 h2 => h1.trans h2
    rw [add_one_add_ofNat]
    exact h1.keeps _ _ (hu (k + 1) (Nat.succ_lt_succ hk))

theorem storeBytes_grows {bs : List Byte}
    (hu : (⟨addr,bs.length,true⟩ : Buffer).Usable c.vm s.phys) (arg : ℕ) :
    Returns (storeBytes c arg bs addr) s fun _ s' => Grows lowPd c.vm s s' := by
  induction bs generalizing s addr with
  | nil =>
    simp only [storeBytes,returns_pure]
    exact Grows.refl h
  | cons b bs ih =>
    have h0 : Accessible c.vm s.phys addr true := by simpa using hu 0 (Nat.succ_pos bs.length)
    simp only [storeBytes,storeByte,returns_bind,returns_modify]
    refine (touch_grows h h0 arg).mono fun pa s1 h1 => ?_
    have h1 : Grows lowPd c.vm s { s1 with data := update s1.data pa b } := h1.congr rfl rfl
    refine (ih h1.ok fun k hk => ?_).mono fun _ s2 h2 => h1.trans h2
    rw [add_one_add_ofNat]
    exact h1.keeps _ _ (hu (k + 1) (Nat.succ_lt_succ hk))

theorem storeAt_grows {bs : List Byte}
    (hu : AllUsable c.vm s.phys (optionalBuffer addr bs.length)) (arg : ℕ) :
    Returns (storeAt c arg addr bs) s fun _ s' => Grows lowPd c.vm s s' := by
  unfold storeAt
  by_cases hz : addr = 0#64
  · rw [if_pos hz,returns_pure]
    exact Grows.refl h
  · rw [if_neg hz]
    rw [optionalBuffer,if_neg hz] at hu
    exact storeBytes_grows h (hu _ (mem_singleton_self _)) arg

/-! ## The checks -/

theorem userBufferOk_grows (pointer bytes : U64) (w : Bool) :
    Returns (userBufferOk c pointer bytes w) s fun ok s' => Grows lowPd c.vm s s' ∧
      (ok = true → (⟨pointer,bytes.toNat,w⟩ : Buffer).Usable c.vm s'.phys) := by
  obtain ⟨r,hsound⟩ := h.sound
  obtain ⟨own,r',hs,hr⟩ := h
  obtain ⟨own',hm⟩ : ∃ own', Remaps lowPd ⟨c.vm,s.phys⟩ own (fun _ => False) (fun _ _ => False)
    ⟨c.vm,(c.vm.uvmBufferOk s.phys pointer bytes w).2⟩ own' := hs.bufferOk pointer bytes w
  refine ⟨_,_,rfl,⟨Ok.of_remaps hs hr hm,fun a st ha => ?_,[],rfl,by simp⟩,fun hok => ?_⟩
  · exact accessible_of_remaps hs hm ha id fun _ hc => hc.elim
  · exact (reaching_of_reachRange hsound (uvmBufferOk_reachRange (Prod.ext hok rfl))).finish.2.2

theorem optionalOk_grows (pointer bytes : U64) :
    Returns (optionalOk c pointer bytes) s fun ok s' => Grows lowPd c.vm s s' ∧
      (ok = true → AllUsable c.vm s'.phys (optionalBuffer pointer bytes.toNat)) := by
  unfold optionalOk optionalBuffer
  by_cases hz : pointer = 0#64
  · rw [if_pos hz,if_pos hz,returns_pure]
    exact ⟨Grows.refl h,fun _ => by simp [AllUsable]⟩
  · rw [if_neg hz,if_neg hz]
    refine (userBufferOk_grows h pointer bytes true).mono fun ok s1 h1 => ⟨h1.1,fun hok => ?_⟩
    simpa [AllUsable] using h1.2 hok

/-! ## Stretches -/

/-- What a stretch does: it leaves the space in order and, where it waits, buffers that can be
used after the wait. -/
def Runs (lowPd : U64) (c : Caller) (m : Stretch) (s : Core Objects) : Prop :=
  Returns m s fun r s' => Grows lowPd c.vm s s' ∧
    ∀ w, r = .inr w → AllUsable c.vm s'.phys w.buffers

omit h in
theorem Runs.after (hg : Grows lowPd c.vm s s') (hr : Runs lowPd c m s') :
    Returns m s' fun r s'' => Grows lowPd c.vm s s'' ∧
      ∀ w, r = .inr w → AllUsable c.vm s''.phys w.buffers :=
  Returns.mono hr fun _ _ h => ⟨hg.trans h.1,h.2⟩

omit h in
theorem runs_ite {p : Prop} [Decidable p] {m' : Stretch} (ht : p → Runs lowPd c m s)
    (he : ¬ p → Runs lowPd c m' s) : Runs lowPd c (if p then m else m') s := by
  by_cases hp : p
  · rw [if_pos hp]
    exact ht hp
  · rw [if_neg hp]
    exact he hp

theorem runs_return (rc : ℤ) : Runs lowPd c (pure (.inl rc)) s := by
  rw [Runs,returns_pure]
  exact ⟨Grows.refl h,fun w hw => by cases hw⟩

theorem runs_wait {w : Wait} (hw : AllUsable c.vm s.phys w.buffers) :
    Runs lowPd c (pure (.inr w)) s := by
  rw [Runs,returns_pure]
  refine ⟨Grows.refl h,fun w' hw' => ?_⟩
  cases hw'
  exact hw

theorem grows_kernel (o : Objects) : Grows lowPd c.vm s { s with kernel := o } :=
  (Grows.refl h).congr rfl rfl

theorem waitChild_runs {me pid : ℤ} {status rusage : U64} (nohang signal : Bool)
    (hu : AllUsable c.vm s.phys (Wait.child pid status rusage).buffers) :
    Runs lowPd c (waitChild c me pid status rusage nohang signal) s := by
  unfold Runs waitChild objects setObjects
  simp only [returns_bind,returns_get,returns_pure,returns_modify]
  generalize taskWaitChild s.kernel me pid nohang signal = res
  obtain ⟨res,o⟩ := res
  have h0 : Grows lowPd c.vm s { s with kernel := o } := grows_kernel h o
  refine Runs.after h0 ?_
  cases res with
  | none => exact runs_wait h0.ok hu
  | some res =>
    obtain ⟨hstatus,hrusage⟩ := allUsable_append.mp hu
    refine runs_ite (fun _ => ?_) fun _ => runs_return h0.ok _
    rw [Runs]
    simp only [returns_bind,returns_pure]
    refine (storeAt_grows h0.ok hstatus 0).mono fun _ s1 h1 => ?_
    refine (storeAt_grows h1.ok (h1.usable hrusage) 1).mono fun _ s2 h2 => ?_
    exact ⟨h1.trans h2,fun w hw => by cases hw⟩

section
variable (nonblock signal : Bool)
include nonblock signal

theorem pipeRead_runs {n : U64} (hu : AllUsable c.vm s.phys (Wait.readable i buf n).buffers) :
    Runs lowPd c (pipeRead c i buf n nonblock signal) s := by
  refine runs_ite (fun _ => runs_return h 0) fun _ => ?_
  refine runs_ite (fun _ => ?_) fun _ => ?_
  · exact runs_ite (fun _ => runs_return h 0) fun _ => runs_ite (fun _ => runs_return h _) fun _ =>
      runs_ite (fun _ => runs_return h _) fun _ => runs_wait h hu
  · rw [Runs]
    simp only [setPipe,setObjects,objects,returns_bind,returns_get,returns_pure,returns_modify]
    have hbuf : (⟨buf,n.toNat,true⟩ : Buffer).Usable c.vm s.phys := hu _ (mem_singleton_self _)
    have hlen := Pipe.length_take (s.kernel.pipes i) n.toNat
    refine (storeBytes_grows h (fun k hk => hbuf k ?_) 0).mono fun _ s1 h1 => ?_
    · dsimp only at hk ⊢
      omega
    · exact ⟨h1.congr rfl rfl,fun w hw => by cases hw⟩

theorem writeLoop_grows {p : Pipe} {written : ℕ}
    (hu : (⟨buf + BitVec.ofNat 64 written,n - written,false⟩ : Buffer).Usable c.vm s.phys) :
    Returns (writeLoop c p buf n written nonblock signal) s fun r s' => Grows lowPd c.vm s s' ∧
        (⟨buf + BitVec.ofNat 64 r.2.1,n - r.2.1,false⟩ : Buffer).Usable c.vm s'.phys := by
  -- The measure of the loop: what is left to write.
  induction hk : n - written using Nat.strong_induction_on generalizing p s written with
  | _ left ih =>
  have hstop : ∀ rc : Option ℤ, Returns (pure (p, written, rc)) s fun r s' =>
      Grows lowPd c.vm s s' ∧
        (⟨buf + BitVec.ofNat 64 r.2.1,n - r.2.1,false⟩ : Buffer).Usable c.vm s'.phys := by
    intro rc
    rw [returns_pure]
    exact ⟨Grows.refl h,hu⟩
  rw [writeLoop]
  by_cases hlt : written < n
  swap
  · rw [if_neg hlt]
    exact hstop _
  rw [if_pos hlt]
  by_cases hr : p.readers = 0
  · rw [if_pos hr]
    exact hstop _
  rw [if_neg hr]
  by_cases hroom : pipeCapacity - p.count < if n ≤ pipeBuf then n - written else 1
  · rw [if_pos hroom]
    split_ifs <;> exact hstop _
  rw [if_neg hroom]
  generalize hchunk : (if n - written < pipeCapacity - p.count then n - written
    else pipeCapacity - p.count) = chunk
  have hpos : 0 < chunk ∧ chunk ≤ n - written := by split_ifs at hroom hchunk <;> omega
  rw [returns_bind]
  have hload : (⟨buf + BitVec.ofNat 64 written,chunk,false⟩ : Buffer).Usable c.vm s.phys :=
    fun k hk => hu k (lt_of_lt_of_le hk hpos.2)
  refine (loadBytes_grows h hload 0).mono fun bytes s1 h1 => ?_
  refine (ih (n - (written + chunk)) (by omega) h1.ok (fun k hk => ?_) rfl).mono
    fun r s2 h2 => ⟨h1.trans h2.1,h2.2⟩
  dsimp only at hk ⊢
  have hacc := h1.keeps _ _ (hu (chunk + k) (by dsimp only; omega))
  rw [BitVec.add_assoc,← BitVec.ofNat_add] at hacc ⊢
  rwa [Nat.add_assoc]

theorem pipeWrite_runs {n : U64} {written : ℕ}
    (hu : AllUsable c.vm s.phys (Wait.writable i buf n written).buffers) :
    Runs lowPd c (pipeWrite c i buf n written nonblock signal) s := by
  unfold Runs pipeWrite objects
  simp only [returns_bind,returns_get,returns_pure]
  refine (writeLoop_grows h nonblock signal (hu _ (mem_singleton_self _))).mono
    fun r s1 h1 => ?_
  obtain ⟨p,written',rc⟩ := r
  simp only [setPipe,setObjects,objects,returns_bind,returns_get,returns_pure,returns_modify]
  generalize { s1.kernel with pipes := update s1.kernel.pipes i p } = o
  have h2 : Grows lowPd c.vm s { s1 with kernel := o } := h1.1.congr rfl rfl
  refine Runs.after h2 ?_
  cases rc with
  | some rc => exact runs_return h2.ok _
  | none =>
    refine runs_wait h2.ok fun x hx => ?_
    cases mem_singleton.mp hx
    exact h1.2

theorem recvfrom_runs {len src addrlen : U64}
    (hu : AllUsable c.vm s.phys (Wait.datagram i buf len src addrlen).buffers) :
    Runs lowPd c (recvfrom c i buf len src addrlen nonblock signal) s := by
  unfold Runs recvfrom objects
  simp only [returns_bind,returns_get,returns_pure]
  cases s.kernel.sockets i with
  | nil =>
    exact runs_ite (fun _ => runs_return h _) fun _ => runs_ite (fun _ => runs_return h _) fun _ =>
      runs_wait h hu
  | cons p rest =>
    obtain ⟨hbuf,hopt⟩ := allUsable_cons.mp hu
    obtain ⟨hsrc,haddrlen⟩ := allUsable_append.mp hopt
    simp only [setObjects,returns_bind,returns_pure,returns_modify]
    generalize { s.kernel with sockets := update s.kernel.sockets i rest } = o
    have h0 : Grows lowPd c.vm s { s with kernel := o } := grows_kernel h o
    refine (storeBytes_grows h0.ok (fun k hk => hbuf k ?_) 0).mono fun _ s1 h1 => ?_
    · dsimp only at hk ⊢
      rw [length_take] at hk
      omega
    have h1 := h0.trans h1
    refine (storeAt_grows h1.ok (by exact h1.usable hsrc) 1).mono fun _ s2 h2 => ?_
    have h2 := h1.trans h2
    refine (storeAt_grows h2.ok (by exact h2.usable haddrlen) 2).mono
      fun _ s3 h3 => ?_
    exact ⟨h2.trans h3,fun w hw => by cases hw⟩

end

theorem Wait.goOn_runs {w : Wait} (i : ℤ) (signal : Bool) (hu : AllUsable c.vm s.phys w.buffers) :
    Runs lowPd c (w.goOn c i signal) s := by
  cases w with
  | child => exact waitChild_runs h false signal hu
  | readable => exact pipeRead_runs h false signal hu
  | writable => exact pipeWrite_runs h false signal hu
  | datagram => exact recvfrom_runs h false signal hu

/-! ## Calls from their start -/

omit h in
theorem runs_check {check : Comp (Core Objects) Bool} {rc : ℤ}
    {Q : Core Objects → Prop}
    (hc : Returns check s fun ok s' => Grows lowPd c.vm s s' ∧ (ok = true → Q s'))
    (hm : ∀ s', Grows lowPd c.vm s s' → Q s' → Runs lowPd c m s') :
    Runs lowPd c (do if !(← check) then return .inl rc else m) s := by
  rw [Runs,returns_bind]
  refine hc.mono fun ok s1 h1 => ?_
  refine Runs.after h1.1 ?_
  cases ok with
  | false => exact runs_return h1.1.ok rc
  | true => exact hm s1 h1.1 (h1.2 rfl)

theorem sysWait4_runs (me pid : ℤ) (status : U64) (options : U32) (rusage : U64) (signal : Bool) :
    Runs lowPd c (sysWait4 c me pid status options rusage signal) s := by
  refine runs_check (optionalOk_grows h status 4) fun s1 h1 hstatus => ?_
  refine runs_check (optionalOk_grows h1.ok rusage _) fun s2 h2 hrusage => ?_
  refine runs_ite (fun _ => runs_return h2.ok _) fun _ => ?_
  exact waitChild_runs h2.ok _ signal (allUsable_append.mpr ⟨h2.usable hstatus,hrusage⟩)

theorem sysRead_runs (i : ℕ) (buf n : U64) (nonblock signal : Bool) :
    Runs lowPd c (sysRead c i buf n nonblock signal) s := by
  refine runs_ite (fun _ => runs_return h _) fun _ => ?_
  refine runs_check (userBufferOk_grows h buf n true) fun s1 h1 hbuf => ?_
  exact pipeRead_runs h1.ok nonblock signal (allUsable_cons.mpr ⟨hbuf,by simp [AllUsable]⟩)

theorem sysWrite_runs (i : ℕ) (buf n : U64) (nonblock signal : Bool) :
    Runs lowPd c (sysWrite c i buf n nonblock signal) s := by
  refine runs_ite (fun _ => runs_return h _) fun _ => ?_
  refine runs_check (userBufferOk_grows h buf n false) fun s1 h1 hbuf => ?_
  refine pipeWrite_runs h1.ok nonblock signal (allUsable_cons.mpr ⟨?_,by simp [AllUsable]⟩)
  simpa using hbuf

theorem sysRecvfrom_runs (i : ℕ) (buf len src addrlen : U64) (nonblock signal : Bool) :
    Runs lowPd c (sysRecvfrom c i buf len src addrlen nonblock signal) s := by
  refine runs_ite (fun _ => runs_return h _) fun _ => ?_
  refine runs_check (userBufferOk_grows h buf len true) fun s1 h1 hbuf => ?_
  refine runs_check (optionalOk_grows h1.ok src 16) fun s2 h2 hsrc => ?_
  refine runs_check (optionalOk_grows h2.ok addrlen 4) fun s3 h3 haddrlen => ?_
  have hbuf : (⟨buf,len.toNat,true⟩ : Buffer).Usable c.vm s3.phys :=
    fun k hk => h3.keeps _ _ (h2.keeps _ _ (hbuf k hk))
  refine recvfrom_runs h3.ok nonblock signal
    (allUsable_cons.mpr ⟨hbuf,allUsable_append.mpr ⟨?_,haddrlen⟩⟩)
  exact (h3.usable hsrc).shorten (by decide)

end

/-! ## Runs -/

variable {kernelPml4 : U64} {st : State}

/-- No page fault of the kernel went unanswered, and every byte it touched was then in a page that
user mode could have touched in the same way. -/
def Proper (s : State) : Prop := s.panicked = false ∧ Confined s.vm s.core.touched

structure Fit (lowPd : U64) (s : State) : Prop where
  ok : Ok lowPd s.vm s.core.phys
  calm : s.panicked = false
  confined : Confined s.vm s.core.touched
  usable : ∀ {i w}, s.waiting i = some w → AllUsable s.vm s.core.phys w.buffers

def Uses (s : State) (va : U64) (store : Bool) : Prop :=
  ∃ i w, s.waiting i = some w ∧ ∃ x ∈ w.buffers, x.store = store ∧
    ∃ k < x.len, va = x.addr + BitVec.ofNat 64 k

def Outside (addr bytes va : U64) : Prop :=
  va.toNat < addr.toNat ∨ addr.toNat + bytes.toNat ≤ va.toNat

/-- Pages with buffers of waiting calls are not given back, and those they are going to store
to are not made read-only. -/
def Spares (s : State) : Op → Prop
  | .munmap _ addr len => ∀ bytes, roundUp len = some bytes → ∀ va store, Uses s va store →
      Outside addr bytes va
  | .mprotect _ _ addr len prot => has32 prot PROT_WRITE = false →
      ∀ bytes, roundUp len = some bytes → ∀ va, Uses s va true → Outside addr bytes va
  | .brk _ addr => Space.brkPage addr < Space.brkPage s.vm.brkCurrent →
      ∀ va store, Uses s va store →
        Outside (Space.brkPage addr) (Space.brkPage s.vm.brkCurrent - Space.brkPage addr) va
  | _ => True

theorem Outside.not_rangePages {bytes va : U64} (h : Outside addr bytes va)
    (hva : LowerHalf va) : ¬ RangePages addr bytes (pagePath va) := by
  intro hr
  have hb := hr.bounds hva
  unfold Outside at h
  omega

theorem grants_protToPte {prot : U32} (hne : protToPte prot ≠ 0#64)
    (hw : store = true → has32 prot PROT_WRITE = true) : Grants store (protToPte prot) := by
  unfold protToPte at hne ⊢
  unfold Grants
  split_ifs at hne ⊢ <;> cases store <;> simp_all [has_or] <;> decide

variable (h : Fit lowPd st)
include h

theorem Fit.setWait (i : ℤ) {r : Option Wait}
    (hr : ∀ w, r = some w → AllUsable st.vm st.core.phys w.buffers) :
    Fit lowPd { st with waiting := update st.waiting i r } := by
  refine ⟨h.ok,h.calm,h.confined,fun {j w} hw => ?_⟩
  simp only [update_apply] at hw
  split_ifs at hw with hj
  · exact hr w hw
  · exact h.usable hw

theorem Fit.drop (i : ℤ) :
    Fit lowPd { st with waiting := update st.waiting i none } := h.setWait i fun _ hw => nomatch hw

theorem Fit.perform (i : ℤ) {call : Caller → Stretch}
    (hr : Runs lowPd ⟨st.vm,kernelPml4⟩ (call ⟨st.vm,kernelPml4⟩) st.core) :
    Fit lowPd (st.perform kernelPml4 i call) := by
  obtain ⟨r,core,heq,hg,hwait⟩ := hr
  have hconf : Confined st.vm core.touched := by
    obtain ⟨new,ht,hnew⟩ := hg.touched
    intro t hm
    rw [ht] at hm
    rcases mem_append.mp hm with hm | hm
    · exact hnew t hm
    · exact h.confined t hm
  have hfit : Fit lowPd { st with core := core } :=
    ⟨hg.ok,h.calm,hconf,fun hw => hg.usable (c := ⟨st.vm,kernelPml4⟩) (h.usable hw)⟩
  unfold State.perform
  rw [heq]
  cases r with
  | inl rc => exact hfit.drop i
  | inr w0 => exact hfit.setWait i fun w hw => Option.some.inj hw ▸ hwait w0 rfl

theorem Fit.begin (i : ℤ) {call : Caller → Stretch}
    (hr : Runs lowPd ⟨st.vm,kernelPml4⟩ (call ⟨st.vm,kernelPml4⟩) st.core) :
    Fit lowPd (st.begin kernelPml4 i call) := by
  unfold State.begin
  split_ifs
  · exact h
  · exact h.perform i hr

theorem Fit.resume (i : ℤ) (interrupted signal : Bool) :
    Fit lowPd (st.resume kernelPml4 i interrupted signal) := by
  unfold State.resume
  cases hw : st.waiting i with
  | none => exact h
  | some w =>
    split_ifs
    · exact h.drop i
    · exact h.perform i (Wait.goOn_runs (c := ⟨st.vm,kernelPml4⟩) h.ok i signal (h.usable hw))

omit h in
theorem Accessible.congr {vm' : TaskVm} (hr : vm'.userPml4 = vm.userPml4) {va : U64}
    (h : Accessible vm ph va store) : Accessible vm' ph va store := by
  unfold Accessible at h ⊢
  rw [hr]
  exact h

theorem Fit.mapping (i : ℤ) (call : Space → ℤ × Space) (gone : Path → Prop)
    (set : Path → U64 → Prop) (hcall : ∀ own, SpaceOk lowPd ⟨st.vm,st.core.phys⟩ own → ∃ own',
      Remaps lowPd ⟨st.vm,st.core.phys⟩ own gone set (call ⟨st.vm,st.core.phys⟩).2 own')
    (hgone : ∀ va store, Uses st va store → LowerHalf va → ¬ gone (pagePath va))
    (hset : ∀ va store, Uses st va store → LowerHalf va → ∀ e, set (pagePath va) e → Grants store e) :
    Fit lowPd (st.mapping i call) := by
  unfold State.mapping
  split_ifs
  · exact h
  obtain ⟨own,r,hs,hr⟩ := h.ok
  obtain ⟨own',hm⟩ := hcall own hs
  refine ⟨Ok.of_remaps hs hr hm,h.calm,fun t ht => ?_,fun {j w} hw x hx k hk => ?_⟩
  · exact Accessible.congr hm.root (h.confined t ht)
  · have ha := h.usable hw x hx k hk
    have hu : Uses st (x.addr + BitVec.ofNat 64 k) x.store := ⟨j,w,hw,x,hx,rfl,k,hk,rfl⟩
    exact accessible_of_remaps hs hm ha (hgone _ _ hu ha.1) (hset _ _ hu ha.1)

theorem Fit.step (op : Op) (hsp : Spares st op) : Fit lowPd (step kernelPml4 st op) := by
  cases op with
  | wait4 i pid status options rusage signal =>
    exact h.begin i (sysWait4_runs (c := ⟨st.vm,kernelPml4⟩) h.ok i pid status options rusage signal)
  | read i p buf n nonblock signal =>
    exact h.begin i (sysRead_runs (c := ⟨st.vm,kernelPml4⟩) h.ok p buf n nonblock signal)
  | write i p buf n nonblock signal =>
    exact h.begin i (sysWrite_runs (c := ⟨st.vm,kernelPml4⟩) h.ok p buf n nonblock signal)
  | recvfrom i k buf len src addrlen nonblock signal =>
    exact h.begin i (sysRecvfrom_runs (c := ⟨st.vm,kernelPml4⟩) h.ok k buf len src addrlen nonblock signal)
  | resume i interrupted signal => exact h.resume i interrupted signal
  | munmap i addr len =>
    refine h.mapping i (fun m => m.sysMunmap addr len) (LenPages addr len) (fun _ _ => False)
      (fun own hs => hs.sysMunmap addr len) ?_ fun _ _ _ _ _ hc => hc.elim
    rintro va store hu hva ⟨bytes,hb,hr⟩
    exact (hsp bytes hb va store hu).not_rangePages hva hr
  | mprotect i registered addr len prot =>
    refine h.mapping i (fun m => m.sysMprotect registered addr len prot) (fun _ => False)
      (LenFlags addr len prot) (fun own hs => hs.sysMprotect registered addr len prot)
      (fun _ _ _ _ => id) ?_
    rintro va store hu hva e ⟨bytes,hb,hr,hne,hgr⟩
    refine hgr store (grants_protToPte hne fun hst => ?_)
    subst hst
    by_contra hw
    exact (hsp (by simpa using hw) bytes hb va hu).not_rangePages hva hr
  | brk i addr =>
    refine h.mapping i (fun m => m.sysBrk addr) (BrkPages st.vm addr) (fun _ _ => False)
      (fun own hs => hs.sysBrk addr) ?_ fun _ _ _ _ _ hc => hc.elim
    rintro va store hu hva ⟨hlt,hr⟩
    exact (hsp hlt va store hu).not_rangePages hva hr
  | kill i => exact h.drop i
  | others change => exact ⟨h.ok,h.calm,h.confined,h.usable⟩

omit h

/-- A space in order whose threads are in no call. -/
structure Idle (lowPd : U64) (s : State) : Prop where
  ok : Ok lowPd s.vm s.core.phys
  none : ∀ i, s.waiting i = none
  calm : s.panicked = false
  untouched : s.core.touched = []

theorem Idle.fit (h : Idle lowPd st) : Fit lowPd st := by
  refine ⟨h.ok,h.calm,fun t ht => ?_,fun {i w} hw => ?_⟩
  · rw [h.untouched] at ht
    cases ht
  · rw [h.none] at hw
    cases hw

/-- As long as the buffers of waiting calls are spared, the kernel touches only what user mode
could touch. -/
theorem run_proper (h : Idle lowPd st) {ops : List Op}
    (hops : Admissible (step kernelPml4) Spares st ops) :
    Always (step kernelPml4) Proper st ops :=
  hops.always (fun _ op hs hsp => Fit.step hs op hsp) (fun _ hs => ⟨hs.calm,hs.confined⟩) h.fit

def onePage : List LoadStep :=
  [.page ⟨0x50000000#64,Spaces.image_base_lt⟩ ⟨7#64,Spaces.image_flags_seven⟩]

def idleState : State where
  vm := Spaces.freshVm 0x100000#64 0
  core := ⟨⟨(Spaces.bootState.phys.loadImage Spaces.bootKernel onePage true).2,fun _ => 0⟩,[],
    ⟨fun _ => Pipe.create,fun _ => [],[],fun _ _ => true⟩⟩
  waiting _ := none
  panicked := false

theorem idle_idleState : Idle 0x1000#64 idleState := by
  refine ⟨?_,fun _ => rfl,rfl,rfl⟩
  have hload := Spaces.boot_bootState.owned.safe.loadImage Spaces.boot_bootState.low
    onePage true
  obtain ⟨own,hc⟩ := hload
  refine ⟨own,0x100000#64,⟨hc.safe,⟨fun {r q e r' q' e'} hl hs => ?_⟩,fun hr => ?_,
    (Spaces.vmOk_freshVm _ _).bounded⟩,rfl⟩
  · -- There is no other space, and the image borrows nothing.
    by_cases hr : r = 0x100000#64
    · subst hr
      rw [hc.image.unshared q e hl] at hs
      cases hs
    · obtain ⟨_,_,_,_,_,ho,_⟩ := (hc.leaf hr).mp hl
      cases ho
  · obtain rfl := Option.some.inj hr
    exact hc.image.root

def writeByte (o : Objects) : Objects :=
  { o with pipes := Function.update o.pipes 0 ((o.pipes 0).put [42]) }

def childExits (o : Objects) : Objects := { o with exitRecords := [⟨7,1,0⟩] }

theorem read_across_mprotect_proper :
    Always (step 0) Proper idleState [.read 1 0 0x50000000 8 false false,
      .mprotect 2 (fun _ _ => false) 0x50000000 4096 3, .others writeByte, .resume 1 false false] := by
  refine run_proper idle_idleState ⟨trivial,fun hw => ?_,trivial,trivial,trivial⟩
  exact absurd hw (by decide)

/-- Thread 2 makes the buffer of thread 1 read-only while it waits. -/
def readOnlyOps : List Op :=
  [.read 1 0 0x50000000 8 false false, .mprotect 2 (fun _ _ => false) 0x50000000 4096 1,
    .others writeByte, .resume 1 false false]

/-- The byte for thread 1 is stored all the same; and where thread 2 gives back the page of a
status word, the kernel runs into the hole. -/
theorem waiting_buffers_not_rechecked :
    ¬ Proper (run (step 0) idleState readOnlyOps) ∧
      ¬ Proper (run (step 0) idleState [.wait4 1 7 0x50000000 0 0 false,
        .munmap 2 0x50000000 4096, .others childExits, .resume 1 false false]) := by
  constructor
  · rintro ⟨-,hconf⟩
    have htouched : ((run (step 0) idleState readOnlyOps).core.touched.map fun t => (t.store,
        has (t.memory.vmmEntryIn 0x100000#64 (pageOf t.addr)) vmmWrite)) = [(true, false)] := by
      decide +kernel
    have hroot : (run (step 0) idleState readOnlyOps).vm.userPml4 = some 0x100000#64 := by
      decide +kernel
    obtain ⟨t,ht,hfields⟩ := map_eq_singleton_iff.mp htouched
    obtain ⟨hstore,hwrite⟩ := Prod.mk.inj hfields
    obtain ⟨_,r,hr,_,_,hgrant⟩ := hconf t (ht ▸ mem_singleton_self t)
    obtain rfl := Option.some.inj (hroot.symm.trans hr)
    rw [hgrant hstore] at hwrite
    cases hwrite
  · rintro ⟨hcalm,-⟩
    exact absurd hcalm (by decide +kernel)

end GaiaKernel.Blocking
