import GaiaKernel.Syscall.DirReader

/-! # What each handler touches

For every loop of the handlers: over a range that can be paged in, it returns, and it
touches nothing but the range.
-/
namespace GaiaKernel.Syscall
open Exec
open Used (refl trans)
variable {Dir : Type} {env : Env Dir} {lowPd r : U64} {ph ph' : Phys} {addr out buf : U64}
  {arg n : ℕ} {s s' : Core Kern} {P : ℕ → Prop} {store : Bool}

theorem length_le {w : ℕ} (k : ℕ) (v : BitVec w) : (le k v).length = k := by simp [le]

theorem Msg.length_bytes (m : Msg) : m.bytes.length = 12 := by
  simp [Msg.bytes,length_le]

theorem IpcMsg.length_bytes (m : IpcMsg) : m.bytes.length = 88 := by
  simp [IpcMsg.bytes,length_le]

theorem userBufferOk_spec (h : Sound lowPd r env.vm s.phys) (pointer bytes : U64) (w : Bool) :
    Returns (userBufferOk env.toCaller pointer bytes w) s fun ok s' =>
      Used lowPd r env.vm P s s' ∧ s' = s.setPhys s'.phys ∧
        (ok = true → reachRange env.vm pointer bytes.toNat w s.phys = (true, s'.phys)) := by
  obtain ⟨own,hs⟩ := h
  obtain ⟨own',hf⟩ := TaskVm.uvmBufferOk_faulted hs.vmRoot hs.bounded hs.safe hs.root pointer bytes w
  have hx := hs.faulted hf
  refine ⟨_,_,rfl,⟨⟨own',hx.sound⟩,fun _ _ => hx.accessible hs,[],rfl,by simp⟩,rfl,?_⟩
  intro hok
  exact uvmBufferOk_reachRange (Prod.ext hok rfl)

theorem takeMsg_reaching (h : Reaching lowPd r env.vm true 12 out s.phys ph') (hP : P 0) (drop : Bool) :
    Returns (takeMsg env drop out) s fun _ s' => Used lowPd r env.vm P s s' := by
  unfold takeMsg kernel
  simp only [returns_bind,returns_get,returns_pure]
  cases s.kernel.input with
  | none =>
    simp only [returns_pure]
    exact refl h.sound
  | some ring =>
    dsimp only
    by_cases hempty : ring.tail = ring.head
    · rw [if_pos hempty,returns_pure]
      exact refl h.sound
    · rw [if_neg hempty,returns_bind]
      apply (h.storeBytes hP (le_of_eq (ring.slots ring.tail).length_bytes)).mono
      rintro _ s1 ⟨hu,_⟩
      cases drop with
      | false => simpa using hu
      | true =>
        simp only [modifyKernel,if_true,returns_bind,returns_modify,returns_pure]
        exact hu.congr rfl rfl

theorem ipcRecv_reaching (h : Reaching lowPd r env.vm true 88 out s.phys ph') (hP : P 0) :
    Returns (ipcRecv env out) s fun _ s' => Used lowPd r env.vm P s s' := by
  unfold ipcRecv kernel
  simp only [returns_bind,returns_get,returns_pure]
  cases s.kernel.ipc env.pid with
  | none =>
    simp only [returns_pure]
    exact refl h.sound
  | some ring =>
    dsimp only
    by_cases hempty : ring.tail = ring.head
    · rw [if_pos hempty,returns_pure]
      exact refl h.sound
    · rw [if_neg hempty,returns_bind]
      apply (h.storeBytes hP (le_of_eq (ring.slots ring.tail).length_bytes)).mono
      rintro _ s1 ⟨hu,_⟩
      simp only [modifyKernel,returns_bind,returns_modify,returns_pure]
      exact hu.congr rfl rfl

theorem ipcSend_reaching {m : U64} (h : Reaching lowPd r env.vm false 88 m s.phys ph') (hP : P 0)
    (target : ℤ) : Returns (ipcSend env target m) s fun _ s' => Used lowPd r env.vm P s s' := by
  unfold ipcSend kernel
  simp only [returns_bind,returns_get,returns_pure]
  cases s.kernel.accepts target with
  | none =>
    simp only [returns_pure]
    exact refl h.sound
  | some ring =>
    simp only [modifyKernel,returns_bind,returns_modify,returns_pure]
    apply (h.loadBytes hP le_rfl).mono
    rintro _ s1 ⟨hu,_⟩
    exact hu.congr rfl rfl

theorem writeLoop_reaching (h : Reaching lowPd r env.vm false n addr s.phys ph') (hP : P 0)
    (put : Byte → Kern → Kern) :
    Returns (writeLoop env put n addr) s fun _ s' => Used lowPd r env.vm P s s' := by
  induction n generalizing addr s with
  | zero =>
    simp only [writeLoop,returns_pure]
    exact refl h.sound
  | succ n ih =>
    simp only [writeLoop,modifyKernel,returns_bind,returns_modify]
    apply (h.loadByte hP).mono
    rintro b s1 ⟨hu,_,hr⟩
    refine (ih ?_).mono fun _ s2 hu2 => trans (hu.congr ?_ ?_) hu2
    · exact hr
    · rfl
    · rfl

theorem ttyWriteCh_reaching (h : Reaching lowPd r env.vm false n buf s.phys ph') (hP : P 0) (idx : ℤ) :
    Returns (ttyWriteCh env idx buf n) s fun _ s' => Used lowPd r env.vm P s s' := by
  unfold ttyWriteCh
  by_cases hidx : idx = ttyKernel
  · rw [if_pos hidx]
    exact writeLoop_reaching h hP _
  · rw [if_neg hidx]
    simp only [kernel,returns_bind,returns_get,returns_pure]
    by_cases hv : (!s.kernel.chanValid idx) = true
    · rw [if_pos hv,returns_pure]
      exact refl h.sound
    · rw [if_neg hv]
      exact writeLoop_reaching h hP _

theorem drainInto_reaching (h : Reaching lowPd r env.vm true n addr s.phys ph') (hP : P 0)
    (field : RingField) (idx : ℤ) :
    Returns (drainInto env field idx n addr) s fun _ s' => Used lowPd r env.vm P s s' := by
  induction n generalizing addr s with
  | zero =>
    simp only [drainInto,returns_pure]
    exact refl h.sound
  | succ n ih =>
    simp only [drainInto,kernel,returns_bind,returns_get,returns_pure]
    by_cases hempty : (field.get (s.kernel.chans idx)).tail = (field.get (s.kernel.chans idx)).head
    · rw [if_pos hempty,returns_pure]
      exact refl h.sound
    · rw [if_neg hempty]
      simp only [modifyKernel,returns_bind,returns_modify,returns_pure]
      apply (h.storeByte hP _).mono
      rintro _ s1 ⟨hu,_,hr⟩
      refine (ih ?_).mono fun _ s2 hu2 => trans (hu.congr ?_ ?_) hu2
      · exact hr
      · rfl
      · rfl

theorem fromChannel_reaching (h : Reaching lowPd r env.vm true n out s.phys ph') (hP : P 0)
    (field : RingField) (idx : ℤ) :
    Returns (fromChannel (drainInto env field) idx out n) s fun _ s' => Used lowPd r env.vm P s s' := by
  unfold fromChannel
  simp only [kernel,returns_bind,returns_get,returns_pure]
  by_cases hv : (!s.kernel.chanValid idx || decide (out = 0#64)) = true
  · rw [if_pos hv,returns_pure]
    exact refl h.sound
  · rw [if_neg hv]
    exact drainInto_reaching h hP field idx

theorem storeThrough_reaching {pointer : U64} {bytes : List Byte} (hs : Sound lowPd r env.vm s.phys)
    (h : pointer ≠ 0#64 → Reaching lowPd r env.vm true bytes.length pointer s.phys ph')
    (h0 : pointer = 0#64 → ph' = s.phys) (hP : P arg) :
    Returns (storeThrough env arg pointer bytes) s fun _ s' =>
      s'.phys = ph' ∧ Used lowPd r env.vm P s s' := by
  unfold storeThrough
  by_cases hz : pointer = 0#64
  · rw [if_pos hz,returns_pure]
    exact ⟨(h0 hz).symm,refl hs⟩
  · rw [if_neg hz]
    apply ((h hz).storeBytes hP le_rfl).mono
    rintro _ s1 ⟨hu,hr⟩
    rw [Nat.sub_self] at hr
    exact ⟨hr.end_eq,hu⟩

end GaiaKernel.Syscall
