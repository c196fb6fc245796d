import GaiaKernel.Syscall.AccessSpec

/-! # Programs that touch a range

`Reaching` is the state of a loop that goes through a range byte by byte: what is left of
the range can still be paged in. `Used` is what such a loop leaves behind: touches through
known arguments that user mode could have made, with every page still in place.
-/
namespace GaiaKernel
open Exec List
open BitVec (ofNat le_def)
variable {κ : Type} {lowPd r : U64} {ph ph' ph'' : Phys} {c : Caller} {addr : U64} {store : Bool}
  {n arg : ℕ} {s s' s'' : Core κ} {P : ℕ → Prop}

def Confined (vm : TaskVm) (touched : List Touch) : Prop :=
  ∀ t ∈ touched, Accessible vm t.memory t.addr t.store

def Sound (lowPd r : U64) (vm : TaskVm) (ph : Phys) : Prop :=
  ∃ own, SoundSpace lowPd r vm ph own

def Keeps (vm : TaskVm) (ph ph' : Phys) : Prop :=
  ∀ a st, Accessible vm ph a st → Accessible vm ph' a st

structure Reaching (lowPd r : U64) (vm : TaskVm) (store : Bool) (n : ℕ) (addr : U64)
    (ph ph' : Phys) : Prop where
  sound : Sound lowPd r vm ph
  bound : n = 0 ∨ addr.toNat + n ≤ 2 ^ 47
  reach : reachBytes vm store n addr ph = (true, ph')

/-- From `s` to `s'` only touches through arguments in `P` happened, each one confined, and
no page went away. -/
structure Used (lowPd r : U64) (vm : TaskVm) (P : ℕ → Prop) (s s' : Core κ) : Prop where
  sound : Sound lowPd r vm s'.phys
  keeps : Keeps vm s.phys s'.phys
  touched : ∃ new, s'.touched = new ++ s.touched ∧
    ∀ t ∈ new, P t.arg ∧ Accessible vm t.memory t.addr t.store

theorem Used.refl (h : Sound lowPd r c.vm s.phys) : Used lowPd r c.vm P s s :=
  ⟨h,fun _ _ => id,[],rfl,by simp⟩

section
variable (h : Used lowPd r c.vm P s s')
include h

theorem Used.trans (h' : Used lowPd r c.vm P s' s'') : Used lowPd r c.vm P s s'' := by
  obtain ⟨new,heq,hnew⟩ := h.touched
  obtain ⟨new',heq',hnew'⟩ := h'.touched
  refine ⟨h'.sound,fun a st ha => h'.keeps a st (h.keeps a st ha),new' ++ new,?_,?_⟩
  · rw [heq',heq,append_assoc]
  · exact forall_mem_append.mpr ⟨hnew',hnew⟩

theorem Used.mono {Q : ℕ → Prop} (hPQ : ∀ k, P k → Q k) : Used lowPd r c.vm Q s s' := by
  obtain ⟨new,heq,hnew⟩ := h.touched
  exact ⟨h.sound,h.keeps,new,heq,fun t ht => ⟨hPQ _ (hnew t ht).1,(hnew t ht).2⟩⟩

theorem Used.congr (hp : s''.phys = s'.phys)
    (ht : s''.touched = s'.touched) : Used lowPd r c.vm P s s'' := by
  refine ⟨hp ▸ h.sound,hp ▸ h.keeps,?_⟩
  rw [ht]
  exact h.touched

theorem Used.confined (hs : s.touched = []) : Confined c.vm s'.touched := by
  obtain ⟨new,heq,hnew⟩ := h.touched
  rw [heq,hs,append_nil]
  exact fun t ht => (hnew t ht).2

end

theorem setPhys_self (s : Core κ) : s.setPhys s.phys = s := by
  have h : s.toMemory.setPhys s.phys = s.toMemory := by
    unfold Memory.setPhys
    congr
    funext a
    simp
  rw [Core.setPhys,h]

theorem Reaching.uncons (h : Reaching lowPd r c.vm store (n + 1) addr ph ph') :
    ∃ ph1, Reaching lowPd r c.vm store n (addr + 1) ph1 ph' ∧ Accessible c.vm ph1 addr store ∧
      Keeps c.vm ph ph1 ∧ ∀ st, st = store ∨ st = false → c.pageIn ph addr st = some ph1 := by
  obtain ⟨⟨own,hs⟩,hb,hr⟩ := h
  have hva : LowerHalf addr := by unfold LowerHalf; omega
  simp only [reachBytes] at hr
  cases hf : c.vm.uvmFaultIn ph addr store with
  | mk ok ph1 =>
  cases ok with
  | false => simp [hf] at hr
  | true =>
    simp only [hf] at hr
    obtain ⟨own1,hx,hacc,hin,hin'⟩ := hs.faultIn hva hf
    refine ⟨ph1,⟨⟨own1,hx.sound⟩,?_,hr⟩,hacc,fun a st => hx.accessible hs,?_⟩
    · rw [hva.toNat_add_one]
      omega
    · rintro st (rfl | rfl)
      · exact hin
      · exact hin'

theorem Reaching.end_eq (h : Reaching lowPd r c.vm store 0 addr ph ph') : ph = ph' :=
  congrArg Prod.snd h.reach

section
variable (h : Reaching lowPd r c.vm store (n + 1) addr s.phys ph') (hP : P arg)
include h hP

theorem Reaching.touch {st : Bool} (hst : st = store ∨ st = false) :
    Returns (GaiaKernel.touch c arg addr st) s fun _ s' =>
      Used lowPd r c.vm P s s' ∧ Accessible c.vm s'.phys addr store ∧
        Reaching lowPd r c.vm store n (addr + 1) s'.phys ph' := by
  obtain ⟨ph1,hnext,hacc,hk,hin⟩ := h.uncons
  have heq : GaiaKernel.touch c arg addr st s = some (ph1.vmmTranslateIn c.root addr,
      { s.setPhys ph1 with touched := ⟨arg,addr,st,ph1⟩ :: s.touched }) := by
    simp [GaiaKernel.touch,hin st hst]
  refine ⟨_,_,heq,⟨hnext.sound,hk,[⟨arg,addr,st,ph1⟩],rfl,?_⟩,hacc,hnext⟩
  intro t ht
  cases mem_singleton.mp ht
  refine ⟨hP,?_⟩
  rcases hst with rfl | rfl
  · exact hacc
  · exact hacc.load

theorem Reaching.loadByte : Returns (GaiaKernel.loadByte c arg addr) s fun _ s' =>
      Used lowPd r c.vm P s s' ∧ Accessible c.vm s'.phys addr store ∧
        Reaching lowPd r c.vm store n (addr + 1) s'.phys ph' := by
  unfold GaiaKernel.loadByte
  simp only [returns_bind,returns_get,returns_pure]
  exact h.touch hP (Or.inr rfl)

end

theorem Reaching.storeByte (h : Reaching lowPd r c.vm true (n + 1) addr s.phys ph') (hP : P arg)
    (b : Byte) : Returns (GaiaKernel.storeByte c arg addr b) s fun _ s' =>
      Used lowPd r c.vm P s s' ∧ Accessible c.vm s'.phys addr true ∧
        Reaching lowPd r c.vm true n (addr + 1) s'.phys ph' := by
  unfold GaiaKernel.storeByte
  rw [returns_bind]
  apply (h.touch hP (Or.inl rfl)).mono
  rintro pa s1 ⟨hu,hacc,hr⟩
  rw [returns_modify]
  exact ⟨hu.congr rfl rfl,hacc,hr⟩

theorem add_one_add_ofNat (addr : U64) (k : ℕ) :
    addr + 1 + ofNat 64 k = addr + ofNat 64 (k + 1) := by
  rw [BitVec.add_assoc,Nat.add_comm k 1,BitVec.ofNat_add]
  rfl

theorem Reaching.loadBytes {k : ℕ} (h : Reaching lowPd r c.vm store n addr s.phys ph') (hP : P arg)
    (hk : k ≤ n) : Returns (GaiaKernel.loadBytes c arg k addr) s fun _ s' =>
      Used lowPd r c.vm P s s' ∧
        (∀ i < k, Accessible c.vm s'.phys (addr + ofNat 64 i) store) ∧
        Reaching lowPd r c.vm store (n - k) (addr + ofNat 64 k) s'.phys ph' := by
  induction k generalizing n addr s with
  | zero =>
    simp only [GaiaKernel.loadBytes,returns_pure]
    exact ⟨Used.refl h.sound,by simp,by simpa using h⟩
  | succ k ih =>
    obtain ⟨n,rfl⟩ : ∃ m, n = m + 1 := ⟨n - 1,by omega⟩
    simp only [GaiaKernel.loadBytes,returns_bind,returns_pure]
    apply (h.loadByte hP).mono
    rintro b s1 ⟨hu,hacc,hr⟩
    apply (ih hr (by omega)).mono
    rintro bs s2 ⟨hu',hall,hr'⟩
    refine ⟨hu.trans hu',?_,?_⟩
    · intro i hi
      cases i with
      | zero => simpa using hu'.keeps _ _ hacc
      | succ i => rw [← add_one_add_ofNat]; exact hall i (by omega)
    · rw [← add_one_add_ofNat,show n + 1 - (k + 1) = n - k by omega]
      exact hr'

theorem Reaching.storeBytes {bs : List Byte} (h : Reaching lowPd r c.vm true n addr s.phys ph')
    (hP : P arg) (hk : bs.length ≤ n) : Returns (GaiaKernel.storeBytes c arg bs addr) s fun _ s' =>
      Used lowPd r c.vm P s s' ∧
        Reaching lowPd r c.vm true (n - bs.length) (addr + ofNat 64 bs.length) s'.phys ph' := by
  induction bs generalizing n addr s with
  | nil =>
    simp only [GaiaKernel.storeBytes,returns_pure]
    exact ⟨Used.refl h.sound,by simpa using h⟩
  | cons b bs ih =>
    rw [length_cons] at hk
    obtain ⟨n,rfl⟩ : ∃ m, n = m + 1 := ⟨n - 1,by omega⟩
    simp only [GaiaKernel.storeBytes,returns_bind]
    apply (h.storeByte hP b).mono
    rintro _ s1 ⟨hu,_,hr⟩
    apply (ih hr (by omega)).mono
    rintro _ s2 ⟨hu',hr'⟩
    refine ⟨hu.trans hu',?_⟩
    rw [length_cons,← add_one_add_ofNat,show n + 1 - (bs.length + 1) = n - bs.length by omega]
    exact hr'

theorem reaching_of_reachRange (h : Sound lowPd r c.vm ph)
    (hr : reachRange c.vm addr n store ph = (true, ph')) : Reaching lowPd r c.vm store n addr ph ph' := by
  unfold reachRange at hr
  split_ifs at hr with hn hb
  · subst hn
    exact ⟨h,Or.inl rfl,hr⟩
  · obtain ⟨own,hs⟩ := h
    exact ⟨⟨own,hs⟩,Or.inr hb,hs.reachBytes (Nat.pos_of_ne_zero hn) hb hr⟩
  · cases hr

theorem Reaching.finish (h : Reaching lowPd r c.vm store n addr ph ph') :
    Sound lowPd r c.vm ph' ∧ Keeps c.vm ph ph' ∧
      ∀ i < n, Accessible c.vm ph' (addr + ofNat 64 i) store := by
  induction n generalizing addr ph with
  | zero =>
    cases h.end_eq
    exact ⟨h.sound,fun _ _ => id,by simp⟩
  | succ n ih =>
    obtain ⟨ph1,hnext,hacc,hk,_⟩ := h.uncons
    obtain ⟨hs,hk',hall⟩ := ih hnext
    refine ⟨hs,fun a st ha => hk' a st (hk a st ha),?_⟩
    intro i hi
    cases i with
    | zero => simpa using hk' _ _ hacc
    | succ i => rw [← add_one_add_ofNat]; exact hall i (by omega)

theorem reaching_of_accessible (h : Sound lowPd r c.vm ph)
    (hall : ∀ i < n, Accessible c.vm ph (addr + ofNat 64 i) store) :
    Reaching lowPd r c.vm store n addr ph ph := by
  induction n generalizing addr with
  | zero => exact ⟨h,Or.inl rfl,rfl⟩
  | succ n ih =>
    have h0 : Accessible c.vm ph addr store := by simpa using hall 0 (Nat.succ_pos n)
    have hrest : Reaching lowPd r c.vm store n (addr + 1) ph ph := by
      apply ih
      intro i hi
      rw [add_one_add_ofNat]
      exact hall (i + 1) (by omega)
    refine ⟨h,?_,?_⟩
    · have := h0.1.toNat_add_one
      have := h0.1
      unfold LowerHalf at this
      rcases hrest.bound with rfl | hb <;> omega
    · simp only [reachBytes,h0.uvmFaultIn]
      exact hrest.reach

theorem uvmBufferOk_reachRange {vm : TaskVm} {pointer bytes : U64}
    (h : vm.uvmBufferOk ph pointer bytes store = (true, ph')) :
    reachRange vm pointer bytes.toNat store ph = (true, ph') := by
  unfold TaskVm.uvmBufferOk at h
  unfold reachRange
  by_cases hz : bytes = 0#64
  · subst hz
    exact h
  rw [if_neg hz] at h
  have hz' : bytes.toNat ≠ 0 := fun hc => hz (BitVec.eq_of_toNat_eq hc)
  rw [if_neg hz']
  by_cases hroot : vm.userPml4.isNone = true
  · rw [if_pos hroot] at h; cases h
  rw [if_neg hroot] at h
  dsimp only at h
  by_cases hwrap : pointer < userVaMin ∨ pointer + bytes < pointer
  · rw [if_pos hwrap] at h; cases h
  rw [if_neg hwrap] at h
  simp only [not_or,BitVec.lt_def,not_lt] at hwrap
  have hsum : (pointer + bytes).toNat = pointer.toNat + bytes.toNat := by
    have h3 := hwrap.2
    rw [BitVec.toNat_add] at h3 ⊢
    omega
  split_ifs at h with hlim
  · cases h
  have hb : pointer.toNat + bytes.toNat ≤ 2 ^ 47 := by
    have hmax : userVaMax.toNat ≤ 2 ^ 47 := by decide
    have htop : userStackTop.toNat ≤ 2 ^ 47 := by decide
    simp only [Bool.and_eq_true,Bool.not_eq_true',decide_eq_false_iff_not,Bool.and_eq_false_iff,
      not_and,not_or,not_not,le_def,hsum] at hlim
    by_cases hle : pointer.toNat + bytes.toNat ≤ userVaMax.toNat
    · omega
    · omega
  rw [if_pos hb]
  have hlast : (pointer + bytes - 1).toNat = pointer.toNat + bytes.toNat - 1 := by
    have h1 : (1 : U64).toNat = 1 := rfl
    rw [BitVec.toNat_sub_of_le (by rw [le_def,hsum,h1]; omega),hsum,h1]
  have hcount : (pageOf (pointer + bytes - 1) - pageOf pointer).toNat / 4096 + 1 =
      pagesSpanned pointer bytes.toNat := by
    rw [BitVec.toNat_sub_of_le,pageOf_toNat,pageOf_toNat,hlast]
    · unfold pagesSpanned
      omega
    · rw [le_def,pageOf_toNat,pageOf_toNat,hlast]
      omega
  rwa [hcount] at h

end GaiaKernel
