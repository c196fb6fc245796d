import GaiaKernel.Sched.Signal
import Mathlib.Tactic.IntervalCases

/-! # A signal handler gives the interrupted state back

The frame that `deliver` pushes is found again by `signal_sigreturn`, byte for byte, as long as
nothing in between writes to it, further deliveries and returns to any depth included.
-/
namespace GaiaKernel.Signal
open Bytes (slice blit leNat leBytes leFields)
open BitVec (ofNat eq_of_toNat_eq toNat_add toNat_ofNat toNat_sub lt_def le_def toNat)
open Signal.Task (fxVa frameVa)

/-! ### Masks -/

theorem and_not_and (x u : U64) : x &&& ~~~u &&& u = 0#64 := by
  rw [BitVec.and_assoc,BitVec.and_comm (~~~u),BitVec.and_not_self]
  exact BitVec.and_zero

theorem and_not_of_and_eq_zero {x u : U64} (h : x &&& u = 0#64) : x &&& ~~~u = x := by
  apply BitVec.eq_of_getLsbD_eq
  intro i hi
  have hbit := congrArg (fun y => BitVec.getLsbD y i) h
  simp only [BitVec.getLsbD_and,BitVec.getLsbD_zero] at hbit
  cases hx : x.getLsbD i <;> simp_all

/-! ### Buffers -/

namespace Vm
variable {vm : Vm} {base bytes : U64} {w : Bool}

def UserRange (lo hi : ℕ) : Prop :=
  userVaMin.toNat ≤ lo ∧ hi < 2 ^ 64 ∧
    (hi ≤ userVaMax.toNat ∨ userStackLow.toNat ≤ lo ∧ hi ≤ userStackTop.toNat)

theorem pages_iff {count bytes : ℕ} (hpos : 0 < bytes) (hfit : base.toNat + bytes < 2 ^ 64)
    (hcount : count = ((base.toNat + bytes - 1) / 4096 * 4096 - base.toNat / 4096 * 4096) / 4096 + 1)
    {P : U64 → Prop} : (∀ k < count, P (pageOf base + ofNat 64 (4096 * k))) ↔
      ∀ a, base.toNat ≤ a → a < base.toNat + bytes → P (pageOf (ofNat 64 a)) := by
  have hpage (k a : ℕ) (ha : a < 2 ^ 64) (hk : base.toNat / 4096 + k = a / 4096) :
      pageOf base + ofNat 64 (4096 * k) = pageOf (ofNat 64 a) := by
    apply eq_of_toNat_eq
    rw [toNat_add,pageOf_toNat,pageOf_toNat,toNat_ofNat,toNat_ofNat,
      Nat.mod_eq_of_lt ha]
    omega
  constructor
  · intro h a hlo hhi
    rw [← hpage (a / 4096 - base.toNat / 4096) a (by omega) (by omega)]
    exact h _ (by omega)
  · intro h k hk
    rw [hpage k (max base.toNat (base.toNat / 4096 * 4096 + 4096 * k)) (by omega) (by omega)]
    exact h _ (by omega) (by omega)

theorem uvmBufferOk_iff (hbytes : bytes ≠ 0#64) : vm.uvmBufferOk base bytes w = true ↔
      UserRange base.toNat (base.toNat + bytes.toNat) ∧
        ∀ a, base.toNat ≤ a → a < base.toNat + bytes.toNat →
          vm.faultIn (pageOf (ofNat 64 a)) w = true := by
  have hpos : 0 < bytes.toNat := by
    rw [Nat.pos_iff_ne_zero]
    intro h0
    exact hbytes (eq_of_toNat_eq h0)
  have hstop : (base + bytes).toNat = (base.toNat + bytes.toNat) % 2 ^ 64 := toNat_add _ _
  unfold uvmBufferOk UserRange
  rw [if_neg hbytes]
  by_cases hfit : base.toNat + bytes.toNat < 2 ^ 64
  · have hlast : (base + bytes - 1#64).toNat = base.toNat + bytes.toNat - 1 := by
      rw [toNat_sub,hstop]
      simp only [toNat_ofNat]
      omega
    simp only [lt_def,le_def,hstop]
    split
    · refine iff_of_false (by simp) ?_
      omega
    · split
      · refine iff_of_false (by simp) ?_
        omega
      · rw [List.all_eq_true,and_iff_right (by omega)]
        simp only [List.mem_range]
        exact pages_iff (P := fun page => vm.faultIn page w = true) hpos hfit
          (by rw [pageOf_toNat,pageOf_toNat,hlast])
  · have hwrap : base + bytes < base := by
      rw [lt_def]
      omega
    rw [if_pos (.inr hwrap)]
    refine iff_of_false (by simp) ?_
    omega

end Vm

/-! ### Where the frame lies -/

structure Room (rsp : U64) : Prop where
  below_zone : (fxVa rsp).toNat + 512 + 128 ≤ rsp.toNat
  below_image : (frameVa rsp).toNat + 440 ≤ (fxVa rsp).toNat

variable (rsp : U64)

theorem fxVa_toNat : (fxVa rsp).toNat = (rsp.toNat + 2 ^ 64 - 640) % 2 ^ 64 / 64 * 64 := by
  have hsub : (rsp - redZone - ofNat 64 fxsaveBytes).toNat =
      (rsp.toNat + 2 ^ 64 - 640) % 2 ^ 64 := by
    simp only [redZone,fxsaveBytes,toNat_sub,toNat_ofNat]
    omega
  rw [fxVa,and_mask_toNat _ _ 6 (by decide),hsub]
  rfl

theorem frameVa_toNat : (frameVa rsp).toNat =
    (((fxVa rsp).toNat + 2 ^ 64 - 440) % 2 ^ 64 / 16 * 16 + 2 ^ 64 - 8) % 2 ^ 64 := by
  have hsub : (fxVa rsp - sigframeBytes).toNat = ((fxVa rsp).toNat + 2 ^ 64 - 440) % 2 ^ 64 := by
    simp only [sigframeBytes,toNat_sub,toNat_ofNat]
    omega
  rw [frameVa,toNat_sub,and_mask_toNat _ _ 4 (by decide),hsub]
  simp only [toNat_ofNat]
  omega

theorem room_of_le {rsp : U64} (h : (frameVa rsp).toNat ≤ rsp.toNat) : Room rsp := by
  have hfx := fxVa_toNat rsp
  have hframe := frameVa_toNat rsp
  constructor <;> omega

theorem frameVa_mod : (frameVa rsp).toNat % 16 = 8 := by
  rw [frameVa_toNat]
  omega

theorem fxVa_aligned : has (fxVa rsp) 15#64 = false := by
  have hand : (fxVa rsp &&& 15#64).toNat = (fxVa rsp).toNat % 16 := by
    exact Nat.and_two_pow_sub_one_eq_mod _ 4
  have hzero : fxVa rsp &&& 15#64 = 0#64 := by
    apply eq_of_toNat_eq
    rw [hand,fxVa_toNat]
    change _ = 0
    omega
  rw [has,hzero]
  rfl

variable {a : ℕ} {t₂ : Task}
namespace Task
variable {t t' t₁ : Task} {err trapno : U64}

theorem deliver_entered (h : t.deliver err trapno = .entered t₁) :
    ∃ sig act pending, t₁ = { t.enter sig act err trapno with sigPending := pending } ∧
      t.vm.uvmBufferOk (frameVa t.regs.rsp) (t.regs.rsp - frameVa t.regs.rsp) true = true := by
  unfold deliver at h
  dsimp only at h
  split_ifs at h with h1 h2 h3 h4 h5 h6
  cases h
  refine ⟨_,_,_,rfl,?_⟩
  simpa using (not_or.mp h6).2

theorem deliver_unchanged (h : t.deliver err trapno = .unchanged t') :
    ∃ pending, t' = { t with sigPending := pending } := by
  unfold deliver at h
  dsimp only at h
  split_ifs at h <;> cases h <;> exact ⟨_,rfl⟩

/-! ### The frame while the handler runs -/

/-- The bytes that `signal_sigreturn` reads back: the `ucontext` and the FPU image. -/
def frameBytes (rsp : U64) : Set ℕ :=
  { a | (frameVa rsp).toNat + 8 ≤ a ∧ a < (frameVa rsp).toNat + 8 + 304 ∨
    (fxVa rsp).toNat ≤ a ∧ a < (fxVa rsp).toNat + 512 }

/-- The operation does not write to the bytes of `F` and leaves them readable. A delivery spares
them if its own frame is pushed below them, or elsewhere. -/
def Spares (F : Set ℕ) (t : Task) : Op → Prop
  | .user _ _ mem => ∀ a ∈ F, mem a = t.mem a
  | .remap vm => ∀ a ∈ F, vm.faultIn (pageOf (BitVec.ofNat 64 a)) false = true
  | .deliver _ _ => ∀ a ∈ F, t.regs.rsp.toNat ≤ a ∨ a < (frameVa t.regs.rsp).toNat
  | .sigprocmask _ _ old _ => ∀ a ∈ F, a < old.toNat ∨ old.toNat + 8 ≤ a
  | .sigaction _ _ old _ => ∀ a ∈ F, a < old.toNat ∨ old.toNat + 32 ≤ a
  | .exec .. => False
  | .send _ | .sigreturn | .ret => True

def Step (F : Set ℕ) (t t' : Task) : Prop := ∃ op, Spares F t op ∧ t.apply op = .ok t'

def Intact (F : Set ℕ) (m : ℕ → Byte) (t : Task) : Prop :=
  ∀ a ∈ F, t.mem a = m a ∧ t.vm.faultIn (pageOf (BitVec.ofNat 64 a)) false = true

variable {F : Set ℕ} {m : ℕ → Byte}
variable (h : t.deliver err trapno = .entered t₁)
include h

theorem room_of_entered : Room t.regs.rsp := by
  obtain ⟨sig,act,pending,-,hok⟩ := deliver_entered h
  apply room_of_le
  by_contra hlt
  -- a frame above the stack pointer would make the length wrap
  have hsub : (t.regs.rsp - frameVa t.regs.rsp).toNat =
      2 ^ 64 - (frameVa t.regs.rsp).toNat + t.regs.rsp.toNat := by
    rw [toNat_sub]
    omega
  have hne : t.regs.rsp - frameVa t.regs.rsp ≠ 0#64 := sub_ne_zero.mpr fun he => hlt (he ▸ le_rfl)
  obtain ⟨⟨-,hfit,-⟩,-⟩ := (Vm.uvmBufferOk_iff hne).mp hok
  omega

theorem deliver_frame
    (ha : a < (frameVa t.regs.rsp).toNat ∨ t.regs.rsp.toNat - 128 ≤ a) : t₁.mem a = t.mem a := by
  obtain ⟨h1,h2⟩ := room_of_entered h
  obtain ⟨sig,act,pending,rfl,-⟩ := deliver_entered h
  have hlen : ((t.sigframe sig act.restorer err trapno (fxVa t.regs.rsp)).map
      toNat).length = 55 := rfl
  dsimp only [enter]
  rw [Bytes.blit_of_not_mem,Bytes.blit_of_not_mem]
  · rw [Bytes.length_leFields,hlen]
    omega
  · rw [Bytes.length_slice]
    simp only [fxsaveBytes]
    omega

theorem range_of_entered : Vm.UserRange (frameVa t.regs.rsp).toNat t.regs.rsp.toNat ∧
      ∀ a, (frameVa t.regs.rsp).toNat ≤ a → a < t.regs.rsp.toNat →
        t.vm.faultIn (pageOf (ofNat 64 a)) true = true := by
  obtain ⟨h1,h2⟩ := room_of_entered h
  obtain ⟨sig,act,pending,-,hok⟩ := deliver_entered h
  have hsub : (t.regs.rsp - frameVa t.regs.rsp).toNat =
      t.regs.rsp.toNat - (frameVa t.regs.rsp).toNat := by
    rw [toNat_sub]
    omega
  have hne : t.regs.rsp - frameVa t.regs.rsp ≠ 0#64 := sub_ne_zero.mpr fun he => by
      have := congrArg toNat he
      omega
  have := (Vm.uvmBufferOk_iff hne).mp hok
  rwa [hsub,Nat.add_sub_cancel' (by omega)] at this

omit h in
theorem frameBytes_range (hroom : Room t.regs.rsp) (ha : a ∈ frameBytes t.regs.rsp) :
    (frameVa t.regs.rsp).toNat ≤ a ∧ a < t.regs.rsp.toNat := by
  obtain ⟨h1,h2⟩ := hroom
  rcases ha with ha | ha <;> omega

theorem intact_entered : Intact (frameBytes t.regs.rsp) t₁.mem t₁ := by
  intro a ha
  obtain ⟨hlo,hhi⟩ := frameBytes_range (room_of_entered h) ha
  have hwrite := (range_of_entered h).2 a hlo hhi
  obtain ⟨sig,act,pending,rfl,-⟩ := deliver_entered h
  exact ⟨rfl,t.vm.read_of_write _ hwrite⟩

omit h

theorem sigreturn_ok (h : t.signalSigreturn = .ok t') :
    t'.mem = t.mem ∧ t'.vm = t.vm ∧ t'.sigBlocked &&& sigUnblockable = 0#64 := by
  unfold signalSigreturn at h
  dsimp only at h
  split_ifs at h
  · rw [← Except.ok.inj h]
    exact ⟨rfl,rfl,and_not_and _ _⟩
  · rw [← Except.ok.inj h]
    exact ⟨rfl,rfl,and_not_and _ _⟩

theorem syscallReturn_ok (h : t.syscallReturn = .ok t') :
    t'.mem = t.mem ∧ t'.vm = t.vm ∧ t'.sigBlocked = t.sigBlocked := by
  unfold syscallReturn at h
  split_ifs at h
  rw [← Except.ok.inj h]
  exact ⟨rfl,rfl,rfl⟩

theorem sigprocmask_cases (t : Task) (how : ℕ) (set old : U64) (size : ℕ) :
    (t.signalSigprocmask how set old size).2 = t ∨
      ∃ next, (next = t.sigBlocked ∨ next &&& sigUnblockable = 0#64) ∧
        (t.signalSigprocmask how set old size).2 = { t with
            sigBlocked := next
            mem := if old = 0#64 then t.mem
              else blit t.mem old.toNat (leBytes 8 t.sigBlocked.toNat) } := by
  unfold signalSigprocmask
  dsimp only
  generalize (if old = 0#64 then t.mem else _) = m'
  split_ifs
  · exact .inl rfl
  · exact .inl rfl
  · exact .inl rfl
  · exact .inr ⟨t.sigBlocked,.inl rfl,rfl⟩
  · match how with
    | 0 => exact .inr ⟨_,.inr (and_not_and _ _),rfl⟩
    | 1 => exact .inr ⟨_,.inr (and_not_and _ _),rfl⟩
    | 2 => exact .inr ⟨_,.inr (and_not_and _ _),rfl⟩
    | _ + 3 => exact .inl rfl

theorem sigaction_cases (t : Task) (signal : ℤ) (action old : U64) (size : ℕ) :
    (t.sysRtSigaction signal action old size).2 = t ∨
      ∃ actions stored, stored.length = 32 ∧ (t.sysRtSigaction signal action old size).2 =
        { t with actions, mem := if old = 0#64 then t.mem else blit t.mem old.toNat stored } := by
  unfold sysRtSigaction
  split
  · exact .inl rfl
  split
  · exact .inl rfl
  split
  · exact .inl rfl
  split
  · exact .inl rfl
  · exact .inr ⟨_,_,Bytes.length_leFields _ _,rfl⟩

theorem stored_frame {old : U64} {stored : List Byte}
    (ha : a < old.toNat ∨ old.toNat + stored.length ≤ a) :
    (if old = 0#64 then m else blit m old.toNat stored) a = m a := by
  split
  · rfl
  · exact Bytes.blit_of_not_mem ha

theorem Intact.step (h : Intact F m t) (hstep : Step F t t') : Intact F m t' := by
  obtain ⟨op,hspares,hop⟩ := hstep
  intro a ha
  obtain ⟨hmem,hread⟩ := h a ha
  cases op with
  | user regs userFx mem =>
    cases hop
    exact ⟨(hspares a ha).trans hmem,hread⟩
  | remap vm =>
    cases hop
    exact ⟨hmem,hspares a ha⟩
  | send sig =>
    cases hop
    exact ⟨hmem,hread⟩
  | deliver err trapno =>
    simp only [apply] at hop
    split at hop
    case h_1 heq =>
      cases hop
      obtain ⟨pending,rfl⟩ := deliver_unchanged heq
      exact ⟨hmem,hread⟩
    case h_2 heq =>
      cases hop
      have hkeep := deliver_frame heq (a := a) (by have := hspares a ha; omega)
      obtain ⟨sig,act,pending,rfl,-⟩ := deliver_entered heq
      exact ⟨hkeep.trans hmem,hread⟩
    case h_3 => cases hop
  | sigreturn =>
    obtain ⟨hm,hvm,-⟩ := sigreturn_ok hop
    rw [hm,hvm]
    exact ⟨hmem,hread⟩
  | ret =>
    obtain ⟨hm,hvm,-⟩ := syscallReturn_ok hop
    rw [hm,hvm]
    exact ⟨hmem,hread⟩
  | sigprocmask how set old size =>
    have hop := Except.ok.inj hop
    rcases sigprocmask_cases t how set old size with heq | ⟨next,-,heq⟩
    · rw [← hop,heq]
      exact ⟨hmem,hread⟩
    · rw [← hop,heq]
      exact ⟨(stored_frame (hspares a ha)).trans hmem,hread⟩
  | sigaction signal action old size =>
    have hop := Except.ok.inj hop
    rcases sigaction_cases t signal action old size with heq | ⟨actions,stored,hlen,heq⟩
    · rw [← hop,heq]
      exact ⟨hmem,hread⟩
    · rw [← hop,heq]
      exact ⟨(stored_frame (by rw [hlen]; exact hspares a ha)).trans hmem,hread⟩
  | exec regs mem vm fx => cases hspares

theorem Intact.run (h : Intact F m t₁) (hrun : Relation.ReflTransGen (Step F) t₁ t₂) :
    Intact F m t₂ := by
  induction hrun with
  | refl => exact h
  | tail _ hstep ih => exact ih.step hstep

/-! ### SIGKILL and SIGSTOP stay unblocked -/

theorem Reachable.unblocked (h : Reachable t) : t.sigBlocked &&& sigUnblockable = 0#64 := by
  induction h with
  | spawn t h =>
    rw [h]
    exact BitVec.zero_and
  | vfork _ _ ih => exact ih
  | @step t t' _ op hop ih =>
    cases op with
    | user regs userFx mem =>
      cases hop
      exact ih
    | remap vm =>
      cases hop
      exact ih
    | send sig =>
      cases hop
      exact ih
    | deliver err trapno =>
      simp only [apply] at hop
      split at hop
      case h_1 heq =>
        cases hop
        obtain ⟨pending,rfl⟩ := deliver_unchanged heq
        exact ih
      case h_2 heq =>
        cases hop
        obtain ⟨sig,act,pending,rfl,-⟩ := deliver_entered heq
        exact and_not_and _ _
      case h_3 => cases hop
    | sigreturn => exact (sigreturn_ok hop).2.2
    | ret =>
      rw [(syscallReturn_ok hop).2.2]
      exact ih
    | sigprocmask how set old size =>
      have hop := Except.ok.inj hop
      rcases sigprocmask_cases t how set old size with heq | ⟨next,hnext,heq⟩
      · rw [← hop,heq]
        exact ih
      · rw [← hop,heq]
        rcases hnext with rfl | hnext
        · exact ih
        · exact hnext
    | sigaction signal action old size =>
      have hop := Except.ok.inj hop
      rcases sigaction_cases t signal action old size with heq | ⟨_,_,-,heq⟩
      · rw [← hop,heq]
        exact ih
      · rw [← hop,heq]
        exact ih
    | exec regs mem vm fx =>
      cases hop
      exact ih

/-! ### The way back -/

/-- The flags that belong to user space; IF is the kernel's. -/
def userFlags : U64 := userReturnRflagsAllowed &&& ~~~rflagsIf

theorem word_congr {m m' : ℕ → Byte} {va : ℕ} (h : ∀ a, va ≤ a → a < va + 8 → m a = m' a) :
    word m va = word m' va := congrArg (ofNat 64) (Bytes.leNat_congr h)

theorem word_blit (m : ℕ → Byte) (base : ℕ) (ws : List U64) {i : ℕ} (hi : i < ws.length) :
    word (blit m base (leFields 8 (ws.map toNat))) (base + 8 * i) = ws[i] := by
  have hbound : ∀ n ∈ ws.map toNat, n < 256 ^ 8 := by
    intro n hn
    obtain ⟨w,-,rfl⟩ := List.mem_map.mp hn
    exact w.isLt
  rw [word,Bytes.leNat_blit_fields m base hbound (by rwa [List.length_map]),List.getElem_map,
    BitVec.ofNat_toNat,BitVec.setWidth_eq]

theorem word_intact {sig : ℕ} {act : Action} (hroom : Room t.regs.rsp)
    (hint : Intact (frameBytes t.regs.rsp) (t.enter sig act err trapno).mem t₂) {i : ℕ}
    (hlo : 1 ≤ i) (hhi : i ≤ 38) : word t₂.mem ((frameVa t.regs.rsp).toNat + 8 * i) =
      (t.sigframe sig act.restorer err trapno (fxVa t.regs.rsp)).getD i 0#64 := by
  have hlen : (t.sigframe sig act.restorer err trapno (fxVa t.regs.rsp)).length = 55 := rfl
  have hbelow := hroom.below_image
  have hi : i < (t.sigframe sig act.restorer err trapno (fxVa t.regs.rsp)).length := by omega
  rw [List.getD_eq_getElem?_getD,List.getElem?_eq_getElem hi,Option.getD_some,
    ← word_blit t.mem (frameVa t.regs.rsp).toNat]
  apply word_congr
  intro a ha ha'
  rw [(hint a (.inl ⟨by omega,by omega⟩)).1]
  exact Bytes.blit_of_not_mem (.inl (by omega))

theorem ofWords_words {r : Regs} {w : ℕ → U64} (h : ∀ k < 18, w k = r.words.getD k 0#64) :
    Regs.ofWords w = r := by
  simp only [Regs.ofWords,h 0 (by decide),h 1 (by decide),h 2 (by decide),h 3 (by decide),
    h 4 (by decide),h 5 (by decide),h 6 (by decide),h 7 (by decide),h 8 (by decide),
    h 9 (by decide),h 10 (by decide),h 11 (by decide),h 12 (by decide),h 13 (by decide),
    h 14 (by decide),h 15 (by decide),h 16 (by decide),h 17 (by decide)]
  rfl

theorem sigframe_regs (t : Task) (sig : ℕ) (restorer err trapno fx : U64) {k : ℕ} (hk : k < 18) :
    (t.sigframe sig restorer err trapno fx).getD (6 + k) 0#64 = t.regs.words.getD k 0#64 := by
  interval_cases k <;> rfl

theorem clearMxcsr_eq {fx : ℕ → Byte} (h : leNat fx mxcsrOffset 4 ≤ mxcsrValid) :
    clearMxcsr fx = fx := by
  have hand : leNat fx mxcsrOffset 4 &&& mxcsrValid = leNat fx mxcsrOffset 4 := by
    rw [mxcsrValid,show (0xFFFF : ℕ) = 2 ^ 16 - 1 from rfl,Nat.and_two_pow_sub_one_eq_mod]
    exact Nat.mod_eq_of_lt (lt_of_le_of_lt h (by decide))
  rw [clearMxcsr,hand]
  exact Bytes.blit_leNat fx mxcsrOffset 4

/-- What `signal_sigreturn` finds when the task is back on the frame it was interrupted with. -/
structure Saved (t t₂ : Task) : Prop where
  ucontext : t₂.vm.uvmBufferOk t₂.regs.rsp (BitVec.ofNat 64 ucontextBytes) false = true
  regs : (Regs.ofWords fun i => word t₂.mem (t₂.regs.rsp.toNat + 40 + 8 * i)) = t.regs
  fpstate : word t₂.mem (t₂.regs.rsp.toNat + 224) = fxVa t.regs.rsp
  sigmask : word t₂.mem (t₂.regs.rsp.toNat + 296) = t.sigBlocked
  fpstate_ne : fxVa t.regs.rsp ≠ 0#64
  image : t₂.vm.uvmBufferOk (fxVa t.regs.rsp) (BitVec.ofNat 64 fxsaveBytes) false = true
  image_eq : slice t₂.mem (fxVa t.regs.rsp).toNat fxsaveBytes = slice t.userFx 0 fxsaveBytes

theorem saved_of_intact (h : t.deliver err trapno = .entered t₁)
    (hint : Intact (frameBytes t.regs.rsp) t₁.mem t₂) (hrsp : t₂.regs.rsp = t₁.regs.rsp + 8#64) :
    Saved t t₂ := by
  have hroom := room_of_entered h
  obtain ⟨hzone,himage⟩ := room_of_entered h
  obtain ⟨⟨hmin,hfit,hrange⟩,-⟩ := range_of_entered h
  obtain ⟨sig,act,pending,rfl,-⟩ := deliver_entered h
  have huc : t₂.regs.rsp.toNat = (frameVa t.regs.rsp).toNat + 8 := by
    rw [hrsp,toNat_add]
    exact Nat.mod_eq_of_lt (show (frameVa t.regs.rsp).toNat + 8 < 2 ^ 64 by omega)
  have hword {i : ℕ} (hlo : 1 ≤ i) (hhi : i ≤ 38) := word_intact hroom hint hlo hhi
  constructor
  case ucontext =>
    rw [Vm.uvmBufferOk_iff (by decide),huc]
    change Vm.UserRange _ ((frameVa t.regs.rsp).toNat + 8 + 304) ∧ _
    exact ⟨⟨by omega,by omega,by omega⟩,fun a hlo hhi => (hint a (.inl ⟨hlo,hhi⟩)).2⟩
  case regs =>
    apply ofWords_words
    intro k hk
    rw [← sigframe_regs t sig act.restorer err trapno _ hk,← hword (by omega) (by omega),huc]
    congr 1
    omega
  case fpstate =>
    rw [huc]
    exact hword (i := 29) (by decide) (by decide)
  case sigmask =>
    rw [huc]
    exact hword (i := 38) (by decide) (by decide)
  case fpstate_ne =>
    intro h0
    rw [h0] at himage
    simp at himage
  case image =>
    rw [Vm.uvmBufferOk_iff (by decide)]
    change Vm.UserRange _ ((fxVa t.regs.rsp).toNat + 512) ∧ _
    exact ⟨⟨by omega,by omega,by omega⟩,fun a hlo hhi => (hint a (.inr ⟨hlo,hhi⟩)).2⟩
  case image_eq =>
    have hcopy := Bytes.slice_blit_self (blit t.mem (frameVa t.regs.rsp).toNat
      (leFields 8 ((t.sigframe sig act.restorer err trapno (fxVa t.regs.rsp)).map toNat)))
      (fxVa t.regs.rsp).toNat (slice t.userFx 0 fxsaveBytes)
    rw [Bytes.length_slice] at hcopy
    rw [← hcopy]
    exact Bytes.slice_congr fun a hlo hhi => (hint a (.inr ⟨hlo,hhi⟩)).1

theorem Saved.sigreturn (h : Saved t t₂) (hmask : t.sigBlocked &&& sigUnblockable = 0#64)
    (hfx : leNat t.userFx mxcsrOffset 4 ≤ mxcsrValid) :
    ∃ t3, t₂.signalSigreturn = .ok t3 ∧ t3.regs = t.regs ∧ t3.sigBlocked = t.sigBlocked ∧
      slice t3.userFx 0 fxsaveBytes = slice t.userFx 0 fxsaveBytes ∧ t3.vm = t₂.vm := by
  have himage : slice (blit t₂.userFx 0 (slice t.userFx 0 fxsaveBytes)) 0 fxsaveBytes =
      slice t.userFx 0 fxsaveBytes := by
    have := Bytes.slice_blit_self t₂.userFx 0 (slice t.userFx 0 fxsaveBytes)
    rwa [Bytes.length_slice] at this
  have hmxcsr : leNat (blit t₂.userFx 0 (slice t.userFx 0 fxsaveBytes)) mxcsrOffset 4 ≤
      mxcsrValid := by
    refine (Bytes.leNat_congr fun a _ ha => ?_).trans_le hfx
    have := Bytes.blit_slice t₂.userFx t.userFx 0 0 (i := a) (n := fxsaveBytes)
      (lt_trans ha (by decide))
    rwa [Nat.zero_add] at this
  refine ⟨{ t₂ with
    regs := t.regs
    sigBlocked := t.sigBlocked
    userFx := blit t₂.userFx 0 (slice t.userFx 0 fxsaveBytes) },?_,rfl,rfl,?_,rfl⟩
  · simp only [signalSigreturn,h.ucontext,h.regs,h.fpstate,h.sigmask,h.image,h.image_eq,
      fxVa_aligned,if_neg h.fpstate_ne,and_not_of_and_eq_zero hmask,clearMxcsr_eq hmxcsr]
    rfl
  · dsimp only
    exact himage

structure Restored (t t' : Task) : Prop where
  regs : { t'.regs with eflags := t.regs.eflags } = t.regs
  flags : t'.regs.eflags &&& userFlags = t.regs.eflags &&& userFlags
  blocked : t'.sigBlocked = t.sigBlocked
  image : slice t'.userFx 0 fxsaveBytes = slice t.userFx 0 fxsaveBytes

theorem syscallReturn_iff (t : Task) : (∃ t', t.syscallReturn = .ok t') ↔
    userReturnAddressOk t.regs.rip false = true ∧ userReturnAddressOk t.regs.rsp true = true ∧
      t.vm.executable (pageOf t.regs.rip) = true := by
  unfold syscallReturn
  split_ifs with h1 h2
  · refine iff_of_false (by simp) ?_
    rintro ⟨h3,h4,-⟩
    simp [h3,h4] at h1
  · refine iff_of_false (by simp) ?_
    rintro ⟨-,-,h3⟩
    simp [h3] at h2
  · refine iff_of_true ⟨_,rfl⟩ ?_
    simp only [Bool.not_eq_true',not_or,Bool.not_eq_false] at h1 h2
    exact ⟨h1.1,h1.2,h2⟩

/-- The stack pointer of a task that was delivered a signal passes the check on the way back,
unless it stood at the very end of the general range. -/
theorem entered_rsp_ok (h : t.deliver err trapno = .entered t₁) :
    userReturnAddressOk t.regs.rsp true = true ↔ t.regs.rsp ≠ userVaMax := by
  obtain ⟨hzone,himage⟩ := room_of_entered h
  obtain ⟨⟨hmin,-,hrange⟩,-⟩ := range_of_entered h
  have hmax : userVaMax.toNat = 0x7F0000000000 := rfl
  have hlow : userStackLow.toNat = 0x7FFFFFDFE000 := rfl
  simp only [userReturnAddressOk,lt_def,le_def,ne_eq,BitVec.toNat_eq,true_and]
  rw [if_neg (by omega)]
  split
  case isTrue hlt => exact iff_of_true rfl (by omega)
  case isFalse hge =>
    rw [decide_eq_true_iff]
    omega

theorem restored_return {t3 t4 : Task} (h : Restored t t3) (hret : t3.syscallReturn = .ok t4) :
    Restored t t4 := by
  unfold syscallReturn at hret
  split_ifs at hret
  rw [← Except.ok.inj hret]
  refine ⟨h.regs,?_,h.blocked,h.image⟩
  -- the bits that are set on every return are not the user's
  have hand (x : U64) : (x &&& userReturnRflagsAllowed ||| (rflagsFixed ||| rflagsIf)) &&& userFlags =
      x &&& userFlags := by
    apply BitVec.eq_of_getLsbD_eq
    intro i hi
    have hbits : ∀ j : Fin 64, ((rflagsFixed ||| rflagsIf).getLsbD j && userFlags.getLsbD j) = false ∧
        (userFlags.getLsbD j = true → userReturnRflagsAllowed.getLsbD j = true) := by decide
    obtain ⟨h1,h2⟩ := hbits ⟨i,hi⟩
    cases hu : userFlags.getLsbD i <;> simp_all
  exact (hand _).trans h.flags

/-- A signal handler gives the interrupted state back, whatever deliveries and returns it
contains, if and only if the interrupted code can still be returned to and the interrupted stack
pointer was not the end of the general address range. -/
theorem signal_round_trip_iff {t t₁ t₂ : Task} {err trapno : U64} (ht : Reachable t)
    (hfx : leNat t.userFx mxcsrOffset 4 ≤ mxcsrValid) (h : t.deliver err trapno = .entered t₁)
    (hrun : Relation.ReflTransGen (Step (frameBytes t.regs.rsp)) t₁ t₂)
    (hrsp : t₂.regs.rsp = t₁.regs.rsp + 8#64) :
    (128 ≤ t.regs.rsp.toNat ∧ ∀ a, a < t₁.regs.rsp.toNat ∨ t.regs.rsp.toNat - 128 ≤ a →
        t₁.mem a = t.mem a) ∧
      t₁.regs.rsp.toNat % 16 = 8 ∧
      (∀ s, Reachable s → s.sigBlocked &&& sigUnblockable = 0#64) ∧
      ((∃ t₃ t₄, t₂.signalSigreturn = .ok t₃ ∧ Restored t t₃ ∧
          t₃.syscallReturn = .ok t₄ ∧ Restored t t₄) ↔
        userReturnAddressOk t.regs.rip false = true ∧ t.regs.rsp ≠ userVaMax ∧
          t₂.vm.executable (pageOf t.regs.rip) = true) := by
  have hsp : t₁.regs.rsp = frameVa t.regs.rsp := by
    obtain ⟨sig,act,pending,rfl,-⟩ := deliver_entered h
    rfl
  obtain ⟨t₃,hret,hregs,hblocked,himage,hvm⟩ :=
    (saved_of_intact h ((intact_entered h).run hrun) hrsp).sigreturn ht.unblocked hfx
  have hrestored : Restored t t₃ := by
    refine ⟨?_,?_,hblocked,himage⟩
    · rw [hregs]
    · rw [hregs]
  refine ⟨⟨?_,?_⟩,?_,fun s hs => hs.unblocked,?_⟩
  · have := (room_of_entered h).below_zone
    omega
  · intro a ha
    rw [hsp] at ha
    exact deliver_frame h ha
  · rw [hsp]
    exact frameVa_mod t.regs.rsp
  · rw [← entered_rsp_ok h,← hvm,← hregs,← syscallReturn_iff]
    constructor
    · rintro ⟨t₃',t₄,hret',-,hok,-⟩
      rw [hret] at hret'
      exact ⟨t₄,(Except.ok.inj hret').symm ▸ hok⟩
    · rintro ⟨t₄,hok⟩
      exact ⟨t₃,t₄,hret,hrestored,hok,restored_return hrestored hok⟩

def sample (rsp : U64) : Task where
  regs := { Regs.ofWords (fun _ => 0#64) with rsp, rip := 0x400000#64 }
  userFx _ := 0#8
  mem _ := 0#8
  vm := ⟨fun _ _ => true,fun _ => true,fun _ _ => rfl⟩
  sigPending := sigBit 15
  sigBlocked := 0#64
  actions _ := ⟨0x400100#64,saRestorer,0x400200#64,0#64⟩

def popped (t : Task) : Task := { t with regs := { t.regs with rsp := t.regs.rsp + 8#64 } }

theorem step_popped (F : Set ℕ) (t : Task) : Step F t t.popped :=
  ⟨.user { t.regs with rsp := t.regs.rsp + 8#64 } t.userFx t.mem,fun _ _ => rfl,rfl⟩

theorem sample_round_trip : ∃ t₁, (sample 0x500000#64).deliver 0#64 0#64 = .entered t₁ ∧
    ∃ t₃ t₄, t₁.popped.signalSigreturn = .ok t₃ ∧ Restored (sample 0x500000#64) t₃ ∧
      t₃.syscallReturn = .ok t₄ ∧ Restored (sample 0x500000#64) t₄ := by
  have h : ∃ t₁, (sample 0x500000#64).deliver 0#64 0#64 = .entered t₁ := ⟨_,rfl⟩
  obtain ⟨t₁,h⟩ := h
  have hvm : t₁.vm = (sample 0x500000#64).vm := by
    obtain ⟨sig,act,pending,rfl,-⟩ := deliver_entered h
    rfl
  have hiff := (signal_round_trip_iff (.spawn _ rfl) (by decide) h
    (.single (step_popped _ t₁)) rfl).2.2.2
  refine ⟨t₁,h,hiff.mpr ⟨by decide,by decide,?_⟩⟩
  change t₁.vm.executable _ = true
  rw [hvm]
  rfl

/-- A task whose stack ends at `USER_VA_MAX`, interrupted before it pushed anything: the signal
is delivered, the handler returns with the frame as it was, and the kernel ends the task. -/
theorem sample_killed : ∃ t₁, (sample userVaMax).deliver 0#64 0#64 = .entered t₁ ∧
    ∃ t₃, t₁.popped.signalSigreturn = .ok t₃ ∧ t₃.regs = (sample userVaMax).regs ∧
      t₃.syscallReturn = .error (-11) := by
  have h : ∃ t₁, (sample userVaMax).deliver 0#64 0#64 = .entered t₁ := ⟨_,rfl⟩
  obtain ⟨t₁,h⟩ := h
  have hint := (intact_entered h).step (step_popped _ t₁)
  obtain ⟨t₃,hret,hregs,-⟩ := (saved_of_intact h hint rfl).sigreturn rfl (by decide)
  refine ⟨t₁,h,t₃,hret,hregs,?_⟩
  rw [syscallReturn,hregs,if_pos (.inr (by decide))]

end Task

end GaiaKernel.Signal
