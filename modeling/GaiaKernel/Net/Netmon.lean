import Mathlib.Data.List.Range
import GaiaKernel.Lib.Trace
import GaiaKernel.Memory.Word

/-! # The packet monitor

The capture ring of net/netmon.c, with a reader that passes back the cursor it was given. Frames are
numbered by a `u64`; as long as it does not wrap, the reader gets them in order, and misses only
what the ring has lost. Traffic counters and the link are left out.
-/
namespace GaiaKernel.Netmon
open List Trace

def netmonRingFrames : ℕ := 64
def netmonFrameBytes : ℕ := 128
def netmonCaptureBatch : ℕ := 16

structure NetFrame where
  seq : ℕ
  ticks : ℕ
  length : ℕ
  captured : ℕ
  tx : Bool
  data : List Byte
  deriving DecidableEq

structure Monitor where
  ring : ℕ → NetFrame
  seqNext : ℕ

namespace Monitor
variable (m : Monitor)

def captured (tx : Bool) (ticks : ℕ) (frame : List Byte) : NetFrame where
  seq := m.seqNext
  ticks := ticks
  length := frame.length
  captured := min frame.length netmonFrameBytes
  tx := tx
  data := frame.take netmonFrameBytes ++ List.replicate (netmonFrameBytes - frame.length) 0#8

def netmonRecord (tx : Bool) (ticks : ℕ) (frame : List Byte) : Monitor where
  ring := Function.update m.ring (m.seqNext % netmonRingFrames) (m.captured tx ticks frame)
  seqNext := (m.seqNext + 1) % 2 ^ 64

def oldest : ℕ := if m.seqNext > netmonRingFrames then m.seqNext - netmonRingFrames else 0

/-- The loop of `netmon_read_frames` for at most so many frames. -/
def copyFrames : ℕ → ℕ → List NetFrame × ℕ
  | 0, at_ => ([], at_)
  | n + 1, at_ =>
    if at_ < m.seqNext then
      let rest := copyFrames n ((at_ + 1) % 2 ^ 64)
      (m.ring (at_ % netmonRingFrames) :: rest.1, rest.2)
    else ([], at_)

/-- The frames and the new cursor, or an error. -/
def netmonReadFrames (cursor : ℕ) (max : ℤ) : Option (List NetFrame × ℕ) :=
  if max ≤ 0 then none
  else
    let max := if max > netmonCaptureBatch then netmonCaptureBatch else max.toNat
    some (m.copyFrames max (if cursor < m.oldest then m.oldest else cursor))

end Monitor

/-- The monitor and one reader, with all that was recorded and all that was received. -/
structure Session where
  monitor : Monitor
  cursor : ℕ
  history : List NetFrame
  received : List NetFrame

inductive Op where
  | record (tx : Bool) (ticks : ℕ) (frame : List Byte)
  | read (max : ℤ)

def step (s : Session) : Op → Session
  | .record tx ticks frame =>
    if frame = [] then s
    else { s with
      monitor := s.monitor.netmonRecord tx ticks frame
      history := s.history ++ [s.monitor.captured tx ticks frame] }
  | .read max =>
    match s.monitor.netmonReadFrames s.cursor max with
    | none => s
    | some (frames, cursor) => { s with cursor := cursor, received := s.received ++ frames }

/-- Nothing recorded yet, and a reader that begins with the frame numbered `cursor`. -/
def start (cursor : ℕ) : Session := ⟨⟨fun _ => ⟨0,0,0,0,false,[]⟩,0⟩,cursor,[],[]⟩

/-- The frames received are frames recorded, in order, with increasing numbers; if a later one
has been received, one that has not is no longer in the ring. -/
def Delivered (first : ℕ) (s : Session) : Prop :=
  (s.received.map (·.seq)).Pairwise (· < ·) ∧ s.received.Sublist s.history ∧
    ∀ f g, [f, g].Sublist s.history → first ≤ f.seq → g ∈ s.received → f ∉ s.received →
      s.monitor.ring (f.seq % netmonRingFrames) ≠ f

/-- What holds before the numbers wrap. -/
structure Session.Ok (first : ℕ) (s : Session) : Prop where
  seqNext : s.monitor.seqNext = s.history.length % 2 ^ 64
  seqs : s.history.map (·.seq) = range s.history.length
  ring : ∀ f ∈ s.history, s.history.length ≤ f.seq + 64 → s.monitor.ring (f.seq % 64) = f
  cursor : s.cursor ≤ max first s.history.length
  received : s.received.Sublist (s.history.take s.cursor)
  passed : ∀ f ∈ s.history, first ≤ f.seq → f.seq < s.cursor →
    f ∈ s.received ∨ f.seq + 64 < s.history.length

namespace Session.Ok
variable {first : ℕ} {s : Session} (h : s.Ok first)
include h

theorem seq_getElem {i : ℕ} (hi : i < s.history.length) : s.history[i].seq = i := by
  have hseq : (s.history.map (·.seq))[i]? = some s.history[i].seq := by
    rw [getElem?_map,getElem?_eq_getElem hi]
    rfl
  rw [h.seqs,getElem?_range hi] at hseq
  exact (Option.some.inj hseq).symm

theorem exists_getElem {f : NetFrame} (hf : f ∈ s.history) :
    ∃ hi : f.seq < s.history.length, s.history[f.seq] = f := by
  obtain ⟨i,hi,rfl⟩ := mem_iff_getElem.mp hf
  simp only [h.seq_getElem hi,hi,exists_const]

theorem overwritten {f : NetFrame} (hlost : f.seq + 64 < s.history.length) :
    s.monitor.ring (f.seq % 64) ≠ f := by
  -- the last frame recorded that goes to this slot
  obtain ⟨k,hfk,hk,hlast,hslot⟩ : ∃ k, f.seq < k ∧ k < s.history.length ∧
      s.history.length ≤ k + 64 ∧ f.seq % 64 = k % 64 :=
    ⟨f.seq + 64 * ((s.history.length - 1 - f.seq) / 64),by omega⟩
  have hring := h.ring _ (getElem_mem hk)
  rw [h.seq_getElem hk] at hring
  intro heq
  rw [hslot,hring hlast] at heq
  have hseq := h.seq_getElem hk
  rw [heq] at hseq
  omega

variable (hlt : s.history.length < 2 ^ 64)
include hlt

theorem seqNext_eq : s.monitor.seqNext = s.history.length := h.seqNext.trans (Nat.mod_eq_of_lt hlt)

theorem copyFrames (n : ℕ) {i : ℕ} (hi : s.history.length ≤ i + 64) : s.monitor.copyFrames n i =
    ((s.history.drop i).take n, i + ((s.history.drop i).take n).length) := by
  induction n generalizing i with
  | zero => rfl
  | succ n ih =>
    rw [Monitor.copyFrames,h.seqNext_eq hlt]
    by_cases hc : i < s.history.length
    · have hring := h.ring s.history[i] (getElem_mem hc)
      rw [h.seq_getElem hc] at hring
      rw [if_pos hc,Nat.mod_eq_of_lt (by omega),ih (by omega),drop_eq_getElem_cons hc]
      simp only [netmonRingFrames,hring hi,take_succ_cons,length_cons]
      rw [Nat.add_right_comm,Nat.add_assoc]
    · rw [if_neg hc,drop_eq_nil_of_le (by omega)]
      rfl

theorem record (tx : Bool) (ticks : ℕ) (frame : List Byte) :
    (step s (.record tx ticks frame)).Ok first := by
  simp only [step]
  split_ifs
  · exact h
  have hnew : (s.monitor.captured tx ticks frame).seq = s.history.length := h.seqNext_eq hlt
  have hcursor := h.cursor
  refine ⟨?_,?_,?_,hcursor.trans (max_le_max le_rfl (by simp)),
    h.received.trans ((prefix_append _ _).take _).sublist,?_⟩
  · simp [Monitor.netmonRecord,h.seqNext_eq hlt]
  · simp [h.seqs,hnew,range_succ]
  · simp only [mem_append,mem_singleton,length_append,length_singleton]
    rintro f (hf | rfl) hlen
    · have hi := (h.exists_getElem hf).1
      refine (Function.update_of_ne ?_ _ _).trans (h.ring f hf (by omega))
      rw [h.seqNext_eq hlt,netmonRingFrames]
      omega
    · simp [Monitor.netmonRecord,Monitor.captured,netmonRingFrames]
  · simp only [mem_append,mem_singleton,length_append,length_singleton]
    rintro f (hf | rfl) hfirst hlen
    · exact (h.passed f hf hfirst hlen).imp id (by omega)
    · omega

theorem read (max : ℤ) : (step s (.read max)).Ok first := by
  simp only [step,Monitor.netmonReadFrames]
  by_cases hmax : max ≤ 0
  · rw [if_pos hmax]
    exact h
  rw [if_neg hmax]
  generalize (if max > netmonCaptureBatch then netmonCaptureBatch else max.toNat) = k
  obtain ⟨i,hi,hnew,hle,hskip⟩ : ∃ i, (if s.cursor < s.monitor.oldest then s.monitor.oldest
      else s.cursor) = i ∧ s.history.length ≤ i + 64 ∧ s.cursor ≤ i ∧
      (s.cursor < i → i + 64 ≤ s.history.length) := by
    refine ⟨_,rfl,?_⟩
    rw [Monitor.oldest,h.seqNext_eq hlt,netmonRingFrames]
    split_ifs <;> omega
  rw [hi,h.copyFrames hlt k hnew]
  have hcursor := h.cursor
  have htake : (s.history.drop i).take k =
      (s.history.drop i).take ((s.history.drop i).take k).length := by simp
  generalize (s.history.drop i).take k = frames at htake
  have hlen := congrArg length htake
  simp only [length_take,length_drop] at hlen
  refine ⟨h.seqNext,h.seqs,h.ring,?_,?_,fun f hf hfirst hj => ?_⟩
  · dsimp only
    omega
  · dsimp only
    rw [take_add,← htake]
    exact (h.received.trans (take_sublist_take_left hle)).append (Sublist.refl _)
  · dsimp only at hj ⊢
    obtain ⟨hf',heq⟩ := h.exists_getElem hf
    rcases Nat.lt_or_ge f.seq s.cursor with hc | hc
    · exact (h.passed f hf hfirst hc).imp (mem_append_left _) id
    rcases Nat.lt_or_ge f.seq i with hc' | hc'
    · exact .inr (by omega)
    · refine .inl (mem_append_right _ ?_)
      rw [htake,mem_iff_getElem?]
      refine ⟨f.seq - i,?_⟩
      rw [getElem?_take_of_lt (by omega),getElem?_drop,Nat.add_sub_cancel' hc',
        getElem?_eq_getElem hf',heq]

end Session.Ok

theorem ok_run (first : ℕ) (ops : List Op)
    (hlt : (run step (start first) ops).history.length < 2 ^ 64) :
    (run step (start first) ops).Ok first := by
  revert hlt
  refine invariant_run (I := fun s : Session => s.history.length < 2 ^ 64 → s.Ok first) ?_
    (fun _ => ?_) ops
  · intro s op ih hlt
    have hlt' : s.history.length < 2 ^ 64 := by
      refine lt_of_le_of_lt ?_ hlt
      unfold step
      repeat' split
      all_goals simp
    cases op with
    | record => exact (ih hlt').record hlt' ..
    | read => exact (ih hlt').read hlt' ..
  · exact ⟨rfl,rfl,by simp [start],by simp [start],by simp [start],by simp [start]⟩

/-- Two frames are read, then 70 recorded before the next read: the ring has lost six. -/
def burst : List Op :=
  [.record true 0 [1#8], .record true 0 [2#8], .read 16] ++ replicate 70 (.record true 1 [3#8]) ++
    [.read 2, .record false 2 [4#8], .read 16, .read 64]

theorem run_records {s : Session} (ticks n : ℕ) (hlt : s.monitor.seqNext < 2 ^ 64) :
    let s' := run step s (replicate n (.record true ticks [1#8]))
    s'.monitor.seqNext = (s.monitor.seqNext + n) % 2 ^ 64 ∧ s'.cursor = s.cursor ∧
      s'.received = s.received := by
  induction n generalizing s with
  | zero => exact ⟨(Nat.mod_eq_of_lt hlt).symm,rfl,rfl⟩
  | succ n ih =>
    obtain ⟨hnext,hcursor,hreceived⟩ :=
      @ih (step s (.record true ticks [1#8])) (Nat.mod_lt _ (by decide))
    refine ⟨hnext.trans ?_,hcursor,hreceived⟩
    show ((s.monitor.seqNext + 1) % 2 ^ 64 + n) % 2 ^ 64 = _
    omega

end GaiaKernel.Netmon
