import GaiaKernel.Msg.Pipe

/-! # Polling a pipe

`poll_scan` of arch/syscall.c over a task's descriptor table, against the pipe calls that follow
it. The write end counts as ready when one byte fits, but a write of at most `PIPE_BUF` bytes
needs room for all of them.
-/
namespace GaiaKernel.Pipes
open List State

def taskMaxFds : ℤ := 32
abbrev Events := BitVec 16

def pollin : Events := 0x0001#16
def pollout : Events := 0x0004#16
def pollerr : Events := 0x0008#16
def pollhup : Events := 0x0010#16
def pollnval : Events := 0x0020#16

/-- A slot of the descriptor table; a socket with whether a datagram is queued. -/
inductive Slot where
  | unused | tty | file | directory
  | socket (readable : Bool)
  | pipe (p : Pipe) (writeEnd : Bool)

structure PollFd where
  fd : ℤ
  events : Events
  revents : Events

def asked (want bit : Events) (holds : Bool) : Events :=
  if want &&& bit ≠ 0#16 ∧ holds then bit else 0#16

def pollPipe (p : Pipe) (writeEnd : Bool) (want : Events) : Events :=
  if writeEnd then
    asked want pollout (p.count < pipeCapacity ∧ p.readers ≠ 0) |||
      if p.readers = 0 then pollerr else 0#16
  else asked want pollin (p.count ≠ 0) ||| if p.writers = 0 then pollhup else 0#16

def pollFd (files : ℕ → Slot) (fd : ℤ) (want : Events) : Events :=
  if fd < 0 then 0#16
  else if fd ≥ taskMaxFds then pollnval
  else
    match files fd.toNat with
    | .unused => if fd < 3 then asked want pollout true else pollnval
    | .tty => asked want pollout true
    | .pipe p writeEnd => pollPipe p writeEnd want
    | .socket readable => asked want pollout true ||| asked want pollin readable
    | .file | .directory => asked want pollout true ||| asked want pollin true

def pollScan (files : ℕ → Slot) (fds : List PollFd) : List PollFd × ℕ :=
  let scanned := fds.map fun f => { f with revents := pollFd files f.fd f.events }
  (scanned, scanned.countP fun f => f.revents ≠ 0#16)

def Reports (p : Pipe) (writeEnd : Bool) (bit : Events) : Prop :=
  ∃ files fds, ∃ f ∈ (pollScan files fds).1, 0 ≤ f.fd ∧ f.fd < taskMaxFds ∧
    files f.fd.toNat = .pipe p writeEnd ∧ f.revents &&& bit ≠ 0#16

theorem reports_iff {p : Pipe} {writeEnd : Bool} {bit : Events} : Reports p writeEnd bit ↔
    ∃ want, pollPipe p writeEnd want &&& bit ≠ 0#16 := by
  constructor
  · rintro ⟨files,fds,f,hf,hlow,hhigh,hslot,hbit⟩
    obtain ⟨g,_,rfl⟩ := List.mem_map.mp hf
    dsimp only at hlow hhigh hslot hbit
    rw [pollFd,if_neg (by omega),if_neg (by omega),hslot] at hbit
    exact ⟨g.events,hbit⟩
  · rintro ⟨want,hbit⟩
    have hmax : (0 : ℤ) < taskMaxFds := by decide
    exact ⟨fun _ => .pipe p writeEnd,[⟨0,want,0#16⟩],_,mem_singleton_self _,le_rfl,hmax,rfl,hbit⟩

theorem reports_pollout {p : Pipe} : Reports p true pollout ↔
    p.count < pipeCapacity ∧ p.readers ≠ 0 := by
  rw [reports_iff]
  constructor
  · rintro ⟨want,hbit⟩
    by_contra hc
    refine hbit ?_
    rw [pollPipe,if_pos rfl,asked,if_neg (by simp [hc])]
    split_ifs <;> rfl
  · intro h
    refine ⟨pollout,?_⟩
    simp [pollPipe,asked,h,pollout]

theorem reports_pollin {p : Pipe} (h : Reports p false pollin) : p.count ≠ 0 := by
  obtain ⟨want,hbit⟩ := reports_iff.mp h
  intro hc
  refine hbit ?_
  rw [pollPipe,if_neg (by decide),asked,if_neg (by simp [hc])]
  split_ifs <;> rfl

variable {ι : Type*} [DecidableEq ι] {s : State ι} {i j : ι}

def CanUse (s : State ι) (i : ι) (writeEnd : Bool) : Prop :=
  s.freed = false ∧ (s.tasks i).ends writeEnd ≠ 0 ∧ (s.tasks i).call = none

/-- What a scan reports, a nonblocking call that follows at once makes good: writes of task `i`
of up to `PIPE_BUF` bytes, and reads of task `j`. -/
def PollAgrees (s : State ι) (i j : ι) : Prop :=
  (Reports s.pipe true pollout → ∀ buf signal, 0 < buf.length → buf.length ≤ pipeBuf →
    ∃ ret ≠ -EAGAIN,
      (step s (.write i buf true signal)).writes = s.writes ++ [⟨s.nextId,buf,ret⟩]) ∧
  (Reports s.pipe false pollin → ∀ n signal,
    ∃ r, r.ret ≠ -EAGAIN ∧ (step s (.read j n true signal)).reads = s.reads ++ [r])

theorem write_now (h : CanUse s i true) (hr : s.pipe.readers ≠ 0) {buf : List Byte}
    (hpos : 0 < buf.length) (hle : buf.length ≤ pipeBuf) (signal : Bool) :
    (step s (.write i buf true signal)).writes = s.writes ++ [⟨s.nextId,buf,
      if pipeCapacity - s.pipe.count < buf.length then -EAGAIN else buf.length⟩] := by
  obtain ⟨hf,hends,hcall⟩ := h
  have hends : (s.tasks i).writeEnds ≠ 0 := hends
  by_cases hroom : pipeCapacity - s.pipe.count < buf.length
  · have hloop : s.pipe.writeLoop buf 0 true signal = (s.pipe, [], 0, some (-EAGAIN)) := by
      rw [Pipe.writeLoop,if_pos hpos,if_neg hr]
      simp only [hle,if_true,Nat.sub_zero,hroom]
    simp [step,runWrite,hf,hends,hcall,hloop,finishWrite,hroom,leave,setTask]
  · have hloop : s.pipe.writeLoop buf 0 true signal =
        (s.pipe.put buf, [buf], buf.length, some 0) := by
      have hchunk : (if buf.length < pipeCapacity - s.pipe.count then buf.length
          else pipeCapacity - s.pipe.count) = buf.length := by split_ifs <;> omega
      rw [Pipe.writeLoop,if_pos hpos,if_neg hr]
      simp only [hle,if_true,Nat.sub_zero,hroom,if_false,hchunk,drop_zero,take_length,Nat.zero_add]
      rw [Pipe.writeLoop,if_neg (lt_irrefl _)]
    have hne : buf ≠ [] := ne_nil_of_length_pos hpos
    simp [step,runWrite,hf,hends,hcall,hloop,finishWrite,hroom,leave,setTask,wakeAll,hne]

theorem read_now (h : CanUse s j false) (hc : s.pipe.count ≠ 0) (n : ℕ) (signal : Bool) :
    ∃ r, r.ret ≠ -EAGAIN ∧ (step s (.read j n true signal)).reads = s.reads ++ [r] := by
  obtain ⟨hf,hends,hcall⟩ := h
  have hends : (s.tasks j).readEnds ≠ 0 := hends
  have hret : ∀ k : ℕ, (k : ℤ) ≠ -EAGAIN := by
    intro k
    unfold EAGAIN
    omega
  by_cases hn : n = 0
  · refine ⟨⟨n,0,[],s.pipe.count,s.pipe.writers⟩,hret 0,?_⟩
    simp [step,runRead,hf,hends,hcall,hn,leave,setTask]
  · refine ⟨⟨n,(s.pipe.take n).1.length,(s.pipe.take n).1,(s.pipe.take n).2.count,
      (s.pipe.take n).2.writers⟩,hret _,?_⟩
    simp [step,runRead,hf,hends,hcall,hn,hc,leave,setTask,wakeAll]

/-- What `poll_scan` says of a pipe is made good by the calls that follow, except that the write
end is reported ready when it has room for some bytes and less than `PIPE_BUF`. -/
theorem poll_agrees_iff (hi : CanUse s i true) (hj : CanUse s j false) : PollAgrees s i j ↔
    s.pipe.readers = 0 ∨ pipeCapacity ≤ s.pipe.count ∨ s.pipe.count + pipeBuf ≤ pipeCapacity := by
  constructor
  · rintro ⟨hout,-⟩
    by_contra hc
    simp only [not_or,not_le] at hc
    obtain ⟨hr,hlt,hroom⟩ := hc
    have hlen : (replicate pipeBuf (0 : Byte)).length = pipeBuf := length_replicate
    obtain ⟨ret,hret,hw⟩ := hout (reports_pollout.mpr ⟨hlt,hr⟩) (replicate pipeBuf 0) false
      (by rw [hlen]; decide) hlen.le
    rw [write_now hi hr (by rw [hlen]; decide) hlen.le,hlen,if_pos (by omega)] at hw
    simp only [append_cancel_left_eq,List.cons.injEq,and_true,WriteRecord.mk.injEq,
      true_and] at hw
    exact hret hw.symm
  · intro h
    refine ⟨fun hrep buf signal hpos hle => ?_,fun hrep n signal =>
      read_now hj (reports_pollin hrep) n signal⟩
    obtain ⟨hlt,hr⟩ := reports_pollout.mp hrep
    refine ⟨_,?_,write_now hi hr hpos hle signal⟩
    unfold EAGAIN
    omega

def almostFull : State Unit := { create () with pipe := { Pipe.create with count := 4095 } }

theorem almostFull_canUse (writeEnd : Bool) : CanUse almostFull () writeEnd := by
  cases writeEnd <;> exact ⟨rfl,by decide,rfl⟩

/-- The write end of the pipe is reported ready, and a write of two bytes finds no room. -/
theorem pollout_then_eagain : Reports almostFull.pipe true pollout ∧
    (step almostFull (.write () [1, 2] true false)).writes = [⟨0,[1, 2],-EAGAIN⟩] :=
  ⟨reports_pollout.mpr ⟨by decide,by decide⟩,
    write_now (almostFull_canUse true) (by decide) (by decide) (by decide) false⟩

def partFilled : State Unit := { create () with pipe := { Pipe.create with count := 3000 } }

/-- With 3000 bytes in the pipe, both ends are reported ready and are. -/
theorem poll_agrees_partFilled : Reports partFilled.pipe true pollout ∧
    Reports partFilled.pipe false pollin ∧ PollAgrees partFilled () () :=
  ⟨reports_pollout.mpr ⟨by decide,by decide⟩,reports_iff.mpr ⟨pollin,by decide⟩,
    (poll_agrees_iff ⟨rfl,by decide,rfl⟩ ⟨rfl,by decide,rfl⟩).mpr (.inr (.inr (by decide)))⟩

end GaiaKernel.Pipes
