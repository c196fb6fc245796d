import GaiaKernel.Lib.Counting
import GaiaKernel.Msg.Pipe

/-! # The byte stream of a pipe

Over any run, what readers got followed by what is buffered is the concatenation of the
pieces writers put in. `Sound` also counts the descriptors, so that the pipe is not freed
under a call.
-/
namespace GaiaKernel.Pipes
open Bytes Circular Counting Trace Function List Prod State
open List.Subset (refl)
variable {buf : List Byte} {id written : ℕ}
namespace Pipe
variable {p : Pipe}

structure Ok (p : Pipe) : Prop where
  head : p.head < pipeCapacity
  count : p.count ≤ pipeCapacity

def ends (p : Pipe) (writeEnd : Bool) : ℕ := if writeEnd then p.writers else p.readers

theorem length_take (p : Pipe) (n : ℕ) : (p.take n).1.length = min n p.count := by
  simp only [take,length_append,length_slice]
  split_ifs <;> omega

theorem take_ok (h : p.Ok) (n : ℕ) : (p.take n).2.Ok := by
  have hcap : 0 < pipeCapacity := by decide
  refine ⟨Nat.mod_lt _ hcap,?_⟩
  have := h.count
  simp only [take]
  omega

theorem take_contents (h : p.Ok) (n : ℕ) : (p.take n).1 ++ (p.take n).2.contents = p.contents := by
  have hchunk : (if n < p.count then n else p.count) = min n p.count := by split_ifs <;> omega
  have hfirst : ∀ c, (if pipeCapacity - p.head > c then c else pipeCapacity - p.head) =
      min (pipeCapacity - p.head) c := by
    intro c
    split_ifs <;> omega
  simp only [take,contents,hchunk,hfirst]
  rw [slice_wrap p.data h.head (by have := h.count; omega)]
  exact view_split p.data (by omega)

theorem put_ok (h : p.Ok) {bytes : List Byte} (hroom : p.count + bytes.length ≤ pipeCapacity) :
    (p.put bytes).Ok := ⟨h.head,hroom⟩

theorem put_contents (h : p.Ok) {bytes : List Byte}
    (hroom : p.count + bytes.length ≤ pipeCapacity) :
    (p.put bytes).contents = p.contents ++ bytes := by
  have hfirst : ∀ c, (if pipeCapacity - c > bytes.length then bytes.length else pipeCapacity - c) =
      min (pipeCapacity - c) bytes.length := by
    intro c
    split_ifs <;> omega
  simp only [put,contents,hfirst]
  exact view_blit p.data bytes h.head hroom

/-- What a stretch of `pipe_write` does: the pipe grows by the pieces, and the pieces are the
next part of the buffer. -/
structure Wrote (p : Pipe) (buf : List Byte) (written : ℕ)
    (r : Pipe × List (List Byte) × ℕ × Option ℤ) : Prop where
  ok : r.1.Ok
  contents : r.1.contents = p.contents ++ r.2.1.flatten
  ends : ∀ w, r.1.ends w = p.ends w
  bound : r.2.2.1 ≤ buf.length
  prefixed : buf.take r.2.2.1 = buf.take written ++ r.2.1.flatten
  error : ∀ rc, r.2.2.2 = some rc → rc ≤ 0
  whole : buf.length ≤ pipeBuf → written = 0 ∨ written = buf.length →
    r.2.1 = [] ∧ r.2.2.1 = written ∨ written < buf.length ∧ r.2.1 = [buf] ∧ r.2.2.1 = buf.length

theorem Ok.wrote {rc : Option ℤ} (h : p.Ok)
    (hw : written ≤ buf.length) (hrc : ∀ e, rc = some e → e ≤ 0) :
    Wrote p buf written (p, [], written, rc) :=
  ⟨h,by simp,fun _ => rfl,hw,by simp,hrc,fun _ _ => .inl ⟨rfl,rfl⟩⟩

theorem writeLoop_wrote (h : p.Ok) (hw : written ≤ buf.length)
    (nonblock signal : Bool) : Wrote p buf written (p.writeLoop buf written nonblock signal) := by
  fun_induction writeLoop p buf written nonblock signal with
  | case1 p written hlt hr =>
    apply h.wrote hw
    simp [EPIPE]
  | case2 p written hlt hr space need hroom hnb =>
    apply h.wrote hw
    simp [EAGAIN]
  | case3 p written hlt hr space need hroom hnb hs =>
    apply h.wrote hw
    simp [EINTR]
  | case4 p written hlt hr space need hroom hnb hs =>
    apply h.wrote hw
    simp
  | case5 p written hlt hr space need hroom chunk bytes r ih =>
    have hcount := h.count
    have hneed : need = if buf.length ≤ pipeBuf then buf.length - written else 1 := rfl
    have hchunk : chunk = min (buf.length - written) space := by
      simp only [chunk]
      split_ifs <;> omega
    have hlen : bytes.length = chunk := by
      simp only [bytes,List.length_take,List.length_drop]
      omega
    have hfit : p.count + bytes.length ≤ pipeCapacity := by omega
    have hrec := ih (put_ok h hfit) (by omega)
    have hpiece : buf.take (written + chunk) = buf.take written ++ bytes := take_add
    refine ⟨hrec.ok,?_,hrec.ends,hrec.bound,?_,hrec.error,fun hsmall h0 => .inr ?_⟩
    · rw [hrec.contents,put_contents h hfit,append_assoc,flatten_cons]
    · rw [hrec.prefixed,hpiece,append_assoc,flatten_cons]
    · -- The buffer fits whole, so one piece takes all of it and the loop ends.
      obtain rfl : written = 0 := by omega
      rw [if_pos hsmall] at hneed
      have hall : chunk = buf.length := by omega
      have hbytes : bytes = buf := by simp [bytes,hall]
      have hend : r = (p.put bytes, [], 0 + chunk, some 0) := by
        simp only [r]
        rw [writeLoop,if_neg (by omega)]
      rw [hend,hbytes]
      exact ⟨hlt,rfl,by simpa using hall⟩
  | case6 p written hlt =>
    apply h.wrote hw
    simp

end Pipe

def pieces (log : List (ℕ × List Byte)) (id : ℕ) : List (List Byte) :=
  (log.filter fun c => c.1 = id).map snd

theorem pieces_append (log log' : List (ℕ × List Byte)) (id : ℕ) :
    pieces (log ++ log') id = pieces log id ++ pieces log' id := by
  simp [pieces]

theorem pieces_same (id : ℕ) (bs : List (List Byte)) : pieces (bs.map (id, ·)) id = bs := by
  simp [pieces,filter_map,comp_def]

theorem pieces_other {id' : ℕ} (h : id' ≠ id) (bs : List (List Byte)) :
    pieces (bs.map (id', ·)) id = [] := by
  simp [pieces,filter_map,comp_def,h]

theorem pieces_fresh {log : List (ℕ × List Byte)} (h : ∀ c ∈ log, c.1 < id) :
    pieces log id = [] := by
  simp only [pieces,map_eq_nil_iff,filter_eq_nil_iff,decide_eq_true_eq]
  intro c hc
  have := h c hc
  omega

/-- A read of at least one byte returns 0 only at the end of the stream. -/
def ReadRecord.Ok (r : ReadRecord) : Prop :=
  r.n ≠ 0 → r.ret = 0 → r.left = 0 ∧ r.writers = 0

/-- A write that returned: what it reports is what it put in, and a short one went in as one
piece. -/
structure WriteRecord.Ok (log : List (ℕ × List Byte)) (r : WriteRecord) : Prop where
  accepted : 0 < r.ret → (pieces log r.id).flatten = r.buf.take r.ret.toNat
  refused : r.ret ≤ 0 → (pieces log r.id).flatten = []
  whole : 0 < r.ret → r.buf.length ≤ pipeBuf → pieces log r.id = [r.buf]

namespace State
variable {ι : Type*} (s : State ι)

def delivered : List Byte := (s.reads.map ReadRecord.bytes).flatten

def Writing (i : ι) (id : ℕ) : Prop :=
  ∃ buf written nonblock, (s.tasks i).call = some (.write id buf written nonblock)

/-- A waiting call: its task has a descriptor on the end it waits on, and a write has put in
what it has counted so far. -/
def CallOk (i : ι) : Call → Prop
  | .read _ _ => (s.tasks i).ends false ≠ 0
  | .write id buf written _ => (s.tasks i).ends true ≠ 0 ∧ written ≤ buf.length ∧
      (pieces s.log id).flatten = buf.take written ∧
      (buf.length ≤ pipeBuf → pieces s.log id = [] ∧ written = 0 ∨
        pieces s.log id = [buf] ∧ written = buf.length) ∧
      id < s.nextId ∧ (∀ r ∈ s.writes, r.id ≠ id) ∧ ∀ k ∈ s.killed, k.1 ≠ id

end State

/-- Bytes delivered and bytes buffered are the pieces put in, each piece belongs to a write,
returned writes put in what they report, the pieces of a waiting or a killed write are a prefix of
its buffer, end of file is reported only at the end, and the pipe is
not used after it is freed. -/
structure StreamLaw {ι : Type*} (s : State ι) : Prop where
  stream : s.delivered ++ s.pipe.contents = (s.log.map snd).flatten
  owner : ∀ c ∈ s.log,
    (∃ r ∈ s.writes, r.id = c.1) ∨ (∃ i, s.Writing i c.1) ∨ ∃ k ∈ s.killed, k.1 = c.1
  writes : ∀ r ∈ s.writes, r.Ok s.log
  waiting : ∀ i id buf written nonblock,
    (s.tasks i).call = some (.write id buf written nonblock) →
      (pieces s.log id).flatten = buf.take written
  killed : ∀ k ∈ s.killed, (pieces s.log k.1).flatten <+: k.2
  contiguous : ∀ r ∈ s.writes, 0 < r.ret → r.buf.length ≤ pipeBuf →
    r.buf <:+: s.delivered ++ s.pipe.contents
  reads : ∀ r ∈ s.reads, r.Ok
  fault : s.fault = false

variable {ι : Type*} [Fintype ι]

structure Sound (s : State ι) : Prop where
  ok : s.pipe.Ok
  stream : s.delivered ++ s.pipe.contents = (s.log.map snd).flatten
  owner : ∀ c ∈ s.log,
    (∃ r ∈ s.writes, r.id = c.1) ∨ (∃ i, s.Writing i c.1) ∨ ∃ k ∈ s.killed, k.1 = c.1
  writes : ∀ r ∈ s.writes, r.Ok s.log ∧ r.id < s.nextId
  killed : ∀ k ∈ s.killed, k.1 < s.nextId ∧ (pieces s.log k.1).flatten <+: k.2
  reads : ∀ r ∈ s.reads, r.Ok
  fault : s.fault = false
  ends : ∀ w, s.pipe.ends w = ∑ i, (s.tasks i).ends w
  freed : s.freed = true → ∀ w, s.pipe.ends w = 0
  calls : ∀ {i c}, (s.tasks i).call = some c → s.CallOk i c
  apart : ∀ {i j id}, s.Writing i id → s.Writing j id → i = j

variable {s : State ι} {i : ι}

theorem Sound.writing_lt (h : Sound s) (hw : s.Writing i id) : id < s.nextId := by
  obtain ⟨buf,written,nonblock,hc⟩ := hw
  exact (h.calls hc).2.2.2.2.1

theorem Sound.log_lt (h : Sound s) : ∀ c ∈ s.log, c.1 < s.nextId := by
  intro c hc
  rcases h.owner c hc with ⟨r,hr,hid⟩ | ⟨j,hj⟩ | ⟨k,hk,hid⟩
  · rw [← hid]
    exact (h.writes r hr).2
  · exact h.writing_lt hj
  · rw [← hid]
    exact (h.killed k hk).1

theorem Sound.streamLaw (h : Sound s) : StreamLaw s := by
  refine ⟨h.stream,h.owner,fun r hr => (h.writes r hr).1,fun i id buf written nonblock hc => ?_,
    fun k hk => (h.killed k hk).2,fun r hr hpos hsmall => ?_,h.reads,h.fault⟩
  · exact (h.calls hc).2.2.1
  -- The one piece of a short write is an element of the log, hence a run of the stream.
  have hone := (h.writes r hr).1.whole hpos hsmall
  have hmem : r.buf ∈ s.log.map snd := by
    have hp : r.buf ∈ pieces s.log r.id := by simp [hone]
    simp only [pieces,mem_map,mem_filter] at hp ⊢
    obtain ⟨c,⟨hc,_⟩,hcb⟩ := hp
    exact ⟨c,hc,hcb⟩
  rw [h.stream]
  obtain ⟨l1,l2,hl⟩ := append_of_mem hmem
  rw [hl,flatten_append,flatten_cons,← append_assoc]
  exact ⟨l1.flatten,l2.flatten,rfl⟩

theorem Sound.not_freed (h : Sound s) {w : Bool} (he : (s.tasks i).ends w ≠ 0) :
    s.freed = false := by
  by_contra hf
  rw [Bool.not_eq_false] at hf
  have hsum := h.ends w
  rw [h.freed hf w] at hsum
  have hle : (s.tasks i).ends w ≤ ∑ j, (s.tasks j).ends w := le_sum (fun j => (s.tasks j).ends w) i
  omega

omit [Fintype ι] in
theorem State.CallOk.congr {s' : State ι} {c : Call} (h : s.CallOk i c)
    (hends : ∀ w, (s.tasks i).ends w ≠ 0 → (s'.tasks i).ends w ≠ 0)
    (hrest : s'.log = s.log ∧ s'.nextId = s.nextId ∧ s'.writes = s.writes ∧ s'.killed = s.killed) :
    s'.CallOk i c := by
  obtain ⟨h1,h2,h3,h4⟩ := hrest
  cases c with
  | read n nonblock => exact hends false h
  | write id buf written nonblock =>
    simp only [State.CallOk,h1,h2,h3,h4]
    exact ⟨hends true h.1,h.2⟩

/-- Descriptors come and go; a task that waits keeps one on each end it had. -/
theorem Sound.setEnds (h : Sound s) (readers writers : ℕ) {tasks : ι → Task}
    (hcall : ∀ j, (tasks j).call = (s.tasks j).call)
    (hkeep : ∀ j w, (s.tasks j).call ≠ none → (s.tasks j).ends w ≠ 0 → (tasks j).ends w ≠ 0)
    (hr : readers = ∑ j, (tasks j).ends false) (hw : writers = ∑ j, (tasks j).ends true)
    (hf : s.freed = true → readers = 0 ∧ writers = 0) :
    Sound { s with pipe := { s.pipe with readers := readers, writers := writers }, tasks := tasks } := by
  refine ⟨⟨h.ok.head,h.ok.count⟩,h.stream,fun c hc => ?_,h.writes,h.killed,h.reads,h.fault,
    Bool.forall_bool.mpr ⟨hr,hw⟩,fun hfreed => Bool.forall_bool.mpr (hf hfreed),
    fun {j c} hc => ?_,fun {j k id} hj hk => ?_⟩
  · simp only [State.Writing,hcall]
    exact h.owner c hc
  · rw [hcall] at hc
    exact (h.calls hc).congr (fun w => hkeep j w (by simp [hc])) ⟨rfl,rfl,rfl,rfl⟩
  · simp only [State.Writing,hcall] at hj hk
    exact h.apart hj hk

theorem Sound.setTasks (h : Sound s) (tasks : ι → Task)
    (hcall : ∀ j, (tasks j).call = (s.tasks j).call)
    (hends : ∀ j w, (tasks j).ends w = (s.tasks j).ends w) : Sound { s with tasks := tasks } := by
  refine h.setEnds s.pipe.readers s.pipe.writers hcall (fun j w _ => (hends j w).symm ▸ id) ?_ ?_
    fun hf => ⟨h.freed hf false,h.freed hf true⟩
  · simp only [hends]
    exact h.ends false
  · simp only [hends]
    exact h.ends true

omit [Fintype ι] in
theorem call_wakeAll (s : State ι) (readable : Bool) (j : ι) :
    ((s.wakeAll readable).tasks j).call = (s.tasks j).call := by
  simp only [wakeAll]
  split_ifs <;> rfl

omit [Fintype ι] in
theorem ends_wakeAll (s : State ι) (readable : Bool) (j : ι) (w : Bool) :
    ((s.wakeAll readable).tasks j).ends w = (s.tasks j).ends w := by
  simp only [wakeAll]
  split_ifs <;> rfl

theorem Sound.wakeAll (h : Sound s) (readable : Bool) : Sound (s.wakeAll readable) :=
  h.setTasks _ (call_wakeAll s readable) (ends_wakeAll s readable)

variable [DecidableEq ι]

/-- `leave` and `park`: the task has this call from now on. -/
def State.setCall (s : State ι) (i : ι) (c : Option Call) : State ι :=
  s.setTask i { s.tasks i with call := c, ready := false }

omit [Fintype ι] in
@[simp] theorem ends_setCall (s : State ι) (i j : ι) (c : Option Call) (w : Bool) :
    ((s.setCall i c).tasks j).ends w = (s.tasks j).ends w := by
  by_cases hj : j = i
  · subst hj
    simp [setCall,setTask,Task.ends]
  · simp [setCall,setTask,hj]

omit [Fintype ι] in
theorem call_setCall (s : State ι) (i j : ι) (c : Option Call) :
    ((s.setCall i c).tasks j).call = if j = i then c else (s.tasks j).call := by
  by_cases hj : j = i
  · subst hj
    simp [setCall,setTask]
  · simp [setCall,setTask,hj]

/-- A task stops writing, for good or to wait for a read; what it wrote is settled. -/
theorem Sound.setCall (h : Sound s) (i : ι) (c : Option Call) {writes : List WriteRecord}
    {killed : List (ℕ × List Byte)} (hsub : s.writes ⊆ writes) (hsubk : s.killed ⊆ killed)
    (hw : ∀ r ∈ writes, r ∈ s.writes ∨ s.Writing i r.id ∧ r.Ok s.log)
    (hk : ∀ x ∈ killed, x ∈ s.killed ∨ s.Writing i x.1 ∧ (pieces s.log x.1).flatten <+: x.2)
    (hout : ∀ id, s.Writing i id → (∃ r ∈ writes, r.id = id) ∨ ∃ x ∈ killed, x.1 = id)
    (hc : c = none ∨ ∃ n nonblock, c = some (.read n nonblock) ∧ (s.tasks i).ends false ≠ 0) :
    Sound { s.setCall i c with writes := writes, killed := killed } := by
  have hwriting : ∀ j id, (s.setCall i c).Writing j id ↔ j ≠ i ∧ s.Writing j id := by
    intro j id
    simp only [State.Writing,call_setCall]
    by_cases hj : j = i
    · rcases hc with rfl | ⟨n,nonblock,rfl,_⟩ <;> simp [hj]
    · simp [hj]
  refine ⟨h.ok,h.stream,fun c hcl => ?_,fun r hr => ?_,fun x hx => ?_,h.reads,h.fault,
    fun w => ?_,h.freed,fun {j c'} hj => ?_,fun {j k id} hj hk => ?_⟩
  · rcases h.owner c hcl with ⟨r,hr,hrid⟩ | ⟨j,hj⟩ | ⟨x,hx,hxid⟩
    · exact .inl ⟨r,hsub hr,hrid⟩
    · by_cases hji : j = i
      · exact (hout _ (hji ▸ hj)).imp_right .inr
      · exact .inr (.inl ⟨j,(hwriting j _).mpr ⟨hji,hj⟩⟩)
    · exact .inr (.inr ⟨x,hsubk hx,hxid⟩)
  · rcases hw r hr with hr | ⟨hid,hok⟩
    · exact h.writes r hr
    · exact ⟨hok,h.writing_lt hid⟩
  · exact (hk x hx).elim (h.killed x) fun hnew => ⟨h.writing_lt hnew.1,hnew.2⟩
  · simp only [ends_setCall]
    exact h.ends w
  · rw [call_setCall] at hj
    split_ifs at hj with hji
    · subst hji
      rcases hc with rfl | ⟨n,nonblock,rfl,hend⟩
      · cases hj
      · obtain rfl := Option.some.inj hj
        simpa only [State.CallOk,ends_setCall] using hend
    · have hok := h.calls hj
      cases c' with
      | read n nonblock => simpa only [State.CallOk,ends_setCall] using hok
      | write id buf written nonblock =>
        obtain ⟨h1,h2,h3,h4,h5,h6,h7⟩ := hok
        have hne : ¬ s.Writing i id := fun hid => hji (h.apart ⟨_,_,_,hj⟩ hid)
        refine ⟨by simpa only [ends_setCall] using h1,h2,h3,h4,h5,fun r hr hrid => ?_,
          fun x hx hxid => ?_⟩
        · exact (hw r hr).elim (fun hr => h6 r hr hrid) fun hid => hne (hrid ▸ hid.1)
        · exact (hk x hx).elim (fun hx => h7 x hx hxid) fun hnew => hne (hxid ▸ hnew.1)
  · exact h.apart ((hwriting j id).mp hj).2 ((hwriting k id).mp hk).2

omit [DecidableEq ι] in
theorem Sound.readReturn (h : Sound s) {p : Pipe} {r : ReadRecord} (hp : p.Ok)
    (hends : ∀ w, p.ends w = s.pipe.ends w) (hbytes : r.bytes ++ p.contents = s.pipe.contents)
    (hr : r.Ok) : Sound { s with pipe := p, reads := s.reads ++ [r] } := by
  refine ⟨hp,?_,h.owner,h.writes,h.killed,fun r' hr' => ?_,h.fault,fun w => ?_,
    fun hf w => ?_,h.calls,h.apart⟩
  · simp only [delivered,map_append,map_cons,map_nil,flatten_append,
      flatten_cons,flatten_nil,append_nil,append_assoc]
    rw [hbytes]
    exact h.stream
  · rcases mem_append.mp hr' with hr' | hr'
    · exact h.reads r' hr'
    · rw [mem_singleton.mp hr']
      exact hr
  · rw [hends]
    exact h.ends w
  · rw [hends]
    exact h.freed hf w

omit [DecidableEq ι] in
theorem Sound.readEmpty (h : Sound s) {r : ReadRecord} (hb : r.bytes = []) (hr : r.Ok) :
    Sound { s with reads := s.reads ++ [r] } :=
  h.readReturn h.ok (fun _ => rfl) (by rw [hb]; rfl) hr

section
variable (h : Sound s) (i : ι) (hno : ∀ id, ¬ s.Writing i id)
include h hno

theorem Sound.leaveRead : Sound (s.leave i) :=
  h.setCall i none (refl _) (refl _) (fun _ hr => .inl hr)
    (fun _ hx => .inl hx) (fun id hid => absurd hid (hno id)) (.inl rfl)

theorem Sound.parkRead (hend : (s.tasks i).ends false ≠ 0) (n : ℕ) (nonblock : Bool) :
    Sound (s.park i (.read n nonblock)) :=
  h.setCall i _ (refl _) (refl _) (fun _ hr => .inl hr)
    (fun _ hx => .inl hx) (fun id hid => absurd hid (hno id)) (.inr ⟨n,nonblock,rfl,hend⟩)

end

theorem Sound.runRead (h : Sound s) (hno : ∀ id, ¬ s.Writing i id)
    (hend : (s.tasks i).ends false ≠ 0) (n : ℕ) (nonblock signal : Bool) :
    Sound (s.runRead i n nonblock signal) := by
  unfold State.runRead
  rw [if_neg (by simp [h.not_freed hend])]
  by_cases hn : n = 0
  · rw [if_pos hn]
    exact (h.leaveRead i hno).readEmpty rfl fun h0 => absurd hn h0
  rw [if_neg hn]
  by_cases hc : s.pipe.count = 0
  · split_ifs with hw hnb hs
    · exact (h.leaveRead i hno).readEmpty rfl fun _ _ => ⟨hc,hw⟩
    · exact (h.leaveRead i hno).readEmpty rfl fun _ hr => by simp [EAGAIN] at hr
    · exact (h.leaveRead i hno).readEmpty rfl fun _ hr => by simp [EINTR] at hr
    · exact h.parkRead i hno hend n nonblock
  · rw [if_neg hc]
    have hlen := Pipe.length_take s.pipe n
    have hr := h.readReturn (p := (s.pipe.take n).2)
      (r := ⟨n,(s.pipe.take n).1.length,(s.pipe.take n).1,(s.pipe.take n).2.count,
        (s.pipe.take n).2.writers⟩) (Pipe.take_ok h.ok n) (fun _ => rfl)
      (Pipe.take_contents h.ok n) (fun _ h0 => by simp only at h0; omega)
    refine (hr.wakeAll false).leaveRead i fun id hid => hno id ?_
    simpa only [State.Writing,call_wakeAll] using hid

variable (s)

omit [Fintype ι] in
theorem call_park (i j : ι) (c : Call) :
    ((s.park i c).tasks j).call = if j = i then some c else (s.tasks j).call :=
  call_setCall s i j (some c)

omit [Fintype ι] in
theorem ends_park (i j : ι) (c : Call) (w : Bool) :
    ((s.park i c).tasks j).ends w = (s.tasks j).ends w := ends_setCall s i j (some c) w

omit [Fintype ι] in
theorem leave_park (i : ι) (c : Call) : (s.park i c).leave i = s.leave i := by
  simp [park,leave,setTask]

omit [Fintype ι] in
theorem writing_parkWrite (i j : ι) (id id' : ℕ) (buf : List Byte) (written : ℕ)
    (nonblock : Bool) : (s.park i (.write id buf written nonblock)).Writing j id' ↔
      j = i ∧ id' = id ∨ j ≠ i ∧ s.Writing j id' := by
  by_cases hj : j = i
  · subst hj
    simp [State.Writing,call_park,eq_comm]
  · simp [State.Writing,call_park,hj]

variable {s}

structure Writer (s : State ι) (i : ι) (id : ℕ) (buf : List Byte) (written : ℕ) : Prop where
  call : s.CallOk i (.write id buf written false)
  only : ∀ j, s.Writing j id → j = i
  own : ∀ id', s.Writing i id' → id' = id

variable (h : Sound s)
include h

theorem Sound.parkWrite
    (hw : Writer s i id buf written) {r : Pipe × List (List Byte) × ℕ × Option ℤ}
    (hr : s.pipe.Wrote buf written r) (nonblock : Bool) :
    Sound ({ s with pipe := r.1, log := s.log ++ r.2.1.map (id, ·) }.park i
      (.write id buf r.2.2.1 nonblock)) := by
  obtain ⟨hend,hbound,hpieces,hwhole,hlt,hnotW,hnotK⟩ := hw.call
  have hother : ∀ id', id ≠ id' → pieces (s.log ++ r.2.1.map (id, ·)) id' = pieces s.log id' := by
    intro id' hne
    rw [pieces_append,pieces_other hne,append_nil]
  have hthis : pieces (s.log ++ r.2.1.map (id, ·)) id = pieces s.log id ++ r.2.1 := by
    rw [pieces_append,pieces_same]
  refine ⟨hr.ok,?_,fun c hc => ?_,fun w hwr => ?_,fun k hk => ?_,h.reads,h.fault,fun w => ?_,
    fun hf w => ?_,fun {j c} hc => ?_,fun {j k id'} hj hk => ?_⟩
  · have hsnd : ((r.2.1.map (id, ·)).map snd) = r.2.1 := by simp [comp_def]
    simp only [park,setTask]
    rw [hr.contents,← append_assoc,map_append,flatten_append,hsnd]
    exact congrArg (· ++ r.2.1.flatten) h.stream
  · simp only [writing_parkWrite]
    rcases mem_append.mp hc with hc | hc
    · rcases h.owner c hc with hrec | ⟨j,hj⟩ | hk
      · exact .inl hrec
      · refine .inr (.inl ⟨j,?_⟩)
        by_cases hji : j = i
        · subst hji
          exact .inl ⟨rfl,hw.own _ hj⟩
        · exact .inr ⟨hji,hj⟩
      · exact .inr (.inr hk)
    · obtain ⟨b,_,rfl⟩ := mem_map.mp hc
      exact .inr (.inl ⟨i,.inl ⟨rfl,rfl⟩⟩)
  · have hne : id ≠ w.id := fun hc => hnotW w hwr hc.symm
    obtain ⟨⟨h1,h2,h3⟩,h4⟩ := h.writes w hwr
    refine ⟨⟨?_,?_,?_⟩,h4⟩
    · exact fun hpos => (congrArg flatten (hother _ hne)).trans (h1 hpos)
    · exact fun hneg => (congrArg flatten (hother _ hne)).trans (h2 hneg)
    · exact fun hpos hs => (hother _ hne).trans (h3 hpos hs)
  · obtain ⟨hid,hpre⟩ := h.killed k hk
    have hne : id ≠ k.1 := fun hc => hnotK k hk hc.symm
    exact ⟨hid,(congrArg flatten (hother _ hne)).symm ▸ hpre⟩
  · simp only [ends_park]
    exact (hr.ends w).trans (h.ends w)
  · exact (hr.ends w).trans (h.freed hf w)
  · rw [call_park] at hc
    split_ifs at hc with hj
    · cases hc
      subst hj
      refine ⟨by simpa only [ends_park] using hend,hr.bound,?_,fun hsmall => ?_,hlt,hnotW,hnotK⟩
      · refine (congrArg flatten hthis).trans ?_
        rw [flatten_append,hpieces,hr.prefixed]
      · change pieces (s.log ++ r.2.1.map (id, ·)) id = [] ∧ _ ∨
          pieces (s.log ++ r.2.1.map (id, ·)) id = [buf] ∧ _
        rw [hthis]
        rcases hwhole hsmall with ⟨hp,hw0⟩ | ⟨hp,hwl⟩
        · rcases hr.whole hsmall (.inl hw0) with ⟨h1,h2⟩ | ⟨_,h1,h2⟩
          · exact .inl ⟨by rw [hp,h1]; rfl,h2.trans hw0⟩
          · exact .inr ⟨by rw [hp,h1]; rfl,h2⟩
        · rcases hr.whole hsmall (.inr hwl) with ⟨h1,h2⟩ | ⟨h0,h1,h2⟩
          · exact .inr ⟨by rw [hp,h1]; rfl,h2.trans hwl⟩
          · omega
    · have hok := h.calls hc
      cases c with
      | read n nb => simpa only [State.CallOk,ends_park] using hok
      | write id' buf' written' nb =>
        have hne : id ≠ id' := by
          rintro rfl
          exact hj (hw.only j ⟨buf',written',nb,hc⟩)
        obtain ⟨h1,h2,h3,h4,h5⟩ := hok
        refine ⟨by simpa only [ends_park] using h1,h2,?_,fun hsmall => ?_,h5⟩
        · exact (congrArg flatten (hother _ hne)).trans h3
        · change pieces (s.log ++ r.2.1.map (id, ·)) id' = [] ∧ _ ∨
            pieces (s.log ++ r.2.1.map (id, ·)) id' = [buf'] ∧ _
          rw [hother _ hne]
          exact h4 hsmall
  · rw [writing_parkWrite] at hj hk
    rcases hj with ⟨rfl,rfl⟩ | ⟨hji,hj⟩ <;> rcases hk with ⟨rfl,hkid⟩ | ⟨hki,hk⟩
    · rfl
    · exact absurd (hw.only k hk) hki
    · exact absurd (hw.only j (hkid ▸ hj)) hji
    · exact h.apart hj hk

theorem Sound.finishWrite {nonblock : Bool}
    (hc : (s.tasks i).call = some (.write id buf written nonblock)) {rc : ℤ} (hrc : rc ≤ 0) :
    Sound (s.finishWrite i id buf written rc) := by
  obtain ⟨_,_,hpieces,hwhole,_⟩ := h.calls hc
  have hrec : WriteRecord.Ok s.log ⟨id,buf,if written ≠ 0 then written else rc⟩ := by
    by_cases h0 : written = 0
    · subst h0
      exact ⟨fun hpos => by dsimp only at hpos; omega,fun _ => hpieces,
        fun hpos => by dsimp only at hpos; omega⟩
    · rw [if_pos h0]
      refine ⟨fun _ => by simpa using hpieces,fun hneg => by dsimp only at hneg; omega,
        fun _ hsmall => ?_⟩
      rcases hwhole hsmall with ⟨_,hw⟩ | ⟨hp,_⟩
      · exact absurd hw h0
      · exact hp
  refine h.setCall i none (subset_append_left _ _) (refl _) (fun r hr => ?_)
    (fun x hx => .inl hx) (fun id' hid => .inl ⟨_,mem_append_right _
      (mem_singleton_self _),?_⟩) (.inl rfl)
  · rcases mem_append.mp hr with hr | hr
    · exact .inl hr
    · rw [mem_singleton.mp hr]
      exact .inr ⟨⟨_,_,_,hc⟩,hrec⟩
  · obtain ⟨_,_,_,hc'⟩ := hid
    cases hc.symm.trans hc'
    rfl

omit h in
theorem Sound.wakePark (h : Sound (s.park i c)) (readable : Bool) :
    Sound ((s.wakeAll readable).park i c) := by
  refine h.setTasks ((s.wakeAll readable).park i c).tasks (fun j => ?_) fun j w => ?_
  · rw [call_park,call_park,call_wakeAll]
  · rw [ends_park,ends_park,ends_wakeAll]

theorem Sound.runWrite (hw : Writer s i id buf written) (nonblock signal : Bool) :
    Sound (s.runWrite i id buf written nonblock signal) := by
  unfold State.runWrite
  rw [if_neg (by simp [h.not_freed hw.call.1])]
  have hr := Pipe.writeLoop_wrote h.ok hw.call.2.1 nonblock signal
  generalize s.pipe.writeLoop buf written nonblock signal = r at hr
  dsimp only
  have hpark : Sound ((if r.2.1.isEmpty = true then
      ({ s with pipe := r.1, log := s.log ++ r.2.1.map (id, ·) } : State ι)
      else State.wakeAll { s with pipe := r.1, log := s.log ++ r.2.1.map (id, ·) } true).park i
        (.write id buf r.2.2.1 nonblock)) := by
    split_ifs
    · exact h.parkWrite hw hr nonblock
    · exact (h.parkWrite hw hr nonblock).wakePark true
  generalize (if r.2.1.isEmpty = true then
      ({ s with pipe := r.1, log := s.log ++ r.2.1.map (id, ·) } : State ι)
      else State.wakeAll { s with pipe := r.1, log := s.log ++ r.2.1.map (id, ·) } true) = s2
    at hpark ⊢
  cases hrc : r.2.2.2 with
  | none => exact hpark
  | some rc =>
    have hcall : ((s2.park i (.write id buf r.2.2.1 nonblock)).tasks i).call =
        some (.write id buf r.2.2.1 nonblock) := by
      rw [call_park,if_pos rfl]
    have hfin := hpark.finishWrite hcall (hr.error rc hrc)
    simp only [State.finishWrite,leave_park] at hfin ⊢
    exact hfin

omit h in
theorem sum_ends_update (tasks : ι → Task) (j : ι) (t : Task) (w : Bool) :
    (∑ k, (update tasks j t k).ends w) + (tasks j).ends w = (∑ k, (tasks k).ends w) + t.ends w :=
  sum_update tasks j t fun t => t.ends w

omit h in
theorem Task.ends_setEnds (t : Task) (w w' : Bool) (n : ℕ) :
    (t.setEnds w n).ends w' = if w' = w then n else t.ends w' := by
  cases w <;> cases w' <;> rfl

omit h in
theorem Task.call_setEnds (t : Task) (w : Bool) (n : ℕ) : (t.setEnds w n).call = t.call := by
  cases w <;> rfl

/-- One task has `n` descriptors on the end `w` from now on, and the pipe counts them. -/
theorem Sound.setEnd {w : Bool} {n : ℕ} (hf : s.freed = false)
    (hkeep : n ≠ 0 ∨ (s.tasks i).call = none) {readers writers : ℕ}
    (hr : readers + (if w then 0 else (s.tasks i).ends w) = s.pipe.readers + if w then 0 else n)
    (hw : writers + (if w then (s.tasks i).ends w else 0) = s.pipe.writers + if w then n else 0) :
    Sound { s with
      pipe := { s.pipe with readers := readers, writers := writers }
      tasks := update s.tasks i ((s.tasks i).setEnds w n) } := by
  have hsum : ∀ w', _ := sum_ends_update s.tasks i ((s.tasks i).setEnds w n)
  have hends : ∀ w', s.pipe.ends w' = _ := h.ends
  refine h.setEnds readers writers (fun j => ?_) (fun j w' hj hjw => ?_) ?_ ?_ (by simp [hf])
  · by_cases hj : j = i
    · rw [hj,update_self,Task.call_setEnds]
    · rw [update_of_ne hj]
  · by_cases hji : j = i
    · subst hji
      rw [update_self,Task.ends_setEnds]
      split_ifs
      · exact hkeep.resolve_right hj
      · exact hjw
    · rw [update_of_ne hji]
      exact hjw
  · have hs := hsum false
    rw [← hends,Task.ends_setEnds] at hs
    cases w <;> simp [Pipe.ends] at hs hr ⊢ <;> omega
  · have hs := hsum true
    rw [← hends,Task.ends_setEnds] at hs
    cases w <;> simp [Pipe.ends] at hs hw ⊢ <;> omega

theorem Sound.dup (i j : ι) (w : Bool) : Sound (step s (.dup i j w)) := by
  simp only [step]
  split_ifs with hend
  · exact h
  have hf := h.not_freed hend
  rw [pipeRef,if_neg (by simp [hf])]
  cases w with
  | true => exact h.setEnd hf (.inl (Nat.succ_ne_zero _)) (by simp) (by simp; omega)
  | false => exact h.setEnd hf (.inl (Nat.succ_ne_zero _)) (by simp; omega) (by simp)

omit [DecidableEq ι] in
theorem Sound.free (hr : s.pipe.readers = 0) (hw : s.pipe.writers = 0) :
    Sound { s with freed := true } := by
  refine ⟨h.ok,h.stream,h.owner,h.writes,h.killed,h.reads,h.fault,h.ends,fun _ w => ?_,
    h.calls,h.apart⟩
  cases w
  · exact hr
  · exact hw

omit [DecidableEq ι] in
theorem Sound.freeIf :
    Sound (if s.pipe.readers = 0 ∧ s.pipe.writers = 0 then { s with freed := true } else s) := by
  split_ifs with hz
  · exact h.free hz.1 hz.2
  · exact h

omit [DecidableEq ι] in
theorem Sound.wakeIf (readable : Bool) (c : Prop) [Decidable c] :
    Sound (if c then s.wakeAll readable else s) := by
  split_ifs
  · exact h.wakeAll readable
  · exact h

theorem Sound.close (i : ι) (w : Bool) : Sound (step s (.close i w)) := by
  simp only [step]
  split_ifs with hno
  · exact h
  obtain ⟨hend,hcall⟩ := not_or.mp hno
  have hcall : (s.tasks i).call = none := by simpa using hcall
  have hf := h.not_freed hend
  have hle : (s.tasks i).ends w ≤ s.pipe.ends w := by
    rw [h.ends w]
    exact le_sum (fun j => (s.tasks j).ends w) i
  rw [pipeUnref,if_neg (by simp [setTask,hf])]
  dsimp only [setTask]
  cases w with
  | true =>
    have hle : _ ≤ s.pipe.writers := hle
    have hne : s.pipe.writers ≠ 0 := by omega
    rw [if_pos rfl,if_pos hne]
    refine ((h.setEnd hf (.inr hcall) (by simp) ?_).wakeIf true _).freeIf
    simp
    omega
  | false =>
    have hle : _ ≤ s.pipe.readers := hle
    have hne : s.pipe.readers ≠ 0 := by omega
    rw [if_neg Bool.false_ne_true,if_pos hne]
    refine ((h.setEnd hf (.inr hcall) ?_ (by simp)).wakeIf false _).freeIf
    simp
    omega

omit h in
omit [DecidableEq ι] [Fintype ι] in
theorem not_writing (hcall : ∀ id buf written nonblock,
    (s.tasks i).call ≠ some (.write id buf written nonblock)) (id : ℕ) : ¬ s.Writing i id := by
  rintro ⟨buf,written,nonblock,hc⟩
  exact hcall id buf written nonblock hc

theorem Sound.write (i : ι) (buf : List Byte) (nonblock signal : Bool) :
    Sound (step s (.write i buf nonblock signal)) := by
  simp only [step]
  split_ifs with hno
  · exact h
  obtain ⟨hend,hcall⟩ := not_or.mp hno
  have hcall : (s.tasks i).call = none := by simpa using hcall
  have hnext : Sound { s with nextId := s.nextId + 1 } := by
    refine ⟨h.ok,h.stream,h.owner,fun r hr => ?_,fun k hk => ?_,h.reads,h.fault,h.ends,
      h.freed,fun {j c} hc => ?_,h.apart⟩
    · exact ⟨(h.writes r hr).1,Nat.lt_succ_of_lt (h.writes r hr).2⟩
    · exact ⟨Nat.lt_succ_of_lt (h.killed k hk).1,(h.killed k hk).2⟩
    · have hok := h.calls hc
      cases c with
      | read n nb => exact hok
      | write id b w nb =>
        obtain ⟨h1,h2,h3,h4,h5,h6⟩ := hok
        exact ⟨h1,h2,h3,h4,Nat.lt_succ_of_lt h5,h6⟩
  have hfresh := pieces_fresh h.log_lt
  refine hnext.runWrite ⟨⟨hend,Nat.zero_le _,?_,fun _ => .inl ⟨hfresh,rfl⟩,
    Nat.lt_succ_self _,fun r hr => ?_,fun k hk => ?_⟩,fun j hj => ?_,fun id hid => ?_⟩ _ _
  · exact congrArg flatten hfresh
  · exact (h.writes r hr).2.ne
  · exact (h.killed k hk).1.ne
  · exact absurd (h.writing_lt hj) (lt_irrefl _)
  · obtain ⟨_,_,_,hc⟩ := hid
    exact absurd (hcall.symm.trans hc) (by simp)

theorem Sound.resume (i : ι) (interrupted signal : Bool) :
    Sound (resume s i interrupted signal) := by
  unfold Pipes.resume
  cases hc : (s.tasks i).call with
  | none => exact h
  | some c =>
    have hok := h.calls hc
    cases c with
    | read n nonblock =>
      have hno := not_writing (s := s) (i := i) (by simp [hc])
      cases interrupted with
      | true => exact (h.leaveRead i hno).readEmpty rfl fun _ hr => by simp [EINTR] at hr
      | false => exact h.runRead hno hok n nonblock signal
    | write id buf written nonblock =>
      cases interrupted with
      | true => exact h.finishWrite hc (by simp [EINTR])
      | false =>
        refine h.runWrite ⟨hok,fun j hj => h.apart hj ⟨_,_,_,hc⟩,fun id' hid => ?_⟩ _ _
        obtain ⟨_,_,_,hc'⟩ := hid
        cases hc.symm.trans hc'
        rfl

theorem Sound.kill (i : ι) : Sound (step s (.kill i)) := by
  simp only [step]
  cases hc : (s.tasks i).call with
  | none => exact h.leaveRead i (not_writing (by simp [hc]))
  | some c =>
    cases c with
    | read n nonblock => exact h.leaveRead i (not_writing (by simp [hc]))
    | write id buf written nonblock =>
      refine h.setCall i none (refl _) (subset_cons_self _ _)
        (fun r hr => .inl hr) (fun x hx => ?_) (fun id' hid => .inr ?_) (.inl rfl)
      · rcases mem_cons.mp hx with rfl | hx
        · refine .inr ⟨⟨_,_,_,hc⟩,?_⟩
          rw [(h.calls hc).2.2.1]
          exact take_prefix _ _
        · exact .inl hx
      · obtain ⟨_,_,_,hc'⟩ := hid
        cases hc.symm.trans hc'
        exact ⟨_,mem_cons_self,rfl⟩

theorem step_sound (op : Op ι) : Sound (step s op) := by
  cases op with
  | dup i j w => exact h.dup i j w
  | close i w => exact h.close i w
  | read i n nonblock signal =>
    simp only [step]
    split_ifs with hno
    · exact h
    · obtain ⟨hend,hcall⟩ := not_or.mp hno
      have hcall : (s.tasks i).call = none := by simpa using hcall
      exact h.runRead (not_writing (by simp [hcall])) hend n nonblock signal
  | write i buf nonblock signal => exact h.write i buf nonblock signal
  | wake i =>
    refine h.setTasks _ (fun j => ?_) fun j w => ?_
    all_goals
      by_cases hj : j = i
      · subst hj
        simp [Task.ends]
      · rw [update_of_ne hj]
  | resume i interrupted signal =>
    simp only [step]
    split_ifs
    · exact h.resume i interrupted signal
    · exact h
  | kill i => exact h.kill i

omit h

theorem create_sound (i : ι) : Sound (create i) := by
  have hcall : ∀ j, ((create i).tasks j).call = none := by
    intro j
    by_cases hj : j = i
    · subst hj
      simp [create]
    · simp [create,hj]
  refine ⟨⟨by simp [create,Pipe.create,pipeCapacity],Nat.zero_le _⟩,rfl,by simp [create],
    by simp [create],by simp [create],
    by simp [create],rfl,fun w => ?_,by simp [create],fun {j c} hc => ?_,fun {j k id} hj _ => ?_⟩
  · have hu := sum_ends_update (fun _ => ⟨0,0,none,false⟩) i ⟨1,1,none,false⟩ w
    have hone : (∑ k, ((create i).tasks k).ends w) = 1 := by
      cases w <;> simpa [Task.ends,create] using hu
    rw [hone]
    cases w <;> rfl
  · exact absurd (hc.symm.trans (hcall j)) (by simp)
  · obtain ⟨_,_,_,hc⟩ := hj
    exact absurd (hc.symm.trans (hcall j)) (by simp)

/-- The law of the stream holds in every state of every run of a pipe. -/
theorem run_streamLaw (i : ι) (ops : List (Op ι)) : Always step StreamLaw (create i) ops :=
  always_of_invariant (I := Sound) (fun _ op h => step_sound h op) (fun _ h => h.streamLaw)
    (create_sound i) ops

/-- A read of no bytes returns 0 although the pipe holds a byte and has a writer. -/
theorem empty_read_returns_zero :
    ((run step (create (0 : Fin 1)) [.write 0 [7] false false, .read 0 0 false false]).reads.map
      fun r => (r.n, r.ret, r.left, r.writers)) = [(0, 0, 1, 1)] := by
  decide +kernel

end GaiaKernel.Pipes
