import GaiaKernel.Lib.LinkedQueue
import GaiaKernel.Lib.Trace
import GaiaKernel.Net.Udp

/-! # Datagram sockets

net/ksocket.c: the list of sockets, the delivery of a datagram to the first socket that matches, and
the packet queue of each socket. Memory is available, so an allocation fails only where `kmalloc`
declines it, for zero bytes. `arrived` and `received` are histories: the packets linked into each
queue and those taken out.
-/
namespace GaiaKernel.Sockets
open Net LinkedQueue Function List

inductive SocketState where
  | unbound | opened | listening | connecting | established | closed
  deriving DecidableEq

inductive SocketType where
  | stream | dgram | raw
  deriving DecidableEq

structure Packet where
  srcIp : Ipv4Addr
  srcPort : U16
  length : U16
  payload : List Byte
  sized : payload.length = length.toNat
  deriving DecidableEq

structure Socket where
  state : SocketState
  type : SocketType
  protocol : Byte
  localIp : Ipv4Addr
  localPort : U16
  remoteIp : Ipv4Addr
  remotePort : U16
  rxQueue : Queue ℕ
  count : ℕ

def wildcard : Ipv4Addr := ⟨0#8,0#8,0#8,0#8⟩

def Socket.fresh (type : SocketType) (protocol : Byte) : Socket :=
  ⟨.unbound,type,protocol,wildcard,0#16,wildcard,0#16,⟨none,none⟩,0⟩

/-- The test of the search in `socket_handle_incoming`. -/
def Socket.accepts (sock : Socket) (protocol : Byte) (destIp : Ipv4Addr) (destPort : U16) : Bool :=
  sock.protocol == protocol && sock.localPort == destPort &&
    (sock.localIp == destIp || sock.localIp == wildcard)

structure Table where
  socketList : List ℕ
  socket : ℕ → Socket
  nextSocketId : ℕ
  node : ℕ → Packet
  next : ℕ → Option ℕ
  nextNode : ℕ
  arrived : ℕ → List Packet
  received : ℕ → List Packet

inductive RecvResult where
  | returned (bytes : List Byte) (srcIp : Ipv4Addr) (srcPort : U16)
  | again
  | parked
  deriving DecidableEq

namespace Table
variable (s : Table)

def setSocket (i : ℕ) (sock : Socket) : Table :=
  { s with socket := update s.socket i sock }

def reset (i : ℕ) (sock : Socket) : Table :=
  { s.setSocket i sock with
    arrived := update s.arrived i []
    received := update s.received i [] }

def socketCreate (type : SocketType) (protocol : Byte) : Table :=
  { s.reset s.nextSocketId (.fresh type protocol) with
    socketList := s.nextSocketId :: s.socketList
    nextSocketId := s.nextSocketId + 1 }

def socketBind (i : ℕ) (ip : Ipv4Addr) (port : U16) : Table :=
  s.setSocket i { s.socket i with localIp := ip, localPort := port, state := .opened }

def socketClose (i : ℕ) : Table :=
  { s.reset i (.fresh .dgram 0#8) with socketList := s.socketList.erase i }

def kmallocs (size : ℕ) : Bool := size != 0

def enqueue (i : ℕ) (p : Packet) : Table :=
  let r := push s.next (s.socket i).rxQueue s.nextNode
  { s.setSocket i { s.socket i with
      rxQueue := r.2, count := (s.socket i).count + 1
      remoteIp := p.srcIp, remotePort := p.srcPort, state := .established } with
    node := update s.node s.nextNode p
    next := r.1
    nextNode := s.nextNode + 1
    arrived := update s.arrived i (s.arrived i ++ [p]) }

def socketHandleIncoming (p : Packet) (destIp : Ipv4Addr) (destPort : U16) (protocol : Byte) :
    Table :=
  match s.socketList.find? fun i => (s.socket i).accepts protocol destIp destPort with
  | none => s
  | some i => if kmallocs p.length.toNat then s.enqueue i p else s

def socketRecvfrom (i len : ℕ) (nonblock : Bool) : RecvResult × Table :=
  match pop s.next (s.socket i).rxQueue with
  | none => (if nonblock then .again else .parked, s)
  | some (n, next, q) =>
    let p := s.node n
    let toCopy := if len < p.length.toNat then len else p.length.toNat
    (.returned (p.payload.take toCopy) p.srcIp p.srcPort,
      { s.setSocket i { s.socket i with rxQueue := q, count := (s.socket i).count - 1 } with
        next := next
        received := update s.received i (s.received i ++ [p]) })

def queued (i : ℕ) : List Packet :=
  (nodesFrom s.next (s.socket i).count (s.socket i).rxQueue.head).map s.node

end Table

def noPacket : Packet := ⟨wildcard,0#16,0#16,[],rfl⟩

def start : Table :=
  ⟨[],fun _ => .fresh .dgram 0#8,1,fun _ => noPacket,fun _ => none,0,fun _ => [],fun _ => []⟩

inductive Op where
  | create (type : SocketType) (protocol : Byte)
  | bind (i : ℕ) (ip : Ipv4Addr) (port : U16)
  | close (i : ℕ)
  | incoming (p : Packet) (destIp : Ipv4Addr) (destPort : U16) (protocol : Byte)
  | recvfrom (i len : ℕ) (nonblock : Bool)

def step (s : Table) : Op → Table
  | .create type protocol => s.socketCreate type protocol
  | .bind i ip port => s.socketBind i ip port
  | .close i => s.socketClose i
  | .incoming p destIp destPort protocol => s.socketHandleIncoming p destIp destPort protocol
  | .recvfrom i len nonblock => (s.socketRecvfrom i len nonblock).2

/-! ### The queues are lists -/

/-- The links of every socket's queue visit the nodes of `l i`, and no node is in two queues. -/
structure Chained (s : Table) (l : ℕ → List ℕ) : Prop where
  holds : ∀ i, Holds s.next (s.socket i).rxQueue (l i)
  count : ∀ i, (s.socket i).count = (l i).length
  allocated : ∀ i, ∀ n ∈ l i, n < s.nextNode
  disjoint : ∀ i j, i ≠ j → ∀ n ∈ l i, n ∉ l j
  history : ∀ i ∈ s.socketList, s.arrived i = s.received i ++ (l i).map s.node

namespace Chained
variable {s : Table} {l : ℕ → List ℕ} {i : ℕ}
variable (h : Chained s l)
include h

theorem queued (i : ℕ) : s.queued i = (l i).map s.node := by
  rw [Table.queued,h.count,(h.holds i).chain.nodesFrom le_rfl]

theorem lines : Lines s.next (Socket.rxQueue ∘ s.socket) l :=
  ⟨h.holds,fun ha hb => by_contra fun hne => h.disjoint _ _ hne _ ha hb⟩

theorem change {s' : Table} {sock : Socket} {nodes : List ℕ}
    (hs : s'.socket = update s.socket i sock)
    (hl : Lines s'.next (update (Socket.rxQueue ∘ s.socket) i sock.rxQueue) (update l i nodes))
    (hcount : sock.count = nodes.length) (hnodes : ∀ n ∈ nodes, n < s'.nextNode)
    (hnext : s.nextNode ≤ s'.nextNode)
    (hself : i ∈ s'.socketList → s'.arrived i = s'.received i ++ nodes.map s'.node)
    (hhist : ∀ j ∈ s'.socketList, j ≠ i → s'.arrived j = s'.received j ++ (l j).map s'.node) :
    Chained s' (update l i nodes) := by
  have hall : ∀ j, (s'.socket j).count = (update l i nodes j).length ∧
      (∀ n ∈ update l i nodes j, n < s'.nextNode) ∧
      (j ∈ s'.socketList → s'.arrived j = s'.received j ++ (update l i nodes j).map s'.node) := by
    intro j
    by_cases hji : j = i
    · subst hji
      rw [hs,update_self,update_self]
      exact ⟨hcount,hnodes,hself⟩
    · rw [hs,update_of_ne hji,update_of_ne hji]
      exact ⟨h.count j,fun n hn => (h.allocated j n hn).trans_le hnext,fun hj => hhist j hj hji⟩
  rw [← comp_update,← hs] at hl
  exact ⟨hl.holds,fun j => (hall j).1,fun j => (hall j).2.1,
    fun j k hjk n hn hn' => hjk (hl.apart hn hn'),fun j => (hall j).2.2⟩

theorem linesReset (i : ℕ) (type : SocketType) (protocol : Byte) :
    Lines s.next (update (Socket.rxQueue ∘ s.socket) i (Socket.fresh type protocol).rxQueue)
      (update l i []) := h.lines.replace ⟨rfl,nodup_nil,rfl⟩ (by simp) fun _ _ => rfl

theorem socketBind (i : ℕ) (ip : Ipv4Addr) (port : U16) : Chained (s.socketBind i ip port) l := by
  have hsame : ∀ j, ((s.socketBind i ip port).socket j).rxQueue = (s.socket j).rxQueue ∧
      ((s.socketBind i ip port).socket j).count = (s.socket j).count := by
    intro j
    by_cases hji : j = i
    · subst hji
      simp [Table.socketBind,Table.setSocket]
    · simp [Table.socketBind,Table.setSocket,hji]
  refine ⟨fun j => ?_,fun j => ?_,h.allocated,h.disjoint,h.history⟩
  · rw [(hsame j).1]
    exact h.holds j
  · rw [(hsame j).2]
    exact h.count j

theorem map_node (p : Packet) (j : ℕ) :
    (l j).map (update s.node s.nextNode p) = (l j).map s.node := by
  refine map_congr_left fun n hn => update_of_ne ?_ _ _
  rintro rfl
  exact lt_irrefl _ (h.allocated j _ hn)

theorem enqueue (i : ℕ) (p : Packet) :
    Chained (s.enqueue i p) (update l i (l i ++ [s.nextNode])) := by
  have hfresh : ∀ j, s.nextNode ∉ l j := fun j hm => lt_irrefl _ (h.allocated j _ hm)
  refine h.change rfl (h.lines.push hfresh i) (by simp [h.count i]) (fun n hn => ?_)
    (Nat.le_succ _) (fun hj => ?_) fun j hj hji => ?_
  · rcases mem_append.mp hn with hn | hn
    · exact Nat.lt_succ_of_lt (h.allocated i n hn)
    · rw [mem_singleton.mp hn]
      exact Nat.lt_succ_self _
  · simp [Table.enqueue,Table.setSocket,h.history i hj,h.map_node,append_assoc]
  · simpa [Table.enqueue,Table.setSocket,hji,h.map_node] using h.history j hj

theorem dequeue {n : ℕ} {rest : List ℕ} (hi : l i = n :: rest) :
    ∃ q, pop s.next (s.socket i).rxQueue = some (n, update s.next n none, q) ∧ Chained
        { s.setSocket i { s.socket i with rxQueue := q, count := (s.socket i).count - 1 } with
          next := update s.next n none
          received := update s.received i (s.received i ++ [s.node n]) }
        (update l i rest) := by
  obtain ⟨q,hpop,hlines⟩ := h.lines.pop_cons hi
  refine ⟨q,hpop,h.change rfl hlines (by simp [h.count i,hi]) (fun m hm => ?_) le_rfl (fun hj => ?_)
    fun j hj hji => ?_⟩
  · exact h.allocated i m (hi ▸ mem_cons_of_mem n hm)
  · simpa [Table.setSocket,hi,append_assoc] using h.history i hj
  · simpa [Table.setSocket,hji] using h.history j hj

theorem socketCreate (type : SocketType) (protocol : Byte) :
    Chained (s.socketCreate type protocol) (update l s.nextSocketId []) := by
  refine h.change rfl (h.linesReset _ type protocol) rfl (by simp) le_rfl
    (by simp [Table.socketCreate,Table.reset]) fun j hj hji => ?_
  simpa [Table.socketCreate,Table.reset,Table.setSocket,hji] using
    h.history j ((mem_cons.mp hj).resolve_left hji)

theorem socketClose (i : ℕ) : Chained (s.socketClose i) (update l i []) := by
  refine h.change rfl (h.linesReset i .dgram 0#8) rfl (by simp) le_rfl
    (by simp [Table.socketClose,Table.reset]) fun j hj hji => ?_
  simpa [Table.socketClose,Table.reset,Table.setSocket,hji] using h.history j (mem_of_mem_erase hj)

theorem socketRecvfrom_nil (hi : l i = []) (len : ℕ) (nonblock : Bool) :
    s.socketRecvfrom i len nonblock = (if nonblock then .again else .parked, s) := by
  have hhead := (h.holds i).head_eq
  rw [hi] at hhead
  rw [Table.socketRecvfrom,pop,show (s.socket i).rxQueue.head = none from hhead]
  rfl

theorem socketRecvfrom_cons {n : ℕ} {rest : List ℕ} (hi : l i = n :: rest)
    (len : ℕ) (nonblock : Bool) :
    (s.socketRecvfrom i len nonblock).1 = .returned ((s.node n).payload.take len) (s.node n).srcIp
        (s.node n).srcPort ∧ (s.socketRecvfrom i len nonblock).2.node = s.node ∧
      Chained (s.socketRecvfrom i len nonblock).2 (update l i rest) := by
  obtain ⟨q,hpop,hc⟩ := h.dequeue hi
  have htake : (s.node n).payload.take
      (if len < (s.node n).length.toNat then len else (s.node n).length.toNat) =
      (s.node n).payload.take len := by
    rw [← (s.node n).sized]
    split
    · rfl
    · rw [take_length,take_of_length_le (by omega)]
  rw [Table.socketRecvfrom,hpop]
  exact ⟨by rw [← htake],rfl,hc⟩

end Chained

theorem chained_start : Chained start fun _ => [] :=
  ⟨fun _ => ⟨rfl,nodup_nil,rfl⟩,fun _ => rfl,by simp,by simp,by simp [start]⟩

theorem exists_chained_step {s : Table} {l : ℕ → List ℕ} (h : Chained s l) (op : Op) :
    ∃ l', Chained (step s op) l' := by
  cases op with
  | create type protocol => exact ⟨_,h.socketCreate type protocol⟩
  | bind i ip port => exact ⟨l,h.socketBind i ip port⟩
  | close i => exact ⟨_,h.socketClose i⟩
  | incoming p destIp destPort protocol =>
    simp only [step,Table.socketHandleIncoming]
    split
    · exact ⟨l,h⟩
    · split
      · exact ⟨_,h.enqueue _ p⟩
      · exact ⟨l,h⟩
  | recvfrom i len nonblock =>
    cases hi : l i with
    | nil =>
      refine ⟨l,?_⟩
      rw [step,h.socketRecvfrom_nil hi]
      exact h
    | cons n rest => exact ⟨_,(h.socketRecvfrom_cons hi len nonblock).2.2⟩

/-! ### The law -/

/-- What has been linked into a queue is what has been taken out of it, followed by what it
holds, all in one order. -/
def InOrder (s : Table) : Prop := ∀ i ∈ s.socketList, s.arrived i = s.received i ++ s.queued i

def ForBound (s : Table) (destIp : Ipv4Addr) (destPort : U16) (protocol : Byte) : Prop :=
  ∃ i ∈ s.socketList, (s.socket i).state ≠ .unbound ∧
    (s.socket i).accepts protocol destIp destPort

def OnlyQueue (s s' : Table) (i : ℕ) (packets : List Packet) : Prop :=
  s'.queued i = packets ∧ ∀ j, j ≠ i → s'.queued j = s.queued j

/-- What a call may do to the queues: a datagram for a bound socket goes to the end of one queue; a
receiver takes the first packet, with its source and as much of it as the buffer holds; no other
queued packet is touched. -/
def Lawful (s : Table) : Op → Prop
  | .incoming p destIp destPort protocol =>
    ForBound s destIp destPort protocol →
      ∃ i ∈ s.socketList, (s.socket i).accepts protocol destIp destPort ∧
        OnlyQueue s (s.socketHandleIncoming p destIp destPort protocol) i (s.queued i ++ [p])
  | .recvfrom i len nonblock =>
    match s.queued i with
    | [] => (s.socketRecvfrom i len nonblock).1 = (if nonblock then .again else .parked) ∧
        OnlyQueue s (s.socketRecvfrom i len nonblock).2 i []
    | p :: rest =>
      (s.socketRecvfrom i len nonblock).1 = .returned (p.payload.take len) p.srcIp p.srcPort ∧
        OnlyQueue s (s.socketRecvfrom i len nonblock).2 i rest
  | .bind i ip port => OnlyQueue s (s.socketBind i ip port) i (s.queued i)
  | .create type protocol => OnlyQueue s (s.socketCreate type protocol) s.nextSocketId []
  | .close i => OnlyQueue s (s.socketClose i) i []

def HasPayload (s : Table) : Op → Prop
  | .incoming p destIp destPort protocol =>
    ForBound s destIp destPort protocol → p.payload ≠ []
  | _ => True

section
variable {s s' : Table} {l l' : ℕ → List ℕ} {i : ℕ}

theorem Chained.onlyQueue (h : Chained s l) {nodes : List ℕ} (h' : Chained s' (update l i nodes))
    (hnode : ∀ j, j ≠ i → (l j).map s'.node = (l j).map s.node) :
    OnlyQueue s s' i (nodes.map s'.node) := by
  refine ⟨by rw [h'.queued,update_self],fun j hj => ?_⟩
  rw [h'.queued,h.queued,update_of_ne hj,hnode j hj]

theorem Chained.onlyQueue_enqueue (h : Chained s l) (i : ℕ) (p : Packet) :
    OnlyQueue s (s.enqueue i p) i (s.queued i ++ [p]) := by
  have hkeep : ∀ j, (l j).map (s.enqueue i p).node = (l j).map s.node := h.map_node p
  have honly := h.onlyQueue (h.enqueue i p) fun j _ => hkeep j
  rwa [map_append,hkeep,← h.queued,map_singleton,
    show (s.enqueue i p).node s.nextNode = p from update_self _ _ _] at honly

theorem Chained.lawful_iff (h : Chained s l) (op : Op) : Lawful s op ↔ HasPayload s op := by
  cases op with
  | create type protocol =>
    exact iff_of_true (h.onlyQueue (h.socketCreate type protocol) fun _ _ => rfl) trivial
  | bind i ip port =>
    refine iff_of_true ?_ trivial
    have hb := h.socketBind i ip port
    refine ⟨?_,fun j _ => ?_⟩
    · rw [hb.queued,h.queued]
      rfl
    · rw [hb.queued,h.queued]
      rfl
  | close i => exact iff_of_true (h.onlyQueue (h.socketClose i) fun _ _ => rfl) trivial
  | recvfrom i len nonblock =>
    refine iff_of_true ?_ trivial
    simp only [Lawful,h.queued]
    cases hi : l i with
    | nil =>
      rw [h.socketRecvfrom_nil hi]
      exact ⟨rfl,by rw [h.queued,hi]; rfl,fun _ _ => rfl⟩
    | cons n rest =>
      obtain ⟨hres,hnode,hc⟩ := h.socketRecvfrom_cons hi len nonblock
      refine ⟨hres,?_⟩
      have honly := h.onlyQueue hc fun j _ => by rw [hnode]
      rwa [hnode] at honly
  | incoming p destIp destPort protocol =>
    refine forall_congr' fun hbound => ?_
    obtain ⟨i,hfind⟩ : ∃ i, (s.socketList.find? fun i =>
        (s.socket i).accepts protocol destIp destPort) = some i := by
      obtain ⟨j,hj,_,hacc⟩ := hbound
      exact Option.isSome_iff_exists.mp (find?_isSome.mpr ⟨j,hj,hacc⟩)
    have hmalloc : Table.kmallocs p.length.toNat = true ↔ p.payload ≠ [] := by
      rw [← p.sized,Table.kmallocs,bne_iff_ne,ne_eq,length_eq_zero_iff]
    simp only [Table.socketHandleIncoming,hfind]
    constructor
    · rintro ⟨j,_,_,honly,_⟩ hp
      rw [if_neg fun hm => hmalloc.mp hm hp] at honly
      simpa using congrArg length honly
    · intro hp
      rw [if_pos (hmalloc.mpr hp)]
      exact ⟨i,mem_of_find?_eq_some hfind,by simpa using find?_some hfind,h.onlyQueue_enqueue i p⟩

end

/-- In every run the packets of a socket are received in the order in which they arrived; and
after every run, a call treats the queues as it should exactly if it is not the arrival of a
datagram without payload for a bound socket. -/
theorem datagrams_delivered_iff (ops : List Op) (op : Op) :
    Trace.Always step InOrder start ops ∧
      (Lawful (Trace.run step start ops) op ↔ HasPayload (Trace.run step start ops) op) := by
  have hstep : ∀ s op, (∃ l, Chained s l) → ∃ l, Chained (step s op) l :=
    fun s op ⟨_,h⟩ => exists_chained_step h op
  have hstart : ∃ l, Chained start l := ⟨_,chained_start⟩
  refine ⟨Trace.always_of_invariant hstep ?_ hstart ops,?_⟩
  · rintro s ⟨l,h⟩ i hi
    rw [h.queued,h.history i hi]
  · obtain ⟨l,h⟩ := Trace.invariant_run hstep hstart ops
    exact h.lawful_iff op

/-- A datagram without payload for a socket bound to its port is not queued anywhere. -/
theorem empty_datagram_lost :
    let s := Trace.run step start [.create .dgram ipprotoUdp, .bind 1 wildcard (toBe16 5000#16)]
    ForBound s ⟨10#8,0#8,0#8,1#8⟩ (toBe16 5000#16) ipprotoUdp ∧
      ∀ i ∈ s.socketList, (step s (.incoming
        ⟨⟨10#8,0#8,0#8,2#8⟩,toBe16 4000#16,0#16,[],rfl⟩
        ⟨10#8,0#8,0#8,1#8⟩ (toBe16 5000#16) ipprotoUdp)).queued i = [] :=
  ⟨⟨1,by decide,by decide,by decide⟩,by decide⟩

/-! ## Ephemeral ports

A cursor goes round the ephemeral range, and the list of sockets is searched for each candidate.
-/

def Ephemeral (port : U16) : Prop := 32768 ≤ port.toNat ∧ port.toNat ≤ 60999

/-- The static `next_port`: it starts at 32768 and the step below keeps it in the range. -/
structure Cursor where
  port : U16
  ephemeral : Ephemeral port

def Cursor.next (c : Cursor) : Cursor :=
  if h : c.port.toNat ≥ 60999 then ⟨32768#16,by decide,by decide⟩
  else ⟨c.port + 1#16,by
    have := c.ephemeral.1
    constructor <;> rw [BitVec.toNat_add] <;> simp <;> omega⟩

namespace Table
variable (s : Table)

def Bound (port : U16) : Prop := ∃ i ∈ s.socketList, fromBe16 (s.socket i).localPort = port

def taken (candidate : U16) : Bool :=
  s.socketList.any fun i => fromBe16 (s.socket i).localPort == candidate

def ephemeralLoop : ℕ → Cursor → U16 × Cursor
  | 0, c => (0#16, c)
  | attempts + 1, c =>
    if s.taken c.port then ephemeralLoop attempts c.next else (toBe16 c.port, c.next)

def socketAllocEphemeralPort (c : Cursor) : U16 × Cursor := s.ephemeralLoop 28232 c

theorem taken_iff (port : U16) : s.taken port = true ↔ s.Bound port := by
  simp [taken,Bound]

end Table

/-- The candidates lie one behind the other on a circle of 28232 ports. -/
theorem Cursor.toNat_next (c : Cursor) :
    c.next.port.toNat = 32768 + (c.port.toNat - 32768 + 1) % 28232 := by
  obtain ⟨hlow,hhigh⟩ := c.ephemeral
  unfold next
  split
  · simp
    omega
  · simp [BitVec.toNat_add]
    omega

theorem Table.ephemeralLoop_spec (s : Table) (n : ℕ) (c : Cursor) :
    (∃ p, Ephemeral p ∧ ¬ s.Bound p ∧ (s.ephemeralLoop n c).1 = toBe16 p) ∨
      (s.ephemeralLoop n c).1 = 0#16 ∧ ∀ k < n, ∀ p : U16,
        p.toNat = 32768 + (c.port.toNat - 32768 + k) % 28232 → s.Bound p := by
  induction n generalizing c with
  | zero => exact .inr ⟨rfl,fun k hk => absurd hk (by omega)⟩
  | succ n ih =>
    unfold ephemeralLoop
    split
    case isFalse hfree => exact .inl ⟨c.port,c.ephemeral,mt (s.taken_iff _).mpr hfree,rfl⟩
    case isTrue htaken =>
      refine (ih c.next).imp id fun ⟨hzero,hall⟩ => ⟨hzero,fun k hk p hp => ?_⟩
      obtain ⟨hlow,hhigh⟩ := c.ephemeral
      cases k with
      | zero =>
        have hpc : p = c.port := BitVec.eq_of_toNat_eq (by omega)
        rw [hpc]
        exact (s.taken_iff _).mp htaken
      | succ k =>
        refine hall k (by omega) p ?_
        rw [hp,c.toNat_next]
        omega

/-- The call gives out a free port of the range, in network order, as long as there is one, and
0 when all are bound. -/
theorem ephemeral_port_free (s : Table) (c : Cursor) :
    ((∃ p, Ephemeral p ∧ ¬ s.Bound p) → ∃ p, Ephemeral p ∧ ¬ s.Bound p ∧
      (s.socketAllocEphemeralPort c).1 = toBe16 p) ∧
    ((∀ p, Ephemeral p → s.Bound p) → (s.socketAllocEphemeralPort c).1 = 0#16) := by
  have hspec := s.ephemeralLoop_spec 28232 c
  obtain ⟨hlow,hhigh⟩ := c.ephemeral
  constructor
  · rintro ⟨p,⟨hp,hp'⟩,hfree⟩
    -- Within one round the cursor comes to every port of the range.
    refine hspec.resolve_right fun hall => hfree ?_
    exact hall.2 ((p.toNat + 28232 - c.port.toNat) % 28232) (Nat.mod_lt _ (by decide)) p (by omega)
  · intro hall
    refine (hspec.resolve_left ?_).1
    rintro ⟨p,hp,hfree,_⟩
    exact hfree (hall p hp)

end GaiaKernel.Sockets
