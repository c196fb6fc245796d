import GaiaKernel.Lib.Trace
import GaiaKernel.Net.Ipv4

/-! # The ARP cache

net/arp.c as its lock sees it: every operation is one section under `arp.lock`, and sections of
different callers follow each other in any order. `arp_learn` is one section and then, without the
lock, `arp_flush_pending`, a loop of sections that each take one parked frame off the slot;
`draining` holds the callers in that loop.

What a section hands to the driver is logged in `sent`, and `learned` is the history of all answers.
A parked frame carries the next hop it was queued for and a serial number besides; so does a caller
in the loop with the address it learned.
-/
namespace GaiaKernel.Arp
open Net

abbrev Mac := BitVec 48
def arpCacheEntries : ℕ := 16
def arpPendingSlots : ℕ := 4
def arpEntryTtlMs : ℕ := 120000
def arpRetryMs : ℕ := 1000
def arpMaxRetries : ℕ := 3
abbrev CacheSlot := Fin arpCacheEntries
abbrev PendingSlot := Fin arpPendingSlots
def cacheSlots : List CacheSlot := List.finRange arpCacheEntries
def pendingSlots : List PendingSlot := List.finRange arpPendingSlots

inductive EntryState where
  | free | pending | valid
  deriving DecidableEq

structure Entry where
  ip : Ipv4Addr
  mac : Mac
  state : EntryState
  retries : ℕ
  deadline : ℕ
  deriving DecidableEq

def Entry.zero : Entry := ⟨⟨0#8,0#8,0#8,0#8⟩,0#48,.free,0,0⟩

structure Parked where
  inUse : Bool
  entry : CacheSlot
  type : U16
  frame : List Byte
  queuedAt : ℕ
  hop : Ipv4Addr
  serial : ℕ
  deriving DecidableEq

def Parked.zero : Parked := ⟨false,⟨0,by decide⟩,0#16,[],0,⟨0#8,0#8,0#8,0#8⟩,0⟩

structure Drain where
  entry : CacheSlot
  mac : Mac
  ip : Ipv4Addr
  deriving DecidableEq

structure Sent where
  hop : Ipv4Addr
  mac : Mac
  type : U16
  frame : List Byte
  serial : ℕ
  deriving DecidableEq

structure State where
  cache : CacheSlot → Entry
  pending : PendingSlot → Parked
  draining : List Drain
  learned : List (Ipv4Addr × Mac)
  sent : List Sent
  nextSerial : ℕ

def start : State := ⟨fun _ => .zero,fun _ => .zero,[],[],[],0⟩

def arpDeadline (now hz ms : ℕ) : ℕ :=
  now + max (ms * (if hz = 0 then 1000 else hz) / 1000) 1

namespace State
variable (s : State)

def setEntry (i : CacheSlot) (e : Entry) : State := { s with cache := Function.update s.cache i e }

def setPending (p : PendingSlot) (f : Parked) : State :=
  { s with pending := Function.update s.pending p f }

def arpFind (ip : Ipv4Addr) : Option CacheSlot :=
  cacheSlots.find? fun i => (s.cache i).state != .free && (s.cache i).ip == ip

def arpDropPending (i : CacheSlot) : State :=
  { s with pending := fun p =>
      if (s.pending p).inUse ∧ (s.pending p).entry = i then { s.pending p with inUse := false }
      else s.pending p }

/-- The loop of `arp_alloc_locked`: a free slot (and `false`), or the entry closest to its
deadline. -/
def victimFrom : List CacheSlot → CacheSlot → CacheSlot × Bool
  | [], victim => (victim, true)
  | i :: is, victim =>
    if (s.cache i).state = .free then (i, false)
    else victimFrom is (if (s.cache i).deadline < (s.cache victim).deadline then i else victim)

def arpAlloc : CacheSlot × State :=
  let r := s.victimFrom cacheSlots ⟨0,by decide⟩
  (r.1, if r.2 then (s.arpDropPending r.1).setEntry r.1 .zero else s)

def pendingFrom : List PendingSlot → PendingSlot → PendingSlot
  | [], victim => victim
  | p :: ps, victim =>
    if !(s.pending p).inUse then p
    else pendingFrom ps (if (s.pending p).queuedAt < (s.pending victim).queuedAt then p else victim)

def arpPendingAlloc : PendingSlot := s.pendingFrom pendingSlots ⟨0,by decide⟩

def transmit (hop : Ipv4Addr) (mac : Mac) (type : U16) (frame : List Byte) (serial : ℕ) : State :=
  { s with sent := s.sent ++ [⟨hop,mac,type,frame,serial⟩] }

def park (i : CacheSlot) (ip : Ipv4Addr) (type : U16) (frame : List Byte) (now : ℕ) : State :=
  { s.setPending s.arpPendingAlloc ⟨true,i,type,frame,now,ip,s.nextSerial⟩ with
    nextSerial := s.nextSerial + 1 }

def arpSendOrQueue (ip : Ipv4Addr) (type : U16) (payload : List Byte) (now hz : ℕ) : State :=
  if ethHdrLen + payload.length > ethFrameMax then s
  else
    match s.arpFind ip with
    | some i =>
      if (s.cache i).state = .valid then
        { s.transmit ip (s.cache i).mac type payload s.nextSerial with
          nextSerial := s.nextSerial + 1 }
      else s.park i ip type payload now
    | none =>
      let i := s.arpAlloc.1
      let s₁ := s.arpAlloc.2
      (s₁.setEntry i { s₁.cache i with
        ip := ip, state := .pending, retries := 0
        deadline := arpDeadline now hz arpRetryMs }).park i ip type payload now

/-- The entry in slot `i` as `arp_learn` fills it in; the caller goes on to the drain loop. -/
def resolve (i : CacheSlot) (ip : Ipv4Addr) (mac : Mac) (now hz : ℕ) : State :=
  { s.setEntry i ⟨ip,mac,.valid,0,arpDeadline now hz arpEntryTtlMs⟩ with
    draining := s.draining ++ [⟨i,mac,ip⟩]
    learned := (ip, mac) :: s.learned }

def arpLearn (ip : Ipv4Addr) (mac : Mac) (mayCreate : Bool) (now hz : ℕ) : State :=
  match s.arpFind ip with
  | some i => s.resolve i ip mac now hz
  | none => if mayCreate then s.arpAlloc.2.resolve s.arpAlloc.1 ip mac now hz else s

def parkedAt (i : CacheSlot) : Option PendingSlot :=
  pendingSlots.find? fun p => (s.pending p).inUse && (s.pending p).entry == i

def arpFlushPending (n : ℕ) : State :=
  match s.draining[n]? with
  | none => s
  | some d =>
    match s.parkedAt d.entry with
    | none => { s with draining := s.draining.eraseIdx n }
    | some p =>
      let f := s.pending p
      (s.setPending p { f with inUse := false }).transmit f.hop d.mac f.type f.frame f.serial

def tickEntry (now hz : ℕ) (i : CacheSlot) : State :=
  let e := s.cache i
  if e.state = .free ∨ now < e.deadline then s
  else if e.state = .valid then s.setEntry i { e with state := .free }
  else if e.retries ≥ arpMaxRetries then (s.arpDropPending i).setEntry i .zero
  else s.setEntry i { e with retries := e.retries + 1, deadline := arpDeadline now hz arpRetryMs }

def arpTick (now hz : ℕ) : State := cacheSlots.foldl (fun s i => s.tickEntry now hz i) s

def arpFlush : State :=
  { s with
    cache := fun _ => .zero
    pending := fun p => { s.pending p with inUse := false } }

end State

inductive Op where
  | send (ip : Ipv4Addr) (type : U16) (payload : List Byte) (now hz : ℕ)
  | learn (ip : Ipv4Addr) (mac : Mac) (mayCreate : Bool) (now hz : ℕ)
  | drain (n : ℕ)
  | tick (now hz : ℕ)
  | flush

def step (s : State) : Op → State
  | .send ip type payload now hz => s.arpSendOrQueue ip type payload now hz
  | .learn ip mac mayCreate now hz => s.arpLearn ip mac mayCreate now hz
  | .drain n => s.arpFlushPending n
  | .tick now hz => s.arpTick now hz
  | .flush => s.arpFlush

end GaiaKernel.Arp
