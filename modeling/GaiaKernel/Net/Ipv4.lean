import GaiaKernel.Net.Inet

/-! # IPv4 output and input

net/ipv4.c. Output fills in the header of a frame whose payload is in place and picks the next hop;
what ARP and the driver do with it is not part of it. Input checks a packet and hands its payload to
the handler of its protocol.
-/
namespace GaiaKernel.Net
open OnesComplement Bytes List

def ethHdrLen : ℕ := 14
def ethFrameMax : ℕ := 1514
def ipv4HdrLen : ℕ := 20
def ipv4Headroom : ℕ := ethHdrLen + ipv4HdrLen
def ipv4PayloadMax : ℕ := ethFrameMax - ipv4Headroom
def ipv4DefaultTtl : Byte := 64#8

def ipv4NextHop (nif : Netif) (dst : Ipv4Addr) : Option Ipv4Addr :=
  if ipv4SameSubnet dst nif.ipv4 nif.netmask then some dst
  else if nif.gateway.isZero then none
  else some nif.gateway

def ipv4DstIsBroadcast (nif : Netif) (dst : Ipv4Addr) : Bool :=
  dst == Ipv4Addr.allOnes || ipv4IsBroadcast dst nif.ipv4 nif.netmask

/-! ### Output -/

def ipv4Header (totalLen id : U16) (protocol : Byte) (src dst : Ipv4Addr) (checksum : U16) :
    List Byte :=
  [0x45#8, 0#8] ++ store16 (toBe16 totalLen) ++ store16 (toBe16 id) ++ store16 0#16 ++
    [ipv4DefaultTtl, protocol] ++ store16 checksum ++ src.bytes ++ dst.bytes

def sealedHeader (totalLen id : U16) (protocol : Byte) (src dst : Ipv4Addr) : List Byte :=
  ipv4Header totalLen id protocol src dst
    (inetChecksum (ipv4Header totalLen id protocol src dst 0#16))

inductive Route where
  | broadcast
  | hop (ip : Ipv4Addr)
  deriving DecidableEq

/-- What goes down to the link layer: the bytes behind the Ethernet header, and for whom. -/
structure Outgoing where
  packet : List Byte
  route : Route

def ipv4OutputFramed (nif : Option Netif) (nextId : U16) (frame : ℕ → Byte) (dst : Ipv4Addr)
    (protocol : Byte) (payloadLen : U16) : Option Outgoing × U16 :=
  match nif with
  | none => (none, nextId)
  | some nif =>
    if payloadLen.toNat > ipv4PayloadMax then (none, nextId)
    else
      let totalLen : U16 := BitVec.ofNat 16 (ipv4HdrLen + payloadLen.toNat)
      let frame' := blit frame ethHdrLen (sealedHeader totalLen nextId protocol nif.ipv4 dst)
      let packet := slice frame' ethHdrLen totalLen.toNat
      if ipv4DstIsBroadcast nif dst then (some ⟨packet,.broadcast⟩, nextId + 1#16)
      else ((ipv4NextHop nif dst).map fun hop => ⟨packet,.hop hop⟩, nextId + 1#16)

/-! ### Input -/

inductive Handler where
  | icmp | udp | tcp
  deriving DecidableEq

def Handler.ofProtocol (protocol : Byte) : Option Handler :=
  if protocol = 1#8 then some .icmp
  else if protocol = 17#8 then some .udp
  else if protocol = 6#8 then some .tcp
  else none

/-- The call of a protocol handler: the addresses in the header it is passed, and the part of
the packet it is passed as payload. -/
structure Dispatch where
  handler : Handler
  src : Ipv4Addr
  dst : Ipv4Addr
  off : ℕ
  len : ℕ
  deriving DecidableEq

def Dispatch.payload (d : Dispatch) (packet : List Byte) : List Byte :=
  (packet.drop d.off).take d.len

def ipv4Input (nif : Option Netif) (packet : List Byte) : Except Fault (Option Dispatch) := do
  let some nif := nif | return none
  if packet.length < ipv4HdrLen then return none
  let versionIhl ← readByte packet 0
  if versionIhl >>> 4 ≠ 4#8 then return none
  let ihl := (versionIhl &&& 0x0F#8).toNat * 4
  let totalLen := (fromBe16 (← read16 packet 2)).toNat
  if ihl < ipv4HdrLen ∨ totalLen < ihl ∨ totalLen > packet.length then return none
  let header ← readBytes packet 0 ihl
  if inetChecksum header ≠ 0#16 then return none
  let fragment := fromBe16 (← read16 packet 6)
  if fragment &&& 0x3FFF#16 ≠ 0#16 then return none
  let dst ← readAddr packet 16
  if dst ≠ nif.ipv4 ∧ ¬ ipv4DstIsBroadcast nif dst then return none
  let protocol ← readByte packet 9
  match Handler.ofProtocol protocol with
  | none => return none
  | some handler =>
    let src ← readAddr packet 12
    return some ⟨handler,src,dst,ihl,totalLen - ihl⟩

/-! ### The header sums to all ones -/

section
variable (totalLen id : U16) (protocol : Byte) (src dst : Ipv4Addr)

theorem inetChecksum_sealedHeader :
    inetChecksum (sealedHeader totalLen id protocol src dst) = 0#16 := by
  have hsum := @inetChecksum_sealed ([0x45#8, 0#8] ++ store16 (toBe16 totalLen) ++
    store16 (toBe16 id) ++ store16 0#16 ++ [ipv4DefaultTtl, protocol])
    (src.bytes ++ dst.bytes) (by simp) (by simp)
  simpa only [sealedHeader,ipv4Header,append_assoc] using hsum

end

/-! ### Round trip -/

def Netif.Addressed (host : Netif) (dst : Ipv4Addr) : Prop :=
  dst = host.ipv4 ∨ ipv4DstIsBroadcast host dst

theorem ipv4Input_sealedHeader {host : Netif} {totalLen id : U16} {protocol : Byte}
    {src dst : Ipv4Addr} {rest : List Byte} (hdst : host.Addressed dst)
    (hmin : ipv4HdrLen ≤ totalLen.toNat) (hlen : totalLen.toNat ≤ ipv4HdrLen + rest.length) :
    ipv4Input (some host) (sealedHeader totalLen id protocol src dst ++ rest) =
      .ok ((Handler.ofProtocol protocol).map fun handler =>
        ⟨handler,src,dst,ipv4HdrLen,totalLen.toNat - ipv4HdrLen⟩) := by
  have hlength : (sealedHeader totalLen id protocol src dst ++ rest).length =
      ipv4HdrLen + rest.length := by
    rw [length_append]
    rfl
  have hversion : readByte (sealedHeader totalLen id protocol src dst ++ rest) 0 = .ok 0x45#8 := rfl
  have htotal : read16 (sealedHeader totalLen id protocol src dst ++ rest) 2 =
      .ok (toBe16 totalLen) := congrArg Except.ok (load16_store16 (toBe16 totalLen))
  have hheader : readBytes (sealedHeader totalLen id protocol src dst ++ rest) 0 20 =
      .ok (sealedHeader totalLen id protocol src dst) := by
    rw [readBytes_ok (by rw [hlength]; simp [ipv4HdrLen])]
    rfl
  have hfragment : read16 (sealedHeader totalLen id protocol src dst ++ rest) 6 = .ok 0#16 := rfl
  have hto : readAddr (sealedHeader totalLen id protocol src dst ++ rest) 16 = .ok dst := rfl
  have hprotocol : readByte (sealedHeader totalLen id protocol src dst ++ rest) 9 =
      .ok protocol := rfl
  have hfrom : readAddr (sealedHeader totalLen id protocol src dst ++ rest) 12 = .ok src := rfl
  have hmine : ¬ (dst ≠ host.ipv4 ∧ ¬ ipv4DstIsBroadcast host dst) := by
    rintro ⟨hne,hbc⟩
    rcases hdst with h | h
    · exact hne h
    · exact hbc h
  have hihl : (0x45#8 &&& 0x0F#8).toNat * 4 = 20 := by decide
  have hfits : ¬ (20 < ipv4HdrLen ∨ (fromBe16 (toBe16 totalLen)).toNat < 20 ∨
      (fromBe16 (toBe16 totalLen)).toNat > ipv4HdrLen + rest.length) := by
    rw [fromBe16_toBe16]
    simp only [ipv4HdrLen] at *
    omega
  have hsum := inetChecksum_sealedHeader totalLen id protocol src dst
  generalize sealedHeader totalLen id protocol src dst ++ rest = packet at *
  unfold ipv4Input
  simp only [hlength,hversion,htotal,hfragment,hto,hprotocol,hfrom,bind,Except.bind,pure,
    Except.pure,hihl]
  rw [if_neg (by omega),if_neg (by decide),if_neg hfits,hheader]
  dsimp only
  rw [hsum,if_neg (by decide),if_neg (by decide),if_neg hmine]
  cases Handler.ofProtocol protocol with
  | none => rfl
  | some handler =>
    rw [fromBe16_toBe16]
    rfl

theorem packet_of_ipv4OutputFramed {nif : Option Netif} {nextId : U16} {frame : ℕ → Byte}
    {dst : Ipv4Addr} {protocol : Byte} {payloadLen : U16} {out : Outgoing}
    (h : (ipv4OutputFramed nif nextId frame dst protocol payloadLen).1 = some out) :
    ∃ src totalLen, totalLen.toNat = ipv4HdrLen + payloadLen.toNat ∧ src ∈ nif.map Netif.ipv4 ∧
      out.packet = sealedHeader totalLen nextId protocol src dst ++
        slice frame ipv4Headroom payloadLen.toNat := by
  unfold ipv4OutputFramed at h
  cases nif with
  | none => cases h
  | some nif =>
    dsimp only at h
    split at h
    · cases h
    case isFalse hmax =>
      set totalLen : U16 := BitVec.ofNat 16 (ipv4HdrLen + payloadLen.toNat) with htotal
      have hlen : totalLen.toNat = ipv4HdrLen + payloadLen.toNat := by
        rw [htotal,BitVec.toNat_ofNat,Nat.mod_eq_of_lt]
        simp only [ipv4PayloadMax,ethFrameMax,ipv4Headroom,ethHdrLen,ipv4HdrLen] at hmax ⊢
        omega
      refine ⟨nif.ipv4,totalLen,hlen,rfl,?_⟩
      have hpacket : out.packet = slice (blit frame ethHdrLen
          (sealedHeader totalLen nextId protocol nif.ipv4 dst)) ethHdrLen totalLen.toNat := by
        split at h
        · cases h
          rfl
        · obtain ⟨hop,_,rfl⟩ := Option.map_eq_some_iff.mp h
          rfl
      rw [hpacket,hlen]
      exact slice_blit_add frame ethHdrLen (sealedHeader totalLen nextId protocol nif.ipv4 dst) _

def ipv4TotalLength (packet : List Byte) : Except Fault ℕ := do
  let field ← read16 packet 2
  return (fromBe16 field).toNat

/-- Input never reads outside the packet it was given, and the payload it hands on ends within
the total length of the header, which ends within the packet. -/
theorem ipv4Input_confined (nif : Option Netif) (packet : List Byte) :
    ∃ r, ipv4Input nif packet = .ok r ∧ ∀ d ∈ r, ∃ total,
      ipv4TotalLength packet = .ok total ∧ d.off + d.len ≤ total ∧ total ≤ packet.length := by
  cases nif with
  | none => exact ⟨none,rfl,by simp⟩
  | some nif =>
    by_cases hlen : packet.length < ipv4HdrLen
    · simp [ipv4Input,hlen,pure,Except.pure]
    · have hlen' : 20 ≤ packet.length := by simpa [ipv4HdrLen] using hlen
      obtain ⟨version,hversion⟩ := exists_readByte (show 0 < packet.length by omega)
      obtain ⟨total,htotal⟩ := exists_read16 (show 2 + 1 < packet.length by omega)
      obtain ⟨fragment,hfragment⟩ := exists_read16 (show 6 + 1 < packet.length by omega)
      obtain ⟨dst,hdst⟩ := exists_readAddr (show 16 + 3 < packet.length by omega)
      obtain ⟨protocol,hprotocol⟩ := exists_readByte (show 9 < packet.length by omega)
      obtain ⟨src,hsrc⟩ := exists_readAddr (show 12 + 3 < packet.length by omega)
      have hfield : ipv4TotalLength packet = .ok (fromBe16 total).toNat := by
        rw [ipv4TotalLength,htotal]
        rfl
      unfold ipv4Input
      simp only [if_neg hlen,hversion,htotal,hfragment,hdst,hprotocol,hsrc,hfield,bind,
        Except.bind,pure,Except.pure]
      split
      · exact ⟨none,rfl,by simp⟩
      split
      · exact ⟨none,rfl,by simp⟩
      case isFalse hfits =>
        rw [readBytes_ok (by omega)]
        dsimp only
        split
        · exact ⟨none,rfl,by simp⟩
        split
        · exact ⟨none,rfl,by simp⟩
        split
        · exact ⟨none,rfl,by simp⟩
        split
        · exact ⟨none,rfl,by simp⟩
        · refine ⟨_,rfl,fun d hd => ⟨_,rfl,?_,by omega⟩⟩
          obtain rfl := Option.some.inj hd
          dsimp only
          omega

end GaiaKernel.Net
