import GaiaKernel.Net.Ipv4

/-! # UDP segments

net/udp.c. The checksum adds up the pseudo-header and the segment as big-endian words, so it is a
number in host order; `udp_output` stores it without swapping. The two sides therefore agree only on
segments whose checksum reads the same both ways.
-/
namespace GaiaKernel.Net
open OnesComplement BitVec Except List
variable {segment : List Byte}

def udpHeaderSize : ℕ := 8
def ipprotoUdp : Byte := 17#8

def udpSum : List Byte → ℕ → ℕ
  | [], sum => sum
  | [a], sum => (sum + 256 * a.toNat) % 2 ^ 32
  | a :: b :: rest, sum => udpSum rest ((sum + (256 * a.toNat + b.toNat)) % 2 ^ 32)

def udpPseudoHeader (src dst : Ipv4Addr) (segLen : U16) : List Byte :=
  src.bytes ++ dst.bytes ++ [0#8, ipprotoUdp] ++ store16 (toBe16 segLen)

def udpChecksum (src dst : Ipv4Addr) (segment : List Byte) : U16 :=
  let sum := udpSum (udpPseudoHeader src dst (BitVec.ofNat 16 segment.length)) 0
  ~~~ BitVec.ofNat 16 (fold (udpSum segment sum))

/-- `struct udp_header` as `udp_output` fills it in: the checksum goes in as it is. -/
def udpHeader (srcPort dstPort segLen checksum : U16) : List Byte :=
  store16 (toBe16 srcPort) ++ store16 (toBe16 dstPort) ++ store16 (toBe16 segLen) ++
    store16 checksum

/-- The segment that `udp_output` passes to `ipv4_output`; `none` is its own -1. -/
def udpOutput (nif : Option Netif) (dst : Ipv4Addr) (srcPort dstPort : U16)
    (payload : List Byte) : Option (List Byte) :=
  if payload.length > ipv4PayloadMax - udpHeaderSize then none
  else
    nif.map fun nif =>
      let segLen : U16 := BitVec.ofNat 16 (udpHeaderSize + payload.length)
      let checksum := udpChecksum nif.ipv4 dst (udpHeader srcPort dstPort segLen 0#16 ++ payload)
      let field := if checksum = 0#16 then 0xFFFF#16 else checksum
      udpHeader srcPort dstPort segLen field ++ payload

/-- The call of `socket_handle_incoming`; the ports are in wire order. -/
structure Datagram where
  src : Ipv4Addr
  srcPort : U16
  dst : Ipv4Addr
  dstPort : U16
  payload : List Byte
  deriving DecidableEq

def udpInput (src dst : Ipv4Addr) (segment : List Byte) : Except Fault (Option Datagram) := do
  if segment.length < udpHeaderSize then return none
  let udpLen := (fromBe16 (← read16 segment 4)).toNat
  if udpLen < udpHeaderSize ∨ udpLen > segment.length then return none
  let checksum ← read16 segment 6
  let covered ← readBytes segment 0 udpLen
  if checksum ≠ 0#16 ∧ udpChecksum src dst covered ≠ 0#16 then return none
  let payload ← readBytes segment udpHeaderSize (udpLen - udpHeaderSize)
  let srcPort ← read16 segment 0
  let dstPort ← read16 segment 2
  return some ⟨src,srcPort,dst,dstPort,payload⟩

/-! ### Sums -/

section

theorem udpSum_eq (data : List Byte) (sum : ℕ)
    (h : sum + 65535 * ((data.length + 1) / 2) < 2 ^ 32) : udpSum data sum = sum + beSum data := by
  fun_induction udpSum data sum with
  | case1 sum => simp [beSum]
  | case2 a sum =>
    simp only [length_cons,length_nil] at h
    rw [beSum,Nat.mod_eq_of_lt (by omega)]
  | case3 a b rest sum ih =>
    simp only [length_cons] at h
    rw [ih (by omega),beSum]
    omega

theorem beSum_store16 (value : U16) : beSum (store16 value) = swapBytes value.toNat := by
  simp only [store16,beSum,toNat_setWidth,toNat_ushiftRight,Nat.shiftRight_eq_div_pow,swapBytes]
  omega

theorem beSum_store16_toBe16 (value : U16) : beSum (store16 (toBe16 value)) = value.toNat := by
  rw [beSum_store16,toBe16,toNat_bswap16]
  unfold swapBytes
  omega

theorem beSum_udpPseudoHeader (src dst : Ipv4Addr) (segLen : U16) :
    beSum (udpPseudoHeader src dst segLen) =
      beSum src.bytes + beSum dst.bytes + 17 + segLen.toNat := by
  rw [udpPseudoHeader,beSum_append (by simp),beSum_append (by simp),beSum_append (by simp),
    beSum_store16_toBe16]
  rfl

@[simp] theorem length_udpHeader (srcPort dstPort segLen checksum : U16) :
    (udpHeader srcPort dstPort segLen checksum).length = udpHeaderSize := rfl

theorem beSum_udpHeader (srcPort dstPort segLen checksum : U16) :
    beSum (udpHeader srcPort dstPort segLen checksum) =
      srcPort.toNat + dstPort.toNat + segLen.toNat + swapBytes checksum.toNat := by
  rw [udpHeader,beSum_append (by simp),beSum_append (by simp),beSum_append (by simp),
    beSum_store16_toBe16,beSum_store16_toBe16,beSum_store16_toBe16,beSum_store16]

/-- The sum a checksum covers: the words of the pseudo-header and of the segment. -/
def coveredSum (src dst : Ipv4Addr) (segment : List Byte) : ℕ :=
  beSum (udpPseudoHeader src dst (BitVec.ofNat 16 segment.length)) + beSum segment

variable (src dst : Ipv4Addr) {segment : List Byte}

theorem coveredSum_pos (segment : List Byte) : 0 < coveredSum src dst segment := by
  rw [coveredSum,beSum_udpPseudoHeader]
  omega

theorem toNat_udpChecksum (h : segment.length < 2 ^ 16) :
    (udpChecksum src dst segment).toNat = 65535 - fold (coveredSum src dst segment) := by
  have hp := beSum_le (udpPseudoHeader src dst (BitVec.ofNat 16 segment.length))
  have hlen : (udpPseudoHeader src dst (BitVec.ofNat 16 segment.length)).length = 12 := rfl
  have hlt := fold_lt (coveredSum src dst segment)
  unfold udpChecksum
  dsimp only
  rw [udpSum_eq _ 0 (by omega),Nat.zero_add,udpSum_eq segment _ (by omega),toNat_not,toNat_ofNat]
  change 2 ^ 16 - 1 - fold (coveredSum src dst segment) % 2 ^ 16 = _
  omega

theorem udpChecksum_eq_zero_iff (h : segment.length < 2 ^ 16) :
    udpChecksum src dst segment = 0#16 ↔ coveredSum src dst segment % 65535 = 0 := by
  have hlt := fold_lt (coveredSum src dst segment)
  rw [← toNat_inj,toNat_udpChecksum src dst h,← fold_eq_max_iff (coveredSum_pos src dst segment),
    toNat_ofNat]
  omega

end

/-! ### What output builds -/

section
variable (src dst : Ipv4Addr) (srcPort dstPort : U16) {payload : List Byte}

/-- The sum of everything in a segment and its pseudo-header but the checksum field. -/
def udpWordSum (payload : List Byte) : ℕ :=
  beSum src.bytes + beSum dst.bytes + 17 + 2 * (udpHeaderSize + payload.length) +
    srcPort.toNat + dstPort.toNat + beSum payload

theorem udpWordSum_pos (payload : List Byte) : 0 < udpWordSum src dst srcPort dstPort payload := by
  unfold udpWordSum
  omega

def udpSegment (payload : List Byte) (checksum : U16) : List Byte :=
  udpHeader srcPort dstPort (BitVec.ofNat 16 (udpHeaderSize + payload.length)) checksum ++ payload

theorem length_udpSegment (payload : List Byte) (checksum : U16) :
    (udpSegment srcPort dstPort payload checksum).length = udpHeaderSize + payload.length := by
  rw [udpSegment,length_append,length_udpHeader]

theorem coveredSum_udpSegment (checksum : U16) (h : udpHeaderSize + payload.length < 2 ^ 16) :
    coveredSum src dst (udpSegment srcPort dstPort payload checksum) =
      udpWordSum src dst srcPort dstPort payload + swapBytes checksum.toNat := by
  rw [coveredSum,length_udpSegment,beSum_udpPseudoHeader,udpSegment,
    beSum_append (by rw [length_udpHeader]; rfl),beSum_udpHeader,toNat_ofNat,Nat.mod_eq_of_lt h,udpWordSum]
  omega

theorem udpInput_udpSegment {checksum : U16} (h : udpHeaderSize + payload.length < 2 ^ 16)
    (hc : checksum ≠ 0#16) : udpInput src dst (udpSegment srcPort dstPort payload checksum) =
      .ok (if fold (udpWordSum src dst srcPort dstPort payload + swapBytes checksum.toNat) = 65535
        then some ⟨src,toBe16 srcPort,dst,toBe16 dstPort,payload⟩ else none) := by
  have hlength := length_udpSegment srcPort dstPort payload checksum
  have hpos := udpWordSum_pos src dst srcPort dstPort payload
  have hzero := udpChecksum_eq_zero_iff src dst (hlength ▸ h)
  rw [coveredSum_udpSegment src dst srcPort dstPort checksum h,
    ← fold_eq_max_iff (by omega)] at hzero
  have hlen : read16 (udpSegment srcPort dstPort payload checksum) 4 =
      .ok (toBe16 (BitVec.ofNat 16 (udpHeaderSize + payload.length))) :=
    congrArg ok (load16_store16 _)
  have hfield : read16 (udpSegment srcPort dstPort payload checksum) 6 = .ok checksum :=
    congrArg ok (load16_store16 _)
  have hsrc : read16 (udpSegment srcPort dstPort payload checksum) 0 = .ok (toBe16 srcPort) :=
    congrArg ok (load16_store16 _)
  have hdst : read16 (udpSegment srcPort dstPort payload checksum) 2 = .ok (toBe16 dstPort) :=
    congrArg ok (load16_store16 _)
  have hall : readBytes (udpSegment srcPort dstPort payload checksum) 0
      (udpHeaderSize + payload.length) = .ok (udpSegment srcPort dstPort payload checksum) := by
    rw [readBytes_ok (by omega),drop_zero,← hlength,take_length]
  have hrest : readBytes (udpSegment srcPort dstPort payload checksum) udpHeaderSize
      payload.length = .ok payload := by
    rw [readBytes_ok (by omega),udpSegment,drop_left' (by rfl),take_length]
  unfold udpInput
  simp only [hlen,hfield,hsrc,hdst,fromBe16_toBe16,toNat_ofNat,Nat.mod_eq_of_lt h,
    hlength,hall,bind,Except.bind,pure,Except.pure]
  rw [if_neg (by omega),if_neg (by omega)]
  simp only [ne_eq,hc,not_false_eq_true,true_and,hzero,Nat.add_sub_cancel_left,hrest]
  split
  case isTrue hbad => rfl
  case isFalse hgood => rw [if_pos (not_not.mp hgood)]

theorem udpOutput_eq {nif : Netif}
    (h : udpOutput (some nif) dst srcPort dstPort payload = some segment) :
    udpHeaderSize + payload.length < 2 ^ 16 ∧ ∃ field : U16,
      segment = udpSegment srcPort dstPort payload field ∧ field.toNat =
        if 65535 - fold (udpWordSum nif.ipv4 dst srcPort dstPort payload) = 0 then 65535
        else 65535 - fold (udpWordSum nif.ipv4 dst srcPort dstPort payload) := by
  unfold udpOutput at h
  split at h
  · cases h
  case isFalse hmax =>
    have hlen : udpHeaderSize + payload.length < 2 ^ 16 := by
      simp only [ipv4PayloadMax,ethFrameMax,ipv4Headroom,ethHdrLen,ipv4HdrLen,
        udpHeaderSize] at hmax ⊢
      omega
    have hnat : (udpChecksum nif.ipv4 dst (udpSegment srcPort dstPort payload 0#16)).toNat =
        65535 - fold (udpWordSum nif.ipv4 dst srcPort dstPort payload) := by
      rw [toNat_udpChecksum _ _ (by rw [length_udpSegment]; exact hlen),
        coveredSum_udpSegment _ _ _ _ _ hlen]
      rfl
    refine ⟨hlen,_,(Option.some.inj h).symm,?_⟩
    rw [← hnat]
    have hzero : udpChecksum nif.ipv4 dst (udpSegment srcPort dstPort payload 0#16) = 0#16 ↔
        (udpChecksum nif.ipv4 dst (udpSegment srcPort dstPort payload 0#16)).toNat = 0 := by
      rw [← toNat_inj]
      rfl
    split_ifs with h1 h2 h2
    · rfl
    · exact absurd (hzero.mp h1) h2
    · exact absurd (hzero.mpr h2) h1
    · rfl

/-- A segment of `udp_output` survives its own verification if and only if 257 divides the sum
of its words. -/
theorem udpInput_udpOutput (nif : Netif) (payload : List Byte)
    (h : udpOutput (some nif) dst srcPort dstPort payload = some segment) :
    udpInput nif.ipv4 dst segment = .ok (if 257 ∣ udpWordSum nif.ipv4 dst srcPort dstPort payload
        then some ⟨nif.ipv4,toBe16 srcPort,dst,toBe16 dstPort,payload⟩ else none) := by
  obtain ⟨hlen,field,rfl,hfield⟩ := udpOutput_eq dst srcPort dstPort h
  have hpos := udpWordSum_pos nif.ipv4 dst srcPort dstPort payload
  have hne : field ≠ 0#16 := by
    intro h0
    rw [h0,toNat_ofNat] at hfield
    split_ifs at hfield
    omega
  rw [udpInput_udpSegment _ _ _ _ hlen hne,hfield]
  simp [fold_add_swapped_iff hpos]

end

/-! ### What input delivers -/

/-- The length field lies between the size of the header and the segment, and the checksum
field is zero or makes the covered words sum to zero modulo 65535. -/
def Consistent (src dst : Ipv4Addr) (segment : List Byte) : Prop :=
  ∃ len checksum : U16, read16 segment 4 = .ok (toBe16 len) ∧ read16 segment 6 = .ok checksum ∧
    udpHeaderSize ≤ len.toNat ∧ len.toNat ≤ segment.length ∧
    (checksum = 0#16 ∨ coveredSum src dst (segment.take len.toNat) % 65535 = 0)

theorem udpInput_delivers_iff (src dst : Ipv4Addr)
    (hlen : segment.length < 2 ^ 16) :
    ∃ r, udpInput src dst segment = .ok r ∧ (r.isSome ↔ Consistent src dst segment) := by
  by_cases hshort : segment.length < udpHeaderSize
  · refine ⟨none,by simp [udpInput,hshort,pure,Except.pure],?_⟩
    refine iff_of_false (by simp) ?_
    rintro ⟨len,checksum,_,_,hmin,hmax,_⟩
    omega
  · have h8 : 8 ≤ segment.length := by simpa [udpHeaderSize] using hshort
    obtain ⟨field,hfield⟩ := exists_read16 (show 4 + 1 < segment.length by omega)
    obtain ⟨checksum,hchecksum⟩ := exists_read16 (show 6 + 1 < segment.length by omega)
    obtain ⟨srcPort,hsrc⟩ := exists_read16 (show 0 + 1 < segment.length by omega)
    obtain ⟨dstPort,hdst⟩ := exists_read16 (show 2 + 1 < segment.length by omega)
    set len := fromBe16 field with hdef
    have hback : field = toBe16 len := (bswap16_bswap16 field).symm
    have hiff : Consistent src dst segment ↔ udpHeaderSize ≤ len.toNat ∧
        len.toNat ≤ segment.length ∧
        (checksum = 0#16 ∨ coveredSum src dst (segment.take len.toNat) % 65535 = 0) := by
      constructor
      · rintro ⟨len',checksum',hl,hc,hrest⟩
        have hl' : len = len' := by
          rw [hfield] at hl
          rw [hdef,Except.ok.inj hl]
          exact bswap16_bswap16 len'
        rw [hchecksum] at hc
        rwa [hl',Except.ok.inj hc]
      · exact fun hrest => ⟨len,checksum,hback ▸ hfield,hchecksum,hrest⟩
    rw [hiff]
    unfold udpInput
    simp only [if_neg hshort,hfield,hchecksum,hsrc,hdst,bind,Except.bind,pure,Except.pure,← hdef]
    split
    case isTrue hbad => exact ⟨none,rfl,iff_of_false (by simp) (by omega)⟩
    case isFalse hfits =>
      rw [readBytes_ok (by omega),readBytes_ok (by omega)]
      have hzero := udpChecksum_eq_zero_iff src dst
        (show (segment.take len.toNat).length < 2 ^ 16 by rw [length_take]; omega)
      simp only [drop_zero,ne_eq,hzero]
      split
      case isTrue hbad =>
        refine ⟨none,rfl,iff_of_false (by simp) ?_⟩
        rintro ⟨_,_,hgood⟩
        exact hgood.elim hbad.1 hbad.2
      case isFalse hgood =>
        refine ⟨_,rfl,iff_of_true rfl ⟨by omega,by omega,?_⟩⟩
        by_cases hc : checksum = 0#16
        · exact .inl hc
        · refine .inr ?_
          by_contra hsum
          exact hgood ⟨hc,hsum⟩

/-- What `udp_output` builds is delivered to the addressed port with its payload exactly when 257
divides the sum of its words; and `udp_input` delivers a segment of any content exactly when
its length field and its checksum are consistent. -/
theorem udp_delivered_iff (nif : Netif) (src dst : Ipv4Addr) (srcPort dstPort : U16)
    (payload segment : List Byte) :
    (udpOutput (some nif) dst srcPort dstPort payload = some segment →
      (udpInput nif.ipv4 dst segment =
          .ok (some ⟨nif.ipv4,toBe16 srcPort,dst,toBe16 dstPort,payload⟩) ↔
        257 ∣ udpWordSum nif.ipv4 dst srcPort dstPort payload)) ∧
    (segment.length < 2 ^ 16 →
      ∃ r, udpInput src dst segment = .ok r ∧ (r.isSome ↔ Consistent src dst segment)) := by
  refine ⟨fun hout => ?_,udpInput_delivers_iff src dst⟩
  rw [udpInput_udpOutput dst srcPort dstPort nif payload hout]
  split
  case isTrue h => exact iff_of_true rfl h
  case isFalse h => exact iff_of_false (by simp) h

/-- Three bytes from port 200 arrive. -/
theorem udp_delivered_iff_payload :
    ∃ segment, udpOutput (some ⟨⟨10#8,0#8,0#8,1#8⟩,⟨255#8,255#8,255#8,0#8⟩,
        ⟨0#8,0#8,0#8,0#8⟩⟩) ⟨10#8,0#8,0#8,2#8⟩ 200#16 67#16 [0x68#8,0x69#8,0x21#8] = some segment ∧
      udpInput ⟨10#8,0#8,0#8,1#8⟩ ⟨10#8,0#8,0#8,2#8⟩ segment =
        .ok (some ⟨⟨10#8,0#8,0#8,1#8⟩,toBe16 200#16,⟨10#8,0#8,0#8,2#8⟩,toBe16 67#16,
          [0x68#8,0x69#8,0x21#8]⟩) :=
  ⟨_,rfl,((udp_delivered_iff ⟨⟨10#8,0#8,0#8,1#8⟩,⟨255#8,255#8,255#8,0#8⟩,
    ⟨0#8,0#8,0#8,0#8⟩⟩ ⟨10#8,0#8,0#8,1#8⟩ ⟨10#8,0#8,0#8,2#8⟩ 200#16 67#16
      [0x68#8,0x69#8,0x21#8] _).1 rfl).mpr (by decide)⟩

/-- Nothing from port 68 does: the sum is not divisible, and the receiver drops what `udp_output` sends. -/
theorem udp_output_dropped :
    ∃ segment, udpOutput (some ⟨⟨10#8,0#8,0#8,1#8⟩,⟨255#8,255#8,255#8,0#8⟩,
        ⟨0#8,0#8,0#8,0#8⟩⟩) ⟨10#8,0#8,0#8,2#8⟩ 68#16 67#16 [] = some segment ∧
      udpInput ⟨10#8,0#8,0#8,1#8⟩ ⟨10#8,0#8,0#8,2#8⟩ segment = .ok none := by
  refine ⟨_,rfl,(udpInput_udpOutput ⟨10#8,0#8,0#8,2#8⟩ 68#16 67#16 ⟨⟨10#8,0#8,0#8,1#8⟩,
    ⟨255#8,255#8,255#8,0#8⟩,⟨0#8,0#8,0#8,0#8⟩⟩ [] rfl).trans ?_⟩
  rw [if_neg (by decide)]

end GaiaKernel.Net
