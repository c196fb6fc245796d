import GaiaKernel.Lib.Bytes
import GaiaKernel.Lib.OnesComplement
import GaiaKernel.Memory.Word

/-! # Byte order, addresses and checksums

net/inet.h, net/inet.c and net/netif.h. Header fields are stored in wire order; the x86 stores the
less significant byte first, so a field goes through `bswap16` on its way. What the code reads
through a pointer is read here with its bounds: a read that leaves the buffer is a fault.
-/
namespace GaiaKernel.Net
open OnesComplement BitVec

abbrev U16 := BitVec 16
def bswap16 (value : U16) : U16 := (value <<< 8) ||| (value >>> 8)
def toBe16 (value : U16) : U16 := bswap16 value
def fromBe16 (value : U16) : U16 := bswap16 value
def store16 (value : U16) : List Byte := [value.setWidth 8, (value >>> 8).setWidth 8]
def load16 (a b : Byte) : U16 := BitVec.ofNat 16 (a.toNat + 256 * b.toNat)

/-! ### Reading through a pointer -/

inductive Fault where
  | outside
  deriving DecidableEq

section
variable (data : List Byte)

def readBytes (off n : ℕ) : Except Fault (List Byte) :=
  if off + n ≤ data.length then .ok ((data.drop off).take n) else .error .outside

def readByte (off : ℕ) : Except Fault Byte :=
  match data[off]? with
  | some b => .ok b
  | none => .error .outside

def read16 (off : ℕ) : Except Fault U16 := do
  let a ← readByte data off
  let b ← readByte data (off + 1)
  return load16 a b

end

/-! ### Addresses -/

structure Ipv4Addr where
  a : Byte
  b : Byte
  c : Byte
  d : Byte
  deriving DecidableEq

namespace Ipv4Addr

def bytes (ip : Ipv4Addr) : List Byte := [ip.a, ip.b, ip.c, ip.d]
def isZero (ip : Ipv4Addr) : Bool := ip.a ||| ip.b ||| ip.c ||| ip.d == 0#8
def allOnes : Ipv4Addr := ⟨0xFF#8,0xFF#8,0xFF#8,0xFF#8⟩

end Ipv4Addr

def broadcastByte (addr ip mask : Byte) : Bool :=
  addr ||| mask == 0xFF#8 && ip &&& mask == addr &&& mask

def ipv4IsBroadcast (addr ip mask : Ipv4Addr) : Bool :=
  broadcastByte addr.a ip.a mask.a && broadcastByte addr.b ip.b mask.b &&
    broadcastByte addr.c ip.c mask.c && broadcastByte addr.d ip.d mask.d

def ipv4SameSubnet (x y mask : Ipv4Addr) : Bool :=
  x.a &&& mask.a == y.a &&& mask.a && x.b &&& mask.b == y.b &&& mask.b &&
    x.c &&& mask.c == y.c &&& mask.c && x.d &&& mask.d == y.d &&& mask.d

def readAddr (data : List Byte) (off : ℕ) : Except Fault Ipv4Addr := do
  let a ← readByte data off
  let b ← readByte data (off + 1)
  let c ← readByte data (off + 2)
  let d ← readByte data (off + 3)
  return ⟨a,b,c,d⟩

structure Netif where
  ipv4 : Ipv4Addr
  netmask : Ipv4Addr
  gateway : Ipv4Addr

/-! ### The checksum of a header -/

def inetSum : List Byte → ℕ → ℕ
  | [], sum => sum
  | [a], sum => (sum + a.toNat) % 2 ^ 32
  | a :: b :: rest, sum => inetSum rest ((sum + (a.toNat + 256 * b.toNat)) % 2 ^ 32)

def inetChecksum (data : List Byte) : U16 := ~~~ BitVec.ofNat 16 (fold (inetSum data 0))

/-! ### Facts -/

section
variable {data : List Byte} {off n : ℕ}

theorem readBytes_ok (h : off + n ≤ data.length) :
    readBytes data off n = .ok ((data.drop off).take n) := if_pos h

theorem exists_readByte (h : off < data.length) : ∃ b, readByte data off = .ok b := by
  rw [readByte,List.getElem?_eq_getElem h]
  exact ⟨_,rfl⟩

theorem exists_read16 (h : off + 1 < data.length) : ∃ w, read16 data off = .ok w := by
  obtain ⟨a,ha⟩ := exists_readByte (show off < data.length by omega)
  obtain ⟨b,hb⟩ := exists_readByte h
  rw [read16,ha,hb]
  exact ⟨_,rfl⟩

theorem exists_readAddr (h : off + 3 < data.length) : ∃ ip, readAddr data off = .ok ip := by
  obtain ⟨a,ha⟩ := exists_readByte (show off < data.length by omega)
  obtain ⟨b,hb⟩ := exists_readByte (show off + 1 < data.length by omega)
  obtain ⟨c,hc⟩ := exists_readByte (show off + 2 < data.length by omega)
  obtain ⟨d,hd⟩ := exists_readByte h
  rw [readAddr,ha,hb,hc,hd]
  exact ⟨_,rfl⟩

theorem inetSum_eq (data : List Byte) (sum : ℕ)
    (h : sum + 65535 * ((data.length + 1) / 2) < 2 ^ 32) : inetSum data sum = sum + leSum data := by
  fun_induction inetSum data sum with
  | case1 sum => simp [leSum]
  | case2 a sum =>
    simp only [List.length_cons,List.length_nil] at h
    rw [leSum,Nat.mod_eq_of_lt (by omega)]
  | case3 a b rest sum ih =>
    simp only [List.length_cons] at h
    rw [ih (by omega),leSum]
    omega

theorem inetChecksum_eq_zero_iff (h : data.length < 2 ^ 16) :
    inetChecksum data = 0#16 ↔ fold (leSum data) = 65535 := by
  have hlt := fold_lt (leSum data)
  rw [inetChecksum,inetSum_eq data 0 (by omega),Nat.zero_add,← toNat_inj,
    toNat_not,toNat_ofNat,Nat.mod_eq_of_lt hlt,toNat_ofNat]
  omega

theorem toNat_inetChecksum (h : data.length < 2 ^ 16) :
    (inetChecksum data).toNat = 65535 - fold (leSum data) := by
  have hlt := fold_lt (leSum data)
  rw [inetChecksum,inetSum_eq data 0 (by omega),Nat.zero_add,toNat_not,
    toNat_ofNat,Nat.mod_eq_of_lt hlt]

end

variable (value : U16)

@[simp] theorem length_store16 : (store16 value).length = 2 := rfl
@[simp] theorem Ipv4Addr.length_bytes (ip : Ipv4Addr) : ip.bytes.length = 4 := rfl

theorem leSum_store16 (rest : List Byte) :
    leSum (store16 value ++ rest) = value.toNat + leSum rest := by
  simp only [store16,List.cons_append,List.nil_append,leSum,toNat_setWidth,
    toNat_ushiftRight,Nat.shiftRight_eq_div_pow]
  omega

theorem inetChecksum_sealed {pre post : List Byte} (heven : pre.length % 2 = 0)
    (h : pre.length + 2 + post.length < 2 ^ 16) : inetChecksum
      (pre ++ (store16 (inetChecksum (pre ++ (store16 0#16 ++ post))) ++ post)) = 0#16 := by
  have hlen : ∀ c, (pre ++ (store16 c ++ post)).length = pre.length + 2 + post.length := by
    intro c
    simp only [List.length_append,length_store16]
    omega
  have hsum : ∀ c, leSum (pre ++ (store16 c ++ post)) = leSum pre + leSum post + c.toNat := by
    intro c
    rw [leSum_append heven,leSum_store16]
    omega
  rw [inetChecksum_eq_zero_iff (by rwa [hlen]),hsum,toNat_inetChecksum (by rwa [hlen]),hsum]
  exact fold_add_complement _

theorem load16_store16 : load16 (value.setWidth 8) ((value >>> 8).setWidth 8) = value := by
  rw [← toNat_inj]
  simp only [load16,toNat_ofNat,toNat_setWidth,toNat_ushiftRight,Nat.shiftRight_eq_div_pow]
  omega

theorem toNat_bswap16 : (bswap16 value).toNat = swapBytes value.toNat := by
  have hlow : value.toNat <<< 8 % 2 ^ 16 = (value.toNat % 256) <<< 8 := by omega
  rw [bswap16,toNat_or,toNat_shiftLeft,toNat_ushiftRight,hlow,
    Nat.shiftRight_eq_div_pow,← Nat.shiftLeft_add_eq_or_of_lt (by omega),Nat.shiftLeft_eq]
  rfl

theorem bswap16_bswap16 : bswap16 (bswap16 value) = value := by
  rw [← toNat_inj,toNat_bswap16,toNat_bswap16]
  unfold swapBytes
  omega

theorem fromBe16_toBe16 : fromBe16 (toBe16 value) = value := bswap16_bswap16 value

end GaiaKernel.Net
