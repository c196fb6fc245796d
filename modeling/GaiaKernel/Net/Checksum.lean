import GaiaKernel.Net.Udp

/-! # The checksum of RFC 1071

The words of the data, most significant byte first and the last one padded, are added in one's
complement, and the sum is complemented. net/inet.c adds the words as they lie in memory and ends in
wire order; net/udp.c goes on from the sum of a pseudo-header and ends in host order.
-/
namespace GaiaKernel.Net
open OnesComplement BitVec

/-- One's complement addition: a carry comes back in at the other end. -/
def onesAdd (x y : U16) : U16 := if x.toNat + y.toNat < 2 ^ 16 then x + y else x + y + 1#16

def words : List Byte → List U16
  | [] => []
  | [a] => [BitVec.ofNat 16 (256 * a.toNat)]
  | a :: b :: rest => BitVec.ofNat 16 (256 * a.toNat + b.toNat) :: words rest

def rfc1071 (data : List Byte) : U16 := ~~~ (words data).foldl onesAdd 0#16

theorem toNat_onesAdd (x y : U16) : (onesAdd x y).toNat = fold (x.toNat + y.toNat) := by
  rw [fold,onesAdd]
  split_ifs with hc hd
  · rw [toNat_add]
    omega
  · omega
  · omega
  · rw [fold,if_pos (by omega),toNat_add,toNat_add,toNat_ofNat]
    omega

variable (data : List Byte)

theorem toNat_foldl_words (x : U16) :
    ((words data).foldl onesAdd x).toNat = fold (x.toNat + beSum data) := by
  fun_induction words data generalizing x with
  | case1 =>
    rw [beSum,fold,if_pos (by omega)]
    rfl
  | case2 a =>
    rw [List.foldl_cons,List.foldl_nil,toNat_onesAdd,toNat_ofNat,beSum,Nat.mod_eq_of_lt (by omega)]
  | case3 a b rest ih =>
    rw [List.foldl_cons,ih,toNat_onesAdd,fold_fold_add,toNat_ofNat,beSum,
      Nat.mod_eq_of_lt (by omega),Nat.add_assoc]

theorem toNat_rfc1071 : (rfc1071 data).toNat = 65535 - fold (beSum data) := by
  rw [rfc1071,toNat_not,toNat_foldl_words,toNat_ofNat,Nat.zero_mod,Nat.zero_add]

/-- `inet_checksum` of up to 65535 bytes is the checksum in wire order, `udp_checksum` that of
the pseudo-header and the segment in host order; and with the result of `inet_checksum` stored
in an aligned field that was zero, the checksum of everything is zero. -/
theorem checksum_rfc1071 (h : data.length ≤ 65535) (src dst : Ipv4Addr) :
    inetChecksum data = toBe16 (rfc1071 data) ∧
    udpChecksum src dst data =
      rfc1071 (udpPseudoHeader src dst (BitVec.ofNat 16 data.length) ++ data) ∧
    ∀ pre post, pre.length % 2 = 0 → data = pre ++ (store16 0#16 ++ post) →
      inetChecksum (pre ++ (store16 (inetChecksum data) ++ post)) = 0#16 := by
  refine ⟨?_,?_,fun pre post heven hdata => ?_⟩
  · have hlt := fold_lt (beSum data)
    rw [← toNat_inj,toNat_inetChecksum (by omega),toBe16,toNat_bswap16,toNat_rfc1071,
      fold_leSum,swapBytes,swapBytes]
    omega
  · rw [← toNat_inj,toNat_udpChecksum src dst (by omega),toNat_rfc1071,
      beSum_append (by simp [udpPseudoHeader]),coveredSum]
  · subst hdata
    simp only [List.length_append,length_store16] at h
    exact inetChecksum_sealed heven (by omega)

theorem checksum_rfc1071_odd :
    inetChecksum [0#8, 0#8, 7#8] = 0xFFF8#16 ∧ inetChecksum [0xF8#8, 0xFF#8, 7#8] = 0#16 := by
  obtain ⟨h1,_,h3⟩ := checksum_rfc1071 [0#8, 0#8, 7#8] (by decide) Ipv4Addr.allOnes
    Ipv4Addr.allOnes
  have hsum : inetChecksum [0#8, 0#8, 7#8] = 0xFFF8#16 := by
    rw [h1]
    decide
  have hz := h3 [] [7#8] rfl rfl
  rw [hsum] at hz
  exact ⟨hsum,hz⟩

end GaiaKernel.Net
