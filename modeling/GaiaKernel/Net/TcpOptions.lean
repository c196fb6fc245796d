import GaiaKernel.Net.Inet

/-! # TCP options

`tcp_parse_options` of net/tcp.c. The option area is a list of bytes read with its bounds, so a read
at or behind its end is a fault. The index of the source is a byte; it never passes the length of
the area, so that a natural number does as well.
-/
namespace GaiaKernel.Net
open List

structure TcpOptions where
  mss : U16
  hasMss : Bool
  sackPermitted : Bool
  timestampPresent : Bool
  timestampValue : U32
  timestampEcho : U32

def TcpOptions.zero : TcpOptions := ⟨0#16,false,false,false,0#32,0#32⟩

def tcpOptEnd : Byte := 0#8
def tcpOptNop : Byte := 1#8
def tcpOptMss : Byte := 2#8
def tcpOptSackPermitted : Byte := 4#8
def tcpOptTimestamp : Byte := 8#8

def bswap32 (value : U32) : U32 :=
  ((value &&& 0xFF#32) <<< 24) ||| ((value &&& 0xFF00#32) <<< 8) |||
    ((value &&& 0xFF0000#32) >>> 8) ||| ((value &&& 0xFF000000#32) >>> 24)

def fromBe32 (value : U32) : U32 := bswap32 value

/-- The word that the bytes make where `memcpy` leaves them. -/
def loadWord (w : ℕ) (bytes : List Byte) : BitVec w :=
  .ofNat w (bytes.foldr (fun b n => b.toNat + 256 * n) 0)

def tcpStoreOption (opts : List Byte) (i : ℕ) (kind len : Byte) (out : TcpOptions) :
    Except Fault TcpOptions :=
  if kind = tcpOptMss then
    if len = 4#8 then do
      let raw ← readBytes opts (i + 2) 2
      return { out with mss := fromBe16 (loadWord 16 raw), hasMss := true }
    else .ok out
  else if kind = tcpOptSackPermitted then
    .ok (if len = 2#8 then { out with sackPermitted := true } else out)
  else if kind = tcpOptTimestamp then
    if len = 10#8 then do
      let raw ← readBytes opts (i + 2) 8
      return { out with
        timestampValue := fromBe32 (loadWord 32 (raw.take 4))
        timestampEcho := fromBe32 (loadWord 32 (raw.drop 4))
        timestampPresent := true }
    else .ok out
  else .ok out

def tcpOptionLoop (opts : List Byte) (i : ℕ) (out : TcpOptions) : Except Fault TcpOptions :=
  if _hi : i < opts.length then do
    let kind ← readByte opts i
    if kind = tcpOptEnd then return out
    else if kind = tcpOptNop then tcpOptionLoop opts (i + 1) out
    else if i + 1 ≥ opts.length then return out
    else
      let len ← readByte opts (i + 1)
      if _hlen : len.toNat < 2 ∨ len.toNat > opts.length - i then return out
      else
        let out ← tcpStoreOption opts i kind len out
        tcpOptionLoop opts (i + len.toNat) out
  else .ok out
termination_by opts.length - i

/-- The loop with the index of the source, for at most so many rounds. -/
def tcpOptionRounds (opts : List Byte) : ℕ → Byte → TcpOptions → Except Fault TcpOptions
  | 0, _, out => .ok out
  | rounds + 1, i, out =>
    if i.toNat < opts.length then do
      let kind ← readByte opts i.toNat
      if kind = tcpOptEnd then return out
      else if kind = tcpOptNop then tcpOptionRounds opts rounds (i + 1#8) out
      else if i.toNat + 1 ≥ opts.length then return out
      else
        let len ← readByte opts (i.toNat + 1)
        if len.toNat < 2 ∨ len.toNat > opts.length - i.toNat then return out
        else
          let out ← tcpStoreOption opts i.toNat kind len out
          tcpOptionRounds opts rounds (i + len) out
    else .ok out

/-- The length is a byte as well, and the index does not wrap. -/
theorem tcpOptionRounds_eq {opts : List Byte} (hopts : opts.length < 2 ^ 8) {rounds : ℕ} {i : Byte}
    (h : opts.length - i.toNat < rounds) (out : TcpOptions) :
    tcpOptionRounds opts rounds i out = tcpOptionLoop opts i.toNat out := by
  induction rounds generalizing i out with
  | zero => omega
  | succ rounds ih =>
    rw [tcpOptionRounds,tcpOptionLoop]
    by_cases hi : i.toNat < opts.length
    · rw [if_pos hi,dif_pos hi]
      refine bind_congr fun kind => ?_
      split_ifs
      · rfl
      · have hnext : (i + 1#8).toNat = i.toNat + 1 := by
          rw [BitVec.toNat_add,BitVec.toNat_one (by decide)]
          exact Nat.mod_eq_of_lt (by omega)
        rw [ih (by omega),hnext]
      · rfl
      · refine bind_congr fun len => ?_
        split_ifs with hlen
        · rfl
        · refine bind_congr fun out => ?_
          have hnext : (i + len).toNat = i.toNat + len.toNat := by
            rw [BitVec.toNat_add]
            exact Nat.mod_eq_of_lt (by omega)
          rw [ih (by omega),hnext]
    · rw [if_neg hi,dif_neg hi]

def tcpParseOptions (opts : List Byte) : Except Fault TcpOptions := tcpOptionLoop opts 0 .zero

/-! ### The reference parse -/

/-- The options from left to right, each with its payload, up to the end of the list or the
first malformed option. -/
def options : List Byte → List (Byte × List Byte)
  | [] => []
  | kind :: rest =>
    if kind = tcpOptEnd then []
    else if kind = tcpOptNop then options rest
    else match rest with
      | [] => []
      | len :: body =>
        if 2 ≤ len.toNat ∧ len.toNat ≤ body.length + 2 then
          (kind, body.take (len.toNat - 2)) :: options (body.drop (len.toNat - 2))
        else []
termination_by l => l.length

def TcpOptions.report (out : TcpOptions) (o : Byte × List Byte) : TcpOptions :=
  if o.1 = tcpOptMss then
    if o.2.length = 2 then { out with mss := fromBe16 (loadWord 16 o.2), hasMss := true } else out
  else if o.1 = tcpOptSackPermitted then
    if o.2.length = 0 then { out with sackPermitted := true } else out
  else if o.1 = tcpOptTimestamp then
    if o.2.length = 8 then { out with
      timestampValue := fromBe32 (loadWord 32 (o.2.take 4))
      timestampEcho := fromBe32 (loadWord 32 (o.2.drop 4))
      timestampPresent := true } else out
  else out

theorem tcpStoreOption_eq {opts : List Byte} {i : ℕ} {len : Byte} (hlen : 2 ≤ len.toNat)
    (hfit : i + len.toNat ≤ opts.length) (kind : Byte) (out : TcpOptions) :
    tcpStoreOption opts i kind len out =
      .ok (out.report (kind, (opts.drop (i + 2)).take (len.toNat - 2))) := by
  have hsize : ∀ m < 254, ((opts.drop (i + 2)).take (len.toNat - 2)).length = m ↔
      len = .ofNat 8 (m + 2) := by
    intro m hm
    rw [← BitVec.toNat_inj,BitVec.toNat_ofNat,length_take,length_drop]
    omega
  unfold tcpStoreOption TcpOptions.report
  simp only [hsize 2 (by decide),hsize 0 (by decide),hsize 8 (by decide)]
  split_ifs with hmss h4 hsack h2 htime h10
  · subst h4
    rw [readBytes_ok (by simpa using hfit)]
    rfl
  · rfl
  · rfl
  · rfl
  · subst h10
    rw [readBytes_ok (by simpa using hfit)]
    rfl
  · rfl
  · rfl

/-- By induction on the bytes that are left. -/
theorem tcpOptionLoop_eq (opts : List Byte) (i : ℕ) (out : TcpOptions) :
    tcpOptionLoop opts i out = .ok ((options (opts.drop i)).foldl TcpOptions.report out) := by
  induction hn : opts.length - i using Nat.strong_induction_on generalizing i out with
  | _ n ih =>
    rw [tcpOptionLoop]
    cases hdrop : opts.drop i with
    | nil =>
      rw [dif_neg (by simpa using hdrop),options]
      rfl
    | cons kind rest =>
      have hlen : opts.length - i = rest.length + 1 := by rw [← length_drop,hdrop,length_cons]
      have hdrop' : ∀ k, opts.drop (i + k) = (kind :: rest).drop k := by
        intro k
        rw [← hdrop,drop_drop]
      have hread : ∀ k, readByte opts (i + k) = readByte (kind :: rest) k := by
        intro k
        rw [readByte,readByte,← hdrop,getElem?_drop]
      rw [dif_pos (by omega),show readByte opts i = .ok kind from hread 0,options.eq_def]
      simp only [bind,Except.bind,pure,Except.pure]
      split_ifs with hend hnop hlast
      · rfl
      · rw [ih _ (by omega) _ _ rfl,hdrop']
        rfl
      · obtain rfl := eq_nil_of_length_eq_zero (l := rest) (by omega)
        rfl
      · cases rest with
        | nil =>
          rw [length_nil] at hlen
          omega
        | cons len body =>
          rw [length_cons] at hlen
          rw [show readByte opts (i + 1) = .ok len from hread 1]
          dsimp only
          by_cases hok : 2 ≤ len.toNat ∧ len.toNat ≤ body.length + 2
          · rw [dif_neg (by omega),if_pos hok,tcpStoreOption_eq hok.1 (by omega),hdrop' 2]
            obtain ⟨m,hm⟩ : ∃ m, len.toNat = m + 2 := ⟨len.toNat - 2,by omega⟩
            dsimp only
            rw [ih _ (by omega) _ _ rfl,hdrop',hm]
            rfl
          · rw [dif_pos (by omega),if_neg hok]
            rfl

end GaiaKernel.Net
