import GaiaKernel.Lib.Bytes
import GaiaKernel.Memory.Word

/-! # Long names and 8.3 aliases

The name codec of fs/fat/fat_name.c. A slot is a 32-byte record of a directory, given by its
bytes; a string is a list without its terminator.
-/
namespace GaiaKernel.Fat
open Bytes

abbrev Slot := ℕ → Byte

def attrAt : ℕ := 11
def ntCaseAt : ℕ := 12

def fatAttrLfn : Byte := 0x0F#8
def fatAttrDirectory : Byte := 0x10#8
def fatAttrArchive : Byte := 0x20#8
def fatCaseBaseLower : Byte := 0x08#8
def fatCaseExtLower : Byte := 0x10#8
def fatLfnMax : ℕ := 255
def fatLfnMaxSlots : ℕ := 20

def space : Byte := 0x20#8
def period : Byte := 0x2E#8
def tilde : Byte := 0x7E#8
def underscore : Byte := 0x5F#8
def erased : Byte := 0xE5#8

/-! ## Characters -/

def isUpper (c : Byte) : Bool := 0x41#8 ≤ c && c ≤ 0x5A#8
def isLower (c : Byte) : Bool := 0x61#8 ≤ c && c ≤ 0x7A#8
def isDigit (c : Byte) : Bool := 0x30#8 ≤ c && c ≤ 0x39#8
def toUpper (c : Byte) : Byte := if isLower c then c - 0x20#8 else c
def toLower (c : Byte) : Byte := if isUpper c then c + 0x20#8 else c

/-- `$ % ' - _ @ ~`, the backquote, `! ( )`, the braces, `^ # &`. -/
def shortPunctuation : List Byte :=
  [0x24#8, 0x25#8, 0x27#8, 0x2D#8, 0x5F#8, 0x40#8, 0x7E#8, 0x60#8, 0x21#8, 0x28#8, 0x29#8, 0x7B#8,
    0x7D#8, 0x5E#8, 0x23#8, 0x26#8]

def validShortChar (c : Byte) : Bool :=
  isUpper c || isLower c || isDigit c || shortPunctuation.contains c

def sameName (a b : List Byte) : Bool := a.map toLower == b.map toLower

/-! ## Short names -/

/-- What is before and after the last dot that is not the first character. -/
def splitExtension (name : List Byte) : List Byte × List Byte :=
  match (List.range name.length).reverse.find? fun i => 1 ≤ i && name.getD i 0 == period with
  | some i => (name.take i, name.drop (i + 1))
  | none => (name, [])

def padTo (n : ℕ) (xs : List Byte) : List Byte := xs ++ List.replicate (n - xs.length) space

/-- The name as it is stored and the case flags, if it needs no alias. -/
def shortNameExact (name : List Byte) : Option (List Byte × Byte) :=
  let base := (splitExtension name).1
  let ext := (splitExtension name).2
  if name.isEmpty ∨ name.length > 12 ∨ name.getLast? = some period then none
  else if base.isEmpty ∨ base.length > 8 ∨ ext.length > 3 then none
  else if ¬ (base.all validShortChar ∧ ext.all validShortChar) then none
  else if (base.any isLower ∧ base.any isUpper) ∨ (ext.any isLower ∧ ext.any isUpper) then none
  else
    let out := padTo 8 (base.map toUpper) ++ padTo 3 (ext.map toUpper)
    let out := if out.head? = some erased then 0x05#8 :: out.tail else out
    some (out, (if base.any isLower then fatCaseBaseLower else 0) |||
      (if ext.any isLower then fatCaseExtLower else 0))

def aliasPart (n : ℕ) (part : List Byte) : List Byte :=
  ((part.filter fun c => c ≠ space ∧ c ≠ period).take n).map fun c =>
    if validShortChar c then toUpper c else underscore

def suffixDigits : ℕ → ℕ → List Byte
  | 0, _ => []
  | fuel + 1, value =>
    if value = 0 then []
    else BitVec.ofNat 8 (0x30 + value % 10) :: suffixDigits fuel (value / 10)

def aliasWith (base ext : List Byte) (n : ℕ) : List Byte :=
  let suffix := (suffixDigits 7 n).reverse
  padTo 8 (base.take (8 - (suffix.length + 1)) ++ tilde :: suffix) ++ padTo 3 ext

def aliasLoop (taken : List Byte → Bool) (base ext : List Byte) : ℕ → ℕ → Option (List Byte)
  | 0, _ => none
  | count + 1, n =>
    if taken (aliasWith base ext n) then aliasLoop taken base ext count (n + 1)
    else some (aliasWith base ext n)

def shortNameAlias (taken : List Byte → Bool) (name : List Byte) : Option (List Byte) :=
  let base := aliasPart 8 (splitExtension name).1
  let base := if base.isEmpty then [underscore] else base
  aliasLoop taken base (aliasPart 3 (splitExtension name).2) 999999 1

def shownAs (lower : Bool) (c : Byte) : Byte := if lower && isUpper c then c + 0x20#8 else c

def entryShortName (entry : Slot) : List Byte :=
  let baseLower := entry ntCaseAt &&& fatCaseBaseLower ≠ 0
  let extLower := entry ntCaseAt &&& fatCaseExtLower ≠ 0
  let stored := slice entry 0 8
  let base := stored.takeWhile (· ≠ space)
  let base := if base.head? = some 0x05#8 then erased :: base.tail else base
  let ext := slice entry 8 3
  let shown := base.map (shownAs baseLower)
  if ext.any (· ≠ space) then
    shown ++ period :: (ext.takeWhile (· ≠ space)).map (shownAs extLower)
  else shown

/-! ## Long names -/

def lfnChecksum (name : List Byte) : Byte :=
  name.foldl (fun sum c => ((sum &&& 1) <<< 7) + (sum >>> 1) + c) 0

structure LfnState where
  name : ℕ → Byte
  length : ℕ
  startIndex : ℕ
  checksum : Byte
  expect : ℕ
  valid : Bool

def LfnState.reset (state : LfnState) : LfnState :=
  { state with length := 0, startIndex := 0, checksum := 0, expect := 0, valid := false }

def lfnOffsets : List ℕ := [1, 3, 5, 7, 9, 14, 16, 18, 20, 22, 24, 28, 30]

def lfnChar (lo hi : Byte) : Byte :=
  if (lo = 0 ∧ hi = 0) ∨ (lo = 0xFF#8 ∧ hi = 0xFF#8) then 0
  else if hi = 0 ∧ lo < 0x80#8 then lo
  else underscore

def lfnChars (entry : Slot) : List Byte :=
  lfnOffsets.map fun off => lfnChar (entry off) (entry (off + 1))

def lfnFeed (state : LfnState) (entry : Slot) (index : ℕ) : LfnState :=
  let marker := entry 0
  if marker = erased then state.reset
  else
    let seq := (marker &&& 0x1F#8).toNat
    let last := marker &&& 0x40#8 ≠ 0
    if seq = 0 ∨ seq > fatLfnMaxSlots then state.reset
    else if ¬ last ∧ (¬ state.valid ∨ seq ≠ state.expect ∨ entry 13 ≠ state.checksum) then
      state.reset
    else
      let state := if last then
          { state with
            valid := true, checksum := entry 13, length := seq * 13, startIndex := index }
        else state
      { state with name := blit state.name ((seq - 1) * 13) (lfnChars entry), expect := seq - 1 }

def lfnTake (state : LfnState) (entry : Slot) : Option (List Byte) :=
  if ¬ state.valid ∨ state.expect ≠ 0 then none
  else if lfnChecksum (slice entry 0 11) ≠ state.checksum then none
  else
    let name := (slice state.name 0 state.length).takeWhile (· ≠ 0)
    if name.isEmpty ∨ name.length > fatLfnMax then none else some name

def lfnBytes (name : List Byte) (i : ℕ) : Byte × Byte :=
  if i < name.length then (name.getD i 0, 0)
  else if i = name.length then (0, 0)
  else (0xFF#8, 0xFF#8)

def writeLfnSlot (name : List Byte) (seq : ℕ) (last : Bool) (checksum : Byte) : Slot := fun i =>
  let base := (seq - 1) * 13
  if i = 0 then BitVec.ofNat 8 seq ||| if last then 0x40#8 else 0
  else if i = attrAt then fatAttrLfn
  else if i = 13 then checksum
  else
    match lfnOffsets.findIdx? (· = i), lfnOffsets.findIdx? (· + 1 = i) with
    | some k, _ => (lfnBytes name (base + k)).1
    | none, some k => (lfnBytes name (base + k)).2
    | none, none => 0

end GaiaKernel.Fat
