import GaiaKernel.Lib.Bytes
import GaiaKernel.Memory.Word
import GaiaKernel.Storage.RawWrite

/-! # Partition tables

`partition_scan` of drivers/storage/partition.c with the registry of drivers/storage/blockdev.c and
the bounds of drivers/storage/block.h. What a disk holds is its driver's answer to a read, which may
depend on the reads before it. A scan keeps the registry, the slices, and the sectors asked for.
-/
namespace GaiaKernel.Partition
open Bytes List

abbrev Sector := ℕ → Byte

/-- `struct block_device` without its context; the flags say which callbacks there are. -/
structure BlockDevice where
  sectors : ℕ
  readable : Bool
  writable : Bool
  flushable : Bool
  fits : sectors < 2 ^ 64

/-- A disk with its driver's answers: none for a read that fails. -/
structure Disk extends BlockDevice where
  answer : List ℕ → ℕ → Option Sector

def blockRangeValid (dev : BlockDevice) (lba count : ℕ) : Bool :=
  Storage.blockRangeValid dev.sectors lba count

/-- `struct partition_device`. The bounds are those `publish` checks. -/
structure Slice where
  parent : BlockDevice
  first : ℕ
  device : BlockDevice
  inside : first < parent.sectors ∧ device.sectors ≤ parent.sectors - first

structure BlockdevEntry where
  name : List Char
  device : BlockDevice
  startLba : ℕ
  flags : U32

structure Scan where
  entries : List BlockdevEntry
  slices : List Slice
  reads : List ℕ

def partitionMax : ℕ := 32
def blockdevMax : ℕ := 64
def blockdevNameMax : ℕ := 16
def ebrMaxLinks : ℕ := 64
def logicalFirstNumber : ℕ := 5

def blockdevWritable : U32 := 0x1#32
def blockdevPartition : U32 := 0x4#32
def blockdevEsp : U32 := 0x10#32
def mbrEntries : ℕ := 4
def mbrEntry (i : ℕ) : ℕ := 446 + i * 16
def statusLegal (status : Byte) : Bool := status == 0x00#8 || status == 0x80#8

def typeEmpty : Byte := 0x00#8
def typeGptProtective : Byte := 0xEE#8
def typeEfiSystem : Byte := 0xEF#8
def isExtended (type : Byte) : Bool := type == 0x05#8 || type == 0x0F#8 || type == 0x85#8
def hasSignature (sector : Sector) : Bool := sector 510 == 0x55#8 && sector 511 == 0xAA#8

/-! ### The fields of an entry -/

def entryType (sector : Sector) (i : ℕ) : Byte := sector (mbrEntry i + 4)
def entryFirst (sector : Sector) (i : ℕ) : ℕ := le32 sector (mbrEntry i + 8)
def entrySectors (sector : Sector) (i : ℕ) : ℕ := le32 sector (mbrEntry i + 12)

def entryTaken (sector : Sector) (i : ℕ) : Bool :=
  entryType sector i != typeEmpty && entrySectors sector i != 0

/-! ### Names and the registry -/

/-- The digits of a number, least significant first, as the loop of `slice_name` stores them in
a buffer of `room`. -/
def digits : ℕ → ℕ → List Char
  | 0, _ => []
  | room + 1, number =>
    Char.ofNat (48 + number % 10) :: if number / 10 = 0 then [] else digits room (number / 10)

def sliceName (parent : List Char) (number : ℕ) : Option (List Char) :=
  let count := (digits 8 number).length
  if parent.length ≥ blockdevNameMax then none
  else if parent.length + count + 2 > blockdevNameMax then none
  else some (parent ++ 'p' :: (digits 8 number).reverse)

def blockdevRegister (entries : List BlockdevEntry) (name : List Char) (device : BlockDevice)
    (startLba : ℕ) (flags : U32) : Option (List BlockdevEntry) :=
  if name = [] ∨ name.length ≥ blockdevNameMax ∨ !device.readable ∨ device.sectors = 0 then none
  else if entries.any fun e => e.name == name then none
  else if entries.length < blockdevMax then
    some (entries ++
      [⟨name,device,startLba,flags ||| if device.writable then blockdevWritable else 0#32⟩])
  else none

/-! ### The scan -/

namespace Disk
variable (d : Disk) (parentName : List Char) (inherit : U32)

def blockRead (lba : ℕ) (t : Scan) : Option Sector × Scan :=
  if blockRangeValid d.toBlockDevice lba 1 ∧ d.readable then
    (d.answer t.reads lba, { t with reads := t.reads ++ [lba] })
  else (none, t)

def publish (number first sectors : ℕ) (type : Byte) (t : Scan) : ℕ × Scan :=
  if h : sectors = 0 ∨ first ≥ d.sectors ∨ sectors > d.sectors - first then (0, t)
  else if t.slices.length ≥ partitionMax then (0, t)
  else
    match sliceName parentName number with
    | none => (0, t)
    | some name =>
      let slice : Slice :=
        { parent := d.toBlockDevice
          first := first
          device :=
            { sectors := sectors
              readable := true
              writable := d.writable
              flushable := d.flushable
              fits := by have := d.fits; omega }
          inside := ⟨by omega,by dsimp only; omega⟩ }
      let role := if type = typeEfiSystem then blockdevEsp else 0#32
      match blockdevRegister t.entries name slice.device first
          (inherit ||| blockdevPartition ||| role) with
      | none => (0, t)
      | some entries => (1, { t with entries := entries, slices := t.slices ++ [slice] })

/-- The logical partition an extended boot record describes, relative to the record itself. -/
def publishLogical (number here : ℕ) (sector : Sector) (t : Scan) : ℕ × Scan :=
  if entryTaken sector 0 then
    d.publish parentName inherit number ((here + entryFirst sector 0) % 2 ^ 64)
      (entrySectors sector 0) (entryType sector 0) t
  else (0, t)

/-- Where the next extended boot record is, relative to the start of the extended partition. A
link that does not lead forward ends the chain. -/
def following (extendedFirst here : ℕ) (sector : Sector) : Option ℕ :=
  if !isExtended (entryType sector 1) then none
  else if entryFirst sector 1 = 0 then none
  else if (extendedFirst + entryFirst sector 1) % 2 ^ 64 ≤ here then none
  else some ((extendedFirst + entryFirst sector 1) % 2 ^ 64)

def scanLogical (extendedFirst : ℕ) : ℕ → ℕ → ℕ → Scan → ℕ × Scan
  | 0, _, _, t => (0, t)
  | links + 1, number, here, t =>
    if here ≥ d.sectors then (0, t)
    else
      match d.blockRead here t with
      | (none, t₁) => (0, t₁)
      | (some sector, t₁) =>
        if !hasSignature sector then (0, t₁)
        else
          let r := d.publishLogical parentName inherit number here sector t₁
          match following extendedFirst here sector with
          | none => r
          | some next =>
            let rest := scanLogical extendedFirst links (number + 1) next r.2
            (r.1 + rest.1, rest.2)

/-- The first loop of `partition_scan`: every entry is legal, none protects a GPT, and some
entry lies on the disk. -/
def tableUsable (sector : Sector) : Bool :=
  ((List.range mbrEntries).all fun i =>
    statusLegal (sector (mbrEntry i)) && entryType sector i != typeGptProtective) &&
  (List.range mbrEntries).any fun i =>
    entryTaken sector i && decide (entryFirst sector i < d.sectors) &&
      decide (entrySectors sector i ≤ d.sectors - entryFirst sector i)

def scanEntry (sector : Sector) (acc : ℕ × Scan) (i : ℕ) : ℕ × Scan :=
  if !entryTaken sector i then acc
  else
    let r :=
      if isExtended (entryType sector i) then
        d.scanLogical parentName inherit (entryFirst sector i) ebrMaxLinks logicalFirstNumber
          (entryFirst sector i) acc.2
      else
        d.publish parentName inherit (i + 1) (entryFirst sector i) (entrySectors sector i)
          (entryType sector i) acc.2
    (acc.1 + r.1, r.2)

def partitionScan (t : Scan) : ℕ × Scan :=
  match d.blockRead 0 t with
  | (none, t₁) => (0, t₁)
  | (some sector, t₁) =>
    if !hasSignature sector then (0, t₁)
    else if !d.tableUsable sector then (0, t₁)
    else (List.range mbrEntries).foldl (d.scanEntry parentName inherit sector) (0, t₁)

end Disk

/-- `block_read` or `block_write` through a slice: the first sector and the number of sectors for
the driver of the parent, none for a request that is refused. -/
def Slice.request (s : Slice) (write : Bool) (lba : U64) (count : U32) : Option (ℕ × ℕ) :=
  if blockRangeValid s.device lba.toNat count.toNat ∧ (!write ∨ s.device.writable) then
    let at' := (s.first + lba.toNat) % 2 ^ 64
    if blockRangeValid s.parent at' count.toNat ∧
        (if write then s.parent.writable else s.parent.readable) then
      some (at', count.toNat)
    else none
  else none

/-- A published slice is the `k`-th of the machine on which raw writes are made. -/
structure Slice.At (s : Slice) (m : Storage.Machine) (k : ℕ) : Prop where
  first : (m.slices k).first = s.first
  sectors : (m.slices k).sectors = s.device.sectors
  parent : (m.disks (m.slices k).parent).sectors = s.parent.sectors
  writable : (m.disks (m.slices k).parent).writable = s.parent.writable
  inherits : s.device.writable = s.parent.writable

/-- What a raw write through the slice hands to the driver is what the slice asks its parent for. -/
theorem Slice.At.blockWrite {s : Slice} {m : Storage.Machine} {k : ℕ} (h : s.At m k) (lba : U64)
    (count : U32) (done : ℕ) : (m.blockWrite (.slice k) lba.toNat count.toNat done).2 =
      (s.request true lba count).elim [] fun r =>
        (range (min done r.2)).map fun i => ((m.slices k).parent, r.1 + i) := by
  simp only [Storage.Machine.blockWrite,Storage.Machine.diskWrite,Storage.Machine.blockRangeValid,
    Storage.Machine.sectorsOf,Slice.request,blockRangeValid,h.first,h.sectors,h.parent,h.writable,
    h.inherits]
  split_ifs <;> simp_all

/-! ### Confinement -/

structure Chain (d : Disk) (chain : List ℕ) : Prop where
  forward : chain.Pairwise (· < ·)
  inside : ∀ n ∈ chain, n < d.sectors
  bounded : chain.length ≤ ebrMaxLinks

structure Progress (d : Disk) (n : ℕ) (t t' : Scan) : Prop where
  reads : ∃ chains : List (List ℕ), chains.length ≤ n ∧ (∀ c ∈ chains, Chain d c) ∧
    t'.reads = t.reads ++ chains.flatten
  slices : ∃ new : List Slice, (∀ s ∈ new, s.parent = d.toBlockDevice) ∧
    t'.slices = t.slices ++ new

variable {d : Disk} {t t' t'' : Scan} {m n : ℕ}

theorem Progress.refl (d : Disk) (t : Scan) : Progress d 0 t t :=
  ⟨⟨[],le_rfl,by simp,by simp⟩,⟨[],by simp,by simp⟩⟩

theorem Progress.trans (h : Progress d m t t') (h' : Progress d n t' t'') :
    Progress d (m + n) t t'' := by
  obtain ⟨chains,hlen,hchains,hreads⟩ := h.reads
  obtain ⟨chains',hlen',hchains',hreads'⟩ := h'.reads
  obtain ⟨new,hnew,hslices⟩ := h.slices
  obtain ⟨new',hnew',hslices'⟩ := h'.slices
  constructor
  · refine ⟨chains ++ chains',?_,?_,?_⟩
    · rw [length_append]
      omega
    · exact forall_mem_append.mpr ⟨hchains,hchains'⟩
    · rw [hreads',hreads,flatten_append,append_assoc]
  · refine ⟨new ++ new',?_,?_⟩
    · exact forall_mem_append.mpr ⟨hnew,hnew'⟩
    · rw [hslices',hslices,append_assoc]

theorem Progress.mono (h : Progress d m t t') (hmn : m ≤ n) : Progress d n t t' := by
  obtain ⟨chains,hlen,hrest⟩ := h.reads
  exact ⟨⟨chains,hlen.trans hmn,hrest⟩,h.slices⟩

def Publishes (d : Disk) (t t' : Scan) : Prop :=
  t'.reads = t.reads ∧
    ∃ new : List Slice, (∀ s ∈ new, s.parent = d.toBlockDevice) ∧ t'.slices = t.slices ++ new

theorem Publishes.refl (d : Disk) (t : Scan) : Publishes d t t := ⟨rfl,[],by simp,by simp⟩

theorem Publishes.progress (h : Publishes d t t') : Progress d 0 t t' :=
  ⟨⟨[],le_rfl,by simp,by simp [h.1]⟩,h.2⟩

section
variable (d : Disk) (parentName : List Char) (inherit : U32)

theorem publishes_publish (number first sectors : ℕ) (type : Byte) (t : Scan) :
    Publishes d t (d.publish parentName inherit number first sectors type t).2 := by
  unfold Disk.publish
  by_cases hbounds : sectors = 0 ∨ first ≥ d.sectors ∨ sectors > d.sectors - first
  · rw [dif_pos hbounds]
    exact Publishes.refl d t
  rw [dif_neg hbounds]
  by_cases hfull : t.slices.length ≥ partitionMax
  · rw [if_pos hfull]
    exact Publishes.refl d t
  rw [if_neg hfull]
  cases sliceName parentName number with
  | none => exact Publishes.refl d t
  | some name =>
    dsimp only
    split
    · exact Publishes.refl d t
    · refine ⟨rfl,[_],?_,rfl⟩
      intro s hs
      rw [mem_singleton.mp hs]

theorem publishes_publishLogical (number here : ℕ) (sector : Sector) (t : Scan) :
    Publishes d t (d.publishLogical parentName inherit number here sector t).2 := by
  unfold Disk.publishLogical
  split_ifs
  · apply publishes_publish
  · exact Publishes.refl d t

theorem lt_of_following {extendedFirst here next : ℕ} {sector : Sector}
    (h : Disk.following extendedFirst here sector = some next) : here < next := by
  unfold Disk.following at h
  split_ifs at h with _ _ hforward
  cases h
  omega

theorem blockRead_cases (lba : ℕ) (t : Scan) : d.blockRead lba t = (none, t) ∨ lba < d.sectors ∧
      d.blockRead lba t = (d.answer t.reads lba, { t with reads := t.reads ++ [lba] }) := by
  by_cases h : blockRangeValid d.toBlockDevice lba 1 ∧ d.readable
  · have hvalid := of_decide_eq_true h.1
    exact .inr ⟨hvalid.2.1,if_pos h⟩
  · exact .inl (if_neg h)

structure Followed (here links : ℕ) (t t' : Scan) : Prop where
  reads : ∃ chain : List ℕ, chain.Pairwise (· < ·) ∧ (∀ n ∈ chain, here ≤ n ∧ n < d.sectors) ∧
    chain.length ≤ links ∧ t'.reads = t.reads ++ chain
  slices : ∃ new : List Slice, (∀ s ∈ new, s.parent = d.toBlockDevice) ∧
    t'.slices = t.slices ++ new

theorem Followed.stop (here links : ℕ) (t : Scan) : Followed d here links t t :=
  ⟨⟨[],by simp,by simp,by simp,by simp⟩,⟨[],by simp,by simp⟩⟩

theorem Followed.cons {here next links : ℕ} (hin : here < d.sectors) (hlt : here < next)
    {t t1 t2 : Scan} (hpub : Publishes d { t with reads := t.reads ++ [here] } t1)
    (h : Followed d next links t1 t2) : Followed d here (links + 1) t t2 := by
  obtain ⟨chain,hchain,hrange,hlen,hreads⟩ := h.reads
  obtain ⟨hsame,new,hnew,hslices⟩ := hpub
  obtain ⟨new',hnew',hslices'⟩ := h.slices
  constructor
  · refine ⟨here :: chain,?_,?_,?_,?_⟩
    · apply pairwise_cons.mpr
      refine ⟨?_,hchain⟩
      intro n hn
      exact lt_of_lt_of_le hlt (hrange n hn).1
    · intro n hn
      rcases mem_cons.mp hn with rfl | hn
      · exact ⟨le_rfl,hin⟩
      · exact ⟨hlt.le.trans (hrange n hn).1,(hrange n hn).2⟩
    · rw [length_cons]
      omega
    · rw [hreads,hsame,append_assoc]
      rfl
  · refine ⟨new ++ new',?_,?_⟩
    · exact forall_mem_append.mpr ⟨hnew,hnew'⟩
    · rw [hslices',hslices,append_assoc]

theorem followed_scanLogical (extendedFirst links number here : ℕ) (t : Scan) :
    Followed d here links t
      (d.scanLogical parentName inherit extendedFirst links number here t).2 := by
  induction links generalizing number here t with
  | zero => exact Followed.stop d here 0 t
  | succ links ih =>
    unfold Disk.scanLogical
    split_ifs with hout
    · exact Followed.stop d here (links + 1) t
    rcases blockRead_cases d here t with hread | ⟨hin,hread⟩
    · rw [hread]
      exact Followed.stop d here (links + 1) t
    rw [hread]
    -- a chain that ends with this record
    have hlast : ∀ {t1}, Publishes d { t with reads := t.reads ++ [here] } t1 →
        Followed d here (links + 1) t t1 := by
      intro t1 hpub
      exact Followed.cons d hin (Nat.lt_succ_self here) hpub (Followed.stop d _ links t1)
    cases d.answer t.reads here with
    | none => exact hlast (Publishes.refl d _)
    | some sector =>
      dsimp only
      split_ifs with hsig
      · exact hlast (Publishes.refl d _)
      have hpub := publishes_publishLogical d parentName inherit number here sector
        { t with reads := t.reads ++ [here] }
      cases hnext : Disk.following extendedFirst here sector with
      | none => exact hlast hpub
      | some next =>
        apply Followed.cons d hin (lt_of_following hnext) hpub
        apply ih

theorem progress_scanLogical (extendedFirst number here : ℕ) (t : Scan) : Progress d 1 t
      (d.scanLogical parentName inherit extendedFirst ebrMaxLinks number here t).2 := by
  have hfollowed := followed_scanLogical d parentName inherit extendedFirst ebrMaxLinks number here t
  obtain ⟨chain,hchain,hrange,hlen,hreads⟩ := hfollowed.reads
  refine ⟨⟨[chain],le_rfl,?_,by simpa using hreads⟩,hfollowed.slices⟩
  intro c hc
  rw [mem_singleton.mp hc]
  exact ⟨hchain,fun n hn => (hrange n hn).2,hlen⟩

theorem progress_scanEntry (sector : Sector) (acc : ℕ × Scan) (i : ℕ) :
    Progress d 1 acc.2 (d.scanEntry parentName inherit sector acc i).2 := by
  unfold Disk.scanEntry
  split_ifs
  · exact (Progress.refl d acc.2).mono (by omega)
  · apply progress_scanLogical
  · exact (publishes_publish d parentName inherit _ _ _ _ acc.2).progress.mono (by omega)

theorem progress_scanEntries (sector : Sector) (slots : List ℕ) (acc : ℕ × Scan) :
    Progress d slots.length acc.2 (slots.foldl (d.scanEntry parentName inherit sector) acc).2 := by
  induction slots generalizing acc with
  | nil => exact Progress.refl d acc.2
  | cons i slots ih =>
    have hstep := (progress_scanEntry d parentName inherit sector acc i).trans
      (ih (d.scanEntry parentName inherit sector acc i))
    rw [length_cons,Nat.add_comm]
    exact hstep

theorem progress_partitionScan (t : Scan) : ∃ mbr : List ℕ, (mbr = [] ∨ mbr = [0]) ∧
      Progress d mbrEntries { t with reads := t.reads ++ mbr }
        (d.partitionScan parentName inherit t).2 := by
  unfold Disk.partitionScan
  rcases blockRead_cases d 0 t with hread | ⟨_,hread⟩
  · rw [hread]
    refine ⟨[],.inl rfl,?_⟩
    rw [append_nil]
    exact (Progress.refl d t).mono (by decide)
  rw [hread]
  refine ⟨[0],.inr rfl,?_⟩
  have hstop := (Progress.refl d { t with reads := t.reads ++ [0] }).mono
    (show 0 ≤ mbrEntries by decide)
  cases d.answer t.reads 0 with
  | none => exact hstop
  | some sector =>
    dsimp only
    split_ifs
    · exact hstop
    · exact hstop
    · have hloop := progress_scanEntries d parentName inherit sector (range mbrEntries)
        (0, { t with reads := t.reads ++ [0] })
      rwa [length_range] at hloop

end

/-- An accepted request stays within its slice. The sum of the slice's start and the address
does not wrap, because the slice lies on its parent. -/
theorem Slice.request_within (s : Slice) {write : Bool} {lba : U64} {count : U32} {r : ℕ × ℕ}
    (h : s.request write lba count = some r) :
    s.first ≤ r.1 ∧ r.1 + r.2 ≤ s.first + s.device.sectors := by
  obtain ⟨hslice,h⟩ := Option.ite_none_right_eq_some.mp h
  obtain ⟨_,h⟩ := Option.ite_none_right_eq_some.mp h
  have hvalid := of_decide_eq_true hslice.1
  have hinside := s.inside
  have hfits := s.parent.fits
  cases h
  omega

/-- However hostile the disk, a scan follows the chain of each extended entry forward inside the
disk and over a bounded number of links, publishes only slices that lie on the disk, and what is
later read or written through one of them lies in it. -/
theorem partitionScan_confined (d : Disk) (parentName : List Char) (inherit : U32) (t : Scan) :
    ∃ (mbr : List ℕ) (chains : List (List ℕ)) (new : List Slice),
      (d.partitionScan parentName inherit t).2.reads = t.reads ++ mbr ++ chains.flatten ∧
      (d.partitionScan parentName inherit t).2.slices = t.slices ++ new ∧
      (mbr = [] ∨ mbr = [0]) ∧ chains.length ≤ mbrEntries ∧
      (∀ chain ∈ chains, chain.Pairwise (· < ·) ∧ (∀ n ∈ chain, n < d.sectors) ∧
        chain.length ≤ ebrMaxLinks) ∧
      ∀ s ∈ new, s.parent = d.toBlockDevice ∧ s.first + s.device.sectors ≤ d.sectors ∧
        ∀ (write : Bool) (lba : U64) (count : U32) (r : ℕ × ℕ),
          s.request write lba count = some r →
            s.first ≤ r.1 ∧ r.1 + r.2 ≤ s.first + s.device.sectors := by
  obtain ⟨mbr,hmbr,hprogress⟩ := progress_partitionScan d parentName inherit t
  obtain ⟨chains,hlen,hchains,hreads⟩ := hprogress.reads
  obtain ⟨new,hnew,hslices⟩ := hprogress.slices
  refine ⟨mbr,chains,new,hreads,hslices,hmbr,hlen,?_,?_⟩
  · intro chain hc
    exact ⟨(hchains chain hc).forward,(hchains chain hc).inside,(hchains chain hc).bounded⟩
  · intro s hs
    have hparent := hnew s hs
    have hinside := s.inside
    rw [hparent] at hinside
    refine ⟨hparent,by omega,?_⟩
    intro write lba count r hr
    exact s.request_within hr

def signedSector (bytes : List (ℕ × Byte)) : Sector := fun i =>
  if i = 510 then 0x55#8 else if i = 511 then 0xAA#8
  else ((bytes.find? fun b => b.1 == i).map Prod.snd).getD 0#8

def smallDisk (table : List (ℕ × Byte)) : Disk where
  sectors := 16
  readable := true
  writable := true
  flushable := true
  fits := by decide
  answer _ lba :=
    if lba = 0 then some (signedSector table) else if lba = 1 then some (signedSector []) else none

def nothingPublished : Scan := ⟨[],[],[]⟩

/-- An extended partition of 12 sectors from sector 1 on: its boot record has a partition of two
sectors and leads to the record in sector 5, which has one of three. -/
def chainDisk : Disk where
  sectors := 16
  readable := true
  writable := true
  flushable := true
  fits := by decide
  answer _ lba :=
    if lba = 0 then some (signedSector [(450, 0x05#8), (454, 1#8), (458, 12#8)])
    else if lba = 1 then
      some (signedSector [(450, 0x83#8), (454, 1#8), (458, 2#8), (466, 0x05#8), (470, 4#8),
        (474, 4#8)])
    else if lba = 5 then some (signedSector [(450, 0x83#8), (454, 1#8), (458, 3#8)])
    else none

def chainScan : Scan := (chainDisk.partitionScan "ahci0".toList 0#32 nothingPublished).2

theorem partitionScan_confined_chain :
    chainScan.reads = [0, 1, 5] ∧
      chainScan.slices.map (fun s => (s.first, s.device.sectors)) = [(2, 2), (6, 3)] ∧
      ∀ s ∈ chainScan.slices, s.request true 1#64 1#32 = some (s.first + 1, 1) ∧
        s.first + 1 + 1 ≤ s.first + s.device.sectors := by
  have hreq : ∀ s ∈ chainScan.slices, s.request true 1#64 1#32 = some (s.first + 1, 1) := by
    decide +kernel
  obtain ⟨_,_,new,_,hslices,_,_,_,hconfined⟩ :=
    partitionScan_confined chainDisk "ahci0".toList 0#32 nothingPublished
  refine ⟨by decide +kernel,by decide +kernel,?_⟩
  intro s hs
  have heq : chainScan.slices = new := hslices
  have hnew : s ∈ new := heq ▸ hs
  exact ⟨hreq s hs,((hconfined s hnew).2.2 true 1#64 1#32 _ (hreq s hs)).2⟩

/-- A table with two extended entries at the same sector: its extended boot record is read once
for each. -/
theorem twoExtended_reads_again :
    ¬ (((smallDisk [(450, 0x05#8), (454, 1#8), (458, 4#8), (466, 0x05#8), (470, 1#8),
      (474, 4#8)]).partitionScan "ahci0".toList 0#32 nothingPublished).2.reads.drop 1).Pairwise
        (· < ·) := by
  decide +kernel

end GaiaKernel.Partition
