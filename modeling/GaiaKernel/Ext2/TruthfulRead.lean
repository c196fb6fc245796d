import GaiaKernel.Ext2.Fetch
import GaiaKernel.Ext2.Recovery

/-! # What a file read reports

`ext2_file_read` against the bytes of the file, on a device that may fail any page.
`ext2_inode_block` and `ext2_block` answer a block that is not there and one that could not be read
with the same null, and the read reports zeros for both. What it needs are the pages of the data
blocks and of the pointer blocks on the way to them.
-/
namespace GaiaKernel.Ext2
open Bytes Fallible Prog Contract List Nat Whenever Option

/-! ### The bytes of a file

The walk of `ext2_inode_block` over the contents `w` of a volume with blocks of `bs` bytes and
`size` bytes in all, where every block can be read.
-/

section
variable (w : ℕ → Byte) (bs size : ℕ)

def blockHeld (number : ℕ) : Option ℕ :=
  if number = 0 ∨ leNat w (extSuperblockOffset + 4) 4 ≤ number ∨ size < number * bs + bs then none
  else some (number * bs)

def pointerHeld (ppb : ℕ) : ℕ → ℕ → ℕ → ℕ
  | 0, pointer, _ => leNat w pointer 4
  | level + 1, pointer, index =>
    match blockHeld w bs size (leNat w pointer 4) with
    | none => 0
    | some entries => pointerHeld ppb level (entries + 4 * (index / ppb ^ level)) (index % ppb ^ level)

def inodeBlockHeld (inode logical : ℕ) : ℕ :=
  let ppb := bs / 4
  let index := logical - ext2NdirBlocks
  if logical < ext2NdirBlocks then leNat w (inode + 40 + 4 * logical) 4
  else if index < ppb then pointerHeld w bs size ppb 1 (inode + 40 + 4 * 12) index
  else if index - ppb < ppb ^ 2 then
    pointerHeld w bs size ppb 2 (inode + 40 + 4 * 13) (index - ppb)
  else if index - ppb - ppb ^ 2 < ppb ^ 3 then
    pointerHeld w bs size ppb 3 (inode + 40 + 4 * 14) (index - ppb - ppb ^ 2)
  else 0

def locatedHeld (inode logical : ℕ) : Option ℕ :=
  blockHeld w bs size (inodeBlockHeld w bs size inode logical)

def byteHeld (inode position : ℕ) : Byte :=
  match locatedHeld w bs size inode (position / bs) with
  | none => 0#8
  | some block => w (block + position % bs)

/-! The pages of the blocks that these walks go through. -/

def blockPages : Option ℕ → Finset ℕ
  | none => ∅
  | some block => pagesAt block bs

def pointerPages (ppb : ℕ) : ℕ → ℕ → ℕ → Finset ℕ
  | 0, _, _ => ∅
  | level + 1, pointer, index =>
    let block := blockHeld w bs size (leNat w pointer 4)
    blockPages bs block ∪
      match block with
      | none => ∅
      | some entries =>
        pointerPages ppb level (entries + 4 * (index / ppb ^ level)) (index % ppb ^ level)

def inodeBlockPages (inode logical : ℕ) : Finset ℕ :=
  let ppb := bs / 4
  let index := logical - ext2NdirBlocks
  if logical < ext2NdirBlocks then ∅
  else if index < ppb then pointerPages w bs size ppb 1 (inode + 40 + 4 * 12) index
  else if index - ppb < ppb ^ 2 then
    pointerPages w bs size ppb 2 (inode + 40 + 4 * 13) (index - ppb)
  else if index - ppb - ppb ^ 2 < ppb ^ 3 then
    pointerPages w bs size ppb 3 (inode + 40 + 4 * 14) (index - ppb - ppb ^ 2)
  else ∅

def locatedPages (inode logical : ℕ) : Finset ℕ :=
  inodeBlockPages w bs size inode logical ∪ blockPages bs (locatedHeld w bs size inode logical)

/-- The pages on the way to `remaining` bytes of a file. -/
def pagesNeeded (inode position remaining : ℕ) : Finset ℕ :=
  if remaining = 0 then ∅
  else (Finset.Icc (position / bs) ((position + remaining - 1) / bs)).biUnion
    (locatedPages w bs size inode)

end

def Volume.fileByte (v : Volume) (inode position : ℕ) : Byte :=
  byteHeld v.whole v.blockSize v.imageSize inode position

/-- The pages `ext2_file_read` needs, given what the volume holds. -/
def Volume.readPages (v : Volume) (inode position length : ℕ) : Finset ℕ :=
  pagesNeeded v.whole v.blockSize v.imageSize inode position
    (min length (leNat v.image (inode + 4) 4 - position))

variable {inode position : ℕ} {v v' : Volume}

theorem Reads.fileByte (h : Reads v v') (inode position : ℕ) :
    v'.fileByte inode position = v.fileByte inode position := by
  unfold Volume.fileByte
  rw [h.whole,h.blockSize,h.fields]

/-! ### Finding a block -/

def Volume.CountLoaded (v : Volume) : Prop :=
  ∀ i, extSuperblockOffset + 4 ≤ i → i < extSuperblockOffset + 8 → v.Loaded i

theorem Reads.countLoaded (h : Reads v v') (hc : v.CountLoaded) : v'.CountLoaded :=
  fun i hi hi' => h.loaded i (hc i hi hi')

theorem leNat_image {off k : ℕ} (h : ∀ i, off ≤ i → i < off + k → v.Loaded i) :
    leNat v.image off k = leNat v.whole off k :=
  leNat_congr fun i hi hi' => (Volume.whole_of_loaded (h i hi hi')).symm

theorem whenever_load (v : Volume) (off k : ℕ) :
    Whenever (load off k) v fun x v' => v' = v ∧ x = leNat v.image off k :=
  look (whenever_pure ⟨rfl,rfl⟩)

theorem fetches_block (hv : v.CountLoaded) (number : ℕ) : Whenever (ext2Block number) v
    (Fetches v (blockPages v.blockSize (blockHeld v.whole v.blockSize v.imageSize number))
      (blockHeld v.whole v.blockSize v.imageSize number) none) := by
  have hbs := blockSize_ge v
  unfold blockHeld
  refine ite (fun hzero => ?_) fun hzero => ?_
  · rw [if_pos (.inl hzero)]
    exact whenever_pure fetches_nothing
  refine (whenever_load v (extSuperblockOffset + 4) 4).bind ?_
  rintro count v1 ⟨hv1,rfl⟩
  rw [hv1,leNat_image fun i hi hi' => hv i hi (by omega)]
  refine ite (fun hcount => ?_) fun hcount => ?_
  · rw [if_pos (.inr (.inl hcount))]
    exact whenever_pure fetches_nothing
  refine look ?_
  by_cases hsize : v.imageSize < number * v.blockSize + v.blockSize
  · rw [if_pos (.inr (.inr hsize))]
    refine look ?_
    rw [if_pos (by omega)]
    exact whenever_pure fetches_nothing
  · rw [if_neg (by omega)]
    exact fetches_bytes (by omega) (by omega)

theorem whenever_pointer {pointer : ℕ} (hp : ∀ i, pointer ≤ i → i < pointer + 4 → v.Loaded i) :
    Whenever (ensurePointerBlock inode pointer false) v fun n v' =>
      v' = v ∧ n = leNat v.whole pointer 4 := by
  refine (whenever_load v pointer 4).bind ?_
  rintro number v1 ⟨hv1,rfl⟩
  rw [hv1,leNat_image hp]
  refine ite ?_ ?_
  · exact fun _ => whenever_pure ⟨rfl,rfl⟩
  · exact fun hn => whenever_pure ⟨rfl,(not_not.mp hn).symm⟩

theorem fetches_indirect (hv : v.CountLoaded) {level pointer index : ℕ}
    (hp : ∀ i, pointer ≤ i → i < pointer + 4 → v.Loaded i)
    (hindex : index < (v.blockSize / 4) ^ level) :
    Whenever (indirectBlock inode false (v.blockSize / 4) level pointer index) v
      (Fetches v (pointerPages v.whole v.blockSize v.imageSize (v.blockSize / 4) level pointer index)
        (pointerHeld v.whole v.blockSize v.imageSize (v.blockSize / 4) level pointer index) 0) := by
  induction level generalizing v pointer index with
  | zero =>
    refine (whenever_pointer hp).mono ?_
    rintro n _ ⟨rfl,rfl⟩
    exact fetches_nothing
  | succ level ih =>
    refine (whenever_pointer hp).bind ?_
    rintro number v1 ⟨hv1,rfl⟩
    rw [hv1]
    unfold pointerPages pointerHeld
    refine Fetches.bind (safe_block _) (fetches_block hv _) (fun v' hreads hfetched => ?_)
      fun v' => whenever_pure rfl
    cases hheld : blockHeld v.whole v.blockSize v.imageSize (leNat v.whole pointer 4) with
    | none => exact whenever_pure fetches_nothing
    | some entries =>
      rw [hheld] at hfetched
      have hslot : index / (v.blockSize / 4) ^ level < v.blockSize / 4 := by
        apply Nat.div_lt_of_lt_mul
        rwa [pow_succ] at hindex
      have hrest : index % (v.blockSize / 4) ^ level < (v.blockSize / 4) ^ level := by
        apply mod_lt
        exact Nat.pow_pos (zero_lt_of_lt hslot)
      have hentry : ∀ i, entries + 4 * (index / (v.blockSize / 4) ^ level) ≤ i →
          i < entries + 4 * (index / (v.blockSize / 4) ^ level) + 4 → v'.Loaded i :=
        fun i hi hi' => hfetched.loaded (mem_pagesAt (by omega) (by omega))
      rw [← hreads.blockSize] at hrest
      have hwalk := ih (hreads.countLoaded hv) hentry hrest
      rw [hreads.whole,hreads.blockSize,hreads.fields] at hwalk
      exact hwalk

/-- The block pointers of an inode are in memory, as they are for every file that is open. -/
def Volume.InodeLoaded (v : Volume) (inode : ℕ) : Prop :=
  ∀ i, inode + 40 ≤ i → i < inode + 100 → v.Loaded i

theorem Reads.inodeLoaded (h : Reads v v') (hi : v.InodeLoaded inode) :
    v'.InodeLoaded inode := fun i h1 h2 => h.loaded i (hi i h1 h2)

theorem fetches_inodeBlock (hv : v.CountLoaded) (hinode : v.InodeLoaded inode) (logical : ℕ) :
    Whenever (ext2InodeBlock inode logical false) v
      (Fetches v (inodeBlockPages v.whole v.blockSize v.imageSize inode logical)
        (inodeBlockHeld v.whole v.blockSize v.imageSize inode logical) 0) := by
  refine look ?_
  unfold inodeBlockHeld inodeBlockPages
  have hpointer : ∀ k < 15, ∀ i, inode + 40 + 4 * k ≤ i → i < inode + 40 + 4 * k + 4 → v.Loaded i :=
    fun k hk i hi hi' => hinode i (by omega) (by omega)
  by_cases h0 : logical < ext2NdirBlocks
  · simp only [if_pos h0]
    refine (whenever_pointer (hpointer logical ?_)).mono ?_
    · unfold ext2NdirBlocks at h0
      omega
    · rintro n _ ⟨rfl,rfl⟩
      exact fetches_nothing
  simp only [if_neg h0]
  by_cases h1 : logical - ext2NdirBlocks < v.blockSize / 4
  · simp only [if_pos h1]
    exact fetches_indirect hv (hpointer 12 (by decide)) (by rwa [pow_one])
  simp only [if_neg h1]
  by_cases h2 : logical - ext2NdirBlocks - v.blockSize / 4 < (v.blockSize / 4) ^ 2
  · simp only [if_pos h2]
    exact fetches_indirect hv (hpointer 13 (by decide)) h2
  simp only [if_neg h2]
  by_cases h3 : logical - ext2NdirBlocks - v.blockSize / 4 - (v.blockSize / 4) ^ 2 <
      (v.blockSize / 4) ^ 3
  · simp only [if_pos h3]
    exact fetches_indirect hv (hpointer 14 (by decide)) h3
  simp only [if_neg h3]
  exact whenever_pure fetches_nothing

/-! ### The rounds of a read -/

/-- One round of `ext2_file_read` finds the block of the position, or none. -/
def locate (inode logical : ℕ) : M (Option ℕ) := do
  let number ← ext2InodeBlock inode logical false
  ext2Block number

theorem fetches_locate (hv : v.CountLoaded) (hinode : v.InodeLoaded inode) (logical : ℕ) :
    Whenever (locate inode logical) v
      (Fetches v (locatedPages v.whole v.blockSize v.imageSize inode logical)
        (locatedHeld v.whole v.blockSize v.imageSize inode logical) none) := by
  refine Fetches.bind (safe_inodeBlock inode logical) (fetches_inodeBlock hv hinode logical)
    (fun v' hreads _ => ?_) fun v' => ?_
  · have hblock := fetches_block (hreads.countLoaded hv)
      (inodeBlockHeld v.whole v.blockSize v.imageSize inode logical)
    rw [hreads.whole,hreads.blockSize,hreads.fields] at hblock
    exact hblock
  · exact whenever_pure rfl

def Truthful (v : Volume) (inode position : ℕ) (bytes : List Byte) : Prop :=
  ∀ k b, bytes[k]? = some b → b = v.fileByte inode (position + k)

theorem truthful_append {c rest : List Byte} : Truthful v inode position (c ++ rest) ↔
      Truthful v inode position c ∧ Truthful v inode (position + c.length) rest := by
  constructor
  · intro h
    refine ⟨fun k b hk => h k b ?_,fun k b hk => ?_⟩
    · rw [List.getElem?_append_left (List.getElem?_eq_some_iff.mp hk).1]
      exact hk
    · rw [Nat.add_assoc]
      apply h
      rw [getElem?_append_right (Nat.le_add_right _ _),Nat.add_sub_cancel_left]
      exact hk
  · rintro ⟨h1,h2⟩ k b hk
    by_cases hlt : k < c.length
    · rw [getElem?_append_left hlt] at hk
      exact h1 k b hk
    · rw [getElem?_append_right (Nat.le_of_not_lt hlt)] at hk
      have := h2 (k - c.length) b hk
      rwa [Nat.add_assoc,Nat.add_sub_cancel' (Nat.le_of_not_lt hlt)] at this

theorem Reads.truthful (h : Reads v v') (inode position : ℕ) (bytes : List Byte) :
    Truthful v' inode position bytes ↔ Truthful v inode position bytes := by
  unfold Truthful
  simp only [h.fileByte]

theorem fileByte_in_block {k : ℕ}
    (hk : position % v.blockSize + k < v.blockSize) :
    v.fileByte inode (position + k) =
      match locatedHeld v.whole v.blockSize v.imageSize inode (position / v.blockSize) with
      | none => 0#8
      | some block => v.whole (block + (position % v.blockSize + k)) := by
  have hsplit := div_add_mod position v.blockSize
  have hpos : 0 < v.blockSize := by omega
  have hsum : position + k = position % v.blockSize + k + v.blockSize * (position / v.blockSize) := by
    omega
  have hdiv : (position + k) / v.blockSize = position / v.blockSize := by
    rw [hsum,add_mul_div_left _ _ hpos,div_eq_of_lt hk,Nat.zero_add]
  have hmod : (position + k) % v.blockSize = position % v.blockSize + k := by
    rw [hsum,add_mul_mod_self_left,mod_eq_of_lt hk]
  unfold Volume.fileByte byteHeld
  rw [hdiv,hmod]

theorem readChunk_truthful {chunk : ℕ} {block : Option ℕ} (hreads : Reads v v')
    (hchunk : position % v.blockSize + chunk ≤ v.blockSize)
    (hheld : block = locatedHeld v.whole v.blockSize v.imageSize inode (position / v.blockSize))
    (hloaded : ∀ b, block = some b → ∀ i, b ≤ i → i < b + v.blockSize → v'.Loaded i) :
    ∃ bytes, Yields (readChunk block (position % v.blockSize) chunk) v' bytes v' ∧
      bytes.length = chunk ∧ Truthful v inode position bytes := by
  cases block with
  | none =>
    refine ⟨replicate chunk 0#8,⟨rfl,rfl⟩,length_replicate,fun k b hk => ?_⟩
    simp only [getElem?_replicate,ite_none_right_eq_some,some.injEq] at hk
    rw [fileByte_in_block (by omega),← hheld,← hk.2]
  | some b =>
    have hloaded := hloaded b rfl
    refine ⟨slice v'.image (b + position % v.blockSize) chunk,⟨rfl,rfl⟩,length_slice _ _ _,
      fun k x hk => ?_⟩
    simp only [slice,getElem?_map,map_eq_some_iff,getElem?_eq_some_iff,
      length_range,getElem_range] at hk
    obtain ⟨_,⟨hlt,rfl⟩,rfl⟩ := hk
    rw [fileByte_in_block (by omega),← hheld,← hreads.whole]
    dsimp only
    rw [Volume.whole_of_loaded (hloaded _ (by omega) (by omega)),Nat.add_assoc]

/-- A round needs the pages on the way to its block, and leaves those of the blocks behind it. -/
theorem pagesNeeded_round (w : ℕ → Byte) {bs remaining chunk : ℕ} (size : ℕ) (hbs : 0 < bs)
    (hremaining : 0 < remaining) (hchunk : min (bs - position % bs) remaining = chunk) :
    pagesNeeded w bs size inode position remaining = locatedPages w bs size inode (position / bs) ∪
      pagesNeeded w bs size inode (position + chunk) (remaining - chunk) := by
  have hmod := mod_lt position hbs
  have hsplit := div_add_mod position bs
  unfold pagesNeeded
  rw [if_neg (by omega)]
  by_cases hlast : remaining ≤ bs - position % bs
  · obtain rfl : remaining = chunk := by omega
    have hend : (position + remaining - 1) / bs = position / bs := by
      rw [show position + remaining - 1 = position % bs + remaining - 1 + bs * (position / bs) by omega,
        add_mul_div_left _ _ hbs,div_eq_of_lt (by omega),Nat.zero_add]
    rw [hend,Finset.Icc_self,Finset.singleton_biUnion,if_pos (by omega),Finset.union_empty]
  · have hnext : (position + chunk) / bs = position / bs + 1 := by
      rw [show position + chunk = bs * (position / bs + 1) by rw [Nat.mul_add]; omega,
        mul_div_cancel_left₀ _ (by omega)]
    have hle : position / bs ≤ (position + remaining - 1) / bs := Nat.div_le_div_right (by omega)
    rw [if_neg (by omega),hnext,show position + chunk + (remaining - chunk) - 1 =
      position + remaining - 1 by omega]
    ext p
    simp only [Finset.mem_biUnion,Finset.mem_Icc,Finset.mem_union]
    constructor
    · rintro ⟨l,hl,hp⟩
      by_cases hfirst : l = position / bs
      · exact .inl (hfirst ▸ hp)
      · exact .inr ⟨l,by omega,hp⟩
    · rintro (hp | ⟨l,hl,hp⟩)
      · exact ⟨_,⟨le_rfl,hle⟩,hp⟩
      · exact ⟨l,by omega,hp⟩

/-- The loop reports the bytes of the file if the device answers for all pages it needs; if none of
these bytes is zero, only then. -/
theorem fileReadLoop_truthful (hv : v.CountLoaded)
    (hinode : v.InodeLoaded inode) (position : ℕ) {fuel remaining : ℕ} (hfuel : remaining ≤ fuel) :
    ∃ bytes v', Yields (fileReadLoop inode fuel position remaining) v
        (bytes, position + bytes.length) v' ∧ bytes.length = remaining ∧
      (v.Answered (pagesNeeded v.whole v.blockSize v.imageSize inode position remaining) →
        Truthful v inode position bytes) ∧
      ((∀ k < remaining, v.fileByte inode (position + k) ≠ 0#8) → Truthful v inode position bytes →
        v.Answered (pagesNeeded v.whole v.blockSize v.imageSize inode position remaining)) := by
  induction fuel generalizing v position remaining with
  | zero =>
    obtain rfl : remaining = 0 := by omega
    refine ⟨[],v,⟨rfl,rfl⟩,rfl,fun _ => by simp [Truthful],fun _ _ => ?_⟩
    rw [pagesNeeded,if_pos rfl]
    exact answered_empty v
  | succ fuel ih =>
    by_cases hzero : remaining = 0
    · subst hzero
      refine ⟨[],v,⟨rfl,rfl⟩,rfl,fun _ => by simp [Truthful],fun _ _ => ?_⟩
      rw [pagesNeeded,if_pos rfl]
      exact answered_empty v
    have hbs := blockSize_ge v
    have hoff := mod_lt position (show 0 < v.blockSize by omega)
    -- One round: the number, the block, the bytes.
    obtain ⟨number,v1,hnumber,hreads1⟩ :=
      yields_of_reading (v := v) (safe_inodeBlock inode (position / v.blockSize))
    obtain ⟨block,v2,hfound,hreads2⟩ := yields_of_reading (v := v1) (safe_block number)
    have hlocate : Yields (locate inode (position / v.blockSize)) v block v2 := hnumber.bind hfound
    have hreads := hreads1.trans hreads2
    have hblock := fetches_locate hv hinode (position / v.blockSize) block hlocate.1
    rw [hlocate.2] at hblock
    generalize hchunk : min (v.blockSize - position % v.blockSize) remaining = chunk
    rw [pagesNeeded_round v.whole v.imageSize (by omega) (by omega) hchunk]
    have hfits : position % v.blockSize + chunk ≤ v.blockSize := by omega
    have hfuel' : remaining - chunk ≤ fuel := by omega
    obtain ⟨rest,v3,hrest,hrestLength,hrestTruth,hrestAnswered⟩ :=
      ih (hreads.countLoaded hv) (hreads.inodeLoaded hinode) (position + chunk) hfuel'
    rw [hreads.whole,hreads.blockSize,hreads.fields,hreads.truthful] at hrestTruth hrestAnswered
    have hyields {bytes : List Byte}
        (hbytes : Yields (readChunk block (position % v.blockSize) chunk) v2 bytes v2) :
        Yields (fileReadLoop inode (fuel + 1) position remaining) v
          (bytes ++ rest, position + (bytes ++ rest).length) v3 := by
      have hend : position + chunk + rest.length = position + (bytes ++ rest).length := by
        rw [length_append,readChunk_length _ hbytes.1,Nat.add_assoc]
      unfold fileReadLoop
      simp only [if_neg hzero]
      rw [← hend]
      rw [← hchunk] at hbytes hrest ⊢
      exact Yields.look.bind (hnumber.bind (hfound.bind (hbytes.bind (hrest.bind ⟨rfl,rfl⟩))))
    by_cases hS : v.Answered (locatedPages v.whole v.blockSize v.imageSize inode
        (position / v.blockSize))
    · obtain ⟨hheld,hfetched⟩ := hblock.answered hS
      have hloaded : ∀ b, block = some b → ∀ i, b ≤ i → i < b + v.blockSize → v2.Loaded i := by
        rintro b rfl i hi hi'
        refine hfetched.loaded (Finset.mem_union_right _ ?_)
        rw [← hheld]
        exact mem_pagesAt hi hi'
      obtain ⟨bytes,hbytes,hlength,htruth⟩ := readChunk_truthful hreads hfits hheld hloaded
      refine ⟨bytes ++ rest,v3,hyields hbytes,?_,fun hall => ?_,fun hnonzero hall => ?_⟩
      · rw [length_append,hlength,hrestLength]
        omega
      · rw [truthful_append,hlength]
        exact ⟨htruth,hrestTruth ((answered_union hfetched).mp hall).2⟩
      · rw [truthful_append,hlength] at hall
        refine (answered_union hfetched).mpr ⟨hS,hrestAnswered (fun k hk => ?_) hall.2⟩
        rw [hreads.fileByte,Nat.add_assoc]
        exact hnonzero _ (by omega)
    · -- The block is taken for a hole, and the round reports zeros.
      obtain rfl := hblock.refused hS
      refine ⟨replicate chunk 0#8 ++ rest,v3,hyields ⟨rfl,rfl⟩,?_,fun hall => ?_,fun hnonzero hall => ?_⟩
      · rw [length_append,length_replicate,hrestLength]
        omega
      · exact absurd (hall.mono Finset.subset_union_left) hS
      · refine absurd (hall 0 0#8 ?_) (hnonzero 0 (by omega)).symm
        rw [getElem?_append_left (by rw [length_replicate]; omega),getElem?_replicate,if_pos (by omega)]

theorem fileRead_yields (hcount : v.CountLoaded) (hinode : v.InodeLoaded inode)
    (position length : ℕ) : ∃ bytes v', Yields (ext2FileRead inode position length) v (bytes, position + bytes.length) v' ∧
      bytes.length = min length (leNat v.image (inode + 4) 4 - position) ∧
      (v.Answered (v.readPages inode position length) → Truthful v inode position bytes) ∧
      ((∀ k < bytes.length, v.fileByte inode (position + k) ≠ 0#8) →
        Truthful v inode position bytes → v.Answered (v.readPages inode position length)) := by
  have hsize : Yields (inodeField inode 4 4) v (leNat v.image (inode + 4) 4) v := ⟨rfl,rfl⟩
  unfold ext2FileRead Volume.readPages
  generalize leNat v.image (inode + 4) 4 = size at hsize
  by_cases hend : size ≤ position
  · refine ⟨[],v,hsize.bind ?_,?_,fun _ => by simp [Truthful],fun _ _ => ?_⟩
    · rw [if_pos hend]
      exact ⟨rfl,rfl⟩
    · rw [length_nil]
      omega
    · rw [pagesNeeded,if_pos (by omega)]
      exact answered_empty v
  · obtain ⟨bytes,v',hloop,hlength,htruth,hanswered⟩ := fileReadLoop_truthful hcount hinode
      position (le_refl (min length (size - position)))
    refine ⟨bytes,v',hsize.bind ?_,hlength,htruth,?_⟩
    · rw [if_neg hend]
      exact hloop
    · rw [hlength]
      exact hanswered

/-- The device of `flakySession`, if it is the fourth request that it fails. -/
def lateSession : Session :=
  (mountRoot (fun _ => 0#8) 9216 (some { flakyDevice with answers := fun n => n != 3 }) true true).getD
    ⟨rawVolume (fun _ => 0#8) 9216 none,[]⟩

theorem lateSession_mounted : mountRoot (fun _ => 0#8) 9216
    (some { flakyDevice with answers := fun n => n != 3 }) true true = some lateSession := by
  obtain ⟨m,hm⟩ := isSome_iff_exists.mp (show (mountRoot (fun _ => 0#8) 9216
    (some { flakyDevice with answers := fun n => n != 3 }) true true).isSome by decide +kernel)
  rw [lateSession,hm,getD_some]

end GaiaKernel.Ext2
