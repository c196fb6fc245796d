import GaiaKernel.Memory.Heap
import GaiaKernel.Lib.Trace

/-! # The heap stays tiled

`Rep` ties the words of memory to the list of blocks they describe; `Intact` is the heap's
invariant. Each edit of the list (cutting a block, writing its flag, folding two free neighbours,
adding grown pages) is one use of `Rep.edit`, which also says that live blocks outside the edit keep
their bytes.
-/
namespace GaiaKernel.Heap
open BlockList Trace Function List Heap
variable {xs ys : List Blk}

structure Rep (h : Heap) (bs : List Blk) : Prop where
  nonempty : bs ≠ []
  seg : Seg h.mem 0 heapBase bs 0
  head : h.head = heapBase
  tail : h.tail = lastOf 0 heapBase bs
  stop : h.heapEnd = endOf heapBase bs

def Apart (x y : Blk) : Prop := ¬ (x.free = true ∧ y.free = true)

/-- Payload sizes keep the alignment, and no two neighbours are both free. -/
structure Tidy (bs : List Blk) : Prop where
  aligned : ∀ b ∈ bs, b.size % 16 = 0
  merged : bs.IsChain Apart

theorem Tidy.replace {mid mid' : List Blk} (ht : Tidy (xs ++ mid ++ ys)) (hne : mid' ≠ [])
    (haligned : ∀ b ∈ mid', b.size % 16 = 0) (hmerged : mid'.IsChain Apart)
    (hleft : ∀ z ∈ xs.getLast?, ∀ w ∈ mid'.head?, Apart z w)
    (hright : ∀ z ∈ mid'.getLast?, ∀ w ∈ ys.head?, Apart z w) : Tidy (xs ++ mid' ++ ys) where
  aligned b hb := by
    simp only [mem_append] at hb
    rcases hb with (hb | hb) | hb
    · exact ht.aligned b (by simp [hb])
    · exact haligned b hb
    · exact ht.aligned b (by simp [hb])
  merged := by
    have hold := ht.merged
    rw [isChain_append,isChain_append] at hold ⊢
    refine ⟨⟨hold.1.1,hmerged,hleft⟩,hold.2.1,?_⟩
    rwa [getLast?_append_of_ne_nil _ hne]

theorem Tidy.left {mid : List Blk} (ht : Tidy (xs ++ mid ++ ys)) :
    ∀ z ∈ xs.getLast?, ∀ w ∈ mid.head?, Apart z w :=
  (isChain_append.mp (isChain_append.mp ht.merged).1).2.2

theorem Tidy.right {x : Blk} (ht : Tidy (xs ++ [x] ++ ys)) :
    ∀ z ∈ [x].getLast?, ∀ w ∈ ys.head?, Apart z w := by
  have hold := (isChain_append.mp ht.merged).2.2
  rwa [getLast?_append_of_ne_nil _ (by simp)] at hold

/-- The heap's invariant. The last part bounds the addresses: the heap can never outgrow the
frames of the machine. -/
def Intact (h : Heap) : Prop :=
  (∃ bs, Rep h bs ∧ Tidy bs) ∧ h.heapEnd + 4096 * h.frames ≤ heapBase + 2 ^ 39

def Live (h : Heap) (b n : ℕ) : Prop := ∃ bs, Rep h bs ∧ Located heapBase bs b ⟨n,false⟩

/-- Every live block but the one at `gone` is still live, with the same bytes. -/
def Keeps (h h' : Heap) (gone : ℕ) : Prop :=
  ∀ b n, Live h b n → b ≠ gone →
    Live h' b n ∧ ∀ k, b + 32 ≤ k → k < b + 32 + n → h'.mem k = h.mem k

variable {h h' : Heap} {bs xs ys mid mid' : List Blk}

theorem Rep.unique (hr : Rep h bs) (hr' : Rep h xs) : bs = xs :=
  hr.seg.unique hr'.seg hr.nonempty hr'.nonempty

theorem Keeps.refl (h : Heap) (gone : ℕ) : Keeps h h gone := fun _ _ hb _ => ⟨hb,fun _ _ _ => rfl⟩

theorem Keeps.trans {h'' : Heap} {gone : ℕ} (h1 : Keeps h h' gone) (h2 : Keeps h' h'' gone) :
    Keeps h h'' gone := by
  intro b n hb hne
  obtain ⟨hb',hsame⟩ := h1 b n hb hne
  obtain ⟨hb'',hsame'⟩ := h2 b n hb' hne
  exact ⟨hb'',fun k h1 h2 => (hsame' k h1 h2).trans (hsame k h1 h2)⟩

/-- The edit rule: new blocks in the place of `mid`. Live blocks outside them are kept; a live
block among those replaced is the one at `gone`, or it is kept by the new blocks. -/
theorem Rep.edit (h' : Heap) (mid' : List Blk) {s t : ℕ} (hr : Rep h (xs ++ mid ++ ys))
    (hs : s = endOf heapBase xs) (ht : t = endOf s mid) (hold : mid ≠ []) (hnew : mid' ≠ [])
    (hsame : SameOutside h.mem h'.mem s t (endOf t ys))
    (hmid : Seg h'.mem (lastOf 0 heapBase xs) s mid' (linkOf t 0 ys))
    (hfill : ys = [] ∨ endOf s mid' = t)
    (hback : ys ≠ [] → h'.mem (t + 24) = lastOf (lastOf 0 heapBase xs) s mid')
    (hhead : h'.head = h.head) (htail : h'.tail = lastOf 0 heapBase (xs ++ mid' ++ ys))
    (hstop : h'.heapEnd = endOf heapBase (xs ++ mid' ++ ys)) : Rep h' (xs ++ mid' ++ ys) ∧
      ∀ gone, (∀ b n, Located s mid b ⟨n,false⟩ → b ≠ gone → Located s mid' b ⟨n,false⟩ ∧
        ∀ k, b + 32 ≤ k → k < b + 32 + n → h'.mem k = h.mem k) → Keeps h h' gone := by
  have hr' : Rep h' (xs ++ mid' ++ ys) :=
    ⟨by simp [hnew],hr.seg.splice hs ht hold hnew hsame hmid hfill hback,hhead.trans hr.head,
      htail,hstop⟩
  refine ⟨hr',fun gone hgone b n hb hne => ?_⟩
  subst hs ht
  obtain ⟨zs,hz,hloc⟩ := hb
  obtain rfl := hz.unique hr
  rw [append_assoc,located_append,located_append] at hloc
  rcases hloc with hloc | hloc | hloc
  · refine ⟨⟨_,hr',?_⟩,fun k _ h2 => hsame k (.inl ?_)⟩
    · rw [append_assoc,located_append]
      exact .inl hloc
    · have := hloc.bounds.2
      dsimp only at this
      omega
  · refine ⟨⟨_,hr',?_⟩,(hgone b n hloc hne).2⟩
    rw [append_assoc,located_append,located_append]
    exact .inr (.inl (hgone b n hloc hne).1)
  · refine ⟨⟨_,hr',?_⟩,fun k h1 h2 => hsame k (.inr ?_)⟩
    · rw [located_append,endOf_append]
      right
      rcases hfill with rfl | hfill
      · exact hloc.elim
      · rwa [hfill]
    · have := hloc.bounds
      dsimp only at this
      omega

/-! ## The edits -/

section
variable {x y : Blk} {size : ℕ}

theorem Rep.header (hr : Rep h (xs ++ x :: ys)) :
    Header h.mem (lastOf 0 heapBase xs) (endOf heapBase xs)
      (linkOf (endOf heapBase xs + 32 + x.size) 0 ys) x := (seg_append.mp hr.seg).2.1

theorem endOf_heapBase_pos (xs : List Blk) : 0 < endOf heapBase xs :=
  Nat.lt_of_lt_of_le (by decide) (le_endOf heapBase xs)

theorem linkBack_spec {t b : ℕ} (ht : 0 < t) (ys : List Blk) :
    (∀ k, k ≠ t + 24 → (h.linkBack (linkOf t 0 ys) b).mem k = h.mem k) ∧
      (ys ≠ [] → (h.linkBack (linkOf t 0 ys) b).mem (t + 24) = b) ∧
      (h.linkBack (linkOf t 0 ys) b).tail = (if ys = [] then b else h.tail) ∧
      (h.linkBack (linkOf t 0 ys) b).head = h.head ∧
      (h.linkBack (linkOf t 0 ys) b).heapEnd = h.heapEnd := by
  cases ys with
  | nil => exact ⟨fun _ _ => rfl,fun hy => absurd rfl hy,rfl,rfl,rfl⟩
  | cons y ys =>
    rw [show h.linkBack (linkOf t 0 (y :: ys)) b = h.setPrev t b from
      if_pos (by simp [linkOf]; omega)]
    exact ⟨fun k hk => update_of_ne hk _ _,fun _ => update_self _ _ _,rfl,rfl,rfl⟩

theorem linkBack_write {next b k v : ℕ} (hk : next ≠ 0 → k ≠ next + 24) :
    (h.linkBack next b).write k v = (h.write k v).linkBack next b := by
  unfold linkBack
  split_ifs with h0
  · simp only [setPrev,write,update_comm (hk h0)]
  · rfl

/-- Free blocks of the same extent take the place of free blocks, and the block behind them is
linked back to the last. -/
theorem Rep.refill (g : Heap) (mid' : List Blk) {s t b : ℕ} (hr : Rep h (xs ++ mid ++ ys))
    (hs : endOf heapBase xs = s) (ht : endOf s mid = t) (hold : mid ≠ []) (hnew : mid' ≠ [])
    (hfree : ∀ x ∈ mid, x.free = true) (hfill : endOf s mid' = t)
    (hb : b = lastOf (lastOf 0 heapBase xs) s mid') (hsame : ∀ k, k < s ∨ t ≤ k → g.mem k = h.mem k)
    (hmid : Seg g.mem (lastOf 0 heapBase xs) s mid' (linkOf t 0 ys))
    (hrest : g.head = h.head ∧ g.tail = h.tail ∧ g.heapEnd = h.heapEnd) :
    Rep (g.linkBack (linkOf t 0 ys) b) (xs ++ mid' ++ ys) ∧
      ∀ gone, Keeps h (g.linkBack (linkOf t 0 ys) b) gone := by
  have hst : s ≤ t := ht ▸ le_endOf s mid
  have htpos : 0 < t := by
    have := endOf_heapBase_pos xs
    omega
  obtain ⟨hb1,hb2,hb3,hb4,hb5⟩ := linkBack_spec (h := g) (b := b) htpos ys
  have hmid' : Seg (g.linkBack (linkOf t 0 ys) b).mem (lastOf 0 heapBase xs) s mid'
      (linkOf t 0 ys) := hmid.congr fun k _ hk => hb1 k (by omega)
  have hedit := hr.edit _ mid' hs.symm ht.symm hold hnew
    (fun k hk => (hb1 k (by omega)).trans (hsame k (by omega))) hmid' (.inr hfill)
    (fun hy => (hb2 hy).trans hb) (hb4.trans hrest.1) ?_ ?_
  · refine ⟨hedit.1,fun gone => hedit.2 gone fun c n hc _ => ?_⟩
    obtain ⟨_,_,rfl,_⟩ := hc.split
    exact absurd (hfree ⟨n,false⟩ (by simp)) (by simp)
  · rw [hb3,hrest.2.1,hr.tail]
    cases ys <;> simp [lastOf,hs,ht,hfill,hb]
  · rw [hb5,hrest.2.2,hr.stop]
    simp [hs,ht,hfill]

theorem Rep.setFree (hr : Rep h (xs ++ [x] ++ ys)) (v : ℕ) :
    Rep (h.setFree (endOf heapBase xs) v) (xs ++ [⟨x.size,decide (v ≠ 0)⟩] ++ ys) ∧
      ∀ gone, (x.free = false → endOf heapBase xs = gone) →
        Keeps h (h.setFree (endOf heapBase xs) v) gone := by
  have hx := (show Rep h (xs ++ x :: ys) by simpa using hr).header
  have hmem : ∀ k, k ≠ endOf heapBase xs + 8 → (h.setFree (endOf heapBase xs) v).mem k = h.mem k :=
    fun k hk => update_of_ne hk _ _
  have hedit := hr.edit (h.setFree (endOf heapBase xs) v) [⟨x.size,decide (v ≠ 0)⟩] rfl rfl
    (by simp) (by simp)
    (fun k hk => hmem k (by simp only [endOf] at hk; omega)) ⟨⟨?_,?_,?_,?_⟩,trivial⟩
    (.inr rfl) (fun hy => ?_) rfl ?_ ?_
  · refine ⟨hedit.1,fun gone hgone => hedit.2 gone fun b n hb hne => ?_⟩
    rcases hb with ⟨rfl,hb⟩ | hb
    · exact absurd (hgone (by rw [← hb])) hne
    · exact hb.elim
  · rw [hmem _ (by omega)]; exact hx.size
  · simp [Heap.setFree,write]
  · rw [hmem _ (by omega)]; exact hx.next
  · rw [hmem _ (by omega)]; exact hx.prev
  · rw [hmem _ (by simp only [endOf]; omega)]
    rw [append_assoc,singleton_append] at hr
    cases ys with
    | nil => exact absurd rfl hy
    | cons y ys => exact (seg_append.mp hr.seg).2.2.1.prev
  · exact hr.tail.trans (by simp [lastOf])
  · exact hr.stop.trans (by simp [endOf])

theorem Rep.absorb (hr : Rep h (xs ++ [x, y] ++ ys)) (hfx : x.free = true) (hfy : y.free = true) :
    Rep (h.absorb (endOf heapBase xs) (endOf heapBase xs + 32 + x.size))
        (xs ++ [⟨x.size + (32 + y.size),true⟩] ++ ys) ∧
      ∀ gone, Keeps h (h.absorb (endOf heapBase xs) (endOf heapBase xs + 32 + x.size)) gone := by
  have hx := (show Rep h (xs ++ x :: ([y] ++ ys)) by simpa using hr).header
  have hy := (show Rep h ((xs ++ [x]) ++ y :: ys) by simpa using hr).header
  simp only [endOf_append,endOf] at hy
  generalize hs : endOf heapBase xs = s at *
  -- the reads see the old values, the words written being those at `s` and `s + 16`
  have hsize : h.size s + (32 + h.size (s + 32 + x.size)) = x.size + (32 + y.size) := by
    simp only [size,hx.size,hy.size]
  have hread : ∀ v, (h.setSize s v).next (s + 32 + x.size) =
      linkOf (s + 32 + x.size + 32 + y.size) 0 ys := by
    intro v
    rw [← hy.next]
    exact update_of_ne (by omega) _ _
  have hread' : ∀ v w, ((h.setSize s v).setNext s w).next (s + 32 + x.size) =
      linkOf (s + 32 + x.size + 32 + y.size) 0 ys := by
    intro v w
    rw [← hread v]
    exact update_of_ne (by omega) _ _
  simp only [Heap.absorb,hsize,hread,hread']
  refine hr.refill _ _ hs rfl (by simp) (by simp) (by simp [hfx,hfy])
    (by simp only [endOf]; omega) rfl (fun k hk => ?_) ⟨⟨?_,?_,?_,?_⟩,trivial⟩ ⟨rfl,rfl,rfl⟩
  · simp (disch := omega) only [setNext,setSize,write,update_of_ne]
  · simp (disch := omega) only [setNext,setSize,write,update_of_ne,update_self]
  · simp (disch := omega) only [setNext,setSize,write,update_of_ne,hx.free,hfx]
  · simp only [setNext,setSize,write,update_self]
    cases ys <;> rfl
  · simp (disch := omega) only [setNext,setSize,write,update_of_ne,hx.prev]

def cut (size : ℕ) (x : Blk) : List Blk :=
  if x.size ≥ size + 48 then [⟨size,true⟩, ⟨x.size - size - 32,true⟩] else [x]

section
variable (hr : Rep h (xs ++ [x] ++ ys)) (hfree : x.free = true) (hfit : size ≤ x.size)
  (hsmall : x.size < 2 ^ 40)
include hr hfree hfit hsmall

theorem Rep.splitOff : Rep (h.splitOff (endOf heapBase xs) size) (xs ++ cut size x ++ ys) ∧
      ∀ gone, Keeps h (h.splitOff (endOf heapBase xs) size) gone := by
  have hx := (show Rep h (xs ++ x :: ys) by simpa using hr).header
  generalize hs : endOf heapBase xs = s at *
  have hif : h.size s ≥ (size + 32 + 16) % 2 ^ 64 ↔ x.size ≥ size + 48 := by
    rw [Heap.size,hx.size]
    omega
  by_cases hcut : x.size ≥ size + 48
  · rw [Heap.splitOff,if_pos (hif.mpr hcut),cut,if_pos hcut]
    have hread : ∀ v w, ((h.setSize (s + 32 + size) v).setFree (s + 32 + size) w).next s =
        linkOf (s + 32 + x.size) 0 ys := by
      intro v w
      rw [← hx.next]
      exact (update_of_ne (by omega) _ _).trans (update_of_ne (by omega) _ _)
    have hread' : ∀ v w u z, ((((h.setSize (s + 32 + size) v).setFree (s + 32 + size) w).setNext
        (s + 32 + size) u).setPrev (s + 32 + size) z).next s = linkOf (s + 32 + x.size) 0 ys := by
      intro v w u z
      rw [← hread v w]
      exact (update_of_ne (by omega) _ _).trans (update_of_ne (by omega) _ _)
    have hlink : linkOf (s + 32 + x.size) 0 ys ≠ 0 → s < linkOf (s + 32 + x.size) 0 ys := by
      cases ys <;> simp [linkOf]
      omega
    simp only [hread,hread',Heap.size,hx.size]
    simp only [setSize,setNext]
    rw [linkBack_write (by omega),linkBack_write (by omega)]
    refine hr.refill _ _ hs rfl (by simp) (by simp) (by simp [hfree])
      (by simp only [endOf]; omega) rfl (fun k hk => ?_)
      ⟨⟨?_,?_,?_,?_⟩,⟨?_,?_,?_,?_⟩,trivial⟩ ⟨rfl,rfl,rfl⟩
    · simp (disch := omega) only [Heap.setFree,setPrev,write,update_of_ne]
    · simp (disch := omega) only [write,update_of_ne,update_self]
    · simp (disch := omega) only [Heap.setFree,setPrev,write,update_of_ne,hx.free,hfree]
    · simp only [write,update_self,linkOf]
    · simp (disch := omega) only [Heap.setFree,setPrev,write,update_of_ne,hx.prev]
    · simp (disch := omega) only [Heap.setFree,setPrev,write,update_of_ne,update_self]
    · simp (disch := omega) [Heap.setFree,setPrev,write,update_of_ne]
    · simp (disch := omega) only [Heap.setFree,setPrev,write,update_of_ne,update_self]
      cases ys <;> rfl
    · simp (disch := omega) only [setPrev,write,update_of_ne,update_self]
  · rw [Heap.splitOff,if_neg (mt hif.mp hcut),cut,if_neg hcut]
    exact ⟨hr,fun gone => Keeps.refl h gone⟩

theorem Rep.carve : ∃ n rest, cut size x = ⟨n,true⟩ :: rest ∧ size ≤ n ∧
      Rep (h.carve (endOf heapBase xs) size) (xs ++ [⟨n,false⟩] ++ (rest ++ ys)) ∧
      ∀ gone, Keeps h (h.carve (endOf heapBase xs) size) gone := by
  obtain ⟨n,rest,hcut,hn⟩ : ∃ n rest, cut size x = ⟨n,true⟩ :: rest ∧ size ≤ n := by
    unfold cut
    split_ifs
    · exact ⟨size,_,rfl,le_rfl⟩
    · exact ⟨x.size,[],by rw [← hfree],hfit⟩
  obtain ⟨hr1,hk1⟩ := hr.splitOff hfree hfit hsmall
  have hform : xs ++ cut size x ++ ys = xs ++ [⟨n,true⟩] ++ (rest ++ ys) := by simp [hcut]
  rw [hform] at hr1
  obtain ⟨hr2,hk2⟩ := hr1.setFree 0
  exact ⟨n,rest,hcut,hn,hr2,fun gone => (hk1 gone).trans (hk2 gone (by simp))⟩

end

theorem Rep.listAppend {bytes : ℕ} (frames : ℕ) (hr : Rep h (xs ++ [x])) (hbytes : 32 ≤ bytes) :
    let grown := { h with heapEnd := h.heapEnd + bytes, frames := frames }
    Rep (grown.listAppend h.heapEnd bytes)
        (xs ++ if x.free then [⟨x.size + bytes,true⟩] else [x, ⟨bytes - 32,true⟩]) ∧
      ∀ gone, Keeps h (grown.listAppend h.heapEnd bytes) gone := by
  intro grown
  have hx := (show Rep h (xs ++ x :: []) by simpa using hr).header
  have htail : h.tail = endOf heapBase xs := by simpa [lastOf] using hr.tail
  have hstop : h.heapEnd = endOf heapBase xs + 32 + x.size := by simpa [endOf] using hr.stop
  have hpos := endOf_heapBase_pos xs
  have hr0 : Rep h (xs ++ [x] ++ []) := by simpa using hr
  generalize hs : endOf heapBase xs = s at *
  have hfree : (grown.tail ≠ 0 ∧ grown.free grown.tail ≠ 0) ↔ x.free = true := by
    rw [show grown.tail = s from htail,← hx.free]
    exact and_iff_right (by omega)
  by_cases hf : x.free = true
  · rw [Heap.listAppend,if_pos (hfree.mpr hf),if_pos hf,htail,show grown.size s = x.size from hx.size]
    have hedit := hr0.edit (grown.setSize s (x.size + bytes)) [⟨x.size + bytes,true⟩]
      hs.symm rfl (by simp) (by simp) (fun k hk => ?_) ⟨⟨update_self _ _ _,?_,?_,?_⟩,trivial⟩
      (.inl rfl) (fun hy => absurd rfl hy) rfl ?_ ?_
    · refine ⟨by simpa using hedit.1,fun gone => hedit.2 gone fun b n hb _ => ?_⟩
      rcases hb with ⟨_,hb⟩ | hb
      · rw [← hb] at hf; exact absurd hf (by simp)
      · exact hb.elim
    · simp only [endOf] at hk
      exact update_of_ne (by omega) _ _
    · simp (disch := omega) only [setSize,write,update_of_ne,grown,hx.free,hf]
    · simp (disch := omega) only [setSize,write,update_of_ne,grown,hx.next,linkOf]
    · simp (disch := omega) only [setSize,write,update_of_ne,grown,hx.prev]
    · exact htail.trans (by simp [lastOf,hs])
    · simp [setSize,write,grown,hstop,endOf,hs]
      omega
  · have hform : grown.listAppend h.heapEnd bytes =
        { ((((grown.setSize (s + 32 + x.size) (bytes - 32)).setFree (s + 32 + x.size) 1).setNext
          (s + 32 + x.size) 0).setPrev (s + 32 + x.size) s).setNext s (s + 32 + x.size) with
          tail := s + 32 + x.size } := by
      have hheadpos : heapBase ≠ 0 := by decide
      rw [Heap.listAppend,if_neg fun hc => hf (hfree.mp hc),hstop]
      simp [setSize,Heap.setFree,setNext,setPrev,write,grown,htail,show s ≠ 0 by omega,hr.head,
        hheadpos]
    rw [hform,if_neg hf]
    have hlow : ∀ k, k ≠ s + 16 → k < s + 32 + x.size →
        (grown.listAppend h.heapEnd bytes).mem k = h.mem k := by
      intro k h1 h2
      rw [hform]
      simp (disch := omega) only [setSize,Heap.setFree,setNext,setPrev,write,update_of_ne,grown]
    rw [hform] at hlow
    have hedit := hr0.edit _ [x, ⟨bytes - 32,true⟩] hs.symm rfl (by simp) (by simp)
      (fun k hk => hlow k ?_ ?_) ⟨⟨?_,?_,?_,?_⟩,⟨?_,?_,?_,?_⟩,trivial⟩ (.inl rfl)
      (fun hy => absurd rfl hy) rfl ?_ ?_
    · refine ⟨by simpa using hedit.1,fun gone => hedit.2 gone fun b n hb _ => ?_⟩
      rcases hb with ⟨rfl,hb⟩ | hb
      · have hn : x.size = n := by rw [← hb]
        exact ⟨.inl ⟨rfl,hb⟩,fun k h1 h2 => hlow k (by omega) (by omega)⟩
      · exact hb.elim
    · simp only [endOf] at hk; omega
    · simp only [endOf] at hk; omega
    · rw [hlow _ (by omega) (by omega)]; exact hx.size
    · rw [hlow _ (by omega) (by omega)]; exact hx.free
    · exact update_self _ _ _
    · rw [hlow _ (by omega) (by omega)]; exact hx.prev
    case refine_12 =>
      simp only [setSize,Heap.setFree,setNext,setPrev,write,grown,hstop,endOf_append,endOf,hs]
      omega
    all_goals simp (disch := omega) [setSize,Heap.setFree,setNext,setPrev,write,update_of_ne,
      grown,hstop,lastOf,linkOf,hs]

end

/-! ## Allocation -/

section
variable {size : ℕ} {grants : List Bool}

theorem firstFit_spec (size : ℕ) {prev a fuel : ℕ} (hseg : Seg h.mem prev a ys 0) (ha : 0 < a)
    (hfuel : ys.length < fuel) : (h.firstFit size fuel (linkOf a 0 ys) = 0 ∧
        ∀ x ∈ ys, ¬ (x.free = true ∧ size ≤ x.size)) ∨ (h.firstFit size fuel (linkOf a 0 ys) ≠ 0 ∧
        ∃ x, Located a ys (h.firstFit size fuel (linkOf a 0 ys)) x ∧ x.free = true ∧
          size ≤ x.size) := by
  induction ys generalizing prev a fuel with
  | nil =>
    cases fuel with
    | zero => simp [firstFit]
    | succ fuel => simp [firstFit,linkOf]
  | cons y ys ih =>
    obtain ⟨hy,hrest⟩ := hseg
    obtain ⟨fuel,rfl⟩ : ∃ f, fuel = f + 1 := ⟨fuel - 1,by omega⟩
    have hlink : linkOf a 0 (y :: ys) = a := rfl
    have hfree : h.free a = 0 ↔ y.free = false := by
      rw [← not_iff_not,Bool.not_eq_false]
      exact hy.free
    rw [hlink,firstFit,if_neg (by omega)]
    by_cases hfit : h.free a = 0 ∨ h.size a < size
    · rw [if_pos hfit,show h.next a = linkOf (a + 32 + y.size) 0 ys from hy.next]
      have hskip : ¬ (y.free = true ∧ size ≤ y.size) := by
        rintro ⟨h1,h2⟩
        rcases hfit with hf | hf
        · rw [hfree.mp hf] at h1
          exact Bool.false_ne_true h1
        · rw [Heap.size,hy.size] at hf
          omega
      rcases ih hrest (by omega) (by simpa using hfuel) with ⟨h0,hnone⟩ | ⟨h0,x,hloc,hx⟩
      · exact .inl ⟨h0,forall_mem_cons.mpr ⟨hskip,hnone⟩⟩
      · exact .inr ⟨h0,x,.inr hloc,hx⟩
    · rw [if_neg hfit]
      rw [not_or,hfree,Heap.size,hy.size] at hfit
      exact .inr ⟨by omega,y,.inl ⟨rfl,rfl⟩,by simpa using hfit.1,by omega⟩

theorem Rep.scan (hr : Rep h bs) (size : ℕ) : (h.firstFit size (h.heapEnd - heapBase) h.head = 0 ∧
        ∀ x ∈ bs, ¬ (x.free = true ∧ size ≤ x.size)) ∨
      (h.firstFit size (h.heapEnd - heapBase) h.head ≠ 0 ∧
        ∃ x, Located heapBase bs (h.firstFit size (h.heapEnd - heapBase) h.head) x ∧
          x.free = true ∧ size ≤ x.size) := by
  have hfuel : bs.length < h.heapEnd - heapBase := by
    have := length_le_endOf heapBase bs
    have := hr.stop
    have := length_pos_of_ne_nil hr.nonempty
    omega
  have hhead : h.head = linkOf heapBase 0 bs := by
    rw [hr.head]
    cases bs with
    | nil => exact absurd rfl hr.nonempty
    | cons => rfl
  rw [hhead]
  exact firstFit_spec size hr.seg (by decide) hfuel

theorem heapGrow_spec (h : Heap) (pages : ℕ) (grants : List Bool) :
    ∃ k rest, h.heapGrow pages grants =
        (k, { h with heapEnd := h.heapEnd + k * 4096, frames := h.frames - k }, rest) ∧
      k ≤ h.frames ∧ rest.length + k ≤ grants.length := by
  induction grants generalizing h pages with
  | nil =>
    cases pages <;> simp [heapGrow]
  | cons g grants ih =>
    cases pages with
    | zero => exact ⟨0,g :: grants,by simp [heapGrow],Nat.zero_le _,le_rfl⟩
    | succ pages =>
      by_cases hg : g = true ∧ h.frames ≠ 0
      · obtain ⟨k,rest,heq,hk,hlen⟩ :=
          ih { h with heapEnd := h.heapEnd + 4096, frames := h.frames - 1 } pages
        dsimp only at heq hk
        refine ⟨k + 1,rest,?_,by omega,by simp only [length_cons]; omega⟩
        simp [heapGrow,if_pos hg,heq,Nat.sub_sub,Nat.add_assoc,Nat.add_comm 1 k,Nat.add_mul,
          Nat.add_comm 4096]
      · simp [heapGrow,if_neg hg]

theorem linkBack_extent (h : Heap) (next b : ℕ) :
    (h.linkBack next b).heapEnd = h.heapEnd ∧ (h.linkBack next b).frames = h.frames := by
  unfold linkBack
  split_ifs <;> exact ⟨rfl,rfl⟩

theorem carve_extent (h : Heap) (b size : ℕ) :
    (h.carve b size).heapEnd = h.heapEnd ∧ (h.carve b size).frames = h.frames := by
  simp only [carve,splitOff]
  split_ifs
  · exact linkBack_extent _ _ _
  · exact ⟨rfl,rfl⟩

theorem Tidy.carve {x : Blk} {n : ℕ} {rest : List Blk} (ht : Tidy (xs ++ [x] ++ ys))
    (hfree : x.free = true) (hsize : size % 16 = 0) (hcut : cut size x = ⟨n,true⟩ :: rest) :
    Tidy (xs ++ (⟨n,false⟩ :: rest) ++ ys) := by
  have hx : x.size % 16 = 0 := ht.aligned x (by simp)
  have hleft : ∀ z ∈ xs.getLast?, ∀ w ∈ (⟨n,false⟩ :: rest).head?, Apart z w := by
    intro z _ w hw
    simp only [head?_cons,Option.mem_some_iff] at hw
    simp [Apart,← hw]
  have hright : ∀ z, ∀ w ∈ ys.head?, Apart z w := by
    intro z w hw
    have hold := ht.right x (by simp) w hw
    simp only [Apart,hfree,true_and,Bool.not_eq_true] at hold
    simp [Apart,hold]
  unfold cut at hcut
  split_ifs at hcut with hc
  · obtain ⟨hn,rfl⟩ := cons.inj hcut
    obtain rfl : size = n := congrArg Blk.size hn
    refine ht.replace (by simp) (fun b hb => ?_) (by simp [Apart]) hleft fun z _ => hright z
    simp only [mem_cons,not_mem_nil,or_false] at hb
    rcases hb with rfl | rfl
    · exact hsize
    · dsimp only
      omega
  · obtain ⟨hn,rfl⟩ := cons.inj hcut
    obtain rfl : x.size = n := congrArg Blk.size hn
    refine ht.replace (by simp) (fun b hb => ?_) (by simp) hleft fun z _ => hright z
    obtain rfl := mem_singleton.mp hb
    exact hx

theorem Tidy.append {x : Blk} {bytes : ℕ} (ht : Tidy (xs ++ [x])) (hbytes : bytes % 16 = 0)
    (hlarge : 32 ≤ bytes) :
    Tidy (xs ++ if x.free then [⟨x.size + bytes,true⟩] else [x, ⟨bytes - 32,true⟩]) := by
  have hx : x.size % 16 = 0 := ht.aligned x (by simp)
  have ht0 : Tidy (xs ++ [x] ++ []) := by simpa using ht
  have hleft : ∀ z ∈ xs.getLast?, ∀ w : Blk, w.free = x.free → Apart z w := by
    intro z hz w hw
    have hold := ht0.left z hz x (by simp)
    simpa [Apart,hw] using hold
  by_cases hf : x.free = true
  · rw [if_pos hf]
    have hrep : Tidy (xs ++ [⟨x.size + bytes,true⟩] ++ []) := by
      refine ht0.replace (by simp) (fun b hb => ?_) (by simp) ?_ (by simp)
      · obtain rfl := mem_singleton.mp hb
        dsimp only
        omega
      · intro z hz w hw
        simp only [head?_cons,Option.mem_some_iff] at hw
        exact hleft z hz w (by rw [← hw,hf])
    simpa using hrep
  · rw [if_neg hf]
    have hrep : Tidy (xs ++ [x, ⟨bytes - 32,true⟩] ++ []) := by
      refine ht0.replace (by simp) (fun b hb => ?_) (by simp [Apart,hf]) ?_ (by simp)
      · simp only [mem_cons,not_mem_nil,or_false] at hb
        rcases hb with rfl | rfl
        · exact hx
        · dsimp only
          omega
      · intro z hz w hw
        simp only [head?_cons,Option.mem_some_iff] at hw
        exact hleft z hz w (by rw [hw])
    simpa using hrep

theorem Intact.carve {b : ℕ} {x : Blk} (hi : Intact h) (hr : Rep h bs) (hloc : Located heapBase bs b x)
    (hfree : x.free = true) (hfit : size ≤ x.size) (hsize : size % 16 = 0) :
    Intact (h.carve b size) ∧ (∀ gone, Keeps h (h.carve b size) gone) ∧
      ∃ n, Live (h.carve b size) b n ∧ size ≤ n ∧ ∀ n', ¬ Live h b n' := by
  obtain ⟨⟨bs',hr',ht⟩,hbound⟩ := hi
  obtain rfl := hr'.unique hr
  have hsmall : x.size < 2 ^ 40 := by
    have := hloc.bounds
    have := hr.stop
    omega
  have hfresh : ∀ n', ¬ Live h b n' := by
    rintro n' ⟨zs,hz,hloc'⟩
    obtain rfl := hz.unique hr
    rw [hloc.unique hloc'] at hfree
    exact Bool.false_ne_true hfree
  obtain ⟨xs,ys,rfl,rfl⟩ := hloc.split
  have hform : xs ++ x :: ys = xs ++ [x] ++ ys := by simp
  rw [hform] at hr ht
  obtain ⟨n,rest,hcut,hn,hr2,hk⟩ := hr.carve hfree hfit hsmall
  have ht2 := ht.carve hfree hsize hcut
  have hform2 : xs ++ [⟨n,false⟩] ++ (rest ++ ys) = xs ++ (⟨n,false⟩ :: rest) ++ ys := by simp
  rw [hform2] at hr2
  obtain ⟨hend,hframes⟩ := carve_extent h (endOf heapBase xs) size
  refine ⟨⟨⟨_,hr2,ht2⟩,by rw [hend,hframes]; exact hbound⟩,hk,n,⟨_,hr2,?_⟩,hn,hfresh⟩
  rw [append_assoc,located_append]
  exact .inr (.inl ⟨rfl,rfl⟩)

theorem listAppend_extent (h : Heap) (regionStart regionBytes : ℕ) :
    (h.listAppend regionStart regionBytes).heapEnd = h.heapEnd ∧
      (h.listAppend regionStart regionBytes).frames = h.frames := by
  unfold listAppend
  dsimp only
  split_ifs <;> exact ⟨rfl,rfl⟩

theorem Intact.grow {k : ℕ} (hi : Intact h) (hk : 0 < k) (hframes : k ≤ h.frames) :
    let grown := { h with heapEnd := h.heapEnd + k * 4096, frames := h.frames - k }
    Intact (grown.listAppend h.heapEnd (k * 4096)) ∧
      ∀ gone, Keeps h (grown.listAppend h.heapEnd (k * 4096)) gone := by
  intro grown
  obtain ⟨⟨bs,hr,ht⟩,hbound⟩ := hi
  obtain ⟨xs,x,rfl⟩ : ∃ xs x, bs = xs ++ [x] := by
    rcases eq_nil_or_concat bs with rfl | ⟨xs,x,hbs⟩
    · exact absurd rfl hr.nonempty
    · exact ⟨xs,x,by simpa using hbs⟩
  obtain ⟨hr2,hkeep⟩ := hr.listAppend (h.frames - k) (show 32 ≤ k * 4096 by omega)
  have ht2 := ht.append (show k * 4096 % 16 = 0 by omega) (show 32 ≤ k * 4096 by omega)
  obtain ⟨hend,hfr⟩ := listAppend_extent grown h.heapEnd (k * 4096)
  refine ⟨⟨⟨_,hr2,ht2⟩,?_⟩,hkeep⟩
  rw [hend,hfr]
  show h.heapEnd + k * 4096 + 4096 * (h.frames - k) ≤ _
  omega

theorem kmallocLoop_spec (hsize : size % 16 = 0) (fuel : ℕ) (grants : List Bool) (hi : Intact h) :
    let r := kmallocLoop size fuel h grants
    Intact r.2 ∧ (∀ gone, Keeps h r.2 gone) ∧
      (r.1 ≠ 0 → ∃ b n, r.1 = b + 32 ∧ Live r.2 b n ∧ size ≤ n ∧ ∀ n', ¬ Live h b n') := by
  induction fuel generalizing h grants with
  | zero => exact ⟨hi,Keeps.refl h,fun h0 => absurd rfl h0⟩
  | succ fuel ih =>
    obtain ⟨bs,hr,_⟩ := hi.1
    simp only [kmallocLoop]
    rcases hr.scan size with ⟨h0,_⟩ | ⟨h0,x,hloc,hfree,hfit⟩
    · rw [if_neg (by simpa using h0)]
      obtain ⟨k,rest,hgrow,hk,_⟩ := heapGrow_spec h ((size + 32 + 4095) % 2 ^ 64 / 4096) grants
      rw [hgrow]
      by_cases hk0 : k = 0
      · subst hk0
        exact ⟨hi,Keeps.refl h,fun h0 => absurd rfl h0⟩
      · rw [if_neg hk0]
        obtain ⟨hi2,hk2⟩ := hi.grow (Nat.pos_of_ne_zero hk0) hk
        obtain ⟨hi3,hk3,hnew⟩ := ih rest hi2
        refine ⟨hi3,fun gone => (hk2 gone).trans (hk3 gone),fun hp => ?_⟩
        obtain ⟨b,n,hb,hlive,hn,hfresh⟩ := hnew hp
        exact ⟨b,n,hb,hlive,hn,fun n' hl => hfresh n' (hk2 (b + 1) b n' hl (by omega)).1⟩
    · rw [if_pos h0]
      obtain ⟨hi2,hk2,n,hlive,hn,hfresh⟩ := hi.carve hr hloc hfree hfit hsize
      exact ⟨hi2,hk2,fun _ => ⟨_,n,rfl,hlive,hn,hfresh⟩⟩

theorem kmallocLoop_fuel (fuel : ℕ) (grants : List Bool) (hfuel : grants.length < fuel) :
    kmallocLoop size fuel h grants = kmallocLoop size (fuel + 1) h grants := by
  induction fuel generalizing h grants with
  | zero => omega
  | succ fuel ih =>
    rw [kmallocLoop,kmallocLoop.eq_def size (fuel + 1 + 1)]
    dsimp only
    by_cases h0 : h.firstFit size (h.heapEnd - heapBase) h.head ≠ 0
    · rw [if_pos h0,if_pos h0]
    · rw [if_neg h0,if_neg h0]
      obtain ⟨k,rest,hgrow,_,hlen⟩ := heapGrow_spec h ((size + 32 + 4095) % 2 ^ 64 / 4096) grants
      rw [hgrow]
      by_cases hk : k = 0
      · rw [if_pos hk,if_pos hk]
      · rw [if_neg hk,if_neg hk]
        exact ih rest (by omega)

end

/-! ## Release -/

section

theorem Rep.coalesceNext {m : ℕ} (hr : Rep h (xs ++ [⟨m,true⟩] ++ ys)) (hm : m % 16 = 0)
    (hys : ys.IsChain Apart) (hal : ∀ b ∈ ys, b.size % 16 = 0) :
    ∃ gap ys' n, ys = gap ++ ys' ∧ n % 16 = 0 ∧ (∀ w ∈ ys'.head?, w.free = false) ∧
      Rep (h.coalesceNext (endOf heapBase xs)) (xs ++ [⟨n,true⟩] ++ ys') ∧
      ∀ gone, Keeps h (h.coalesceNext (endOf heapBase xs)) gone := by
  have hnext : h.next (endOf heapBase xs) = linkOf (endOf heapBase xs + 32 + m) 0 ys :=
    (show Rep h (xs ++ ⟨m,true⟩ :: ys) by simpa using hr).header.next
  cases ys with
  | nil =>
    have hsame : h.coalesceNext (endOf heapBase xs) = h := if_neg (by rw [hnext]; simp [linkOf])
    rw [hsame]
    exact ⟨[],[],m,rfl,hm,by simp,hr,Keeps.refl h⟩
  | cons y ys =>
    have hysize := hal y (by simp)
    have hyhead := (show Rep h ((xs ++ [⟨m,true⟩]) ++ y :: ys) by simpa using hr).header
    rw [endOf_append] at hyhead
    have hnext' : h.next (endOf heapBase xs) = endOf heapBase xs + 32 + m := hnext
    have hyfree : h.free (h.next (endOf heapBase xs)) ≠ 0 ↔ y.free = true := by
      rw [hnext']
      exact hyhead.free
    by_cases hy : y.free = true
    · have hr2 : Rep h (xs ++ [⟨m,true⟩, y] ++ ys) := by simpa using hr
      rw [coalesceNext,if_pos ⟨by omega,hyfree.mpr hy⟩,hnext']
      refine ⟨[y],ys,m + (32 + y.size),rfl,by omega,fun w hw => ?_,hr2.absorb rfl hy⟩
      have := (isChain_cons.mp hys).1 w hw
      simpa [Apart,hy] using this
    · rw [coalesceNext,if_neg fun hc => hy (hyfree.mp hc.2)]
      exact ⟨[],y :: ys,m,rfl,hm,by simpa using hy,hr,Keeps.refl h⟩

theorem Rep.coalescePrev {m : ℕ} (hr : Rep h (xs ++ [⟨m,true⟩] ++ ys)) (hm : m % 16 = 0)
    (hxs : xs.IsChain Apart) (hal : ∀ b ∈ xs, b.size % 16 = 0) :
    ∃ gap xs' n, xs = xs' ++ gap ∧ n % 16 = 0 ∧ (∀ w ∈ xs'.getLast?, w.free = false) ∧
      Rep (h.coalescePrev (endOf heapBase xs)) (xs' ++ [⟨n,true⟩] ++ ys) ∧
      ∀ gone, Keeps h (h.coalescePrev (endOf heapBase xs)) gone := by
  have hprev : h.prev (endOf heapBase xs) = lastOf 0 heapBase xs :=
    (show Rep h (xs ++ ⟨m,true⟩ :: ys) by simpa using hr).header.prev
  rcases eq_nil_or_concat xs with rfl | ⟨xs',z,hz⟩
  · have hsame : h.coalescePrev (endOf heapBase []) = h := if_neg (by rw [hprev]; simp [lastOf])
    rw [hsame]
    exact ⟨[],[],m,rfl,hm,by simp,hr,Keeps.refl h⟩
  · obtain rfl : xs = xs' ++ [z] := by simpa using hz
    have hzsize := hal z (by simp)
    have hpos := endOf_heapBase_pos xs'
    have hzhead := (show Rep h (xs' ++ z :: ([⟨m,true⟩] ++ ys)) by simpa using hr).header
    have hprev' : h.prev (endOf heapBase (xs' ++ [z])) = endOf heapBase xs' := by
      rw [hprev]
      simp [lastOf]
    have hzfree : h.free (h.prev (endOf heapBase (xs' ++ [z]))) ≠ 0 ↔ z.free = true := by
      rw [hprev']
      exact hzhead.free
    by_cases hf : z.free = true
    · have hr2 : Rep h (xs' ++ [z, ⟨m,true⟩] ++ ys) := by simpa using hr
      rw [coalescePrev,if_pos ⟨by omega,hzfree.mpr hf⟩,hprev',endOf_append]
      refine ⟨[z],xs',z.size + (32 + m),rfl,by omega,fun w hw => ?_,hr2.absorb hf rfl⟩
      have := (isChain_append.mp hxs).2.2 w hw z (by simp)
      simpa [Apart,hf] using this
    · rw [coalescePrev,if_neg fun hc => hf (hzfree.mp hc.2)]
      exact ⟨[],xs' ++ [z],m,by simp,hm,by simpa using hf,hr,Keeps.refl h⟩

theorem kfree_extent (h : Heap) (ptr : ℕ) :
    (h.kfree ptr).heapEnd = h.heapEnd ∧ (h.kfree ptr).frames = h.frames := by
  unfold kfree coalescePrev coalesceNext
  split_ifs
  case pos => exact ⟨rfl,rfl⟩
  all_goals simp [absorb,linkBack_extent,setFree,setSize,setNext,write]

theorem Intact.kfree {b n : ℕ} (hi : Intact h) (hb : Live h b n) :
    Intact (h.kfree (b + 32)) ∧ Keeps h (h.kfree (b + 32)) b := by
  obtain ⟨⟨bs,hr,ht⟩,hbound⟩ := hi
  obtain ⟨zs,hz,hloc⟩ := hb
  obtain rfl := hz.unique hr
  obtain ⟨xs,ys,rfl,rfl⟩ := hloc.split
  have hform : xs ++ ⟨n,false⟩ :: ys = xs ++ [⟨n,false⟩] ++ ys := by simp
  rw [hform] at hr ht
  have hmerged := ht.merged
  rw [isChain_append,isChain_append] at hmerged
  obtain ⟨hend,hframes⟩ := kfree_extent h (endOf heapBase xs + 32)
  have hn : n % 16 = 0 := ht.aligned ⟨n,false⟩ (by simp)
  obtain ⟨hr1,hk1⟩ := hr.setFree 1
  obtain ⟨gap,ys',n1,rfl,hn1,hright,hr2,hk2⟩ := hr1.coalesceNext hn hmerged.2.1
    fun c hc => ht.aligned c (by simp [hc])
  obtain ⟨gap',xs',n2,rfl,hn2,hleft,hr3,hk3⟩ := hr2.coalescePrev hn1 hmerged.1.1
    fun c hc => ht.aligned c (by simp [hc])
  have hold : Tidy (xs' ++ (gap' ++ [⟨n,false⟩] ++ gap) ++ ys') := by simpa using ht
  have ht3 : Tidy (xs' ++ [⟨n2,true⟩] ++ ys') := by
    refine hold.replace (by simp) (fun c hc => ?_) (by simp) (fun z hz w _ => ?_) fun z _ w hw => ?_
    · obtain rfl := mem_singleton.mp hc
      exact hn2
    · simp [Apart,hleft z hz]
    · simp [Apart,hright w hw]
  refine ⟨⟨⟨_,hr3,ht3⟩,by rw [hend,hframes]; exact hbound⟩,?_⟩
  exact ((hk1 _ fun _ => rfl).trans (hk2 _)).trans (hk3 _)

end

/-! ## Runs -/

theorem Rep.store {b n addr : ℕ} (hr : Rep h bs) (hb : Located heapBase bs b ⟨n,false⟩)
    (hlo : b + 32 ≤ addr) (hhi : addr < b + 32 + n) (value : ℕ) : Rep (h.write addr value) bs :=
  ⟨hr.nonempty,hr.seg.payload hb hlo hhi,hr.head,hr.tail,hr.stop⟩

theorem intact_heapInit {mem : Mem} {p : Pmm} {grants : List Bool}
    (h0 : heapInit mem p grants = some h) : Intact h := by
  obtain ⟨k,rest,hgrow,hk,_⟩ := heapGrow_spec ⟨mem,0,0,heapBase,p.bitmapFrames⟩ 256 grants
  have hframes := p.framesLe
  simp only [heapInit,hgrow] at h0
  split_ifs at h0 with hk0
  obtain rfl := Option.some.inj h0
  dsimp only at hk
  refine ⟨⟨[⟨k * 4096 - 32,true⟩],⟨by simp,⟨⟨?_,?_,?_,?_⟩,trivial⟩,rfl,rfl,?_⟩,
    fun b hb => ?_,by simp⟩,?_⟩
  · simp [setSize,setFree,setNext,setPrev,write]
  · simp [setSize,setFree,setNext,setPrev,write]
  · simp [setSize,setFree,setNext,setPrev,write,linkOf]
  · simp [setSize,setFree,setNext,setPrev,write]
  · show heapBase + k * 4096 = heapBase + 32 + (k * 4096 - 32)
    omega
  · obtain rfl := mem_singleton.mp hb
    dsimp only
    omega
  · show heapBase + k * 4096 + 4096 * (p.bitmapFrames - k) ≤ _
    omega

def PayloadsApart (h : Heap) : Prop :=
  (∀ b n, Live h b n → (b + 32) % 16 = 0 ∧ heapBase ≤ b ∧ b + 32 + n ≤ h.heapEnd) ∧
    ∀ b n b' n', Live h b n → Live h b' n' → b ≠ b' →
      b + 32 + n ≤ b' + 32 ∨ b' + 32 + n' ≤ b + 32

theorem Intact.payloadsApart (hi : Intact h) : PayloadsApart h := by
  obtain ⟨⟨bs,hr,ht⟩,_⟩ := hi
  refine ⟨fun b n hb => ?_,fun b n b' n' hb hb' hne => ?_⟩
  · obtain ⟨zs,hz,hloc⟩ := hb
    obtain rfl := hz.unique hr
    have hbounds := hloc.bounds
    obtain ⟨xs,ys,rfl,rfl⟩ := hloc.split
    have hmod := endOf_mod (n := 16) (by decide) (show heapBase % 16 = 0 by decide)
      fun c hc => ht.aligned c (mem_append_left _ hc)
    rw [hr.stop]
    exact ⟨by omega,hbounds⟩
  · obtain ⟨zs,hz,hloc⟩ := hb
    obtain ⟨zs',hz',hloc'⟩ := hb'
    obtain rfl := hz.unique hz'
    have := hloc.disjoint hloc' hne
    dsimp only at this
    omega

/-- The heap is used as meant: only live blocks are released, and only live payloads are
written. -/
def Proper (h : Heap) : Op → Prop
  | .kmalloc _ _ => True
  | .kfree ptr => ptr = 0 ∨ ∃ b n, ptr = b + 32 ∧ Live h b n
  | .store addr _ => ∃ b n, Live h b n ∧ b + 32 ≤ addr ∧ addr < b + 32 + n

/-- What a call promises about live blocks. `kmalloc` leaves all of them as they are and hands out
a block that was not live and holds the bytes asked for (a request within 15 bytes of the address
space wraps when it is rounded up). `kfree` leaves all but the one released, and a write changes
its own word only. -/
def Honours (h : Heap) : Op → Prop
  | .kmalloc request grants =>
    (∀ gone, Keeps h (h.kmalloc request grants).2 gone) ∧
      ((h.kmalloc request grants).1 ≠ 0 → ∃ b n, (h.kmalloc request grants).1 = b + 32 ∧
        Live (h.kmalloc request grants).2 b n ∧ (∀ n', ¬ Live h b n') ∧
        (request.toNat ≤ 2 ^ 64 - 16 → request.toNat ≤ n))
  | .kfree ptr => Keeps h (h.kfree ptr) (ptr - 32)
  | .store addr value => ∀ b n, Live h b n → Live (h.write addr value) b n ∧
      ∀ k, k ≠ addr → (h.write addr value).mem k = h.mem k

theorem le_roundUp {request : U64} (hle : request.toNat ≤ 2 ^ 64 - 16) :
    request.toNat ≤ roundUp request := by
  unfold roundUp
  omega

theorem Intact.step (hi : Intact h) (op : Op) (hop : Proper h op) :
    Intact (h.step op) ∧ Honours h op := by
  cases op with
  | kmalloc request grants =>
    by_cases h0 : request = 0#64
    · have hdef : h.kmalloc request grants = (0, h) := if_pos h0
      simp only [Heap.step,Honours,hdef]
      exact ⟨hi,Keeps.refl h,fun hne => absurd rfl hne⟩
    · have hdef : h.kmalloc request grants =
          kmallocLoop (roundUp request) (grants.length + 1) h grants := if_neg h0
      obtain ⟨hi2,hk,hnew⟩ := kmallocLoop_spec (Nat.mul_mod_left _ 16) (grants.length + 1) grants hi
      simp only [Heap.step,Honours,hdef]
      refine ⟨hi2,hk,fun hne => ?_⟩
      obtain ⟨b,n,hb,hlive,hn,hfresh⟩ := hnew hne
      exact ⟨b,n,hb,hlive,hfresh,fun hle => (le_roundUp hle).trans hn⟩
  | kfree ptr =>
    rcases hop with rfl | ⟨b,n,rfl,hb⟩
    · exact ⟨hi,Keeps.refl h _⟩
    · exact hi.kfree hb
  | store addr value =>
    obtain ⟨b,n,⟨bs,hr,hloc⟩,hlo,hhi⟩ := hop
    obtain ⟨⟨bs',hr',ht⟩,hbound⟩ := hi
    obtain rfl := hr'.unique hr
    have hr2 := hr.store hloc hlo hhi value
    refine ⟨⟨⟨_,hr2,ht⟩,hbound⟩,fun c m hc => ⟨?_,fun k hk => update_of_ne hk _ _⟩⟩
    obtain ⟨zs,hz,hloc'⟩ := hc
    obtain rfl := hz.unique hr
    exact ⟨_,hr2,hloc'⟩

/-- From the heap `heap_init` builds, along every run of allocations of any size with pages
acquired or refused anywhere, of releases of live blocks and of writes into live payloads:
the headers tile the heap in address order with no two free neighbours, live payloads are
aligned and apart, and every call leaves the live payloads it does not own as they were. -/
theorem run_intact {mem : Mem} {p : Pmm} {grants : List Bool} {h0 : Heap}
    (hinit : heapInit mem p grants = some h0) (ops : List Op)
    (hops : Admissible step Proper h0 ops) :
    Always step (fun h => (∃ bs, Rep h bs ∧ Tidy bs) ∧ PayloadsApart h) h0 ops ∧
      Admissible step Honours h0 ops := by
  have hi := intact_heapInit hinit
  refine ⟨hops.always (fun h op hi hop => (hi.step op hop).1)
    (fun h hi => ⟨hi.1,hi.payloadsApart⟩) hi,?_⟩
  clear hinit
  induction ops generalizing h0 with
  | nil => trivial
  | cons op ops ih =>
    exact ⟨(hi.step op hops.1).2,ih hops.2 (hi.step op hops.1).1⟩

/-- Once no block is live, the heap is one free block from its start to its end. -/
def Whole (h : Heap) : Prop :=
  (∀ b n, ¬ Live h b n) → ∃ n, Rep h [⟨n,true⟩] ∧ h.heapEnd = heapBase + 32 + n

theorem Intact.whole (hi : Intact h) : Whole h := by
  intro hnone
  obtain ⟨⟨bs,hr,ht⟩,-⟩ := hi
  have hfree : ∀ {b x}, Located heapBase bs b x → x.free = true := by
    intro b x hx
    by_contra hf
    rw [Bool.not_eq_true] at hf
    exact hnone b x.size ⟨bs,hr,by rwa [← hf]⟩
  rcases bs with _ | ⟨⟨n,f⟩,_ | ⟨y,bs⟩⟩
  · exact absurd rfl hr.nonempty
  · obtain rfl : f = true := hfree (.inl ⟨rfl,rfl⟩)
    exact ⟨n,hr,hr.stop⟩
  · exact absurd ⟨hfree (.inl ⟨rfl,rfl⟩),hfree (.inr (.inl ⟨rfl,rfl⟩))⟩
      (isChain_cons_cons.mp ht.merged).1

/-- Along every run from `heap_init`, freeing everything leaves no fragments. -/
theorem run_whole {mem : Mem} {p : Pmm} {grants : List Bool} {h0 : Heap}
    (hinit : heapInit mem p grants = some h0) (ops : List Op)
    (hops : Admissible step Proper h0 ops) : Always step Whole h0 ops :=
  hops.always (fun _ op hi hop => (hi.step op hop).1) (fun _ hi => hi.whole) (intact_heapInit hinit)

def sixteenFrames : Pmm := ⟨fun _ => 0#8,16,0,0,by decide⟩

def onePage : Heap :=
  { mem := update (update (update (update (fun _ => 0)
      heapBase 4064) (heapBase + 8) 1) (heapBase + 16) 0) (heapBase + 24) 0
    head := heapBase, tail := heapBase, heapEnd := heapBase + 4096, frames := 15 }

theorem heapInit_onePage : heapInit (fun _ => 0) sixteenFrames [true] = some onePage := by
  have hgrow : heapGrow ⟨fun _ => 0,0,0,heapBase,16⟩ 256 [true] =
      (1, ⟨fun _ => 0,0,0,heapBase + 4096,15⟩, []) := by
    simp [heapGrow]
  simp [heapInit,sixteenFrames,hgrow,onePage,setSize,setFree,setNext,setPrev,write]

theorem run_intact_onePage :
    Admissible step Honours onePage
      [.kmalloc 100#64 [], .kmalloc 9000#64 [true, false], .kfree (heapBase + 32)] := by
  have hrep : Rep (run step onePage [.kmalloc 100#64 [], .kmalloc 9000#64 [true, false]])
      [⟨112,false⟩, ⟨8016,true⟩] := by
    refine ⟨by simp,⟨⟨?_,?_,?_,?_⟩,⟨?_,?_,?_,?_⟩,trivial⟩,?_,?_,?_⟩ <;> decide +kernel
  have hops : Admissible step Proper onePage
      [.kmalloc 100#64 [], .kmalloc 9000#64 [true, false], .kfree (heapBase + 32)] :=
    ⟨trivial,trivial,.inr ⟨heapBase,112,rfl,_,hrep,.inl ⟨rfl,rfl⟩⟩,trivial⟩
  exact (run_intact heapInit_onePage _ hops).2

/-- Two blocks are allocated, and a request that is refused after one page has been added. -/
def twoBlocks : Heap :=
  run step onePage [.kmalloc 100#64 [], .kmalloc 200#64 [], .kmalloc 9000#64 [true, false]]

theorem rep_twoBlocks : Rep twoBlocks [⟨112,false⟩, ⟨208,false⟩, ⟨7776,true⟩] := by
  refine ⟨by simp,⟨⟨?_,?_,?_,?_⟩,⟨?_,?_,?_,?_⟩,⟨?_,?_,?_,?_⟩,trivial⟩,?_,?_,?_⟩ <;> decide +kernel

theorem rep_oneFreed : Rep (step twoBlocks (.kfree (heapBase + 32)))
    [⟨112,true⟩, ⟨208,false⟩, ⟨7776,true⟩] := by
  refine ⟨by simp,⟨⟨?_,?_,?_,?_⟩,⟨?_,?_,?_,?_⟩,⟨?_,?_,?_,?_⟩,trivial⟩,?_,?_,?_⟩ <;> decide +kernel

theorem run_whole_onePage :
    Rep (run step twoBlocks [.kfree (heapBase + 32), .kfree (heapBase + 176)]) [⟨8160,true⟩] ∧
    Always step Whole onePage ([.kmalloc 100#64 [], .kmalloc 200#64 [],
      .kmalloc 9000#64 [true, false]] ++ [.kfree (heapBase + 32), .kfree (heapBase + 176)]) := by
  have hfree : Admissible step Proper twoBlocks [.kfree (heapBase + 32), .kfree (heapBase + 176)] :=
    ⟨.inr ⟨heapBase,112,rfl,_,rep_twoBlocks,.inl ⟨rfl,rfl⟩⟩,
      .inr ⟨heapBase + 144,208,rfl,_,rep_oneFreed,.inr (.inl ⟨rfl,rfl⟩)⟩,trivial⟩
  refine ⟨⟨by simp,⟨⟨?_,?_,?_,?_⟩,trivial⟩,?_,?_,?_⟩,
    run_whole heapInit_onePage _ ⟨trivial,trivial,trivial,hfree⟩⟩ <;> decide +kernel

end GaiaKernel.Heap
