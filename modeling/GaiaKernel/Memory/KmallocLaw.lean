import GaiaKernel.Memory.HeapSpec

/-! # What kmalloc owes its caller

A block handed out has the bytes asked for, and none is refused when its pages can be had. The size
is rounded up in 64 bits, so a request within 15 bytes of the whole address space becomes one of no
bytes.
-/
namespace GaiaKernel.Heap
open BlockList
variable {h : Heap} {size pages : ℕ} {grants : List Bool} {request : U64}

def pagesFor (request : U64) : ℕ := ((request.toNat + 15) / 16 * 16 + 32 + 4095) / 4096

/-- So many pages can be had: the machine has the frames, and the acquisitions succeed. -/
def Granted (h : Heap) (grants : List Bool) (pages : ℕ) : Prop :=
  pages ≤ h.frames ∧ grants.take pages = List.replicate pages true

/-- The size law of one call. It ends because more rounds of its loop change nothing. -/
structure KmallocLaw (h : Heap) (request : U64) (grants : List Bool) : Prop where
  usable : (h.kmalloc request grants).1 ≠ 0 → ∃ b n, (h.kmalloc request grants).1 = b + 32 ∧
    Live (h.kmalloc request grants).2 b n ∧ request.toNat ≤ n
  null : (h.kmalloc request grants).1 = 0 →
    request = 0#64 ∨ ¬ Granted h grants (pagesFor request)
  ends : request ≠ 0#64 → ∀ fuel, grants.length < fuel →
    kmallocLoop (roundUp request) fuel h grants = h.kmalloc request grants

theorem heapGrow_granted (hg : Granted h grants pages) : (h.heapGrow pages grants).1 = pages := by
  obtain ⟨hframes,htake⟩ := hg
  induction pages generalizing h grants with
  | zero => simp [heapGrow]
  | succ pages ih =>
    cases grants with
    | nil => simp at htake
    | cons g grants =>
      simp only [List.take_succ_cons,List.replicate_succ,List.cons.injEq] at htake
      have hrest := @ih { h with heapEnd := h.heapEnd + 4096, frames := h.frames - 1 } grants
        (Nat.le_sub_one_of_lt hframes) htake.2
      rw [heapGrow,if_pos ⟨htake.1,by omega⟩]
      exact congrArg (· + 1) hrest

theorem Intact.frames_le (hi : Intact h) : 4096 * h.frames ≤ 2 ^ 39 := by
  obtain ⟨⟨bs,hr,_⟩,hbound⟩ := hi
  have := hr.stop
  have := le_endOf heapBase bs
  omega

theorem Rep.fits_grown {bs : List Blk} {k : ℕ} (hr : Rep h bs) (hk : size + 32 ≤ k * 4096) :
    let grown := { h with heapEnd := h.heapEnd + k * 4096, frames := h.frames - k }
    ∃ bs', Rep (grown.listAppend h.heapEnd (k * 4096)) bs' ∧
      ∃ x ∈ bs', x.free = true ∧ size ≤ x.size := by
  rcases List.eq_nil_or_concat bs with rfl | ⟨xs,x,hbs⟩
  · exact absurd rfl hr.nonempty
  · obtain rfl : bs = xs ++ [x] := by simpa using hbs
    refine ⟨_,(hr.listAppend (h.frames - k) (by omega)).1,?_⟩
    by_cases hf : x.free = true
    · exact ⟨⟨x.size + k * 4096,true⟩,by simp [hf],rfl,by dsimp only; omega⟩
    · exact ⟨⟨k * 4096 - 32,true⟩,by simp [hf],rfl,by dsimp only; omega⟩

theorem kmallocLoop_granted (hi : Intact h) (hg : Granted h grants ((size + 32 + 4095) / 4096)) :
    (kmallocLoop size (grants.length + 1) h grants).1 ≠ 0 := by
  obtain ⟨bs,hr,_⟩ := hi.1
  have hframes := hi.frames_le
  have hneeded : (size + 32 + 4095) % 2 ^ 64 / 4096 = (size + 32 + 4095) / 4096 := by
    have := hg.1
    rw [Nat.mod_eq_of_lt (by omega)]
  rw [kmallocLoop]
  dsimp only
  by_cases h0 : h.firstFit size (h.heapEnd - heapBase) h.head ≠ 0
  · rw [if_pos h0]
    simp
  · obtain ⟨k,rest,hgrow,_,hlen⟩ := heapGrow_spec h ((size + 32 + 4095) / 4096) grants
    have hk : k = (size + 32 + 4095) / 4096 := by rw [← heapGrow_granted hg,hgrow]
    rw [if_neg h0,hneeded,hgrow]
    rw [if_neg (by omega),show grants.length = (grants.length - 1) + 1 by omega,kmallocLoop]
    obtain ⟨bs',hr',x,hx,hfit⟩ := hr.fits_grown (show size + 32 ≤ k * 4096 by omega)
    -- the second round finds the block that was made for it
    rcases hr'.scan size with ⟨_,hnone⟩ | ⟨hne,_⟩
    · exact absurd hfit (hnone x hx)
    · rw [if_pos hne]
      simp

theorem kmallocLoop_ends (fuel : ℕ) (hfuel : grants.length < fuel) :
    kmallocLoop size fuel h grants = kmallocLoop size (grants.length + 1) h grants := by
  induction fuel, hfuel using Nat.le_induction with
  | base => rfl
  | succ fuel hle ih => rw [← kmallocLoop_fuel fuel grants hle,ih]

theorem roundUp_eq (hle : request.toNat ≤ 2 ^ 64 - 16) :
    roundUp request = (request.toNat + 15) / 16 * 16 := by
  unfold roundUp
  rw [Nat.mod_eq_of_lt (by omega)]

theorem Intact.kmallocLaw (hi : Intact h) (grants : List Bool) (hle : request.toNat ≤ 2 ^ 64 - 16) :
    KmallocLaw h request grants := by
  obtain ⟨_,_,hnew⟩ := hi.step (.kmalloc request grants) trivial
  refine ⟨fun hne => ?_,fun hnull => ?_,fun hne fuel hfuel => ?_⟩
  · obtain ⟨b,n,hb,hlive,_,hn⟩ := hnew hne
    exact ⟨b,n,hb,hlive,hn hle⟩
  · refine or_iff_not_imp_left.mpr fun hne hg => ?_
    rw [kmalloc,if_neg hne,roundUp_eq hle] at hnull
    exact kmallocLoop_granted hi hg hnull
  · rw [kmalloc,if_neg hne]
    exact kmallocLoop_ends fuel hfuel

theorem intact_onePage : Intact onePage := intact_heapInit heapInit_onePage

/-- Rounded up, the request is for no bytes: the block of the heap is cut after its header. -/
theorem not_kmallocLaw_onePage (hlt : 2 ^ 64 - 16 < request.toNat) :
    ¬ KmallocLaw onePage request [] := by
  have hround : roundUp request = 0 := by
    unfold roundUp
    omega
  have hne : request ≠ 0#64 := by
    rintro rfl
    exact absurd hlt (by decide)
  have hdef : onePage.kmalloc request [] = kmallocLoop 0 1 onePage [] := by
    rw [kmalloc,if_neg hne,hround]
    rfl
  intro hlaw
  obtain ⟨b,n,_,hlive,hn⟩ := hlaw.usable (by rw [hdef]; decide +kernel)
  have hi := (intact_onePage.step (.kmalloc request []) trivial).1
  have hend := (hi.payloadsApart.1 b n hlive).2
  have htop : (onePage.kmalloc request []).2.heapEnd = heapBase + 4096 := by
    rw [hdef]
    decide +kernel
  rw [show onePage.step (.kmalloc request []) = (onePage.kmalloc request []).2 from rfl,htop] at hend
  omega

/-- The sizes for which every call on every heap keeps the law, wherever pages are refused. -/
theorem kmalloc_lawful_iff (request : U64) :
    (∀ h grants, Intact h → KmallocLaw h request grants) ↔ request.toNat ≤ 2 ^ 64 - 16 := by
  constructor
  · intro hlaw
    by_contra hlt
    exact not_kmallocLaw_onePage (by omega) (hlaw onePage [] intact_onePage)
  · exact fun hle h grants hi => hi.kmallocLaw grants hle

theorem kmalloc_lawless : Intact onePage ∧ ¬ KmallocLaw onePage 0xFFFFFFFFFFFFFFFF#64 [] :=
  ⟨intact_onePage,not_kmallocLaw_onePage (by decide)⟩

end GaiaKernel.Heap
