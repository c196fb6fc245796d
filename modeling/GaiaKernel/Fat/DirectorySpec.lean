import GaiaKernel.Fat.NameSpec

/-! # The layout of a directory

The records of a directory are those of its entries and unused ones, in any order, and then
empty ones. A lookup reads the entries in this order.
-/
namespace GaiaKernel.Fat
open Bytes List
variable {items : List Item}

/-- What stands at a place of a directory: an entry with the records of its long name, or a
record that no lookup sees. -/
inductive Item where
  | entry (long : Option (List Byte)) (record : Slot)
  | hole (record : Slot)

namespace Item

def slots : Item → List Slot
  | entry none record => [record]
  | entry (some name) record =>
    lfnSlots name (lfnChecksum (storedName record)) ((name.length + 12) / 13) ++ [record]
  | hole record => [record]

def LongOk (record : Slot) (name : List Byte) : Prop :=
  Ascii name ∧ name ≠ [] ∧ name.length ≤ fatLfnMax ∧ AliasText (entryShortName record)

def Ok : Item → Prop
  | entry long record => entryIsUsable record = true ∧ ∀ name ∈ long, LongOk record name
  | hole record => record 0 ≠ 0 ∧ entryIsUsable record = false ∧
      (entryIsLfn record = true → record 0 = erased)

end Item

def flat (items : List Item) : List Slot := items.flatMap Item.slots

@[simp] theorem flat_nil : flat [] = [] := rfl
@[simp] theorem flat_cons (x : Item) (items : List Item) : flat (x :: items) = x.slots ++ flat items := by
  simp [flat]
@[simp] theorem flat_append (a b : List Item) : flat (a ++ b) = flat a ++ flat b := by simp [flat]

/-- The entries of a directory from an index on, as lookups find them. -/
def entriesFrom : ℕ → List Item → List (Option (List Byte) × Found)
  | _, [] => []
  | i, .hole _ :: rest => entriesFrom (i + 1) rest
  | i, .entry long record :: rest =>
    (long, ⟨i,i + (Item.entry long record).slots.length - 1,record⟩) ::
      entriesFrom (i + (Item.entry long record).slots.length) rest

theorem entriesFrom_append (i : ℕ) (a b : List Item) :
    entriesFrom i (a ++ b) = entriesFrom i a ++ entriesFrom (i + (flat a).length) b := by
  induction a generalizing i with
  | nil => rfl
  | cons x a ih =>
    cases x with
    | hole record =>
      rw [cons_append,entriesFrom,entriesFrom,ih,flat_cons,length_append]
      congr 2
      simp only [Item.slots,length_singleton]
      omega
    | entry long record =>
      rw [cons_append,entriesFrom,entriesFrom,ih,flat_cons,length_append]
      congr 3
      omega

/-! ## Reading an item -/

variable (name : List Byte)

theorem length_lfnSlots (checksum : Byte) (k : ℕ) : (lfnSlots name checksum k).length = k := by
  induction k with
  | zero => rfl
  | succ k ih => rw [lfnSlots,length_cons,ih]

theorem entryIsLfn_writeLfnSlot (seq : ℕ) (last : Bool) (checksum : Byte) :
    entryIsLfn (writeLfnSlot name seq last checksum) = true := by
  have h11 : writeLfnSlot name seq last checksum attrAt = fatAttrLfn := rfl
  rw [entryIsLfn,h11]
  decide

theorem writeLfnSlot_marker {seq : ℕ} (last : Bool) (checksum : Byte)
    (hpos : seq ≠ 0) (hmax : seq ≤ 20) : writeLfnSlot name seq last checksum 0 ≠ 0 ∧
      writeLfnSlot name seq last checksum 0 ≠ erased := by
  obtain ⟨h0,herased,-,-⟩ := marker_spec ⟨seq,by omega⟩ last (fun h => hpos (congrArg Fin.val h))
  exact ⟨h0,herased⟩

variable {name q : List Byte} {checksum : Byte} {entry : Slot} {start : ℕ} {state : LfnState}

theorem findLoop_lfn (h0 : entry 0 ≠ 0) (hl : entryIsLfn entry = true)
    (rest : List Slot) (i : ℕ) (state : LfnState) :
    findLoop q (entry :: rest) i state = findLoop q rest (i + 1) (lfnFeed state entry i) := by
  rw [findLoop,if_neg h0,if_pos hl]

theorem findLoop_lfnSlots (h : Ascii name) {s i : ℕ}
    (hr : Reading name checksum start s state) (hs : s < (name.length + 12) / 13) (hmax : s ≤ 20) :
    ∃ state', Reading name checksum start 0 state' ∧ ∀ q rest,
      findLoop q (lfnSlots name checksum s ++ rest) i state = findLoop q rest (i + s) state' := by
  induction s generalizing i state with
  | zero => exact ⟨state,hr,fun q rest => rfl⟩
  | succ s ih =>
    have hnot : (s + 1 == (name.length + 12) / 13) = false := by
      rw [beq_eq_false_iff_ne]
      omega
    obtain ⟨state',hr',hfind⟩ :=
      ih (i := i + 1) (lfnFeed_next h hr i (by omega)) (by omega) (by omega)
    refine ⟨state',hr',fun q rest => ?_⟩
    rw [lfnSlots,hnot,cons_append,
      findLoop_lfn (writeLfnSlot_marker _ _ _ (by omega) (by omega)).1 (entryIsLfn_writeLfnSlot _ _ _ _),
      hfind]
    congr 1
    omega

theorem findLoop_long (h : Ascii name) (hne : name ≠ []) (hmax : name.length ≤ fatLfnMax)
    (checksum : Byte) (i : ℕ) (state : LfnState) :
    ∃ state', Reading name checksum i 0 state' ∧ ∀ q rest,
      findLoop q (lfnSlots name checksum ((name.length + 12) / 13) ++ rest) i state =
        findLoop q rest (i + (name.length + 12) / 13) state' := by
  have hlen := length_pos_iff.mpr hne
  unfold fatLfnMax at hmax
  obtain ⟨s,hs⟩ : ∃ s, (name.length + 12) / 13 = s + 1 := ⟨(name.length + 12) / 13 - 1,by omega⟩
  obtain ⟨state',hr,hfind⟩ := findLoop_lfnSlots (i := i + 1) h
    (lfnFeed_first h hs.symm (by omega) checksum state i) (by omega) (by omega)
  refine ⟨state',hr,fun q rest => ?_⟩
  rw [hs,lfnSlots,hs,beq_self_eq_true,cons_append,
    findLoop_lfn (writeLfnSlot_marker _ _ _ (by omega) (by omega)).1 (entryIsLfn_writeLfnSlot _ _ _ _),
    hfind]
  congr 1
  omega

theorem usable_spec (h : entryIsUsable entry = true) :
    entry 0 ≠ 0 ∧ entryIsFree entry = false ∧ entryIsLfn entry = false := by
  simp only [entryIsUsable,Bool.and_eq_true,Bool.not_eq_true'] at h
  refine ⟨fun h0 => ?_,h.1.1,h.1.2⟩
  have := h.1.1
  rw [entryIsFree,h0] at this
  simp at this

theorem findLoop_usable (h : entryIsUsable entry = true) (rest : List Slot) (i : ℕ)
    (state : LfnState) : findLoop q (entry :: rest) i state =
      if answers (lfnTake state entry) entry q then
        some ⟨if (lfnTake state entry).isSome then state.startIndex else i,i,entry⟩
      else findLoop q rest (i + 1) state.reset := by
  obtain ⟨h0,-,hl⟩ := usable_spec h
  rw [findLoop,if_neg h0,hl,if_neg Bool.false_ne_true,if_neg (not_not.mpr h)]

theorem findLoop_item {x : Item} (hx : x.Ok) (hv : state.valid = false) (i : ℕ) :
    ∃ state', state'.valid = false ∧ ∀ q rest, findLoop q (x.slots ++ rest) i state =
        match (entriesFrom i [x]).find? fun e => answers e.1 e.2.entry q with
        | some e => some e.2
        | none => findLoop q rest (i + x.slots.length) state' := by
  cases x with
  | hole record =>
    obtain ⟨h0,husable,hlfn⟩ := hx
    by_cases hl : entryIsLfn record = true
    · have hfeed : lfnFeed state record i = state.reset := by rw [lfnFeed,if_pos (hlfn hl)]
      refine ⟨state.reset,rfl,fun q rest => ?_⟩
      rw [Item.slots,singleton_append,findLoop_lfn h0 hl,hfeed]
      rfl
    · refine ⟨state.reset,rfl,fun q rest => ?_⟩
      rw [Item.slots,singleton_append,findLoop,if_neg h0,if_neg hl,if_pos (by simp [husable])]
      rfl
  | entry long record =>
    obtain ⟨husable,hlong⟩ := hx
    cases long with
    | none =>
      have htake : lfnTake state record = none := by rw [lfnTake,if_pos (by simp [hv])]
      refine ⟨state.reset,rfl,fun q rest => ?_⟩
      rw [Item.slots,singleton_append,findLoop_usable husable,htake]
      simp only [entriesFrom,find?_cons,find?_nil]
      cases answers none record q <;> rfl
    | some name =>
      obtain ⟨hascii,hne,hmax,-⟩ := hlong name rfl
      obtain ⟨state',hr,hfind⟩ :=
        findLoop_long hascii hne hmax (lfnChecksum (storedName record)) i state
      have htake : lfnTake state' record = some name := hr.lfnTake hascii hne hmax rfl
      refine ⟨state'.reset,rfl,fun q rest => ?_⟩
      rw [Item.slots,append_assoc,hfind,singleton_append,findLoop_usable husable,htake]
      simp only [entriesFrom,find?_cons,find?_nil,Item.slots,length_append,
        length_lfnSlots,length_singleton,hr.startIndex]
      cases answers (some name) record q <;> rfl

theorem findLoop_flat (h : ∀ x ∈ items, x.Ok)
    (hv : state.valid = false) (i z : ℕ) (q : List Byte) :
    findLoop q (flat items ++ replicate z zeroSlot) i state =
      ((entriesFrom i items).find? fun e => answers e.1 e.2.entry q).map Prod.snd := by
  induction items generalizing i state with
  | nil =>
    cases z with
    | zero => rfl
    | succ z => rfl
  | cons x items ih =>
    obtain ⟨hx,hitems⟩ := forall_mem_cons.mp h
    obtain ⟨state',hv',hfind⟩ := findLoop_item hx hv i
    have hcons : entriesFrom i (x :: items) =
        entriesFrom i [x] ++ entriesFrom (i + x.slots.length) items := by
      have := entriesFrom_append i [x] items
      simpa using this
    rw [flat_cons,append_assoc,hfind,ih hitems hv',hcons,find?_append]
    cases (entriesFrom i [x]).find? fun e => answers e.1 e.2.entry q with
    | none => rfl
    | some e => rfl

/-- The records of the directory are those of the items, and then empty ones. -/
structure DirLayout (slots : List Slot) (items : List Item) (z : ℕ) : Prop where
  eq : slots = flat items ++ List.replicate z zeroSlot
  ok : ∀ x ∈ items, x.Ok

theorem DirLayout.findEntry {slots : List Slot} {z : ℕ} (h : DirLayout slots items z)
    (q : List Byte) : findEntry slots q =
      ((entriesFrom 0 items).find? fun e => answers e.1 e.2.entry q).map Prod.snd := by
  rw [Fat.findEntry,h.eq]
  exact findLoop_flat h.ok rfl 0 z q

/-! ## Free records -/

theorem entryIsFree_lfnSlots {k : ℕ} (hk : k ≤ 20) :
    ∀ r ∈ lfnSlots name checksum k, entryIsFree r = false := by
  induction k with
  | zero => exact fun r hr => (not_mem_nil hr).elim
  | succ k ih =>
    refine forall_mem_cons.mpr ⟨?_,ih (by omega)⟩
    obtain ⟨h0,he⟩ := writeLfnSlot_marker name (k + 1 == (name.length + 12) / 13) checksum
      (Nat.succ_ne_zero k) hk
    rw [entryIsFree,beq_eq_false_iff_ne.mpr h0,beq_eq_false_iff_ne.mpr he]
    rfl

theorem Item.Ok.not_free {long : Option (List Byte)} {record : Slot}
    (h : (Item.entry long record).Ok) : ∀ r ∈ (Item.entry long record).slots, entryIsFree r = false := by
  obtain ⟨husable,hlong⟩ := h
  have hrecord := (usable_spec husable).2.1
  cases long with
  | none =>
    intro r hr
    rw [mem_singleton.mp hr]
    exact hrecord
  | some name =>
    intro r hr
    have hmax := (hlong name rfl).2.2.1
    unfold fatLfnMax at hmax
    rcases mem_append.mp hr with hr | hr
    · exact entryIsFree_lfnSlots (by omega) r hr
    · rw [mem_singleton.mp hr]
      exact hrecord

theorem findRun_spec {count i run found : ℕ} {slots : List Slot}
    (h : findRun count slots i run start = some found) (hrun : run < count)
    (hstart : run ≠ 0 → start + run = i) :
    ∃ a b c, slots = a ++ b ++ c ∧ (∀ r ∈ b, entryIsFree r = true) ∧
      ((a = [] ∧ run + b.length = count ∧ found + run = i) ∨
        (a ≠ [] ∧ b.length = count ∧ found = i + a.length ∧
          ∀ r, a.getLast? = some r → entryIsFree r = false)) := by
  induction slots generalizing i run start with
  | nil => cases h
  | cons entry rest ih =>
    rw [findRun] at h
    by_cases hf : entryIsFree entry = true
    · rw [if_pos hf] at h
      by_cases hlast : run + 1 = count
      · rw [if_pos hlast] at h
        cases h
        refine ⟨[],[entry],rest,rfl,fun r hr => mem_singleton.mp hr ▸ hf,Or.inl ?_⟩
        refine ⟨rfl,hlast,?_⟩
        split_ifs with hz
        · omega
        · exact hstart hz
      · rw [if_neg hlast] at h
        have hnext : run + 1 ≠ 0 → (if run = 0 then i else start) + (run + 1) = i + 1 := by
          split_ifs with hz
          · omega
          · omega
        obtain ⟨a,b,c,heq,hfree,hcase⟩ := ih h (by omega) hnext
        rcases hcase with ⟨rfl,hlen,hfound⟩ | ⟨hne,hlen,hfound,hprev⟩
        · refine ⟨[],entry :: b,c,by rw [heq]; rfl,forall_mem_cons.mpr ⟨hf,hfree⟩,Or.inl ?_⟩
          exact ⟨rfl,by rw [length_cons]; omega,by omega⟩
        · refine ⟨entry :: a,b,c,by rw [heq]; rfl,hfree,Or.inr ⟨cons_ne_nil _ _,hlen,?_,?_⟩⟩
          · rw [length_cons]
            omega
          · obtain ⟨x,xs,rfl⟩ := exists_cons_of_ne_nil hne
            exact hprev
    · rw [if_neg hf] at h
      rw [Bool.not_eq_true] at hf
      obtain ⟨a,b,c,heq,hfree,hcase⟩ := ih h (by omega) fun h0 => absurd rfl h0
      rcases hcase with ⟨rfl,hlen,hfound⟩ | ⟨hne,hlen,hfound,hprev⟩
      · refine ⟨[entry],b,c,by rw [heq]; rfl,hfree,Or.inr ⟨cons_ne_nil _ _,by omega,?_,?_⟩⟩
        · omega
        · rintro r ⟨⟩
          exact hf
      · refine ⟨entry :: a,b,c,by rw [heq]; rfl,hfree,Or.inr ⟨cons_ne_nil _ _,hlen,?_,?_⟩⟩
        · rw [length_cons]
          omega
        · obtain ⟨x,xs,rfl⟩ := exists_cons_of_ne_nil hne
          exact hprev

def Item.IsHole (x : Item) : Prop := ∃ record, x = .hole record

theorem Item.Ok.isHole {x : Item} (hx : x.Ok) {r : Slot} (hr : r ∈ x.slots)
    (hf : entryIsFree r = true) : x.IsHole := by
  cases x with
  | hole record => exact ⟨record,rfl⟩
  | entry long record => exact absurd hf (by rw [hx.not_free r hr]; exact Bool.false_ne_true)

theorem flat_split (h : ∀ x ∈ items, x.Ok) {z : ℕ} {a rest : List Slot} {r : Slot}
    (heq : flat items ++ replicate z zeroSlot = a ++ r :: rest) (hr : entryIsFree r = true)
    (ha : ∀ r', a.getLast? = some r' → entryIsFree r' = false) :
    ∃ pre post, items = pre ++ post ∧ flat pre = a ∧
      flat post ++ replicate z zeroSlot = r :: rest := by
  induction items generalizing a with
  | nil =>
    cases hl : a.getLast? with
    | none =>
      rw [getLast?_eq_none_iff.mp hl] at heq ⊢
      exact ⟨[],[],rfl,rfl,heq⟩
    | some r' =>
      have hmem : r' ∈ replicate z zeroSlot := by
        rw [flat_nil,nil_append] at heq
        rw [heq]
        exact mem_append_left _ (mem_of_getLast? hl)
      have hzero := ha r' hl
      rw [(mem_replicate.mp hmem).2] at hzero
      exact absurd hzero (by decide)
  | cons x items ih =>
    obtain ⟨hx,hitems⟩ := forall_mem_cons.mp h
    cases a with
    | nil => exact ⟨[],x :: items,rfl,rfl,heq⟩
    | cons a0 as =>
      rw [flat_cons,append_assoc] at heq
      rcases append_eq_append_iff.mp heq with ⟨as',has,hrest⟩ | ⟨cs,hcs,hrest⟩
      · have hlast : ∀ r', as'.getLast? = some r' → entryIsFree r' = false := by
          intro r' hr'
          refine ha r' ?_
          rw [has,getLast?_append,hr']
          rfl
        obtain ⟨pre,post,rfl,hpre,hpost⟩ := ih hitems hrest hlast
        exact ⟨x :: pre,post,rfl,by rw [flat_cons,hpre,has],hpost⟩
      · cases cs with
        | nil =>
          rw [append_nil] at hcs
          exact ⟨[x],items,rfl,by rw [flat_cons,flat_nil,append_nil,hcs],hrest.symm⟩
        | cons c cs =>
          -- the records `a0` and `r` belong to one item, which is an entry
          obtain ⟨rfl,-⟩ := cons.inj hrest
          obtain ⟨record,rfl⟩ := hx.isHole (hcs ▸ mem_append_right _ (mem_cons_self ..)) hr
          have hlen := congrArg length hcs
          simp [Item.slots] at hlen

theorem flat_free (h : ∀ x ∈ items, x.Ok) {z : ℕ} {b c : List Slot}
    (heq : flat items ++ replicate z zeroSlot = b ++ c) (hb : ∀ r ∈ b, entryIsFree r = true) :
    ∃ mid post z', items = mid ++ post ∧ (∀ x ∈ mid, x.IsHole) ∧
      c = flat post ++ replicate z' zeroSlot ∧ (post = [] ∨ mid.length = b.length) := by
  induction items generalizing b with
  | nil =>
    rw [flat_nil,nil_append] at heq
    refine ⟨[],[],c.length,rfl,fun x hx => (not_mem_nil hx).elim,?_,Or.inl rfl⟩
    refine eq_replicate_iff.mpr ⟨rfl,fun r hr => ?_⟩
    have hmem : r ∈ replicate z zeroSlot := heq ▸ mem_append_right _ hr
    exact (mem_replicate.mp hmem).2
  | cons x items ih =>
    obtain ⟨hx,hitems⟩ := forall_mem_cons.mp h
    cases b with
    | nil => exact ⟨[],x :: items,z,rfl,fun x hx => (not_mem_nil hx).elim,heq.symm,Or.inr rfl⟩
    | cons r b =>
      obtain ⟨hr,hb⟩ := forall_mem_cons.mp hb
      rw [flat_cons,append_assoc] at heq
      have hmem : r ∈ x.slots := by
        cases hs : x.slots with
        | nil =>
          cases x with
          | hole record => cases hs
          | entry long record =>
            cases long with
            | none => cases hs
            | some name => simp [Item.slots] at hs
        | cons r' rs =>
          rw [hs] at heq
          obtain ⟨rfl,-⟩ := cons.inj heq
          exact mem_cons_self ..
      obtain ⟨record,rfl⟩ := hx.isHole hmem hr
      obtain ⟨-,heq⟩ := cons.inj heq
      obtain ⟨mid,post,z',rfl,hmid,hc,hlen⟩ := ih hitems heq hb
      refine ⟨.hole record :: mid,post,z',rfl,forall_mem_cons.mpr ⟨⟨record,rfl⟩,hmid⟩,hc,
        hlen.imp id fun hl => by rw [length_cons,length_cons,hl]⟩

theorem flat_holes {mid : List Item} (h : ∀ x ∈ mid, x.IsHole) :
    (flat mid).length = mid.length ∧ ∀ i, entriesFrom i mid = [] := by
  induction mid with
  | nil => exact ⟨rfl,fun _ => rfl⟩
  | cons x mid ih =>
    obtain ⟨⟨record,rfl⟩,hmid⟩ := forall_mem_cons.mp h
    obtain ⟨hlen,hnone⟩ := ih hmid
    refine ⟨?_,fun i => hnone (i + 1)⟩
    rw [flat_cons,length_append,hlen,length_cons,Item.slots,length_singleton,Nat.add_comm]

def Inserted (x : Option (List Byte) × Found) (old new : List (Option (List Byte) × Found)) : Prop :=
  ∃ a b, old = a ++ b ∧ new = a ++ x :: b

theorem putSlots_append {a b c new : List Slot} (h : b.length = new.length) :
    putSlots (a ++ b ++ c) a.length new = a ++ new ++ c := by
  have htake : (a ++ b ++ c).take a.length = a := by rw [append_assoc,take_left]
  have hdrop : (a ++ b ++ c).drop (a.length + new.length) = c := by
    rw [← h,← length_append,drop_left]
  rw [putSlots,htake,hdrop]

variable {slots : List Slot} {items : List Item} {z : ℕ}

theorem DirLayout.put (h : DirLayout slots items z) {long : Option (List Byte)} {record : Slot}
    (hx : (Item.entry long record).Ok)
    (hrun : findRun (Item.entry long record).slots.length slots 0 0 0 = some start) :
    ∃ items' z', DirLayout (putSlots slots start (Item.entry long record).slots) items' z' ∧
      Inserted (long, ⟨start,start + (Item.entry long record).slots.length - 1,record⟩)
        (entriesFrom 0 items) (entriesFrom 0 items') := by
  generalize hs : (Item.entry long record).slots = new at hrun
  have hpos : 0 < new.length := by
    rw [← hs]
    cases long <;> simp [Item.slots]
  obtain ⟨a,b,c,rfl,hfree,hcase⟩ := findRun_spec hrun hpos (fun h0 => absurd rfl h0)
  obtain ⟨hlen,rfl,hlast⟩ : b.length = new.length ∧ start = a.length ∧
      ∀ r, a.getLast? = some r → entryIsFree r = false := by
    rcases hcase with ⟨rfl,hlen,hstart⟩ | ⟨-,hlen,hstart,hlast⟩
    · exact ⟨by omega,by simpa using hstart,fun r hr => nomatch hr⟩
    · exact ⟨hlen,by omega,hlast⟩
  cases b with
  | nil =>
    rw [length_nil] at hlen
    omega
  | cons r b =>
    have heq := h.eq.symm
    rw [append_assoc,cons_append] at heq
    obtain ⟨pre,rest,rfl,rfl,hrest⟩ := flat_split h.ok heq (hfree r (mem_cons_self ..)) hlast
    have hokrest : ∀ x ∈ rest, x.Ok := fun x hx => h.ok x (mem_append_right _ hx)
    obtain ⟨mid,post,z',rfl,hmid,rfl,hor⟩ :=
      flat_free hokrest (b := r :: b) (by rw [hrest]; rfl) hfree
    refine ⟨pre ++ .entry long record :: post,z',⟨?_,?_⟩,?_⟩
    · rw [putSlots_append hlen,flat_append,flat_cons,hs]
      simp
    · intro x hx'
      rcases mem_append.mp hx' with hx' | hx'
      · exact h.ok x (mem_append_left _ hx')
      · rcases mem_cons.mp hx' with rfl | hx'
        · exact hx
        · exact hokrest x (mem_append_right _ hx')
    · obtain ⟨hmidlen,hmidnone⟩ := flat_holes hmid
      refine ⟨entriesFrom 0 pre,entriesFrom ((flat pre).length + new.length) post,?_,?_⟩
      · rw [entriesFrom_append,entriesFrom_append,hmidnone,nil_append,Nat.zero_add,hmidlen]
        rcases hor with rfl | hor
        · rfl
        · rw [hor,hlen]
      · rw [entriesFrom_append,entriesFrom,hs,Nat.zero_add]

end GaiaKernel.Fat
