import GaiaKernel.Net.Arp

/-! # No frame goes to the wrong station

The cache keeps one entry per address and sends no frame twice, whatever the order of the sections.
That a frame carries an address learned for its own next hop needs more: until the drain that an
answer starts has ended, the slot must not pass to another address.
-/
namespace GaiaKernel.Arp
open Net Function List Nat State
variable {s s' : State} {i : CacheSlot}

/-! ### What the sections do to a slot -/

/-- Slot `i` has become free; frames may have been dropped, and nothing else has changed. -/
structure Vacated (s : State) (i : CacheSlot) (s' : State) : Prop where
  free : (s'.cache i).state = .free
  other : ∀ j, j ≠ i → s'.cache j = s.cache j
  pending : ∀ p, s'.pending p = s.pending p ∨ s'.pending p = { s.pending p with inUse := false }
  draining : s'.draining = s.draining
  learned : s'.learned = s.learned
  sent : s'.sent = s.sent
  nextSerial : s'.nextSerial = s.nextSerial

variable {ip : Ipv4Addr} {p : PendingSlot}

theorem Vacated.of_inUse (h : Vacated s i s') (hp : (s'.pending p).inUse) :
    s'.pending p = s.pending p := by
  rcases h.pending p with heq | heq
  · exact heq
  · rw [heq] at hp
    cases hp

def Unawaited (s : State) (i : CacheSlot) : Prop := ∀ p, (s.pending p).inUse → (s.pending p).entry ≠ i

namespace State

theorem vacated_drop (s : State) (i : CacheSlot) :
    Vacated s i ((s.arpDropPending i).setEntry i .zero) ∧
      Unawaited ((s.arpDropPending i).setEntry i .zero) i := by
  refine ⟨⟨?_,fun j hj => update_of_ne hj _ _,fun p => ?_,rfl,rfl,rfl,rfl⟩,fun p hp => ?_⟩
  · simp [setEntry,Entry.zero]
  · simp only [setEntry,arpDropPending]
    split
    · exact .inr rfl
    · exact .inl rfl
  · simp only [setEntry,arpDropPending] at hp ⊢
    split at hp
    · cases hp
    case isFalse hne =>
      rw [if_neg hne]
      exact fun he => hne ⟨hp,he⟩

theorem victimFrom_free {l : List CacheSlot} {victim : CacheSlot}
    (h : (s.victimFrom l victim).2 = false) : (s.cache (s.victimFrom l victim).1).state = .free := by
  induction l generalizing victim with
  | nil => cases h
  | cons j l ih =>
    rw [victimFrom] at h ⊢
    split at h
    case isTrue hj => rwa [if_pos hj]
    case isFalse hj =>
      rw [if_neg hj]
      exact ih h

theorem vacated_arpAlloc (s : State) : Vacated s s.arpAlloc.1 s.arpAlloc.2 ∧
    ((s.cache s.arpAlloc.1).state = .free ∨ Unawaited s.arpAlloc.2 s.arpAlloc.1) := by
  unfold arpAlloc
  dsimp only
  split
  case isTrue h =>
    obtain ⟨hv,hu⟩ := s.vacated_drop (s.victimFrom cacheSlots ⟨0,by decide⟩).1
    exact ⟨hv,.inr hu⟩
  case isFalse h =>
    have hfree := victimFrom_free (Bool.eq_false_iff.mpr h)
    exact ⟨⟨hfree,fun _ _ => rfl,fun _ => .inl rfl,rfl,rfl,rfl,rfl⟩,.inl hfree⟩

theorem arpFind_some (h : s.arpFind ip = some i) :
    (s.cache i).state ≠ .free ∧ (s.cache i).ip = ip := by
  have hfound := find?_some h
  simpa using hfound

theorem arpFind_none (h : s.arpFind ip = none) (i : CacheSlot)
    (hi : (s.cache i).state ≠ .free) : (s.cache i).ip ≠ ip := by
  have hnone := find?_eq_none.mp h i (mem_finRange i)
  intro hip
  exact hnone (by simp [hi,hip])

theorem parkedAt_some (h : s.parkedAt i = some p) :
    (s.pending p).inUse ∧ (s.pending p).entry = i := by
  have hfound := find?_some h
  simpa using hfound

theorem parked_of_unparked {q : PendingSlot}
    (hq : ((s.setPending p { s.pending p with inUse := false }).pending q).inUse) :
    q ≠ p ∧ (s.setPending p { s.pending p with inUse := false }).pending q = s.pending q := by
  by_cases hqp : q = p
  · subst hqp
    simp [setPending] at hq
  · exact ⟨hqp,update_of_ne hqp _ _⟩

end State

/-! ### The invariant of every order of sections -/

structure Tidy (s : State) : Prop where
  unique : ∀ i j, (s.cache i).state ≠ .free → (s.cache j).state ≠ .free →
    (s.cache i).ip = (s.cache j).ip → i = j
  valid : ∀ i, (s.cache i).state = .valid → ((s.cache i).ip, (s.cache i).mac) ∈ s.learned
  drains : ∀ d ∈ s.draining, (d.ip, d.mac) ∈ s.learned
  serial : ∀ p, (s.pending p).inUse →
    (s.pending p).serial < s.nextSerial ∧ ∀ t ∈ s.sent, t.serial ≠ (s.pending p).serial
  apart : ∀ p q, (s.pending p).inUse → (s.pending q).inUse →
    (s.pending p).serial = (s.pending q).serial → p = q
  past : ∀ t ∈ s.sent, t.serial < s.nextSerial
  once : (s.sent.map Sent.serial).Nodup

namespace Tidy
variable (h : Tidy s)
include h

theorem vacated (hv : Vacated s i s') : Tidy s' := by
  have hcache : ∀ j, (s'.cache j).state ≠ .free → s'.cache j = s.cache j := by
    intro j hj
    refine hv.other j ?_
    rintro rfl
    exact hj hv.free
  refine ⟨fun j k hj hk hip => ?_,fun j hj => ?_,?_,fun p hp => ?_,fun p q hp hq heq => ?_,?_,?_⟩
  · rw [hcache j hj,hcache k hk] at hip
    rw [hcache j hj] at hj
    rw [hcache k hk] at hk
    exact h.unique j k hj hk hip
  · have hne : (s'.cache j).state ≠ .free := by rw [hj]; decide
    rw [hcache j hne] at hj ⊢
    rw [hv.learned]
    exact h.valid j hj
  · rw [hv.draining,hv.learned]
    exact h.drains
  · have heq := hv.of_inUse hp
    rw [heq] at hp
    rw [heq,hv.nextSerial,hv.sent]
    exact h.serial p hp
  · have hp' := hv.of_inUse hp
    have hq' := hv.of_inUse hq
    rw [hp'] at hp
    rw [hq'] at hq
    rw [hp',hq'] at heq
    exact h.apart p q hp hq heq
  · rw [hv.sent,hv.nextSerial]
    exact h.past
  · rw [hv.sent]
    exact h.once

theorem setEntry {e : Entry} (hip : ∀ j, j ≠ i → (s.cache j).state ≠ .free → (s.cache j).ip ≠ e.ip)
    (hvalid : e.state = .valid → (e.ip, e.mac) ∈ s.learned) : Tidy (s.setEntry i e) := by
  have hself : (s.setEntry i e).cache i = e := update_self _ _ _
  have hother : ∀ j, j ≠ i → (s.setEntry i e).cache j = s.cache j := fun j hj => update_of_ne hj _ _
  refine ⟨fun j k hj hk heq => ?_,fun j hj => ?_,h.drains,h.serial,h.apart,h.past,h.once⟩
  · by_cases hji : j = i
    · by_cases hki : k = i
      · rw [hji,hki]
      · rw [hji,hself,hother k hki] at heq
        rw [hother k hki] at hk
        exact absurd heq.symm (hip k hki hk)
    · rw [hother j hji] at hj heq
      by_cases hki : k = i
      · rw [hki,hself] at heq
        exact absurd heq (hip j hji hj)
      · rw [hother k hki] at hk heq
        exact h.unique j k hj hk heq
  · by_cases hji : j = i
    · rw [hji,hself] at hj ⊢
      exact hvalid hj
    · rw [hother j hji] at hj ⊢
      exact h.valid j hj

theorem park (i : CacheSlot) (ip : Ipv4Addr) (type : U16) (frame : List Byte)
    (now : ℕ) : Tidy (s.park i ip type frame now) := by
  -- every slot but the new one is as it was, and the new serial number is above all others
  have hcases : ∀ p, (s.park i ip type frame now).pending p = s.pending p ∨ (p = s.arpPendingAlloc ∧
        (s.park i ip type frame now).pending p = ⟨true,i,type,frame,now,ip,s.nextSerial⟩) := by
    intro p
    by_cases hp : p = s.arpPendingAlloc
    · subst hp
      exact .inr ⟨rfl,update_self _ _ _⟩
    · exact .inl (update_of_ne hp _ _)
  refine ⟨h.unique,h.valid,h.drains,fun p hp => ?_,fun p q hp hq heq => ?_,
    fun t ht => lt_succ_of_lt (h.past t ht),h.once⟩
  · rcases hcases p with hold | ⟨_,hnew⟩
    · rw [hold] at hp ⊢
      exact ⟨lt_succ_of_lt (h.serial p hp).1,(h.serial p hp).2⟩
    · rw [hnew]
      exact ⟨lt_succ_self _,fun t ht => Nat.ne_of_lt (h.past t ht)⟩
  · rcases hcases p with hp' | ⟨hp1,hp'⟩ <;> rcases hcases q with hq' | ⟨hq1,hq'⟩
    · rw [hp'] at hp heq
      rw [hq'] at hq heq
      exact h.apart p q hp hq heq
    · rw [hp'] at hp heq
      rw [hq'] at heq
      exact absurd heq (Nat.ne_of_lt (h.serial p hp).1)
    · rw [hq'] at hq heq
      rw [hp'] at heq
      exact absurd heq.symm (Nat.ne_of_lt (h.serial q hq).1)
    · rw [hp1,hq1]

/-- A frame goes out under a serial number that no frame sent and no frame still parked has. -/
theorem transmit {pending : PendingSlot → Parked} {serial next : ℕ}
    (hnext : s.nextSerial ≤ next) (hserial : serial < next)
    (hsent : ∀ t ∈ s.sent, t.serial ≠ serial)
    (hpending : ∀ q, (pending q).inUse → pending q = s.pending q ∧ (s.pending q).serial ≠ serial)
    (hop : Ipv4Addr) (mac : Mac) (type : U16) (frame : List Byte) :
    Tidy { s.transmit hop mac type frame serial with pending := pending, nextSerial := next } := by
  have hmem : ∀ t ∈ (s.transmit hop mac type frame serial).sent, t ∈ s.sent ∨ t.serial = serial := by
    intro t ht
    rcases mem_append.mp ht with ht | ht
    · exact .inl ht
    · rw [mem_singleton.mp ht]
      exact .inr rfl
  refine ⟨h.unique,h.valid,h.drains,fun q hq => ?_,fun q r hq hr heq => ?_,fun t ht => ?_,?_⟩
  · dsimp only at hq ⊢
    obtain ⟨hsame,hne⟩ := hpending q hq
    rw [hsame] at hq ⊢
    refine ⟨lt_of_lt_of_le (h.serial q hq).1 hnext,fun t ht => ?_⟩
    rcases hmem t ht with ht | ht
    · exact (h.serial q hq).2 t ht
    · rw [ht]
      exact hne.symm
  · dsimp only at hq hr heq
    rw [(hpending q hq).1,(hpending r hr).1] at heq
    exact h.apart q r ((hpending q hq).1 ▸ hq) ((hpending r hr).1 ▸ hr) heq
  · rcases hmem t ht with ht | ht
    · exact lt_of_lt_of_le (h.past t ht) hnext
    · rw [ht]
      exact hserial
  · simp only [State.transmit,map_append,map_singleton]
    refine nodup_append.mpr ⟨h.once,nodup_singleton _,fun a ha b hb => ?_⟩
    obtain ⟨t,ht,rfl⟩ := mem_map.mp ha
    rw [mem_singleton.mp hb]
    exact hsent t ht

theorem transmit_parked (hp : (s.pending p).inUse)
    (hop : Ipv4Addr) (mac : Mac) (type : U16) (frame : List Byte) :
    Tidy ((s.setPending p { s.pending p with inUse := false }).transmit hop mac type frame
      (s.pending p).serial) := by
  refine h.transmit le_rfl (h.serial p hp).1 (h.serial p hp).2 (fun q hq => ?_) hop mac type frame
  obtain ⟨hqp,hsame⟩ := parked_of_unparked hq
  exact ⟨hsame,fun heq => hqp (h.apart q p (hsame ▸ hq) hp heq)⟩

theorem learn (i : CacheSlot) (ip : Ipv4Addr) (mac : Mac) (now hz : ℕ)
    (hip : ∀ j, j ≠ i → (s.cache j).state ≠ .free → (s.cache j).ip ≠ ip) :
    Tidy (s.resolve i ip mac now hz) := by
  have hmore : Tidy { s with
      draining := s.draining ++ [⟨i,mac,ip⟩], learned := (ip, mac) :: s.learned } := by
    refine ⟨h.unique,fun j hj => mem_cons_of_mem _ (h.valid j hj),fun d hd => ?_,h.serial,
      h.apart,h.past,h.once⟩
    rcases mem_append.mp hd with hd | hd
    · exact mem_cons_of_mem _ (h.drains d hd)
    · rw [mem_singleton.mp hd]
      exact mem_cons_self
  exact hmore.setEntry (e := ⟨ip,mac,.valid,0,arpDeadline now hz arpEntryTtlMs⟩) hip
    fun _ => mem_cons_self

omit h in
theorem absent_arpAlloc (hfind : s.arpFind ip = none) :
    ∀ j, j ≠ s.arpAlloc.1 → (s.arpAlloc.2.cache j).state ≠ .free → (s.arpAlloc.2.cache j).ip ≠ ip := by
  intro j hj hstate
  rw [s.vacated_arpAlloc.1.other j hj] at hstate ⊢
  exact arpFind_none hfind j hstate

theorem tickEntry (now hz : ℕ) (i : CacheSlot) : Tidy (s.tickEntry now hz i) := by
  unfold State.tickEntry
  dsimp only
  split
  · exact h
  case isFalse hlive =>
    have hip : ∀ j, j ≠ i → (s.cache j).state ≠ .free → (s.cache j).ip ≠ (s.cache i).ip :=
      fun j hj hs heq => hj (h.unique j i hs (fun hf => hlive (.inl hf)) heq)
    split
    · exact h.setEntry hip fun hv => by cases hv
    case isFalse hvalid =>
      split
      · exact h.vacated (s.vacated_drop i).1
      · exact h.setEntry hip fun hv => absurd hv hvalid

theorem step (op : Op) : Tidy (step s op) := by
  cases op with
  | send ip type payload now hz =>
    simp only [Arp.step,arpSendOrQueue]
    split
    · exact h
    · split
      · split
        · exact h.transmit (le_succ _) (lt_succ_self _) (fun t ht => (h.past t ht).ne)
            (fun q hq => ⟨rfl,(h.serial q hq).1.ne⟩) _ _ _ _
        · exact h.park _ _ _ _ _
      case h_2 hfind =>
        refine ((h.vacated s.vacated_arpAlloc.1).setEntry ?_ fun hv => by cases hv).park _ _ _ _ _
        exact absent_arpAlloc hfind
  | learn ip mac mayCreate now hz =>
    simp only [Arp.step,arpLearn]
    split
    case h_1 i hfind =>
      obtain ⟨hstate,hip⟩ := arpFind_some hfind
      exact h.learn i ip mac now hz fun j hj hs heq =>
        hj (h.unique j i hs hstate (heq.trans hip.symm))
    case h_2 hfind =>
      split
      · exact (h.vacated s.vacated_arpAlloc.1).learn _ ip mac now hz (absent_arpAlloc hfind)
      · exact h
  | drain n =>
    simp only [Arp.step,arpFlushPending]
    split
    · exact h
    · split
      · exact ⟨h.unique,h.valid,fun d hd => h.drains d (mem_of_mem_eraseIdx hd),h.serial,
          h.apart,h.past,h.once⟩
      case h_2 p hp => exact h.transmit_parked (parkedAt_some hp).1 _ _ _ _
  | tick now hz =>
    simp only [Arp.step,arpTick]
    generalize cacheSlots = l
    induction l generalizing s with
    | nil => exact h
    | cons i l ih => exact ih (h.tickEntry now hz i)
  | flush =>
    refine ⟨fun i _ hi => absurd rfl hi,fun i hi => ?_,h.drains,fun p hp => ?_,fun p _ hp => ?_,
      h.past,h.once⟩
    · exact absurd hi (by simp [Arp.step,arpFlush,Entry.zero])
    · exact absurd hp (by simp [Arp.step,arpFlush])
    · exact absurd hp (by simp [Arp.step,arpFlush])

end Tidy

theorem tidy_start : Tidy start := by
  refine ⟨fun i _ hi => absurd rfl hi,fun i hi => ?_,?_,fun p hp => ?_,fun p _ hp => ?_,?_,?_⟩
  · cases hi
  · simp [start]
  · cases hp
  · cases hp
  · simp [start]
  · simp [start]

/-! ### Frames and addresses -/

/-- Every parked frame waits for an entry of the next hop it was queued for, and every frame
sent carries an address learned for its next hop. -/
structure OnTrack (s : State) : Prop where
  parked : ∀ p, (s.pending p).inUse → (s.cache (s.pending p).entry).state ≠ .free ∧
    (s.cache (s.pending p).entry).ip = (s.pending p).hop
  sent : ∀ t ∈ s.sent, (t.hop, t.mac) ∈ s.learned

namespace OnTrack
variable (h : OnTrack s)
include h

theorem vacated (hv : Vacated s i s')
    (hu : (s.cache i).state = .free ∨ Unawaited s' i) : OnTrack s' := by
  refine ⟨fun p hp => ?_,by rw [hv.sent,hv.learned]; exact h.sent⟩
  have heq := hv.of_inUse hp
  have hold := h.parked p (heq ▸ hp)
  have hne : (s'.pending p).entry ≠ i := by
    rcases hu with hfree | hu
    · rw [heq]
      rintro rfl
      exact hold.1 hfree
    · exact hu p hp
  rw [hv.other _ hne,heq]
  exact hold

theorem setEntry {e : Entry} (he : e.state ≠ .free)
    (hi : (s.cache i).state = .free ∨ (s.cache i).ip = e.ip) : OnTrack (s.setEntry i e) := by
  refine ⟨fun p hp => ?_,h.sent⟩
  obtain ⟨hstate,hip⟩ := h.parked p hp
  by_cases hpi : (s.pending p).entry = i
  · have hself : (s.setEntry i e).cache ((s.setEntry i e).pending p).entry = e := by
      rw [show ((s.setEntry i e).pending p).entry = i from hpi]
      exact update_self _ _ _
    rw [hself]
    rw [hpi] at hstate hip
    exact ⟨he,(hi.resolve_left hstate).symm.trans hip⟩
  · rw [show (s.setEntry i e).cache ((s.setEntry i e).pending p).entry = s.cache (s.pending p).entry
      from update_of_ne hpi _ _]
    exact ⟨hstate,hip⟩

theorem park (hi : (s.cache i).state ≠ .free ∧ (s.cache i).ip = ip)
    (type : U16) (frame : List Byte) (now : ℕ) : OnTrack (s.park i ip type frame now) := by
  refine ⟨fun p hp => ?_,h.sent⟩
  by_cases hpa : p = s.arpPendingAlloc
  · subst hpa
    rw [show (s.park i ip type frame now).pending s.arpPendingAlloc = _ from
      update_self _ _ _]
    exact hi
  · have hsame : (s.park i ip type frame now).pending p = s.pending p := update_of_ne hpa _ _
    rw [hsame] at hp ⊢
    exact h.parked p hp

theorem transmit {hop : Ipv4Addr} {mac : Mac} (hl : (hop, mac) ∈ s.learned)
    (type : U16) (frame : List Byte) (serial : ℕ) :
    OnTrack (s.transmit hop mac type frame serial) := by
  refine ⟨h.parked,fun t ht => ?_⟩
  rcases mem_append.mp ht with ht | ht
  · exact h.sent t ht
  · rw [mem_singleton.mp ht]
    exact hl

theorem resolve (ip : Ipv4Addr) (mac : Mac) (now hz : ℕ)
    (hi : (s.cache i).state = .free ∨ (s.cache i).ip = ip) : OnTrack (s.resolve i ip mac now hz) := by
  have hset := h.setEntry (e := ⟨ip,mac,.valid,0,arpDeadline now hz arpEntryTtlMs⟩)
    (by simp) hi
  exact ⟨hset.parked,fun t ht => mem_cons_of_mem _ (h.sent t ht)⟩

theorem tickEntry (now hz : ℕ) (i : CacheSlot)
    (hc : (s.cache i).state = .valid → (s.cache i).deadline ≤ now → Unawaited s i) :
    OnTrack (s.tickEntry now hz i) := by
  unfold State.tickEntry
  dsimp only
  split
  · exact h
  case isFalse hlive =>
    obtain ⟨hne,hnow⟩ := not_or.mp hlive
    split
    case isTrue hvalid =>
      refine h.vacated (i := i) ⟨?_,fun j hj => update_of_ne hj _ _,fun _ => .inl rfl,
        rfl,rfl,rfl,rfl⟩ (.inr (hc hvalid (by omega)))
      simp [State.setEntry]
    case isFalse hvalid =>
      split
      · exact h.vacated (s.vacated_drop i).1 (.inr (s.vacated_drop i).2)
      · exact h.setEntry hne (.inr rfl)

end OnTrack

/-- What the source takes for granted between two sections of one caller: the slot a drain works
on still belongs to the address it was started for, unless no frame waits there, and no resolved
entry expires while frames wait for it. -/
def Undisturbed (s : State) : Op → Prop
  | .drain n => ∀ d, s.draining[n]? = some d → Unawaited s d.entry ∨
      (s.cache d.entry).state ≠ .free ∧ (s.cache d.entry).ip = d.ip
  | .tick now _ => ∀ i, (s.cache i).state = .valid → (s.cache i).deadline ≤ now → Unawaited s i
  | _ => True

theorem tickEntry_frame (s : State) (now hz : ℕ) (i : CacheSlot) :
    (∀ j, j ≠ i → (s.tickEntry now hz i).cache j = s.cache j) ∧
      ∀ p, ((s.tickEntry now hz i).pending p).inUse →
        (s.tickEntry now hz i).pending p = s.pending p := by
  unfold tickEntry
  dsimp only
  split
  · exact ⟨fun _ _ => rfl,fun _ _ => rfl⟩
  · split
    · exact ⟨fun j hj => update_of_ne hj _ _,fun _ _ => rfl⟩
    · split
      · have hv := (s.vacated_drop i).1
        exact ⟨hv.other,fun p hp => hv.of_inUse hp⟩
      · exact ⟨fun j hj => update_of_ne hj _ _,fun _ _ => rfl⟩

theorem OnTrack.arpTick (h : OnTrack s) (now hz : ℕ)
    (hc : ∀ i, (s.cache i).state = .valid → (s.cache i).deadline ≤ now → Unawaited s i) :
    OnTrack (s.arpTick now hz) := by
  have hfold : ∀ (l : List CacheSlot) (s : State), l.Nodup → OnTrack s →
      (∀ i ∈ l, (s.cache i).state = .valid → (s.cache i).deadline ≤ now → Unawaited s i) →
      OnTrack (l.foldl (fun s i => s.tickEntry now hz i) s) := by
    intro l
    induction l with
    | nil => exact fun _ _ h _ => h
    | cons i l ih =>
      intro s hnodup h hc
      obtain ⟨hi,hl⟩ := nodup_cons.mp hnodup
      obtain ⟨hcache,hpend⟩ := tickEntry_frame s now hz i
      refine ih _ hl (h.tickEntry now hz i (hc i mem_cons_self)) fun j hj hv hd p hp => ?_
      have hji : j ≠ i := by
        rintro rfl
        exact hi hj
      rw [hcache j hji] at hv hd
      have heq := hpend p hp
      rw [heq] at hp ⊢
      exact hc j (mem_cons_of_mem i hj) hv hd p hp
  exact hfold cacheSlots s (nodup_finRange _) h fun i _ => hc i

theorem OnTrack.step (h : OnTrack s) (ht : Tidy s) (op : Op) (hop : Undisturbed s op) :
    OnTrack (step s op) := by
  cases op with
  | send ip type payload now hz =>
    simp only [Arp.step,arpSendOrQueue]
    split
    · exact h
    · split
      case h_1 i hfind =>
        obtain ⟨hstate,rfl⟩ := arpFind_some hfind
        split
        case isTrue hvalid =>
          have hsent := h.transmit (ht.valid i hvalid) type payload s.nextSerial
          exact ⟨hsent.parked,hsent.sent⟩
        · exact h.park ⟨hstate,rfl⟩ type payload now
      case h_2 hfind =>
        obtain ⟨hv,hu⟩ := s.vacated_arpAlloc
        have hset := (h.vacated hv hu).setEntry (i := s.arpAlloc.1)
          (e := { s.arpAlloc.2.cache s.arpAlloc.1 with
            ip := ip, state := .pending, retries := 0
            deadline := arpDeadline now hz arpRetryMs }) (by simp) (.inl hv.free)
        refine hset.park ?_ type payload now
        rw [show (State.setEntry _ s.arpAlloc.1 _).cache s.arpAlloc.1 = _ from
          update_self _ _ _]
        exact ⟨by simp,rfl⟩
  | learn ip mac mayCreate now hz =>
    simp only [Arp.step,arpLearn]
    split
    case h_1 i hfind => exact h.resolve ip mac now hz (.inr (arpFind_some hfind).2)
    case h_2 hfind =>
      split
      · obtain ⟨hv,hu⟩ := s.vacated_arpAlloc
        exact (h.vacated hv hu).resolve ip mac now hz (.inl hv.free)
      · exact h
  | drain n =>
    simp only [Arp.step,arpFlushPending]
    split
    · exact h
    case h_2 d hd =>
      split
      · exact ⟨h.parked,h.sent⟩
      case h_2 p hp =>
        obtain ⟨huse,hentry⟩ := parkedAt_some hp
        have hslot := (hop d hd).resolve_left fun hu => hu p huse hentry
        have hhop := (h.parked p huse).2
        rw [hentry,hslot.2] at hhop
        have hout : OnTrack (s.setPending p { s.pending p with inUse := false }) := by
          refine ⟨fun q hq => ?_,h.sent⟩
          have hsame := (parked_of_unparked hq).2
          rw [hsame] at hq ⊢
          exact h.parked q hq
        refine hout.transmit ?_ _ _ _
        rw [← hhop]
        exact ht.drains d (mem_of_getElem? hd)
  | tick now hz => exact h.arpTick now hz hop
  | flush => exact ⟨fun p hp => absurd hp (by simp [Arp.step,arpFlush]),h.sent⟩

/-! ### The law -/

def OnePerAddress (s : State) : Prop :=
  ∀ i j, (s.cache i).state ≠ .free → (s.cache j).state ≠ .free →
    (s.cache i).ip = (s.cache j).ip → i = j

def RightAddress (s : State) : Prop := ∀ t ∈ s.sent, (t.hop, t.mac) ∈ s.learned
def SentOnce (s : State) : Prop := (s.sent.map Sent.serial).Nodup

theorem onTrack_start : OnTrack start := by
  refine ⟨fun p hp => ?_,?_⟩
  · cases hp
  · simp [start]

/-- In every order of the sections the cache holds one entry per address and sends no frame twice;
and in every order whose sections are undisturbed, each frame carries an address learned for its
next hop. -/
theorem run_delivers (ops : List Op) :
    Trace.Always step (fun s => OnePerAddress s ∧ SentOnce s) start ops ∧
      (Trace.Admissible step Undisturbed start ops → Trace.Always step RightAddress start ops) := by
  constructor
  · exact Trace.always_of_invariant (fun _ op h => h.step op) (fun _ h => ⟨h.unique,h.once⟩)
      tidy_start ops
  · intro h
    refine h.always (I := fun s => Tidy s ∧ OnTrack s) (fun s op hs hop => ?_)
      (fun s hs => hs.2.sent) ⟨tidy_start,onTrack_start⟩
    exact ⟨hs.1.step op,hs.2.step hs.1 op hop⟩

/-- In every order of the sections, what the cache resolves and what a drain sends to was learned
for that address. -/
theorem run_learned (ops : List Op) : Trace.Always step (fun s =>
    (∀ i, (s.cache i).state = .valid → ((s.cache i).ip, (s.cache i).mac) ∈ s.learned) ∧
      ∀ d ∈ s.draining, (d.ip, d.mac) ∈ s.learned) start ops :=
  Trace.always_of_invariant (fun _ op h => h.step op) (fun _ h => ⟨h.valid,h.drains⟩) tidy_start ops

/-- A frame is parked, its next hop answers, and the drain that the answer starts sends it. -/
theorem run_delivers_answered :
    Trace.Always step RightAddress start
      [.send ⟨10#8,0#8,0#8,2#8⟩ 0x0800#16 [1#8] 0 1000,
        .learn ⟨10#8,0#8,0#8,2#8⟩ 0x020000000002#48 true 1 1000, .drain 0, .drain 0] := by
  refine (run_delivers _).2 ⟨trivial,trivial,fun d hd => ?_,fun d hd => ?_,trivial⟩
  · cases hd
    exact .inr (by decide)
  · cases hd
    exact .inr (by decide)

/-- The cache is flushed between an answer and the drain it starts, and the slot goes to another
address: the drain sends the frame of that address to the station of the first. -/
theorem recycled_slot_misdelivers :
    ¬ RightAddress (Trace.run step start
      [.send ⟨10#8,0#8,0#8,2#8⟩ 0x0800#16 [1#8] 0 1000,
        .learn ⟨10#8,0#8,0#8,2#8⟩ 0x020000000002#48 true 1 1000, .flush,
        .send ⟨10#8,0#8,0#8,3#8⟩ 0x0800#16 [2#8] 2 1000, .drain 0]) := by
  unfold RightAddress
  decide

end GaiaKernel.Arp
