import GaiaKernel.Net.ArpSpec

/-! # In which order parked frames leave

A frame is parked in the first free slot of the pool, and the frames of an entry are sent in the
order of their slots. When a slot is freed between two frames of one host, the later frame may
overtake the earlier one.
-/
namespace GaiaKernel.Arp
open Net Function List Trace
variable {s : State} {i : CacheSlot} {p q : PendingSlot}

def Behind (s : State) (i : CacheSlot) (p : PendingSlot) : Bool :=
  (s.pending p).inUse && (s.pending p).entry == i

def waiting (s : State) (i : CacheSlot) : List PendingSlot := pendingSlots.filter (Behind s i)

/-! ### Draining an entry -/

theorem behind_setPending (hp : p ≠ q) :
    Behind (s.setPending q { s.pending q with inUse := false }) i p = Behind s i p := by
  simp [Behind,State.setPending,hp]

theorem waiting_drain {ps : List PendingSlot} (h : waiting s i = p :: ps) : s.parkedAt i = some p ∧
      waiting (s.setPending p { s.pending p with inUse := false }) i = ps := by
  have hparked : s.parkedAt i = (waiting s i).head? := head?_filter.symm
  refine ⟨by rw [hparked,h]; rfl,?_⟩
  obtain ⟨l1,l2,hl,hnone,-,hrest⟩ := filter_eq_cons_iff.mp h
  have hnodup : (l1 ++ p :: l2).Nodup := hl ▸ nodup_finRange _
  have hself : Behind (s.setPending p { s.pending p with inUse := false }) i p = false := by
    simp [Behind,State.setPending]
  have hne : ∀ x ∈ l1 ++ l2, x ≠ p := by
    rintro x hx rfl
    exact (nodup_middle.mp hnodup).notMem hx
  rw [waiting,hl,filter_append,filter_cons_of_neg (by simp [hself]),
    filter_congr fun x hx => behind_setPending (hne x (mem_append_left l2 hx)),
    filter_congr fun x hx => behind_setPending (hne x (mem_append_right l1 hx)),hrest,
    filter_eq_nil_iff.mpr hnone,nil_append]

def sentFor (s : State) (d : Drain) (p : PendingSlot) : Sent :=
  ⟨(s.pending p).hop,d.mac,(s.pending p).type,(s.pending p).frame,(s.pending p).serial⟩

theorem run_drains_idle {n k : ℕ} (h : s.draining.length ≤ n) :
    run step s (replicate k (.drain n)) = s := by
  induction k with
  | zero => rfl
  | succ k ih =>
    have hstep : step s (.drain n) = s := by
      simp only [step,State.arpFlushPending]
      rw [getElem?_eq_none h]
    rw [replicate_succ,run_cons,hstep,ih]

theorem sent_drains {ds : List Drain} {d : Drain} (hd : s.draining = ds ++ [d]) {k : ℕ}
    (hk : (waiting s d.entry).length ≤ k) : (run step s (replicate k (.drain ds.length))).sent =
      s.sent ++ (waiting s d.entry).map (sentFor s d) := by
  have hget : s.draining[ds.length]? = some d := by simp [hd]
  induction k generalizing s with
  | zero =>
    rw [length_eq_zero_iff.mp (Nat.le_zero.mp hk),map_nil,append_nil]
    rfl
  | succ k ih =>
    rw [replicate_succ,run_cons]
    simp only [step,State.arpFlushPending,hget]
    cases hw : waiting s d.entry with
    | nil =>
      have hparked : s.parkedAt d.entry = none := by
        rw [State.parkedAt,← head?_filter]
        exact congrArg head? hw
      rw [hparked,run_drains_idle (by simp [hd,eraseIdx_append_of_length_le]),map_nil,append_nil]
    | cons p ps =>
      obtain ⟨hparked,hrest⟩ := waiting_drain hw
      have hnodup : (waiting s d.entry).Nodup := (nodup_finRange _).filter _
      rw [hw,nodup_cons] at hnodup
      have hmap : ps.map (sentFor (s.setPending p { s.pending p with inUse := false }) d) =
          ps.map (sentFor s d) := by
        refine map_congr_left fun q hq => ?_
        have hqp : q ≠ p := fun h => hnodup.1 (h ▸ hq)
        simp [sentFor,State.setPending,hqp]
      rw [hw,length_cons] at hk
      rw [hparked]
      dsimp only
      set s1 := s.setPending p { s.pending p with inUse := false }
      have hsent := ih (s := s1.transmit (s.pending p).hop d.mac (s.pending p).type
        (s.pending p).frame (s.pending p).serial) hd
        (show (waiting s1 d.entry).length ≤ k by rw [hrest]; omega) hget
      refine hsent.trans ?_
      change s.sent ++ [_] ++ (waiting s1 d.entry).map (sentFor s1 d) = _
      rw [hrest,hmap,append_assoc]
      rfl

/-! ### Parking a frame -/

/-- The operation is an `arp_send_or_queue` that parks its frame for the entry. -/
def Queues (i : CacheSlot) (s : State) : Op → Prop
  | .send ip _ payload _ _ => ethHdrLen + payload.length ≤ ethFrameMax ∧
      (s.arpFind ip = some i ∧ (s.cache i).state ≠ .valid ∨
        s.arpFind ip = none ∧ s.arpAlloc.1 = i)
  | _ => False

/-- The frame at `p` is new; it stands where the allocator puts it, or is the only one of its
entry. -/
def Parks (s : State) (op : Op) (p : PendingSlot) : Prop :=
  ((step s op).pending p).serial = s.nextSerial ∧
    (Queues ((step s op).pending p).entry s op ∧ p = s.arpPendingAlloc ∨
      ∀ q ≠ p, ((step s op).pending q).inUse →
        ((step s op).pending q).entry ≠ ((step s op).pending p).entry)

theorem park_pending (s : State) (i : CacheSlot) (ip : Ipv4Addr) (type : U16) (frame : List Byte)
    (now : ℕ) : (s.park i ip type frame now).pending =
      update s.pending s.arpPendingAlloc ⟨true,i,type,frame,now,ip,s.nextSerial⟩ := rfl

theorem arpAlloc_cases (s : State) : s.arpAlloc.2 = s ∨ Unawaited s.arpAlloc.2 s.arpAlloc.1 := by
  unfold State.arpAlloc
  dsimp only
  split
  · exact .inr (s.vacated_drop _).2
  · exact .inl rfl

theorem pendingFrom_setEntry (s : State) (i : CacheSlot) (e : Entry) (l : List PendingSlot)
    (victim : PendingSlot) : (s.setEntry i e).pendingFrom l victim = s.pendingFrom l victim := by
  induction l generalizing victim with
  | nil => rfl
  | cons p l ih =>
    simp only [State.pendingFrom,ih]
    rfl

/-- A frame for a host without an entry. -/
theorem send_fresh {ip : Ipv4Addr} {payload : List Byte}
    (hfit : ethHdrLen + payload.length ≤ ethFrameMax) (hfind : s.arpFind ip = none) (type : U16)
    (now hz : ℕ) : (step s (.send ip type payload now hz)).pending =
      update s.arpAlloc.2.pending s.arpAlloc.2.arpPendingAlloc
        ⟨true,s.arpAlloc.1,type,payload,now,ip,s.nextSerial⟩ := by
  simp only [step,State.arpSendOrQueue,if_neg (not_lt.mpr hfit),hfind,park_pending]
  rw [State.arpPendingAlloc,pendingFrom_setEntry,← s.vacated_arpAlloc.1.nextSerial]
  rfl

theorem step_pending (s : State) (op : Op) (hp : ((step s op).pending p).inUse) :
    (step s op).pending p = s.pending p ∨ Parks s op p := by
  have hvac := s.vacated_arpAlloc.1
  cases op with
  | send ip type payload now hz =>
    by_cases hfit : ethHdrLen + payload.length > ethFrameMax
    · left
      simp only [step,State.arpSendOrQueue,if_pos hfit]
    cases hfind : s.arpFind ip with
    | some i =>
      simp only [Parks,step,State.arpSendOrQueue,if_neg hfit,hfind]
      split
      · exact .inl rfl
      case isFalse hvalid =>
        rw [park_pending]
        by_cases hpa : p = s.arpPendingAlloc
        · subst hpa
          rw [update_self]
          exact .inr ⟨rfl,.inl ⟨⟨not_lt.mp hfit,.inl ⟨hfind,hvalid⟩⟩,rfl⟩⟩
        · exact .inl (update_of_ne hpa _ _)
    | none =>
      rw [Parks]
      rw [send_fresh (not_lt.mp hfit) hfind] at hp ⊢
      by_cases hpa : p = s.arpAlloc.2.arpPendingAlloc
      · right
        rw [hpa,update_self]
        refine ⟨rfl,(arpAlloc_cases s).imp (fun heq => ?_) fun hnone q hq hin => ?_⟩
        · exact ⟨⟨not_lt.mp hfit,.inr ⟨hfind,rfl⟩⟩,by rw [heq]⟩
        · rw [update_of_ne hq] at hin ⊢
          exact hnone q hin
      · rw [update_of_ne hpa] at hp ⊢
        exact .inl (hvac.of_inUse hp)
  | learn ip mac mayCreate now hz =>
    simp only [step,State.arpLearn] at hp ⊢
    split
    · exact .inl rfl
    · split
      · next hi hc => simp only [hi,hc] at hp; exact .inl (hvac.of_inUse hp)
      · exact .inl rfl
  | drain n =>
    simp only [step,State.arpFlushPending] at hp ⊢
    split
    · exact .inl rfl
    case h_2 d hd =>
      split
      · exact .inl rfl
      case h_2 r hr =>
        simp only [hd,hr] at hp
        by_cases hpr : p = r
        · subst hpr
          simp [State.setPending,State.transmit] at hp
        · exact .inl (update_of_ne hpr _ _)
  | tick now hz =>
    have hfold : ∀ (l : List CacheSlot) (t : State) (p : PendingSlot),
        ((l.foldl (fun s i => s.tickEntry now hz i) t).pending p).inUse →
        (l.foldl (fun s i => s.tickEntry now hz i) t).pending p = t.pending p := by
      intro l
      induction l with
      | nil => exact fun _ _ _ => rfl
      | cons i l ih =>
        intro t p hp
        have heq := ih _ p hp
        rw [foldl_cons,heq] at hp
        exact heq.trans ((tickEntry_frame t now hz i).2 p hp)
    simp only [step,State.arpTick] at hp ⊢
    generalize cacheSlots = l at *
    exact .inl (hfold l s p hp)
  | flush => simp [step,State.arpFlush] at hp

theorem queues_parks {op : Op} (h : Queues i s op) :
    Behind (step s op) i s.arpPendingAlloc ∧
        ((step s op).pending s.arpPendingAlloc).serial = s.nextSerial ∨
      ∀ q, Behind (step s op) i q → ((step s op).pending q).serial = s.nextSerial := by
  cases op with
  | send ip type payload now hz =>
    obtain ⟨hfit,⟨hfind,hvalid⟩ | ⟨hfind,hi⟩⟩ := h
    · have hstep : step s (.send ip type payload now hz) = s.park i ip type payload now := by
        simp only [step,State.arpSendOrQueue,if_neg (not_lt.mpr hfit),hfind,if_neg hvalid]
      left
      rw [hstep,Behind,park_pending,update_self]
      simp
    · rw [Behind,send_fresh hfit hfind]
      refine (arpAlloc_cases s).imp (fun heq => ?_) fun hnone q hq => ?_
      · rw [heq,update_self]
        simp [hi]
      · rw [Behind,send_fresh hfit hfind] at hq
        by_cases hqa : q = s.arpAlloc.2.arpPendingAlloc
        · rw [hqa,update_self]
        · rw [update_of_ne hqa,Bool.and_eq_true_iff,beq_iff_eq] at hq
          exact absurd (hq.2.trans hi.symm) (hnone q hq.1)
  | _ => exact h.elim

theorem arpPendingAlloc_first (hp : (s.pending p).inUse = false) :
    (s.pending s.arpPendingAlloc).inUse = false ∧ s.arpPendingAlloc ≤ p := by
  have hfrom : ∀ (l : List PendingSlot) (victim : PendingSlot), l.Pairwise (· < ·) → p ∈ l →
      (s.pending (s.pendingFrom l victim)).inUse = false ∧ s.pendingFrom l victim ≤ p := by
    intro l
    induction l with
    | nil => exact fun _ _ hm => absurd hm not_mem_nil
    | cons a l ih =>
      intro victim hl hm
      rw [pairwise_cons] at hl
      rw [State.pendingFrom]
      split
      case isTrue ha =>
        refine ⟨by simpa using ha,?_⟩
        rcases mem_cons.mp hm with rfl | hm
        · exact le_rfl
        · exact (hl.1 p hm).le
      case isFalse ha =>
        refine ih _ hl.2 ((mem_cons.mp hm).resolve_left ?_)
        rintro rfl
        simp [hp] at ha
  exact hfrom _ _ (pairwise_lt_finRange _) (mem_finRange p)

/-! ### Order -/

/-- The frames that wait for the entry stand in the pool in the order they were queued in. -/
def Ordered (s : State) (i : CacheSlot) : Prop :=
  ∀ p q, Behind s i p → Behind s i q → p < q → (s.pending p).serial < (s.pending q).serial

/-- No frame that waits for the entry goes, and a frame that is queued for it fits the pool. -/
def Kept (i : CacheSlot) (s : State) (op : Op) : Prop :=
  (∀ p, Behind s i p → (step s op).pending p = s.pending p) ∧
    (Queues i s op → ∃ p, (s.pending p).inUse = false)

/-- When a frame is queued for the entry, no slot of the pool is free before one that holds a frame
for it. -/
def InTurn (i : CacheSlot) (s : State) (op : Op) : Prop :=
  Queues i s op → ∀ p q, (s.pending p).inUse = false → Behind s i q → q < p

/-- The new frame goes behind those that wait already. -/
theorem inTurn_iff (h : Tidy s) {op : Op} (hk : Kept i s op) : InTurn i s op ↔
    ∀ p, Behind (step s op) i p → ((step s op).pending p).serial = s.nextSerial →
      ∀ q, Behind s i q → q < p := by
  have hold : ∀ p, (s.pending p).inUse → (s.pending p).serial < s.nextSerial :=
    fun p hp => (h.serial p hp).1
  constructor
  · intro ht p hp hnew q hq
    obtain ⟨hin,hentry⟩ := Bool.and_eq_true_iff.mp hp
    rw [beq_iff_eq] at hentry
    rcases step_pending s op hin with heq | ⟨-,⟨hqueues,rfl⟩ | honly⟩
    · rw [heq] at hin hnew
      have := hold p hin
      omega
    · rw [hentry] at hqueues
      obtain ⟨r,hr⟩ := hk.2 hqueues
      exact ht hqueues _ q (arpPendingAlloc_first hr).1 hq
    · obtain ⟨hin',hentry'⟩ := Bool.and_eq_true_iff.mp hq
      rw [beq_iff_eq] at hentry'
      have hsame := hk.1 q hq
      by_cases hqp : q = p
      · subst hqp
        rw [hsame] at hnew
        have := hold q hin'
        omega
      · refine absurd ?_ (honly q hqp (by rwa [hsame]))
        rw [hsame,hentry',hentry]
  · intro ha hqueues p q hp hq
    rcases queues_parks hqueues with ⟨hb,hnew⟩ | hnew
    · exact (ha _ hb hnew q hq).trans_le (arpPendingAlloc_first hp).2
    · have hsame := hk.1 q hq
      have := hnew q (by rwa [Behind,hsame])
      rw [hsame] at this
      have := hold q (Bool.and_eq_true_iff.mp hq).1
      omega

theorem ordered_step (h : Tidy s) {op : Op} (hk : Kept i s op) :
    Ordered (step s op) i ↔ Ordered s i ∧ InTurn i s op := by
  have hkept : ∀ p, Behind s i p → Behind (step s op) i p := by
    intro p hp
    rwa [Behind,hk.1 p hp]
  have hold : ∀ p, Behind s i p → (s.pending p).serial < s.nextSerial := by
    intro p hp
    exact (h.serial p (Bool.and_eq_true_iff.mp hp).1).1
  have hback : ∀ p, Behind (step s op) i p →
      Behind s i p ∨ ((step s op).pending p).serial = s.nextSerial := by
    intro p hp
    refine (step_pending s op (Bool.and_eq_true_iff.mp hp).1).imp (fun heq => ?_) And.left
    rwa [Behind,heq] at hp
  rw [inTurn_iff h hk]
  constructor
  · refine fun ho => ⟨fun p q hp hq hlt => ?_,fun p hp hnew q hq => ?_⟩
    · rw [← hk.1 p hp,← hk.1 q hq]
      exact ho p q (hkept p hp) (hkept q hq) hlt
    · have hlt := hold q hq
      rw [← hk.1 q hq] at hlt
      by_contra hle
      rcases (not_lt.mp hle).eq_or_lt with rfl | hpq
      · omega
      · have := ho p q hp (hkept q hq) hpq
        omega
  · rintro ⟨ho,ha⟩ p q hp hq hlt
    rcases hback q hq with hq0 | hnew
    · rcases hback p hp with hp0 | hnew
      · rw [hk.1 p hp0,hk.1 q hq0]
        exact ho p q hp0 hq0 hlt
      · exact absurd (ha p hp hnew q hq0) (not_lt.mpr hlt.le)
    · rcases hback p hp with hp0 | hnew'
      · rw [hk.1 p hp0,hnew]
        exact hold p hp0
      · exact absurd ((h.step op).apart p q (Bool.and_eq_true_iff.mp hp).1
          (Bool.and_eq_true_iff.mp hq).1 (hnew'.trans hnew.symm)) hlt.ne

theorem ordered_run (h : Tidy s) {ops : List Op} (hk : Admissible step (Kept i) s ops) :
    Ordered (run step s ops) i ↔ Ordered s i ∧ Admissible step (InTurn i) s ops := by
  induction ops generalizing s with
  | nil => exact (and_iff_left trivial).symm
  | cons op ops ih =>
    rw [run_cons,ih (h.step op) hk.2,ordered_step h hk.1,and_assoc]
    rfl

/-- The host's answer is learned, and the caller goes through the drain loop. -/
def answered (s : State) (ip : Ipv4Addr) (mac : Mac) (now hz : ℕ) : State :=
  run step (s.arpLearn ip mac false now hz) (replicate (arpPendingSlots + 1) (.drain s.draining.length))

/-- All frames that waited for the entry are sent, in the order they were queued in. -/
def SentInOrder (s s' : State) (i : CacheSlot) : Prop :=
  ∃ fs, s'.sent = s.sent ++ fs ∧ (fs.map Sent.serial).Pairwise (· < ·) ∧
    ∀ p, Behind s i p → (s.pending p).serial ∈ fs.map Sent.serial

theorem sentInOrder_iff {ip : Ipv4Addr} (h : s.arpFind ip = some i) (mac : Mac) (now hz : ℕ) :
    SentInOrder s (answered s ip mac now hz) i ↔ Ordered s i := by
  have hlen : (waiting s i).length ≤ arpPendingSlots + 1 := (length_filter_le _ _).trans (by decide)
  have hsent : (answered s ip mac now hz).sent = s.sent ++
      (waiting s i).map (sentFor s ⟨i,mac,ip⟩) := by
    rw [answered,State.arpLearn,h]
    exact sent_drains (s := s.resolve i ip mac now hz) (d := ⟨i,mac,ip⟩) rfl hlen
  have hpair : (((waiting s i).map (sentFor s ⟨i,mac,ip⟩)).map Sent.serial).Pairwise (· < ·) ↔
      Ordered s i := by
    rw [map_map,pairwise_map,waiting,pairwise_filter,pairwise_iff_getElem]
    simp only [pendingSlots,getElem_finRange,length_finRange]
    exact ⟨fun h p q hp hq hlt => h p q p.isLt q.isLt hlt hp hq,
      fun h p q _ _ hlt hp hq => h _ _ hp hq hlt⟩
  rw [← hpair]
  constructor
  · rintro ⟨fs,hfs,hsorted,-⟩
    rw [hsent,append_cancel_left_eq] at hfs
    rwa [hfs]
  · refine fun hsorted => ⟨_,hsent,hsorted,fun p hp => ?_⟩
    rw [map_map]
    exact mem_map_of_mem (f := Sent.serial ∘ sentFor s ⟨i,mac,ip⟩)
      (mem_filter.mpr ⟨mem_finRange p,hp⟩)

/-- Along any run of the cache that neither sends nor drops nor displaces a frame that waits for
an entry, the frames of that entry are sent in the order they were queued in, once its host
answers, exactly if none was queued while a slot before its predecessors was free. -/
theorem arp_order_iff {ops : List Op} {ip : Ipv4Addr} (hk : Admissible step (Kept i) start ops)
    (hfind : (run step start ops).arpFind ip = some i) (mac : Mac) (now hz : ℕ) :
    SentInOrder (run step start ops) (answered (run step start ops) ip mac now hz) i ↔
      Admissible step (InTurn i) start ops := by
  rw [sentInOrder_iff hfind,ordered_run tidy_start hk,and_iff_right]
  exact fun p _ hp => absurd hp (by simp [Behind,start,Parked.zero])

instance (i : CacheSlot) (s : State) (op : Op) : Decidable (Queues i s op) := by
  cases op <;> unfold Queues <;> infer_instance

instance (i : CacheSlot) (s : State) (op : Op) : Decidable (Kept i s op) :=
  inferInstanceAs (Decidable ((∀ _, _ → _ = _) ∧ (_ → ∃ _, _)))

instance (i : CacheSlot) (s : State) (op : Op) : Decidable (InTurn i s op) :=
  inferInstanceAs (Decidable (_ → ∀ _ _, _ → _ → _))

def hostA : Ipv4Addr := ⟨10#8,0#8,0#8,2#8⟩
def hostB : Ipv4Addr := ⟨10#8,0#8,0#8,3#8⟩

/-- A frame for host B and one for host A; B answers, and a second frame for A takes B's place. -/
def overtaken : List Op :=
  [.send hostB 0x0800#16 [] 0 1000, .send hostA 0x0800#16 [] 0 1000,
    .learn hostB 0xB#48 false 1 1000, .drain 0, .drain 0, .send hostA 0x0800#16 [] 2 1000]

/-- The second frame for host A is sent before the first. -/
theorem later_frame_overtakes : Admissible step (Kept ⟨1,by decide⟩) start overtaken ∧
    (answered (run step start overtaken) hostA 0xA#48 3 1000).sent.map (·.serial) = [0, 2, 1] :=
  ⟨⟨by decide,by decide,by decide,by decide,by decide,by decide,trivial⟩,by decide⟩

/-- Three frames for host A; one for host B is queued between the first two. -/
def inOrder : List Op :=
  [.send hostA 0x0800#16 [] 0 1000, .send hostB 0x0800#16 [] 0 1000,
    .send hostA 0x0800#16 [] 0 1000, .send hostA 0x0800#16 [] 0 1000]

theorem arp_order_two : SentInOrder (run step start inOrder)
    (answered (run step start inOrder) hostA 0xA#48 1 1000) ⟨0,by decide⟩ := by
  have hk : Admissible step (Kept ⟨0,by decide⟩) start inOrder :=
    ⟨by decide,by decide,by decide,by decide,trivial⟩
  have hfind : (run step start inOrder).arpFind hostA = some ⟨0,by decide⟩ := by decide
  exact (arp_order_iff hk hfind 0xA#48 1 1000).mpr
    ⟨by decide,by decide,by decide,by decide,trivial⟩

end GaiaKernel.Arp
