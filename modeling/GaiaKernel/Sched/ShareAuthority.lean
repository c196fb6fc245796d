import GaiaKernel.Sched.SpaceRuns

/-! # What a share hands out

`sys_shmem_share` finds the frame to lend with `vmm_translate_in`, which looks at no permission bit
and follows huge pages. The frames are the caller's to write exactly when every requested page that
translates is a writable user page of the lower half.
-/
namespace GaiaKernel.Spaces
open Trace
variable {lowPd r va : U64} {s : State} {ph ph' : Phys} {own own' : Owner}

/-- User mode can write the frame `f` at `va`: a present leaf of the lower half with
`VMM_USER` and `VMM_WRITE`. -/
def UserWritable (ph : Phys) (r va f : U64) : Prop :=
  LowerHalf va ∧
    let e := ph.vmmEntryIn r va
    e ≠ 0#64 ∧ has e vmmUser = true ∧ has e vmmWrite = true ∧ tableOf e = f

/-- One page handed out: the memory it was looked up in, the caller's root, the caller's
address and the frame. -/
structure Grant where
  memory : Phys
  root : U64
  va : U64
  frame : U64

/-- The pages `sharePages` makes user-writable in the target. -/
def grants (me target : U64) : ℕ → U64 → U64 → Phys → List Grant
  | 0, _, _, _ => []
  | n + 1, inVa, targetVa, ph =>
    let phys := ph.vmmTranslateIn me inVa
    if phys = 0#64 then []
    else
      match ph.vmmMapIn target targetVa phys shareFlags with
      | (false, _) => []
      | (true, ph') =>
        ⟨ph,me,inVa,tableOf phys⟩ :: grants me target n (inVa + 4096) (targetVa + 4096) ph'

def State.shareGrants (s : State) (me : ℕ) (targetPid inVa npages out : U64) : List Grant :=
  match s.shareChecks me targetPid inVa npages out with
  | (.error _, _) => []
  | (.ok c, _) => grants c.pml4 c.targetPml4 npages.toNat inVa c.targetVa c.phys

def GrantsOwnPages (s : State) (me : ℕ) (targetPid inVa npages out : U64) : Prop :=
  ∀ g ∈ s.shareGrants me targetPid inVa npages out, UserWritable g.memory g.root g.va g.frame

/-- The call is refused by its checks, or its loop comes to an end at page `i` or before: a page
does not translate, or there is no frame for a table. -/
def StopsBy (s : State) (me : ℕ) (targetPid inVa npages out : U64) (i : ℕ) : Prop :=
  ∀ c, (s.shareChecks me targetPid inVa npages out).1 = .ok c →
    (sharePages c.pml4 c.targetPml4 (i + 1) inVa c.targetVa c.phys).1 ≠ .ok ()

/-- Every requested page that the call gets to is in the lower half and writable by the caller in
user mode, or was not mapped before the call (the page of the result slot is faulted in), or was
mapped by this call (a process may share with itself). -/
def RequestsWritable (s : State) (me : ℕ) (targetPid inVa npages out : U64) : Prop :=
  ∀ r t vm tr, s.rootOf me = some r → s.taskFind (targetPid.setWidth 32).toInt = some t →
    s.space t = some (vm, tr) → ∀ i < npages.toNat,
      StopsBy s me targetPid inVa npages out i ∨ LowerHalf (pageAt inVa i) ∧
        (s.phys.vmmTranslateIn r (pageAt inVa i) = 0#64 ∨
          UserWritable s.phys r (pageAt inVa i) (tableOf (s.phys.vmmTranslateIn r (pageAt inVa i))) ∨
          tr = r ∧ ∃ j < i, pagePath (pageAt inVa i) = pagePath (pageAt (State.shareBase vm) j))

def TargetsLowerHalf (s : State) (targetPid npages : U64) : Prop :=
  ∀ t vm tr, s.taskFind (targetPid.setWidth 32).toInt = some t → s.space t = some (vm, tr) →
    ∀ i < npages.toNat, LowerHalf (pageAt (State.shareBase vm) i)

def Fine (ph : Phys) (r va : U64) : Prop :=
  ph.vmmTranslateIn r va ≠ 0#64 → UserWritable ph r va (tableOf (ph.vmmTranslateIn r va))

section
variable (h : Tables lowPd ph own) (hr : own r = some (r, []))
include h hr

theorem userWritable_of_leafAt
    (hva : LowerHalf va) {e : U64} (hl : LeafAt ph own r (pagePath va) e) (hg : Grants true e) :
    UserWritable ph r va (tableOf e) := by
  obtain ⟨he,hne⟩ := (vmmEntryIn_iff h hr hva.pml4Index e).mpr hl
  exact ⟨hva,by rw [he]; exact ⟨hne,hg.1,hg.2 rfl,rfl⟩⟩

theorem UserWritable.leafAt {f : U64} (hw : UserWritable ph r va f) :
    ∃ e, LeafAt ph own r (pagePath va) e ∧ Grants true e ∧ tableOf e = f := by
  obtain ⟨hva,hne,hu,hwr,htab⟩ := hw
  exact ⟨_,(vmmEntryIn_iff h hr hva.pml4Index _).mp ⟨rfl,hne⟩,⟨hu,fun _ => hwr⟩,htab⟩

theorem Fine.mono (h' : Tables lowPd ph' own')
    (hr' : own' r = some (r, [])) (hva : LowerHalf va) (hlow : SameLow lowPd ph own ph' own')
    (hnew : ∀ e, LeafAt ph' own' r (pagePath va) e →
      LeafAt ph own r (pagePath va) e ∨ Grants true e) (hf : Fine ph r va) : Fine ph' r va := by
  intro ht
  rcases vmmTranslateIn_cases h' hr' hva ht with ⟨e,hl,heq⟩ | ⟨hl,hgib,heq⟩
  · rw [heq,tableOf_translate]
    rcases hnew e hl with hl0 | hg
    · have heq0 := translate_of_leafAt h hr hl0
      have hne : ph.vmmTranslateIn r va ≠ 0#64 := by rw [heq0,← heq]; exact ht
      obtain ⟨e',hl',hg',_⟩ := (hf hne).leafAt h hr
      have he := ((vmmEntryIn_iff h hr hva.pml4Index e).mpr hl0).1
      have he' := ((vmmEntryIn_iff h hr hva.pml4Index e').mpr hl').1
      rw [he] at he'
      subst he'
      exact userWritable_of_leafAt h' hr' hva hl hg'
    · exact userWritable_of_leafAt h' hr' hva hl hg
  · obtain ⟨he0,ht0⟩ := ((hlow.link r).mp hl).lookup h hr hgib
    have hsame : identityAddr ph' lowPd va = identityAddr ph lowPd va := by
      unfold identityAddr
      rw [hlow.mem]
    have hne : ph.vmmTranslateIn r va ≠ 0#64 := by rw [ht0,← hsame,← heq]; exact ht
    exact absurd he0 (hf hne).2.1

end

theorem grants_shareEntry (phys : U64) : Grants true (leafEntry phys shareFlags) :=
  grants_leafEntry ⟨by decide,fun _ => by decide⟩

variable {inVa me target targetVa : U64}

theorem shareMap_fine (h : FrameSafe lowPd ph own)
    (hme : own me = some (me, [])) (htgt : own target = some (target, []))
    (hdst : LowerHalf targetVa) {f : U64} (hw : UserWritable ph me inVa f) :
    ∃ own', MapResult lowPd ph own target targetVa
      (leafEntry (ph.vmmTranslateIn me inVa) shareFlags)
      (ph.vmmMapIn target targetVa (ph.vmmTranslateIn me inVa) shareFlags).1
      (ph.vmmMapIn target targetVa (ph.vmmTranslateIn me inVa) shareFlags).2 own' := by
  obtain ⟨e,hl,_,_⟩ := hw.leafAt h.tables hme
  exact h.shareMap htgt hdst hl (translate_of_leafAt h.tables hme hl)

/-! ### How far the loop gets -/

theorem sharePages_ok_of_le {n k : ℕ} (hk : k ≤ n)
    (hok : (sharePages me target n inVa targetVa ph).1 = .ok ()) :
    (sharePages me target k inVa targetVa ph).1 = .ok () := by
  induction n generalizing k inVa targetVa ph with
  | zero => rwa [Nat.le_zero.mp hk]
  | succ n ih =>
    cases k with
    | zero => rfl
    | succ k =>
      unfold sharePages at hok ⊢
      by_cases ht : ph.vmmTranslateIn me inVa = 0#64
      · rw [if_pos ht] at hok; cases hok
      rw [if_neg ht] at hok ⊢
      generalize ph.vmmMapIn target targetVa (ph.vmmTranslateIn me inVa) shareFlags = res at hok ⊢
      obtain ⟨_ | _,ph1⟩ := res
      · cases hok
      · exact ih (Nat.le_of_succ_le_succ hk) hok

theorem mem_grants_iff {n : ℕ} {g : Grant} : g ∈ grants me target n inVa targetVa ph ↔
    ∃ i < n, (sharePages me target (i + 1) inVa targetVa ph).1 = .ok () ∧
      g ∈ grants me target (i + 1) inVa targetVa ph := by
  induction n generalizing inVa targetVa ph with
  | zero => simp [grants]
  | succ n ih =>
    unfold grants sharePages
    by_cases ht : ph.vmmTranslateIn me inVa = 0#64
    · simp [ht]
    simp only [if_neg ht]
    generalize ph.vmmMapIn target targetVa (ph.vmmTranslateIn me inVa) shareFlags = res
    obtain ⟨_ | _,ph1⟩ := res
    · simp
    · simp only [List.mem_cons]
      constructor
      · rintro (rfl | hg)
        · exact ⟨0,Nat.succ_pos n,rfl,.inl rfl⟩
        · obtain ⟨i,hi,hok,hg⟩ := ih.mp hg
          exact ⟨i + 1,Nat.succ_lt_succ hi,hok,.inr hg⟩
      · rintro ⟨i,hi,hok,rfl | hg⟩
        · exact .inl rfl
        · cases i with
          | zero => cases hg
          | succ i => exact .inr (ih.mpr ⟨i,Nat.lt_of_succ_lt_succ hi,hok,hg⟩)

/-- Pages ahead of the loop: each is fine, or will have been mapped by the loop itself. -/
def Ahead (me target : U64) (n : ℕ) (inVa targetVa : U64) (ph : Phys) : Prop :=
  ∀ i < n, LowerHalf (pageAt inVa i) ∧ (Fine ph me (pageAt inVa i) ∨
    target = me ∧ ∃ j < i, pagePath (pageAt inVa i) = pagePath (pageAt targetVa j))

section
variable (n : ℕ) (h : FrameSafe lowPd ph own) (hme : own me = some (me, []))
  (htgt : own target = some (target, [])) (hdst : ∀ i < n, LowerHalf (pageAt targetVa i))
include n h hme htgt hdst

theorem grants_userWritable (ha : Ahead me target n inVa targetVa ph) :
    ∀ g ∈ grants me target n inVa targetVa ph, UserWritable g.memory g.root g.va g.frame := by
  induction n generalizing ph own inVa targetVa with
  | zero => intro g hg; cases hg
  | succ n ih =>
    unfold grants
    by_cases ht : ph.vmmTranslateIn me inVa = 0#64
    · rw [if_pos ht]; intro g hg; cases hg
    rw [if_neg ht]
    have ha0 := ha 0 (by omega)
    have hdst0 := hdst 0 (by omega)
    rw [pageAt_zero] at ha0 hdst0
    have hw : UserWritable ph me inVa (tableOf (ph.vmmTranslateIn me inVa)) := by
      rcases ha0.2 with hf | ⟨_,j,hj,_⟩
      · exact hf ht
      · omega
    obtain ⟨own1,hm⟩ := shareMap_fine h hme htgt hdst0 hw
    generalize ph.vmmMapIn target targetVa (ph.vmmTranslateIn me inVa) shareFlags = res at hm ⊢
    obtain ⟨ok,ph1⟩ := res
    cases ok with
    | false => intro g hg; cases hg
    | true =>
      have hset := hm.mapped rfl
      have hme1 := (hm.roots me).mpr hme
      have htgt1 := (hm.roots target).mpr htgt
      have hahead : Ahead me target n (inVa + 4096) (targetVa + 4096) ph1 := by
        intro i hi
        obtain ⟨hva,hcase⟩ := ha (i + 1) (by omega)
        rw [pageAt_succ]
        refine ⟨hva,?_⟩
        have hnew : ∀ e, LeafAt ph1 own1 me (pagePath (pageAt inVa (i + 1))) e →
            LeafAt ph own me (pagePath (pageAt inVa (i + 1))) e ∨ Grants true e := by
          intro e hl
          rw [hset] at hl
          split_ifs at hl with hc
          · rw [hl.1]
            exact .inr (grants_shareEntry _)
          · exact .inl hl
        rcases hcase with hf | ⟨hsame,j,hj,hpath⟩
        · exact .inl (hf.mono h.tables hme hm.safe.tables hme1 hva hm.low hnew)
        · cases j with
          | zero =>
            -- The loop has just mapped this very page.
            rw [pageAt_zero] at hpath
            refine .inl fun _ => ?_
            have hl : LeafAt ph1 own1 me (pagePath (pageAt inVa (i + 1)))
                (leafEntry (ph.vmmTranslateIn me inVa) shareFlags) := by
              rw [hset,if_pos ⟨hsame.symm,hpath⟩]
              exact ⟨rfl,has_leafEntry_present _ _⟩
            rw [translate_of_leafAt hm.safe.tables hme1 hl,tableOf_translate]
            exact userWritable_of_leafAt hm.safe.tables hme1 hva hl (grants_shareEntry _)
          | succ j => exact .inr ⟨hsame,j,by omega,by rw [pageAt_succ]; exact hpath⟩
      have hrest := ih hm.safe hme1 htgt1
        (forall_pages_tail hdst) hahead
      exact List.forall_mem_cons.mpr ⟨hw,hrest⟩

theorem grants_reach (hok : (sharePages me target n inVa targetVa ph).1 = .ok ())
    (hw : ∀ g ∈ grants me target n inVa targetVa ph, UserWritable g.memory g.root g.va g.frame) :
    ∀ i < n, ∃ ph' own' f, Kept lowPd ph own ph' own' ∧ UserWritable ph' me (pageAt inVa i) f ∧
      ∀ e, LeafAt ph own me (pagePath (pageAt inVa i)) e →
        LeafAt ph' own' me (pagePath (pageAt inVa i)) e ∨
          target = me ∧ ∃ j < i, pagePath (pageAt inVa i) = pagePath (pageAt targetVa j) := by
  induction n generalizing ph own inVa targetVa with
  | zero => omega
  | succ n ih =>
    unfold sharePages at hok
    unfold grants at hw
    by_cases ht : ph.vmmTranslateIn me inVa = 0#64
    · rw [if_pos ht] at hok; cases hok
    rw [if_neg ht] at hok hw
    have hdst0 := hdst 0 (by omega)
    rw [pageAt_zero] at hdst0
    cases hres : ph.vmmMapIn target targetVa (ph.vmmTranslateIn me inVa) shareFlags with
    | mk ok ph1 =>
      cases ok with
      | false => rw [hres] at hok; cases hok
      | true =>
        rw [hres] at hok hw
        have hw0 : UserWritable ph me inVa (tableOf (ph.vmmTranslateIn me inVa)) :=
          hw _ (List.mem_cons_self ..)
        obtain ⟨own1,hm⟩ := shareMap_fine h hme htgt hdst0 hw0
        rw [hres] at hm
        have hset := hm.mapped rfl
        have hrest := ih hm.safe ((hm.roots me).mpr hme) ((hm.roots target).mpr htgt)
          (forall_pages_tail hdst) hok
          fun g hg => hw g (List.mem_cons_of_mem _ hg)
        intro i hi
        cases i with
        | zero =>
          rw [pageAt_zero]
          exact ⟨ph,own,_,h.kept,hw0,fun e hl => .inl hl⟩
        | succ i =>
          obtain ⟨ph',own',f,hk,hwi,hkeep⟩ := hrest i (by omega)
          rw [pageAt_succ] at hwi hkeep
          refine ⟨ph',own',f,hm.toKept.trans hk,hwi,fun e hl => ?_⟩
          by_cases hc : me = target ∧ pagePath (pageAt inVa (i + 1)) = pagePath targetVa
          · have h0 : pagePath (pageAt targetVa 0) = pagePath targetVa := by rw [pageAt_zero]
            exact .inr ⟨hc.1.symm,0,Nat.succ_pos i,hc.2.trans h0.symm⟩
          · have hl1 : LeafAt ph1 own1 me (pagePath (pageAt inVa (i + 1))) e := by
              refine (hset me _ e).mpr ?_
              rw [if_neg hc]
              exact hl
            rcases hkeep e hl1 with hl' | ⟨hs,j,hj,hp⟩
            · exact .inl hl'
            · rw [pageAt_succ] at hp
              exact .inr ⟨hs,j + 1,by omega,hp⟩

end

/-- A share hands out only pages that are the caller's to write if and only if the pages it gets
to were such pages when it was called. -/
theorem grantsOwnPages_iff_requestsWritable (h : Owned lowPd s own) {me : ℕ}
    {targetPid inVa npages out : U64} (hdst : TargetsLowerHalf s targetPid npages) :
    GrantsOwnPages s me targetPid inVa npages out ↔
      RequestsWritable s me targetPid inVa npages out := by
  unfold GrantsOwnPages State.shareGrants RequestsWritable StopsBy
  obtain ⟨own₁,_,hok⟩ := h.shareChecks me targetPid inVa npages out
  generalize s.shareChecks me targetPid inVa npages out = res at hok
  obtain ⟨start,ph⟩ := res
  cases start with
  | error e =>
    refine iff_of_true (fun g hg => by cases hg) fun r t vm tr _ _ _ i _ => .inl fun c hc => ?_
    cases hc
  | ok c =>
    obtain ⟨_,_,_,hs⟩ := hok c rfl
    obtain ⟨vm,hfind,hsp,hva⟩ := hs.target
    have hme := h.root hs.meRoot
    have htgt := h.root hs.targetRoot
    have hme₁ := (hs.faulted.roots c.pml4).mpr hme
    have htgt₁ := (hs.faulted.roots c.targetPml4).mpr htgt
    have hdst : ∀ i < npages.toNat, LowerHalf (pageAt c.targetVa i) := by
      intro i hi
      rw [hva]
      exact hdst c.target vm c.targetPml4 hfind hsp i hi
    dsimp only
    constructor
    · intro hw r t vm' tr hr ht hsp' i hi
      cases hs.meRoot.symm.trans hr
      cases hfind.symm.trans ht
      cases hsp.symm.trans hsp'
      refine or_iff_not_imp_left.mpr fun hstop => ?_
      have hgets : (sharePages c.pml4 c.targetPml4 (i + 1) inVa c.targetVa c.phys).1 = .ok () := by
        by_contra hne
        refine hstop fun c' hc' => ?_
        cases hc'
        exact hne
      obtain ⟨ph',own',f,hk,hwi,hkeep⟩ := grants_reach (i + 1) hs.faulted.safe hme₁ htgt₁
        (fun j hj => hdst j (by omega)) hgets
        (fun g hg => hw g (mem_grants_iff.mpr ⟨i,hi,hgets,hg⟩)) i (Nat.lt_succ_self i)
      have hme' := (hk.roots c.pml4).mpr hme₁
      have hlow := hwi.1
      refine ⟨hlow,?_⟩
      by_cases h0 : s.phys.vmmTranslateIn c.pml4 (pageAt inVa i) = 0#64
      · exact .inl h0
      rcases vmmTranslateIn_cases h.safe.tables hme hlow h0 with ⟨e,hl,heq⟩ | ⟨hll,hgib,_⟩
      · rcases hkeep e (hs.faulted.leaf hl) with hl' | ⟨hsame,j,hj,hp⟩
        · obtain ⟨e',hl'',hg,_⟩ := hwi.leafAt hk.safe.tables hme'
          have h1 := ((vmmEntryIn_iff hk.safe.tables hme' hlow.pml4Index e).mpr hl').1
          have h2 := ((vmmEntryIn_iff hk.safe.tables hme' hlow.pml4Index e').mpr hl'').1
          rw [h1] at h2
          subst h2
          rw [heq,tableOf_translate]
          exact .inr (.inl (userWritable_of_leafAt h.safe.tables hme hlow hl hg))
        · exact .inr (.inr ⟨hsame,j,hj,by rw [← hva]; exact hp⟩)
      · -- The identity map is still there when the loop reaches the page.
        have hll' := (hk.low.link c.pml4).mpr ((hs.faulted.low.link c.pml4).mpr hll)
        exact absurd (hll'.lookup hk.safe.tables hme' hgib).1 hwi.2.1
    · intro hreq g hg
      obtain ⟨n,hn,hgets,hg⟩ := mem_grants_iff.mp hg
      refine grants_userWritable (n + 1) hs.faulted.safe hme₁ htgt₁
        (fun j hj => hdst j (by omega)) (fun i hi => ?_) g hg
      obtain ⟨hlow,hcase⟩ := (hreq c.pml4 c.target vm c.targetPml4 hs.meRoot hfind hsp i
        (by omega)).resolve_left fun hstop => hstop c rfl (sharePages_ok_of_le hi hgets)
      refine ⟨hlow,?_⟩
      have hfine : Fine s.phys c.pml4 (pageAt inVa i) → Fine c.phys c.pml4 (pageAt inVa i) :=
        Fine.mono h.safe.tables hme hs.faulted.safe.tables hme₁ hlow hs.faulted.low
          fun e hl => hs.faulted.new hl
      rcases hcase with h0 | hw | ⟨hsame,j,hj,hp⟩
      · exact .inl (hfine fun hne => absurd h0 hne)
      · exact .inl (hfine fun _ => hw)
      · exact .inr ⟨hsame,j,hj,by rw [hva]; exact hp⟩

theorem share_own_page_grantsOwnPages :
    GrantsOwnPages twoProcesses 1 2 0x50000000 1 0x50000000 := by
  obtain ⟨own,h⟩ := owned_twoProcesses
  refine (grantsOwnPages_iff_requestsWritable h fun t vm tr ht hsp i hi => ?_).mpr
    fun r t vm tr hr ht hsp i hi => .inr ?_
  · have hi0 : i = 0 := Nat.lt_one_iff.mp hi
    rw [hi0,shareBase_two ht hsp,pageAt_zero]
    unfold LowerHalf
    decide
  · have hi0 : i = 0 := Nat.lt_one_iff.mp hi
    subst hi0
    cases rootOf_one hr
    refine ⟨by unfold LowerHalf; decide,.inr (.inl ⟨by unfold LowerHalf; decide,?_⟩)⟩
    exact ⟨by decide +kernel,by decide +kernel,by decide +kernel,by decide +kernel⟩

/-- A page below 1 GiB that the process never mapped: the share reaches the kernel's identity
map and hands its frame out writable. -/
theorem share_of_identity_map_grants_kernel_memory :
    (twoProcesses.sysShmemShare 1 2 0x200000 1 0x50000000).1 = .ok () ∧
      ¬ GrantsOwnPages twoProcesses 1 2 0x200000 1 0x50000000 := by
  refine ⟨by decide +kernel,fun h => ?_⟩
  have hmem : (0#64 : U64) ∈ (twoProcesses.shareGrants 1 2 0x200000 1 0x50000000).map
      (fun g => g.memory.vmmEntryIn g.root g.va) := by exact List.mem_singleton_self _
  obtain ⟨g,hg,hzero⟩ := List.mem_map.mp hmem
  exact (h g hg).2.1 hzero

end GaiaKernel.Spaces
