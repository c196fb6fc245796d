import GaiaKernel.Sched.RefCounts

/-! # Records changing hands

The ways in which a task lets go of a record or takes hold of one, each stated without the
control flow of the scheduler and shown to keep `Spaces`.
-/
namespace GaiaKernel.Sched
open Kernel Function Finset Option
variable {k k' : Kernel} {i : Fin maxTasks} {p q root c : ℕ} {r : VmRecord} {t : Task}

theorem holders_congr (h : k'.tasks = k.tasks) (q : ℕ) : holders k' q = holders k q := by
  ext j; simp [h]

theorem holders_setTask_none (h : t.vm = none) (q : ℕ) :
    holders (k.setTask i t) q = (holders k q).erase i := by
  ext j
  by_cases hj : j = i
  · subst hj; simp [setTask,h]
  · simp [setTask,hj]

theorem holders_setTask_some (h : t.vm = some p) (hi : (k.tasks i).vm = none) (q : ℕ) :
    holders (k.setTask i t) q = if q = p then insert i (holders k q) else holders k q := by
  ext j
  by_cases hj : j = i
  · subst hj
    by_cases hq : q = p
    · simp [setTask,h,hq]
    · simp [setTask,h,hq,hi,Ne.symm hq]
  · by_cases hq : q = p <;> simp [setTask,hj,hq]

theorem erase_holders_of_ne (h : (k.tasks i).vm ≠ some q) : (holders k q).erase i = holders k q :=
  erase_eq_of_notMem (by simpa using h)

theorem record_transfer (hh : holders k' q = holders k q)
    (href : ∀ c, r.pml4RefCount = some c → k'.refs c = k.refs c)
    (hroot : ∀ root, r.userPml4 = some root → k'.roots root = k.roots root)
    (hgiven : ∀ j ∈ holders k q, (k'.tasks j).given = (k.tasks j).given)
    (h : Unborn k q r ∨ Counted k q r) : Unborn k' q r ∨ Counted k' q r := by
  rcases h with ⟨hr,j,hj,hg⟩ | ⟨root,c,hr,h1,h2,h3,h4⟩
  · exact .inl ⟨hr,j,hh.trans hj,(hgiven j (by simp [hj])).trans hg⟩
  · refine .inr ⟨root,c,hr,?_,hh ▸ h2,?_,?_⟩
    · rw [href c (by rw [hr]),hh]; exact h1
    · rw [hroot root (by rw [hr])]; exact h3
    · intro j hj
      rw [hh] at hj
      exact (hgiven j hj).trans (h4 j hj)

theorem setTask_taskOk (hk : ∀ j, (k.tasks j).Ok) (ht : t.Ok) (j : Fin maxTasks) :
    ((k.setTask i t).tasks j).Ok := by
  by_cases hj : j = i
  · subst hj; simpa [setTask] using ht
  · simpa [setTask,hj] using hk j

/-- The field `f` of one record names each resource in use, and `w` is not `dead` there. -/
structure Owning {β : Type} (dead : β) (f : VmRecord → Option ℕ) (vms : ℕ → Option VmRecord)
    (w : ℕ → β) : Prop where
  inj : ∀ p q r s d, vms p = some r → vms q = some s → f r = some d → f s = some d → p = q
  live : ∀ q r d, vms q = some r → f r = some d → w d ≠ dead
  owned : ∀ d, w d ≠ dead → ∃ q r, vms q = some r ∧ f r = some d

/-- A record that named `a` names `a'`: the same or what nothing named, and what it names no
longer is dead. -/
def Renames {β : Type} (dead : β) (a a' : Option ℕ) (w w' : ℕ → β) : Prop :=
  ∀ d, (a' = some d → a = some d ∨ w d = dead) ∧
    (a' ≠ some d → a = some d ∧ w' d = dead ∨ a ≠ some d ∧ w' d = w d)

theorem Renames.refl {β : Type} (dead : β) (a : Option ℕ) (w : ℕ → β) : Renames dead a a w w :=
  fun _ => ⟨.inl,fun h => .inr ⟨h,rfl⟩⟩

/-- Only the record at `p` changes. -/
theorem Owning.change {β : Type} {dead : β} {f : VmRecord → Option ℕ}
    {vms vms' : ℕ → Option VmRecord} {w w' : ℕ → β} (h : Owning dead f vms w)
    (hv : ∀ q, q ≠ p → vms' q = vms q) (hp : Renames dead ((vms p).bind f) ((vms' p).bind f) w w') :
    (∀ q q' r s d, vms' q = some r → vms' q' = some s → f r = some d → f s = some d → q = q') ∧
      (∀ d, w' d ≠ dead → ∃ q r, vms' q = some r ∧ f r = some d) ∧
      ∀ q r d, q ≠ p → vms q = some r → f r = some d → w' d = w d := by
  have hother : ∀ q r d, q ≠ p → vms q = some r → f r = some d →
      (vms p).bind f ≠ some d ∧ (vms' p).bind f ≠ some d := by
    intro q r d hq hr hd
    have h1 : (vms p).bind f ≠ some d := fun hpd => by
      obtain ⟨s,hs,hsd⟩ := bind_eq_some_iff.mp hpd
      exact hq (h.inj q p r s d hr hs hd hsd)
    exact ⟨h1,fun hpd => ((hp d).1 hpd).elim h1 (h.live q r d hr hd)⟩
  refine ⟨fun q q' r s d hr hs hd hd' => ?_,fun d hd => ?_,fun q r d hq hr hd => ?_⟩
  · by_cases hq : q = p <;> by_cases hq' : q' = p
    · rw [hq,hq']
    · exact absurd (by rwa [← hq,hr]) (hother q' s d hq' (hv q' hq' ▸ hs) hd').2
    · exact absurd (by rwa [← hq',hs]) (hother q r d hq (hv q hq ▸ hr) hd).2
    · exact h.inj q q' r s d (hv q hq ▸ hr) (hv q' hq' ▸ hs) hd hd'
  · by_cases hp' : (vms' p).bind f = some d
    · exact ⟨p,bind_eq_some_iff.mp hp'⟩
    · rcases (hp d).2 hp' with ⟨_,hdead⟩ | ⟨hpd,hsame⟩
      · exact absurd hdead hd
      · obtain ⟨q,r,hr,hrd⟩ := h.owned d (hsame ▸ hd)
        have hq : q ≠ p := by rintro rfl; exact hpd (by rwa [hr])
        exact ⟨q,r,(hv q hq).trans hr,hrd⟩
  · obtain ⟨h1,h2⟩ := hother q r d hq hr hd
    exact ((hp d).2 h2).elim (fun hc => absurd hc.1 h1) And.right

variable (hk : Spaces k)
include hk

theorem Spaces.cell_some {d : ℕ} (hs : k.vms q = some r)
    (hd : r.pml4RefCount = some d) : (k.refs d).isSome := by
  rcases hk.record q r hs with ⟨h,_⟩ | ⟨root,c,h,h1,_⟩
  · rw [h] at hd; cases hd
  · rw [h] at hd; cases hd; rw [h1]; rfl

theorem Spaces.root_true {x : ℕ} (hs : k.vms q = some r)
    (hx : r.userPml4 = some x) : k.roots x = true := by
  rcases hk.record q r hs with ⟨h,_⟩ | ⟨root,c,h,_,_,h3,_⟩
  · rw [h] at hx; cases hx
  · rw [h] at hx; cases hx; exact h3

theorem Spaces.change (htasks : k'.tasks = update k.tasks i t)
    (hi : (k.tasks i).vm = none ∨ (k.tasks i).vm = some p) (ht : t.vm = none ∨ t.vm = some p)
    (hok : t.Ok) (hfault : k'.fault = k.fault) (hvms : ∀ q, q ≠ p → k'.vms q = k.vms q)
    (hheld : (holders k' p).Nonempty → (k'.vms p).isSome)
    (hrec : ∀ r, k'.vms p = some r → Unborn k' p r ∨ Counted k' p r)
    (hcell : Renames none ((k.vms p).bind (·.pml4RefCount)) ((k'.vms p).bind (·.pml4RefCount))
      k.refs k'.refs)
    (hroot : Renames false ((k.vms p).bind (·.userPml4)) ((k'.vms p).bind (·.userPml4))
      k.roots k'.roots) : Spaces k' := by
  have hiq : ∀ q, q ≠ p → i ∉ holders k q := fun q hq => by
    rcases hi with hi | hi <;> simp [hi,Ne.symm hq]
  have hh : ∀ q, q ≠ p → holders k' q = holders k q := by
    intro q hq
    rw [holders_congr (k := k.setTask i t) htasks]
    ext j
    by_cases hj : j = i
    · subst hj
      rcases ht with ht | ht <;> simpa [setTask,ht,Ne.symm hq] using hiq q hq
    · simp [setTask,hj]
  have hcells : Owning none (·.pml4RefCount) k.vms k.refs :=
    ⟨hk.cellInj,fun q r d hr hd => isSome_iff_ne_none.mp (hk.cell_some hr hd),
      fun d hd => hk.celled d (isSome_iff_ne_none.mpr hd)⟩
  have hroots : Owning false (·.userPml4) k.vms k.roots :=
    ⟨hk.rootInj,fun q r d hr hd => by simp [hk.root_true hr hd],
      fun d hd => hk.rooted d (by simpa using hd)⟩
  obtain ⟨cellInj,celled,cellSame⟩ := hcells.change hvms hcell
  obtain ⟨rootInj,rooted,rootSame⟩ := hroots.change hvms hroot
  refine ⟨hfault.trans hk.noFault,fun j q hj => ?_,fun q s hs => ?_,rootInj,cellInj,
    fun x hx => rooted x (by simp [hx]),fun d hd => celled d (isSome_iff_ne_none.mp hd),fun j => ?_⟩
  · have hm : j ∈ holders k' q := by simpa using hj
    by_cases hq : q = p
    · subst hq; exact hheld ⟨j,hm⟩
    · rw [hh q hq] at hm
      rw [hvms q hq]
      exact hk.held j q (by simpa using hm)
  · by_cases hq : q = p
    · subst hq; exact hrec s hs
    · rw [hvms q hq] at hs
      refine record_transfer (hh q hq) (fun d => cellSame q s d hq hs)
        (fun x => rootSame q s x hq hs) (fun j hj => ?_) (hk.record q s hs)
      rw [htasks,update_of_ne (by rintro rfl; exact hiq q hq hj)]
  · rw [htasks]
    exact setTask_taskOk hk.taskOk hok j

theorem Spaces.setTask_none (hi : (k.tasks i).vm = none) (ht : t.vm = none)
    (hok : t.Ok) : Spaces (k.setTask i t) := by
  have hh : holders (k.setTask i t) 0 = holders k 0 := by
    rw [holders_setTask_none ht,erase_holders_of_ne (by simp [hi])]
  refine hk.change (p := 0) rfl (.inl hi) (.inl ht) hok rfl
    (fun _ _ => rfl) (fun hj => ?_) (fun r hr => ?_) (.refl _ _ _) (.refl _ _ _)
  · obtain ⟨j,hj⟩ := hh ▸ hj
    exact hk.held j 0 (by simpa using hj)
  · refine record_transfer hh (fun _ _ => rfl) (fun _ _ => rfl) (fun j hj => ?_) (hk.record 0 r hr)
    have hji : j ≠ i := by rintro rfl; simp [hi] at hj
    simp [setTask,hji]

theorem Spaces.recount {n : ℤ} (hr : k.vms p = some ⟨some root,some c,0⟩)
    (hi : (k.tasks i).vm = none ∨ (k.tasks i).vm = some p) (ht : t.vm = none ∨ t.vm = some p)
    (hok : t.Ok) (hn : n = ((holders (k.setTask i t) p).card : ℤ))
    (hne : (holders (k.setTask i t) p).Nonempty) (hg : t.vm = some p → t.given = some (root, c)) :
    Spaces ((k.setRef c (some n)).setTask i t) := by
  refine hk.change rfl hi ht hok rfl (fun _ _ => rfl)
    (fun _ => ?_) (fun s hs => ?_) (fun d => ⟨.inl,fun hd => .inr ⟨hd,?_⟩⟩) (.refl _ _ _)
  · exact isSome_iff_exists.mpr ⟨_,hr⟩
  · cases hr.symm.trans hs
    rcases hk.record p _ hr with ⟨h,_⟩ | ⟨root',c',h,h1,h2,h3,h4⟩
    · cases h
    · cases h
      refine .inr ⟨root,c,rfl,?_,hne,h3,fun j hj => ?_⟩
      · simp only [setTask,setRef,update_self,hn]
        rfl
      · by_cases hj' : j = i
        · subst hj'; simpa [setTask,setRef] using hg (by simpa [setTask] using hj)
        · simpa [setTask,setRef,hj'] using h4 j (by simpa [setTask,setRef,hj'] using hj)
  · have hdc : d ≠ c := by
      rintro rfl
      simp [setTask,setRef,hr] at hd
    simp [setTask,setRef,hdc]

theorem Spaces.detach_shared (hi : (k.tasks i).vm = some p)
    (hr : k.vms p = some ⟨some root,some c,0⟩) (hcard : 1 < (holders k p).card)
    (ht : t.vm = none) (hok : t.Ok) :
    Spaces ((k.setRef c (some (((holders k p).card : ℤ) - 1))).setTask i t) := by
  have hh : (holders (k.setTask i t) p).card = (holders k p).card - 1 := by
    rw [holders_setTask_none ht,card_erase_of_mem (by simpa using hi)]
  exact hk.recount hr (.inr hi) (.inl ht) hok (by omega) (Finset.card_pos.mp (by omega))
    fun h => by simp [ht] at h

theorem Spaces.attach_shared (hi : (k.tasks i).vm = none)
    (hr : k.vms p = some ⟨some root,some c,0⟩) (ht : t.vm = some p) (hok : t.Ok)
    (hg : t.given = some (root, c)) :
    Spaces ((k.setRef c (some (((holders k p).card : ℤ) + 1))).setTask i t) := by
  have hh : (holders (k.setTask i t) p).card = (holders k p).card + 1 := by
    rw [holders_setTask_some ht hi,if_pos rfl,card_insert_of_notMem (by simp [hi])]
  exact hk.recount hr (.inl hi) (.inr ht) hok (by omega) (Finset.card_pos.mp (by omega))
    fun _ => hg

theorem Spaces.detach_last (hi : (k.tasks i).vm = some p)
    (hr : k.vms p = some r) (honly : holders k p = {i}) (ht : t.vm = none) (hok : t.Ok)
    (htasks : k'.tasks = update k.tasks i t) (hfault : k'.fault = k.fault)
    (hvms : k'.vms = update k.vms p none)
    (hrefs : ∀ d, k'.refs d = if r.pml4RefCount = some d then none else k.refs d)
    (hroots : ∀ x, k'.roots x = if r.userPml4 = some x then false else k.roots x) : Spaces k' := by
  have hp : k'.vms p = none := by rw [hvms,update_self]
  have hh : holders k' p = ∅ := by
    rw [holders_congr (k := k.setTask i t) htasks,holders_setTask_none ht,honly]
    simp
  refine hk.change htasks (.inr hi) (.inl ht) hok hfault (fun q hq => by rw [hvms,update_of_ne hq])
    (fun hj => by simp [hh] at hj) (fun r hr => by simp [hp] at hr) (fun d => ?_) fun x => ?_
  · by_cases hd : r.pml4RefCount = some d <;> simp [hp,hr,hrefs,hd]
  · by_cases hx : r.userPml4 = some x <;> simp [hp,hr,hroots,hx]

theorem Spaces.attach_new (hi : (k.tasks i).vm = none) (hp : k.vms p = none)
    (ht : t.vm = some p) (hok : t.Ok)
    (htasks : k'.tasks = update k.tasks i t) (hfault : k'.fault = k.fault)
    (hvms : k'.vms = update k.vms p (some r))
    (hr : r = ⟨none,none,0⟩ ∧ t.given = none ∧ k'.refs = k.refs ∧ k'.roots = k.roots ∨
      ∃ root c, r = ⟨some root,some c,0⟩ ∧ t.given = some (root, c) ∧
        k.refs c = none ∧ k'.refs = update k.refs c (some 1) ∧
        k.roots root = false ∧ k'.roots = update k.roots root true) : Spaces k' := by
  have hnone : holders k p = ∅ := by
    refine eq_empty_of_forall_notMem fun j hj => ?_
    simpa [hp] using hk.held j p (by simpa using hj)
  have hpi : holders k' p = {i} := by
    rw [holders_congr (k := k.setTask i t) htasks,holders_setTask_some ht hi,if_pos rfl,hnone]
    rfl
  have hpr : k'.vms p = some r := by rw [hvms,update_self]
  have hgi : (k'.tasks i).given = t.given := by rw [htasks,update_self]
  refine hk.change htasks (.inl hi) (.inr ht) hok hfault (fun q hq => by rw [hvms,update_of_ne hq])
    (fun _ => by rw [hpr]; rfl) (fun s hs => ?_) (fun d => ⟨fun hd => ?_,fun hd => ?_⟩)
    fun x => ⟨fun hx => ?_,fun hx => ?_⟩
  · cases hpr.symm.trans hs
    rcases hr with ⟨rfl,hg,_,_⟩ | ⟨root,c,rfl,hg,_,hrefs,_,hroots⟩
    · exact .inl ⟨rfl,i,hpi,hgi.trans hg⟩
    · refine .inr ⟨root,c,rfl,by simp [hrefs,hpi],by simp [hpi],by rw [hroots,update_self],?_⟩
      intro j hj
      rw [hpi,mem_singleton] at hj
      rw [hj]
      exact hgi.trans hg
  all_goals
    rcases hr with ⟨rfl,_,hrefs,hroots⟩ | ⟨root,c,rfl,_,hc,hrefs,hroot,hroots⟩
    · simp_all
    · simp_all [update_of_ne,Ne.symm]

end GaiaKernel.Sched
