import GaiaKernel.Display.Backbuffer
import GaiaKernel.Sched.SpaceRuns
import GaiaKernel.Syscall.MappingSpec
import GaiaKernel.Syscall.RangeAccess

/-! # The frames of a registered backbuffer

`Held` is the invariant: the snapshot of the registration is what the page tables of its owner's
space say. Only calls that give pages back can break it, and `sys_munmap`, `sys_brk` and the end of
a failed `sys_mmap` do so without asking for the registration.
-/
namespace GaiaKernel
open Function Option List Spaces
open BitVec (toNat_add toNat_ofNat lt_def eq_of_toNat_eq toNat_sub ofNat add_assoc ofNat_add)
variable {lowPd r : U64} {own own' : Owner} {ph ph' : Phys}

theorem NoneLent.unlent (hn : NoneLent ph own) (h : FrameSafe lowPd ph own) (r : U64) :
    Unlent ph own r := by
  rintro f p hf r' q e hl hs rfl
  have hl := (leafAt_forget.mp hl).1
  have hp := (h.shared r' q e hl hs).page r p hf
  cases p with
  | nil => cases hp
  | cons i p =>
    have hp : p.length = 3 := by simpa using hp
    obtain ⟨_,_,t,ht,hpres,htab,hsh⟩ := h.tables.parent hf
    exact hn.apart hl hs ⟨t,i,p,rfl,hp,ht,rfl,hpres⟩ (hsh hp) htab.symm

variable {bytes va : U64} {i : ℕ} {m : Space} {reg : Option Registration}
namespace Display
open Syscall Trace
variable {k : KernelTables} {fb : Screen} {s : State} {g : Registration} {pid id : ℕ} {vm : TaskVm}

/-! ## The snapshot -/

theorem snapshot_spec {pml4 : U64} {n : ℕ} {pages : List U64}
    (h : snapshot ph pml4 n va = some pages) : pages.length = n ∧
      ∀ i page, pages[i]? = some page → userFrame ph pml4 (pageAt va i) = some page := by
  induction n generalizing va pages with
  | zero =>
    obtain rfl := some.inj h
    exact ⟨rfl,fun i page hi => by simp at hi⟩
  | succ n ih =>
    rw [snapshot] at h
    cases hf : userFrame ph pml4 va with
    | none =>
      rw [hf] at h
      cases h
    | some frame =>
      rw [hf] at h
      obtain ⟨rest,hrest,rfl⟩ := map_eq_some_iff.mp h
      obtain ⟨hlen,hall⟩ := ih hrest
      refine ⟨by rw [length_cons,hlen],fun i page hi => ?_⟩
      cases i with
      | zero =>
        obtain rfl := some.inj hi
        rw [pageAt_zero]
        exact hf
      | succ i =>
        rw [← pageAt_succ]
        exact hall i page hi

/-- The registered range, and the frames of its pages in the page tables. -/
structure Snapshot (ph : Phys) (own : Owner) (g : Registration) : Prop where
  base : g.pageBase = pageOf g.source
  nonempty : 0 < g.sourceBytes.toNat
  fits : g.source.toNat + g.sourceBytes.toNat ≤ 2 ^ 47
  length : g.pages.length =
    (g.source.toNat + g.sourceBytes.toNat - 1) / 4096 - g.source.toNat / 4096 + 1
  leaf : ∀ i page, g.pages[i]? = some page → ∃ e,
    LeafAt ph own g.userPml4 (pagePath (pageAt g.pageBase i)) e ∧ tableOf e = page

section
variable (h : Snapshot ph own g)
include h

theorem Snapshot.page (hi : i < g.pages.length) :
    (pageAt g.pageBase i).toNat = (g.source.toNat / 4096 + i) * 4096 ∧
      (g.source.toNat / 4096 + i) * 4096 < g.source.toNat + g.sourceBytes.toNat := by
  have hlen := h.length
  have hne := h.nonempty
  have hfits := h.fits
  unfold pageAt
  rw [h.base,toNat_add,pageOf_toNat,toNat_ofNat]
  omega

theorem Snapshot.lowerHalf (hi : i < g.pages.length) : LowerHalf (pageAt g.pageBase i) := by
  obtain ⟨heq,hlt⟩ := h.page hi
  have hfits := h.fits
  unfold LowerHalf
  omega

theorem Snapshot.of_leaf (hleaf : ∀ {q e}, LeafAt ph own g.userPml4 q e →
      (∃ i < g.pages.length, q = pagePath (pageAt g.pageBase i)) →
      ∃ e', LeafAt ph' own' g.userPml4 q e' ∧ tableOf e' = tableOf e) : Snapshot ph' own' g := by
  refine ⟨h.base,h.nonempty,h.fits,h.length,fun i page hi => ?_⟩
  obtain ⟨e,hl,rfl⟩ := h.leaf i page hi
  obtain ⟨hlt,-⟩ := List.getElem?_eq_some_iff.mp hi
  exact hleaf hl ⟨i,hlt,rfl⟩

theorem Snapshot.apart {addr : U64}
    (hover : registeredRangeOverlaps (some g) g.userPml4 addr bytes = false) {q : Path}
    (hq : RangePages addr bytes q) (hi : i < g.pages.length) :
    q ≠ pagePath (pageAt g.pageBase i) := by
  rintro rfl
  obtain ⟨hpage,hlt⟩ := h.page hi
  obtain ⟨hlow,hhigh⟩ := hq.bounds (h.lowerHalf hi)
  obtain ⟨ha,hb,hok,-⟩ := hq
  obtain ⟨hbytes,hsum,-⟩ := uvmRangeOk_spec hok
  have hend : (g.source + g.sourceBytes).toNat = g.source.toNat + g.sourceBytes.toNat := by
    have := h.fits
    exact Nat.mod_eq_of_lt (by omega)
  have hgo : ¬ (bytes = 0#64 ∨ addr + bytes < addr) := by
    rw [not_or,lt_def,hsum]
    refine ⟨?_,by omega⟩
    rintro rfl
    exact absurd hbytes (by decide)
  rw [registeredRangeOverlaps,if_neg hgo] at hover
  simp only [beq_self_eq_true,Bool.true_and,Bool.and_eq_false_iff,decide_eq_false_iff_not,
    lt_def,gt_iff_lt,hend,hsum] at hover
  unfold PageAligned at ha hb
  omega

end

theorem fits_of_bufferOk {pointer : U64} (hz : 0 < bytes.toNat)
    (h : (vm.uvmBufferOk ph pointer bytes false).1 = true) :
    pointer.toNat + bytes.toNat ≤ 2 ^ 47 := by
  have hr := uvmBufferOk_reachRange (Prod.ext h rfl)
  unfold reachRange at hr
  rw [if_neg (Nat.pos_iff_ne_zero.mp hz)] at hr
  by_contra hc
  rw [if_neg hc] at hr
  cases hr

theorem framebufferRegisterUser_snapshot (h : FrameSafe lowPd ph own) (hr : own r = some (r, []))
    {source : U64} {pitch : U32} {memory : Bool} (hfits : source.toNat + bytes.toNat ≤ 2 ^ 47)
    (hg : framebufferRegisterUser ph r pid source pitch bytes memory = some g) :
    g.userPml4 = r ∧ g.ownerPid = pid ∧ Snapshot ph own g := by
  unfold framebufferRegisterUser at hg
  dsimp only at hg
  split_ifs at hg with hargs
  obtain ⟨pages,hpages,rfl⟩ := map_eq_some_iff.mp hg
  obtain ⟨hlen,hframe⟩ := snapshot_spec hpages
  have hpos : 0 < bytes.toNat := by
    refine Nat.pos_of_ne_zero fun hz => hargs (Or.inr (Or.inl (eq_of_toNat_eq hz)))
  have hlast : (source + bytes - 1).toNat = source.toNat + bytes.toNat - 1 := by
    rw [toNat_sub,toNat_add,show (1 : U64).toNat = 1 from rfl]
    omega
  have hcount : pages.length =
      (source.toNat + bytes.toNat - 1) / 4096 - source.toNat / 4096 + 1 := by
    rw [hlen,toNat_sub,pageOf_toNat,pageOf_toNat,hlast]
    omega
  refine ⟨rfl,rfl,rfl,hpos,hfits,hcount,fun i page hi => ?_⟩
  have hf := hframe i page hi
  unfold userFrame at hf
  dsimp only at hf
  split_ifs at hf with hent
  obtain rfl := some.inj hf
  have hlow : LowerHalf (pageAt (pageOf source) i) := by
    have hlt : i < pages.length := (List.getElem?_eq_some_iff.mp hi).1
    unfold LowerHalf pageAt
    rw [toNat_add,pageOf_toNat,toNat_ofNat]
    omega
  refine ⟨_,(vmmEntryIn_iff h.tables hr hlow.pml4Index _).mp ⟨rfl,fun hz => ?_⟩,rfl⟩
  rw [hz] at hent
  exact hent (by decide)

theorem framebufferUnregisterUser_eq_some (hg : framebufferUnregisterUser reg r pid = some g) :
    reg = some g ∧ (g.userPml4 ≠ r ∨ g.ownerPid ≠ pid) := by
  unfold framebufferUnregisterUser at hg
  cases reg with
  | none => cases hg
  | some g' =>
    dsimp only at hg
    split_ifs at hg with hne
    obtain rfl := some.inj hg
    exact ⟨rfl,hne⟩

theorem lookup_filter_ne {pid x : ℕ} (l : List (ℕ × ℕ)) (hx : x ≠ pid) :
    (l.filter fun t => t.1 ≠ pid).lookup x = l.lookup x := by
  induction l with
  | nil => rfl
  | cons t l ih =>
    by_cases ht : t.1 = pid
    · have hne : (x == t.1) = false := by simpa [ht] using hx
      rw [filter_cons_of_neg (by simpa using ht),ih,lookup_cons,hne]
    · rw [filter_cons_of_pos (by simpa using ht),lookup_cons,lookup_cons,ih]

theorem lookup_filter_self (l : List (ℕ × ℕ)) (pid : ℕ) :
    (l.filter fun t => t.1 ≠ pid).lookup pid = none := by
  rw [lookup_eq_none_iff]
  intro t ht
  have hne := (mem_filter.mp ht).2
  exact bne_iff_ne.mpr fun hc => of_decide_eq_true hne hc.symm

theorem mem_of_lookup {x y : ℕ} {l : List (ℕ × ℕ)} (h : l.lookup x = some y) : (x, y) ∈ l := by
  obtain ⟨l1,l2,rfl,_⟩ := lookup_eq_some_iff.mp h
  simp

/-! ## The invariant -/

structure Pins (s : State) (own : Owner) (g : Registration) (id : ℕ) (vm : TaskVm) : Prop where
  owner : s.tasks.lookup g.ownerPid = some id
  space : s.spaces id = some vm
  root : vm.userPml4 = some g.userPml4
  snapshot : Snapshot s.phys own g

structure Held (lowPd : U64) (s : State) (own : Owner) : Prop where
  safe : FrameSafe lowPd s.phys own
  noneLent : NoneLent s.phys own
  bounded : ∀ {id vm}, s.spaces id = some vm → Bounded FlagsOnly vm
  root : ∀ {id vm}, s.spaces id = some vm → ∃ r, vm.userPml4 = some r ∧ own r = some (r, [])
  distinct : ∀ {id id' vm vm'}, s.spaces id = some vm → s.spaces id' = some vm' →
    vm.userPml4 = vm'.userPml4 → id = id'
  pinned : ∀ {g}, s.reg = some g → ∃ id vm, Pins s own g id vm

theorem State.spaceOf_eq_some : s.spaceOf pid = some (id, vm) ↔
    s.tasks.lookup pid = some id ∧ s.spaces id = some vm := by
  unfold State.spaceOf
  cases s.tasks.lookup pid with
  | none => simp
  | some id' =>
    cases hs : s.spaces id' with
    | none =>
      simp only [bind_some,hs,map_none,reduceCtorEq,some.injEq,false_iff]
      rintro ⟨rfl,hc⟩
      rw [hs] at hc
      cases hc
    | some vm' =>
      simp only [bind_some,hs,map_some,some.injEq,Prod.mk.injEq]
      constructor
      · rintro ⟨rfl,rfl⟩
        exact ⟨rfl,hs⟩
      · rintro ⟨rfl,hc⟩
        rw [hs] at hc
        exact ⟨rfl,some.inj hc⟩

theorem State.spaceOf_of_caller (h : s.caller pid = some (id, vm)) :
    s.spaceOf pid = some (id, vm) := by
  unfold State.caller at h
  split_ifs at h
  exact h

theorem State.space_of_caller (h : s.caller pid = some (id, vm)) : s.spaces id = some vm :=
  (State.spaceOf_eq_some.mp (State.spaceOf_of_caller h)).2

theorem State.put_self (h : s.spaces id = some vm) : s.put id ⟨vm,ph⟩ = { s with phys := ph } := by
  unfold State.put
  rw [← h,update_eq_self]

section
variable (h : Held lowPd s own)
include h
variable (hid : s.spaces id = some vm)
include hid

theorem Held.ok : SpaceOk lowPd ⟨vm,s.phys⟩ own := by
  refine ⟨h.safe,h.noneLent,fun {r} hr => ?_,h.bounded hid⟩
  obtain ⟨r',hr',ho⟩ := h.root hid
  obtain rfl := some.inj (hr'.symm.trans hr)
  exact ho

theorem Held.put {gone : Path → Prop} {set : Path → U64 → Prop}
    (hm : Remaps lowPd ⟨vm,s.phys⟩ own gone set m own')
    (hmiss : ∀ g, s.reg = some g → vm.userPml4 = some g.userPml4 → ∀ q, gone q →
      ∀ i < g.pages.length, q ≠ pagePath (pageAt g.pageBase i)) : Held lowPd (s.put id m) own' := by
  -- Every space has the root it had.
  have hback : ∀ {i v}, (s.put id m).spaces i = some v → ∃ v', s.spaces i = some v' ∧
      v.userPml4 = v'.userPml4 ∧ Bounded FlagsOnly v := by
    intro i v hv
    simp only [State.put,update_apply] at hv
    split_ifs at hv with hi
    · subst hi
      obtain rfl := some.inj hv
      exact ⟨vm,hid,hm.root,hm.bounded⟩
    · exact ⟨v,hv,rfl,h.bounded hv⟩
  refine ⟨hm.safe,hm.noneLent,fun hv => ?_,fun hv => ?_,fun hv hv' heq => ?_,fun {g} hg => ?_⟩
  · obtain ⟨_,_,_,hb⟩ := hback hv
    exact hb
  · obtain ⟨v',hv',hr,_⟩ := hback hv
    obtain ⟨r,hr',ho⟩ := h.root hv'
    exact ⟨r,hr.trans hr',(hm.roots r).mpr ho⟩
  · obtain ⟨v1,hv1,hr1,_⟩ := hback hv
    obtain ⟨v2,hv2,hr2,_⟩ := hback hv'
    exact h.distinct hv1 hv2 (hr1.symm.trans (heq.trans hr2))
  · obtain ⟨id',vm',howner,hspace,hroot,hsnap⟩ := h.pinned hg
    have hsnap' : Snapshot m.phys own' g := by
      refine hsnap.of_leaf fun {q e} hl hq => ?_
      rcases hm.rest hl with ⟨hr,hgone⟩ | ⟨e',hl',ht,_⟩
      · obtain ⟨i,hi,rfl⟩ := hq
        exact absurd rfl (hmiss g hg hr _ hgone i hi)
      · exact ⟨e',hl',ht⟩
    by_cases hi : id' = id
    · subst hi
      obtain rfl := some.inj (hspace.symm.trans hid)
      exact ⟨id',m.vm,howner,update_self ..,hm.root.trans hroot,hsnap'⟩
    · exact ⟨id',vm',howner,(update_of_ne hi ..).trans hspace,hroot,hsnap'⟩

theorem Held.grow (hm : Remaps lowPd ⟨vm,s.phys⟩ own (fun _ => False) (fun _ _ => True) m own') :
    Held lowPd (s.put id m) own' := h.put hid hm fun _ _ _ _ hq => hq.elim

theorem Held.growPhys
    (hm : Remaps lowPd ⟨vm,s.phys⟩ own (fun _ => False) (fun _ _ => True) ⟨vm,ph'⟩ own') :
    Held lowPd { s with phys := ph' } own' := by
  have hh := h.grow hid hm
  rw [State.put_self hid] at hh
  exact hh

omit hid

theorem Held.setReg (hreg : ∀ {g}, reg = some g → ∃ id vm, Pins s own g id vm) :
    Held lowPd { s with reg := reg } own := by
  refine ⟨h.safe,h.noneLent,h.bounded,h.root,h.distinct,fun hg => ?_⟩
  obtain ⟨id,vm,hp⟩ := hreg hg
  exact ⟨id,vm,hp.owner,hp.space,hp.root,hp.snapshot⟩

theorem Held.setLoading (loading : ℕ → Option Loading) :
    Held lowPd { s with loading := loading } own := by
  refine ⟨h.safe,h.noneLent,h.bounded,h.root,h.distinct,fun hg => ?_⟩
  obtain ⟨id,vm,hp⟩ := h.pinned hg
  exact ⟨id,vm,hp.owner,hp.space,hp.root,hp.snapshot⟩

theorem Held.miss {base : U64} (hreg : s.registered vm base bytes = false) :
    ∀ g, s.reg = some g → vm.userPml4 = some g.userPml4 → ∀ q, RangePages base bytes q →
      ∀ i < g.pages.length, q ≠ pagePath (pageAt g.pageBase i) := by
  intro g hg hr q hq i hi
  obtain ⟨id,vm',hp⟩ := h.pinned hg
  refine hp.snapshot.apart ?_ hq hi
  rw [State.registered,hr,hg] at hreg
  exact hreg

/-! ## The steps -/

theorem Held.sysFbRegister (pixels pitch : U64) (inputOwner memory : Bool) :
    ∃ own', Held lowPd (s.sysFbRegister fb pid pixels pitch inputOwner memory) own' := by
  unfold State.sysFbRegister
  cases hc : s.caller pid with
  | none => exact ⟨own,h⟩
  | some c =>
    obtain ⟨id,vm⟩ := c
    have hid := State.space_of_caller hc
    obtain ⟨r,hr,hor⟩ := h.root hid
    cases hspan : fb.sourceSpan pitch with
    | none =>
      simp only [hr]
      exact ⟨own,h⟩
    | some bytes =>
      simp only [hr]
      obtain ⟨own',hm⟩ : ∃ own', Remaps lowPd ⟨vm,s.phys⟩ own (fun _ => False) (fun _ _ => True)
        ⟨vm,(vm.uvmBufferOk s.phys pixels bytes false).2⟩ own' :=
          (h.ok hid).bufferOk pixels bytes false
      have hh := h.growPhys hid hm
      split_ifs with hargs hok
      · exact ⟨own,h⟩
      · exact ⟨own',hh⟩
      · cases hg : framebufferRegisterUser (vm.uvmBufferOk s.phys pixels bytes false).2 r pid pixels
            (pitch.setWidth 32) bytes memory with
        | none => exact ⟨own',hh⟩
        | some g =>
          have hpos : 0 < bytes.toNat := by
            refine Nat.pos_of_ne_zero fun hz => ?_
            have hz : bytes = 0#64 := eq_of_toNat_eq hz
            simp [framebufferRegisterUser,hz] at hg
          have hfits := fits_of_bufferOk hpos (by simpa using hok)
          obtain ⟨h1,h2,h3⟩ := framebufferRegisterUser_snapshot hh.safe ((hm.roots r).mpr hor)
            hfits hg
          refine ⟨own',hh.setReg fun {g'} hg' => ?_⟩
          obtain rfl := some.inj hg'
          have hown := (State.spaceOf_eq_some.mp (State.spaceOf_of_caller hc)).1
          exact ⟨id,vm,h2 ▸ hown,hid,h1 ▸ hr,h3⟩

theorem Held.sysFbUnregister : Held lowPd (s.sysFbUnregister pid) own := by
  unfold State.sysFbUnregister
  cases s.caller pid with
  | none => exact h
  | some c =>
    obtain ⟨id,vm⟩ := c
    cases hr : vm.userPml4 with
    | none =>
      simp only [hr]
      exact h
    | some r =>
      simp only [hr]
      exact h.setReg fun hg => h.pinned (framebufferUnregisterUser_eq_some hg).1

theorem Held.sysFbPresent (pixels pitch rects count : U64) :
    ∃ own', Held lowPd (s.sysFbPresent fb pid pixels pitch rects count) own' := by
  unfold State.sysFbPresent
  cases hc : s.caller pid with
  | none => exact ⟨own,h⟩
  | some c =>
    obtain ⟨id,vm⟩ := c
    have hid := State.space_of_caller hc
    obtain ⟨r,hr,-⟩ := h.root hid
    cases fb.sourceSpan pitch with
    | none =>
      simp only [hr]
      exact ⟨own,h⟩
    | some bytes =>
      simp only [hr]
      -- The check of the pixels is left out for a registered buffer.
      obtain ⟨own1,hm1⟩ : ∃ own1, Remaps lowPd ⟨vm,s.phys⟩ own (fun _ => False) (fun _ _ => True)
          ⟨vm,(if registrationMatches s.reg r pid pixels (pitch.setWidth 32) bytes = true
            then (true, s.phys) else vm.uvmBufferOk s.phys pixels bytes false).2⟩ own1 := by
        split_ifs
        · exact ⟨own,(h.ok hid).remaps⟩
        · exact (h.ok hid).bufferOk pixels bytes false
      generalize (if registrationMatches s.reg r pid pixels (pitch.setWidth 32) bytes = true
            then (true, s.phys) else vm.uvmBufferOk s.phys pixels bytes false) = ok at hm1 ⊢
      split_ifs
      · exact ⟨own1,h.growPhys hid hm1⟩
      · obtain ⟨own2,hm2⟩ := (hm1.ok (h.ok hid)).bufferOk rects (count * 16) false
        exact ⟨own2,h.growPhys hid (hm1.trans hm2)⟩

theorem Held.mapping (call : TaskVm → Space → ℤ × Space) (gone : TaskVm → Path → Prop)
    (set : TaskVm → Path → U64 → Prop)
    (hcall : ∀ id vm, s.caller pid = some (id, vm) → SpaceOk lowPd ⟨vm,s.phys⟩ own →
      ∃ own', Remaps lowPd ⟨vm,s.phys⟩ own (gone vm) (set vm) (call vm ⟨vm,s.phys⟩).2 own')
    (hmiss : ∀ id vm, s.caller pid = some (id, vm) → ∀ q, gone vm q → ∃ base bytes,
      s.registered vm base bytes = false ∧ RangePages base bytes q) :
    ∃ own', Held lowPd (s.mapping pid call) own' := by
  unfold State.mapping
  cases hc : s.caller pid with
  | none => exact ⟨own,h⟩
  | some c =>
    obtain ⟨id,vm⟩ := c
    have hid := State.space_of_caller hc
    obtain ⟨own',hm⟩ := hcall id vm hc (h.ok hid)
    refine ⟨own',h.put hid hm fun g hg hr q hq => ?_⟩
    obtain ⟨base,bytes,hreg,hrange⟩ := hmiss id vm hc q hq
    exact h.miss hreg g hg hr q hrange

theorem Held.sysMmap (addr len : U64) (prot flags : U32) (fd : FdFile) (offset : U64) :
    Held lowPd (s.sysMmap pid addr len prot flags fd offset) own := by
  unfold State.sysMmap
  cases hc : s.caller pid with
  | none => exact h
  | some c =>
    obtain ⟨id,vm⟩ := c
    have hid := State.space_of_caller hc
    have hm : Remaps lowPd ⟨vm,s.phys⟩ own (fun _ => False) (fun _ _ => True) _ own :=
      (h.ok hid).sysMmap addr len prot flags fd offset
    have hh := h.grow hid hm
    dsimp only
    generalize Space.sysMmap ⟨vm,s.phys⟩ addr len prot flags fd offset = res at hh ⊢
    obtain ⟨_ | l,m⟩ := res
    · exact hh
    · exact hh.setLoading _

theorem Held.mmapCopyFile : ∃ own', Held lowPd (s.mmapCopyFile pid) own' := by
  unfold State.mmapCopyFile
  cases hc : s.spaceOf pid with
  | none => exact ⟨own,h⟩
  | some c =>
    have hid := (State.spaceOf_eq_some.mp hc).2
    cases s.loading pid with
    | none => exact ⟨own,h⟩
    | some l =>
      obtain ⟨own',hm⟩ := (h.ok hid).mmapCopyFile l
      exact ⟨own',h.grow hid hm⟩

theorem Held.faultIn (addr : U64) (writable : Bool) :
    ∃ own', Held lowPd (s.faultIn pid addr writable) own' := by
  unfold State.faultIn
  cases hc : s.caller pid with
  | none => exact ⟨own,h⟩
  | some c =>
    have hid := State.space_of_caller hc
    obtain ⟨own',hm⟩ := (h.ok hid).faultIn addr writable
    exact ⟨own',h.growPhys hid hm⟩

theorem Held.created (hid : s.spaces id = none) (brkBase : U64)
    (hc : Created lowPd s.phys own r ph' own') : Held lowPd { s with
      phys := ph', spaces := update s.spaces id (some (freshVm r brkBase)) } own' := by
  have hne : ∀ {i v}, s.spaces i = some v → v.userPml4 ≠ some r := by
    intro i v hv hr
    obtain ⟨r',hr',ho⟩ := h.root hv
    obtain rfl := some.inj (hr'.symm.trans hr)
    rw [hc.fresh] at ho
    cases ho
  have hback : ∀ {i v}, update s.spaces id (some (freshVm r brkBase)) i = some v →
      i = id ∧ v = freshVm r brkBase ∨ i ≠ id ∧ s.spaces i = some v := by
    intro i v hv
    rw [update_apply] at hv
    split_ifs at hv with hi
    · subst hi
      exact Or.inl ⟨rfl,(some.inj hv).symm⟩
    · exact Or.inr ⟨hi,hv⟩
  have hleaf : ∀ {r' q e}, LeafAt ph' own' r' q e → has e vmmShared = true →
      LeafAt s.phys own r' q e := by
    intro r' q e hl hs
    refine (hc.leaf ?_).mp hl
    rintro rfl
    rw [hc.image.unshared q e hl] at hs
    cases hs
  refine ⟨hc.safe,⟨fun {r1 q e r2 q' e'} hl hs hl' hs' => ?_⟩,fun hv => ?_,fun hv => ?_,
    fun {i i' v v'} hv hv' heq => ?_,fun {g} hg => ?_⟩
  · by_cases hr : r2 = r
    · subst hr
      exact hc.image.unlent _ _ (hc.safe.tables.owner_of_leafAt hl' hs') _ _ _ hl hs
    · exact h.noneLent.apart (hleaf hl hs) hs ((hc.leaf hr).mp hl') hs'
  · rcases hback hv with ⟨_,rfl⟩ | ⟨_,hv⟩
    · exact (vmOk_freshVm r brkBase).bounded
    · exact h.bounded hv
  · rcases hback hv with ⟨_,rfl⟩ | ⟨_,hv⟩
    · exact ⟨r,rfl,hc.image.root⟩
    · obtain ⟨r',hr',ho⟩ := h.root hv
      exact ⟨r',hr',(hc.roots r').mpr (Or.inl ho)⟩
  · rcases hback hv with ⟨rfl,rfl⟩ | ⟨_,hv⟩
    · rcases hback hv' with ⟨rfl,_⟩ | ⟨_,hv'⟩
      · rfl
      · exact absurd heq.symm (hne hv')
    · rcases hback hv' with ⟨_,rfl⟩ | ⟨_,hv'⟩
      · exact absurd heq (hne hv)
      · exact h.distinct hv hv' heq
  · obtain ⟨id',vm',howner,hspace,hroot,hsnap⟩ := h.pinned hg
    have hid' : id' ≠ id := by
      rintro rfl
      rw [hid] at hspace
      cases hspace
    refine ⟨id',vm',howner,(update_of_ne hid' ..).trans hspace,hroot,
      hsnap.of_leaf fun {q e} hl _ => ⟨e,(hc.leaf fun hr => ?_).mpr hl,rfl⟩⟩
    exact hne hspace (hroot.trans (congrArg some hr))

theorem Held.sameLeaves (hl : SameLeaves lowPd s.phys own ph' own') :
    Held lowPd { s with phys := ph' } own' := by
  refine ⟨hl.safe,h.noneLent.of_back fun hl' => ⟨_,hl.leaf.mp hl',rfl,rfl⟩,h.bounded,
    fun hv => ?_,h.distinct,fun {g} hg => ?_⟩
  · obtain ⟨r,hr,ho⟩ := h.root hv
    exact ⟨r,hr,(hl.roots r).mpr ho⟩
  · obtain ⟨id,vm,hp⟩ := h.pinned hg
    exact ⟨id,vm,hp.owner,hp.space,hp.root,
      hp.snapshot.of_leaf fun {q e} hq _ => ⟨e,hl.leaf.mpr hq,rfl⟩⟩

theorem Held.setTasks {tasks : List (ℕ × ℕ)}
    (ht : ∀ g, s.reg = some g → tasks.lookup g.ownerPid = s.tasks.lookup g.ownerPid) :
    Held lowPd { s with tasks := tasks } own := by
  refine ⟨h.safe,h.noneLent,h.bounded,h.root,h.distinct,fun {g} hg => ?_⟩
  obtain ⟨id,vm,hp⟩ := h.pinned hg
  exact ⟨id,vm,(ht g hg).trans hp.owner,hp.space,hp.root,hp.snapshot⟩

theorem Held.addTask (hnew : s.tasks.lookup pid = none) (id : ℕ) :
    Held lowPd { s with tasks := (pid, id) :: s.tasks } own := by
  refine h.setTasks fun g hg => ?_
  obtain ⟨id',vm',hp⟩ := h.pinned hg
  have hne : (g.ownerPid == pid) = false := by
    refine beq_false_of_ne fun hc => ?_
    have howner := hp.owner
    rw [hc,hnew] at howner
    cases howner
  rw [lookup_cons,hne]

theorem Held.leave (hs : s.spaceOf pid = some (id, vm)) : Held lowPd (s.leave pid vm) own := by
  obtain ⟨htask,hid⟩ := State.spaceOf_eq_some.mp hs
  obtain ⟨r,hr,-⟩ := h.root hid
  unfold State.leave
  simp only [hr]
  have hreg : Held lowPd { s with reg := framebufferUnregisterUser s.reg r pid } own :=
    h.setReg fun hg => h.pinned (framebufferUnregisterUser_eq_some hg).1
  refine (hreg.setTasks fun g hg => ?_).setLoading _
  obtain ⟨hg,hne⟩ := framebufferUnregisterUser_eq_some hg
  refine lookup_filter_ne _ fun howner => ?_
  obtain ⟨id',vm',hp⟩ := h.pinned hg
  have hid' : some id = some id' := htask.symm.trans (howner ▸ hp.owner)
  obtain rfl := some.inj hid'
  obtain rfl := some.inj (hid.symm.trans hp.space)
  have hroot : g.userPml4 = r := some.inj (hp.root.symm.trans hr)
  exact hne.elim (fun hc => hc hroot) fun hc => hc howner

theorem Held.exit : Held lowPd (s.exit pid) own := by
  unfold State.exit
  cases hs : s.spaceOf pid with
  | none => exact h
  | some c => exact h.leave hs

theorem Held.tearDown (id : ℕ) : ∃ own', Held lowPd (s.tearDown id) own' := by
  unfold State.tearDown
  cases hid : s.spaces id with
  | none => exact ⟨own,h⟩
  | some vm =>
    obtain ⟨r,hr,ho⟩ := h.root hid
    simp only [hr]
    split_ifs with hun
    swap
    · exact ⟨own,h⟩
    have ht := h.safe.tables.freeUserPml4 (h.noneLent.unlent h.safe r) h.safe ho
    have hback : ∀ {i v}, update s.spaces id none i = some v → i ≠ id ∧ s.spaces i = some v := by
      intro i v hv
      by_cases hi : i = id
      · rw [hi,update_self] at hv
        cases hv
      · rw [update_of_ne hi] at hv
        exact ⟨hi,hv⟩
    have hne : ∀ {i v r'}, i ≠ id → s.spaces i = some v → v.userPml4 = some r' → r' ≠ r := by
      rintro i v r' hi hv hr' rfl
      exact hi (h.distinct hv hid (hr'.trans hr.symm))
    refine ⟨_,ht.safe,h.noneLent.of_back fun hl => ⟨_,(ht.leafAt.mp hl).1,rfl,rfl⟩,
      fun hv => h.bounded (hback hv).2,fun hv => ?_,
      fun hv hv' => h.distinct (hback hv).2 (hback hv').2,fun {g} hg => ?_⟩
    · obtain ⟨hi,hv⟩ := hback hv
      obtain ⟨r',hr',ho'⟩ := h.root hv
      exact ⟨r',hr',forget_eq_some.mpr ⟨ho',hne hi hv hr'⟩⟩
    · obtain ⟨id',vm',hp⟩ := h.pinned hg
      have hid' : id' ≠ id := hun _ (mem_of_lookup hp.owner)
      refine ⟨id',vm',hp.owner,(update_of_ne hid' ..).trans hp.space,hp.root,
        hp.snapshot.of_leaf fun {q e} hl _ => ⟨e,ht.leafAt.mpr ⟨hl,?_⟩,rfl⟩⟩
      exact hne hid' hp.space hp.root

theorem Held.spawn (hk : k.SharesLow lowPd) (id : ℕ) (steps : List LoadStep) (ok : Bool)
    (brkBase : U64) : ∃ own', Held lowPd (s.spawn k pid id steps ok brkBase) own' := by
  unfold State.spawn
  by_cases hc : (s.tasks.lookup pid).isSome = true ∨ (s.spaces id).isSome = true
  · rw [if_pos hc]
    exact ⟨own,h⟩
  rw [if_neg hc]
  simp only [not_or,Bool.not_eq_true,isSome_eq_false_iff,isNone_iff_eq_none] at hc
  have hl := h.safe.loadImage hk steps ok
  generalize s.phys.loadImage k steps ok = res at hl
  obtain ⟨_ | r,ph⟩ := res
  · obtain ⟨own',hl⟩ := hl
    exact ⟨own',h.sameLeaves hl⟩
  · obtain ⟨own',hcr⟩ := hl
    exact ⟨own',(h.created hc.2 brkBase hcr).addTask hc.1 id⟩

theorem Held.clone (child : ℕ) : Held lowPd (s.clone pid child) own := by
  unfold State.clone
  cases s.caller pid with
  | none => exact h
  | some c =>
    split_ifs with hc
    · exact h
    · rw [Bool.not_eq_true,isSome_eq_false_iff,isNone_iff_eq_none] at hc
      exact h.addTask hc c.1

theorem Held.exec (hk : k.SharesLow lowPd) (id : ℕ) (steps : List LoadStep) (ok : Bool)
    (brkBase : U64) : ∃ own', Held lowPd (s.exec k pid id steps ok brkBase) own' := by
  unfold State.exec
  cases hc : s.caller pid with
  | none => exact ⟨own,h⟩
  | some c =>
    obtain ⟨old,vm⟩ := c
    obtain ⟨htask,hold⟩ := State.spaceOf_eq_some.mp (State.spaceOf_of_caller hc)
    dsimp only
    by_cases hid : (s.spaces id).isSome = true
    · rw [if_pos hid]
      exact ⟨own,h⟩
    rw [if_neg hid]
    have hid : s.spaces id = none := by simpa using hid
    have hl := h.safe.loadImage hk steps ok
    generalize s.phys.loadImage k steps ok = res at hl
    obtain ⟨_ | r,ph⟩ := res
    · obtain ⟨own',hl⟩ := hl
      exact ⟨own',h.sameLeaves hl⟩
    · obtain ⟨own',hcr⟩ := hl
      have hne : old ≠ id := by
        rintro rfl
        rw [hid] at hold
        cases hold
      have hleft := (h.created hid brkBase hcr).leave
        (State.spaceOf_eq_some.mpr ⟨htask,(update_of_ne hne ..).trans hold⟩)
      have htasks := hleft.addTask (lookup_filter_self _ pid) id
      split_ifs
      · exact ⟨own',htasks⟩
      · exact htasks.tearDown old

end

/-! ## Runs -/

/-- The calls that give pages back stay off the registered range, as `sys_madvise` and
`sys_mprotect` see to themselves. A file mapping is given back when its copy failed or it cannot be
made read-only. -/
def Keeps (s : State) : Op → Prop
  | .munmap pid addr len => ∀ id vm bytes, s.caller pid = some (id, vm) → roundUp len = some bytes →
      s.registered vm addr bytes = false
  | .brk pid addr => ∀ id vm, s.caller pid = some (id, vm) →
      Space.brkPage addr < Space.brkPage vm.brkCurrent →
      s.registered vm (Space.brkPage addr)
        (Space.brkPage vm.brkCurrent - Space.brkPage addr) = false
  | .mmapFinish pid rc => ∀ id vm l, s.spaceOf pid = some (id, vm) → s.loading pid = some l →
      rc ≠ 0 ∨ l.pteFlags ||| vmmWrite ≠ l.pteFlags → s.registered vm l.base l.bytes = false
  | _ => True

theorem mmapFinish_done {l : Loading} (hw : l.pteFlags ||| vmmWrite = l.pteFlags) :
    (m.mmapFinish l 0).2 = m := by
  have hp : m.mmapProtect l 0 = (0, m) := by
    unfold Space.mmapProtect
    rw [if_neg fun hc => hc.2 hw]
  unfold Space.mmapFinish
  rw [hp,if_neg fun hc => hc rfl]

theorem Held.mmapFinish (h : Held lowPd s own) {rc : ℤ} (hk : Keeps s (.mmapFinish pid rc)) :
    ∃ own', Held lowPd (s.mmapFinish pid rc) own' := by
  unfold State.mmapFinish
  cases hc : s.spaceOf pid with
  | none => exact ⟨own,h⟩
  | some c =>
    obtain ⟨id,vm⟩ := c
    have hid := (State.spaceOf_eq_some.mp hc).2
    cases hl : s.loading pid with
    | none => exact ⟨own,h⟩
    | some l =>
      by_cases hback : rc ≠ 0 ∨ l.pteFlags ||| vmmWrite ≠ l.pteFlags
      · obtain ⟨own',hm⟩ := (h.ok hid).mmapFinish l rc
        exact ⟨own',(h.put hid hm (h.miss (hk id vm l hc hl hback))).setLoading _⟩
      · rw [not_or,not_not,not_not] at hback
        obtain ⟨rfl,hw⟩ := hback
        have hh := (h.grow hid (h.ok hid).remaps).setLoading (update s.loading pid none)
        rw [← mmapFinish_done (m := ⟨vm,s.phys⟩) hw] at hh
        exact ⟨own,hh⟩

theorem Held.step (h : Held lowPd s own) (hk : k.SharesLow lowPd) (op : Op) (hkeep : Keeps s op) :
    ∃ own', Held lowPd (step k fb s op) own' := by
  cases op with
  | register pid pixels pitch inputOwner memory => exact h.sysFbRegister pixels pitch inputOwner memory
  | unregister pid => exact ⟨own,h.sysFbUnregister⟩
  | present pid pixels pitch rects count => exact h.sysFbPresent pixels pitch rects count
  | mmap pid addr len prot flags fd offset => exact ⟨own,h.sysMmap addr len prot flags fd offset⟩
  | mmapCopy pid => exact h.mmapCopyFile
  | mmapFinish pid rc => exact h.mmapFinish hkeep
  | munmap pid addr len =>
    refine h.mapping (fun _ m => m.sysMunmap addr len) (fun _ => LenPages addr len)
      (fun _ _ _ => True) (fun _ _ _ hok => hok.sysMunmap addr len) fun id vm hc q hq => ?_
    obtain ⟨bytes,hb,hrange⟩ := hq
    exact ⟨addr,bytes,hkeep id vm bytes hc hb,hrange⟩
  | mprotect pid addr len prot =>
    exact h.mapping (fun vm m => m.sysMprotect (s.registered vm) addr len prot) (fun _ _ => False)
      (fun _ => LenFlags addr len prot) (fun _ vm _ hok => hok.sysMprotect (s.registered vm) addr len prot)
      fun _ _ _ _ hq => hq.elim
  | madvise pid addr len advice =>
    refine h.mapping (fun vm m => m.sysMadvise (s.registered vm) addr len advice)
      (fun vm => AdvisedPages (s.registered vm) addr) (fun _ _ _ => True)
      (fun _ vm _ hok => hok.sysMadvise (s.registered vm) addr len advice) fun id vm hc q hq => ?_
    obtain ⟨bytes,hreg,hrange⟩ := hq
    exact ⟨addr,bytes,hreg,hrange⟩
  | brk pid addr =>
    refine h.mapping (fun _ m => m.sysBrk addr) (fun vm => BrkPages vm addr)
      (fun _ _ _ => True) (fun _ vm _ hok => hok.sysBrk addr) fun id vm hc q hq => ?_
    obtain ⟨hlt,hrange⟩ := hq
    exact ⟨_,_,hkeep id vm hc hlt,hrange⟩
  | fault pid addr writable => exact h.faultIn addr writable
  | spawn pid id steps ok brkBase => exact h.spawn hk id steps ok brkBase
  | clone pid child => exact ⟨own,h.clone child⟩
  | exec pid id steps ok brkBase => exact h.exec hk id steps ok brkBase
  | exit pid => exact ⟨own,h.exit⟩
  | reap id => exact h.tearDown id

def MappedAt (s : State) (r va frame : U64) : Prop :=
  Taken s.phys.pmm frame ∧ has (s.phys.vmmEntryIn r va) vmmPresent = true ∧
    tableOf (s.phys.vmmEntryIn r va) = frame

def NotElsewhere (s : State) (r frame : U64) : Prop :=
  ∀ id vm r' va, s.spaces id = some vm → vm.userPml4 = some r' → r' ≠ r → LowerHalf va →
    has (s.phys.vmmEntryIn r' va) vmmPresent = true →
    has (s.phys.vmmEntryIn r' va) vmmShared = false → tableOf (s.phys.vmmEntryIn r' va) ≠ frame

/-- Every frame of a live registration is allocated and mapped at its page, in the space of the
task that registered it. -/
def SnapshotMapped (s : State) : Prop :=
  ∀ g, s.reg = some g → ∃ id vm, s.spaceOf g.ownerPid = some (id, vm) ∧
    vm.userPml4 = some g.userPml4 ∧
    ∀ i page, g.pages[i]? = some page → MappedAt s g.userPml4 (pageAt g.pageBase i) page

/-- What `framebuffer_present_user` copies after the checks of `sys_fb_present` comes from frames
that are mapped in the caller's buffer, and in no other space. -/
def ReadsMapped (fb : Screen) (s : State) : Prop :=
  ∀ pid id vm r pixels pitch bytes rects, s.caller pid = some (id, vm) → vm.userPml4 = some r →
    fb.sourceSpan pitch = some bytes →
    registrationMatches s.reg r pid pixels (pitch.setWidth 32) bytes = true ∨
      pixels.toNat + bytes.toNat ≤ 2 ^ 47 →
    ∀ x ∈ presentReads fb s.phys s.reg r pid pixels (pitch.setWidth 32) rects,
      MappedAt s r x.1 x.2 ∧ NotElsewhere s r x.2

theorem copyUserPixels_mem {frameOf : U64 → Option U64} {fuel : ℕ} {source : U64} {bytes : ℕ}
    {x : U64 × U64} (hx : x ∈ copyUserPixels frameOf fuel source bytes) :
    frameOf x.1 = some x.2 ∧ ∃ off < bytes, x.1 = source + ofNat 64 off := by
  induction fuel generalizing source bytes with
  | zero => cases hx
  | succ fuel ih =>
    rw [copyUserPixels] at hx
    split_ifs at hx with hz
    · cases hx
    cases hf : frameOf source with
    | none =>
      rw [hf] at hx
      cases hx
    | some frame =>
      rw [hf] at hx
      rcases mem_cons.mp hx with rfl | hx
      · exact ⟨hf,0,Nat.pos_of_ne_zero hz,by simp⟩
      · obtain ⟨hfr,off,hoff,hat⟩ := ih hx
        refine ⟨hfr,min (4096 - source.toNat % 4096) bytes + off,by omega,?_⟩
        rw [hat,add_assoc,ofNat_add]

theorem sourceSpan_eq_some {pitch : U64} (h : fb.sourceSpan pitch = some bytes) :
    (pitch.setWidth 32).toNat = pitch.toNat ∧ 0 < fb.height ∧
      bytes.toNat = pitch.toNat * (fb.height - 1) + fb.width * 4 := by
  unfold Screen.sourceSpan at h
  split_ifs at h with hargs hbig
  obtain rfl := some.inj h
  simp only [not_or,not_lt,gt_iff_lt] at hargs
  obtain ⟨hw,hh,h32,hrow⟩ := hargs
  refine ⟨by rw [BitVec.toNat_setWidth]; omega,Nat.pos_of_ne_zero hh,?_⟩
  refine Nat.mod_eq_of_lt ?_
  by_cases h1 : fb.height > 1
  · have hle : pitch.toNat ≤ (2 ^ 64 - 1 - fb.width * 4) / (fb.height - 1) := by
      by_contra hc
      exact hbig ⟨h1,by omega⟩
    have hmul := (Nat.le_div_iff_mul_le (by omega)).mp hle
    omega
  · have hone : fb.height - 1 = 0 := by omega
    rw [hone]
    omega

theorem presentReads_mem {pixels pitch : U64} {rects : List Rect}
    {x : U64 × U64} (hspan : fb.sourceSpan pitch = some bytes)
    (hx : x ∈ presentReads fb ph reg r pid pixels (pitch.setWidth 32) rects) :
    sourceFrame ph (if registrationMatches reg r pid pixels (pitch.setWidth 32) bytes then reg
      else none) r x.1 = some x.2 ∧ ∃ off < bytes.toNat, x.1 = pixels + ofNat 64 off := by
  obtain ⟨hpitch,hheight,hbytes⟩ := sourceSpan_eq_some hspan
  have hreq : ofNat 64 ((pitch.setWidth 32).toNat * (fb.height - 1) + fb.width * 4) = bytes := by
    rw [hpitch,← hbytes,BitVec.ofNat_toNat,BitVec.setWidth_eq]
  unfold presentReads at hx
  simp only [hreq,mem_flatMap,mem_filterMap,mem_range] at hx
  obtain ⟨c,⟨rect,_,hclip⟩,row,hrow,hx⟩ := hx
  obtain ⟨hframe,off,hoff,hat⟩ := copyUserPixels_mem hx
  refine ⟨hframe,(c.y + row) * pitch.toNat + c.x * 4 + off,?_,?_⟩
  · unfold Screen.clip at hclip
    split_ifs at hclip with hvis
    obtain rfl := some.inj hclip
    dsimp only at hrow hoff ⊢
    have hy : rect.y + row ≤ fb.height - 1 := by omega
    have hmul := Nat.mul_le_mul_right pitch.toNat hy
    rw [Nat.mul_comm (fb.height - 1)] at hmul
    omega
  · rw [hat,hpitch,add_assoc,← ofNat_add]

section
variable (h : Held lowPd s own)
include h

theorem Held.mappedAt {e : U64} (hr : own r = some (r, [])) (hva : LowerHalf va)
    (hl : LeafAt s.phys own r (pagePath va) e) : MappedAt s r va (tableOf e) := by
  obtain ⟨rfl,-⟩ := (vmmEntryIn_iff h.safe.tables hr hva.pml4Index e).mpr hl
  refine ⟨h.safe.taken_of_leafAt hl,?_,rfl⟩
  obtain ⟨_,_,_,_,_,_,_,hpres⟩ := hl
  exact hpres

theorem Held.leafAt (hr : own r = some (r, [])) (hva : LowerHalf va)
    (hpres : has (s.phys.vmmEntryIn r va) vmmPresent = true) :
    LeafAt s.phys own r (pagePath va) (s.phys.vmmEntryIn r va) := by
  refine (vmmEntryIn_iff h.safe.tables hr hva.pml4Index _).mp ⟨rfl,fun hz => ?_⟩
  rw [hz] at hpres
  exact absurd hpres (by decide)

theorem Held.notElsewhere {q : Path} {e : U64} (hl : LeafAt s.phys own r q e) :
    NotElsewhere s r (tableOf e) := by
  intro id vm r' va hid hr' hne hva hpres hpriv heq
  have hor : own r' = some (r', []) := (h.ok hid).root hr'
  have hl' := h.leafAt hor hva hpres
  cases hs : has e vmmShared with
  | true => exact h.noneLent.apart hl hs hl' hpriv heq.symm
  | false =>
    have ho := h.safe.tables.owner_of_leafAt hl hs
    have ho' := h.safe.tables.owner_of_leafAt hl' hpriv
    rw [heq,ho] at ho'
    exact hne (congrArg Prod.fst (some.inj ho')).symm

theorem Held.snapshotMapped : SnapshotMapped s := by
  intro g hg
  obtain ⟨id,vm,hp⟩ := h.pinned hg
  refine ⟨id,vm,State.spaceOf_eq_some.mpr ⟨hp.owner,hp.space⟩,hp.root,fun i page hi => ?_⟩
  obtain ⟨e,hl,rfl⟩ := hp.snapshot.leaf i page hi
  obtain ⟨hlt,-⟩ := List.getElem?_eq_some_iff.mp hi
  exact h.mappedAt ((h.ok hp.space).root hp.root) (hp.snapshot.lowerHalf hlt) hl

theorem Held.sourceFrame_leaf {frame : U64} (hr : own r = some (r, [])) (hva : LowerHalf va)
    (hreg : ∀ g, reg = some g → s.reg = some g ∧ g.userPml4 = r)
    (hf : sourceFrame s.phys reg r va = some frame) :
    ∃ e, LeafAt s.phys own r (pagePath va) e ∧ tableOf e = frame := by
  cases reg with
  | none =>
    dsimp only [sourceFrame,userFrame] at hf
    split_ifs at hf with hent
    refine ⟨_,h.leafAt hr hva ?_,some.inj hf⟩
    by_contra hc
    exact hent (by simp [hc])
  | some g =>
    obtain ⟨hg,rfl⟩ := hreg g rfl
    obtain ⟨id,vm,hp⟩ := h.pinned hg
    dsimp only [sourceFrame] at hf
    split_ifs at hf with hlt
    obtain ⟨e,hl,he⟩ := hp.snapshot.leaf _ _ hf
    obtain ⟨hi,-⟩ := List.getElem?_eq_some_iff.mp hf
    obtain ⟨hpage,-⟩ := hp.snapshot.page hi
    have hsame : pageAt g.pageBase ((va - g.pageBase).toNat / 4096) = pageOf va := by
      refine eq_of_toNat_eq ?_
      have hbase : g.pageBase.toNat = g.source.toNat / 4096 * 4096 := by
        rw [hp.snapshot.base,pageOf_toNat]
      have hsub : (va - g.pageBase).toNat = va.toNat - g.pageBase.toNat := by
        rw [lt_def] at hlt
        rw [toNat_sub]
        omega
      rw [lt_def] at hlt
      rw [hpage,hsub,pageOf_toNat]
      omega
    rw [hsame,pagePath_pageOf] at hl
    exact ⟨e,hl,he⟩

theorem Held.readsMapped : ReadsMapped fb s := by
  intro pid id vm r pixels pitch bytes rects hc hr hspan hchecked x hx
  obtain ⟨hf,off,hoff,hat⟩ := presentReads_mem hspan hx
  have hor := (h.ok (State.space_of_caller hc)).root hr
  -- The buffer ends in the lower half, by either check.
  have hmatch : ∀ g, (if registrationMatches s.reg r pid pixels (pitch.setWidth 32) bytes = true
      then s.reg else none) = some g → s.reg = some g ∧ g.userPml4 = r ∧ g.source = pixels ∧
        bytes.toNat ≤ g.sourceBytes.toNat := by
    intro g hg
    split_ifs at hg with hm
    rw [hg] at hm
    simp only [registrationMatches,Bool.and_eq_true,beq_iff_eq,decide_eq_true_eq,ge_iff_le,
      BitVec.le_def] at hm
    exact ⟨hg,hm.1.1.1.1,hm.1.1.2,hm.2⟩
  have hfits : pixels.toNat + bytes.toNat ≤ 2 ^ 47 := by
    rcases hchecked with hm | hfits
    · cases hreg : s.reg with
      | none => simp [registrationMatches,hreg] at hm
      | some g =>
        obtain ⟨id',vm',hp⟩ := h.pinned hreg
        obtain ⟨-,-,hsrc,hle⟩ := hmatch g (by rw [if_pos hm,hreg])
        have hfits := hp.snapshot.fits
        rw [hsrc] at hfits
        omega
    · exact hfits
  have hva : LowerHalf x.1 := by
    unfold LowerHalf
    rw [hat,toNat_add,toNat_ofNat]
    omega
  obtain ⟨e,hl,he⟩ := h.sourceFrame_leaf hor hva (fun g hg => ⟨(hmatch g hg).1,(hmatch g hg).2.1⟩) hf
  rw [← he]
  exact ⟨h.mappedAt hor hva hl,h.notElsewhere hl⟩

end

structure Boot (k : KernelTables) (lowPd : U64) (s : State) : Prop where
  memory : Spaces.Boot k lowPd ⟨fun _ => none,s.phys⟩
  spaces : ∀ id, s.spaces id = none
  reg : s.reg = none

theorem Boot.held (h : Boot k lowPd s) : Held lowPd s fun _ => none := by
  have hleaf : ∀ {r q e}, ¬ LeafAt s.phys (fun _ => none) r q e := by
    rintro r q e ⟨_,_,_,_,_,ho,_⟩
    cases ho
  refine ⟨h.memory.owned.safe,⟨fun hl => absurd hl hleaf⟩,?_,?_,?_,?_⟩
  · simp [h.spaces]
  · simp [h.spaces]
  · simp [h.spaces]
  · simp [h.reg]

/-- As long as no call gives back registered pages, the frames of the registration are allocated
and mapped where they were, and a present copies only from mapped frames. -/
theorem run_snapshotMapped (hboot : Boot k lowPd s) {ops : List Op}
    (h : Admissible (step k fb) Keeps s ops) :
    Always (step k fb) (fun s => SnapshotMapped s ∧ ReadsMapped fb s) s ops := by
  refine h.always (I := fun s => ∃ own, Held lowPd s own) (fun s op hs hk => ?_) (fun s hs => ?_)
    ⟨_,hboot.held⟩
  · obtain ⟨own,ho⟩ := hs
    exact ho.step hboot.memory.low op hk
  · obtain ⟨own,ho⟩ := hs
    exact ⟨ho.snapshotMapped,ho.readsMapped⟩

def bootState : State := ⟨bootPhys,fun _ => none,[],fun _ => none,none⟩

theorem boot_bootState : Boot Spaces.bootKernel 0x1000#64 bootState :=
  ⟨Spaces.boot_bootState,fun _ => rfl,rfl⟩

def registerOps : List Op :=
  [.spawn 1 1 [.page ⟨0x50000000#64,Spaces.image_base_lt⟩ ⟨7#64,Spaces.image_flags_seven⟩] true 0,
    .register 1 0x50000000 4 true true]

theorem register_snapshotMapped : Always (step bootKernel ⟨1,1⟩)
    (fun s => SnapshotMapped s ∧ ReadsMapped ⟨1,1⟩ s) bootState
    (registerOps ++ [.present 1 0x50000000 4 0 0]) :=
  run_snapshotMapped boot_bootState ⟨trivial,trivial,trivial,trivial⟩

/-- `munmap` frees the page of the registration, which stays, and a present copies from it. -/
theorem munmap_frees_snapshot :
    ¬ SnapshotMapped (run (step bootKernel ⟨1,1⟩) bootState
        (registerOps ++ [.munmap 1 0x50000000 4096])) ∧
      ¬ ReadsMapped ⟨1,1⟩ (run (step bootKernel ⟨1,1⟩) bootState
        (registerOps ++ [.munmap 1 0x50000000 4096])) := by
  constructor
  · intro h
    have hreg : (run (step bootKernel ⟨1,1⟩) bootState
        (registerOps ++ [.munmap 1 0x50000000 4096])).reg.map (fun g => (g.userPml4, g.pageBase,
          g.pages)) = some (0x100000#64, 0x50000000#64, [0x102000#64]) := by decide +kernel
    obtain ⟨g,hg,hfields⟩ := map_eq_some_iff.mp hreg
    simp only [Prod.mk.injEq] at hfields
    obtain ⟨hroot,hbase,hpages⟩ := hfields
    obtain ⟨_,_,_,_,hall⟩ := h g hg
    have hmapped := (hall 0 0x102000#64 (by rw [hpages]; rfl)).1
    exact absurd hmapped.2 (by decide +kernel)
  · intro h
    have hcaller : ((run (step bootKernel ⟨1,1⟩) bootState
        (registerOps ++ [.munmap 1 0x50000000 4096])).caller 1).map (fun c => (c.1, c.2.userPml4)) =
          some (1, some 0x100000#64) := by decide +kernel
    obtain ⟨⟨id,vm⟩,hc,hfields⟩ := map_eq_some_iff.mp hcaller
    simp only [Prod.mk.injEq] at hfields
    have hread := h 1 id vm 0x100000#64 0x50000000#64 4#64 4#64 [⟨0,0,1,1⟩] hc hfields.2
      (by decide +kernel) (Or.inl (by decide +kernel)) (0x50000000#64, 0x102000#64)
      (by decide +kernel)
    exact absurd hread.1.1.2 (by decide +kernel)

end Display

end GaiaKernel
