import GaiaKernel.Lib.Trace
import GaiaKernel.Memory.Word

/-! # The window manager

How userspace/bin/heimdall answers the messages of its clients: `pump_ipc` with the window table of
window.c, the consoles of console.c and the dialog of prompt.c. Drawing, damage and surfaces are
left out; what a message makes heimdall do to other processes is the list of effects.
-/
namespace GaiaKernel.Heimdall
open Function

def maxWindows : ℕ := 64
def conMax : ℕ := 4
def maxZ : ℕ := conMax + maxWindows
def handleConsoleBase : ℤ := 128
def clientDimHardLimit : ℤ := 2048
def statusbarPx : ℤ := 16
def wmCreateStatusbar : U32 := 0x1#32

structure Window where
  inUse : Bool
  handle : ℤ
  ownerPid : ℤ
  x : ℤ
  y : ℤ
  clientW : ℤ
  clientH : ℤ
  nPages : ℤ
  clientVa : U64
  statusH : ℤ
  status : List Byte
  title : List Byte
  deriving DecidableEq

def Window.empty : Window := ⟨false,0,0,0,0,0,0,0,0#64,0,[],[]⟩

structure Console where
  win : Window
  tty : ℤ
  pid : ℤ
  deriving DecidableEq

def Console.empty : Console := ⟨Window.empty,0,0⟩

structure Prompt where
  active : Bool
  kind : ℤ
  ownerPid : ℤ
  ownerHandle : ℤ
  message : List Byte

structure Desktop where
  windows : Fin maxWindows → Window
  cons : Fin conMax → Console
  prompt : Prompt
  focusedHandle : ℤ
  zOrder : List ℤ
  closePendingHandle : ℤ
  numbered : ∀ i, (windows i).inUse → (windows i).handle = i + 1

inductive Effect where
  | kill (pid : ℤ)
  | ttyFree (tty : ℤ)
  | shmemUnshare (pid : ℤ) (va : U64) (pages : ℤ)
  | createResp (pid handle : ℤ) (va : U64) (pitch w h : ℤ)
  | promptResp (pid result : ℤ)
  deriving DecidableEq

inductive MessageKind where
  | createReq | destroyReq | invalidateReq | setTitleReq | setStatusReq | promptReq | peerExited
  | other
  deriving DecidableEq

/-- A message as `ipc_recv` delivers it, stamped with the pid of its sender. For a request to create
a window it also says how the allocation and the sharing of the surface turn out. -/
structure Message where
  kind : MessageKind
  fromPid : ℤ
  a : ℤ
  b : ℤ
  flags : U32
  str : List Byte
  allocated : Bool
  shared : Option U64
  stamped : 0 < fromPid

inductive Ref where
  | client (i : Fin maxWindows)
  | console (c : Fin conMax)
  deriving DecidableEq

def windowSlots : List (Fin maxWindows) := List.finRange maxWindows
def copyText (text : List Byte) : List Byte := (text.take 47).takeWhile fun c => c != 0#8

namespace Desktop
variable (s : Desktop)

def isConsoleHandle (handle : ℤ) : Bool :=
  decide (handleConsoleBase ≤ handle ∧ handle < handleConsoleBase + conMax)

def conSlot (handle : ℤ) : Option (Fin conMax) :=
  if h : (handle - handleConsoleBase).toNat < conMax then
    if isConsoleHandle handle then some ⟨(handle - handleConsoleBase).toNat,h⟩ else none
  else none

def conForHandle (handle : ℤ) : Option (Fin conMax) :=
  (conSlot handle).filter fun c => (s.cons c).win.inUse

def findHandle (handle : ℤ) : Option Ref :=
  if isConsoleHandle handle then (s.conForHandle handle).map .console
  else
    (windowSlots.find? fun i => (s.windows i).inUse && (s.windows i).handle == handle).map .client

def windowAt : Ref → Window
  | .client i => s.windows i
  | .console c => (s.cons c).win

/-! ### Stacking, focus and the dialog -/

def zRemove (handle : ℤ) : Desktop := { s with zOrder := s.zOrder.filter fun h => h ≠ handle }

def zBringToFront (handle : ℤ) : Desktop :=
  let s₁ := s.zRemove handle
  if s₁.zOrder.length ≥ maxZ then s₁ else { s₁ with zOrder := handle :: s₁.zOrder }

/-- A window is gone: it leaves the stack, its close request is dropped, and the focus moves to
the topmost window left. -/
def forget (handle : ℤ) : Desktop :=
  let s₁ := s.zRemove handle
  { s₁ with
    closePendingHandle := if s.closePendingHandle = handle then -1 else s.closePendingHandle
    focusedHandle := if s.focusedHandle = handle then s₁.zOrder.headD 0 else s.focusedHandle }

def promptAbandonForOwner (ownerPid : ℤ) : Desktop :=
  if !s.prompt.active ∨ s.prompt.ownerPid ≠ ownerPid then s
  else { s with prompt := { s.prompt with active := false } }

/-- The kinds are message, confirmation and text. -/
def handlePromptReq (ownerPid handle kind : ℤ) (message : List Byte) : Desktop × List Effect :=
  if kind ≠ 0 ∧ kind ≠ 1 ∧ kind ≠ 2 then (s, [])
  else if s.prompt.active then (s, [.promptResp ownerPid 0])
  else ({ s with prompt := ⟨true,kind,ownerPid,handle,copyText message⟩ }, [])

/-! ### Windows -/

def setTexts (r : Ref) (title status : List Byte) : Desktop :=
  match r with
  | .client i =>
    { s with
      windows := update s.windows i { s.windows i with title := title, status := status }
      numbered := by
        intro j hj
        by_cases hji : j = i
        · subst hji
          rw [update_self] at hj ⊢
          exact s.numbered j hj
        · rw [update_of_ne hji] at hj ⊢
          exact s.numbered j hj }
  | .console c =>
    { s with
      cons := update s.cons c
        { s.cons c with win := { (s.cons c).win with title := title, status := status } } }

def handleSetTitle (ownerPid handle : ℤ) (title : List Byte) : Desktop :=
  match s.findHandle handle with
  | none => s
  | some r =>
    if (s.windowAt r).ownerPid ≠ ownerPid then s
    else s.setTexts r (copyText title) (s.windowAt r).status

def handleSetStatus (ownerPid handle : ℤ) (text : List Byte) : Desktop :=
  match s.findHandle handle with
  | none => s
  | some r =>
    if (s.windowAt r).ownerPid ≠ ownerPid then s
    else if (s.windowAt r).statusH ≤ 0 then s
    else s.setTexts r (s.windowAt r).title (copyText text)

def findSlot : Option (Fin maxWindows) := windowSlots.find? fun i => !(s.windows i).inUse

def newWindow (i : Fin maxWindows) (clientPid w h : ℤ) (title : List Byte) (flags : U32)
    (va : U64) : Window :=
  let placed := (windowSlots.filter fun j => decide (j ≠ i) && (s.windows j).inUse).length
  { inUse := true
    handle := i + 1
    ownerPid := clientPid
    x := 60 + placed * 24
    y := 60 + placed * 24
    clientW := w
    clientH := h
    nPages := (w * h * 4 + 4095) / 4096
    clientVa := va
    statusH := if flags &&& wmCreateStatusbar ≠ 0#32 then statusbarPx else 0
    status := []
    title := copyText title }

def place (i : Fin maxWindows) (w : Window) (hw : w.inUse → w.handle = i + 1) : Desktop :=
  { s with
    windows := update s.windows i w
    numbered := by
      intro j hj
      by_cases hji : j = i
      · subst hji
        rw [update_self] at hj ⊢
        exact hw hj
      · rw [update_of_ne hji] at hj ⊢
        exact s.numbered j hj }

/-- The handle and the address of the surface, none when it fails. -/
def handleCreate (clientPid w h : ℤ) (title : List Byte) (flags : U32) (allocated : Bool)
    (shared : Option U64) : Option (ℤ × U64) × Desktop :=
  if w ≤ 0 ∨ h ≤ 0 ∨ w > clientDimHardLimit ∨ h > clientDimHardLimit then (none, s)
  else
    match s.findSlot with
    | none => (none, s)
    | some i =>
      if !allocated then (none, s)
      else
        match shared with
        | none => (none, s)
        | some va =>
          let win := s.newWindow i clientPid w h title flags va
          let s₁ := s.place i win fun _ => rfl
          (some (win.handle, va), { s₁ with focusedHandle := win.handle }.zBringToFront win.handle)

def consoleClose (c : Fin conMax) : Desktop × List Effect :=
  let con := s.cons c
  if !con.win.inUse then (s, [])
  else
    ({ s with cons := update s.cons c Console.empty }.forget con.win.handle,
      (if con.pid > 0 then [.kill con.pid] else []) ++
        if con.tty > 0 then [.ttyFree con.tty] else [])

/-- A check of 0 skips the comparison with the owner. -/
def handleDestroyInternal (handle clientPidCheck : ℤ) : Desktop × List Effect :=
  match s.conForHandle handle with
  | some c => s.consoleClose c
  | none =>
    match s.findHandle handle with
    -- a handle of a console that is not open names no window either
    | none | some (.console _) => (s, [])
    | some (.client i) =>
      let w := s.windows i
      if clientPidCheck ≠ 0 ∧ w.ownerPid ≠ clientPidCheck then (s, [])
      else
        let s₁ := (s.place i Window.empty fun h => by cases h).forget handle
        (if w.ownerPid > 0 then s₁.promptAbandonForOwner w.ownerPid else s₁,
          if w.clientVa ≠ 0#64 ∧ w.nPages > 0 then
            [.shmemUnshare w.ownerPid w.clientVa w.nPages]
          else [])

def handleDestroy (clientPid handle : ℤ) : Desktop × List Effect :=
  s.handleDestroyInternal handle clientPid

def destroyIfOwned (ownerPid : ℤ) (r : Desktop × List Effect) (i : Fin maxWindows) :
    Desktop × List Effect :=
  let w := r.1.windows i
  if !w.inUse ∨ w.ownerPid ≠ ownerPid then r
  else
    let d := r.1.handleDestroyInternal w.handle 0
    (d.1, r.2 ++ d.2)

def destroyWindowsForOwner (ownerPid : ℤ) : Desktop × List Effect :=
  if ownerPid ≤ 0 then (s, []) else windowSlots.foldl (destroyIfOwned ownerPid) (s, [])

def pumpIpc (m : Message) : Desktop × List Effect :=
  match m.kind with
  | .createReq =>
    let r := s.handleCreate m.fromPid m.a m.b m.str m.flags m.allocated m.shared
    match r.1 with
    | some (handle, va) => (r.2, [.createResp m.fromPid handle va (m.a * 4) m.a m.b])
    | none => (r.2, [.createResp m.fromPid (-1) 0#64 0 m.a m.b])
  | .destroyReq => s.handleDestroy m.fromPid m.a
  | .invalidateReq => (s, [])
  | .setTitleReq => (s.handleSetTitle m.fromPid m.a m.str, [])
  | .setStatusReq => (s.handleSetStatus m.fromPid m.a m.str, [])
  | .promptReq => s.handlePromptReq m.fromPid m.a m.b m.str
  | .peerExited =>
    let deadPid := if m.fromPid ≤ 0 then m.a else m.fromPid
    (s.promptAbandonForOwner deadPid).destroyWindowsForOwner deadPid
  | .other => (s, [])

def step (m : Message) : Desktop := (s.pumpIpc m).1

end Desktop

/-! ### Authority -/

/-- The window is unchanged, or it belongs to `p` before and after as far as it is there. -/
def Authorized (p : ℤ) (w w' : Window) : Prop :=
  w' = w ∨ (w.inUse → w.ownerPid = p) ∧ (w'.inUse → w'.ownerPid = p)

/-- Only windows of `p` have been made, removed or changed; no console has been closed and
nothing killed. -/
structure Within (p : ℤ) (s s' : Desktop) (effects : List Effect) : Prop where
  windows : ∀ i, Authorized p (s.windows i) (s'.windows i)
  consoles : ∀ c, Authorized p (s.cons c).win (s'.cons c).win
  stayOpen : ∀ c, (s.cons c).win.inUse → (s'.cons c).win.inUse
  shells : ∀ c, (s'.cons c).pid = (s.cons c).pid
  kills : ∀ pid, .kill pid ∉ effects

def Lawful (s : Desktop) (m : Message) : Prop :=
  Within m.fromPid s (s.pumpIpc m).1 (s.pumpIpc m).2

def SparesConsoles (s : Desktop) (m : Message) : Prop :=
  m.kind = .destroyReq → s.conForHandle m.a = none

variable {p : ℤ} {s s' s'' : Desktop}

theorem Authorized.trans {w w' w'' : Window} (h : Authorized p w w') (h' : Authorized p w' w'') :
    Authorized p w w'' := by
  rcases h with rfl | h
  · exact h'
  rcases h' with rfl | h'
  · exact .inr h
  · exact .inr ⟨h.1,h'.2⟩

theorem Within.refl (p : ℤ) (s : Desktop) {effects : List Effect}
    (hkills : ∀ pid, .kill pid ∉ effects) : Within p s s effects :=
  ⟨fun _ => .inl rfl,fun _ => .inl rfl,fun _ h => h,fun _ => rfl,hkills⟩

theorem within_self : Within p s s [] := Within.refl p s (by simp)

theorem Within.trans {e e' : List Effect} (h : Within p s s' e) (h' : Within p s' s'' e') :
    Within p s s'' (e ++ e') := by
  refine ⟨fun i => (h.windows i).trans (h'.windows i),fun c => (h.consoles c).trans (h'.consoles c),
    fun c hc => h'.stayOpen c (h.stayOpen c hc),fun c => (h'.shells c).trans (h.shells c),?_⟩
  intro pid hpid
  rcases List.mem_append.mp hpid with hpid | hpid
  · exact h.kills pid hpid
  · exact h'.kills pid hpid

theorem Within.of_same {e : List Effect} (h : Within p s s' e)
    (hsame : s''.windows = s'.windows ∧ s''.cons = s'.cons) : Within p s s'' e := by
  obtain ⟨hwin,hcons⟩ := hsame
  constructor
  · rw [hwin]
    exact h.windows
  · rw [hcons]
    exact h.consoles
  · rw [hcons]
    exact h.stayOpen
  · rw [hcons]
    exact h.shells
  · exact h.kills

theorem within_place (i : Fin maxWindows) {w : Window} (hw : w.inUse → w.handle = i + 1)
    (howner : (s.windows i).inUse → (s.windows i).ownerPid = p)
    (howner' : w.inUse → w.ownerPid = p) : Within p s (s.place i w hw) [] := by
  refine ⟨?_,fun _ => .inl rfl,fun _ h => h,fun _ => rfl,by simp⟩
  exact (forall_update_iff _ fun j => Authorized p (s.windows j)).mpr
    ⟨.inr ⟨howner,howner'⟩,fun _ _ => .inl rfl⟩

variable (s)

theorem promptAbandon_same (pid : ℤ) : (s.promptAbandonForOwner pid).windows = s.windows ∧
      (s.promptAbandonForOwner pid).cons = s.cons := by
  unfold Desktop.promptAbandonForOwner
  split_ifs <;> exact ⟨rfl,rfl⟩

theorem zBringToFront_same (handle : ℤ) :
    (s.zBringToFront handle).windows = s.windows ∧ (s.zBringToFront handle).cons = s.cons := by
  unfold Desktop.zBringToFront
  dsimp only
  split_ifs <;> exact ⟨rfl,rfl⟩

variable {s} in
theorem within_setTexts (r : Ref) (title status : List Byte)
    (howner : (s.windowAt r).ownerPid = p) : Within p s (s.setTexts r title status) [] := by
  cases r with
  | client i =>
    refine ⟨?_,fun _ => .inl rfl,fun _ h => h,fun _ => rfl,by simp⟩
    exact (forall_update_iff _ fun j => Authorized p (s.windows j)).mpr
      ⟨.inr ⟨fun _ => howner,fun _ => howner⟩,fun _ _ => .inl rfl⟩
  | console c =>
    refine ⟨fun _ => .inl rfl,?_,?_,?_,by simp⟩
    · exact (forall_update_iff _ fun c (b : Console) => Authorized p (s.cons c).win b.win).mpr
        ⟨.inr ⟨fun _ => howner,fun _ => howner⟩,fun _ _ => .inl rfl⟩
    · exact (forall_update_iff _ fun c (b : Console) => (s.cons c).win.inUse → b.win.inUse).mpr
        ⟨fun h => h,fun _ _ h => h⟩
    · exact (forall_update_iff _ fun c (b : Console) => b.pid = (s.cons c).pid).mpr
        ⟨rfl,fun _ _ => rfl⟩

theorem within_handleSetTitle (p handle : ℤ) (title : List Byte) :
    Within p s (s.handleSetTitle p handle title) [] := by
  unfold Desktop.handleSetTitle
  cases s.findHandle handle with
  | none => exact within_self
  | some r =>
    dsimp only
    split_ifs with howner
    · exact within_self
    · exact within_setTexts r _ _ (not_not.mp howner)

theorem within_handleSetStatus (p handle : ℤ) (text : List Byte) :
    Within p s (s.handleSetStatus p handle text) [] := by
  unfold Desktop.handleSetStatus
  cases s.findHandle handle with
  | none => exact within_self
  | some r =>
    dsimp only
    split_ifs with howner hstrip
    · exact within_self
    · exact within_self
    · exact within_setTexts r _ _ (not_not.mp howner)

theorem within_handleCreate (p w h : ℤ) (title : List Byte) (flags : U32)
    (allocated : Bool) (shared : Option U64) :
    Within p s (s.handleCreate p w h title flags allocated shared).2 [] := by
  unfold Desktop.handleCreate
  by_cases hsize : w ≤ 0 ∨ h ≤ 0 ∨ w > clientDimHardLimit ∨ h > clientDimHardLimit
  · rw [if_pos hsize]
    exact within_self
  rw [if_neg hsize]
  cases hslot : s.findSlot with
  | none => exact within_self
  | some i =>
    cases allocated with
    | false => exact within_self
    | true =>
      cases shared with
      | none => exact within_self
      | some va =>
        have hfree : (s.windows i).inUse = false := by simpa using List.find?_some hslot
        have hplace : Within p s
            (s.place i (s.newWindow i p w h title flags va) fun _ => rfl) [] := by
          apply within_place
          · intro huse
            rw [hfree] at huse
            cases huse
          · intro _
            rfl
        exact hplace.of_same (zBringToFront_same _ _)

variable {s}

theorem within_handleDestroyInternal {handle check : ℤ} (hcon : s.conForHandle handle = none)
    (howner : ∀ i, s.findHandle handle = some (.client i) →
      (check = 0 ∨ (s.windows i).ownerPid = check) → (s.windows i).ownerPid = p) :
    Within p s (s.handleDestroyInternal handle check).1
      (s.handleDestroyInternal handle check).2 := by
  unfold Desktop.handleDestroyInternal
  rw [hcon]
  cases hfind : s.findHandle handle with
  | none => exact within_self
  | some r =>
    cases r with
    | console c => exact within_self
    | client i =>
      dsimp only
      by_cases hcheck : check ≠ 0 ∧ (s.windows i).ownerPid ≠ check
      · rw [if_pos hcheck]
        exact within_self
      rw [if_neg hcheck]
      have hown := howner i hfind (by tauto)
      have hplace : Within p s (s.place i Window.empty fun h => by cases h) [] := by
        apply within_place
        · intro _
          exact hown
        · intro h
          cases h
      have hkills : ∀ pid, Effect.kill pid ∉
          (if (s.windows i).clientVa ≠ 0#64 ∧ (s.windows i).nPages > 0 then
            [Effect.shmemUnshare (s.windows i).ownerPid (s.windows i).clientVa
              (s.windows i).nPages] else []) := by
        split_ifs <;> simp
      have hrest := hplace.trans (Within.refl p (s.place i Window.empty fun h => by cases h) hkills)
      apply hrest.of_same
      dsimp only
      split_ifs
      · exact promptAbandon_same _ _
      · exact ⟨rfl,rfl⟩

theorem owner_of_findHandle {handle : ℤ} {i : Fin maxWindows}
    (h : s.findHandle handle = some (.client i)) :
    (s.windows i).inUse = true ∧ (s.windows i).handle = handle := by
  unfold Desktop.findHandle at h
  split_ifs at h with hcon
  · simp at h
  · obtain ⟨j,hj,hji⟩ := Option.map_eq_some_iff.mp h
    cases hji
    simpa using List.find?_some hj

theorem conForHandle_of_slot (s : Desktop) (i : Fin maxWindows) :
    s.conForHandle (i + 1 : ℤ) = none := by
  have hnot : Desktop.isConsoleHandle (i + 1 : ℤ) = false := by
    have hi : i.val < 64 := i.isLt
    apply decide_eq_false
    unfold handleConsoleBase
    omega
  unfold Desktop.conForHandle Desktop.conSlot
  rw [hnot]
  simp

theorem within_destroyIfOwned (p : ℤ) (s : Desktop) (e : List Effect) (i : Fin maxWindows)
    {s0 : Desktop} (h : Within p s0 s e) :
    Within p s0 (Desktop.destroyIfOwned p (s, e) i).1 (Desktop.destroyIfOwned p (s, e) i).2 := by
  unfold Desktop.destroyIfOwned
  dsimp only
  split_ifs with hskip
  · exact h
  simp only [Bool.not_eq_true',not_or,Bool.not_eq_false,not_not] at hskip
  have hnumber := s.numbered i hskip.1
  apply h.trans
  apply within_handleDestroyInternal
  · rw [hnumber]
    exact conForHandle_of_slot s i
  · -- two slots with one number are the same slot
    intro j hj _
    obtain ⟨huse,hhandle⟩ := owner_of_findHandle hj
    have hji : (j : ℤ) + 1 = i + 1 := by rw [← s.numbered j huse,hhandle,hnumber]
    have heq : j = i := Fin.ext (by omega)
    rw [heq]
    exact hskip.2

theorem within_destroyWindowsForOwner (p : ℤ) (s : Desktop) :
    Within p s (s.destroyWindowsForOwner p).1 (s.destroyWindowsForOwner p).2 := by
  unfold Desktop.destroyWindowsForOwner
  split_ifs
  · exact within_self
  have hloop : ∀ (l : List (Fin maxWindows)) (r : Desktop × List Effect), Within p s r.1 r.2 →
      Within p s (l.foldl (Desktop.destroyIfOwned p) r).1 (l.foldl (Desktop.destroyIfOwned p) r).2 := by
    intro l
    induction l with
    | nil =>
      intro r hr
      exact hr
    | cons i l ih =>
      intro r hr
      apply ih
      exact within_destroyIfOwned p r.1 r.2 i hr
  exact hloop windowSlots (s, []) within_self

theorem within_handlePromptReq (s : Desktop) (p handle kind : ℤ) (message : List Byte) :
    Within p s (s.handlePromptReq p handle kind message).1
      (s.handlePromptReq p handle kind message).2 := by
  unfold Desktop.handlePromptReq
  split_ifs
  · exact within_self
  · exact Within.refl p s (by simp)
  · exact within_self.of_same ⟨rfl,rfl⟩

theorem inUse_of_conForHandle {handle : ℤ} {c : Fin conMax} (h : s.conForHandle handle = some c) :
    (s.cons c).win.inUse = true := (Option.filter_eq_some_iff.mp h).2

theorem consoleClose_closes {c : Fin conMax} (h : (s.cons c).win.inUse = true) :
    ((s.consoleClose c).1.cons c).win.inUse = false := by
  unfold Desktop.consoleClose
  simp [h,Desktop.forget,Desktop.zRemove,Console.empty,Window.empty]

/-- A message stays within its sender's authority exactly if it does not name an open console in
a request to destroy. -/
theorem lawful_iff (s : Desktop) (m : Message) : Lawful s m ↔ SparesConsoles s m := by
  constructor
  · intro h hkind
    cases hcon : s.conForHandle m.a with
    | none => rfl
    | some c =>
      have hopen := inUse_of_conForHandle hcon
      have hstays := h.stayOpen c hopen
      have hclosed : ((s.pumpIpc m).1.cons c).win.inUse = false := by
        simp only [Desktop.pumpIpc,hkind,Desktop.handleDestroy,Desktop.handleDestroyInternal,hcon]
        exact consoleClose_closes hopen
      rw [hclosed] at hstays
      cases hstays
  · intro h
    unfold Lawful Desktop.pumpIpc
    cases hkind : m.kind with
    | createReq =>
      have hcreate := within_handleCreate s m.fromPid m.a m.b m.str m.flags m.allocated m.shared
      dsimp only
      cases (s.handleCreate m.fromPid m.a m.b m.str m.flags m.allocated m.shared).1 with
      | none => exact hcreate.trans (Within.refl m.fromPid _ (by simp))
      | some r => exact hcreate.trans (Within.refl m.fromPid _ (by simp))
    | destroyReq =>
      apply within_handleDestroyInternal (h hkind)
      intro i _ hcheck
      rcases hcheck with hzero | howner
      · exact absurd hzero m.stamped.ne'
      · exact howner
    | invalidateReq => exact within_self
    | setTitleReq => exact within_handleSetTitle s m.fromPid m.a m.str
    | setStatusReq => exact within_handleSetStatus s m.fromPid m.a m.str
    | promptReq => exact within_handlePromptReq s m.fromPid m.a m.b m.str
    | peerExited =>
      rw [if_neg (not_le.mpr m.stamped)]
      have habandon : Within m.fromPid s (s.promptAbandonForOwner m.fromPid) [] :=
        within_self.of_same (promptAbandon_same s m.fromPid)
      exact habandon.trans (within_destroyWindowsForOwner m.fromPid _)
    | other => exact within_self

/-- Over any sequence of messages, every one of them stays within the authority of its sender if
and only if none of them asks to destroy a console that is open when it is handled. -/
theorem client_authority_iff (s : Desktop) (ms : List Message) :
    Trace.Admissible Desktop.step Lawful s ms ↔
      Trace.Admissible Desktop.step SparesConsoles s ms :=
  Trace.admissible_congr (I := fun _ => True) (fun s m _ => lawful_iff s m) (fun _ _ _ _ => trivial)
    trivial ms

/-- The desktop after boot: the first console is open and its shell is process 7. -/
def bootDesktop : Desktop where
  windows _ := Window.empty
  cons := update (fun _ => Console.empty) ⟨0,by decide⟩
    ⟨{ Window.empty with inUse := true, handle := handleConsoleBase },0,7⟩
  prompt := ⟨false,0,0,0,[]⟩
  focusedHandle := handleConsoleBase
  zOrder := [handleConsoleBase]
  closePendingHandle := -1
  numbered _ h := by cases h

def destroyConsole : Message where
  kind := .destroyReq
  fromPid := 20
  a := 128
  b := 0
  flags := 0#32
  str := []
  allocated := false
  shared := none
  stamped := by decide

/-- That closes the console of the first shell and kills the shell. -/
theorem destroyConsole_kills_shell :
    ¬ Lawful bootDesktop destroyConsole ∧
      (bootDesktop.pumpIpc destroyConsole).2 = [.kill 7] ∧
      ((bootDesktop.pumpIpc destroyConsole).1.cons ⟨0,by decide⟩).win.inUse = false := by
  refine ⟨?_,by decide,by decide⟩
  intro h
  exact h.kills 7 (by decide)

end GaiaKernel.Heimdall
