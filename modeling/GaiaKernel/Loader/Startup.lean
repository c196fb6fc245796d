import GaiaKernel.Lib.Bytes
import GaiaKernel.Memory.Word

/-! # The stack of a new program

`copy_to_user_pml4`, `push_strings` and `load_image` in loader/process.c from the point where the
file is loaded: a Win32 process gets its arguments as one command line, the strings go to the top of
the stack, one below the other, and the vectors below them. `snapshot_request` is the copy a spawn
works from. The page tables, the random bytes and how allocations turn out are given.
-/
namespace GaiaKernel.Startup
open Bytes List Option Nat

def stackTop : ℕ := 0x00007FFFFFFFE000
def stackLow : ℕ := stackTop - 512 * 4096
def argvMax : ℕ := 16
def argLenMax : ℕ := 128
def commandMax : ℕ := 2048

/-- The bytes of a C string before its terminator. -/
abbrev CString := { s : List Byte // 0#8 ∉ s }

/-- The pages of the new address space, each in a frame of its own. -/
structure Pml4 where
  frame : ℕ → Option ℕ
  distinct : ∀ {p q f}, frame p = some f → frame q = some f → p = q

/-- `vmm_translate_in`; 0 means that the page is not mapped. -/
def Pml4.translate (pml4 : Pml4) (va : ℕ) : ℕ :=
  match pml4.frame (va / 4096) with
  | some f => f * 4096 + va % 4096
  | none => 0

/-- The loop of `copy_to_user_pml4`, for so many rounds. A round copies up to the end of a page. -/
def copyRounds (pml4 : Pml4) : ℕ → (ℕ → Byte) → ℕ → List Byte → Option (ℕ → Byte)
  | _, phys, _, [] => some phys
  | 0, _, _, _ :: _ => none
  | n + 1, phys, dst, src =>
    if pml4.translate dst = 0 then none
    else
      let chunk := min (4096 - dst % 4096) src.length
      copyRounds pml4 n (blit phys (pml4.translate dst) (src.take chunk)) (dst + chunk)
        (src.drop chunk)

/-- Every round takes a byte at least. -/
def copyToUserPml4 (pml4 : Pml4) (phys : ℕ → Byte) (dst : ℕ) (src : List Byte) :
    Option (ℕ → Byte) := copyRounds pml4 src.length phys dst src

/-- The stack pointer and the physical memory. -/
structure Stack where
  rsp : ℕ
  phys : ℕ → Byte

structure Elf where
  entry : U64
  phdr : U64
  phent : U64
  phnum : U64

/-- What the file turned out to be; a PE image may come with a `pe_process`. -/
inductive Image where
  | elf (e : Elf)
  | pe
  | win32

/-- What a load depends on besides its arguments. -/
structure World where
  pml4 : Pml4
  fresh : ℕ → Byte
  image : Image
  random : Fin 16 → Byte
  bootCopied : Bool
  requestAllocated : Bool
  ptrsAllocated : Bool
  initialAllocated : Bool

def World.elf (w : World) : Option Elf :=
  match w.image with
  | .elf e => some e
  | _ => none

variable (w : World)

def pushStrings : Stack → List CString → Option (Stack × List ℕ)
  | st, [] => some (st, [])
  | st, s :: ss =>
    let len := s.1.length + 1
    if st.rsp - stackLow < len then none
    else
      (copyToUserPml4 w.pml4 st.phys (st.rsp - len) (s.1 ++ [0#8])).bind fun phys =>
        (pushStrings ⟨st.rsp - len,phys⟩ ss).map fun r => (r.1, (st.rsp - len) :: r.2)

def auxv (randomAddress : ℕ) : List ℕ :=
  match w.elf with
  | none => []
  | some e =>
    [6,4096,9,e.entry.toNat,11,0,12,0,13,0,14,0,23,0,25,randomAddress] ++
      if e.phdr ≠ 0#64 then [3,e.phdr.toNat,4,e.phent.toNat,5,e.phnum.toNat] else []

def initial (args envs aux : List ℕ) : List ℕ :=
  args.length :: args ++ [0] ++ envs ++ [0] ++ aux ++ [0,0]

def pushRandom : Option Stack :=
  if w.elf.isSome then
    (copyToUserPml4 w.pml4 w.fresh (stackTop - 16) (ofFn w.random)).map fun phys =>
      ⟨stackTop - 16,phys⟩
  else some ⟨stackTop,w.fresh⟩

def pushVectors (st : Stack) (words : List ℕ) : Option Stack :=
  let rsp := st.rsp / 16 * 16
  let bytes := 8 * words.length
  if !w.initialAllocated || rsp - stackLow < bytes + 16 then none
  else
    let rsp := if bytes % 16 ≠ 0 then rsp - 8 else rsp
    (copyToUserPml4 w.pml4 st.phys (rsp - bytes) (leFields 8 words)).map fun phys =>
      ⟨rsp - bytes,phys⟩

def quote : Byte := 0x22#8

/-- The loop that joins the arguments of a Win32 process, from argument `i` on. -/
def joinArgs : ℕ → List Byte → List CString → Option (List Byte)
  | _, command, [] => some command
  | i, command, a :: as =>
    let command := if i ≠ 0 then command ++ [0x20#8] else command
    if command.length + a.1.length + 3 ≥ commandMax then none
    else joinArgs (i + 1) (command ++ [quote] ++ a.1 ++ [quote]) as

/-- The command line in the boot block of a Win32 process; other programs have none. -/
def commandLine (argv : List CString) : Option (List Byte) :=
  match w.image with
  | .win32 => if w.bootCopied then joinArgs 0 [] argv else none
  | _ => some []

/-- The stack and the command line `load_image` builds, or `none` when it fails. -/
def loadImage (argv envp : List CString) : Option (Stack × List Byte) :=
  (commandLine w argv).bind fun command =>
    (pushRandom w).bind fun st =>
      if !w.ptrsAllocated then none
      else
        (pushStrings w st envp).bind fun envs =>
          (pushStrings w envs.1 argv).bind fun args =>
            (pushVectors w args.1 (initial args.2 envs.2 (auxv w (stackTop - 16)))).map
              fun st => (st, command)

/-! ### Copying by pages -/

section
variable {pml4 : Pml4} {phys phys' : ℕ → Byte} {dst n : ℕ} {src : List Byte}

/-- What the program finds at an address. -/
def Pml4.view (pml4 : Pml4) (phys : ℕ → Byte) (va : ℕ) : Byte :=
  match pml4.frame (va / 4096) with
  | some f => phys (f * 4096 + va % 4096)
  | none => 0#8

theorem view_blit {f : ℕ} (hf : pml4.frame (dst / 4096) = some f)
    (hlen : src.length ≤ 4096 - dst % 4096) :
    pml4.view (blit phys (f * 4096 + dst % 4096) src) = blit (pml4.view phys) dst src := by
  funext a
  by_cases ha : dst ≤ a ∧ a < dst + src.length
  · obtain ⟨i,rfl⟩ := Nat.exists_eq_add_of_le ha.1
    have hpage : (dst + i) / 4096 = dst / 4096 ∧ (dst + i) % 4096 = dst % 4096 + i := by omega
    rw [blit_of_mem (by omega),Pml4.view,hpage.1,hf]
    dsimp only
    rw [hpage.2,← Nat.add_assoc,blit_of_mem (by omega)]
  · rw [blit_of_not_mem (by omega)]
    unfold Pml4.view
    cases hg : pml4.frame (a / 4096) with
    | none => rfl
    | some g =>
      refine blit_of_not_mem ?_
      -- the byte is in another frame, or elsewhere in this one
      by_cases hgf : g = f
      · subst hgf
        have := pml4.distinct hf hg
        omega
      · omega

theorem copyRounds_view (h : copyRounds pml4 n phys dst src = some phys') :
    pml4.view phys' = blit (pml4.view phys) dst src := by
  induction n generalizing phys dst src with
  | zero =>
    cases src with
    | nil =>
      cases h
      rw [blit_nil]
    | cons c src => cases h
  | succ n ih =>
    cases src with
    | nil =>
      cases h
      rw [blit_nil]
    | cons c src =>
      unfold copyRounds at h
      split_ifs at h with hzero
      dsimp only at h
      generalize hchunk : min (4096 - dst % 4096) (c :: src).length = chunk at h
      have hlen : ((c :: src).take chunk).length = chunk := by
        rw [length_take]
        omega
      obtain ⟨f,hf⟩ : ∃ f, pml4.frame (dst / 4096) = some f := by
        refine Option.ne_none_iff_exists'.mp fun hnone => hzero ?_
        rw [Pml4.translate,hnone]
      have htrans : pml4.translate dst = f * 4096 + dst % 4096 := by rw [Pml4.translate,hf]
      rw [ih h,htrans,view_blit hf (by omega)]
      conv_rhs => rw [← take_append_drop chunk (c :: src),blit_append,hlen]

theorem copyToUserPml4_view (h : copyToUserPml4 pml4 phys dst src = some phys') :
    pml4.view phys' = blit (pml4.view phys) dst src := copyRounds_view h

/-- The rounds do not run out: a copy fails only at a page that is not mapped. -/
theorem copyRounds_fails (hn : src.length ≤ n) (h : copyRounds pml4 n phys dst src = none) :
    ∃ k < src.length, pml4.translate (dst + k) = 0 := by
  induction n generalizing phys dst src with
  | zero =>
    rw [length_eq_zero_iff.mp (Nat.le_zero.mp hn)] at h
    cases h
  | succ n ih =>
    cases src with
    | nil => cases h
    | cons c src =>
      unfold copyRounds at h
      split_ifs at h with hzero
      · exact ⟨0,by simp,hzero⟩
      · dsimp only at h
        generalize hchunk : min (4096 - dst % 4096) (c :: src).length = chunk at h
        have hpos : 0 < chunk := by
          rw [length_cons] at hchunk
          omega
        rw [length_cons] at hn
        obtain ⟨k,hk,hk'⟩ := ih (by rw [length_drop,length_cons]; omega) h
        rw [length_drop] at hk
        exact ⟨chunk + k,by omega,by rwa [← Nat.add_assoc]⟩

end

/-! ### What a program finds there -/

/-- Where the strings end: the random bytes of an ELF stand above them. -/
def World.ceiling (w : World) : ℕ := if w.elf.isSome then stackTop - 16 else stackTop

/-- The strings fill the space from `hi` down to `lo`, one below the other. -/
def Filled (mem : ℕ → Byte) (lo : ℕ) : ℕ → List ℕ → List CString → Prop
  | hi, [], [] => lo = hi
  | hi, p :: ps, s :: ss => p + (s.1.length + 1) = hi ∧
      slice mem p (s.1.length + 1) = s.1 ++ [0#8] ∧ Filled mem lo p ps ss
  | _, _, _ => False

/-- The vectors stand at the stack pointer, their pointers lead to the strings, and the strings
stand above the vectors and below `hi`. -/
def Presents (mem : ℕ → Byte) (rsp hi : ℕ) (argv envp : List CString) (aux : List ℕ) : Prop :=
  ∃ args envs lo mid, Filled mem lo mid args argv ∧ Filled mem mid hi envs envp ∧
    stackLow ≤ lo ∧ rsp + 8 * (initial args envs aux).length ≤ lo ∧
    ∀ i (h : i < (initial args envs aux).length),
      leNat mem (rsp + 8 * i) 8 = (initial args envs aux)[i]

/-- The memory the program sees. -/
def World.seen (w : World) (st : Stack) : ℕ → Byte := w.pml4.view st.phys

/-- The stack of a program that starts with these arguments and this environment. -/
structure Laid (w : World) (argv envp : List CString) (st : Stack) : Prop where
  aligned : st.rsp % 16 = 0
  low : stackLow ≤ st.rsp
  presents : Presents (w.seen st) st.rsp w.ceiling argv envp (auxv w (stackTop - 16))
  random : w.elf.isSome → slice (w.seen st) (stackTop - 16) 16 = ofFn w.random

variable {w} {mem mem' : ℕ → Byte} {st st' : Stack} {lo hi p : ℕ} {ps : List ℕ}
  {ss argv argv' envp : List CString}

theorem Filled.bounds (h : Filled mem lo hi ps ss) :
    lo + ss.length ≤ hi ∧ ps.length = ss.length ∧ ∀ p ∈ ps, p < hi := by
  fun_induction Filled mem lo hi ps ss with
  | case1 => exact ⟨h.le,rfl,by simp⟩
  | case2 hi p ps s ss ih =>
    obtain ⟨hlo,hlen,hlt⟩ := ih h.2.2
    refine ⟨?_,congrArg (· + 1) hlen,forall_mem_cons.mpr ⟨by omega,fun q hq => ?_⟩⟩
    · rw [length_cons]
      omega
    · have := hlt q hq
      omega
  | case3 => exact h.elim

theorem Filled.congr (h : Filled mem lo hi ps ss) (heq : ∀ a, lo ≤ a → mem' a = mem a) :
    Filled mem' lo hi ps ss := by
  fun_induction Filled mem lo hi ps ss with
  | case1 => exact h
  | case2 hi p ps s ss ih =>
    have hlo := h.2.2.bounds.1
    exact ⟨h.1,(slice_congr fun a ha _ => heq a (by omega)).trans h.2.1,ih h.2.2⟩
  | case3 => exact h.elim

theorem pushStrings_spec (h : pushStrings w st ss = some (st', ps)) (hlow : stackLow ≤ st.rsp) :
    Filled (w.seen st') st'.rsp st.rsp ps ss ∧ stackLow ≤ st'.rsp ∧
      ∀ a, st.rsp ≤ a → w.seen st' a = w.seen st a := by
  induction ss generalizing st ps with
  | nil =>
    cases h
    exact ⟨rfl,hlow,fun _ _ => rfl⟩
  | cons s ss ih =>
    unfold pushStrings at h
    dsimp only at h
    split_ifs at h with hroom
    obtain ⟨phys,hphys,h⟩ := bind_eq_some_iff.mp h
    obtain ⟨⟨st1,qs⟩,hrest,heq⟩ := map_eq_some_iff.mp h
    cases heq
    obtain ⟨hfilled,hlow',hsame⟩ := ih hrest (by dsimp only; omega)
    dsimp only at hfilled hsame
    have hview : w.seen ⟨st.rsp - (s.1.length + 1),phys⟩ = _ := copyToUserPml4_view hphys
    rw [hview] at hsame
    have hlen : (s.1 ++ [0#8]).length = s.1.length + 1 := length_append
    refine ⟨⟨by omega,?_,hfilled⟩,hlow',fun a ha => ?_⟩
    · have hself := slice_blit_self (w.seen st) (st.rsp - (s.1.length + 1)) (s.1 ++ [0#8])
      rw [hlen] at hself
      exact (slice_congr fun a ha _ => hsame a ha).trans hself
    · rw [hsame a (by omega),blit_of_not_mem (.inr (by omega))]
      rfl

theorem pushVectors_spec {words : List ℕ} (h : pushVectors w st words = some st')
    (hwords : ∀ n ∈ words, n < 256 ^ 8) :
    st'.rsp % 16 = 0 ∧ stackLow ≤ st'.rsp ∧ st'.rsp + 8 * words.length ≤ st.rsp ∧
      (∀ a, st.rsp ≤ a → w.seen st' a = w.seen st a) ∧
      ∀ i (h : i < words.length), leNat (w.seen st') (st'.rsp + 8 * i) 8 = words[i] := by
  unfold pushVectors at h
  dsimp only at h
  split_ifs at h with hroom hodd
  all_goals
    rw [Bool.or_eq_true,not_or,decide_eq_true_eq] at hroom
    obtain ⟨phys,hphys,heq⟩ := map_eq_some_iff.mp h
    cases heq
    rw [show w.seen _ = _ from copyToUserPml4_view hphys]
    refine ⟨by dsimp only; omega,by dsimp only; omega,by dsimp only; omega,fun a ha => ?_,
      fun i hi => leNat_blit_fields _ _ hwords hi⟩
    exact blit_of_not_mem (.inr (by rw [length_leFields]; omega))

theorem pushRandom_spec (h : pushRandom w = some st) : st.rsp = w.ceiling ∧
      (w.elf.isSome → slice (w.seen st) (stackTop - 16) 16 = ofFn w.random) := by
  unfold pushRandom at h
  split_ifs at h with helf
  · obtain ⟨phys,hphys,heq⟩ := map_eq_some_iff.mp h
    cases heq
    rw [show w.seen _ = _ from copyToUserPml4_view hphys,World.ceiling,if_pos helf]
    exact ⟨rfl,fun _ => by simpa using slice_blit_self _ (stackTop - 16) (ofFn w.random)⟩
  · cases h
    rw [World.ceiling,if_neg helf]
    exact ⟨rfl,fun he => absurd he helf⟩

theorem auxv_lt : ∀ n ∈ auxv w (stackTop - 16), n < 256 ^ 8 := by
  unfold auxv
  cases w.elf with
  | none => simp
  | some e =>
    dsimp only
    split_ifs <;> simp [stackTop] <;> omega

theorem laid_of_loadImage {command : List Byte} (h : loadImage w argv envp = some (st, command)) :
    Laid w argv envp st ∧ commandLine w argv = some command := by
  obtain ⟨line,hline,h⟩ := bind_eq_some_iff.mp h
  obtain ⟨st0,h0,h⟩ := bind_eq_some_iff.mp h
  split_ifs at h
  obtain ⟨⟨st1,envs⟩,h1,h⟩ := bind_eq_some_iff.mp h
  obtain ⟨⟨st2,args⟩,h2,h⟩ := bind_eq_some_iff.mp h
  dsimp only at h2 h
  obtain ⟨st3,hst,heq⟩ := map_eq_some_iff.mp h
  cases heq
  obtain ⟨hrsp,hrandom⟩ := pushRandom_spec h0
  have htop : stackLow ≤ st0.rsp ∧ st0.rsp ≤ stackTop := by
    have : stackLow ≤ stackTop - 16 := by decide
    rw [hrsp,World.ceiling]
    split_ifs <;> omega
  obtain ⟨henvs,hlow1,hsame1⟩ := pushStrings_spec h1 htop.1
  obtain ⟨hargs,hlow2,hsame2⟩ := pushStrings_spec h2 hlow1
  obtain ⟨hmid,hlen1,hlt1⟩ := henvs.bounds
  obtain ⟨hlo,hlen2,hlt2⟩ := hargs.bounds
  have hsmall : stackTop < 256 ^ 8 := by decide
  have hwords : ∀ n ∈ initial args envs (auxv w (stackTop - 16)), n < 256 ^ 8 := by
    intro n hn
    simp only [initial,mem_append,mem_cons,not_mem_nil,or_false] at hn
    rcases hn with (((((rfl | hn) | rfl) | hn) | rfl) | hn) | rfl | rfl
    · omega
    · have := hlt2 n hn
      omega
    · omega
    · have := hlt1 n hn
      omega
    · omega
    · exact auxv_lt n hn
    all_goals omega
  obtain ⟨halign,hlow,hbelow,hsame,hread⟩ := pushVectors_spec hst hwords
  refine ⟨⟨halign,hlow,⟨args,envs,st2.rsp,st1.rsp,hargs.congr hsame,?_,hlow2,hbelow,hread⟩,?_⟩,hline⟩
  · rw [← hrsp]
    exact henvs.congr fun a ha => (hsame a (by omega)).trans (hsame2 a ha)
  · intro helf
    rw [World.ceiling,if_pos helf] at hrsp
    rw [← hrandom helf]
    refine slice_congr fun a ha _ => ?_
    rw [hsame a (by omega),hsame2 a (by omega),hsame1 a (by omega)]

/-- The pages of the stack, from the top down in the frames from 256 on. -/
def stackPages : Pml4 where
  frame p := if stackLow / 4096 ≤ p ∧ p < stackTop / 4096 then some (256 + (stackTop / 4096 - p))
    else none
  distinct := by
    intro p q f hp hq
    split_ifs at hp hq
    have hf := some.inj hp
    have hf' := some.inj hq
    omega

def elfWorld : World :=
  ⟨stackPages,fun _ => 0#8,.elf ⟨0x401000#64,0x400040#64,56#64,3#64⟩,fun i => .ofNat 8 i,true,true,
    true,true⟩

theorem letters (n : ℕ) : 0#8 ∉ replicate n (0x61#8 : Byte) := by
  simp

def letterA (n : ℕ) : CString := ⟨replicate n 0x61#8,letters n⟩

/-- The texts between the quotes of a command line; the first argument is the text that is being
read. -/
def quoted : Option (List Byte) → List Byte → List (List Byte)
  | _, [] => []
  | none, c :: l => if c = quote then quoted (some []) l else quoted none l
  | some t, c :: l => if c = quote then t :: quoted none l else quoted (some (t ++ [c])) l

theorem quote_notMem_quoted {l : List Byte} {t : Option (List Byte)}
    (ht : ∀ x ∈ t, quote ∉ x) : ∀ x ∈ quoted t l, quote ∉ x := by
  induction l generalizing t with
  | nil => cases t <;> exact fun x hx => absurd hx not_mem_nil
  | cons c l ih =>
    cases t with
    | none =>
      rw [quoted]
      split_ifs
      · exact ih (by simp)
      · exact ih (by simp)
    | some t =>
      have ht := ht t rfl
      rw [quoted]
      split_ifs with hc
      · exact forall_mem_cons.mpr ⟨ht,ih (by simp)⟩
      · refine ih fun x hx => ?_
        cases hx
        simp [ht,Ne.symm hc]

theorem quoted_text {a t : List Byte} (ha : quote ∉ a) (l : List Byte) :
    quoted (some t) (a ++ quote :: l) = (t ++ a) :: quoted none l := by
  induction a generalizing t with
  | nil => simp [quoted]
  | cons c a ih =>
    rw [mem_cons,not_or] at ha
    rw [cons_append,quoted,if_neg (Ne.symm ha.1),ih ha.2]
    simp

/-- What the loop adds to the command line. -/
def joined : ℕ → List CString → List Byte
  | _, [] => []
  | i, a :: as => (if i ≠ 0 then [0x20#8] else []) ++ quote :: a.1 ++ quote :: joined (i + 1) as

theorem joinArgs_eq {i : ℕ} {command line : List Byte} {argv : List CString}
    (h : joinArgs i command argv = some line) : line = command ++ joined i argv := by
  induction argv generalizing i command with
  | nil =>
    cases h
    exact (append_nil _).symm
  | cons a as ih =>
    unfold joinArgs at h
    dsimp only at h
    split_ifs at h <;> rw [ih h] <;> simp [joined, *]

theorem quoted_joined_iff {i : ℕ} {argv : List CString} :
    quoted none (joined i argv) = argv.map (·.1) ↔ ∀ a ∈ argv, quote ∉ a.1 := by
  constructor
  · intro h a ha
    refine quote_notMem_quoted (l := joined i argv) (t := none) (by simp) _ ?_
    rw [h]
    exact mem_map_of_mem ha
  · intro h
    induction argv generalizing i with
    | nil => rfl
    | cons a as ih =>
      rw [forall_mem_cons] at h
      have hspace : quoted none (joined i (a :: as)) =
          quoted none (quote :: a.1 ++ quote :: joined (i + 1) as) := by
        rw [joined]
        split_ifs
        · simp [quoted,quote]
        · rfl
      rw [hspace,cons_append,quoted,if_pos rfl,quoted_text h.1,ih h.2]
      rfl

/-! ### The request of a spawn -/

structure Request where
  path : CString
  args : List CString

def CString.take (n : ℕ) (s : CString) : CString := ⟨s.1.take n,fun h => s.2 (mem_of_mem_take h)⟩

/-- What the fields of a request hold of a path and arguments. -/
def Request.cut (r : Request) : Request :=
  ⟨r.path.take (argLenMax - 1),(r.args.take argvMax).map (.take (argLenMax - 1))⟩

def snapshotRequest (path : CString) (argv : Option (List CString)) (allocated : Bool) :
    Option Request :=
  if path.1 = [] ∨ !allocated then none
  else some (Request.cut ⟨path,argv.getD []⟩)

/-- `process_exec` or `process_spawn_async` as far as the image goes: the request that is carried
out, the stack of the program and its command line. -/
def spawn (w : World) (opens : CString → Bool) (path : CString) (argv : Option (List CString)) :
    Option (Request × Stack × List Byte) :=
  (snapshotRequest path argv w.requestAllocated).bind fun req =>
    if opens req.path then (loadImage w req.args []).map fun r => (req, r) else none

/-- The program started is the one named, its stack presents the arguments, and for a Win32 process
the texts between the quotes of its command line are the arguments. -/
def Faithful (w : World) (opens : CString → Bool) (path : CString) (argv : Option (List CString)) :
    Prop :=
  ∀ req st command, spawn w opens path argv = some (req, st, command) →
    req = ⟨path,argv.getD []⟩ ∧ Laid w (argv.getD []) [] st ∧
      (w.image = .win32 → quoted none command = (argv.getD []).map (·.1))

def Fits (path : CString) (argv : List CString) : Prop :=
  path.1.length < argLenMax ∧ argv.length ≤ argvMax ∧ ∀ a ∈ argv, a.1.length < argLenMax

theorem CString.take_eq_iff {n : ℕ} {s : CString} : s.take n = s ↔ s.1.length ≤ n := by
  rw [Subtype.ext_iff]
  exact take_eq_self_iff s.1

theorem cut_eq_iff {path : CString} : Request.cut ⟨path,argv⟩ = ⟨path,argv⟩ ↔ Fits path argv := by
  simp only [Request.cut,Request.mk.injEq,CString.take_eq_iff]
  refine ⟨fun ⟨hpath,hargs⟩ => ?_,fun h => ⟨le_of_lt_succ h.1,?_⟩⟩
  · refine ⟨lt_succ_of_le hpath,?_,?_⟩
    · rw [← hargs,length_map]
      exact length_take_le _ _
    · rw [← hargs]
      refine forall_mem_map.mpr fun a _ => ?_
      exact lt_succ_of_le (length_take_le _ _)
  · rw [take_of_length_le h.2.1]
    refine (map_congr_left fun a ha => ?_).trans (map_id' _)
    exact CString.take_eq_iff.mpr (le_of_lt_succ (h.2.2 a ha))

theorem spawn_cases {opens : CString → Bool} {path : CString} {argv : Option (List CString)}
    {req : Request} {command : List Byte} (h : spawn w opens path argv = some (req, st, command)) :
    req = Request.cut ⟨path,argv.getD []⟩ ∧ loadImage w req.args [] = some (st, command) := by
  obtain ⟨req1,hreq,h⟩ := bind_eq_some_iff.mp h
  unfold snapshotRequest at hreq
  split_ifs at hreq
  split_ifs at h
  obtain ⟨st1,hst,heq⟩ := map_eq_some_iff.mp h
  cases heq
  exact ⟨(some.inj hreq).symm,hst⟩

theorem commandLine_win32 (hw : w.image = .win32) {command : List Byte}
    (h : commandLine w argv = some command) : command = joined 0 argv := by
  unfold commandLine at h
  rw [hw] at h
  dsimp only at h
  split_ifs at h
  exact joinArgs_eq h

def win32World : World := { elfWorld with image := .win32 }

/-- Two vectors with one command line: an argument that holds a quote, a blank and a quote, and the
two parts of it. -/
theorem quote_splits_argument :
    commandLine win32World [⟨[0x61#8,quote,0x20#8,quote,0x61#8],by decide⟩] =
      commandLine win32World [letterA 1, letterA 1] := by
  decide

/-- Sixteen arguments of the longest length have no room in a command line. -/
example : loadImage win32World (replicate 16 (letterA 127)) [] = none := by
  have hline : commandLine win32World (replicate 16 (letterA 127)) = none := by decide +kernel
  rw [loadImage,hline]
  rfl

end GaiaKernel.Startup
