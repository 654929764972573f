import SengKernel.SchedulerSessions

/- The frames that `proc_create` and `thread_create` build, read back by the end of
   irq0_stub in boot/switch.asm. -/
namespace SengKernel.Sched
open BoundedLoop MachineWord LinkedRing Transition

/-- The registers of a context that `iretd` has resumed. -/
structure Registers where
  eax : Nat
  ecx : Nat
  edx : Nat
  ebx : Nat
  ebp : Nat
  esi : Nat
  edi : Nat
  esp : Nat
  eip : Nat
  cs : Nat
  eflags : Nat
  deriving DecidableEq, Repr

/-- `popad`, which skips the saved ESP, and an `iretd` that stays at its privilege. -/
def restore (memory : Nat → Nat) (esp : Nat) : Registers where
  edi := memory esp
  esi := memory (esp + 4)
  ebp := memory (esp + 8)
  ebx := memory (esp + 16)
  edx := memory (esp + 20)
  ecx := memory (esp + 24)
  eax := memory (esp + 28)
  eip := memory (esp + 32)
  cs := memory (esp + 36)
  eflags := memory (esp + 40)
  esp := esp + 44

/-- The stack array of a context's slot. -/
def stackBase (c : Config) : Context → Nat
  | .process p => c.processStacks + (p - 1) * processStackSize
  | .thread t => c.threadStacks + (t - 1) * threadStackSize

def stackTop (c : Config) : Context → Nat
  | .process p => processStackTop c p
  | .thread t => threadStackTop c t

/-- The two arrays of stacks do not overlap. -/
def Apart (c : Config) : Prop :=
  c.processStacks + 16 * processStackSize ≤ c.threadStacks ∨
  c.threadStacks + c.maxThreads * threadStackSize ≤ c.processStacks

/-- A creation that succeeds, with the entry function and its argument. -/
inductive Creates (c : Config) (k : Kernel) : Context → Nat → Option Nat → Kernel → Prop
  | process {p entry : Nat} {k' : Kernel} (created : procCreate c k entry = some (k', p)) (given : p ≠ 0) :
      Creates c k (.process p) entry none k'
  | thread {t fn arg : Nat} {k' : Kernel} (created : threadCreate c k fn arg = some (k', t)) (given : t ≠ 0) :
      Creates c k (.thread t) fn (some arg) k'

/-- The code whose address a frame holds as the place to return to. -/
def codeAt (c : Config) (address : Nat) : Option (Kernel → Kernel) :=
  if address = c.threadReturn then some threadExit else none

def Ended (k : Kernel) : Context → Prop
  | .process p => (k.pcbTable p).state = .zombie
  | .thread t => (k.threadTable t).state = .terminated

/-- The context starts in its entry function, on its own stack. -/
structure Starts (c : Config) (k k' : Kernel) (x : Context) (entry : Nat) (r : Registers) : Prop where
  eip : r.eip = entry
  cs : r.cs = 0x08
  interrupts : r.eflags.testBit 9 = true
  registers : [r.eax, r.ecx, r.edx, r.ebx, r.ebp, r.esi, r.edi] = [0, 0, 0, 0, 0, 0, 0]
  stack : stackBase c x ≤ espOf k' x ∧ espOf k' x ≤ r.esp ∧ r.esp ≤ stackTop c x
  written : ∀ a, a < stackBase c x ∨ stackTop c x ≤ a → k'.memory a = k.memory a
  apart : ∀ y, InTable c y → y ≠ x → stackTop c x ≤ stackBase c y ∨ stackTop c y ≤ stackBase c x

/-- The word at the stack pointer lies in the stack and is the address of code that
ends the context; the argument follows it. -/
structure EndsOnReturn (c : Config) (k' : Kernel) (x : Context) (arg : Option Nat) (r : Registers) : Prop where
  inside : r.esp + 4 ≤ stackTop c x
  leads : ∃ code, codeAt c (k'.memory r.esp) = some code ∧ ∀ k, CurrentIs k x → Ended (code k) x
  argument : ∀ a, arg = some a → k'.memory (r.esp + 4) = a

structure FrameAgrees (c : Config) (k k' : Kernel) (x : Context) (entry : Nat) (arg : Option Nat) : Prop where
  starts : Starts c k k' x entry (restore k'.memory (espOf k' x))
  returns : EndsOnReturn c k' x arg (restore k'.memory (espOf k' x))

section Pushes

variable {memory : Nat → Nat} {sp : Nat} {ws : List Nat}

theorem pushWords_frame (hroom : 4 * ws.length ≤ sp) {a : Nat} (ha : a < sp - 4 * ws.length ∨ sp ≤ a) :
    (pushWords memory sp ws).1 a = memory a := by
  induction ws generalizing memory sp with
  | nil => rfl
  | cons w ws ih =>
      rw [List.length_cons] at hroom ha
      rw [pushWords, ih (by omega) (by omega), Function.update_of_ne (by omega)]

/-- The words lie from the last push upwards. -/
theorem pushWords_get (hroom : 4 * ws.length ≤ sp) (i : Nat) (hi : i < ws.length) :
    ws[i]? = some ((pushWords memory sp ws).1 (sp - 4 * (i + 1))) := by
  induction ws generalizing memory sp i with
  | nil => exact (Nat.not_lt_zero i hi).elim
  | cons w ws ih =>
      rw [List.length_cons] at hroom hi
      rw [pushWords]
      cases i with
      | zero =>
          rw [pushWords_frame (by omega) (by omega), Nat.zero_add, Nat.mul_one, Function.update_self]
          rfl
      | succ i =>
          have hslot : sp - 4 * (i + 1 + 1) = sp - 4 - 4 * (i + 1) := by omega
          rw [hslot, ← ih (by omega) i (by omega)]
          rfl

theorem pushWords_append (memory : Nat → Nat) (sp : Nat) (vs ws : List Nat) :
    pushWords memory sp (vs ++ ws) = pushWords (pushWords memory sp vs).1 (pushWords memory sp vs).2 ws := by
  induction vs generalizing memory sp with
  | nil => rfl
  | cons v vs ih => exact ih _ _

/-- irq0_stub takes off what the creation pushed. -/
theorem restore_processFrame (memory : Nat → Nat) {top : Nat} (hroom : 44 ≤ top) (entry : Nat) :
    restore (pushWords memory top (processFrame entry)).1 (top - 44) =
      { eax := 0, ecx := 0, edx := 0, ebx := 0, ebp := 0, esi := 0, edi := 0, esp := top, eip := entry, cs := 0x08
        eflags := 0x202 } := by
  have hword : ∀ j, j < 11 →
      (processFrame entry)[10 - j]? = some ((pushWords memory top (processFrame entry)).1 (top - 44 + 4 * j)) := by
    intro j hj
    have hget : (processFrame entry)[10 - j]? =
        some ((pushWords memory top (processFrame entry)).1 (top - 4 * (10 - j + 1))) := pushWords_get hroom _
      (by simp only [processFrame, List.length_cons, List.length_nil]; omega)
    have hplace : top - 4 * (10 - j + 1) = top - 44 + 4 * j := by omega
    rwa [hplace] at hget
  have hesp : top - 44 + 44 = top := by omega
  have h0 := (Option.some.inj (hword 0 (by decide))).symm
  have h1 := (Option.some.inj (hword 1 (by decide))).symm
  have h2 := (Option.some.inj (hword 2 (by decide))).symm
  have h4 := (Option.some.inj (hword 4 (by decide))).symm
  have h5 := (Option.some.inj (hword 5 (by decide))).symm
  have h6 := (Option.some.inj (hword 6 (by decide))).symm
  have h7 := (Option.some.inj (hword 7 (by decide))).symm
  have h8 := (Option.some.inj (hword 8 (by decide))).symm
  have h9 := (Option.some.inj (hword 9 (by decide))).symm
  have h10 := (Option.some.inj (hword 10 (by decide))).symm
  exact Registers.mk.injEq .. ▸ ⟨h7, h6, h5, h4, h2, h1, h0, hesp, h8, h9, h10⟩

end Pushes

section Creations

variable {c : Config} {k k' : Kernel}

/-- Joining the run queue changes links only. -/
theorem schedulerAddProcess_esp {p : Nat} (h : schedulerAddProcess k p = some k') :
    k'.memory = k.memory ∧ ∀ q, (k'.pcbTable q).esp = (k.pcbTable q).esp := by
  have hset : ∀ (k : Kernel) (p n q : Nat),
      ((setProc k p (fun r => { r with next := n })).pcbTable q).esp = (k.pcbTable q).esp := by
    intro k p n q
    by_cases hq : q = p
    · rw [hq, setProc_self]
    · rw [setProc_of_ne _ _ _ hq]
  unfold schedulerAddProcess at h
  split at h
  · cases h
    exact ⟨rfl, fun _ => rfl⟩
  · split at h
    · cases h
      exact ⟨rfl, fun q => hset ..⟩
    · split at h
      · cases h
      · cases h
        exact ⟨rfl, fun q => (hset ..).trans (hset ..)⟩

theorem schedulerAddThread_esp {t : Nat} (h : schedulerAddThread c k t = some k') :
    k'.memory = k.memory ∧ ∀ u, (k'.threadTable u).esp = (k.threadTable u).esp := by
  have hset : ∀ (k : Kernel) (t n u : Nat),
      ((setThread k t (fun r => { r with next := n })).threadTable u).esp = (k.threadTable u).esp := by
    intro k t n u
    by_cases hu : u = t
    · rw [hu, setThread_self]
    · rw [setThread_of_ne _ _ _ hu]
  unfold schedulerAddThread at h
  split at h
  · cases h
    exact ⟨rfl, fun _ => rfl⟩
  · split at h
    · cases h
      exact ⟨rfl, fun u => hset ..⟩
    · split at h
      · cases h
      · cases h
        exact ⟨rfl, fun u => (hset ..).trans (hset ..)⟩

/-- What a creation leaves for the first switch to the new context: its frame below
`vs`, the words that its entry function finds on the stack. -/
structure Framed (c : Config) (k k' : Kernel) (x : Context) (entry : Nat) (vs : List Nat) : Prop where
  slot : InTable c x
  memory : k'.memory = (pushWords k.memory (stackTop c x) (vs ++ processFrame entry)).1
  esp : espOf k' x = stackTop c x - 4 * vs.length - 44

theorem procCreate_framed {p entry : Nat} (h : procCreate c k entry = some (k', p)) (hp : p ≠ 0) :
    Framed c k k' (.process p) entry [] := by
  simp only [procCreate] at h
  split at h
  · cases h
    exact (hp rfl).elim
  · rename_i hfree
    split at h
    · cases h
    · rename_i added hadd
      cases h
      obtain ⟨hmemory, hesp⟩ := schedulerAddProcess_esp hadd
      refine ⟨?_, hmemory, ?_⟩
      · unfold findFreePcb at hfree ⊢
        split at hfree
        · rename_i i hi
          have := (scan_some hi).2.1
          simp only [maxProcesses] at this
          exact ⟨Nat.le_add_left 1 i, by omega⟩
        · exact (hfree rfl).elim
      · rw [espOf, hesp, setProc_self]
        exact pushWords_sp ..

theorem threadCreate_framed {t fn arg : Nat} (h : threadCreate c k fn arg = some (k', t)) (ht : t ≠ 0) :
    Framed c k k' (.thread t) fn [arg, c.threadReturn] := by
  simp only [threadCreate] at h
  split at h
  · cases h
    exact (ht rfl).elim
  · split at h
    · cases h
      exact (ht rfl).elim
    · rename_i hfree
      split at h
      · cases h
      · rename_i added hadd
        cases h
        obtain ⟨hmemory, hesp⟩ := schedulerAddThread_esp hadd
        refine ⟨?_, hmemory, ?_⟩
        · unfold findFreeThread at hfree ⊢
          split at hfree
          · rename_i i hi
            have := (scan_some hi).2.1
            exact ⟨Nat.le_add_left 1 i, by omega⟩
          · exact (hfree rfl).elim
        · rw [espOf, hesp, setThread_self]
          refine (pushWords_sp ..).trans ?_
          simp only [threadFrame, stackTop, List.length_cons, List.length_nil]
          omega

theorem Creates.framed {x : Context} {entry : Nat} {arg : Option Nat} (h : Creates c k x entry arg k') :
    ∃ vs, vs.length ≤ 2 ∧ Framed c k k' x entry vs := by
  cases h with
  | process created given => exact ⟨[], Nat.zero_le 2, procCreate_framed created given⟩
  | @thread t fn arg _ created given => exact ⟨[arg, c.threadReturn], Nat.le_refl 2, threadCreate_framed created given⟩

end Creations

section Stacks

variable {c : Config} {k k' : Kernel} {x y : Context} {entry : Nat} {vs : List Nat}

theorem stack_process (c : Config) (p : Nat) :
    stackBase c (.process p) = c.processStacks + (p - 1) * 4096 ∧ stackTop c (.process p) = c.processStacks + p * 4096 :=
  ⟨rfl, rfl⟩

theorem stack_thread (c : Config) (t : Nat) :
    stackBase c (.thread t) = c.threadStacks + (t - 1) * 4096 ∧ stackTop c (.thread t) = c.threadStacks + t * 4096 :=
  ⟨rfl, rfl⟩

theorem stackTop_eq (hx : InTable c x) : stackTop c x = stackBase c x + 4096 := by
  cases x with
  | process p =>
      have hp : 1 ≤ p := hx.1
      have hstack := stack_process c p
      omega
  | thread t =>
      have ht : 1 ≤ t := hx.1
      have hstack := stack_thread c t
      omega

theorem stacks_apart (layout : Apart c) (hx : InTable c x) (hy : InTable c y) (hne : y ≠ x) :
    stackTop c x ≤ stackBase c y ∨ stackTop c y ≤ stackBase c x := by
  have layout : c.processStacks + 16 * 4096 ≤ c.threadStacks ∨ c.threadStacks + c.maxThreads * 4096 ≤ c.processStacks :=
    layout
  cases x with
  | process p =>
      have hp : 1 ≤ p ∧ p ≤ 16 := hx
      have hstack := stack_process c p
      cases y with
      | process q =>
          have hq : 1 ≤ q ∧ q ≤ 16 := hy
          have hpq : q ≠ p := fun h => hne (h ▸ rfl)
          have hstack' := stack_process c q
          omega
      | thread u =>
          have hu : 1 ≤ u ∧ u ≤ c.maxThreads := hy
          have hstack' := stack_thread c u
          omega
  | thread t =>
      have ht : 1 ≤ t ∧ t ≤ c.maxThreads := hx
      have hstack := stack_thread c t
      cases y with
      | process q =>
          have hq : 1 ≤ q ∧ q ≤ 16 := hy
          have hstack' := stack_process c q
          omega
      | thread u =>
          have hu : 1 ≤ u ∧ u ≤ c.maxThreads := hy
          have htu : u ≠ t := fun h => hne (h ▸ rfl)
          have hstack' := stack_thread c u
          omega

/-- The registers after the first switch to the context. -/
theorem Framed.restored (h : Framed c k k' x entry vs) (hvs : vs.length ≤ 2) :
    restore k'.memory (espOf k' x) =
      { eax := 0, ecx := 0, edx := 0, ebx := 0, ebp := 0, esi := 0, edi := 0, esp := stackTop c x - 4 * vs.length
        eip := entry, cs := 0x08, eflags := 0x202 } := by
  have htop := stackTop_eq h.slot
  rw [h.memory, h.esp, pushWords_append, pushWords_sp]
  exact restore_processFrame _ (by omega) entry

/-- Every context that was created starts where it should. -/
theorem Framed.starts (layout : Apart c) (h : Framed c k k' x entry vs) (hvs : vs.length ≤ 2) :
    Starts c k k' x entry (restore k'.memory (espOf k' x)) := by
  have htop := stackTop_eq h.slot
  rw [h.restored hvs]
  have hflag : (0x202 : Nat).testBit 9 = true := by decide
  refine ⟨rfl, rfl, hflag, rfl, ?_, fun a ha => ?_, fun y hy hne => stacks_apart layout h.slot hy hne⟩
  · rw [h.esp]
    dsimp only
    omega
  · rw [h.memory]
    have hlen : (vs ++ processFrame entry).length = vs.length + 11 := by
      rw [List.length_append]
      rfl
    exact pushWords_frame (by omega) (by omega)

/-- The words that the entry function finds on its stack. -/
theorem Framed.found (h : Framed c k k' x entry vs) (hvs : vs.length ≤ 2) {i : Nat} (hi : i < vs.length) :
    vs[i]? = some (k'.memory (stackTop c x - 4 * (i + 1))) := by
  have htop := stackTop_eq h.slot
  have hlen : (vs ++ processFrame entry).length = vs.length + 11 := by
    rw [List.length_append]
    rfl
  rw [h.memory, ← pushWords_get (by omega) i (by omega), List.getElem?_append_left hi]

end Stacks

/-- Every created context starts in its entry function on its own stack; it finds a place
to return to exactly where it is a thread. -/
theorem frame_agrees_iff {c : Config} (layout : Apart c) {k k' : Kernel} {x : Context} {entry : Nat} {arg : Option Nat}
    (h : Creates c k x entry arg k') : FrameAgrees c k k' x entry arg ↔ ∃ t, x = .thread t := by
  obtain ⟨vs, hvs, hframed⟩ := h.framed
  have hstarts := hframed.starts layout hvs
  cases h with
  | process created given =>
      refine iff_of_false (fun hagrees => ?_) nofun
      have hframed := procCreate_framed created given
      have hinside := hagrees.returns.inside
      rw [hframed.restored (Nat.zero_le 2), List.length_nil] at hinside
      dsimp only at hinside
      omega
  | @thread t fn arg k' created given =>
      refine iff_of_true ⟨hstarts, ?_⟩ ⟨t, rfl⟩
      have hframed := threadCreate_framed created given
      have htop := stackTop_eq hframed.slot
      have harg := hframed.found (Nat.le_refl 2) (i := 0) (Nat.zero_lt_succ 1)
      have hreturn := hframed.found (Nat.le_refl 2) (i := 1) (Nat.lt_succ_self 1)
      rw [hframed.restored (Nat.le_refl 2)]
      refine ⟨?_, ⟨threadExit, ?_, fun r hr => ?_⟩, fun a ha => ?_⟩
      · simp only [List.length_cons, List.length_nil]
        omega
      · have hword : k'.memory (stackTop c (.thread t) - 4 * 2) = c.threadReturn := (Option.some.inj hreturn).symm
        exact (congrArg (codeAt c) hword).trans (if_pos rfl)
      · have hcurrent : r.currentThread = t := hr.1
        rw [threadExit, if_neg (by rw [hcurrent]; exact given), hcurrent, Ended, setThread_self]
      · have hword : k'.memory (stackTop c (.thread t) - 4 * 1) = arg := (Option.some.inj harg).symm
        cases ha
        refine Eq.trans (congrArg k'.memory ?_) hword
        simp only [List.length_cons, List.length_nil]
        omega

theorem sampleConfig_apart : Apart sampleConfig := by
  unfold Apart
  decide +kernel

theorem frame_agrees_iff_sample :
    ∃ k', Creates sampleConfig blankKernel (.thread 1) 0x10400 (some 7) k' ∧
      FrameAgrees sampleConfig blankKernel k' (.thread 1) 0x10400 (some 7) := by
  have hsome : (threadCreate sampleConfig blankKernel 0x10400 7).map Prod.snd = some 1 := by decide +kernel
  obtain ⟨⟨k', t⟩, hcreate, rfl⟩ := Option.map_eq_some_iff.mp hsome
  have created : Creates sampleConfig blankKernel (.thread 1) 0x10400 (some 7) k' := .thread hcreate (by decide)
  exact ⟨k', created, (frame_agrees_iff sampleConfig_apart created).mpr ⟨1, rfl⟩⟩

/-- The first process starts with an empty stack: its stack pointer is the end of the
array, and there is no word to return to. -/
theorem process_without_return :
    ∃ k', Creates sampleConfig blankKernel (.process 1) 0x10100 none k' ∧
      (restore k'.memory (espOf k' (.process 1))).esp = stackTop sampleConfig (.process 1) ∧
      ¬ FrameAgrees sampleConfig blankKernel k' (.process 1) 0x10100 none := by
  have hsome : (procCreate sampleConfig blankKernel 0x10100).map Prod.snd = some 1 := by decide +kernel
  obtain ⟨⟨k', p⟩, hcreate, rfl⟩ := Option.map_eq_some_iff.mp hsome
  have hframed := procCreate_framed hcreate (by decide)
  have hesp : (restore k'.memory (espOf k' (.process 1))).esp = stackTop sampleConfig (.process 1) := by
    rw [hframed.restored (Nat.zero_le 2)]
    rfl
  refine ⟨k', .process hcreate (by decide), hesp, fun hagrees => ?_⟩
  have hinside := hagrees.returns.inside
  omega

end SengKernel.Sched
