import SengKernel.InitialFrames
import SengKernel.SchedulerActivity

/- irq0_stub of boot/switch.asm around scheduler_irq. The registers of the interrupted
   context go to its stack and those of the next one come off its own, so that no
   context can tell that it was interrupted. -/
namespace SengKernel.Sched
open MachineWord Transition

/-- The words that an interrupt leaves on the stack: EFLAGS, CS and EIP from the CPU, then
`pushad` with the ESP that it starts from. -/
def interruptFrame (r : Registers) : List Nat :=
  [r.eflags, r.cs, r.eip, r.eax, r.ecx, r.edx, r.ebx, r.esp - 12, r.ebp, r.esi, r.edi]

def withMemory (k : Kernel) (memory : Nat → Nat) : Kernel := { k with memory := memory }

/-- The stack when `scheduler_irq` looks at it. Its own frame and those of its calls take
up to `depth` bytes and hold whatever `below` says. -/
def interrupted (depth : Nat) (memory : Nat → Nat) (r : Registers) (below : Nat → Nat) : Nat → Nat :=
  let frame := pushWords memory r.esp (interruptFrame r)
  fun a => if frame.2 - depth ≤ a ∧ a < frame.2 then below a else frame.1 a

/-- `irq0_stub`: the kernel after the switch, and the registers that it goes on with. -/
def irq0Stub (c : Config) (depth : Nat) (k : Kernel) (r : Registers) (below : Nat → Nat) : Option (Kernel × Registers) :=
  (schedulerIrq c (withMemory k (interrupted depth k.memory r below)) (r.esp - 44)).map
    (fun next => (next.1, restore next.1.memory next.2))

/-- The registers and the memory at some moment. -/
structure Snapshot where
  cpu : Registers
  memory : Nat → Nat

/-- The kernel, the registers on the CPU, and the history of each context: what it had
when it was made or last interrupted. `none` stands for `kernel_main`. -/
structure Machine where
  activity : Activity
  cpu : Registers
  parked : Option Context → Snapshot

/-- The registers with which a new context is to start. -/
def startRegisters (c : Config) (x : Context) (entry : Nat) : Registers where
  eax := 0
  ecx := 0
  edx := 0
  ebx := 0
  ebp := 0
  esi := 0
  edi := 0
  esp := match x with
    | .process _ => stackTop c x
    | .thread _ => stackTop c x - 8
  eip := entry
  cs := 0x08
  eflags := 0x202

/-- The history after a call that may have made a context. -/
def parkNew (c : Config) (k : Kernel) (parked : Option Context → Snapshot) : Act → Option Context → Snapshot
  | .event (.procCreate entry) =>
      match procCreate c k entry with
      | some (k', p+1) =>
          Function.update parked (some (.process (p+1))) ⟨startRegisters c (.process (p+1)) entry, k'.memory⟩
      | _ => parked
  | .event (.threadCreate fn arg) =>
      match threadCreate c k fn arg with
      | some (k', t+1) =>
          Function.update parked (some (.thread (t+1))) ⟨startRegisters c (.thread (t+1)) fn, k'.memory⟩
      | _ => parked
  | _ => parked

/-- The addresses of a stack. The stack of `kernel_main` lies outside the arrays. -/
def OnStack (c : Config) : Option Context → Nat → Prop
  | some x, a => stackBase c x ≤ a ∧ a < stackTop c x
  | none, a => ∀ y, InTable c y → ¬ (stackBase c y ≤ a ∧ a < stackTop c y)

/-- The stack pointer leaves room on the stack for an interrupt and its handler. -/
def Room (c : Config) (depth : Nat) : Option Context → Nat → Prop
  | some x, esp => stackBase c x + 44 + depth ≤ esp ∧ esp ≤ stackTop c x
  | none, esp => 44 + depth ≤ esp ∧ ∀ y, InTable c y → esp ≤ stackBase c y ∨ stackTop c y + 44 + depth ≤ esp

/-- No stack but that of `x` is written. -/
def Confined (c : Config) (x : Option Context) (before after : Nat → Nat) : Prop :=
  ∀ y, InTable c y → x ≠ some y → ∀ a, OnStack c (some y) a → after a = before a

inductive MachineAct where
  | code
  | call (a : Act)
  | irq (below : Nat → Nat)

/-- The context on the CPU computes, on its own stack and wherever there is none; it calls
the scheduler; or an interrupt comes in, of the timer or of `scheduler_yield`. -/
inductive MachineStep (c : Config) (depth : Nat) (m : Machine) : MachineAct → Machine → Prop
  | code {cpu : Registers} {memory : Nat → Nat} (room : Room c depth (onCpu m.activity.kernel) cpu.esp)
      (confined : Confined c (onCpu m.activity.kernel) m.activity.kernel.memory memory) :
      MachineStep c depth m .code
        { m with activity := ⟨withMemory m.activity.kernel memory, m.activity.yielding⟩, cpu := cpu }
  | call {a : Act} {s : Activity} (noIrq : isIrq a = false) (step : ActStep c m.activity a s) :
      MachineStep c depth m (.call a) { m with activity := s, parked := parkNew c m.activity.kernel m.parked a }
  | irq {below : Nat → Nat} {k : Kernel} {cpu : Registers}
      (stub : irq0Stub c depth m.activity.kernel m.cpu below = some (k, cpu)) :
      MachineStep c depth m (.irq below)
        ⟨⟨k, false⟩, cpu, Function.update m.parked (onCpu m.activity.kernel) ⟨m.cpu, m.activity.kernel.memory⟩⟩

/-- `kernel_main` has made the three processes and turns interrupts on. -/
structure Launched (c : Config) (depth : Nat) (m : Machine) : Prop where
  room : Room c depth none m.cpu.esp
  main : ∃ (k : Kernel) (entry : Nat → Nat), kernelMain c k (entry 1) (entry 2) (entry 3) = some m.activity.kernel ∧
    ∀ p, 1 ≤ p → p ≤ 3 →
      m.parked (some (.process p)) = ⟨startRegisters c (.process p) (entry p), m.activity.kernel.memory⟩

/-- The context on the CPU goes on as it was, on a stack that is as it was. -/
structure GoesOn (c : Config) (m : Machine) : Prop where
  cpu : m.cpu = (m.parked (onCpu m.activity.kernel)).cpu
  stack : ∀ a, OnStack c (onCpu m.activity.kernel) a → m.cpu.esp ≤ a →
    m.activity.kernel.memory a = (m.parked (onCpu m.activity.kernel)).memory a

section Frames

variable {memory memory' : Nat → Nat} {r : Registers}

theorem restore_congr {esp : Nat} (h : ∀ a, esp ≤ a → a < esp + 44 → memory' a = memory a) :
    restore memory' esp = restore memory esp := by
  simp only [restore]
  rw [h esp (by omega) (by omega), h (esp + 4) (by omega) (by omega), h (esp + 8) (by omega) (by omega),
    h (esp + 16) (by omega) (by omega), h (esp + 20) (by omega) (by omega), h (esp + 24) (by omega) (by omega),
    h (esp + 28) (by omega) (by omega), h (esp + 32) (by omega) (by omega), h (esp + 36) (by omega) (by omega),
    h (esp + 40) (by omega) (by omega)]

/-- `popad` and `iretd` undo what the interrupt and `pushad` did. -/
theorem restore_interruptFrame (memory : Nat → Nat) (hroom : 44 ≤ r.esp) :
    restore (pushWords memory r.esp (interruptFrame r)).1 (r.esp - 44) = r := by
  have hword : ∀ j, j < 11 →
      (interruptFrame r)[10 - j]? = some ((pushWords memory r.esp (interruptFrame r)).1 (r.esp - 44 + 4 * j)) := by
    intro j hj
    have hget : (interruptFrame r)[10 - j]? =
        some ((pushWords memory r.esp (interruptFrame r)).1 (r.esp - 4 * (10 - j + 1))) := pushWords_get hroom _
      (by simp only [interruptFrame, List.length_cons, List.length_nil]; omega)
    have hplace : r.esp - 4 * (10 - j + 1) = r.esp - 44 + 4 * j := by omega
    rwa [hplace] at hget
  have hesp : r.esp - 44 + 44 = r.esp := by omega
  have h0 := (Option.some.inj (hword 0 (by decide))).symm
  have h1 := (Option.some.inj (hword 1 (by decide))).symm
  have h2 := (Option.some.inj (hword 2 (by decide))).symm
  have h4 := (Option.some.inj (hword 4 (by decide))).symm
  have h5 := (Option.some.inj (hword 5 (by decide))).symm
  have h6 := (Option.some.inj (hword 6 (by decide))).symm
  have h7 := (Option.some.inj (hword 7 (by decide))).symm
  have h8 := (Option.some.inj (hword 8 (by decide))).symm
  have h9 := (Option.some.inj (hword 9 (by decide))).symm
  have h10 := (Option.some.inj (hword 10 (by decide))).symm
  exact Registers.mk.injEq .. ▸ ⟨h7, h6, h5, h4, h2, h1, h0, hesp, h8, h9, h10⟩

theorem frame_sp (memory : Nat → Nat) (r : Registers) : (pushWords memory r.esp (interruptFrame r)).2 = r.esp - 44 :=
  pushWords_sp memory r.esp (interruptFrame r)

/-- An interrupt writes only below the stack pointer. -/
theorem interrupted_outside (memory below : Nat → Nat) {depth : Nat} (hroom : 44 ≤ r.esp) {a : Nat}
    (ha : a < r.esp - 44 - depth ∨ r.esp ≤ a) : interrupted depth memory r below a = memory a := by
  have hlength : (interruptFrame r).length = 11 := rfl
  simp only [interrupted, frame_sp]
  rw [if_neg (by omega)]
  exact pushWords_frame (by omega) (by omega)

/-- The handler leaves the frame of the interrupted context alone. -/
theorem restore_interrupted (memory below : Nat → Nat) {depth : Nat} (hroom : 44 ≤ r.esp) :
    restore (interrupted depth memory r below) (r.esp - 44) = r := by
  refine Eq.trans (restore_congr fun a hlow _ => ?_) (restore_interruptFrame memory hroom)
  simp only [interrupted, frame_sp]
  exact if_neg (by omega)

end Frames

/-- A context that is not on the CPU can be put back as its history has it. -/
structure Resting (c : Config) (depth : Nat) (k : Kernel) (y : Context) (snap : Snapshot) : Prop where
  esp : espOf k y + 44 = snap.cpu.esp
  room : Room c depth (some y) snap.cpu.esp
  frame : restore k.memory (espOf k y) = snap.cpu
  stack : ∀ a, OnStack c (some y) a → snap.cpu.esp ≤ a → k.memory a = snap.memory a

section Parking

variable {c : Config} {depth : Nat} {k k' : Kernel} {x y : Context} {snap : Snapshot}

/-- Nothing on its stack changes, nor its stack pointer. -/
theorem Resting.congr (h : Resting c depth k y snap) (hesp : espOf k' y = espOf k y)
    (hstack : ∀ a, OnStack c (some y) a → k'.memory a = k.memory a) : Resting c depth k' y snap := by
  obtain ⟨hbase, htop⟩ := h.room
  have hplace := h.esp
  refine ⟨hesp ▸ h.esp, h.room, ?_, ?_⟩
  · rw [hesp]
    refine Eq.trans (restore_congr fun a hlow hhigh => ?_) h.frame
    apply hstack
    constructor
    · omega
    · omega
  · intro a ha hle
    rw [hstack a ha]
    exact h.stack a ha hle

/-- A context whose frame was just built. -/
theorem Framed.resting {entry : Nat} {vs : List Nat} (h : Framed c k k' x entry vs) (hdepth : depth + 52 ≤ 4096)
    (hvs : vs.length ≤ 2) (hesp : (startRegisters c x entry).esp = stackTop c x - 4 * vs.length) :
    Resting c depth k' x ⟨startRegisters c x entry, k'.memory⟩ := by
  have htop := stackTop_eq h.slot
  have hplace := h.esp
  refine ⟨?_, ?_, ?_, fun a _ _ => rfl⟩
  · dsimp only
    omega
  · constructor
    · dsimp only
      omega
    · dsimp only
      omega
  · rw [h.restored hvs, ← hesp]
    rfl

/-- Building a frame writes one stack. -/
theorem Framed.elsewhere {entry : Nat} {vs : List Nat} (h : Framed c k k' x entry vs) (layout : Apart c)
    (hvs : vs.length ≤ 2) (hy : InTable c y) (hne : y ≠ x) {a : Nat} (ha : OnStack c (some y) a) :
    k'.memory a = k.memory a := by
  have htop := stackTop_eq h.slot
  have hlen : (vs ++ processFrame entry).length = vs.length + 11 := by
    rw [List.length_append]
    rfl
  obtain ⟨hlow, hhigh⟩ := ha
  rw [h.memory]
  apply pushWords_frame
  · omega
  · rcases stacks_apart layout h.slot hy hne with hbelow | habove
    · omega
    · omega

theorem onStack_interrupted (layout : Apart c) {z : Option Context} {r : Registers} (hz : ∀ x, z = some x → InTable c x)
    (hroom : Room c depth z r.esp) (memory below : Nat → Nat) (hy : InTable c y) (hne : z ≠ some y) {a : Nat}
    (ha : OnStack c (some y) a) : interrupted depth memory r below a = memory a := by
  obtain ⟨hlow, hhigh⟩ := ha
  cases z with
  | none =>
      obtain ⟨hdepth, hapart⟩ := hroom
      apply interrupted_outside
      · omega
      · have := hapart y hy
        omega
  | some x =>
      obtain ⟨hbase, htop⟩ := hroom
      have hyx : y ≠ x := fun h => hne (h ▸ rfl)
      apply interrupted_outside
      · omega
      · have := stacks_apart layout (hz x rfl) hy hyx
        omega

/-- The context that was just interrupted. -/
theorem parked_interrupted {r : Registers} {memory below : Nat → Nat} (hroom : Room c depth (some x) r.esp)
    (hesp : espOf k x = r.esp - 44) (hmemory : k.memory = interrupted depth memory r below) :
    Resting c depth k x ⟨r, memory⟩ := by
  obtain ⟨hbase, htop⟩ := hroom
  refine ⟨?_, ⟨hbase, htop⟩, ?_, fun a _ hle => ?_⟩
  · dsimp only
    omega
  · rw [hesp, hmemory]
    exact restore_interrupted memory below (by omega)
  · rw [hmemory]
    exact interrupted_outside memory below (by omega) (Or.inr hle)

end Parking

/-- The run invariant: every created context that is not on the CPU is parked. -/
structure Suspended (c : Config) (depth : Nat) (m : Machine) (np nt : Nat) : Prop where
  settled : Settled c m.activity.kernel np nt
  created : ∀ x, onCpu m.activity.kernel = some x → Created np nt x
  room : Room c depth (onCpu m.activity.kernel) m.cpu.esp
  parked : ∀ y, Created np nt y → onCpu m.activity.kernel ≠ some y →
    Resting c depth m.activity.kernel y (m.parked (some y))

section Steps

variable {c : Config} {depth : Nat} {m u : Machine} {k k' : Kernel} {np nt : Nat}

theorem Settled.withMemory (h : Settled c k np nt) (memory : Nat → Nat) : Settled c (Sched.withMemory k memory) np nt :=
  ⟨h.tables.of_update rfl rfl rfl h.tables.currentProc h.tables.currentThread h.tables.runningThread
    (fun _ => ⟨rfl, rfl⟩) (fun _ _ _ => rfl) (fun _ => rfl) (fun _ _ _ => Iff.rfl), h.running⟩

theorem espOf_withMemory (k : Kernel) (memory : Nat → Nat) (y : Context) : espOf (withMemory k memory) y = espOf k y := by
  cases y <;> rfl

theorem Suspended.code (h : Suspended c depth m np nt) {cpu : Registers} {memory : Nat → Nat}
    (room : Room c depth (onCpu m.activity.kernel) cpu.esp)
    (confined : Confined c (onCpu m.activity.kernel) m.activity.kernel.memory memory) :
    Suspended c depth { m with activity := ⟨withMemory m.activity.kernel memory, m.activity.yielding⟩, cpu := cpu }
      np nt := by
  refine ⟨h.settled.withMemory memory, h.created, room, fun y hy hcpu => ?_⟩
  have hparked := h.parked y hy hcpu
  refine Resting.congr hparked (espOf_withMemory _ memory y) fun a ha => ?_
  exact confined y (hy.inTable h.settled.tables) hcpu a ha

/-- A call that makes no context. -/
theorem Alters.kept {a : Act} (h : Alters c k a k') (hproc : ∀ entry, a ≠ .event (.procCreate entry))
    (hthread : ∀ fn arg, a ≠ .event (.threadCreate fn arg)) :
    k'.memory = k.memory ∧ onCpu k' = onCpu k ∧ ∀ y, espOf k' y = espOf k y := by
  have hproc' : ∀ p, (∀ y, espOf (setProc k p (fun q => { q with state := .zombie })) y = espOf k y) := by
    intro p y
    cases y with
    | thread t => rfl
    | process q =>
        by_cases hq : q = p
        · rw [hq, espOf, setProc_self]
          rfl
        · rw [espOf, setProc_of_ne k p _ hq]
          rfl
  have hthread' : ∀ t st, (∀ y, espOf (setThread k t (fun u => { u with state := st })) y = espOf k y) := by
    intro t st y
    cases y with
    | process p => rfl
    | thread u =>
        by_cases hu : u = t
        · rw [hu, espOf, setThread_self]
          rfl
        · rw [espOf, setThread_of_ne k t _ hu]
          rfl
  cases h with
  | same => exact ⟨rfl, rfl, fun _ => rfl⟩
  | process => exact (hproc _ rfl).elim
  | thread => exact (hthread _ _ rfl).elim
  | parked => exact ⟨rfl, rfl, hthread' _ _⟩
  | woken => exact ⟨rfl, rfl, hthread' _ _⟩
  | killed => exact ⟨rfl, rfl, hproc' _⟩
  | exited => exact ⟨rfl, rfl, hproc' _⟩

theorem Settled.kept (h : Settled c k np nt) {a : Act} (halters : Alters c k a k')
    (hproc : ∀ entry, a ≠ .event (.procCreate entry)) (hthread : ∀ fn arg, a ≠ .event (.threadCreate fn arg)) :
    Settled c k' np nt := by
  cases halters with
  | same => exact h
  | process => exact (hproc _ rfl).elim
  | thread => exact (hthread _ _ rfl).elim
  | killed => exact h.setZombie _
  | exited => exact h.setZombie _
  | parked on parks =>
      have hused := h.tables.usedThread k.currentThread (Nat.pos_of_ne_zero on) h.tables.runningThread
      rcases parks with rfl | rfl
      · apply h.setThreadState
        · decide
        · exact fun _ _ => iff_of_false (by decide) hused
      · apply h.setThreadState
        · decide
        · exact fun _ _ => iff_of_false (by decide) hused
  | woken nonnull blocked =>
      apply h.setThreadState
      · decide
      · exact fun _ _ => iff_of_false (by decide) (by rw [blocked]; decide)

theorem parkNew_other {a : Act} (parked : Option Context → Snapshot) (hproc : ∀ entry, a ≠ .event (.procCreate entry))
    (hthread : ∀ fn arg, a ≠ .event (.threadCreate fn arg)) : parkNew c k parked a = parked := by
  cases a with
  | procExit => rfl
  | event e =>
      cases e with
      | procCreate entry => exact (hproc entry rfl).elim
      | threadCreate fn arg => exact (hthread fn arg rfl).elim
      | _ => rfl

/-- One more context, with the frame that was built for it. -/
theorem Suspended.made (h : Suspended c depth m np nt) (layout : Apart c) (hdepth : depth + 52 ≤ 4096)
    {np' nt' : Nat} {x : Context} {entry : Nat} {vs : List Nat} {yielding : Bool}
    (hsettled : Settled c k' np' nt') (hcpu : onCpu k' = onCpu m.activity.kernel)
    (hframed : Framed c m.activity.kernel k' x entry vs) (hvs : vs.length ≤ 2)
    (hstart : (startRegisters c x entry).esp = stackTop c x - 4 * vs.length)
    (hcreated : ∀ y, Created np' nt' y ↔ y = x ∨ Created np nt y)
    (hesp : ∀ y, y ≠ x → espOf k' y = espOf m.activity.kernel y) :
    Suspended c depth { m with
      activity := ⟨k', yielding⟩
      parked := Function.update m.parked (some x) ⟨startRegisters c x entry, k'.memory⟩ } np' nt' := by
  refine ⟨hsettled, ?_, ?_, ?_⟩
  · intro y hy
    exact (hcreated y).mpr (Or.inr (h.created y (hcpu ▸ hy)))
  · dsimp only
    rw [hcpu]
    exact h.room
  · intro y hy hout
    by_cases hyx : y = x
    · subst y
      dsimp only
      rw [Function.update_self]
      exact hframed.resting hdepth hvs hstart
    · have hold := ((hcreated y).mp hy).resolve_left hyx
      have hsome : some y ≠ some x := fun heq => hyx (Option.some.inj heq)
      dsimp only
      rw [Function.update_of_ne hsome]
      apply (h.parked y hold (hcpu ▸ hout)).congr (hesp y hyx)
      intro a ha
      exact hframed.elsewhere layout hvs (hold.inTable h.settled.tables) hyx ha

/-- A call that leaves the stacks and the saved stack pointers alone. -/
theorem Suspended.kept (h : Suspended c depth m np nt) {np' nt' : Nat} {yielding : Bool}
    (hsettled : Settled c k' np' nt') (hmemory : k'.memory = m.activity.kernel.memory)
    (hcpu : onCpu k' = onCpu m.activity.kernel) (hesp : ∀ y, espOf k' y = espOf m.activity.kernel y)
    (hcreated : ∀ y, Created np' nt' y ↔ Created np nt y) :
    Suspended c depth { m with activity := ⟨k', yielding⟩ } np' nt' := by
  refine ⟨hsettled, ?_, ?_, ?_⟩
  · intro y hy
    exact (hcreated y).mpr (h.created y (hcpu ▸ hy))
  · dsimp only
    rw [hcpu]
    exact h.room
  · intro y hy hout
    have hold := (hcreated y).mp hy
    apply (h.parked y hold (hcpu ▸ hout)).congr (hesp y)
    intro a _
    exact congrFun hmemory a

/-- The tables tell how many contexts there are. -/
theorem Tables.unique (h : Tables c k np nt) {np' nt' : Nat} (h' : Tables c k np' nt') : np' = np ∧ nt' = nt := by
  have hle : ∀ {np nt np' nt'}, Tables c k np nt → Tables c k np' nt' → nt' ≤ nt := by
    intro np nt np' nt' h h'
    by_contra hlt
    have hcount := h'.threadCount
    apply h'.usedThread (nt + 1)
    · omega
    · omega
    · apply h.freeThread
      · omega
      · omega
  constructor
  · have := h.nextPid.symm.trans h'.nextPid
    omega
  · exact Nat.le_antisymm (hle h h') (hle h' h)

theorem Settled.same (h : Settled c k np nt) {a : Act} (halters : Alters c k a k') {np' nt' : Nat}
    (htables : Tables c k' np' nt') : Settled c k' np' nt' := by
  obtain ⟨n, t, _, _, hsettled⟩ := h.alters halters
  obtain ⟨rfl, rfl⟩ := htables.unique hsettled.tables
  exact hsettled

theorem Tables.procCreate_slot (h : Tables c k np nt) (entry : Nat) :
    (∃ k', procCreate c k entry = some (k', np + 1) ∧ np < 16) ∨ procCreate c k entry = some (k, 0) := by
  by_cases hlt : np < 16
  · obtain ⟨k', hcreate, _⟩ := h.procCreate_spec hlt entry
    exact Or.inl ⟨k', hcreate, hlt⟩
  · exact Or.inr (h.procCreate_full hlt entry)

theorem Tables.threadCreate_slot (h : Tables c k np nt) (fn arg : Nat) :
    (∃ k', threadCreate c k fn arg = some (k', nt + 1) ∧ fn ≠ 0 ∧ nt < c.maxThreads) ∨
      threadCreate c k fn arg = some (k, 0) := by
  by_cases hfn : fn = 0
  · exact Or.inr (h.threadCreate_refused (Or.inl hfn) arg)
  by_cases hlt : nt < c.maxThreads
  · obtain ⟨k', hcreate, _⟩ := h.threadCreate_spec hlt hfn arg
    exact Or.inl ⟨k', hcreate, hfn, hlt⟩
  · exact Or.inr (h.threadCreate_refused (Or.inr hlt) arg)

theorem actStep_call {s t : Activity} {a : Act} (step : ActStep c s a t) (noIrq : isIrq a = false) :
    ∃ k', change c s.kernel a = some k' ∧ Alters c s.kernel a k' ∧ t = ⟨k', yields s.kernel a⟩ := by
  unfold ActStep actStep at step
  split at step
  · cases step
  · obtain ⟨k', hchange, rfl⟩ := Option.map_eq_some_iff.mp step
    exact ⟨k', hchange, alters_of_change hchange noIrq, rfl⟩

/-- `proc_create` with a free slot. -/
theorem Suspended.process (h : Suspended c depth m np nt) (layout : Apart c) (hdepth : depth + 52 ≤ 4096)
    (hlt : np < 16) {entry p : Nat} (hcreate : procCreate c m.activity.kernel entry = some (k', p)) (yielding : Bool) :
    p = np + 1 ∧ Suspended c depth { m with
      activity := ⟨k', yielding⟩
      parked := Function.update m.parked (some (.process (np + 1)))
        ⟨startRegisters c (.process (np + 1)) entry, k'.memory⟩ } (np + 1) nt := by
  have hchange : change c m.activity.kernel (.event (.procCreate entry)) = some k' := by
    simp only [change, Sched.step, hcreate, Option.map_some]
  obtain ⟨k₁, hcreate', htables, _, _, hold, hframe⟩ := h.settled.tables.procCreate_spec hlt entry
  obtain ⟨rfl, rfl⟩ := Prod.mk.inj (Option.some.inj (hcreate'.symm.trans hcreate))
  refine ⟨rfl, h.made layout hdepth (h.settled.same (alters_of_change hchange rfl) htables) ?_
    (procCreate_framed hcreate (Nat.succ_ne_zero np)) (Nat.zero_le 2) rfl ?_ ?_⟩
  · rw [hframe]
    rfl
  · intro y
    cases y with
    | thread t => exact ⟨Or.inr, fun hy => hy.resolve_left (by simp)⟩
    | process p =>
        simp only [Created, Context.process.injEq]
        omega
  · intro y hy
    cases y with
    | thread t =>
        rw [hframe]
        rfl
    | process p =>
        have hp : p ≠ np + 1 := fun hp => hy (hp ▸ rfl)
        rw [espOf, hold p hp]
        rfl

theorem Suspended.procCreate (h : Suspended c depth m np nt) (layout : Apart c) (hdepth : depth + 52 ≤ 4096)
    {entry : Nat} {s : Activity} (step : ActStep c m.activity (.event (.procCreate entry)) s) :
    ∃ np' nt', np ≤ np' ∧ nt ≤ nt' ∧ Suspended c depth { m with
      activity := s, parked := parkNew c m.activity.kernel m.parked (.event (.procCreate entry)) } np' nt' := by
  obtain ⟨k', hchange, _, rfl⟩ := actStep_call step rfl
  rcases h.settled.tables.procCreate_slot entry with ⟨k₁, hcreate, hlt⟩ | hcreate
  · have hk' : k₁ = k' := by simpa [change, Sched.step, hcreate] using hchange
    subst k₁
    have hpark : parkNew c m.activity.kernel m.parked (.event (.procCreate entry)) =
        Function.update m.parked (some (.process (np + 1))) ⟨startRegisters c (.process (np + 1)) entry, k'.memory⟩ := by
      simp only [parkNew, hcreate]
    rw [hpark]
    exact ⟨np + 1, nt, Nat.le_succ np, Nat.le_refl nt, (h.process layout hdepth hlt hcreate _).2⟩
  · have hk' : m.activity.kernel = k' := by simpa [change, Sched.step, hcreate] using hchange
    have hpark : parkNew c m.activity.kernel m.parked (.event (.procCreate entry)) = m.parked := by
      simp only [parkNew, hcreate]
    rw [hpark, ← hk']
    exact ⟨np, nt, Nat.le_refl np, Nat.le_refl nt, h.kept h.settled rfl rfl (fun _ => rfl) (fun _ => Iff.rfl)⟩

theorem Suspended.threadCreate (h : Suspended c depth m np nt) (layout : Apart c) (hdepth : depth + 52 ≤ 4096)
    {fn arg : Nat} {s : Activity} (step : ActStep c m.activity (.event (.threadCreate fn arg)) s) :
    ∃ np' nt', np ≤ np' ∧ nt ≤ nt' ∧ Suspended c depth { m with
      activity := s, parked := parkNew c m.activity.kernel m.parked (.event (.threadCreate fn arg)) } np' nt' := by
  obtain ⟨k', hchange, halters, rfl⟩ := actStep_call step rfl
  rcases h.settled.tables.threadCreate_slot fn arg with ⟨k₁, hcreate, hfn, hlt⟩ | hcreate
  · have hk' : k₁ = k' := by simpa [change, Sched.step, hcreate] using hchange
    subst k₁
    have hpark : parkNew c m.activity.kernel m.parked (.event (.threadCreate fn arg)) =
        Function.update m.parked (some (.thread (nt + 1))) ⟨startRegisters c (.thread (nt + 1)) fn, k'.memory⟩ := by
      simp only [parkNew, hcreate]
    rw [hpark]
    obtain ⟨k₁, hcreate', htables, _, _, _, _, hold, hframe⟩ := h.settled.tables.threadCreate_spec hlt hfn arg
    obtain ⟨rfl, _⟩ := Prod.mk.inj (Option.some.inj (hcreate.symm.trans hcreate'))
    refine ⟨np, nt + 1, Nat.le_refl np, Nat.le_succ nt, h.made layout hdepth (h.settled.same halters htables) ?_
      (threadCreate_framed hcreate (Nat.succ_ne_zero nt)) (Nat.le_refl 2) rfl ?_ ?_⟩
    · rw [hframe]
      rfl
    · intro y
      cases y with
      | process p => exact ⟨Or.inr, fun hy => hy.resolve_left (by simp)⟩
      | thread t =>
          simp only [Created, Context.thread.injEq]
          omega
    · intro y hy
      cases y with
      | process p =>
          rw [hframe]
          rfl
      | thread t =>
          have ht : t ≠ nt + 1 := fun ht => hy (ht ▸ rfl)
          rw [espOf, hold t ht]
          rfl
  · have hk' : m.activity.kernel = k' := by simpa [change, Sched.step, hcreate] using hchange
    have hpark : parkNew c m.activity.kernel m.parked (.event (.threadCreate fn arg)) = m.parked := by
      simp only [parkNew, hcreate]
    rw [hpark, ← hk']
    exact ⟨np, nt, Nat.le_refl np, Nat.le_refl nt, h.kept h.settled rfl rfl (fun _ => rfl) (fun _ => Iff.rfl)⟩

theorem Suspended.call (h : Suspended c depth m np nt) (layout : Apart c) (hdepth : depth + 52 ≤ 4096) {a : Act}
    {s : Activity} (noIrq : isIrq a = false) (step : ActStep c m.activity a s) :
    ∃ np' nt', np ≤ np' ∧ nt ≤ nt' ∧
      Suspended c depth { m with activity := s, parked := parkNew c m.activity.kernel m.parked a } np' nt' := by
  by_cases hproc : ∃ entry, a = .event (.procCreate entry)
  · obtain ⟨entry, rfl⟩ := hproc
    exact h.procCreate layout hdepth step
  by_cases hthread : ∃ fn arg, a = .event (.threadCreate fn arg)
  · obtain ⟨fn, arg, rfl⟩ := hthread
    exact h.threadCreate layout hdepth step
  obtain ⟨k', _, halters, rfl⟩ := actStep_call step noIrq
  have hother : ∀ entry, a ≠ .event (.procCreate entry) := fun entry ha => hproc ⟨entry, ha⟩
  have hother' : ∀ fn arg, a ≠ .event (.threadCreate fn arg) := fun fn arg ha => hthread ⟨fn, arg, ha⟩
  obtain ⟨hmemory, hcpu, hesp⟩ := halters.kept hother hother'
  rw [parkNew_other m.parked hother hother']
  exact ⟨np, nt, Nat.le_refl np, Nat.le_refl nt,
    h.kept (h.settled.kept halters hother hother') hmemory hcpu hesp (fun _ => Iff.rfl)⟩

/-- Once the handler has saved, every context is parked, the interrupted one too. -/
theorem Suspended.saved (h : Suspended c depth m np nt) (layout : Apart c) (below : Nat → Nat) {y : Context}
    (hy : Created np nt y) :
    Resting c depth (savedKernel (withMemory m.activity.kernel (interrupted depth m.activity.kernel.memory m.cpu below))
      (m.cpu.esp - 44)) y
      (Function.update m.parked (onCpu m.activity.kernel) ⟨m.cpu, m.activity.kernel.memory⟩ (some y)) := by
  have hslot := slot_pos hy
  have hmemory : (savedKernel (withMemory m.activity.kernel (interrupted depth m.activity.kernel.memory m.cpu below))
      (m.cpu.esp - 44)).memory = interrupted depth m.activity.kernel.memory m.cpu below := by
    rw [savedKernel_frame]
    rfl
  by_cases hcpu : onCpu m.activity.kernel = some y
  · rw [hcpu, Function.update_self]
    have hroom : Room c depth (some y) m.cpu.esp := hcpu ▸ h.room
    refine parked_interrupted hroom ?_ hmemory
    cases y with
    | process p =>
        rw [espOf, savedKernel_proc, if_pos ⟨hslot, hcpu⟩]
        rfl
    | thread t =>
        rw [espOf, savedKernel_thread, if_pos ⟨hslot, hcpu⟩]
        rfl
  · rw [Function.update_of_ne (Ne.symm hcpu)]
    apply (h.parked y hy hcpu).congr
    · cases y with
      | process p =>
          rw [espOf, savedKernel_proc, if_neg (fun hp => hcpu hp.2)]
          rfl
      | thread t =>
          rw [espOf, savedKernel_thread, if_neg (fun ht => hcpu ht.2)]
          rfl
    · intro a ha
      rw [hmemory]
      exact onStack_interrupted layout (fun x hx => (h.created x hx).inTable h.settled.tables) h.room _ _
        (hy.inTable h.settled.tables) hcpu ha

theorem Room.frame {z : Option Context} {esp : Nat} (h : Room c depth z esp) : 44 ≤ esp := by
  cases z with
  | none =>
      have := h.1
      omega
  | some x =>
      have := h.1
      omega

theorem onCpu_saved (k : Kernel) (savedEsp : Nat) : onCpu (savedKernel k savedEsp) = onCpu k := by
  rw [savedKernel_frame]
  rfl

theorem resume_memory (k : Kernel) (x : Context) : (resume k x).1.memory = k.memory := by
  cases x <;> rfl

/-- The chosen context gets the CPU; the others stay as they are. -/
theorem Suspended.resumed {parked : Option Context → Snapshot} {x : Context} (hx : Created np nt x)
    (hsettled : Settled c (resume (togglePreference k) x).1 np nt)
    (hparked : ∀ y, Created np nt y → Resting c depth k y (parked (some y))) :
    Suspended c depth ⟨⟨(resume (togglePreference k) x).1, false⟩,
        restore (resume (togglePreference k) x).1.memory (resume (togglePreference k) x).2, parked⟩ np nt ∧
      GoesOn c ⟨⟨(resume (togglePreference k) x).1, false⟩,
        restore (resume (togglePreference k) x).1.memory (resume (togglePreference k) x).2, parked⟩ := by
  have hmemory : (resume (togglePreference k) x).1.memory = k.memory := resume_memory _ x
  have hcpu : restore (resume (togglePreference k) x).1.memory (resume (togglePreference k) x).2 =
      (parked (some x)).cpu := by
    rw [hmemory, resume_esp]
    exact (hparked x hx).frame
  rw [hcpu]
  have hon : onCpu (resume (togglePreference k) x).1 = some x := resume_onCpu _ x
  constructor
  · refine ⟨hsettled, ?_, ?_, ?_⟩
    · intro y hy
      cases hon.symm.trans hy
      exact hx
    · dsimp only
      rw [hon]
      exact (hparked x hx).room
    · intro y hy _
      apply (hparked y hy).congr
      · exact resume_espOf _ x y
      · intro a _
        exact congrFun hmemory a
  · constructor
    · dsimp only
      rw [hon]
    · intro a ha hle
      dsimp only at ha hle ⊢
      rw [hon] at ha ⊢
      rw [hmemory]
      exact (hparked x hx).stack a ha hle

/-- An interrupt is always possible, whatever it finds, and hands the CPU to a context
that goes on as it was. -/
theorem Suspended.irq (h : Suspended c depth m np nt) (layout : Apart c) (below : Nat → Nat) :
    ∃ k cpu, irq0Stub c depth m.activity.kernel m.cpu below = some (k, cpu) ∧
      Suspended c depth ⟨⟨k, false⟩, cpu,
        Function.update m.parked (onCpu m.activity.kernel) ⟨m.cpu, m.activity.kernel.memory⟩⟩ np nt ∧
      GoesOn c ⟨⟨k, false⟩, cpu,
        Function.update m.parked (onCpu m.activity.kernel) ⟨m.cpu, m.activity.kernel.memory⟩⟩ := by
  have hsettled := h.settled.withMemory (interrupted depth m.activity.kernel.memory m.cpu below)
  rcases hsettled.irq_cases (m.cpu.esp - 44) with ⟨x, hx, _, _, heq, hafter⟩ | ⟨_, heq, hafter⟩
  · refine ⟨_, _, ?_, Suspended.resumed hx hafter fun y hy => h.saved layout below hy⟩
    rw [irq0Stub, heq]
    rfl
  · have hcpu : restore (interrupted depth m.activity.kernel.memory m.cpu below) (m.cpu.esp - 44) = m.cpu :=
      restore_interrupted _ below h.room.frame
    have hmemory : (togglePreference (savedKernel (withMemory m.activity.kernel
        (interrupted depth m.activity.kernel.memory m.cpu below)) (m.cpu.esp - 44))).memory =
          interrupted depth m.activity.kernel.memory m.cpu below := by
      rw [togglePreference, savedKernel_frame]
      rfl
    have hon : onCpu (togglePreference (savedKernel (withMemory m.activity.kernel
        (interrupted depth m.activity.kernel.memory m.cpu below)) (m.cpu.esp - 44))) = onCpu m.activity.kernel :=
      onCpu_saved _ _
    refine ⟨togglePreference (savedKernel (withMemory m.activity.kernel
      (interrupted depth m.activity.kernel.memory m.cpu below)) (m.cpu.esp - 44)), m.cpu, ?_,
      ⟨hafter, ?_, ?_, ?_⟩, ⟨?_, ?_⟩⟩
    · rw [irq0Stub, heq, Option.map_some, hmemory, hcpu]
    · intro y hy
      exact h.created y (hon ▸ hy)
    · dsimp only
      rw [hon]
      exact h.room
    · intro y hy _
      apply (h.saved layout below hy).congr
      · cases y <;> rfl
      · exact fun _ _ => rfl
    · dsimp only
      rw [hon, Function.update_self]
    · intro a _ hle
      dsimp only at hle ⊢
      rw [hon, Function.update_self, hmemory]
      exact interrupted_outside _ below h.room.frame (Or.inr hle)

theorem Suspended.goesOn (h : Suspended c depth m np nt) (layout : Apart c) {below : Nat → Nat}
    (step : MachineStep c depth m (.irq below) u) : Suspended c depth u np nt ∧ GoesOn c u := by
  cases step with
  | irq stub =>
      obtain ⟨k', cpu', hstub, hgoesOn⟩ := h.irq layout below
      obtain ⟨rfl, rfl⟩ := Prod.mk.inj (Option.some.inj (hstub.symm.trans stub))
      exact hgoesOn

/-- What one step preserves. -/
theorem Suspended.step (h : Suspended c depth m np nt) (layout : Apart c) (hdepth : depth + 52 ≤ 4096)
    {a : MachineAct} (step : MachineStep c depth m a u) :
    ∃ np' nt', np ≤ np' ∧ nt ≤ nt' ∧ Suspended c depth u np' nt' := by
  cases step with
  | code room confined => exact ⟨np, nt, Nat.le_refl np, Nat.le_refl nt, h.code room confined⟩
  | call noIrq step => exact h.call layout hdepth noIrq step
  | irq stub => exact ⟨np, nt, Nat.le_refl np, Nat.le_refl nt, (h.goesOn layout (.irq stub)).1⟩

/-- A new context takes a slot that no other has. -/
theorem Settled.parkNew_created (h : Settled c k np nt) (parked : Option Context → Snapshot) (a : Act) {x : Context}
    (hx : Created np nt x) : parkNew c k parked a (some x) = parked (some x) := by
  by_cases hproc : ∃ entry, a = .event (.procCreate entry)
  · obtain ⟨entry, rfl⟩ := hproc
    rcases h.tables.procCreate_slot entry with ⟨k', hcreate, _⟩ | hcreate
    · simp only [parkNew, hcreate]
      apply Function.update_of_ne
      intro hxp
      obtain rfl := Option.some.inj hxp
      exact Nat.not_succ_le_self np hx.2
    · simp only [parkNew, hcreate]
  by_cases hthread : ∃ fn arg, a = .event (.threadCreate fn arg)
  · obtain ⟨fn, arg, rfl⟩ := hthread
    rcases h.tables.threadCreate_slot fn arg with ⟨k', hcreate, _⟩ | hcreate
    · simp only [parkNew, hcreate]
      apply Function.update_of_ne
      intro hxt
      obtain rfl := Option.some.inj hxt
      exact Nat.not_succ_le_self nt hx.2
    · simp only [parkNew, hcreate]
  rw [parkNew_other parked (fun entry ha => hproc ⟨entry, ha⟩) (fun fn arg ha => hthread ⟨fn, arg, ha⟩)]

/-- Only the interrupt changes what is on the CPU. -/
theorem Settled.alters_onCpu (h : Settled c k np nt) {a : Act} (halters : Alters c k a k') : onCpu k' = onCpu k := by
  cases halters with
  | process free created =>
      rw [(h.tables.process_created free created).2.2.2]
      rfl
  | thread given free created =>
      rw [(h.tables.thread_created given free created).2.2.2.2]
      rfl
  | _ => rfl

end Steps

section Launching

variable {c : Config} {depth : Nat} {m : Machine} {k k' : Kernel}

/-- What a context has that has not run since. -/
theorem Resting.refresh {y : Context} {snap : Snapshot} (h : Resting c depth k y snap) :
    Resting c depth k y ⟨snap.cpu, k.memory⟩ :=
  ⟨h.esp, h.room, h.frame, fun _ _ _ => rfl⟩

/-- The frames of the three processes do not touch each other. -/
theorem Launched.suspended (h : Launched c depth m) (layout : Apart c) (hdepth : depth + 52 ≤ 4096) :
    Suspended c depth m 3 0 := by
  obtain ⟨k, entry, hmain, hparked⟩ := h.main
  have h0 : Suspended c depth ⟨⟨schedulerInit (threadInit c (procInit k)), false⟩, m.cpu, m.parked⟩ 0 0 := by
    refine ⟨⟨schedulerInit_tables c k, ?_⟩, nofun, h.room, ?_⟩
    · intro x hx
      cases x with
      | process p => exact absurd (hx.1.trans hx.2) (Nat.not_succ_le_zero 0)
      | thread t => exact absurd (hx.1.trans hx.2) (Nat.not_succ_le_zero 0)
    · intro x hx
      cases x with
      | process p => exact absurd (hx.1.trans hx.2) (Nat.not_succ_le_zero 0)
      | thread t => exact absurd (hx.1.trans hx.2) (Nat.not_succ_le_zero 0)
  unfold kernelMain at hmain
  split at hmain
  · cases hmain
  rename_i k₁ p₁ hcreate₁
  split at hmain
  · cases hmain
  rename_i k₂ p₂ hcreate₂
  split at hmain
  · cases hmain
  rename_i k₃ p₃ hcreate₃
  have h1 := (h0.process layout hdepth (by decide) hcreate₁ false).2
  have h2 := (h1.process layout hdepth (by decide) hcreate₂ false).2
  have h3 := (h2.process layout hdepth (by decide) hcreate₃ false).2
  obtain rfl : k₃ = m.activity.kernel := Option.some.inj hmain
  have hnone : onCpu m.activity.kernel = none := by
    obtain ⟨k', hmain', _, hnone, _⟩ := kernelMain_spec c k (entry 1) (entry 2) (entry 3)
    simp only [kernelMain, hcreate₁, hcreate₂, hcreate₃, Option.some.injEq] at hmain'
    exact hmain' ▸ hnone
  refine ⟨h3.settled, h3.created, ?_, ?_⟩
  · rw [hnone]
    exact h.room
  · intro y hy hout
    have hparked₃ := (h3.parked y hy hout).refresh
    cases y with
    | thread t => exact absurd (hy.1.trans hy.2) (Nat.not_succ_le_zero 0)
    | process p =>
        rw [hparked p hy.1 hy.2]
        have hp : p = 1 ∨ p = 2 ∨ p = 3 := by
          have := hy.1
          have := hy.2
          omega
        rcases hp with rfl | rfl | rfl
        · exact hparked₃
        · exact hparked₃
        · exact hparked₃

theorem run_suspended {u : Machine} {acts : List MachineAct} (layout : Apart c) (hdepth : depth + 52 ≤ 4096)
    (h : Launched c depth m) (run : Run (MachineStep c depth) m acts u) : ∃ np nt, Suspended c depth u np nt := by
  refine run.invariant (I := fun m => ∃ np nt, Suspended c depth m np nt) ?_ ⟨3, 0, h.suspended layout hdepth⟩
  intro s a t hs step
  obtain ⟨np, nt, hs⟩ := hs
  obtain ⟨np', nt', _, _, ht⟩ := hs.step layout hdepth step
  exact ⟨np', nt', ht⟩

/-- While the context is off the CPU, its history stays. -/
structure Waits (c : Config) (depth : Nat) (x : Context) (snap : Snapshot) (m : Machine) (np nt : Nat) : Prop where
  suspended : Suspended c depth m np nt
  created : Created np nt x
  history : m.parked (some x) = snap
  back : onCpu m.activity.kernel = some x → GoesOn c m

theorem Waits.step {x : Context} {snap : Snapshot} {u : Machine} {a : MachineAct} {np nt : Nat} (layout : Apart c)
    (hdepth : depth + 52 ≤ 4096) (h : Waits c depth x snap m np nt) (off : onCpu m.activity.kernel ≠ some x)
    (step : MachineStep c depth m a u) : ∃ np' nt', Waits c depth x snap u np' nt' := by
  obtain ⟨np', nt', hnp, hnt, hsuspended⟩ := h.suspended.step layout hdepth step
  refine ⟨np', nt', hsuspended, h.created.mono hnp hnt, ?_, ?_⟩
  · cases step with
    | code room confined => exact h.history
    | call noIrq step => exact (h.suspended.settled.parkNew_created m.parked _ h.created).trans h.history
    | irq stub => exact (Function.update_of_ne (Ne.symm off) _ _).trans h.history
  · intro hon
    cases step with
    | code room confined => exact (off hon).elim
    | call noIrq step =>
        obtain ⟨k', _, halters, rfl⟩ := actStep_call step noIrq
        exact (off ((h.suspended.settled.alters_onCpu halters).symm.trans hon)).elim
    | irq stub => exact (h.suspended.goesOn layout (.irq stub)).2

/-- A context loses the CPU, or is made; what it has then. -/
inductive Departs (c : Config) (m : Machine) : MachineAct → Machine → Context → Snapshot → Prop
  | interrupted {below : Nat → Nat} {u : Machine} {x : Context} (on : onCpu m.activity.kernel = some x) :
      Departs c m (.irq below) u x ⟨m.cpu, m.activity.kernel.memory⟩
  | process {entry p : Nat} {u : Machine} (made : procCreate c m.activity.kernel entry = some (u.activity.kernel, p + 1)) :
      Departs c m (.call (.event (.procCreate entry))) u (.process (p + 1))
        ⟨startRegisters c (.process (p + 1)) entry, u.activity.kernel.memory⟩
  | thread {fn arg t : Nat} {u : Machine}
      (made : threadCreate c m.activity.kernel fn arg = some (u.activity.kernel, t + 1)) :
      Departs c m (.call (.event (.threadCreate fn arg))) u (.thread (t + 1))
        ⟨startRegisters c (.thread (t + 1)) fn, u.activity.kernel.memory⟩

theorem Departs.waits {x : Context} {snap : Snapshot} {u : Machine} {a : MachineAct} {np nt : Nat} (layout : Apart c)
    (hdepth : depth + 52 ≤ 4096) (h : Suspended c depth m np nt) (step : MachineStep c depth m a u)
    (departs : Departs c m a u x snap) : ∃ np' nt', Waits c depth x snap u np' nt' := by
  obtain ⟨np', nt', hnp, hnt, hsuspended⟩ := h.step layout hdepth step
  cases departs with
  | interrupted on =>
      refine ⟨np', nt', hsuspended, (h.created x on).mono hnp hnt, ?_, fun _ => (h.goesOn layout step).2⟩
      cases step
      dsimp only
      rw [on, Function.update_self]
  | @process entry p _ made =>
      cases step with
      | call noIrq step =>
          obtain ⟨k', _, halters, rfl⟩ := actStep_call step noIrq
          rcases h.settled.tables.procCreate_slot entry with ⟨_, hcreate, hlt⟩ | hcreate
          · obtain rfl := Nat.succ.inj (Prod.mk.inj (Option.some.inj (made.symm.trans hcreate))).2
            obtain ⟨hsame, _⟩ := (h.process layout hdepth hlt made false).2.settled.tables.unique hsuspended.settled.tables
            refine ⟨np', nt', hsuspended, ⟨Nat.le_add_left 1 p, hsame.ge⟩, ?_, fun hon => ?_⟩
            · simp only [parkNew, made, Function.update_self]
            · have hold := h.created _ ((h.settled.alters_onCpu halters).symm.trans hon)
              exact (Nat.not_succ_le_self p hold.2).elim
          · cases made.symm.trans hcreate
  | @thread fn arg t _ made =>
      cases step with
      | call noIrq step =>
          obtain ⟨k', _, halters, rfl⟩ := actStep_call step noIrq
          rcases h.settled.tables.threadCreate_slot fn arg with ⟨_, hcreate, hfn, hlt⟩ | hcreate
          · obtain rfl := Nat.succ.inj (Prod.mk.inj (Option.some.inj (made.symm.trans hcreate))).2
            obtain ⟨_, hmade, htables, _⟩ := h.settled.tables.threadCreate_spec hlt hfn arg
            obtain ⟨rfl, _⟩ := Prod.mk.inj (Option.some.inj (made.symm.trans hmade))
            obtain ⟨_, hsame⟩ := htables.unique hsuspended.settled.tables
            refine ⟨np', nt', hsuspended, ⟨Nat.le_add_left 1 t, hsame.ge⟩, ?_, fun hon => ?_⟩
            · simp only [parkNew, made, Function.update_self]
            · have hold := h.created _ ((h.settled.alters_onCpu halters).symm.trans hon)
              exact (Nat.not_succ_le_self t hold.2).elim
          · cases made.symm.trans hcreate

/-- Whatever runs in between, a context gets the CPU back with the registers and the stack
that it had when it was made or interrupted; and an interrupt can come at any moment. -/
theorem run_unnoticed {u v : Machine} {x : Context} {snap : Snapshot} {a : MachineAct}
    {acts others : List MachineAct} (layout : Apart c) (hdepth : depth + 52 ≤ 4096) (h : Launched c depth m)
    (run : Run (MachineStep c depth) m acts u) {w : Machine} (step : MachineStep c depth u a w)
    (departs : Departs c u a w x snap)
    (meanwhile : Run (When (fun s _ => onCpu s.activity.kernel ≠ some x) (MachineStep c depth)) w others v) :
    (onCpu v.activity.kernel = some x → v.cpu = snap.cpu ∧
      ∀ b, OnStack c (some x) b → snap.cpu.esp ≤ b → v.activity.kernel.memory b = snap.memory b) ∧
    ∀ below, ∃ s, MachineStep c depth v (.irq below) s := by
  obtain ⟨np, nt, hsuspended⟩ := run_suspended layout hdepth h run
  have hwaits : ∃ np nt, Waits c depth x snap v np nt := by
    refine meanwhile.invariant (I := fun s => ∃ np nt, Waits c depth x snap s np nt) ?_
      (departs.waits layout hdepth hsuspended step)
    intro s b t hs hstep
    obtain ⟨np, nt, hs⟩ := hs
    exact hs.step layout hdepth hstep.1 hstep.2
  obtain ⟨np, nt, hwaits⟩ := hwaits
  constructor
  · intro hon
    obtain ⟨hcpu, hstack⟩ := hwaits.back hon
    rw [hon, hwaits.history] at hcpu hstack
    rw [hcpu] at hstack
    exact ⟨hcpu, hstack⟩
  · intro below
    obtain ⟨k, cpu, hstub, _⟩ := hwaits.suspended.irq layout below
    exact ⟨_, .irq hstub⟩

end Launching

def sampleRegisters : Registers := ⟨1, 2, 3, 4, 5, 6, 7, 0x9000, 0x8100, 0x08, 0x202⟩

/-- `kernel_main` when it turns interrupts on. -/
def sampleMachine : Machine where
  activity := ⟨sampleSession.kernel, false⟩
  cpu := sampleRegisters
  parked
    | some (.process p) => ⟨startRegisters sampleConfig (.process p) (0x10000 + 0x100 * p), sampleSession.kernel.memory⟩
    | _ => ⟨sampleRegisters, sampleSession.kernel.memory⟩

theorem sampleMachine_launched : Launched sampleConfig 1000 sampleMachine := by
  have hstack : ∀ y, InTable sampleConfig y → 0x20000 ≤ stackBase sampleConfig y := by
    intro y _
    cases y with
    | process p => exact Nat.le_add_right 0x20000 _
    | thread t => exact Nat.le_trans (by decide) (Nat.le_add_right 0x30000 _)
  refine ⟨⟨by decide, fun y hy => Or.inl (Nat.le_trans (by decide) (hstack y hy))⟩, blankKernel,
    fun p => 0x10000 + 0x100 * p, ?_, fun p _ _ => rfl⟩
  exact (Option.some_get sampleKernel_isSome).symm

/-- The first interrupt starts the shell, which makes a thread; the second starts the thread. -/
theorem run_unnoticed_sample :
    ∃ u v : Machine, Run (MachineStep sampleConfig 1000) sampleMachine
        [.irq (fun _ => 0), .call (.event (.threadCreate 0x10400 7)), .irq (fun _ => 1)] v ∧
      onCpu v.activity.kernel = some (.thread 1) ∧ v.cpu = startRegisters sampleConfig (.thread 1) 0x10400 ∧
      ∀ b, OnStack sampleConfig (some (.thread 1)) b → (startRegisters sampleConfig (.thread 1) 0x10400).esp ≤ b →
        v.activity.kernel.memory b = u.activity.kernel.memory b := by
  have hmade : ((irq0Stub sampleConfig 1000 sampleSession.kernel sampleRegisters (fun _ => 0)).bind (fun r =>
      threadCreate sampleConfig r.1 0x10400 7)).map Prod.snd = some 1 := by
    decide +kernel
  have hruns : ((irq0Stub sampleConfig 1000 sampleSession.kernel sampleRegisters (fun _ => 0)).bind (fun r =>
      (actStep sampleConfig ⟨r.1, false⟩ (.event (.threadCreate 0x10400 7))).bind (fun s =>
        (irq0Stub sampleConfig 1000 s.kernel r.2 (fun _ => 1)).map (fun q => (onCpu s.kernel, onCpu q.1))))) =
      some (some (.process 1), some (.thread 1)) := by
    decide +kernel
  obtain ⟨⟨k, cpu⟩, hfirst, hruns⟩ := Option.bind_eq_some_iff.mp hruns
  obtain ⟨s, hcall, hruns⟩ := Option.bind_eq_some_iff.mp hruns
  obtain ⟨⟨k', cpu'⟩, hsecond, hon⟩ := Option.map_eq_some_iff.mp hruns
  obtain ⟨hbefore, hafter⟩ := Prod.mk.inj hon
  rw [hfirst] at hmade
  obtain ⟨⟨made, t⟩, hcreate, rfl⟩ := Option.map_eq_some_iff.mp hmade
  have hkernel : s.kernel = made := by
    obtain ⟨_, hchange, _, rfl⟩ := actStep_call hcall rfl
    have hcreate : threadCreate sampleConfig k 0x10400 7 = some (made, 1) := hcreate
    simpa [change, Sched.step, hcreate, eq_comm] using hchange
  subst made
  have hirq : MachineStep sampleConfig 1000 sampleMachine (.irq (fun _ => 0)) _ := .irq hfirst
  have hthread : MachineStep sampleConfig 1000 ⟨⟨k, false⟩, cpu, Function.update sampleMachine.parked
      (onCpu sampleMachine.activity.kernel) ⟨sampleMachine.cpu, sampleMachine.activity.kernel.memory⟩⟩
      (.call (.event (.threadCreate 0x10400 7))) _ := .call rfl hcall
  have hoff : onCpu s.kernel ≠ some (.thread 1) := by
    rw [hbefore]
    decide
  have hgoesOn := (run_unnoticed sampleConfig_apart (by decide) sampleMachine_launched
    (.cons hirq (.nil _)) hthread (.thread hcreate) (.cons ⟨hoff, .irq hsecond⟩ (.nil _))).1 hafter
  exact ⟨_, _, .cons hirq (.cons hthread (.cons (.irq hsecond) (.nil _))), hafter, hgoesOn⟩

end SengKernel.Sched
