import SengKernel.ShellText
import SengKernel.SemaphoreDemo
import SengKernel.SchedulerFairness
import SengKernel.SchedulerQueues

/- The thread demos of the shell in kernel/kernel.c, up to the loops in which they wait
   for their threads. A demo creates all its threads before it looks at any of them. -/
namespace SengKernel.Ksh
open BoundedLoop LinkedRing MachineWord Str Vga Sched Transition

/-- The functions that the demos start, where the linker put them. -/
structure DemoCode where
  testThreadA : Nat
  testThreadB : Nat
  raceThread : Nat
  mutexThread : Nat
  semProducer : Nat
  semConsumer : Nat
  nonnull : 0 ∉ [testThreadA, testThreadB, raceThread, mutexThread, semProducer, semConsumer]

theorem DemoCode.each (code : DemoCode) :
    code.testThreadA ≠ 0 ∧ code.testThreadB ≠ 0 ∧ code.raceThread ≠ 0 ∧ code.mutexThread ≠ 0 ∧
      code.semProducer ≠ 0 ∧ code.semConsumer ≠ 0 := by
  have := code.nonnull
  simpa [eq_comm] using this

structure DemoGlobals where
  myglobal : Int
  raceDone : Int
  mutexDone : Int
  bufferCount : Int
  semDone : Int
  deriving DecidableEq, Repr

/-- What a demo works on, and what has been printed. -/
structure Demo where
  machine : Sync.State
  globals : DemoGlobals
  output : List Printed

def isColored : Printed → Bool
  | .putsColor _ _ _ => true
  | _ => false

/-- The calls of `thread_create` that a demo makes, the text it prints when one of them
fails, and what it prints of each thread when none does. -/
structure DemoCommand where
  prepare : Demo → Demo
  headline : List Printed
  calls : List (Nat × Nat)
  error : String
  created : Thread → List Printed
  kept : ∀ x, (prepare x).machine.kernel = x.machine.kernel ∧ (prepare x).output = x.output
  plain : ∀ p ∈ headline, isColored p = false
  given : ∀ call ∈ calls, call.1 ≠ 0
  listed : ∀ t, ∀ p ∈ created t, isColored p = false

def raceIterations : Int := 1000

/-- `static mutex_t myglobal_mutex` -/
def myglobalMutex : Nat := 0

def line (s : String) : Printed := .puts (ascii s)

def rule : Printed := line "========================================\n"

section Commands

variable (code : DemoCode)

def cmdThreads : DemoCommand where
  prepare x := x
  headline := [line "\nCreating two Stage 2 kernel threads...\n"]
  calls := [(code.testThreadA, 0), (code.testThreadB, 0)]
  error := "Failed to create threads.\n"
  created t := [.printf "Thread %d created.\n" [.int (UInt32.ofNat t.tid).toBitVec.toInt]]
  kept _ := ⟨rfl, rfl⟩
  plain := by decide
  given := by simp [code.each]
  listed t p hp := by
    obtain rfl := List.mem_singleton.mp hp
    rfl

def cmdRace : DemoCommand where
  prepare x := { x with globals := { x.globals with myglobal := 0, raceDone := 0 } }
  headline := [line "\n", rule, line " Stage 2 - Race Condition Demo\n", line " WITHOUT MUTEX\n", rule,
    .printf "Two threads increment myglobal %d times each.\n" [.int raceIterations],
    .printf "Expected final value: %d\n" [.int (raceIterations * 2)], line "Starting race...\n\n"]
  calls := [(code.raceThread, 0), (code.raceThread, 0)]
  error := "ERROR: Could not create race threads.\n"
  created _ := []
  kept _ := ⟨rfl, rfl⟩
  plain := by decide
  given := by simp [code.each]
  listed _ _ hp := by cases hp

def cmdMutexdemo : DemoCommand where
  prepare x := { x with
    globals := { x.globals with myglobal := 0, mutexDone := 0 }
    machine := Sync.mutexInit x.machine myglobalMutex }
  headline := [line "\n", rule, line " Stage 2 - Mutex Demo\n", line " WITH MUTEX\n", rule,
    .printf "Two threads increment myglobal %d times each.\n" [.int raceIterations],
    .printf "Expected final value: %d\n" [.int (raceIterations * 2)], line "Starting protected test...\n\n"]
  calls := [(code.mutexThread, 0), (code.mutexThread, 0)]
  error := "ERROR: Could not create mutex test threads.\n"
  created _ := []
  kept _ := by simp only [Sync.mutexInit_kernel, and_self]
  plain := by decide
  given := by simp [code.each]
  listed _ _ hp := by cases hp

def cmdSemdemo : DemoCommand where
  prepare x := { x with
    globals := { x.globals with bufferCount := 0, semDone := 0 }
    machine := Sync.semInit (Sync.semInit (Sync.semInit x.machine Sync.emptySem Sync.bufferSize) Sync.fullSem 0)
      Sync.bufferMutex 1 }
  headline := [line "\n", rule, line " Stage 2 - Semaphore Demo\n", line " Producer/Consumer with bounded buffer\n", rule,
    .printf "Buffer size: %d\n" [.int Sync.bufferSize], line "2 producers (5 items each), 1 consumer\n\n"]
  calls := [(code.semProducer, 1), (code.semProducer, 2), (code.semConsumer, 1)]
  error := "ERROR: Could not create semaphore demo threads.\n"
  created _ := []
  kept _ := by simp only [Sync.semInit_kernel, and_self]
  plain := by decide
  given := by simp [code.each]
  listed _ _ hp := by cases hp

end Commands

inductive DemoName where
  | threads | race | mutexdemo | semdemo
  deriving DecidableEq, Repr

def demoCommand (code : DemoCode) : DemoName → DemoCommand
  | .threads => cmdThreads code
  | .race => cmdRace code
  | .mutexdemo => cmdMutexdemo code
  | .semdemo => cmdSemdemo code

/-- What `thread_create` prints when it finds no slot. -/
def noSlot : Printed := line "[ERROR] No free thread slots\n"

/-- `thread_create` with what it prints. -/
def createThread (c : Config) (x : Demo) (fn arg : Nat) : Option (Demo × Nat) :=
  (threadCreate c x.machine.kernel fn arg).map (fun r =>
    ({ x with
        machine := { x.machine with kernel := r.1 }
        output := if fn ≠ 0 ∧ r.2 = 0 then x.output ++ [noSlot] else x.output }, r.2))

/-- The calls in a row, with the threads that they return. -/
def createThreads (c : Config) : List (Nat × Nat) → Demo → Option (Demo × List Nat)
  | [], x => some (x, [])
  | (fn, arg) :: calls, x =>
      match createThread c x fn arg with
      | none => none
      | some r => (createThreads c calls r.1).map (fun made => (made.1, r.2 :: made.2))

def announce (d : DemoCommand) (x : Demo) : Demo :=
  { d.prepare x with output := (d.prepare x).output ++ d.headline }

/-- What a demo prints once it has looked at its threads. -/
def conclude (d : DemoCommand) (x : Demo) (made : List Nat) : Demo :=
  { x with output := x.output ++
      if 0 ∈ made then [.putsColor d.error .lightRed .black]
      else (made.map (fun t => d.created (x.machine.kernel.threadTable t))).flatten }

/-- A demo up to its wait, with the threads that it has then. -/
def runDemo (c : Config) (d : DemoCommand) (x : Demo) : Option (Demo × List Nat) :=
  (createThreads c d.calls (announce d x)).map (fun r => (conclude d r.1 r.2, r.2))

@[simp] theorem announce_kernel (d : DemoCommand) (x : Demo) :
    (announce d x).machine.kernel = x.machine.kernel := (d.kept x).1

@[simp] theorem conclude_kernel (d : DemoCommand) (x : Demo) (made : List Nat) :
    (conclude d x made).machine.kernel = x.machine.kernel := rfl

/-- READY, RUNNING or BLOCKED. -/
def unfinished (k : Kernel) (t : Nat) : Bool := (k.threadTable t).state ∈ [.ready, .running, .blocked]

def freeSlots (c : Config) (k : Kernel) : Nat :=
  (List.range' 1 c.maxThreads).countP (fun t => (k.threadTable t).state = .unused)

/-- The threads that the scheduler finds, in order. -/
def Linked (k : Kernel) (l : List Nat) : Prop :=
  (l = [] ∧ k.threadHead = 0) ∨ IsRing (threadNext k) k.threadHead l

/-- The demo prints its error. -/
def Reports (d : DemoCommand) (x y : Demo) : Prop :=
  ∃ shown, y.output = x.output ++ shown ∧ .putsColor d.error .lightRed .black ∈ shown

/-- No thread that the demo made is left to run, and the others are as before. -/
structure LeavesNothing (c : Config) (k k' : Kernel) (made : List Nat) : Prop where
  made : ∀ t ∈ made, t ≠ 0 → unfinished k' t = false
  table : ∀ t, 1 ≤ t → t ≤ c.maxThreads → unfinished k' t = unfinished k t
  ring : ∃ l l', Linked k l ∧ Linked k' l' ∧ l'.filter (unfinished k') = l.filter (unfinished k)

/-- What the calls come to with `nt` slots used: the first `n` of them get the next
slots, the others get nothing. -/
structure Spawned (c : Config) (np nt n : Nat) (calls : List (Nat × Nat)) (x y : Demo) (made : List Nat) : Prop where
  made : made = List.range' (nt + 1) n ++ List.replicate (calls.length - n) 0
  tables : Tables c y.machine.kernel np (nt + n)
  fresh : ∀ t, nt < t → t ≤ nt + n → (y.machine.kernel.threadTable t).state = .ready
  old : ∀ t, t ≤ nt → (y.machine.kernel.threadTable t).state = (x.machine.kernel.threadTable t).state
  none : n = 0 → y.machine.kernel = x.machine.kernel
  shown : ∃ shown, y.output = x.output ++ shown ∧ ∀ p ∈ shown, isColored p = false

section Creating

variable {c : Config} {np nt n fn : Nat} {calls : List (Nat × Nat)} {x y z : Demo} {made : List Nat}

/-- One call: the next slot, or the error of `thread_create`. -/
theorem createThread_cases (h : Tables c x.machine.kernel np nt) (hfn : fn ≠ 0) (arg : Nat) :
    (nt < c.maxThreads ∧ ∃ y, createThread c x fn arg = some (y, nt + 1) ∧ Tables c y.machine.kernel np (nt + 1) ∧
      (y.machine.kernel.threadTable (nt + 1)).state = .ready ∧
      (∀ t, t ≠ nt + 1 → (y.machine.kernel.threadTable t).state = (x.machine.kernel.threadTable t).state) ∧
      y.output = x.output) ∨
    (nt = c.maxThreads ∧ ∃ y, createThread c x fn arg = some (y, 0) ∧ y.machine.kernel = x.machine.kernel ∧
      y.output = x.output ++ [noSlot]) := by
  by_cases hlt : nt < c.maxThreads
  · obtain ⟨k', hcreate, htables, hready, _, _, _, hold, _⟩ := h.threadCreate_spec hlt hfn arg
    refine Or.inl ⟨hlt, _, by rw [createThread, hcreate, Option.map_some], htables, hready, ?_, ?_⟩
    · intro t ht
      change (k'.threadTable t).state = _
      rw [hold t ht]
    · exact if_neg (fun hnone => Nat.succ_ne_zero nt hnone.2)
  · have hcreate : threadCreate c x.machine.kernel fn arg = some (x.machine.kernel, 0) :=
      h.threadCreate_refused (Or.inr hlt) arg
    have hnone : createThread c x fn arg = some ({ x with output := x.output ++ [noSlot] }, 0) := by
      rw [createThread, hcreate, Option.map_some]
      dsimp only
      rw [if_pos ⟨hfn, rfl⟩]
    exact Or.inr ⟨Nat.le_antisymm h.threadCount (Nat.le_of_not_lt hlt), _, hnone, rfl, rfl⟩

theorem Spawned.nil (h : Tables c x.machine.kernel np nt) : Spawned c np nt 0 [] x x [] := by
  refine ⟨rfl, h, ?_, fun _ _ => rfl, fun _ => rfl, [], (List.append_nil _).symm, ?_⟩
  · intro t ht hle
    omega
  · intro p hp
    cases hp

/-- The first call got a slot. -/
theorem Spawned.cons {call : Nat × Nat} (h : Spawned c np (nt + 1) n calls y z made)
    (hready : (y.machine.kernel.threadTable (nt + 1)).state = .ready)
    (hold : ∀ t, t ≠ nt + 1 → (y.machine.kernel.threadTable t).state = (x.machine.kernel.threadTable t).state)
    (hout : y.output = x.output) : Spawned c np nt (n + 1) (call :: calls) x z ((nt + 1) :: made) := by
  constructor
  · rw [h.made, List.length_cons, Nat.add_sub_add_right, List.range'_succ, List.cons_append]
  · have htables := h.tables
    rwa [Nat.add_right_comm] at htables
  · intro t ht hle
    by_cases hfirst : t = nt + 1
    · rw [hfirst, h.old (nt + 1) (Nat.le_refl _), hready]
    · exact h.fresh t (by omega) (by omega)
  · intro t ht
    rw [h.old t (by omega), hold t (by omega)]
  · intro hnone
    cases hnone
  · obtain ⟨shown, hshown, hplain⟩ := h.shown
    exact ⟨shown, by rw [hshown, hout], hplain⟩

/-- The first call got none, and neither does any other. -/
theorem Spawned.cons_none {call : Nat × Nat} (h : Spawned c np nt 0 calls y z made)
    (hkernel : y.machine.kernel = x.machine.kernel) (hout : y.output = x.output ++ [noSlot]) :
    Spawned c np nt 0 (call :: calls) x z (0 :: made) := by
  constructor
  · rw [h.made, List.length_cons, Nat.sub_zero, Nat.sub_zero, List.replicate_succ]
    rfl
  · exact h.tables
  · intro t ht hle
    omega
  · intro t ht
    rw [h.old t ht, hkernel]
  · intro _
    rw [h.none rfl, hkernel]
  · obtain ⟨shown, hshown, hplain⟩ := h.shown
    refine ⟨noSlot :: shown, by rw [hshown, hout, List.append_assoc, List.singleton_append], ?_⟩
    intro p hp
    rcases List.mem_cons.mp hp with rfl | hp
    · rfl
    · exact hplain p hp

/-- The calls end, and get as many slots as there are. -/
theorem createThreads_spawned (h : Tables c x.machine.kernel np nt) (hgiven : ∀ call ∈ calls, call.1 ≠ 0)
    (hn : n = min calls.length (c.maxThreads - nt)) :
    ∃ y made, createThreads c calls x = some (y, made) ∧ Spawned c np nt n calls x y made := by
  induction calls generalizing x nt n with
  | nil =>
      obtain rfl : n = 0 := hn.trans (Nat.zero_min _)
      exact ⟨x, [], rfl, .nil h⟩
  | cons call calls ih =>
      obtain ⟨fn, arg⟩ := call
      have hrest : ∀ call ∈ calls, call.1 ≠ 0 := fun call hcall => hgiven call (List.mem_cons_of_mem _ hcall)
      rw [List.length_cons] at hn
      rcases createThread_cases h (hgiven _ (List.mem_cons_self ..)) arg with
        ⟨hlt, y, hcreate, htables, hready, hold, hout⟩ | ⟨rfl, y, hcreate, hkernel, hout⟩
      · obtain ⟨z, made, hmade, hspawned⟩ := ih htables hrest rfl
        refine ⟨z, _, by rw [createThreads, hcreate]; dsimp only; rw [hmade, Option.map_some], ?_⟩
        obtain rfl : n = min calls.length (c.maxThreads - (nt + 1)) + 1 := by omega
        exact hspawned.cons hready hold hout
      · have htables : Tables c y.machine.kernel np c.maxThreads := hkernel ▸ h
        obtain ⟨z, made, hmade, hspawned⟩ := ih htables hrest rfl
        refine ⟨z, _, by rw [createThreads, hcreate]; dsimp only; rw [hmade, Option.map_some], ?_⟩
        have hzero : min calls.length (c.maxThreads - c.maxThreads) = 0 := by omega
        obtain rfl : n = 0 := by omega
        rw [hzero] at hspawned
        exact hspawned.cons_none hkernel hout

end Creating

section Demos

variable {c : Config} {np nt n : Nat} {x y : Demo} {made : List Nat} {d : DemoCommand}

theorem freeSlots_eq {k : Kernel} (h : Tables c k np nt) : freeSlots c k = c.maxThreads - nt := by
  have hsplit : List.range' 1 c.maxThreads = List.range' 1 nt ++ List.range' (1 + nt) (c.maxThreads - nt) := by
    rw [List.range'_append_1, Nat.add_sub_cancel' h.threadCount]
  have hused : (List.range' 1 nt).countP (fun t => (k.threadTable t).state = .unused) = 0 := by
    rw [List.countP_eq_zero]
    intro t ht
    obtain ⟨hpos, hle⟩ := mem_queue.mp ht
    simpa using h.usedThread t hpos hle
  have hfree : (List.range' (1 + nt) (c.maxThreads - nt)).countP (fun t => (k.threadTable t).state = .unused) =
      (List.range' (1 + nt) (c.maxThreads - nt)).length := by
    rw [List.countP_eq_length]
    intro t ht
    rw [List.mem_range'_1] at ht
    simpa using h.freeThread t (by omega) (by omega)
  rw [freeSlots, hsplit, List.countP_append, hused, hfree, List.length_range', Nat.zero_add]

theorem runDemo_spawned (h : Tables c x.machine.kernel np nt) (d : DemoCommand)
    (hn : n = min d.calls.length (c.maxThreads - nt)) :
    ∃ y made, runDemo c d x = some (conclude d y made, made) ∧ Spawned c np nt n d.calls (announce d x) y made := by
  rw [← announce_kernel d x] at h
  obtain ⟨y, made, hmade, hspawned⟩ := createThreads_spawned h d.given hn
  exact ⟨y, made, by rw [runDemo, hmade, Option.map_some], hspawned⟩

/-- The demo reports exactly that a call got nothing. -/
theorem Spawned.reports_iff {calls : List (Nat × Nat)} (h : Spawned c np nt n calls (announce d x) y made) :
    Reports d x (conclude d y made) ↔ n < calls.length := by
  obtain ⟨shown, hshown, hplain⟩ := h.shown
  have hshown : y.output = x.output ++ (d.headline ++ shown) := by
    rw [hshown, announce, (d.kept x).2, List.append_assoc]
  have hzero : 0 ∈ made ↔ n < calls.length := by
    rw [h.made, List.mem_append, List.mem_range'_1, List.mem_replicate]
    omega
  rw [← hzero, Reports, conclude, hshown]
  constructor
  · rintro ⟨lines, hlines, hmem⟩
    by_contra hfull
    rw [if_neg hfull, List.append_assoc, List.append_cancel_left_eq] at hlines
    rw [← hlines, List.mem_append, List.mem_append] at hmem
    rcases hmem with (hmem | hmem) | hmem
    · cases d.plain _ hmem
    · cases hplain _ hmem
    · obtain ⟨l, hl, hmem⟩ := List.mem_flatten.mp hmem
      obtain ⟨t, _, rfl⟩ := List.mem_map.mp hl
      cases d.listed _ _ hmem
  · intro hnull
    rw [if_pos hnull]
    refine ⟨_, List.append_assoc .., ?_⟩
    exact List.mem_append_right _ (List.mem_singleton.mpr rfl)

/-- Between no slot and enough of them, the threads of the first calls stay. -/
theorem Spawned.leaves_iff {calls : List (Nat × Nat)} (h : Tables c x.machine.kernel np nt)
    (hspawned : Spawned c np nt n calls x y made) (hn : n < calls.length) :
    LeavesNothing c x.machine.kernel y.machine.kernel made ↔ n = 0 := by
  constructor
  · intro hleaves
    by_contra hsome
    have hmade : nt + 1 ∈ made := by
      rw [hspawned.made]
      exact List.mem_append_left _ (List.mem_range'_1.mpr ⟨Nat.le_refl _, by omega⟩)
    have hready := hspawned.fresh (nt + 1) (Nat.lt_succ_self nt) (by omega)
    have hfalse := hleaves.made _ hmade (Nat.succ_ne_zero nt)
    rw [unfinished, hready] at hfalse
    cases hfalse
  · rintro rfl
    rw [hspawned.none rfl]
    constructor
    · intro t ht hne
      rw [hspawned.made, List.range'_zero, List.nil_append] at ht
      exact absurd (List.eq_of_mem_replicate ht) hne
    · intro t _ _
      rfl
    · exact ⟨_, _, h.threadRing.cycle, h.threadRing.cycle, rfl⟩

theorem leavesNothing_iff (h : Tables c x.machine.kernel np nt) (d : DemoCommand) :
    ∃ y made, runDemo c d x = some (y, made) ∧
      ((Reports d x y → LeavesNothing c x.machine.kernel y.machine.kernel made) ↔
        freeSlots c x.machine.kernel = 0 ∨ d.calls.length ≤ freeSlots c x.machine.kernel) := by
  obtain ⟨y, made, hrun, hspawned⟩ := runDemo_spawned h d rfl
  refine ⟨_, made, hrun, ?_⟩
  have hleaves := hspawned.leaves_iff (by rwa [announce_kernel])
  rw [announce_kernel] at hleaves
  rw [freeSlots_eq h, hspawned.reports_iff, conclude_kernel]
  constructor
  · intro himp
    by_contra hcut
    have hzero := (hleaves (by omega)).mp (himp (by omega))
    omega
  · intro hor hcut
    exact (hleaves hcut).mpr (by omega)

end Demos

section Histories

variable {c : Config} {np nt : Nat} {x y : Demo} {d : DemoCommand} {ds : List DemoCommand}

def createAct (call : Nat × Nat) : Act := .event (.threadCreate call.1 call.2)

theorem createThreads_run {calls : List (Nat × Nat)} {made : List Nat} (h : createThreads c calls x = some (y, made)) :
    Run (ActStep c) ⟨x.machine.kernel, false⟩ (calls.map createAct) ⟨y.machine.kernel, false⟩ := by
  induction calls generalizing x made with
  | nil =>
      cases h
      exact .nil _
  | cons call calls ih =>
      obtain ⟨fn, arg⟩ := call
      rw [createThreads] at h
      split at h
      · cases h
      · rename_i r hr
        obtain ⟨q, hq, hsame⟩ := Option.map_eq_some_iff.mp h
        obtain ⟨u, hu, rfl⟩ := Option.map_eq_some_iff.mp hr
        cases hsame
        have hstep : ActStep c ⟨x.machine.kernel, false⟩ (createAct (fn, arg)) ⟨u.1, false⟩ := by
          simp [ActStep, actStep, createAct, change, step, hu, yields, isIrq]
        exact .cons hstep (ih hq)

/-- One demo after the other, each up to its wait. -/
def DemoStep (c : Config) (x : Demo) (d : DemoCommand) (y : Demo) : Prop := ∃ made, runDemo c d x = some (y, made)

/-- The demos are calls of `thread_create`, so that they lead to reachable states. -/
theorem demos_run (run : Run (DemoStep c) x ds y) :
    Run (ActStep c) ⟨x.machine.kernel, false⟩ (ds.flatMap (fun d => d.calls.map createAct)) ⟨y.machine.kernel, false⟩ := by
  induction run with
  | nil => exact .nil _
  | cons hstep _ ih =>
      obtain ⟨made, hmade⟩ := hstep
      obtain ⟨r, hr, hsame⟩ := Option.map_eq_some_iff.mp hmade
      cases hsame
      have hrun := createThreads_run hr
      rw [announce_kernel] at hrun
      rw [List.flatMap_cons]
      exact hrun.append ih

/-- Demos that find enough slots. -/
theorem demos_fill (h : Tables c x.machine.kernel np nt) (d : DemoCommand) (m : Nat)
    (hroom : nt + m * d.calls.length ≤ c.maxThreads) :
    ∃ y, Run (DemoStep c) x (List.replicate m d) y ∧ Tables c y.machine.kernel np (nt + m * d.calls.length) := by
  induction m generalizing x nt with
  | zero =>
      rw [Nat.zero_mul] at hroom ⊢
      exact ⟨x, .nil x, h⟩
  | succ m ih =>
      rw [Nat.succ_mul] at hroom ⊢
      have hn : d.calls.length = min d.calls.length (c.maxThreads - nt) := by omega
      obtain ⟨y, made, hrun, hspawned⟩ := runDemo_spawned h d hn
      obtain ⟨z, hruns, htables⟩ := ih (x := conclude d y made) hspawned.tables (by omega)
      refine ⟨z, .cons ⟨made, hrun⟩ hruns, ?_⟩
      rwa [Nat.add_comm (m * d.calls.length), ← Nat.add_assoc]

end Histories

/-- In every reachable state: a demo that reports a failure leaves nothing behind, exactly
where no slot is left or enough are for all its threads. -/
theorem failed_demo_iff {c : Config} {s t : Activity} {acts : List Act} (started : Started c s)
    (run : Run (ActStep c) s acts t) (code : DemoCode) (d : DemoName) {x : Demo} (hx : x.machine.kernel = t.kernel) :
    ∃ y made, runDemo c (demoCommand code d) x = some (y, made) ∧
      ((Reports (demoCommand code d) x y → LeavesNothing c t.kernel y.machine.kernel made) ↔
        freeSlots c t.kernel = 0 ∨ (demoCommand code d).calls.length ≤ freeSlots c t.kernel) := by
  obtain ⟨np, nt, h⟩ := run_settled started run
  rw [← hx]
  exact leavesNothing_iff (hx ▸ h.tables) (demoCommand code d)

def sampleCode : DemoCode := ⟨0x10400, 0x10410, 0x10420, 0x10430, 0x10440, 0x10450, by decide⟩

/-- The shell before its first command. -/
def sampleDemo : Demo := ⟨Sync.sampleState 0, ⟨0, 0, 0, 0, 0⟩, []⟩

theorem failed_demo_iff_sample :
    ∃ y made, runDemo sampleConfig (cmdSemdemo sampleCode) sampleDemo = some (y, made) ∧
      (Reports (cmdSemdemo sampleCode) sampleDemo y →
        LeavesNothing sampleConfig sampleActivity.kernel y.machine.kernel made) := by
  obtain ⟨y, made, hrun, hiff⟩ :=
    failed_demo_iff sampleActivity_started (.nil _) sampleCode .semdemo (x := sampleDemo) rfl
  exact ⟨y, made, hrun, hiff.mpr (Or.inr (by decide +kernel))⟩

/-- After fifteen times `threads`, `semdemo` fails and leaves two producers that are
READY. -/
theorem semdemo_leaves_producers :
    ∃ x y, Run (DemoStep sampleConfig) sampleDemo (List.replicate 15 (cmdThreads sampleCode)) x ∧
      Run (ActStep sampleConfig) sampleActivity
        ((List.replicate 15 (cmdThreads sampleCode)).flatMap (fun d => d.calls.map createAct)) ⟨x.machine.kernel, false⟩ ∧
      runDemo sampleConfig (cmdSemdemo sampleCode) x = some (y, [31, 32, 0]) ∧
      Reports (cmdSemdemo sampleCode) x y ∧
      (y.machine.kernel.threadTable 31).state = .ready ∧ (y.machine.kernel.threadTable 32).state = .ready ∧
      ¬ LeavesNothing sampleConfig x.machine.kernel y.machine.kernel [31, 32, 0] := by
  have h : Tables sampleConfig sampleDemo.machine.kernel 3 0 := sampleActivity_started.settled.tables
  obtain ⟨x, hrun, htables⟩ := demos_fill h (cmdThreads sampleCode) 15 (by decide)
  obtain ⟨y, made, hdemo, hspawned⟩ := runDemo_spawned htables (cmdSemdemo sampleCode) rfl
  have hmade : made = [31, 32, 0] := hspawned.made
  subst hmade
  have hready := hspawned.fresh 31 (by decide) (by decide)
  refine ⟨x, _, hrun, demos_run hrun, hdemo, hspawned.reports_iff.mpr (by decide), hready,
    hspawned.fresh 32 (by decide) (by decide), ?_⟩
  intro hleaves
  have hfalse := hleaves.made 31 (by decide) (by decide)
  rw [unfinished, conclude_kernel, hready] at hfalse
  cases hfalse

end SengKernel.Ksh
