import SengKernel.SchedulerRuns

/- Sessions of the scheduler: interrupts in any order with creations, blocking,
   exits, wake-ups and kills. The stack pointer that each context was last switched
   out on is history, kept beside the kernel. -/
namespace SengKernel.Sched
open BoundedLoop MachineWord LinkedRing Transition

theorem pushWords_sp (memory : Nat → Nat) (sp : Nat) (ws : List Nat) :
    (pushWords memory sp ws).2 = sp - 4 * ws.length := by
  induction ws generalizing memory sp with
  | nil => rfl
  | cons w ws ih =>
      rw [pushWords, ih, List.length_cons]
      omega

/-- Where the frame built at creation lies. -/
def initialEsp (c : Config) : Context → Nat
  | .process p => processStackTop c p - 44
  | .thread t => threadStackTop c t - 52

section Creation

variable {c : Config} {k : Kernel} {np nt : Nat}

theorem Tables.findFreePcb_eq (h : Tables c k np nt) : findFreePcb k = if np < 16 then np + 1 else 0 := by
  unfold findFreePcb
  split_ifs with hlt
  · have hscan : scan (fun i => (k.pcbTable (i + 1)).pid = 0) 0 maxProcesses = some np := by
      refine scan_eq_some (Nat.zero_le np) (by simpa using hlt) ?_ ?_
      · simpa using (h.freePcb (np + 1) (Nat.lt_succ_self np) hlt).1
      · intro j _ hj
        simp [h.created (j + 1) (Nat.le_add_left 1 j) hj]
    rw [hscan]
  · have hscan : scan (fun i => (k.pcbTable (i + 1)).pid = 0) 0 maxProcesses = none := by
      refine scan_eq_none (fun j _ hj => ?_)
      simp only [maxProcesses] at hj
      simp [h.created (j + 1) (Nat.le_add_left 1 j) (by omega)]
    rw [hscan]

theorem Tables.findFreeThread_eq (h : Tables c k np nt) :
    findFreeThread c k = if nt < c.maxThreads then nt + 1 else 0 := by
  unfold findFreeThread
  split_ifs with hlt
  · have hscan : scan (fun i => (k.threadTable (i + 1)).state = .unused) 0 c.maxThreads = some nt := by
      refine scan_eq_some (Nat.zero_le nt) (by omega) ?_ ?_
      · simpa using h.freeThread (nt + 1) (Nat.lt_succ_self nt) hlt
      · intro j _ hj
        simpa using h.usedThread (j + 1) (Nat.le_add_left 1 j) hj
    rw [hscan]
  · have hscan : scan (fun i => (k.threadTable (i + 1)).state = .unused) 0 c.maxThreads = none := by
      refine scan_eq_none (fun j _ hj => ?_)
      simpa using h.usedThread (j + 1) (Nat.le_add_left 1 j) (by omega)
    rw [hscan]

theorem Tables.procCreate_full (h : Tables c k np nt) (hfull : ¬ np < 16) (entry : Nat) :
    procCreate c k entry = some (k, 0) := by
  simp only [procCreate, h.findFreePcb_eq, if_neg hfull, if_true]

/-- Without an entry function or a slot, `thread_create` creates nothing. -/
theorem Tables.threadCreate_refused (h : Tables c k np nt) {fn : Nat} (hno : fn = 0 ∨ ¬ nt < c.maxThreads)
    (arg : Nat) : threadCreate c k fn arg = some (k, 0) := by
  by_cases hfn : fn = 0
  · rw [threadCreate, if_pos hfn]
  · simp only [threadCreate, h.findFreeThread_eq, if_neg hfn, if_neg (hno.resolve_left hfn), if_true]

/-- The kernel that `proc_create` hands to the scheduler. -/
def newProcess (c : Config) (k : Kernel) (entry p : Nat) : Kernel :=
  setProc { k with nextPid := inc32 k.nextPid
                   memory := (pushWords k.memory (processStackTop c p) (processFrame entry)).1 } p (fun r =>
    { r with pid := k.nextPid, state := .ready, entry := entry, totalTicks := 0, next := 0,
             stackTop := processStackTop c p,
             esp := (pushWords k.memory (processStackTop c p) (processFrame entry)).2 })

theorem newProcess_of_ne (c : Config) (k : Kernel) (entry : Nat) {p q : Nat} (h : q ≠ p) :
    (newProcess c k entry p).pcbTable q = k.pcbTable q := setProc_of_ne _ _ _ h

theorem newProcess_esp (c : Config) (k : Kernel) (entry p : Nat) :
    ((newProcess c k entry p).pcbTable p).esp = initialEsp c (.process p) := by
  simp only [newProcess, setProc_self, pushWords_sp, initialEsp]
  rfl

theorem procCreate_of_free {p : Nat} (hfree : findFreePcb k = p + 1) (entry : Nat) :
    procCreate c k entry =
      (schedulerAddProcess (newProcess c k entry (p + 1)) (p + 1)).map (fun added => (added, p + 1)) := by
  simp only [procCreate, hfree]
  rw [if_neg (Nat.succ_ne_zero p)]
  cases hadd : schedulerAddProcess (newProcess c k entry (p + 1)) (p + 1) with
  | none => rw [show schedulerAddProcess (setProc _ _ _) (p + 1) = none from hadd]; rfl
  | some added => rw [show schedulerAddProcess (setProc _ _ _) (p + 1) = some added from hadd]; rfl

/-- The tables after a process that took the next slot and the end of the ring. -/
theorem Tables.addProcess (h : Tables c k np nt) (hlt : np < 16) {entry : Nat} {k' : Kernel}
    (hring : Queue (procNext k') k'.readyHead (np + 1))
    (hpid : (k'.pcbTable (np + 1)).pid = np + 1)
    (hold : ∀ p, p ≠ np + 1 → k'.pcbTable p = { k.pcbTable p with next := procNext k' p })
    (hframe : k' = { newProcess c k entry (np + 1) with pcbTable := k'.pcbTable, readyHead := k'.readyHead }) :
    Tables c k' (np + 1) nt := by
  have hthreads : k'.threadTable = k.threadTable := by rw [hframe]; rfl
  refine ⟨hlt, h.threadCount, ?_, ?_, ?_, ?_, ?_, hring, ?_, ?_, ?_, ?_⟩
  · have : k'.nextPid = inc32 k.nextPid := by rw [hframe]; rfl
    rw [this, h.nextPid, inc32_of_lt (by omega)]
  · intro p hp hpn
    rcases Nat.lt_or_eq_of_le hpn with hlt | rfl
    · rw [hold p (by omega)]
      exact h.created p hp (by omega)
    · exact hpid
  · intro p hp hp16
    rw [hold p (by omega)]
    exact h.freePcb p (by omega) hp16
  · rw [hthreads]
    exact h.usedThread
  · rw [hthreads]
    exact h.freeThread
  · have hhead : k'.threadHead = k.threadHead := by rw [hframe]; rfl
    rw [hhead]
    refine h.threadRing.congr (fun t _ _ => ?_)
    rw [threadNext, hthreads]
    rfl
  · rw [hframe]
    exact Nat.le_succ_of_le h.currentProc
  · rw [hframe]
    exact h.currentThread
  · rw [hframe]
    exact h.runningThread

/-- A new process takes the next slot and the end of the ring; the other entries
change in their links only. -/
theorem Tables.procCreate_spec (h : Tables c k np nt) (hlt : np < 16) (entry : Nat) :
    ∃ k', procCreate c k entry = some (k', np + 1) ∧ Tables c k' (np + 1) nt ∧
      (k'.pcbTable (np + 1)).state = .ready ∧ espOf k' (.process (np + 1)) = initialEsp c (.process (np + 1)) ∧
      (∀ p, p ≠ np + 1 → k'.pcbTable p = { k.pcbTable p with next := procNext k' p }) ∧
      k' = { k with pcbTable := k'.pcbTable, readyHead := k'.readyHead, nextPid := k'.nextPid,
                    memory := k'.memory } := by
  have hfree : findFreePcb k = np + 1 := by rw [h.findFreePcb_eq, if_pos hlt]
  have hqueue : Queue (procNext (newProcess c k entry (np + 1))) (newProcess c k entry (np + 1)).readyHead np := by
    refine h.procRing.congr (fun p _ hp => ?_)
    rw [procNext, newProcess_of_ne c k entry (by omega)]
    rfl
  obtain ⟨k', hadd, hring, hsame, hframe⟩ := schedulerAddProcess_spec hqueue hlt
  have hnew : k'.pcbTable (np + 1) =
      { (newProcess c k entry (np + 1)).pcbTable (np + 1) with next := procNext k' (np + 1) } := hsame _
  have hold : ∀ p, p ≠ np + 1 → k'.pcbTable p = { k.pcbTable p with next := procNext k' p } := by
    intro p hp
    rw [hsame p, newProcess_of_ne c k entry hp]
  have hpid : (k'.pcbTable (np + 1)).pid = np + 1 := by
    rw [hnew]
    simp [newProcess, h.nextPid]
  refine ⟨k', ?_, h.addProcess hlt hring hpid hold hframe, ?_, ?_, hold, ?_⟩
  · rw [procCreate_of_free hfree, hadd]
    rfl
  · rw [hnew]
    simp [newProcess]
  · rw [espOf, hnew]
    exact newProcess_esp c k entry (np + 1)
  · rw [hframe]
    rfl

/-- The kernel that `thread_create` hands to the scheduler. -/
def newThread (c : Config) (k : Kernel) (fn arg t : Nat) : Kernel :=
  setThread { k with nextTid := inc32 k.nextTid
                     memory := (pushWords k.memory (threadStackTop c t) (threadFrame c fn arg)).1 } t (fun r =>
    { r with tid := k.nextTid, state := .ready, entry := fn, arg := arg, owner := k.currentProc,
             stackTop := threadStackTop c t,
             esp := (pushWords k.memory (threadStackTop c t) (threadFrame c fn arg)).2, next := 0, waitNext := 0 })

theorem newThread_of_ne (c : Config) (k : Kernel) (fn arg : Nat) {t u : Nat} (h : u ≠ t) :
    (newThread c k fn arg t).threadTable u = k.threadTable u := setThread_of_ne _ _ _ h

theorem newThread_esp (c : Config) (k : Kernel) (fn arg t : Nat) :
    ((newThread c k fn arg t).threadTable t).esp = initialEsp c (.thread t) := by
  simp only [newThread, setThread_self, pushWords_sp, initialEsp]
  rfl

theorem threadCreate_of_free {fn t : Nat} (hfn : fn ≠ 0) (hfree : findFreeThread c k = t + 1) (arg : Nat) :
    threadCreate c k fn arg =
      (schedulerAddThread c (newThread c k fn arg (t + 1)) (t + 1)).map (fun added => (added, t + 1)) := by
  simp only [threadCreate, hfree]
  rw [if_neg hfn, if_neg (Nat.succ_ne_zero t)]
  cases hadd : schedulerAddThread c (newThread c k fn arg (t + 1)) (t + 1) with
  | none => rw [show schedulerAddThread c (setThread _ _ _) (t + 1) = none from hadd]; rfl
  | some added => rw [show schedulerAddThread c (setThread _ _ _) (t + 1) = some added from hadd]; rfl

/-- The tables after a thread that took the next slot and the end of the ring. -/
theorem Tables.addThread (h : Tables c k np nt) (hlt : nt < c.maxThreads) {fn arg : Nat} {k' : Kernel}
    (hring : Queue (threadNext k') k'.threadHead (nt + 1))
    (hready : (k'.threadTable (nt + 1)).state = .ready)
    (hold : ∀ t, t ≠ nt + 1 → k'.threadTable t = { k.threadTable t with next := threadNext k' t })
    (hframe : k' =
      { newThread c k fn arg (nt + 1) with threadTable := k'.threadTable, threadHead := k'.threadHead }) :
    Tables c k' np (nt + 1) := by
  have hprocs : k'.pcbTable = k.pcbTable := by rw [hframe]; rfl
  refine ⟨h.procCount, hlt, ?_, ?_, ?_, ?_, ?_, ?_, hring, ?_, ?_, ?_⟩
  · rw [hframe]
    exact h.nextPid
  · rw [hprocs]
    exact h.created
  · rw [hprocs]
    exact h.freePcb
  · intro t ht htn
    rcases Nat.lt_or_eq_of_le htn with hlt | rfl
    · rw [hold t (by omega)]
      exact h.usedThread t ht (by omega)
    · rw [hready]
      intro hunused
      cases hunused
  · intro t ht htn
    rw [hold t (by omega)]
    exact h.freeThread t (by omega) htn
  · have hhead : k'.readyHead = k.readyHead := by rw [hframe]; rfl
    rw [hhead]
    refine h.procRing.congr (fun p _ _ => ?_)
    rw [procNext, hprocs]
    rfl
  · rw [hframe]
    exact h.currentProc
  · rw [hframe]
    exact Nat.le_succ_of_le h.currentThread
  · rw [hframe]
    exact Nat.le_succ_of_le h.runningThread

theorem Tables.threadCreate_spec (h : Tables c k np nt) (hlt : nt < c.maxThreads) {fn : Nat} (hfn : fn ≠ 0)
    (arg : Nat) :
    ∃ k', threadCreate c k fn arg = some (k', nt + 1) ∧ Tables c k' np (nt + 1) ∧
      (k'.threadTable (nt + 1)).state = .ready ∧ (k'.threadTable (nt + 1)).waitNext = 0 ∧
      (k'.threadTable (nt + 1)).owner = k.currentProc ∧
      espOf k' (.thread (nt + 1)) = initialEsp c (.thread (nt + 1)) ∧
      (∀ t, t ≠ nt + 1 → k'.threadTable t = { k.threadTable t with next := threadNext k' t }) ∧
      k' = { k with threadTable := k'.threadTable, threadHead := k'.threadHead, nextTid := k'.nextTid,
                    memory := k'.memory } := by
  have hfree : findFreeThread c k = nt + 1 := by rw [h.findFreeThread_eq, if_pos hlt]
  have hqueue : Queue (threadNext (newThread c k fn arg (nt + 1))) (newThread c k fn arg (nt + 1)).threadHead nt := by
    refine h.threadRing.congr (fun t _ ht => ?_)
    rw [threadNext, newThread_of_ne c k fn arg (by omega)]
    rfl
  obtain ⟨k', hadd, hring, hsame, hframe⟩ := schedulerAddThread_spec hqueue hlt
  have hnew : k'.threadTable (nt + 1) =
      { (newThread c k fn arg (nt + 1)).threadTable (nt + 1) with next := threadNext k' (nt + 1) } := hsame _
  have hold : ∀ t, t ≠ nt + 1 → k'.threadTable t = { k.threadTable t with next := threadNext k' t } := by
    intro t ht
    rw [hsame t, newThread_of_ne c k fn arg ht]
  have hready : (k'.threadTable (nt + 1)).state = .ready := by
    rw [hnew]
    simp [newThread]
  refine ⟨k', ?_, h.addThread hlt hring hready hold hframe, hready, ?_, ?_, ?_, hold, ?_⟩
  · rw [threadCreate_of_free hfn hfree, hadd]
    rfl
  · rw [hnew]
    simp [newThread]
  · rw [hnew]
    simp [newThread]
  · rw [espOf, hnew]
    exact newThread_esp c k fn arg (nt + 1)
  · rw [hframe]
    rfl

end Creation

/-- What every event other than an interrupt keeps: the context on the CPU and all
saved stack pointers; new contexts start at their initial frame. -/
structure Grows (c : Config) (k k' : Kernel) (np nt np' nt' : Nat) : Prop where
  coherent : Coherent c k' np' nt'
  onCpu_eq : onCpu k' = onCpu k
  kept : ∀ x, Created np nt x → Created np' nt' x ∧ espOf k' x = espOf k x
  fresh : ∀ x, Created np' nt' x → ¬ Created np nt x → espOf k' x = initialEsp c x

section Events

variable {c : Config} {k : Kernel} {np nt : Nat}

theorem Coherent.grows_refl (h : Coherent c k np nt) : Grows c k k np nt np nt :=
  ⟨h, rfl, fun _ hx => ⟨hx, rfl⟩, fun _ hx hnot => (hnot hx).elim⟩

/-- Contexts that have not run yet stay at their initial frames. -/
theorem Grows.initial {k' : Kernel} {np' nt' : Nat} (h : Grows c k k' np nt np' nt')
    (hold : ∀ x, Created np nt x → espOf k x = initialEsp c x) :
    ∀ x, Created np' nt' x → espOf k' x = initialEsp c x := by
  intro x hx
  by_cases hcreated : Created np nt x
  · rw [(h.kept x hcreated).2]
    exact hold x hcreated
  · exact h.fresh x hx hcreated

theorem Coherent.procCreate_next (h : Coherent c k np nt) (hlt : np < 16) (entry : Nat) :
    ∃ k', procCreate c k entry = some (k', np + 1) ∧ Grows c k k' np nt (np + 1) nt ∧
      k'.threadTable = k.threadTable ∧ k'.currentProc = k.currentProc := by
  obtain ⟨k', hcreate, htables, hready, hesp, hold, hframe⟩ := h.tables.procCreate_spec hlt entry
  have hcpu : onCpu k' = onCpu k := by rw [hframe]; rfl
  have hthreads : k'.threadTable = k.threadTable := by rw [hframe]
  have hkind : k'.currentKind = k.currentKind := by rw [hframe]
  have hcurrent : k'.current = k.current := by rw [hframe]
  have hsched : k'.currentSchedThread = k.currentSchedThread := by rw [hframe]
  have hthread : k'.currentThread = k.currentThread := by rw [hframe]
  refine ⟨k', hcreate, ⟨⟨htables, by omega, ?_, ?_, ?_, ?_, ?_, ?_⟩, hcpu, ?_, ?_⟩, hthreads, by rw [hframe]⟩
  · have := h.shellCreated
    rw [hold 1 (by omega)]
    exact h.shell
  · intro p hp hpn hrun
    rcases Nat.lt_or_eq_of_le hpn with hlt | rfl
    · rw [hold p (by omega)] at hrun
      rw [hkind, hcurrent]
      exact h.procRunning p hp (by omega) hrun
    · rw [hready] at hrun
      cases hrun
  · rw [hthreads, hkind, hsched]
    exact h.threadRunning
  · rw [hkind, hthread]
    exact h.noneKind
  · rw [hkind, hcurrent, hthread]
    exact h.procKind
  · rw [hkind, hsched, hthread]
    exact h.threadKind
  · intro x hx
    cases x with
    | process p =>
        have hpn : p ≤ np := hx.2
        refine ⟨⟨hx.1, Nat.le_succ_of_le hpn⟩, ?_⟩
        rw [espOf, hold p (by omega)]
        rfl
    | thread t =>
        refine ⟨hx, ?_⟩
        rw [espOf, hthreads]
        rfl
  · intro x hx hnot
    cases x with
    | process p =>
        have hp : p = np + 1 := by
          have h1 : 1 ≤ p ∧ p ≤ np + 1 := hx
          have h2 : ¬ (1 ≤ p ∧ p ≤ np) := hnot
          omega
        rw [hp]
        exact hesp
    | thread t => exact (hnot hx).elim

theorem Coherent.procCreate (h : Coherent c k np nt) (entry : Nat) :
    ∃ k' r np', procCreate c k entry = some (k', r) ∧ Grows c k k' np nt np' nt := by
  by_cases hlt : np < 16
  · obtain ⟨k', hcreate, hgrows, _⟩ := h.procCreate_next hlt entry
    exact ⟨k', np + 1, np + 1, hcreate, hgrows⟩
  · exact ⟨k, 0, np, h.tables.procCreate_full hlt entry, h.grows_refl⟩

theorem Coherent.threadCreate_next (h : Coherent c k np nt) (hlt : nt < c.maxThreads) {fn : Nat} (hfn : fn ≠ 0)
    (arg : Nat) : ∃ k', threadCreate c k fn arg = some (k', nt + 1) ∧ Grows c k k' np nt np (nt + 1) := by
  obtain ⟨k', hcreate, htables, hready, _, _, hesp, hold, hframe⟩ := h.tables.threadCreate_spec hlt hfn arg
  have hcpu : onCpu k' = onCpu k := by rw [hframe]; rfl
  have hprocs : k'.pcbTable = k.pcbTable := by rw [hframe]
  have hkind : k'.currentKind = k.currentKind := by rw [hframe]
  have hcurrent : k'.current = k.current := by rw [hframe]
  have hsched : k'.currentSchedThread = k.currentSchedThread := by rw [hframe]
  have hthread : k'.currentThread = k.currentThread := by rw [hframe]
  refine ⟨k', hcreate, ⟨htables, h.shellCreated, ?_, ?_, ?_, ?_, ?_, ?_⟩, hcpu, ?_, ?_⟩
  · rw [hprocs]
    exact h.shell
  · rw [hprocs, hkind, hcurrent]
    exact h.procRunning
  · intro t ht htn hrun
    rcases Nat.lt_or_eq_of_le htn with hlt | rfl
    · rw [hold t (by omega)] at hrun
      rw [hkind, hsched]
      exact h.threadRunning t ht (by omega) hrun
    · rw [hready] at hrun
      cases hrun
  · rw [hkind, hthread]
    exact h.noneKind
  · rw [hkind, hcurrent, hthread]
    exact h.procKind
  · rw [hkind, hsched, hthread]
    exact h.threadKind
  · intro x hx
    cases x with
    | process p =>
        refine ⟨hx, ?_⟩
        rw [espOf, hprocs]
        rfl
    | thread t =>
        have htn : t ≤ nt := hx.2
        refine ⟨⟨hx.1, Nat.le_succ_of_le htn⟩, ?_⟩
        rw [espOf, hold t (by omega)]
        rfl
  · intro x hx hnot
    cases x with
    | process p => exact (hnot hx).elim
    | thread t =>
        have ht : t = nt + 1 := by
          have h1 : 1 ≤ t ∧ t ≤ nt + 1 := hx
          have h2 : ¬ (1 ≤ t ∧ t ≤ nt) := hnot
          omega
        rw [ht]
        exact hesp

theorem Coherent.threadCreate (h : Coherent c k np nt) (fn arg : Nat) :
    ∃ k' r nt', threadCreate c k fn arg = some (k', r) ∧ Grows c k k' np nt np nt' := by
  by_cases hslot : fn ≠ 0 ∧ nt < c.maxThreads
  · obtain ⟨k', hcreate, hgrows⟩ := h.threadCreate_next hslot.2 hslot.1 arg
    exact ⟨k', nt + 1, nt + 1, hcreate, hgrows⟩
  · have hno : fn = 0 ∨ ¬ nt < c.maxThreads := by tauto
    exact ⟨k, 0, nt, h.tables.threadCreate_refused hno arg, h.grows_refl⟩

/-- Only free slots are UNUSED. -/
theorem Tables.setThreadState (h : Tables c k np nt) (t : Nat) {state : ThreadState}
    (hunused : 1 ≤ t → t ≤ c.maxThreads → (state = .unused ↔ (k.threadTable t).state = .unused)) :
    Tables c (setThread k t (fun u => { u with state := state })) np nt := by
  refine h.of_update rfl rfl rfl h.currentProc h.currentThread h.runningThread (fun _ => ⟨rfl, rfl⟩)
    (fun _ _ _ => rfl) ?_ ?_
  · intro u
    by_cases hu : u = t
    · subst u
      rw [setThread_self]
    · rw [setThread_of_ne k t _ hu]
  · intro u hu1 hun
    by_cases hu : u = t
    · subst u
      rw [setThread_self]
      exact hunused hu1 hun
    · rw [setThread_of_ne k t _ hu]

theorem Tables.setZombie (h : Tables c k np nt) (p : Nat) :
    Tables c (setProc k p (fun q => { q with state := .zombie })) np nt := by
  refine h.of_update rfl rfl rfl h.currentProc h.currentThread h.runningThread ?_ ?_ (fun _ => rfl)
    (fun _ _ _ => Iff.rfl)
  · intro q
    by_cases hq : q = p
    · subst q
      rw [setProc_self]
      exact ⟨rfl, rfl⟩
    · rw [setProc_of_ne k p _ hq]
      exact ⟨rfl, rfl⟩
  · intro q hqn hq16
    by_cases hq : q = p
    · subst q
      rw [setProc_self, (h.freePcb p hqn hq16).2]
    · rw [setProc_of_ne k p _ hq]

/-- A thread may be put in any state but RUNNING. -/
theorem Coherent.setThreadState (h : Coherent c k np nt) (t : Nat) {state : ThreadState}
    (hstate : state ≠ .running)
    (hunused : 1 ≤ t → t ≤ c.maxThreads → (state = .unused ↔ (k.threadTable t).state = .unused)) :
    Grows c k (setThread k t (fun u => { u with state := state })) np nt np nt := by
  have hother : ∀ u, u ≠ t → (setThread k t (fun u => { u with state := state })).threadTable u =
      k.threadTable u := fun u hu => setThread_of_ne k t _ hu
  refine ⟨⟨h.tables.setThreadState t hunused, h.shellCreated, h.shell, h.procRunning, ?_, h.noneKind, h.procKind, h.threadKind⟩,
    rfl, fun x hx => ⟨hx, ?_⟩, fun x hx hnot => (hnot hx).elim⟩
  · intro u hu1 hun hrun
    by_cases hu : u = t
    · subst u
      rw [setThread_self] at hrun
      exact (hstate hrun).elim
    · rw [hother u hu] at hrun
      exact h.threadRunning u hu1 hun hrun
  · cases x with
    | process p => rfl
    | thread u =>
        by_cases hu : u = t
        · subst u
          rw [espOf, setThread_self]
          rfl
        · rw [espOf, hother u hu]
          rfl

/-- Any process but the shell may be made a ZOMBIE. -/
theorem Coherent.setZombie (h : Coherent c k np nt) {p : Nat} (hp : p ≠ 1) :
    Grows c k (setProc k p (fun q => { q with state := .zombie })) np nt np nt := by
  have hother : ∀ q, q ≠ p → (setProc k p (fun q => { q with state := .zombie })).pcbTable q =
      k.pcbTable q := fun q hq => setProc_of_ne k p _ hq
  refine ⟨⟨h.tables.setZombie p, h.shellCreated, ?_, ?_, h.threadRunning, h.noneKind, h.procKind, h.threadKind⟩,
    rfl, fun x hx => ⟨hx, ?_⟩, fun x hx hnot => (hnot hx).elim⟩
  · rw [hother 1 (Ne.symm hp)]
    exact h.shell
  · intro q hq1 hqn hrun
    by_cases hq : q = p
    · subst q
      rw [setProc_self] at hrun
      cases hrun
    · rw [hother q hq] at hrun
      exact h.procRunning q hq1 hqn hrun
  · cases x with
    | thread t => rfl
    | process q =>
        by_cases hq : q = p
        · subst q
          rw [espOf, setProc_self]
          rfl
        · rw [espOf, hother q hq]
          rfl

theorem Coherent.block (h : Coherent c k np nt) :
    Grows c k (schedulerBlockThread k k.currentThread) np nt np nt := by
  unfold schedulerBlockThread
  split
  · exact h.grows_refl
  · rename_i hzero
    have hused := h.tables.usedThread k.currentThread (Nat.pos_of_ne_zero hzero) h.tables.runningThread
    exact h.setThreadState k.currentThread nofun (fun _ _ => iff_of_false nofun hused)

theorem Coherent.exit (h : Coherent c k np nt) : Grows c k (threadExit k) np nt np nt := by
  unfold threadExit
  split
  · exact h.grows_refl
  · rename_i hzero
    have hused := h.tables.usedThread k.currentThread (Nat.pos_of_ne_zero hzero) h.tables.runningThread
    exact h.setThreadState k.currentThread nofun (fun _ _ => iff_of_false nofun hused)

theorem Coherent.unblock (h : Coherent c k np nt) (t : Nat) :
    Grows c k (schedulerUnblockThread k t) np nt np nt := by
  unfold schedulerUnblockThread
  split
  · exact h.grows_refl
  · split
    · rename_i hblocked
      refine h.setThreadState t nofun (fun _ _ => iff_of_false nofun ?_)
      rw [hblocked]
      exact nofun
    · exact h.grows_refl

theorem Coherent.kill (h : Coherent c k np nt) (pid : Nat) : Grows c k (procKill k pid).1 np nt np nt := by
  unfold procKill
  dsimp only
  split
  · exact h.grows_refl
  · split
    · exact h.grows_refl
    · rename_i hshell
      refine h.setZombie (fun hone => hshell ?_)
      rw [hone]
      exact h.tables.created 1 (Nat.le_refl 1) h.shellCreated

end Events

section Boot

theorem procInit_cleared (k : Kernel) :
    ∀ p, 1 ≤ p → p ≤ 16 → ((procInit k).pcbTable p).pid = 0 ∧ ((procInit k).pcbTable p).state = .zombie := by
  let P : Nat → Kernel → Prop := fun i s =>
    ∀ p, 1 ≤ p → p ≤ i → (s.pcbTable p).pid = 0 ∧ (s.pcbTable p).state = .zombie
  have hnone : P 0 k := fun p hp hp0 => by omega
  have h : P (0 + maxProcesses) (forRange (fun i k => setProc k (i + 1) clearPcb) 0 maxProcesses k) := by
    refine forRange_invariant P hnone ?_
    intro i s _ _ ih p hp hpi
    by_cases hlast : p = i + 1
    · subst p
      rw [setProc_self]
      exact ⟨rfl, rfl⟩
    · rw [setProc_of_ne _ _ _ hlast]
      exact ih p hp (by omega)
  rwa [Nat.zero_add] at h

theorem threadInit_cleared (c : Config) (k : Kernel) :
    ∀ t, 1 ≤ t → t ≤ c.maxThreads →
      ((threadInit c k).threadTable t).state = .unused ∧ ((threadInit c k).threadTable t).waitNext = 0 := by
  let P : Nat → Kernel → Prop := fun i s =>
    ∀ t, 1 ≤ t → t ≤ i → (s.threadTable t).state = .unused ∧ (s.threadTable t).waitNext = 0
  have h : P (0 + c.maxThreads) (forRange (fun i k => setThread k (i + 1) clearThread) 0 c.maxThreads k) := by
    refine forRange_invariant P (fun t ht ht0 => by omega) ?_
    intro i s _ _ ih t ht hti
    by_cases hlast : t = i + 1
    · subst t
      rw [setThread_self]
      exact ⟨rfl, rfl⟩
    · rw [setThread_of_ne _ _ _ hlast]
      exact ih t ht (by omega)
  rwa [Nat.zero_add] at h

theorem threadInit_pcbTable (c : Config) (k : Kernel) : (threadInit c k).pcbTable = k.pcbTable ∧
    (threadInit c k).nextPid = k.nextPid ∧ (threadInit c k).currentProc = k.currentProc := by
  let P : Nat → Kernel → Prop := fun _ s =>
    s.pcbTable = k.pcbTable ∧ s.nextPid = k.nextPid ∧ s.currentProc = k.currentProc
  have h : P (0 + c.maxThreads) (threadInit c k) :=
    forRange_invariant P ⟨rfl, rfl, rfl⟩ (fun _ _ _ _ ih => ih)
  exact h

/-- `kernel_main` up to `scheduler_start`, as far as contexts go. -/
def kernelMain (c : Config) (k : Kernel) (shellRun testProcessA testProcessB : Nat) : Option Kernel :=
  match procCreate c (schedulerInit (threadInit c (procInit k))) shellRun with
  | none => none
  | some (k, _) =>
    match procCreate c k testProcessA with
    | none => none
    | some (k, _) =>
      match procCreate c k testProcessB with
      | none => none
      | some (k, _) => some k

theorem schedulerInit_tables (c : Config) (k : Kernel) :
    Tables c (schedulerInit (threadInit c (procInit k))) 0 0 := by
  obtain ⟨hpcbs, hnextPid, _⟩ := threadInit_pcbTable c (procInit k)
  refine ⟨by decide, Nat.zero_le _, hnextPid, fun p hp hp0 => by omega, fun p hp hp16 => ?_,
    fun t ht ht0 => by omega, fun t ht htn => (threadInit_cleared c (procInit k) t ht htn).1,
    Or.inl ⟨rfl, rfl⟩, Or.inl ⟨rfl, rfl⟩, Nat.zero_le _, Nat.zero_le _, ?_⟩
  · have := procInit_cleared k p hp hp16
    rwa [← hpcbs] at this
  · exact Nat.le_refl 0

/-- The three processes exist, all at their initial frames; nothing is on the CPU. -/
theorem kernelMain_spec (c : Config) (k : Kernel) (shellRun testProcessA testProcessB : Nat) :
    ∃ k', kernelMain c k shellRun testProcessA testProcessB = some k' ∧ Coherent c k' 3 0 ∧
      onCpu k' = none ∧ (∀ x, Created 3 0 x → espOf k' x = initialEsp c x) ∧
      k'.threadTable = (threadInit c (procInit k)).threadTable ∧ k'.currentProc = 0 := by
  have h0 := schedulerInit_tables c k
  obtain ⟨k1, hcreate1, h1, hready1, hesp1, _, hframe1⟩ := h0.procCreate_spec (by decide) shellRun
  have hcurrent : k1.currentThread = 0 := by rw [hframe1]; rfl
  have hkind : k1.currentKind = .none := by rw [hframe1]; rfl
  have hcoherent1 : Coherent c k1 1 0 := by
    refine ⟨h1, Nat.le_refl 1, Or.inl hready1, ?_, fun t ht ht0 => by omega, fun _ => hcurrent, ?_, ?_⟩
    · intro p hp hp1 hrun
      have : p = 0 + 1 := by omega
      rw [this, hready1] at hrun
      cases hrun
    · intro h
      rw [hkind] at h
      cases h
    · intro h
      rw [hkind] at h
      cases h
  have hfresh1 : ∀ x, Created 1 0 x → espOf k1 x = initialEsp c x := by
    intro x hx
    cases x with
    | process p =>
        have h1 : 1 ≤ p ∧ p ≤ 1 := hx
        have : p = 0 + 1 := by omega
        rw [this]
        exact hesp1
    | thread t =>
        have h0 : 1 ≤ t ∧ t ≤ 0 := hx
        omega
  obtain ⟨k2, hcreate2, hgrows2, hthreads2, hproc2⟩ :=
    hcoherent1.procCreate_next (by decide) testProcessA
  obtain ⟨k3, hcreate3, hgrows3, hthreads3, hproc3⟩ :=
    hgrows2.coherent.procCreate_next (by decide) testProcessB
  have hthreads1 : k1.threadTable = (threadInit c (procInit k)).threadTable := by rw [hframe1]; rfl
  have hproc1 : k1.currentProc = 0 := by
    rw [hframe1]
    exact (threadInit_pcbTable c (procInit k)).2.2
  refine ⟨k3, ?_, hgrows3.coherent, ?_, hgrows3.initial (hgrows2.initial hfresh1),
    hthreads3.trans (hthreads2.trans hthreads1), hproc3.trans (hproc2.trans hproc1)⟩
  · simp only [kernelMain, hcreate1, hcreate2, hcreate3]
  · rw [hgrows3.onCpu_eq, hgrows2.onCpu_eq, onCpu, hkind]

end Boot

/-- The kernel and the history of its context switches: the stack pointer passed to
the interrupt that last switched a context out. -/
structure Session where
  kernel : Kernel
  switchedOut : Context → Option Nat

/-- What may happen next. A yield is the interrupt that it raises. -/
inductive Event where
  | irq (savedEsp : Nat)
  | procCreate (entry : Nat)
  | threadCreate (fn arg : Nat)
  | blockSelf
  | exitSelf
  | unblock (t : Nat)
  | kill (pid : Nat)
  deriving DecidableEq, Repr

def switchOut (s : Session) (savedEsp : Nat) : Context → Option Nat :=
  match onCpu s.kernel with
  | none => s.switchedOut
  | some x => Function.update s.switchedOut x (some savedEsp)

/-- Where a context resumes: where it was switched out, else its initial frame. -/
def resumeEsp (c : Config) (switchedOut : Context → Option Nat) (x : Context) : Nat :=
  (switchedOut x).getD (initialEsp c x)

/-- One event; `none` only if a loop of the scheduler does not end. -/
def step (c : Config) (s : Session) : Event → Option Session
  | .irq savedEsp => (schedulerIrq c s.kernel savedEsp).map (fun r => ⟨r.1, switchOut s savedEsp⟩)
  | .procCreate entry => (procCreate c s.kernel entry).map (fun r => { s with kernel := r.1 })
  | .threadCreate fn arg => (threadCreate c s.kernel fn arg).map (fun r => { s with kernel := r.1 })
  | .blockSelf => some { s with kernel := schedulerBlockThread s.kernel s.kernel.currentThread }
  | .exitSelf => some { s with kernel := threadExit s.kernel }
  | .unblock t => some { s with kernel := schedulerUnblockThread s.kernel t }
  | .kill pid => some { s with kernel := (procKill s.kernel pid).1 }

def Step (c : Config) (s : Session) (e : Event) (t : Session) : Prop := step c s e = some t

/-- A session as `kernel_main` starts it. -/
def Boot (c : Config) (s : Session) : Prop :=
  (∃ k shellRun testProcessA testProcessB,
    kernelMain c k shellRun testProcessA testProcessB = some s.kernel) ∧ s.switchedOut = fun _ => none

/-- The run invariant: coherent tables, and every context that is not on the CPU is
saved where it was switched out. -/
structure Resumable (c : Config) (s : Session) (np nt : Nat) : Prop where
  coherent : Coherent c s.kernel np nt
  saved : ∀ x, Created np nt x → onCpu s.kernel ≠ some x → espOf s.kernel x = resumeEsp c s.switchedOut x
  fresh : ∀ x, ¬ Created np nt x → s.switchedOut x = none

theorem boot_resumable {c : Config} {s : Session} (h : Boot c s) : Resumable c s 3 0 := by
  obtain ⟨⟨k, shellRun, testProcessA, testProcessB, hmain⟩, hnone⟩ := h
  obtain ⟨k', hmain', hcoherent, _, hesp, _⟩ := kernelMain_spec c k shellRun testProcessA testProcessB
  rw [hmain] at hmain'
  cases hmain'
  refine ⟨hcoherent, fun x hx _ => ?_, fun x _ => by rw [hnone]⟩
  rw [hesp x hx, resumeEsp, hnone]
  rfl

/-- No thread waits for anything when the scheduler starts. -/
theorem Boot.waitNext {c : Config} {s : Session} (h : Boot c s) {t : Nat} (ht : 1 ≤ t)
    (htn : t ≤ c.maxThreads) : (s.kernel.threadTable t).waitNext = 0 := by
  obtain ⟨⟨k, shellRun, testProcessA, testProcessB, hmain⟩, _⟩ := h
  obtain ⟨k', hmain', _, _, _, hthreads, _⟩ := kernelMain_spec c k shellRun testProcessA testProcessB
  rw [hmain] at hmain'
  cases hmain'
  rw [hthreads]
  exact (threadInit_cleared c (procInit k) t ht htn).2

/-- Nobody is current when the scheduler starts. -/
theorem Boot.currentProc {c : Config} {s : Session} (h : Boot c s) : s.kernel.currentProc = 0 := by
  obtain ⟨⟨k, shellRun, testProcessA, testProcessB, hmain⟩, _⟩ := h
  obtain ⟨k', hmain', _, _, _, _, hproc⟩ := kernelMain_spec c k shellRun testProcessA testProcessB
  rw [hmain] at hmain'
  cases hmain'
  exact hproc

theorem Resumable.grows {c : Config} {s : Session} {k' : Kernel} {np nt np' nt' : Nat}
    (h : Resumable c s np nt) (hgrows : Grows c s.kernel k' np nt np' nt') :
    Resumable c { s with kernel := k' } np' nt' := by
  refine ⟨hgrows.coherent, fun x hx hcpu => ?_, fun x hx => h.fresh x (fun hold => hx (hgrows.kept x hold).1)⟩
  have hcpu : onCpu s.kernel ≠ some x := by rwa [← hgrows.onCpu_eq]
  by_cases hold : Created np nt x
  · exact (hgrows.kept x hold).2.trans (h.saved x hold hcpu)
  · rw [hgrows.fresh x hx hold, resumeEsp, h.fresh x hold]
    rfl

/-- Saving records the interrupted context; then every created context can be
resumed from where it was switched out. -/
theorem Resumable.saved_esp {c : Config} {s : Session} {np nt : Nat} (h : Resumable c s np nt)
    (savedEsp : Nat) {x : Context} (hx : Created np nt x) :
    espOf (savedKernel s.kernel savedEsp) x = resumeEsp c (switchOut s savedEsp) x := by
  rw [h.coherent.saved_esp, resumeEsp, switchOut]
  cases hcpu : onCpu s.kernel with
  | none =>
      have := h.saved x hx (by simp [hcpu])
      simpa [resumeEsp] using this
  | some y =>
      by_cases hxy : x = y
      · subst y
        simp
      · rw [if_neg (by simpa using Ne.symm hxy)]
        simp only [Function.update_of_ne hxy]
        exact h.saved x hx (by simpa [hcpu] using Ne.symm hxy)

theorem Resumable.irq {c : Config} {s : Session} {np nt : Nat} (h : Resumable c s np nt) (savedEsp : Nat) :
    ∃ t, Step c s (.irq savedEsp) t ∧ Resumable c t np nt := by
  obtain ⟨x, hx, _, hirq, hcoherent⟩ := h.coherent.irq savedEsp
  refine ⟨_, by rw [Step, step, hirq]; rfl, hcoherent, fun y hy _ => ?_, fun y hy => ?_⟩
  · exact (resume_espOf _ x y).trans (h.saved_esp savedEsp hy)
  · unfold switchOut
    split
    · exact h.fresh y hy
    · rename_i z hz
      have hyz : y ≠ z := fun heq => hy (heq ▸ h.coherent.onCpu_created hz)
      exact (Function.update_of_ne hyz ..).trans (h.fresh y hy)

theorem step_resumable {c : Config} {s t : Session} {e : Event} (h : ∃ np nt, Resumable c s np nt)
    (step : Step c s e t) : ∃ np nt, Resumable c t np nt := by
  obtain ⟨np, nt, h⟩ := h
  cases e with
  | irq savedEsp =>
      obtain ⟨t', step', hirq⟩ := h.irq savedEsp
      cases step.symm.trans step'
      exact ⟨np, nt, hirq⟩
  | procCreate entry =>
      obtain ⟨k', r, np', hcreate, hgrows⟩ := h.coherent.procCreate entry
      simp only [Step, Sched.step, hcreate, Option.map_some, Option.some.injEq] at step
      exact step ▸ ⟨np', nt, h.grows hgrows⟩
  | threadCreate fn arg =>
      obtain ⟨k', r, nt', hcreate, hgrows⟩ := h.coherent.threadCreate fn arg
      simp only [Step, Sched.step, hcreate, Option.map_some, Option.some.injEq] at step
      exact step ▸ ⟨np, nt', h.grows hgrows⟩
  | blockSelf =>
      cases step
      exact ⟨np, nt, h.grows h.coherent.block⟩
  | exitSelf =>
      cases step
      exact ⟨np, nt, h.grows h.coherent.exit⟩
  | unblock t =>
      cases step
      exact ⟨np, nt, h.grows (h.coherent.unblock t)⟩
  | kill pid =>
      cases step
      exact ⟨np, nt, h.grows (h.coherent.kill pid)⟩

theorem run_resumable {c : Config} {s t : Session} {events : List Event} (h : Boot c s)
    (run : Run (Step c) s events t) : ∃ np nt, Resumable c t np nt :=
  run.invariant (fun _ _ _ h step => step_resumable h step) ⟨3, 0, boot_resumable h⟩

/-- What `scheduler_irq` promises to the code that it returns to. -/
def Dispatched (c : Config) (s : Session) (savedEsp : Nat) (k' : Kernel) (esp : Nat) : Prop :=
  ∃ x, InTable c x ∧ onCpu k' = some x ∧ (∀ y, InTable c y → (IsRunning k' y ↔ y = x)) ∧
    IsReady (savedKernel s.kernel savedEsp) x ∧ CurrentIs k' x ∧
    esp = resumeEsp c (switchOut s savedEsp) x

theorem Coherent.free_notRunning {c : Config} {k : Kernel} {np nt : Nat} (h : Coherent c k np nt)
    {y : Context} (hy : InTable c y) (hfree : ¬ Created np nt y) : ¬ IsRunning k y := by
  cases y with
  | process p =>
      have hp : 1 ≤ p ∧ p ≤ 16 := hy
      have hnot : ¬ (1 ≤ p ∧ p ≤ np) := hfree
      rw [IsRunning, (h.tables.freePcb p (by omega) hp.2).2]
      intro hrun
      cases hrun
  | thread t =>
      have ht : 1 ≤ t ∧ t ≤ c.maxThreads := hy
      have hnot : ¬ (1 ≤ t ∧ t ≤ nt) := hfree
      rw [IsRunning, h.tables.freeThread t (by omega) ht.2]
      intro hrun
      cases hrun

/-- In every reachable state every interrupt ends, and resumes the one RUNNING
context on its own stack pointer. -/
theorem run_irq_dispatched {c : Config} {s t : Session} {events : List Event} (boot : Boot c s)
    (run : Run (Step c) s events t) (savedEsp : Nat) :
    ∃ k' esp, schedulerIrq c t.kernel savedEsp = some (k', esp) ∧ Dispatched c t savedEsp k' esp := by
  obtain ⟨np, nt, h⟩ := run_resumable boot run
  obtain ⟨x, hx, hready, hirq, hcoherent⟩ := h.coherent.irq savedEsp
  let resumed := resume (togglePreference (savedKernel t.kernel savedEsp)) x
  refine ⟨resumed.1, resumed.2, hirq, x, hx.inTable h.coherent.tables, resume_onCpu _ x, fun y hy => ?_,
    hready, resume_currentIs _ x, (resume_esp _ x).trans (h.saved_esp savedEsp hx)⟩
  constructor
  · intro hrun
    by_cases hcreated : Created np nt y
    · exact ((resume_isRunning _ x y).mp hrun).resolve_right (h.coherent.settled.saved_notRunning savedEsp hcreated)
    · exact (hcoherent.free_notRunning hy hcreated hrun).elim
  · exact fun hyx => (resume_isRunning _ x y).mpr (Or.inl hyx)

/-- `thread.h` with stacks and code at some addresses of the image. -/
def sampleConfig : Config := ⟨32, 0x20000, 0x30000, 0x10500⟩

/-- The statics as the loader leaves them. -/
def blankKernel : Kernel :=
  { pcbTable := fun _ => ⟨0, .ready, 0, 0, 0, 0, 0⟩, currentProc := 0, nextPid := 1
    threadTable := fun _ => ⟨0, .unused, 0, 0, 0, 0, 0, 0, 0⟩, nextTid := 1, currentThread := 0
    readyHead := 0, current := 0, threadHead := 0, currentSchedThread := 0, currentKind := .none
    preferThread := false, systemTicks := 0, memory := fun _ => 0 }

theorem sampleKernel_isSome : (kernelMain sampleConfig blankKernel 0x10100 0x10200 0x10300).isSome = true := by
  decide +kernel

def sampleSession : Session :=
  ⟨(kernelMain sampleConfig blankKernel 0x10100 0x10200 0x10300).get sampleKernel_isSome, fun _ => none⟩

theorem sampleSession_boot : Boot sampleConfig sampleSession :=
  ⟨⟨blankKernel, 0x10100, 0x10200, 0x10300, (Option.some_get sampleKernel_isSome).symm⟩, rfl⟩

/-- A thread is created, runs, blocks itself and is woken; process A is killed. -/
def sampleEvents : List Event :=
  [.irq 0x9000, .threadCreate 0x10400 7, .irq 0x20F80, .irq 0x21F80, .blockSelf, .irq 0x31F40, .unblock 1,
    .kill 2]

theorem run_irq_dispatched_sample :
    ∃ t k' esp, Run (Step sampleConfig) sampleSession sampleEvents t ∧
      schedulerIrq sampleConfig t.kernel 0x22F00 = some (k', esp) ∧
      Dispatched sampleConfig t 0x22F00 k' esp := by
  have hsome : (execute (step sampleConfig) sampleSession sampleEvents).isSome = true := by decide +kernel
  obtain ⟨t, ht⟩ := Option.isSome_iff_exists.mp hsome
  have run : Run (Step sampleConfig) sampleSession sampleEvents t := run_of_execute ht
  obtain ⟨k', esp, h⟩ := run_irq_dispatched sampleSession_boot run 0x22F00
  exact ⟨t, k', esp, run, h⟩

end SengKernel.Sched
