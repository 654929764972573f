import SengKernel.SchedulerActivity

/- The run queues over whole runs, from the empty tables on and under any order of
   calls: what lies on the rings, in which order, and what the two searches find. -/
namespace SengKernel.Sched
open LinkedRing Transition

/-- The kernel with the contexts created so far, in the order of their creation. -/
structure Census where
  kernel : Kernel
  processes : List Nat
  threads : List Nat

/-- The entry that a creation returned, if it was not null. -/
def entered : Option (Kernel × Nat) → List Nat
  | none => []
  | some (_, slot) => if slot = 0 then [] else [slot]

@[simp] theorem entered_null (k : Kernel) : entered (some (k, 0)) = [] := rfl

@[simp] theorem entered_succ (k : Kernel) (n : Nat) : entered (some (k, n + 1)) = [n + 1] := rfl

def newProcesses (c : Config) (k : Kernel) : Act → List Nat
  | .event (.procCreate entry) => entered (procCreate c k entry)
  | _ => []

def newThreads (c : Config) (k : Kernel) : Act → List Nat
  | .event (.threadCreate fn arg) => entered (threadCreate c k fn arg)
  | _ => []

/-- One call or one interrupt; `none` only if one of its loops does not end. -/
def censusStep (c : Config) (s : Census) (a : Act) : Option Census :=
  (change c s.kernel a).map (fun k =>
    ⟨k, s.processes ++ newProcesses c s.kernel a, s.threads ++ newThreads c s.kernel a⟩)

def CensusStep (c : Config) (s : Census) (a : Act) (t : Census) : Prop := censusStep c s a = some t

/-- The empty tables, as the three init functions leave them. -/
def initialised (c : Config) (k : Kernel) : Census := ⟨schedulerInit (threadInit c (procInit k)), [], []⟩

/-- Where a search starts. -/
def searchStart (next : Nat → Nat) (head current : Nat) : Nat := if current ≠ 0 then next current else head

/-- The nodes in the order of the search: all of them, the current one last. -/
def searchOrder (l : List Nat) (current : Nat) : List Nat := if current ≠ 0 then roundFrom l current else l

/-- A run queue with the nodes `l`, and what a search of it found. The fuel of both
loops is the number of nodes, one for every visit. -/
structure RunQueue (next : Nat → Nat) (head current : Nat) (l : List Nat) (ready : Nat → Bool)
    (found : Option Nat) : Prop where
  cycle : (l = [] ∧ head = 0) ∨ IsRing next head l
  current_mem : current ≠ 0 → current ∈ l
  walk : ∀ x v, x ∉ l → l ≠ [] → walkToLast (Function.update next x v) head l.length head = l.getLast?
  order : l ≠ [] → IsRing next (searchStart next head current) (searchOrder l current)
  order_perm : (searchOrder l current).Perm l
  ends : l ≠ [] →
    search next ready 0 (searchStart next head current) l.length (searchStart next head current) = found
  first : found = some (((searchOrder l current).find? ready).getD 0)
  null : found = some 0 ↔ ∀ x, x ∈ l → ready x = false

section Queues

variable {next : Nat → Nat} {head current fuel : Nat} {l : List Nat} {ready : Nat → Bool} {found : Option Nat}

theorem searchOrder_perm (l : List Nat) (current : Nat) : (searchOrder l current).Perm l := by
  rw [searchOrder]
  split
  · exact roundFrom_perm l current
  · exact List.Perm.refl l

theorem searchOrder_ring (h : IsRing next head l) (hcurrent : current ≠ 0 → current ∈ l) :
    IsRing next (searchStart next head current) (searchOrder l current) := by
  rw [searchStart, searchOrder]
  split
  · rename_i hne
    exact h.roundFrom (hcurrent hne)
  · exact h

theorem find_null_iff (hnull : 0 ∉ l) : (l.find? ready).getD 0 = 0 ↔ ∀ x, x ∈ l → ready x = false := by
  constructor
  · intro hzero
    cases hfind : l.find? ready with
    | none =>
        intro x hx
        simpa using List.find?_eq_none.mp hfind x hx
    | some r =>
        rw [hfind] at hzero
        obtain rfl : r = 0 := hzero
        exact absurd (List.mem_of_find?_eq_some hfind) hnull
  · intro hnone
    have hfind : l.find? ready = none := by
      rw [List.find?_eq_none]
      intro x hx
      simp [hnone x hx]
    rw [hfind]
    rfl

/-- Both searches of the scheduler are this one, on their own table. -/
theorem runQueue_of_ring (hcycle : (l = [] ∧ head = 0) ∨ IsRing next head l) (hnull : 0 ∉ l)
    (hcurrent : current ≠ 0 → current ∈ l) (hfuel : l.length ≤ fuel)
    (hfound : found = if head = 0 then some 0 else if searchStart next head current = 0 then some 0
      else search next ready 0 (searchStart next head current) fuel (searchStart next head current)) :
    RunQueue next head current l ready found := by
  have hperm := searchOrder_perm l current
  have hnull' : 0 ∉ searchOrder l current := fun hmem => hnull (hperm.mem_iff.mp hmem)
  have hring : l ≠ [] → IsRing next head l := fun hne => hcycle.resolve_left (fun hempty => hne hempty.1)
  have hsearch : ∀ n, l.length ≤ n → l ≠ [] →
      search next ready 0 (searchStart next head current) n (searchStart next head current) =
        some (((searchOrder l current).find? ready).getD 0) := by
    intro n hn hne
    exact (searchOrder_ring (hring hne) hcurrent).search_find hnull' (hperm.length_eq.trans_le hn)
  have hfirst : found = some (((searchOrder l current).find? ready).getD 0) := by
    rcases hcycle with ⟨rfl, rfl⟩ | hnodes
    · rw [hfound, if_pos rfl, hperm.eq_nil]
      rfl
    · have hstart : searchStart next head current ≠ 0 := by
        intro hzero
        exact hnull' (hzero ▸ (searchOrder_ring hnodes hcurrent).head_mem)
      have hhead : head ≠ 0 := fun hzero => hnull (hzero ▸ hnodes.head_mem)
      rw [hfound, if_neg hhead, if_neg hstart]
      exact hsearch fuel hfuel hnodes.nonempty
  refine ⟨hcycle, hcurrent, ?_, fun hne => searchOrder_ring (hring hne) hcurrent, hperm, ?_, hfirst, ?_⟩
  · intro x v hx hne
    have hsame : ∀ y, y ∈ l → Function.update next x v y = next y := by
      intro y hy
      refine Function.update_of_ne ?_ ..
      rintro rfl
      exact hx hy
    exact ((hring hne).congr hsame).walk (Nat.le_refl _)
  · intro hne
    rw [hfirst]
    exact hsearch l.length (Nat.le_refl _) hne
  · rw [hfirst, Option.some_inj, find_null_iff hnull']
    exact forall_congr' (fun x => by rw [hperm.mem_iff])

end Queues

section Steps

variable {c : Config} {k k' : Kernel} {np nt : Nat}

theorem Queue.cycle {next : Nat → Nat} {head n : Nat} (h : Queue next head n) :
    (List.range' 1 n = [] ∧ head = 0) ∨ IsRing next head (List.range' 1 n) := by
  rcases h with ⟨rfl, rfl⟩ | ⟨_, hring⟩
  · exact Or.inl ⟨rfl, rfl⟩
  · exact Or.inr hring

theorem null_notMem_queue (n : Nat) : 0 ∉ List.range' 1 n := by
  rw [mem_queue]
  omega

/-- The queue of the processes and that of the threads, in one kernel. -/
structure RunQueues (c : Config) (k : Kernel) (processes threads : List Nat) : Prop where
  procs : RunQueue (procNext k) k.readyHead k.current processes (fun p => (k.pcbTable p).state = .ready)
    (findNextProcess k)
  thrds : RunQueue (threadNext k) k.threadHead k.currentSchedThread threads
    (fun t => (k.threadTable t).state = .ready) (findNextThread c k)

theorem Tables.runQueues (h : Tables c k np nt) : RunQueues c k (List.range' 1 np) (List.range' 1 nt) := by
  constructor
  · refine runQueue_of_ring h.procRing.cycle (null_notMem_queue np) (fun hne => ?_) ?_ rfl
    · exact mem_queue.mpr ⟨Nat.pos_of_ne_zero hne, h.currentProc⟩
    · rw [List.length_range']
      exact h.procCount
  · refine runQueue_of_ring h.threadRing.cycle (null_notMem_queue nt) (fun hne => ?_) ?_ rfl
    · exact mem_queue.mpr ⟨Nat.pos_of_ne_zero hne, h.currentThread⟩
    · rw [List.length_range']
      exact h.threadCount

theorem Tables.irq (h : Tables c k np nt) (savedEsp : Nat) :
    ∃ r, schedulerIrq c k savedEsp = some r ∧ Tables c r.1 np nt := by
  have hsaved := h.saved_tables savedEsp
  rcases hsaved.chooseNext_cases with ⟨x, hx, hready, hchoose⟩ | ⟨_, hchoose⟩
  · exact ⟨_, schedulerIrq_of_chosen hx hchoose, hsaved.resume hx hready⟩
  · exact ⟨_, schedulerIrq_of_none hchoose,
      hsaved.of_update rfl rfl rfl hsaved.currentProc hsaved.currentThread hsaved.runningThread
        (fun _ => ⟨rfl, rfl⟩) (fun _ _ _ => rfl) (fun _ => rfl) (fun _ _ _ => Iff.rfl)⟩

/-- A new entry comes last, and a creation that fails adds none. -/
theorem Tables.procCreate_entered (h : Tables c k np nt) (entry : Nat) :
    ∃ r np', procCreate c k entry = some r ∧ Tables c r.1 np' nt ∧
      List.range' 1 np' = List.range' 1 np ++ entered (procCreate c k entry) := by
  by_cases hlt : np < 16
  · obtain ⟨k', hcreate, htables, _⟩ := h.procCreate_spec hlt entry
    refine ⟨_, np + 1, hcreate, htables, ?_⟩
    rw [hcreate, entered_succ, List.range'_concat, Nat.one_mul, Nat.add_comm 1 np]
  · have hcreate := h.procCreate_full hlt entry
    exact ⟨_, np, hcreate, h, by rw [hcreate, entered_null, List.append_nil]⟩

theorem Tables.threadCreate_entered (h : Tables c k np nt) (fn arg : Nat) :
    ∃ r nt', threadCreate c k fn arg = some r ∧ Tables c r.1 np nt' ∧
      List.range' 1 nt' = List.range' 1 nt ++ entered (threadCreate c k fn arg) := by
  by_cases hslot : fn ≠ 0 ∧ nt < c.maxThreads
  · obtain ⟨k', hcreate, htables, _⟩ := h.threadCreate_spec hslot.2 hslot.1 arg
    refine ⟨_, nt + 1, hcreate, htables, ?_⟩
    rw [hcreate, entered_succ, List.range'_concat, Nat.one_mul, Nat.add_comm 1 nt]
  · have hno : fn = 0 ∨ ¬ nt < c.maxThreads := by tauto
    have hcreate := h.threadCreate_refused hno arg
    exact ⟨_, nt, hcreate, h, by rw [hcreate, entered_null, List.append_nil]⟩

theorem newProcesses_of_ne {a : Act} (h : ∀ entry, a ≠ .event (.procCreate entry)) : newProcesses c k a = [] := by
  unfold newProcesses
  split
  · rename_i entry
    exact absurd rfl (h entry)
  · rfl

theorem newThreads_of_ne {a : Act} (h : ∀ fn arg, a ≠ .event (.threadCreate fn arg)) : newThreads c k a = [] := by
  unfold newThreads
  split
  · rename_i fn arg
    exact absurd rfl (h fn arg)
  · rfl

/-- Every call ends, and the entries are numbered in the order of their creation. -/
theorem Tables.change (h : Tables c k np nt) (a : Act) :
    ∃ k' np' nt', change c k a = some k' ∧ Tables c k' np' nt' ∧
      List.range' 1 np' = List.range' 1 np ++ newProcesses c k a ∧
      List.range' 1 nt' = List.range' 1 nt ++ newThreads c k a := by
  have hkeep : (∀ entry, a ≠ .event (.procCreate entry)) → (∀ fn arg, a ≠ .event (.threadCreate fn arg)) →
      ∀ k', Sched.change c k a = some k' → Tables c k' np nt → ∃ k' np' nt', Sched.change c k a = some k' ∧
        Tables c k' np' nt' ∧ List.range' 1 np' = List.range' 1 np ++ newProcesses c k a ∧
        List.range' 1 nt' = List.range' 1 nt ++ newThreads c k a := by
    intro hprocs hthreads k' hchange htables
    refine ⟨k', np, nt, hchange, htables, ?_, ?_⟩
    · rw [newProcesses_of_ne hprocs, List.append_nil]
    · rw [newThreads_of_ne hthreads, List.append_nil]
  cases a with
  | procExit =>
      refine hkeep (by simp) (by simp) _ rfl ?_
      rw [procExit]
      split
      · exact h
      · exact h.setZombie _
  | event e =>
      cases e with
      | irq savedEsp =>
          obtain ⟨r, hirq, htables⟩ := h.irq savedEsp
          exact hkeep (by simp) (by simp) r.1 (by simp [Sched.change, step, hirq]) htables
      | procCreate entry =>
          obtain ⟨r, np', hcreate, htables, hnew⟩ := h.procCreate_entered entry
          refine ⟨r.1, np', nt, by simp [Sched.change, step, hcreate], htables, hnew, ?_⟩
          exact (List.append_nil _).symm
      | threadCreate fn arg =>
          obtain ⟨r, nt', hcreate, htables, hnew⟩ := h.threadCreate_entered fn arg
          refine ⟨r.1, np, nt', by simp [Sched.change, step, hcreate], htables, ?_, hnew⟩
          exact (List.append_nil _).symm
      | blockSelf =>
          refine hkeep (by simp) (by simp) _ rfl ?_
          change Tables c (schedulerBlockThread k k.currentThread) np nt
          rw [schedulerBlockThread]
          split
          · exact h
          · rename_i hon
            have hused := h.usedThread k.currentThread (Nat.pos_of_ne_zero hon) h.runningThread
            exact h.setThreadState _ (fun _ _ => iff_of_false (by decide) hused)
      | exitSelf =>
          refine hkeep (by simp) (by simp) _ rfl ?_
          change Tables c (threadExit k) np nt
          rw [threadExit]
          split
          · exact h
          · rename_i hon
            have hused := h.usedThread k.currentThread (Nat.pos_of_ne_zero hon) h.runningThread
            exact h.setThreadState _ (fun _ _ => iff_of_false (by decide) hused)
      | unblock t =>
          refine hkeep (by simp) (by simp) _ rfl ?_
          change Tables c (schedulerUnblockThread k t) np nt
          rw [schedulerUnblockThread]
          split
          · exact h
          · split
            · rename_i hblocked
              exact h.setThreadState _ (fun _ _ => iff_of_false (by decide) (by rw [hblocked]; decide))
            · exact h
      | kill pid =>
          refine hkeep (by simp) (by simp) _ rfl ?_
          change Tables c (procKill k pid).1 np nt
          simp only [procKill]
          split
          · exact h
          · split
            · exact h
            · exact h.setZombie _

end Steps

/-- The entries of both tables are those created, in the order of their creation. -/
def Counted (c : Config) (s : Census) : Prop :=
  ∃ np nt, Tables c s.kernel np nt ∧ s.processes = List.range' 1 np ∧ s.threads = List.range' 1 nt

theorem counted_initialised (c : Config) (k : Kernel) : Counted c (initialised c k) :=
  ⟨0, 0, schedulerInit_tables c k, rfl, rfl⟩

theorem Counted.step {c : Config} {s : Census} (h : Counted c s) (a : Act) :
    ∃ t, CensusStep c s a t ∧ Counted c t := by
  obtain ⟨np, nt, htables, hprocs, hthreads⟩ := h
  obtain ⟨k', np', nt', hchange, htables', hnewProcs, hnewThreads⟩ := htables.change a
  refine ⟨_, by rw [CensusStep, censusStep, hchange]; rfl, np', nt', htables', ?_, ?_⟩
  · rw [hnewProcs, ← hprocs]
  · rw [hnewThreads, ← hthreads]

theorem run_counted {c : Config} {k : Kernel} {acts : List Act} {s : Census}
    (run : Run (CensusStep c) (initialised c k) acts s) : Counted c s := by
  refine run.invariant (fun s a t h step => ?_) (counted_initialised c k)
  obtain ⟨t', hstep, h'⟩ := h.step a
  obtain rfl := Option.some.inj (hstep.symm.trans step)
  exact h'

/-- After any run the queues are rings of what was created, in that order; the
searches are right, also where `scheduler_irq` makes them; and every further call
ends. -/
theorem run_queues_sound {c : Config} {k : Kernel} {acts : List Act} {s : Census}
    (run : Run (CensusStep c) (initialised c k) acts s) :
    RunQueues c s.kernel s.processes s.threads ∧
    (∀ savedEsp, RunQueues c (savedKernel s.kernel savedEsp) s.processes s.threads) ∧
    ∀ a, ∃ t, CensusStep c s a t := by
  obtain ⟨np, nt, htables, hprocs, hthreads⟩ := run_counted run
  rw [hprocs, hthreads]
  refine ⟨htables.runQueues, fun savedEsp => (htables.saved_tables savedEsp).runQueues, fun a => ?_⟩
  obtain ⟨t, hstep, _⟩ := (run_counted run).step a
  exact ⟨t, hstep⟩

/-- The three processes of `kernel_main` and one thread; process A is killed. -/
def sampleActs : List Act :=
  [.event (.procCreate 0x10100), .event (.procCreate 0x10200), .event (.procCreate 0x10300), .event (.irq 0x9000),
    .event (.threadCreate 0x10400 7), .event (.kill 2)]

theorem run_queues_sound_sample :
    ∃ s, Run (CensusStep sampleConfig) (initialised sampleConfig blankKernel) sampleActs s ∧
      s.processes = [1, 2, 3] ∧ RunQueues sampleConfig s.kernel s.processes s.threads := by
  have hprocs : (execute (censusStep sampleConfig) (initialised sampleConfig blankKernel) sampleActs).map
      Census.processes = some [1, 2, 3] := by decide +kernel
  obtain ⟨s, hs, hprocesses⟩ := Option.map_eq_some_iff.mp hprocs
  have run : Run (CensusStep sampleConfig) (initialised sampleConfig blankKernel) sampleActs s := run_of_execute hs
  exact ⟨s, run, hprocesses, (run_queues_sound run).1⟩

end SengKernel.Sched
