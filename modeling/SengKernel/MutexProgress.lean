import SengKernel.MutexDemo
import SengKernel.ThreadProgress

/- The mutex demo comes to its end: the thread that holds the mutex can always run. -/
namespace SengKernel.Sync
open Sched MachineWord Transition LinkedChain

/-- The statements that a thread has left: eight for every round, and three to end. -/
def MutexPlace.cost (rounds : Nat) : MutexPlace → Nat
  | .test i => 8 * (rounds - i) + 3
  | .lock i => 8 * (rounds - (i + 1)) + 10
  | .read i => 8 * (rounds - (i + 1)) + 7
  | .yield i _ => 8 * (rounds - (i + 1)) + 6
  | .write i _ => 8 * (rounds - (i + 1)) + 5
  | .unlock i => 8 * (rounds - (i + 1)) + 4
  | .done => 2
  | .exit => 1

theorem mutexThread_bounded (m rounds : Nat) :
    Bounded (mutexThread m rounds) (fun _ => MutexPlace.cost rounds) := by
  intro t p g
  cases p with
  | test i =>
      simp only [mutexThread, Statement.Within]
      split
      · simp only [MutexPlace.cost]
        omega
      · simp only [MutexPlace.cost]
        omega
  | _ =>
      simp only [mutexThread, Statement.Within, MutexPlace.cost, Op.after]
      omega

/-- Who waits, waits for this mutex, and its owner does not. -/
structure Attended (c : Config) (m : Nat) (s : State) : Prop where
  only : ∀ q, q ≠ .mutex m → s.waitHead q = 0
  owned : s.waitHead (.mutex m) ≠ 0 → s.owner m ≠ 0
  awake : Slot c (s.owner m) → threadState s (s.owner m) ≠ .blocked

section Attended

variable {c : Config} {m rounds np nt : Nat} {l : Object → List Nat} {s s' : State} {x y : MutexClient} {k : Tick}

/-- A thread joins the queue of the mutex that another one holds. -/
theorem Attended.suspend (h : Attended c m s) (hrun : running s ≠ 0) (howned : s.owner m ≠ 0)
    (hother : s.owner m ≠ running s) : Attended c m (suspend s (.mutex m) (running s)) := by
  have hframe := suspend_frame s (.mutex m) (running s)
  have howner : (Sync.suspend s (.mutex m) (running s)).owner = s.owner := by rw [hframe]
  have hhead : (Sync.suspend s (.mutex m) (running s)).waitHead = (enqueue s (.mutex m) (running s)).waitHead := rfl
  refine ⟨?_, ?_, ?_⟩
  · intro q hq
    rw [hhead, (enqueue_links s (.mutex m) (running s)).2.1]
    split
    · rw [Function.update_of_ne hq]
      exact h.only q hq
    · exact h.only q hq
  · intro _
    rw [howner]
    exact howned
  · rw [howner, suspend_threadState hrun, if_neg hother]
    exact h.awake

/-- The first waiter gets the mutex. -/
theorem Attended.handOver (h : Attended c m s) (hq : Queues c s np nt l) (hwaiter : s.waitHead (.mutex m) ≠ 0) :
    Attended c m (setLocked (setOwner (unblockThread (dequeue s (.mutex m)) (s.waitHead (.mutex m))) m
      (s.waitHead (.mutex m))) m true) := by
  obtain ⟨ws, hl⟩ := hq.first hwaiter
  have hblocked : threadState s (s.waitHead (.mutex m)) = .blocked := by
    apply hq.member_blocked (q := .mutex m)
    rw [hl]
    exact List.mem_cons_self
  have howner : (setLocked (setOwner (unblockThread (dequeue s (.mutex m)) (s.waitHead (.mutex m))) m
      (s.waitHead (.mutex m))) m true).owner m = s.waitHead (.mutex m) := Function.update_self ..
  refine ⟨?_, ?_, ?_⟩
  · intro q hq
    have hhead : (setLocked (setOwner (unblockThread (dequeue s (.mutex m)) (s.waitHead (.mutex m))) m
        (s.waitHead (.mutex m))) m true).waitHead = (dequeue s (.mutex m)).waitHead := rfl
    rw [hhead, (dequeue_links s (.mutex m)).2.1, Function.update_of_ne hq]
    exact h.only q hq
  · intro _
    rw [howner]
    exact hwaiter
  · intro _
    have hstate := wakeFirst_threadState (q := .mutex m) hwaiter hblocked (s.waitHead (.mutex m))
    rw [if_pos rfl] at hstate
    rw [howner]
    intro hends
    cases hstate.symm.trans hends

theorem Attended.performed (h : Attended c m s) (hq : Queues c s np nt l) (hfree : Free s)
    (hlocked : s.locked m = true ↔ s.owner m ≠ 0) {op : Op} (hop : op = .lock m ∨ op = .unlock m)
    (hp : Performed s op s') : Attended c m s' := by
  cases hp with
  | lockNobody | relock | unlockFree | unlockOther => exact h
  | acquire somebody unlocked =>
      rcases hop with hop | hop
      · cases hop
        have howner : (setOwner (setLocked s m true) m (running s)).owner m = running s := Function.update_self ..
        refine ⟨h.only, ?_, ?_⟩
        · intro _
          rw [howner]
          exact somebody
        · intro _
          rw [howner]
          exact (hq.free hfree somebody).1
      · cases hop
  | lockBlock somebody locked own =>
      rcases hop with hop | hop
      · cases hop
        exact h.suspend somebody (hlocked.mp locked) own
      · cases hop
  | release locked own empty =>
      rcases hop with hop | hop
      · cases hop
      · cases hop
        have howner : (setOwner (setLocked s m false) m 0).owner m = 0 := Function.update_self ..
        refine ⟨h.only, ?_, ?_⟩
        · intro hwaiter
          exact (hwaiter empty).elim
        · rw [howner]
          intro hslot
          exact absurd hslot.1 (by decide)
  | handOver locked own waiter =>
      rcases hop with hop | hop
      · cases hop
      · cases hop
        exact h.handOver hq waiter
  | waitNobody | take | waitBlock | pass | bank => rcases hop with hop | hop <;> cases hop

theorem Attended.quiet (h : Attended c m s) (hq : Queues c s np nt l) {mv : Move} (step : Moved c s mv s')
    (hcall : ∀ op, mv ≠ .call op) : Attended c m s' := by
  obtain ⟨np', nt', _, hq', hquiet⟩ := hq.quiet step hcall
  have hhead : s'.waitHead = s.waitHead := by rw [hquiet.frame]
  have howner : s'.owner = s.owner := by rw [hquiet.frame]
  refine ⟨?_, ?_, ?_⟩
  · rw [hhead]
    exact h.only
  · rw [hhead, howner]
    exact h.owned
  · rw [howner]
    intro hslot
    rw [ne_eq, hq'.blocked _ hslot, ← hq.blocked _ hslot]
    exact h.awake hslot

theorem Attended.ticked (h : Attended c m x.machine) (hq : Queues c x.machine np nt l)
    (hlocked : x.machine.locked m = true ↔ x.machine.owner m ≠ 0) (step : Ticked c (mutexThread m rounds) x y) :
    Attended c m y.machine := by
  cases step with
  | scheduled step quiet => exact h.quiet hq step quiet
  | yielded executing statement step => exact h.quiet hq step nofun
  | called executing statement step =>
      refine h.performed hq executing.2 hlocked ?_ step
      generalize x.place (running x.machine) = p at statement
      cases p <;> cases statement
      · exact Or.inl rfl
      · exact Or.inr rfl
  | worked => exact h

theorem Initial.attended {count : Nat → Int} (h : Initial c count s) : Attended c m s := by
  have hhead : ∀ q, s.waitHead q = 0 := fun q => congrFun h.waitHead q
  have howner : s.owner m = 0 := congrFun h.owner m
  refine ⟨fun q _ => hhead q, fun hne => (hne (hhead _)).elim, ?_⟩
  rw [howner]
  intro hslot
  exact absurd hslot.1 (by decide)

end Attended

/-- The state of the demo in a run. -/
structure MutexRun (c : Config) (m rounds np nt : Nat) (l : Object → List Nat) (x : MutexClient) : Prop where
  queues : Queues c x.machine np nt l
  sectioned : Sectioned c m rounds nt l x
  standing : Standing x.machine
  attended : Attended c m x.machine
  ended : ∀ t, Slot c t → threadState x.machine t = .terminated → x.place t = .exit

section Progress

variable {c : Config} {m rounds np nt : Nat} {l : Object → List Nat} {x y : MutexClient} {k : Tick}

theorem MutexRun.step (h : MutexRun c m rounds np nt l x) (step : ClientStep c (mutexThread m rounds) x k y) :
    ∃ np' nt' l', MutexRun c m rounds np' nt' l' y := by
  obtain ⟨np', nt', l', hq, hsectioned⟩ := h.sectioned.ticked h.queues (ticked step)
  refine ⟨np', nt', l', hq, hsectioned, ?_, ?_, ?_⟩
  · exact (remaining_step (mutexThread_bounded m rounds) h.queues h.standing step).1
  · exact h.attended.ticked h.queues h.sectioned.locked (ticked step)
  · intro t ht
    have hfinal : ∀ t p g, mutexThread m rounds t p g = .exit → p = .exit := by
      intro t p g hp
      cases p <;> first | rfl | cases hp
    exact ended_step hfinal (mutexThread_bounded m rounds) h.queues h.standing step (h.ended t ht)

theorem MutexStart.run {count : Nat → Int} (h : MutexStart c count x) : MutexRun c m rounds 3 0 (fun _ => []) x := by
  refine ⟨h.machine.queues, h.sectioned, (Initial.sound (x := x) h.machine).2, h.machine.attended, ?_⟩
  intro t ht hend
  have hunused : threadState x.machine t = .unused := h.machine.queues.coherent.tables.freeThread t ht.1 ht.2
  rw [hunused] at hend
  cases hend

/-- A thread that waits, waits for one that can run. -/
theorem MutexRun.not_stuck (h : MutexRun c m rounds np nt l x)
    (hlive : ∃ t ∈ threads c x.machine, threadState x.machine t ≠ .terminated) :
    ∃ t ∈ threads c x.machine, Runnable x.machine.kernel (.thread t) := by
  have hrunnable : ∀ t ∈ threads c x.machine, threadState x.machine t ≠ .terminated →
      threadState x.machine t ≠ .blocked → Runnable x.machine.kernel (.thread t) := by
    intro t ht hlive hawake
    by_contra hidle
    exact (threadState_of_idle ht hidle).elim hawake hlive
  obtain ⟨t, ht, hlive⟩ := hlive
  by_cases hblocked : threadState x.machine t = .blocked
  · have hslot : Slot c t := Finset.mem_Icc.mp (Finset.mem_filter.mp ht).1
    obtain ⟨q, hq⟩ := (h.queues.blocked t hslot).mp hblocked
    have hhead : x.machine.waitHead q ≠ 0 := by
      intro hnone
      rw [(h.queues.chains.head_eq_null q).mp hnone] at hq
      cases hq
    have hmutex : q = .mutex m := by
      by_contra hne
      exact hhead (h.attended.only q hne)
    have howned := h.attended.owned (hmutex ▸ hhead)
    have hinside := (h.sectioned.held howned).inside
    have hborn : x.machine.owner m ∈ threads c x.machine := by
      rw [h.queues.threads, Finset.mem_Icc]
      by_contra hout
      rw [h.sectioned.unborn _ (by omega)] at hinside
      exact hinside
    have hslot' : Slot c (x.machine.owner m) := Finset.mem_Icc.mp (Finset.mem_filter.mp hborn).1
    refine ⟨_, hborn, hrunnable _ hborn ?_ (h.attended.awake hslot')⟩
    intro hend
    rw [h.ended _ hslot' hend] at hinside
    exact hinside
  · exact ⟨t, ht, hrunnable t ht hlive hblocked⟩

/-- When all threads have ended, nobody owns the mutex and every round is counted. -/
theorem MutexRun.finished (h : MutexRun c m rounds np nt l x)
    (hall : ∀ t ∈ threads c x.machine, threadState x.machine t = .terminated)
    (hfits : (threads c x.machine).card * rounds < 2147483648) :
    x.data.myglobal = (threads c x.machine).card * rounds := by
  have hexit : ∀ t ∈ threads c x.machine, x.place t = .exit := fun t ht =>
    h.ended t (Finset.mem_Icc.mp (Finset.mem_filter.mp ht).1) (hall t ht)
  have hnobody : x.machine.owner m = 0 := by
    by_contra hne
    have hinside := (h.sectioned.held hne).inside
    by_cases hborn : x.machine.owner m ∈ threads c x.machine
    · rw [hexit _ hborn] at hinside
      exact hinside
    · rw [h.queues.threads, Finset.mem_Icc] at hborn
      rw [h.sectioned.unborn _ (by omega)] at hinside
      exact hinside
  have hcount : completedSections c rounds x = (threads c x.machine).card * rounds := by
    apply Finset.sum_const_nat
    intro t ht
    rw [hexit t ht, MutexPlace.completed]
  rw [h.sectioned.free hnobody, h.sectioned.total_eq h.queues, hcount, wrap32_natCast hfits]
  push_cast
  rfl

end Progress

theorem run_mutexRun {c : Config} {count : Nat → Int} {m rounds : Nat} {x y : MutexClient} (start : MutexStart c count x)
    {ticks : List Tick} (run : Run (ClientStep c (mutexThread m rounds)) x ticks y) :
    ∃ np nt l, MutexRun c m rounds np nt l y := by
  refine run.invariant (I := fun x => ∃ np nt l, MutexRun c m rounds np nt l x) ?_ ⟨3, 0, fun _ => [], start.run⟩
  intro x k y hx step
  obtain ⟨np, nt, l, hx⟩ := hx
  exact hx.step step

/-- What the demo comes to. -/
structure MutexEnds (c : Config) (m rounds : Nat) (x : MutexClient) : Prop where
  runnable : (∃ t ∈ threads c x.machine, threadState x.machine t ≠ .terminated) →
    ∃ t ∈ threads c x.machine, Runnable x.machine.kernel (.thread t)
  completed : ∃ ticks y, Run (ClientStep c (mutexThread m rounds)) x ticks y ∧ threads c y.machine = threads c x.machine ∧
    (∀ t ∈ threads c y.machine, threadState y.machine t = .terminated) ∧
    ((threads c x.machine).card * rounds < 2147483648 → y.data.myglobal = (threads c x.machine).card * rounds)

/-- From every state that the demo can reach with calls in one piece, for any number of
threads and rounds, it can go on to its end, with every increment counted. -/
theorem mutex_demo_ends {c : Config} {count : Nat → Int} {m rounds : Nat} {x y : MutexClient}
    (start : MutexStart c count x) {ticks : List Tick} (run : Run (ClientStep c (mutexThread m rounds)) x ticks y) :
    MutexEnds c m rounds y := by
  obtain ⟨np, nt, l, hy⟩ := run_mutexRun start run
  refine ⟨hy.not_stuck, ?_⟩
  let I : MutexClient → Prop := fun x => ∃ np nt l, MutexRun c m rounds np nt l x
  have hsound : ∀ x, I x → Sound c x := by
    intro x hx
    obtain ⟨np, nt, l, hx⟩ := hx
    exact ⟨⟨np, nt, l, hx.queues⟩, hx.standing⟩
  have hstep : ∀ x k y, I x → ClientStep c (mutexThread m rounds) x k y → I y := by
    intro x k y hx step
    obtain ⟨np, nt, l, hx⟩ := hx
    exact hx.step step
  have hlive : ∀ x, I x → (∃ t ∈ threads c x.machine, threadState x.machine t ≠ .terminated) →
      ∃ t ∈ threads c x.machine, Runnable x.machine.kernel (.thread t) := by
    intro x hx hlive
    obtain ⟨np, nt, l, hx⟩ := hx
    exact hx.not_stuck hlive
  obtain ⟨later, z, run', ⟨np', nt', l', hz⟩, hthreads, hall⟩ :=
    completes_threads (mutexThread_bounded m rounds) hsound hstep hlive ⟨np, nt, l, hy⟩
  refine ⟨later, z, run', hthreads, hall, fun hfits => ?_⟩
  rw [← hthreads] at hfits ⊢
  exact hz.finished hall hfits

/-- The first thread stands at its yield inside, the second waits for the mutex. -/
def secondWaits : List Tick :=
  [.irq 0, .create 0x10400 0, .create 0x10400 0, .irq 0] ++ stmts 4 ++ [.irq 0] ++ stmts 3

theorem mutex_demo_ends_sample : ∃ y,
    Run (ClientStep sampleConfig (mutexThread 0 1)) mutexDemo secondWaits y ∧ MutexEnds sampleConfig 0 1 y := by
  have hsome : (execute (clientStep sampleConfig (mutexThread 0 1)) mutexDemo secondWaits).isSome = true := by
    decide +kernel
  obtain ⟨y, hy⟩ := Option.isSome_iff_exists.mp hsome
  have run : Run (ClientStep sampleConfig (mutexThread 0 1)) mutexDemo secondWaits y := run_of_execute hy
  exact ⟨y, run, mutex_demo_ends ⟨sampleState_initial 0, rfl, rfl⟩ run⟩

/-- In every run every thread executes at most eight statements for each of its rounds, and
three more, a whole call counted as one. -/
theorem mutex_demo_statements {c : Config} {count : Nat → Int} {m rounds : Nat} {x : MutexClient}
    (start : MutexStart c count x) {ticks : List Tick} {b : Counted Globals MutexPlace}
    (run : Run (CountedStep c (mutexThread m rounds)) ⟨x, fun _ => 0⟩ ticks b) (t : Nat) :
    b.executed t ≤ 8 * rounds + 3 := by
  have hle := run_executed_le (mutexThread_bounded m rounds) (Initial.sound (x := x) start.machine) run t
  have hinit := remaining_le (fun _ => MutexPlace.cost rounds) (x := x) t
  rw [start.machine.pc, start.place] at hinit
  simp only [Pc.left, MutexPlace.cost] at hinit
  dsimp only at hle
  omega

end SengKernel.Sync
