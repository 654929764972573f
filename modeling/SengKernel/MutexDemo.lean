import SengKernel.ThreadPrograms

/- kernel/kernel.c, the mutex demo: threads that run `mutex_thread` for any number of
   rounds. The read of `myglobal`, the yield and the write are separate steps. -/
namespace SengKernel.Sync
open Sched MachineWord Transition LinkedChain

structure Globals where
  myglobal : Int
  mutexDone : Int
  deriving DecidableEq, Repr

/-- The statements of `mutex_thread`, with its locals `i` and `temp`. -/
inductive MutexPlace where
  | test (i : Nat)              -- i < RACE_ITERATIONS
  | lock (i : Nat)              -- mutex_lock(&myglobal_mutex);
  | read (i : Nat)              -- int temp = myglobal;
  | yield (i : Nat) (temp : Int)   -- scheduler_yield();
  | write (i : Nat) (temp : Int)   -- myglobal = temp + 1;
  | unlock (i : Nat)            -- mutex_unlock(&myglobal_mutex); i++
  | done                        -- mutex_done++;
  | exit                        -- thread_exit();
  deriving DecidableEq, Repr

/-- `mutex_thread` with the mutex `m` and `rounds` for RACE_ITERATIONS. -/
def mutexThread (m rounds : Nat) (_ : Nat) (p : MutexPlace) (g : Globals) : Statement Globals MutexPlace :=
  match p with
  | .test i => .work g (if i < rounds then .lock i else .done)
  | .lock i => .call (.lock m) (.read i)
  | .read i => .work g (.yield i g.myglobal)
  | .yield i temp => .yield (.write i temp)
  | .write i temp => .work { g with myglobal := wrap32 (temp + 1) } (.unlock i)
  | .unlock i => .call (.unlock m) (.test (i + 1))
  | .done => .work { g with mutexDone := wrap32 (g.mutexDone + 1) } .exit
  | .exit => .exit

/-- The critical sections that the thread has completed. -/
def MutexPlace.completed (rounds : Nat) : MutexPlace → Nat
  | .test i | .lock i | .read i | .yield i _ | .write i _ | .unlock i => i
  | .done | .exit => rounds

/-- The thread stands between `mutex_lock` and the end of `mutex_unlock`. -/
def MutexPlace.inside : MutexPlace → Prop
  | .read _ | .yield _ _ | .write _ _ | .unlock _ => True
  | _ => False

abbrev MutexClient := Client Globals MutexPlace

def completedSections (c : Config) (rounds : Nat) (x : MutexClient) : Nat :=
  ∑ t ∈ threads c x.machine, (x.place t).completed rounds

/-- No thread has started, and the demo has reset its counters. -/
structure MutexStart (c : Config) (count : Nat → Int) (x : MutexClient) : Prop where
  machine : Initial c count x.machine
  place : x.place = fun _ => .test 0
  data : x.data = ⟨0, 0⟩

/-- The claim of the demo, for the threads created so far. -/
structure NoLostUpdate (c : Config) (m rounds : Nat) (x : MutexClient) : Prop where
  free : x.machine.locked m = false → x.data.myglobal = completedSections c rounds x
  finished : (∀ t ∈ threads c x.machine, x.place t = .exit) →
    x.data.myglobal = (threads c x.machine).card * rounds

/-- What the thread that owns the mutex knows about `myglobal`, when `total`
sections are completed. -/
def Seen (total : Nat) (g : Globals) : MutexPlace → Prop
  | .read _ => g.myglobal = wrap32 total
  | .yield _ temp | .write _ temp => temp = wrap32 total
  | .unlock _ => g.myglobal = wrap32 (total + 1)
  | _ => False

/-- The loop counter stays in its range. -/
def MutexPlace.counted (rounds : Nat) : MutexPlace → Prop
  | .test i => i ≤ rounds
  | .lock i | .read i | .yield i _ | .write i _ | .unlock i => i < rounds
  | .done | .exit => True

/-- The completed sections of all slots; a slot without a thread has none. -/
def total (c : Config) (rounds : Nat) (place : Nat → MutexPlace) : Nat :=
  ∑ t ∈ Finset.Icc 1 c.maxThreads, (place t).completed rounds

/-- The invariant, for the queues `l` and `nt` threads. -/
structure Sectioned (c : Config) (m rounds nt : Nat) (l : Object → List Nat) (x : MutexClient) : Prop where
  locked : x.machine.locked m = true ↔ x.machine.owner m ≠ 0
  inside : ∀ t, (x.place t).inside → x.machine.owner m = t ∨ t ∈ l (.mutex m)
  waiting : ∀ t, t ∈ l (.mutex m) → ∃ i, x.place t = .read i
  unborn : ∀ t, t = 0 ∨ nt < t → x.place t = .test 0
  counted : ∀ t, (x.place t).counted rounds
  free : x.machine.owner m = 0 → x.data.myglobal = wrap32 (total c rounds x.place)
  held : x.machine.owner m ≠ 0 → Seen (total c rounds x.place) x.data (x.place (x.machine.owner m))

theorem MutexPlace.counted.completed_le {rounds : Nat} {p : MutexPlace} (h : p.counted rounds) :
    p.completed rounds ≤ rounds := by
  cases p <;> first | exact Nat.le_of_lt h | exact h | exact Nat.le_refl rounds

theorem Seen.inside {n : Nat} {g : Globals} {p : MutexPlace} (h : Seen n g p) : p.inside := by
  cases p <;> trivial

theorem wrap32_succ (v : Int) : wrap32 (wrap32 v + 1) = wrap32 (v + 1) :=
  Int.bmod_add_bmod

section Demo

variable {c : Config} {m rounds np nt nt' : Nat} {l : Object → List Nat} {x y : MutexClient} {s : State}
  {p : MutexPlace} {g : Globals}

theorem total_advance (rounds : Nat) (hr : running x.machine ∈ Finset.Icc 1 c.maxThreads) :
    total c rounds (advance x p) + (x.place (running x.machine)).completed rounds =
      total c rounds x.place + p.completed rounds :=
  sum_advance hr (fun _ p => p.completed rounds) p

/-- The mutex and the places stay as they are. -/
theorem Sectioned.scheduled (h : Sectioned c m rounds nt l x) (hlocked : s.locked = x.machine.locked)
    (howner : s.owner = x.machine.owner) (hgrows : nt ≤ nt') : Sectioned c m rounds nt' l ⟨s, x.place, x.data⟩ := by
  refine ⟨?_, ?_, h.waiting, fun t ht => h.unborn t (ht.imp_right (Nat.lt_of_le_of_lt hgrows)), h.counted, ?_, ?_⟩
  all_goals simp only [hlocked, howner]
  · exact h.locked
  · exact h.inside
  · exact h.free
  · exact h.held

/-- Where the places may go when the running thread moves on. -/
theorem Sectioned.places (h : Sectioned c m rounds nt l x) (hq : Queues c x.machine np nt l) (hrun : running x.machine ≠ 0)
    (hp : p.counted rounds) : (∀ t, t = 0 ∨ nt < t → advance x p t = .test 0) ∧ ∀ t, (advance x p t).counted rounds := by
  have hle : running x.machine ≤ nt := hq.coherent.tables.runningThread
  constructor
  · intro t ht
    have hne : t ≠ running x.machine := by omega
    rw [advance_of_ne p hne]
    exact h.unborn t ht
  · intro t
    by_cases ht : t = running x.machine
    · rw [ht, advance_self]
      exact hp
    · rw [advance_of_ne p ht]
      exact h.counted t

/-- A statement outside the critical section. -/
theorem Sectioned.outside (h : Sectioned c m rounds nt l x) (hq : Queues c x.machine np nt l)
    (hexec : Executing x.machine) (hin : ¬ (x.place (running x.machine)).inside) (hp : ¬ p.inside)
    (hcounted : p.counted rounds) (hsame : p.completed rounds = (x.place (running x.machine)).completed rounds)
    (hg : g.myglobal = x.data.myglobal) : Sectioned c m rounds nt l ⟨x.machine, advance x p, g⟩ := by
  obtain ⟨hrun, hfree⟩ := hexec
  obtain ⟨hunborn, hall⟩ := h.places hq hrun hcounted
  have htotal : total c rounds (advance x p) = total c rounds x.place := by
    have := total_advance (p := p) rounds (hq.running_slot_mem hrun)
    omega
  have hout := (hq.free hfree hrun).2 (.mutex m)
  refine ⟨h.locked, fun t ht => ?_, fun t ht => ?_, hunborn, hall, fun hzero => ?_, fun hne => ?_⟩
  · by_cases htr : t = running x.machine
    · rw [htr] at ht
      simp only [advance_self] at ht
      exact (hp ht).elim
    · simp only [advance_of_ne p htr] at ht
      exact h.inside t ht
  · have htr : t ≠ running x.machine := fun he => hout (he ▸ ht)
    simp only [advance_of_ne p htr]
    exact h.waiting t ht
  · simp only [htotal, hg]
    exact h.free hzero
  · have hheld := h.held hne
    have hor : x.machine.owner m ≠ running x.machine := fun he => hin (he ▸ hheld.inside)
    simp only [htotal, advance_of_ne p hor]
    generalize x.place (x.machine.owner m) = q at hheld
    cases q <;> first | exact hg.trans hheld | exact hheld

/-- A statement of the owner inside the critical section. -/
theorem Sectioned.within (h : Sectioned c m rounds nt l x) (hq : Queues c x.machine np nt l)
    (hexec : Executing x.machine) (hin : (x.place (running x.machine)).inside)
    (hcounted : p.counted rounds) (hsame : p.completed rounds = (x.place (running x.machine)).completed rounds)
    (hseen : Seen (total c rounds x.place) x.data (x.place (running x.machine)) → Seen (total c rounds x.place) g p) :
    Sectioned c m rounds nt l ⟨x.machine, advance x p, g⟩ := by
  obtain ⟨hrun, hfree⟩ := hexec
  obtain ⟨hunborn, hall⟩ := h.places hq hrun hcounted
  have htotal : total c rounds (advance x p) = total c rounds x.place := by
    have := total_advance (p := p) rounds (hq.running_slot_mem hrun)
    omega
  have hout := (hq.free hfree hrun).2 (.mutex m)
  have howner : x.machine.owner m = running x.machine := (h.inside _ hin).resolve_right hout
  have hheld := h.held (howner ▸ hrun)
  rw [howner] at hheld
  refine ⟨h.locked, fun t ht => ?_, fun t ht => ?_, hunborn, hall, fun hzero => ?_, fun hne => ?_⟩
  · by_cases htr : t = running x.machine
    · rw [htr]
      exact Or.inl howner
    · simp only [advance_of_ne p htr] at ht
      exact h.inside t ht
  · have htr : t ≠ running x.machine := fun he => hout (he ▸ ht)
    simp only [advance_of_ne p htr]
    exact h.waiting t ht
  · exact (hrun (howner.symm.trans hzero)).elim
  · simp only [htotal, howner, advance_self]
    exact hseen hheld

/-- `mutex_lock`: the running thread becomes the owner or joins the queue. -/
theorem Sectioned.lock (h : Sectioned c m rounds nt l x) (hq : Queues c x.machine np nt l) (hexec : Executing x.machine)
    {i : Nat} (hplace : x.place (running x.machine) = .lock i) (hp : Performed x.machine (.lock m) s) :
    ∃ l', Queues c s np nt l' ∧ Sectioned c m rounds nt l' ⟨s, advance x (.read i), x.data⟩ := by
  obtain ⟨hrun, hfree⟩ := hexec
  have hcounted := h.counted (running x.machine)
  rw [hplace] at hcounted
  obtain ⟨hunborn, hall⟩ := h.places (p := .read i) hq hrun hcounted
  have htotal : total c rounds (advance x (.read i)) = total c rounds x.place := by
    have := total_advance (p := .read i) rounds (hq.running_slot_mem hrun)
    rw [hplace] at this
    exact Nat.add_right_cancel this
  have hout := (hq.free hfree hrun).2 (.mutex m)
  have hoff : ∀ t, t ∈ l (.mutex m) → t ≠ running x.machine := fun t ht he => hout (he ▸ ht)
  cases hp with
  | lockNobody nobody => exact (hrun nobody).elim
  | relock somebody locked own =>
      have hheld := h.held (own ▸ hrun)
      rw [own, hplace] at hheld
      exact hheld.elim
  | acquire somebody unlocked =>
      have hnone : x.machine.owner m = 0 := by
        by_contra hne
        rw [h.locked.mpr hne] at unlocked
        cases unlocked
      have howner : (setOwner (setLocked x.machine m true) m (running x.machine)).owner m = running x.machine :=
        Function.update_self ..
      have hlocked : (setOwner (setLocked x.machine m true) m (running x.machine)).locked m = true :=
        Function.update_self ..
      refine ⟨l, hq.congr rfl rfl rfl rfl, ?_, fun t ht => ?_, fun t ht => ?_, hunborn, hall, fun hzero => ?_,
        fun _ => ?_⟩
      · rw [howner]
        exact iff_of_true hlocked hrun
      · by_cases htr : t = running x.machine
        · exact Or.inl (howner.trans htr.symm)
        · simp only [advance_of_ne _ htr] at ht
          refine (h.inside t ht).imp_left (fun hown => ?_)
          rw [h.unborn t (Or.inl (hown.symm.trans hnone))] at ht
          exact ht.elim
      · simp only [advance_of_ne _ (hoff t ht)]
        exact h.waiting t ht
      · exact (hrun (howner.symm.trans hzero)).elim
      · simp only [howner, advance_self, htotal]
        exact h.free hnone
  | lockBlock somebody locked own =>
      have howner : (suspend x.machine (.mutex m) (running x.machine)).owner = x.machine.owner := by
        rw [suspend_frame]
      have hlocked : (suspend x.machine (.mutex m) (running x.machine)).locked = x.machine.locked := by
        rw [suspend_frame]
      refine ⟨_, hq.suspend hrun (hfree.not_yield hrun), ?_, fun t ht => ?_, fun t ht => ?_, hunborn, hall,
        fun hzero => ?_, fun hne => ?_⟩
      · simp only [howner, hlocked]
        exact h.locked
      · rw [mem_join, howner]
        by_cases htr : t = running x.machine
        · exact Or.inr (Or.inr ⟨rfl, htr⟩)
        · simp only [advance_of_ne _ htr] at ht
          exact (h.inside t ht).imp_right Or.inl
      · rcases mem_join.mp ht with hold | ⟨_, hself⟩
        · simp only [advance_of_ne _ (hoff t hold)]
          exact h.waiting t hold
        · exact ⟨i, by rw [hself]; exact advance_self _⟩
      · rw [howner] at hzero
        exact (h.locked.mp locked hzero).elim
      · rw [howner] at hne
        simp only [howner, advance_of_ne _ own, htotal]
        exact h.held hne

/-- `mutex_unlock`: one more section is completed, and the mutex is free or passes to
the first waiter. -/
theorem Sectioned.unlock (h : Sectioned c m rounds nt l x) (hq : Queues c x.machine np nt l)
    (hexec : Executing x.machine) {i : Nat} (hplace : x.place (running x.machine) = .unlock i)
    (hp : Performed x.machine (.unlock m) s) :
    ∃ l', Queues c s np nt l' ∧ Sectioned c m rounds nt l' ⟨s, advance x (.test (i + 1)), x.data⟩ := by
  obtain ⟨hrun, hfree⟩ := hexec
  have hcounted := h.counted (running x.machine)
  rw [hplace] at hcounted
  obtain ⟨hunborn, hall⟩ := h.places (p := .test (i + 1)) hq hrun hcounted
  have htotal : total c rounds (advance x (.test (i + 1))) = total c rounds x.place + 1 := by
    have := total_advance (p := .test (i + 1)) rounds (hq.running_slot_mem hrun)
    rw [hplace] at this
    simp only [MutexPlace.completed] at this
    omega
  have hout := (hq.free hfree hrun).2 (.mutex m)
  have hoff : ∀ t, t ∈ l (.mutex m) → t ≠ running x.machine := fun t ht he => hout (he ▸ ht)
  have howner : x.machine.owner m = running x.machine :=
    (h.inside _ (hplace ▸ trivial)).resolve_right hout
  have hvalue := h.held (howner ▸ hrun)
  rw [howner, hplace] at hvalue
  have hlater : ∀ t, (advance x (.test (i + 1)) t).inside → t ≠ running x.machine ∧ t ∈ l (.mutex m) := by
    intro t ht
    by_cases htr : t = running x.machine
    · rw [htr, advance_self] at ht
      exact ht.elim
    · rw [advance_of_ne _ htr] at ht
      exact ⟨htr, (h.inside t ht).resolve_left (fun hown => htr (hown.symm.trans howner))⟩
  have hnew : x.data.myglobal = wrap32 (total c rounds (advance x (.test (i + 1)))) := by
    rw [htotal]
    exact_mod_cast hvalue
  cases hp with
  | unlockFree unlocked =>
      rw [h.locked.mpr (howner ▸ hrun)] at unlocked
      cases unlocked
  | unlockOther locked own => exact (own howner).elim
  | release locked own empty =>
      have hnil := (hq.chains.head_eq_null _).mp empty
      have howner' : (setOwner (setLocked x.machine m false) m 0).owner m = 0 := Function.update_self ..
      have hlocked' : (setOwner (setLocked x.machine m false) m 0).locked m = false := Function.update_self ..
      refine ⟨l, hq.congr rfl rfl rfl rfl, ?_, fun t ht => Or.inr (hlater t ht).2, fun t ht => ?_, hunborn, hall,
        fun _ => hnew, fun hne => (hne howner').elim⟩
      · rw [howner', hlocked']
        exact iff_of_false nofun (fun hne => hne rfl)
      · rw [hnil] at ht
        cases ht
  | handOver locked own waiter =>
      obtain ⟨ws, hl⟩ := hq.first waiter
      have hawake : running x.machine ≠ 0 → threadState x.machine (running x.machine) ≠ .blocked :=
        fun _ => (hq.free hfree hrun).1
      have hw : x.machine.waitHead (.mutex m) ∈ l (.mutex m) := by
        rw [hl]
        exact List.mem_cons_self ..
      have hwr := hoff _ hw
      obtain ⟨j, hj⟩ := h.waiting _ hw
      have hw0 : x.machine.waitHead (.mutex m) ≠ 0 := waiter
      generalize x.machine.waitHead (.mutex m) = w at hl hw hwr hj hw0 ⊢
      generalize hs : setLocked _ m true = s'
      have hq' : Queues c s' np nt (Function.update l (.mutex m) ws) :=
        hs ▸ (hq.wakeFirst hl hawake).congr rfl rfl rfl rfl
      have howner' : s'.owner m = w := by
        rw [← hs]
        exact Function.update_self ..
      have hlocked' : s'.locked m = true := by
        rw [← hs]
        exact Function.update_self ..
      refine ⟨_, hq', ?_, fun t ht => ?_, fun t ht => ?_, hunborn, hall, fun hzero => ?_, fun _ => ?_⟩
      · rw [howner', hlocked']
        exact iff_of_true rfl hw0
      · rw [howner', mem_leave hq.chains hl]
        by_cases htw : t = w
        · exact Or.inl htw.symm
        · exact Or.inr ⟨(hlater t ht).2, htw⟩
      · have hold := ((mem_leave hq.chains hl).mp ht).1
        simp only [advance_of_ne _ (hoff t hold)]
        exact h.waiting t hold
      · exact (hw0 (howner'.symm.trans hzero)).elim
      · simp only [howner', advance_of_ne _ hwr, hj]
        exact hnew

theorem Sectioned.ticked (h : Sectioned c m rounds nt l x) (hq : Queues c x.machine np nt l)
    (step : Ticked c (mutexThread m rounds) x y) :
    ∃ np' nt' l', Queues c y.machine np' nt' l' ∧ Sectioned c m rounds nt' l' y := by
  cases step with
  | scheduled step quiet =>
      obtain ⟨np', nt', hgrows, hq', hquiet⟩ := hq.quiet step quiet
      exact ⟨np', nt', l, hq', h.scheduled (by rw [hquiet.frame]) (by rw [hquiet.frame]) hgrows⟩
  | yielded executing statement step =>
      generalize hplace : x.place (running x.machine) = q at statement
      cases q <;> cases statement
      rename_i i temp
      have hcounted := h.counted (running x.machine)
      rw [hplace] at hcounted
      have hmid := h.within (p := .write i temp) (g := x.data) hq executing (hplace ▸ trivial) hcounted
        (hplace ▸ rfl) (by rw [hplace]; exact id)
      obtain ⟨np', nt', hgrows, hq', hquiet⟩ := hq.quiet step nofun
      exact ⟨np', nt', l, hq', hmid.scheduled (by rw [hquiet.frame]) (by rw [hquiet.frame]) hgrows⟩
  | called executing statement step =>
      generalize hplace : x.place (running x.machine) = q at statement
      cases q <;> cases statement
      · obtain ⟨l', hq', h'⟩ := h.lock hq executing hplace step
        exact ⟨np, nt, l', hq', h'⟩
      · obtain ⟨l', hq', h'⟩ := h.unlock hq executing hplace step
        exact ⟨np, nt, l', hq', h'⟩
  | worked executing statement =>
      have hcounted := h.counted (running x.machine)
      generalize hplace : x.place (running x.machine) = q at statement
      refine ⟨np, nt, l, hq, ?_⟩
      rw [hplace] at hcounted
      cases q with
      | test i =>
          cases statement
          refine h.outside hq executing (by rw [hplace]; exact id) ?_ ?_ ?_ rfl
          · split <;> exact id
          · split
            · assumption
            · trivial
          · rw [hplace]
            split
            · rfl
            · rename_i hge
              exact Nat.le_antisymm (Nat.le_of_not_lt hge) hcounted
      | read i =>
          cases statement
          exact h.within hq executing (hplace ▸ trivial) hcounted (hplace ▸ rfl) (by rw [hplace]; exact id)
      | write i temp =>
          cases statement
          refine h.within hq executing (hplace ▸ trivial) hcounted (hplace ▸ rfl) ?_
          rw [hplace]
          intro hseen
          have htemp : temp = wrap32 (total c rounds x.place) := hseen
          change wrap32 (temp + 1) = wrap32 (total c rounds x.place + 1)
          rw [htemp, wrap32_succ]
      | done =>
          cases statement
          exact h.outside hq executing (by rw [hplace]; exact id) id trivial (hplace ▸ rfl) rfl
      | lock | yield | unlock | exit => cases statement

theorem MutexStart.sectioned {count : Nat → Int} (h : MutexStart c count x) : Sectioned c m rounds 0 (fun _ => []) x := by
  have hplace : ∀ t, x.place t = .test 0 := fun t => congrFun h.place t
  have howner : x.machine.owner m = 0 := congrFun h.machine.owner m
  have htotal : total c rounds x.place = 0 :=
    Finset.sum_eq_zero (fun t _ => by rw [hplace, MutexPlace.completed])
  refine ⟨?_, fun t ht => ?_, fun t ht => (by cases ht), fun t _ => hplace t, fun t => ?_, fun _ => ?_,
    fun hne => (hne howner).elim⟩
  · rw [h.machine.locked, howner]
    exact iff_of_false nofun (fun hne => hne rfl)
  · rw [hplace] at ht
    exact ht.elim
  · rw [hplace]
    exact Nat.zero_le rounds
  · rw [htotal, h.data]
    exact (wrap32_of_mem (by decide) (by decide)).symm

theorem run_sectioned {count : Nat → Int} (start : MutexStart c count x) {ticks : List Tick}
    (run : Run (ClientStep c (mutexThread m rounds)) x ticks y) :
    ∃ np nt l, Queues c y.machine np nt l ∧ Sectioned c m rounds nt l y := by
  refine run.invariant (I := fun x => ∃ np nt l, Queues c x.machine np nt l ∧ Sectioned c m rounds nt l x)
    (fun x k y hx step => ?_) ⟨3, 0, fun _ => [], start.machine.queues, start.sectioned⟩
  obtain ⟨np, nt, l, hq, h⟩ := hx
  exact h.ticked hq (Sync.ticked step)

/-- The slots without a thread count nothing. -/
theorem Sectioned.total_eq (h : Sectioned c m rounds nt l x) (hq : Queues c x.machine np nt l) :
    total c rounds x.place = completedSections c rounds x := by
  rw [completedSections, hq.threads]
  refine sum_created hq.coherent.tables.threadCount (fun t ht => ?_)
  rw [h.unborn t (Or.inr ht), MutexPlace.completed]

theorem Sectioned.completed_le (h : Sectioned c m rounds nt l x) :
    completedSections c rounds x ≤ (threads c x.machine).card * rounds :=
  Finset.sum_le_card_nsmul _ _ _ (fun t _ => (h.counted t).completed_le)

theorem wrap32_natCast {n : Nat} (h : n < 2147483648) : wrap32 n = n :=
  wrap32_of_mem (by omega) (by omega)

end Demo

/-- In every schedule of any number of threads and rounds no increment is lost. -/
theorem mutex_demo_no_lost_update {c : Config} {count : Nat → Int} {m rounds : Nat} {x y : MutexClient}
    (start : MutexStart c count x) {ticks : List Tick} (run : Run (ClientStep c (mutexThread m rounds)) x ticks y)
    (hfits : (threads c y.machine).card * rounds < 2147483648) : NoLostUpdate c m rounds y := by
  obtain ⟨np, nt, l, hq, h⟩ := run_sectioned start run
  have hle := h.completed_le
  have htotal := h.total_eq hq
  refine ⟨fun hfree => ?_, fun hdone => ?_⟩
  · have hnone : y.machine.owner m = 0 := by
      by_contra hne
      rw [h.locked.mpr hne] at hfree
      cases hfree
    rw [h.free hnone, htotal, wrap32_natCast (Nat.lt_of_le_of_lt hle hfits)]
  · have hall : completedSections c rounds y = (threads c y.machine).card * rounds :=
      Finset.sum_const_nat (fun t ht => by rw [hdone t ht, MutexPlace.completed])
    have hnone : y.machine.owner m = 0 := by
      by_contra hne
      have hin := (h.held hne).inside
      by_cases hborn : y.machine.owner m ∈ threads c y.machine
      · rw [hdone _ hborn] at hin
        exact hin.elim
      · rw [hq.threads, Finset.mem_Icc] at hborn
        rw [h.unborn _ (by omega)] at hin
        exact hin.elim
    rw [h.free hnone, htotal, hall, wrap32_natCast hfits]
    push_cast
    rfl

def mutexDemo : MutexClient := ⟨sampleState 0, fun _ => .test 0, ⟨0, 0⟩⟩

/-- Two threads of one round each: the second asks for the mutex while the first
stands at its yield. -/
def mutexDemoRun : List Tick :=
  [.irq 0, .create 0x10400 0, .create 0x10400 0, .irq 0] ++ stmts 4 ++ [.irq 0] ++ stmts 3 ++ [.irq 0] ++ stmts 5 ++
    [.irq 0, .irq 0] ++ stmts 3 ++ [.irq 0] ++ stmts 5

theorem mutex_demo_no_lost_update_sample : ∃ y,
    Run (ClientStep sampleConfig (mutexThread 0 1)) mutexDemo mutexDemoRun y ∧ NoLostUpdate sampleConfig 0 1 y := by
  have hsome : (execute (clientStep sampleConfig (mutexThread 0 1)) mutexDemo mutexDemoRun).isSome = true := by
    decide +kernel
  obtain ⟨y, hy⟩ := Option.isSome_iff_exists.mp hsome
  have run : Run (ClientStep sampleConfig (mutexThread 0 1)) mutexDemo mutexDemoRun y := run_of_execute hy
  have hfits : (threads sampleConfig y.machine).card * 1 < 2147483648 := by
    have := threads_card_le sampleConfig y.machine
    have : sampleConfig.maxThreads = 32 := rfl
    omega
  exact ⟨y, run, mutex_demo_no_lost_update ⟨sampleState_initial 0, rfl, rfl⟩ run hfits⟩

end SengKernel.Sync
