import SengKernel.ThreadProgress

/- kernel/kernel.c, the race demo: threads that run `race_thread` for any number of
   rounds, with nothing that keeps one out while another stands between its read and
   its write. -/
namespace SengKernel.Sync
open Sched MachineWord Transition

/-- The globals of the demo, and its history: the writes so far, how many there had been
when each thread last read, and how many writes came after a read that another write
had overtaken. -/
structure RaceGlobals where
  myglobal : Int
  raceDone : Int
  writes : Nat
  seen : Nat → Nat
  overtaken : Nat

/-- The statements of `race_thread`, with its locals `i` and `temp`. -/
inductive RacePlace where
  | test (i : Nat)                 -- i < RACE_ITERATIONS
  | read (i : Nat)                 -- temp = myglobal;
  | yield (i : Nat) (temp : Int)   -- scheduler_yield();
  | write (i : Nat) (temp : Int)   -- myglobal = temp + 1; i++
  | done                           -- race_done++;
  | exit                           -- thread_exit();
  deriving DecidableEq, Repr

/-- `race_thread` with `rounds` for RACE_ITERATIONS. -/
def raceThread (rounds : Nat) (t : Nat) (p : RacePlace) (g : RaceGlobals) : Statement RaceGlobals RacePlace :=
  match p with
  | .test i => .work g (if i < rounds then .read i else .done)
  | .read i => .work { g with seen := Function.update g.seen t g.writes } (.yield i g.myglobal)
  | .yield i temp => .yield (.write i temp)
  | .write i temp =>
      .work { g with myglobal := wrap32 (temp + 1)
                     writes := g.writes + 1
                     overtaken := g.overtaken + if g.seen t = g.writes then 0 else 1 } (.test (i + 1))
  | .done => .work { g with raceDone := wrap32 (g.raceDone + 1) } .exit
  | .exit => .exit

/-- The writes of a thread. -/
def RacePlace.written (rounds : Nat) : RacePlace → Nat
  | .test i | .read i | .yield i _ | .write i _ => i
  | .done | .exit => rounds

/-- The loop counter stays in its range. -/
def RacePlace.counted (rounds : Nat) : RacePlace → Prop
  | .test i => i ≤ rounds
  | .read i | .yield i _ | .write i _ => i < rounds
  | .done | .exit => True

/-- The statements that a thread has left: four for every round, and three to end. -/
def RacePlace.cost (rounds : Nat) : RacePlace → Nat
  | .test i => 4 * (rounds - i) + 3
  | .read i => 4 * (rounds - (i + 1)) + 6
  | .yield i _ => 4 * (rounds - (i + 1)) + 5
  | .write i _ => 4 * (rounds - (i + 1)) + 4
  | .done => 2
  | .exit => 1

abbrev RaceClient := Client RaceGlobals RacePlace

/-- No thread has started, and `cmd_race` has reset the counters. -/
structure RaceStart (c : Config) (count : Nat → Int) (x : RaceClient) : Prop where
  machine : Initial c count x.machine
  place : x.place = fun _ => .test 0
  myglobal : x.data.myglobal = 0
  writes : x.data.writes = 0
  overtaken : x.data.overtaken = 0

/-- The writes of all slots; a slot without a thread has none. -/
def written (c : Config) (rounds : Nat) (place : Nat → RacePlace) : Nat :=
  ∑ t ∈ Finset.Icc 1 c.maxThreads, (place t).written rounds

/-- What a thread that has read and not yet written knows. -/
structure Holds (g : RaceGlobals) (t i : Nat) (temp : Int) : Prop where
  nonneg : 0 ≤ temp
  le_seen : temp ≤ g.seen t
  seen_le : g.seen t ≤ g.writes
  current : g.seen t = g.writes → temp = g.myglobal
  begun : 1 ≤ i → 1 ≤ temp

def Knows (g : RaceGlobals) (t : Nat) : RacePlace → Prop
  | .yield i temp | .write i temp => Holds g t i temp
  | _ => True

/-- The invariant, for `nt` threads. -/
structure Raced (c : Config) (rounds nt : Nat) (x : RaceClient) : Prop where
  unborn : ∀ t, t = 0 ∨ nt < t → x.place t = .test 0
  counted : ∀ t, (x.place t).counted rounds
  writes : x.data.writes = written c rounds x.place
  bounds : 0 ≤ x.data.myglobal ∧ x.data.myglobal ≤ x.data.writes
  exact : x.data.myglobal = x.data.writes ↔ x.data.overtaken = 0
  knows : ∀ t, Knows x.data t (x.place t)
  last : 0 < x.data.writes → ∃ w, 1 ≤ (x.place w).written rounds ∧ min 2 ((x.place w).written rounds) ≤ x.data.myglobal

section Race

variable {c : Config} {rounds np nt nt' : Nat} {l : Object → List Nat} {x y : RaceClient} {k : Tick} {s : State}
  {p : RacePlace} {g : RaceGlobals}

theorem RacePlace.counted.written_le {rounds : Nat} {p : RacePlace} (h : p.counted rounds) : p.written rounds ≤ rounds := by
  cases p <;> first | exact Nat.le_of_lt h | exact h | exact Nat.le_refl rounds

theorem raceThread_bounded (rounds : Nat) : Bounded (raceThread rounds) (fun _ => RacePlace.cost rounds) := by
  intro t p g
  cases p with
  | test i =>
      simp only [raceThread, Statement.Within]
      split
      · simp only [RacePlace.cost]
        omega
      · simp only [RacePlace.cost]
        omega
  | _ =>
      simp only [raceThread, Statement.Within, RacePlace.cost]
      omega

variable (rounds) in
theorem written_advance (hr : running x.machine ∈ Finset.Icc 1 c.maxThreads) (p : RacePlace) :
    written c rounds (advance x p) + (x.place (running x.machine)).written rounds =
      written c rounds x.place + p.written rounds :=
  sum_advance hr (fun _ p => p.written rounds) p

theorem written_le {place : Nat → RacePlace} (h : ∀ t, (place t).counted rounds) :
    written c rounds place ≤ c.maxThreads * rounds := by
  have hle := Finset.sum_le_card_nsmul (Finset.Icc 1 c.maxThreads) (fun t => (place t).written rounds) rounds
    fun t _ => (h t).written_le
  rw [Nat.card_Icc, Nat.add_sub_cancel, smul_eq_mul] at hle
  exact hle

theorem Knows.congr {g' : RaceGlobals} {t : Nat} (h : Knows g t p) (hseen : g'.seen t = g.seen t)
    (hwrites : g'.writes = g.writes) (hglobal : g'.myglobal = g.myglobal) : Knows g' t p := by
  cases p with
  | yield i temp | write i temp =>
      obtain ⟨hnonneg, hseen', hle, hcurrent, hbegun⟩ := h
      refine ⟨hnonneg, ?_, ?_, ?_, hbegun⟩
      · rw [hseen]
        exact hseen'
      · rw [hseen, hwrites]
        exact hle
      · rw [hseen, hwrites, hglobal]
        exact hcurrent
  | _ => trivial

/-- A write of another thread overtakes the read. -/
theorem Knows.overtaken {g' : RaceGlobals} {t : Nat} (h : Knows g t p) (hseen : g'.seen t = g.seen t)
    (hwrites : g.writes < g'.writes) : Knows g' t p := by
  cases p with
  | yield i temp | write i temp =>
      obtain ⟨hnonneg, hseen', hle, _, hbegun⟩ := h
      refine ⟨hnonneg, ?_, ?_, ?_, hbegun⟩
      · rw [hseen]
        exact hseen'
      · rw [hseen]
        exact hle.trans (Nat.le_of_lt hwrites)
      · rw [hseen]
        intro heq
        omega
  | _ => trivial

/-- The running thread moves on. -/
theorem Raced.move (h : Raced c rounds nt x) (hq : Queues c x.machine np nt l) (hrun : running x.machine ≠ 0)
    (hcounted : p.counted rounds)
    (hwrites : g.writes + (x.place (running x.machine)).written rounds = x.data.writes + p.written rounds)
    (hbounds : 0 ≤ g.myglobal ∧ g.myglobal ≤ g.writes) (hexact : g.myglobal = g.writes ↔ g.overtaken = 0)
    (hothers : ∀ t, t ≠ running x.machine → Knows x.data t (x.place t) → Knows g t (x.place t))
    (hown : Knows g (running x.machine) p)
    (hlast : 0 < g.writes → ∃ w, 1 ≤ (advance x p w).written rounds ∧
      min 2 ((advance x p w).written rounds) ≤ g.myglobal) : Raced c rounds nt ⟨s, advance x p, g⟩ := by
  have hle : running x.machine ≤ nt := hq.coherent.tables.runningThread
  refine ⟨?_, ?_, ?_, hbounds, hexact, ?_, hlast⟩
  · intro t ht
    have hne : t ≠ running x.machine := by omega
    simp only [advance_of_ne p hne]
    exact h.unborn t ht
  · intro t
    by_cases ht : t = running x.machine
    · rw [ht]
      simp only [advance_self]
      exact hcounted
    · simp only [advance_of_ne p ht]
      exact h.counted t
  · have hsum := written_advance rounds (hq.running_slot_mem hrun) p
    have hbefore := h.writes
    dsimp only
    omega
  · intro t
    by_cases ht : t = running x.machine
    · rw [ht]
      simp only [advance_self]
      exact hown
    · simp only [advance_of_ne p ht]
      exact hothers t ht (h.knows t)

/-- A statement that writes nothing. -/
theorem Raced.plain (h : Raced c rounds nt x) (hq : Queues c x.machine np nt l) (hrun : running x.machine ≠ 0)
    (hcounted : p.counted rounds) (hwritten : p.written rounds = (x.place (running x.machine)).written rounds)
    (hown : Knows g (running x.machine) p)
    (hg : g = { x.data with raceDone := g.raceDone, seen := g.seen })
    (hseen : ∀ t, t ≠ running x.machine → g.seen t = x.data.seen t) : Raced c rounds nt ⟨s, advance x p, g⟩ := by
  have hglobal : g.myglobal = x.data.myglobal := by rw [hg]
  have hwrites : g.writes = x.data.writes := by rw [hg]
  have hovertaken : g.overtaken = x.data.overtaken := by rw [hg]
  have hsame : ∀ t, (advance x p t).written rounds = (x.place t).written rounds := by
    intro t
    by_cases ht : t = running x.machine
    · rw [ht, advance_self, hwritten]
    · rw [advance_of_ne p ht]
  refine h.move hq hrun hcounted ?_ ?_ ?_ ?_ hown ?_
  · rw [hwrites, hwritten]
  · rw [hglobal, hwrites]
    exact h.bounds
  · rw [hglobal, hwrites, hovertaken]
    exact h.exact
  · intro t ht hknows
    exact hknows.congr (hseen t ht) hwrites hglobal
  · rw [hwrites, hglobal]
    intro hpos
    obtain ⟨w, hone, hmin⟩ := h.last hpos
    exact ⟨w, by rw [hsame]; exact hone, by rw [hsame]; exact hmin⟩

theorem Raced.read (h : Raced c rounds nt x) (hq : Queues c x.machine np nt l) (hrun : running x.machine ≠ 0) {i : Nat}
    (hplace : x.place (running x.machine) = .read i) :
    Raced c rounds nt ⟨s, advance x (.yield i x.data.myglobal),
      { x.data with seen := Function.update x.data.seen (running x.machine) x.data.writes }⟩ := by
  have hcounted := h.counted (running x.machine)
  rw [hplace] at hcounted
  refine h.plain hq hrun hcounted ?_ ?_ rfl ?_
  · rw [hplace]
    rfl
  · have hself : Function.update x.data.seen (running x.machine) x.data.writes (running x.machine) = x.data.writes :=
      Function.update_self ..
    refine ⟨h.bounds.1, ?_, ?_, fun _ => rfl, ?_⟩
    · dsimp only
      rw [hself]
      exact h.bounds.2
    · dsimp only
      rw [hself]
    · intro hi
      have hmem : (x.place (running x.machine)).written rounds ≤ written c rounds x.place :=
        Finset.single_le_sum (f := fun t => (x.place t).written rounds) (fun _ _ => Nat.zero_le _)
          (hq.running_slot_mem hrun)
      rw [hplace, ← h.writes] at hmem
      have hone : i ≤ x.data.writes := hmem
      obtain ⟨w, hw, hmin⟩ := h.last (by omega)
      omega
  · intro t ht
    exact Function.update_of_ne ht ..

/-- There is a round left for the write that comes. -/
theorem Raced.writes_lt (h : Raced c rounds nt x) (hq : Queues c x.machine np nt l) (hrun : running x.machine ≠ 0)
    {i : Nat} {temp : Int} (hplace : x.place (running x.machine) = .write i temp) :
    x.data.writes < c.maxThreads * rounds := by
  have hsum := written_advance rounds (hq.running_slot_mem hrun) (.test (i + 1))
  have hcounts : ∀ t, (advance x (.test (i + 1)) t).counted rounds := by
    intro t
    by_cases ht : t = running x.machine
    · have hcounted := h.counted (running x.machine)
      rw [hplace] at hcounted
      rw [ht, advance_self]
      exact hcounted
    · rw [advance_of_ne _ ht]
      exact h.counted t
  have hall := written_le (c := c) hcounts
  have hbefore := h.writes
  rw [hplace] at hsum
  simp only [RacePlace.written] at hsum
  omega

theorem Raced.write (h : Raced c rounds nt x) (hq : Queues c x.machine np nt l) (hrun : running x.machine ≠ 0)
    (hfits : c.maxThreads * rounds < 2147483648) {i : Nat} {temp : Int}
    (hplace : x.place (running x.machine) = .write i temp) :
    Raced c rounds nt ⟨s, advance x (.test (i + 1)),
      { x.data with myglobal := wrap32 (temp + 1)
                    writes := x.data.writes + 1
                    overtaken := x.data.overtaken + if x.data.seen (running x.machine) = x.data.writes then 0 else 1 }⟩ := by
  have hcounted := h.counted (running x.machine)
  have hknows := h.knows (running x.machine)
  rw [hplace] at hcounted hknows
  obtain ⟨hnonneg, hseen, hle, hcurrent, hbegun⟩ := hknows
  have hcounted : i < rounds := hcounted
  have hlimit := h.writes_lt hq hrun hplace
  have hwrap : wrap32 (temp + 1) = temp + 1 := wrap32_of_mem (by omega) (by omega)
  rw [hwrap]
  refine h.move hq hrun hcounted ?_ ?_ ?_ ?_ trivial ?_
  · rw [hplace]
    simp only [RacePlace.written]
    omega
  · dsimp only
    push_cast
    omega
  · have hexact := h.exact
    have hbounds := h.bounds
    dsimp only
    by_cases hsame : x.data.seen (running x.machine) = x.data.writes
    · have htemp := hcurrent hsame
      rw [if_pos hsame, htemp]
      push_cast
      omega
    · rw [if_neg hsame]
      apply iff_of_false
      · push_cast
        omega
      · exact Nat.succ_ne_zero _
  · intro t ht hknows
    exact hknows.overtaken rfl (Nat.lt_succ_self _)
  · intro _
    refine ⟨running x.machine, ?_, ?_⟩
    · rw [advance_self]
      exact Nat.le_add_left 1 i
    · rw [advance_self]
      simp only [RacePlace.written]
      by_cases hi : 1 ≤ i
      · have := hbegun hi
        omega
      · omega

/-- Threads that are new have not begun. -/
theorem Raced.grown (h : Raced c rounds nt x) (hgrows : nt ≤ nt') (s : State) :
    Raced c rounds nt' ⟨s, x.place, x.data⟩ := by
  refine ⟨?_, h.counted, h.writes, h.bounds, h.exact, h.knows, h.last⟩
  intro t ht
  exact h.unborn t (ht.imp_right (Nat.lt_of_le_of_lt hgrows))

theorem Raced.ticked (h : Raced c rounds nt x) (hq : Queues c x.machine np nt l)
    (hfits : c.maxThreads * rounds < 2147483648) (step : Ticked c (raceThread rounds) x y) :
    ∃ np' nt' l', Queues c y.machine np' nt' l' ∧ Raced c rounds nt' y := by
  cases step with
  | scheduled step quiet =>
      obtain ⟨np', nt', hgrows, hq', _⟩ := hq.quiet step quiet
      exact ⟨np', nt', l, hq', h.grown hgrows _⟩
  | @yielded savedEsp next s executing statement step =>
      obtain ⟨np', nt', hgrows, hq', _⟩ := hq.quiet step nofun
      have hmoved : Raced c rounds nt ⟨s, advance x next, x.data⟩ := by
        have hcounted := h.counted (running x.machine)
        have hknows := h.knows (running x.machine)
        generalize hplace : x.place (running x.machine) = q at statement hcounted hknows
        cases q <;> cases statement
        refine h.plain hq executing.1 hcounted ?_ hknows rfl (fun _ _ => rfl)
        rw [hplace]
        rfl
      exact ⟨np', nt', l, hq', hmoved.grown hgrows s⟩
  | called executing statement step =>
      generalize x.place (running x.machine) = q at statement
      cases q <;> cases statement
  | @worked next g executing statement =>
      refine ⟨np, nt, l, hq, ?_⟩
      have hcounted := h.counted (running x.machine)
      generalize hplace : x.place (running x.machine) = q at statement hcounted
      cases q with
      | test i =>
          cases statement
          split
          · refine h.plain hq executing.1 (by assumption) ?_ trivial rfl (fun _ _ => rfl)
            rw [hplace]
            rfl
          · have hall : rounds = i := Nat.le_antisymm (Nat.le_of_not_lt (by assumption)) hcounted
            refine h.plain hq executing.1 trivial ?_ trivial rfl (fun _ _ => rfl)
            rw [hplace]
            exact hall
      | read i =>
          cases statement
          exact h.read hq executing.1 hplace
      | write i temp =>
          cases statement
          exact h.write hq executing.1 hfits hplace
      | done =>
          cases statement
          refine h.plain hq executing.1 trivial ?_ trivial rfl (fun _ _ => rfl)
          rw [hplace]
          rfl
      | yield i temp => cases statement
      | exit => cases statement

theorem RaceStart.raced {count : Nat → Int} (h : RaceStart c count x) : Raced c rounds 0 x := by
  have hplace : ∀ t, x.place t = .test 0 := fun t => congrFun h.place t
  refine ⟨fun t _ => hplace t, ?_, ?_, ?_, ?_, ?_, ?_⟩
  · intro t
    rw [hplace]
    exact Nat.zero_le rounds
  · rw [h.writes]
    refine (Finset.sum_eq_zero fun t _ => ?_).symm
    rw [hplace]
    rfl
  · rw [h.myglobal, h.writes]
    exact ⟨Int.le_refl 0, Int.le_refl 0⟩
  · rw [h.myglobal, h.writes, h.overtaken]
    exact iff_of_true rfl rfl
  · intro t
    rw [hplace]
    trivial
  · rw [h.writes]
    intro hpos
    exact absurd hpos (Nat.lt_irrefl 0)

/-- The state of the demo in a run: no thread ever waits. -/
structure RaceRun (c : Config) (rounds np nt : Nat) (l : Object → List Nat) (x : RaceClient) : Prop where
  queues : Queues c x.machine np nt l
  raced : c.maxThreads * rounds < 2147483648 → Raced c rounds nt x
  standing : Standing x.machine
  free : x.machine.waitHead = fun _ => 0
  ended : ∀ t, Slot c t → threadState x.machine t = .terminated → x.place t = .exit

theorem ticked_waitHead (hq : Queues c x.machine np nt l) (step : Ticked c (raceThread rounds) x y) :
    y.machine.waitHead = x.machine.waitHead := by
  cases step with
  | scheduled step quiet =>
      obtain ⟨_, _, _, _, hquiet⟩ := hq.quiet step quiet
      rw [hquiet.frame]
  | yielded executing statement step =>
      obtain ⟨_, _, _, _, hquiet⟩ := hq.quiet step nofun
      rw [hquiet.frame]
  | called executing statement step =>
      generalize x.place (running x.machine) = q at statement
      cases q <;> cases statement
  | worked => rfl

theorem RaceRun.step (h : RaceRun c rounds np nt l x) (step : ClientStep c (raceThread rounds) x k y) :
    ∃ np' nt' l', RaceRun c rounds np' nt' l' y := by
  have hticked : ∃ np' nt' l', Queues c y.machine np' nt' l' ∧
      (c.maxThreads * rounds < 2147483648 → Raced c rounds nt' y) := by
    by_cases hfits : c.maxThreads * rounds < 2147483648
    · obtain ⟨np', nt', l', hq, hraced⟩ := (h.raced hfits).ticked h.queues hfits (ticked step)
      exact ⟨np', nt', l', hq, fun _ => hraced⟩
    · obtain ⟨np', nt', l', hq⟩ := ticked_queues ⟨np, nt, l, h.queues⟩ (ticked step)
      exact ⟨np', nt', l', hq, fun h => (hfits h).elim⟩
  obtain ⟨np', nt', l', hq, hraced⟩ := hticked
  refine ⟨np', nt', l', hq, hraced, ?_, ?_, ?_⟩
  · exact (remaining_step (raceThread_bounded rounds) h.queues h.standing step).1
  · exact (ticked_waitHead h.queues (ticked step)).trans h.free
  · intro t ht
    have hfinal : ∀ t p g, raceThread rounds t p g = .exit → p = .exit := by
      intro t p g hp
      cases p <;> first | rfl | cases hp
    exact ended_step hfinal (raceThread_bounded rounds) h.queues h.standing step (h.ended t ht)

theorem RaceStart.run {count : Nat → Int} (h : RaceStart c count x) : RaceRun c rounds 3 0 (fun _ => []) x := by
  refine ⟨h.machine.queues, fun _ => h.raced, (Initial.sound (x := x) h.machine).2, h.machine.waitHead, ?_⟩
  intro t ht hend
  have hunused : threadState x.machine t = .unused := h.machine.queues.coherent.tables.freeThread t ht.1 ht.2
  rw [hunused] at hend
  cases hend

theorem RaceRun.not_stuck (h : RaceRun c rounds np nt l x)
    (hlive : ∃ t ∈ threads c x.machine, threadState x.machine t ≠ .terminated) :
    ∃ t ∈ threads c x.machine, Runnable x.machine.kernel (.thread t) := by
  obtain ⟨t, ht, hlive⟩ := hlive
  refine ⟨t, ht, ?_⟩
  by_contra hidle
  have hblocked := (threadState_of_idle ht hidle).resolve_right hlive
  obtain ⟨q, hq⟩ := (h.queues.blocked t (Finset.mem_Icc.mp (Finset.mem_filter.mp ht).1)).mp hblocked
  have hempty : l q = [] := (h.queues.chains.head_eq_null q).mp (congrFun h.free q)
  rw [hempty] at hq
  cases hq

/-- When all threads have ended, each has written in all its rounds. -/
theorem RaceRun.finished (h : RaceRun c rounds np nt l x) (hfits : c.maxThreads * rounds < 2147483648)
    (hall : ∀ t ∈ threads c x.machine, threadState x.machine t = .terminated) :
    x.data.writes = (threads c x.machine).card * rounds := by
  have hraced := h.raced hfits
  rw [hraced.writes]
  have hborn : threads c x.machine ⊆ Finset.Icc 1 c.maxThreads := Finset.filter_subset ..
  have hsum : written c rounds x.place = ∑ t ∈ threads c x.machine, (x.place t).written rounds := by
    refine (Finset.sum_subset hborn fun t _ hnone => ?_).symm
    rw [h.queues.threads, Finset.mem_Icc] at hnone
    rw [hraced.unborn t (by omega)]
    rfl
  rw [hsum]
  apply Finset.sum_const_nat
  intro t ht
  rw [h.ended t (Finset.mem_Icc.mp (hborn ht)) (hall t ht)]
  rfl

/-- A thread that has written twice did so last upon a value that was not zero. -/
theorem RaceRun.least (h : RaceRun c rounds np nt l x) (hfits : c.maxThreads * rounds < 2147483648)
    (hall : ∀ t ∈ threads c x.machine, threadState x.machine t = .terminated) (hsome : (threads c x.machine).Nonempty) :
    min 2 rounds ≤ x.data.myglobal := by
  have hwrites := h.finished hfits hall
  have hraced := h.raced hfits
  by_cases hrounds : rounds = 0
  · rw [hrounds]
    exact hraced.bounds.1
  · have hpos : 0 < x.data.writes := by
      rw [hwrites]
      exact Nat.mul_pos hsome.card_pos (Nat.pos_of_ne_zero hrounds)
    obtain ⟨w, hone, hmin⟩ := hraced.last hpos
    have hborn : w ∈ threads c x.machine := by
      rw [h.queues.threads, Finset.mem_Icc]
      by_contra hout
      rw [hraced.unborn w (by omega)] at hone
      exact Nat.not_succ_le_zero 0 hone
    rw [h.ended w (Finset.mem_Icc.mp (Finset.mem_filter.mp hborn).1) (hall w hborn)] at hmin
    exact hmin

end Race

theorem run_raceRun {c : Config} {count : Nat → Int} {rounds : Nat} {x y : RaceClient} (start : RaceStart c count x)
    {ticks : List Tick} (run : Run (ClientStep c (raceThread rounds)) x ticks y) : ∃ np nt l, RaceRun c rounds np nt l y := by
  refine run.invariant (I := fun x => ∃ np nt l, RaceRun c rounds np nt l x) ?_ ⟨3, 0, fun _ => [], start.run⟩
  intro x k y hx step
  obtain ⟨np, nt, l, hx⟩ := hx
  exact hx.step step

/-- What the counter shows. -/
structure RaceCount (c : Config) (rounds : Nat) (x : RaceClient) : Prop where
  bounds : 0 ≤ x.data.myglobal ∧ x.data.myglobal ≤ x.data.writes
  exact : x.data.myglobal = x.data.writes ↔ x.data.overtaken = 0
  finished : (∀ t ∈ threads c x.machine, threadState x.machine t = .terminated) → (threads c x.machine).Nonempty →
    min 2 rounds ≤ x.data.myglobal ∧ x.data.myglobal ≤ (threads c x.machine).card * rounds ∧
      (x.data.myglobal = (threads c x.machine).card * rounds ↔ x.data.overtaken = 0)

/-- What the demo comes to. -/
structure RaceOutcome (c : Config) (rounds : Nat) (x : RaceClient) : Prop where
  counted : c.maxThreads * rounds < 2147483648 → RaceCount c rounds x
  completed : ∃ ticks y, Run (ClientStep c (raceThread rounds)) x ticks y ∧ threads c y.machine = threads c x.machine ∧
    ∀ t ∈ threads c y.machine, threadState y.machine t = .terminated

/-- In every run the counter falls short of the writes exactly when some write came after a
read that another write had overtaken; in the end it can be as low as two. -/
theorem race_outcome {c : Config} {count : Nat → Int} {rounds : Nat} {x y : RaceClient} (start : RaceStart c count x)
    {ticks : List Tick} (run : Run (ClientStep c (raceThread rounds)) x ticks y) : RaceOutcome c rounds y := by
  obtain ⟨np, nt, l, hy⟩ := run_raceRun start run
  constructor
  · intro hfits
    have hraced := hy.raced hfits
    refine ⟨hraced.bounds, hraced.exact, fun hall hsome => ?_⟩
    have hwrites : (y.data.writes : Int) = (threads c y.machine).card * rounds := by
      rw [hy.finished hfits hall]
      push_cast
      rfl
    rw [← hwrites]
    exact ⟨hy.least hfits hall hsome, hraced.bounds.2, hraced.exact⟩
  · let I : RaceClient → Prop := fun x => ∃ np nt l, RaceRun c rounds np nt l x
    have hsound : ∀ x, I x → Sound c x := by
      intro x hx
      obtain ⟨np, nt, l, hx⟩ := hx
      exact ⟨⟨np, nt, l, hx.queues⟩, hx.standing⟩
    have hstep : ∀ x k y, I x → ClientStep c (raceThread rounds) x k y → I y := by
      intro x k y hx step
      obtain ⟨np, nt, l, hx⟩ := hx
      exact hx.step step
    have hlive : ∀ x, I x → (∃ t ∈ threads c x.machine, threadState x.machine t ≠ .terminated) →
        ∃ t ∈ threads c x.machine, Runnable x.machine.kernel (.thread t) := by
      intro x hx hlive
      obtain ⟨np, nt, l, hx⟩ := hx
      exact hx.not_stuck hlive
    obtain ⟨later, z, run', _, hthreads, hall⟩ :=
      completes_threads (raceThread_bounded rounds) hsound hstep hlive ⟨np, nt, l, hy⟩
    exact ⟨later, z, run', hthreads, hall⟩

def raceDemo : RaceClient := ⟨sampleState 0, fun _ => .test 0, ⟨0, 0, 0, fun _ => 0, 0⟩⟩

/-- Both threads read before either writes. -/
def lostUpdate : List Tick :=
  [.irq 0, .create 0x10400 0, .create 0x10400 0, .irq 0] ++ stmts 2 ++ [.irq 0, .irq 0] ++ stmts 2 ++
    [.irq 0, .irq 0] ++ stmts 1 ++ [.irq 0, .irq 0, .irq 0] ++ stmts 1 ++ [.irq 0, .irq 0] ++ stmts 1 ++
    [.irq 0, .irq 0, .irq 0] ++ stmts 1

theorem race_outcome_sample : ∃ y, Run (ClientStep sampleConfig (raceThread 1)) raceDemo lostUpdate y ∧
    y.data.writes = 2 ∧ y.data.myglobal = 1 ∧ RaceOutcome sampleConfig 1 y := by
  have hsome : (execute (clientStep sampleConfig (raceThread 1)) raceDemo lostUpdate).map
      (fun y => (y.data.writes, y.data.myglobal)) = some (2, 1) := by decide +kernel
  obtain ⟨y, hy, hdata⟩ := Option.map_eq_some_iff.mp hsome
  have run : Run (ClientStep sampleConfig (raceThread 1)) raceDemo lostUpdate y := run_of_execute hy
  obtain ⟨hwrites, hglobal⟩ := Prod.mk.inj hdata
  exact ⟨y, run, hwrites, hglobal, race_outcome ⟨sampleState_initial 0, rfl, rfl, rfl, rfl⟩ run⟩

end SengKernel.Sync
