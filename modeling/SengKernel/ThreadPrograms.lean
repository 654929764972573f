import SengKernel.SemaphoreProtocol

/- Programs of threads over the atomic operations. Every thread stands at a place of
   its program, the threads share data, and one step is one statement of the running
   thread, an interrupt, or the creation of a thread by a process. -/
namespace SengKernel.Sync
open Sched MachineWord Transition

variable {D P : Type*}

/-- What a statement does, and the place after it. -/
inductive Statement (D P : Type*) where
  | work (data : D) (next : P)
  | call (op : Op) (next : P)
  | yield (next : P)
  | exit

structure Client (D P : Type*) where
  machine : State
  place : Nat → P
  data : D

inductive Tick where
  | irq (savedEsp : Nat)
  | create (fn arg : Nat)
  | stmt (savedEsp : Nat)
  deriving DecidableEq, Repr

/-- The places after the running thread has moved on. -/
def advance (x : Client D P) (p : P) : Nat → P := Function.update x.place (running x.machine) p

def runStatement (c : Config) (x : Client D P) (savedEsp : Nat) : Statement D P → Option (Client D P)
  | .work data next => some ⟨x.machine, advance x next, data⟩
  | .call op next => (moveStep c x.machine (.call op)).map (fun s => ⟨s, advance x next, x.data⟩)
  | .yield next => (moveStep c x.machine (.irq savedEsp)).map (fun s => ⟨s, advance x next, x.data⟩)
  | .exit => (moveStep c x.machine .exit).map (fun s => ⟨s, x.place, x.data⟩)

/-- One step of a system whose thread `t`, at the place `p`, executes `program t p`. A
thread that stands inside a blocked call completes the call first. -/
def clientStep (c : Config) (program : Nat → P → D → Statement D P) (x : Client D P) : Tick → Option (Client D P)
  | .irq savedEsp => (moveStep c x.machine (.irq savedEsp)).map (fun s => ⟨s, x.place, x.data⟩)
  | .create fn arg =>
      if running x.machine = 0 then (moveStep c x.machine (.create fn arg)).map (fun s => ⟨s, x.place, x.data⟩)
      else none
  | .stmt savedEsp =>
      if running x.machine = 0 then none
      else if (x.machine.pc (running x.machine)).isIdle = false then
        (moveStep c x.machine (.resume savedEsp)).map (fun s => ⟨s, x.place, x.data⟩)
      else if Free x.machine then
        runStatement c x savedEsp (program (running x.machine) (x.place (running x.machine)) x.data)
      else none

def ClientStep (c : Config) (program : Nat → P → D → Statement D P) (x : Client D P) (k : Tick) (y : Client D P) : Prop :=
  clientStep c program x k = some y

/-- The running thread executes its own statement. -/
def Executing (s : State) : Prop := running s ≠ 0 ∧ Free s

/-- What one step can be. -/
inductive Ticked (c : Config) (program : Nat → P → D → Statement D P) (x : Client D P) : Client D P → Prop
  | scheduled {mv : Move} {s : State} (step : Moved c x.machine mv s) (quiet : ∀ op, mv ≠ .call op) :
      Ticked c program x ⟨s, x.place, x.data⟩
  | yielded {savedEsp : Nat} {next : P} {s : State} (executing : Executing x.machine)
      (statement : program (running x.machine) (x.place (running x.machine)) x.data = .yield next)
      (step : Moved c x.machine (.irq savedEsp) s) : Ticked c program x ⟨s, advance x next, x.data⟩
  | called {op : Op} {next : P} {s : State} (executing : Executing x.machine)
      (statement : program (running x.machine) (x.place (running x.machine)) x.data = .call op next)
      (step : Performed x.machine op s) : Ticked c program x ⟨s, advance x next, x.data⟩
  | worked {data : D} {next : P} (executing : Executing x.machine)
      (statement : program (running x.machine) (x.place (running x.machine)) x.data = .work data next) :
      Ticked c program x ⟨x.machine, advance x next, data⟩

theorem executing_awake {s : State} (hexec : Executing s) (q : Object) : ¬ Asleep s q (running s) :=
  free_not_asleep hexec.2 hexec.1 q

/-- An operation puts no other thread to sleep. -/
theorem Performed.asleep {s s' : State} {op : Op} (hp : Performed s op s') {q : Object} {t : Nat} (ht : t ≠ running s)
    (h : Asleep s' q t) : Asleep s q t := by
  cases hp with
  | lockNobody | relock | unlockFree | unlockOther | waitNobody | acquire | release | take | bank => exact h
  | lockBlock | waitBlock => exact ((asleep_suspend h).resolve_left (fun hself => ht hself.1)).2
  | handOver | pass =>
      rw [Asleep, wakeFirst_frame] at h
      exact h

/-- The threads that have been created. -/
def threads (c : Config) (s : State) : Finset Nat :=
  (Finset.Icc 1 c.maxThreads).filter (fun t => threadState s t ≠ .unused)

theorem threads_card_le (c : Config) (s : State) : (threads c s).card ≤ c.maxThreads :=
  (Finset.card_filter_le _ _).trans (by rw [Nat.card_Icc, Nat.add_sub_cancel])

def stmts (n : Nat) : List Tick := List.replicate n (.stmt 0)

section Steps

variable {c : Config} {program : Nat → P → D → Statement D P} {x y : Client D P} {k : Tick}

theorem ticked (step : ClientStep c program x k y) : Ticked c program x y := by
  unfold ClientStep at step
  cases k with
  | irq savedEsp =>
      obtain ⟨s, hs, rfl⟩ := Option.map_eq_some_iff.mp step
      exact .scheduled (moved hs) nofun
  | create fn arg =>
      simp only [clientStep] at step
      split at step
      · obtain ⟨s, hs, rfl⟩ := Option.map_eq_some_iff.mp step
        exact .scheduled (moved hs) nofun
      · cases step
  | stmt savedEsp =>
      simp only [clientStep] at step
      split_ifs at step with hrun hidle hfree
      · obtain ⟨s, hs, rfl⟩ := Option.map_eq_some_iff.mp step
        exact .scheduled (moved hs) nofun
      · have hexec : Executing x.machine := ⟨hrun, hfree⟩
        generalize hst : program (running x.machine) (x.place (running x.machine)) x.data = statement at step
        cases statement with
        | work data next =>
            cases step
            exact .worked hexec hst
        | call op next =>
            obtain ⟨s, hs, rfl⟩ := Option.map_eq_some_iff.mp step
            exact .called hexec hst (by
              cases moved hs with
              | call _ step => exact step)
        | yield next =>
            obtain ⟨s, hs, rfl⟩ := Option.map_eq_some_iff.mp step
            exact .yielded hexec hst (moved hs)
        | exit =>
            obtain ⟨s, hs, rfl⟩ := Option.map_eq_some_iff.mp step
            exact .scheduled (moved hs) nofun

@[simp] theorem advance_self (p : P) : advance x p (running x.machine) = p := Function.update_self ..

theorem advance_of_ne {t : Nat} (p : P) (ht : t ≠ running x.machine) : advance x p t = x.place t :=
  Function.update_of_ne ht ..

variable {np nt : Nat} {l : Object → List Nat} {s : State}

theorem Queues.threads (h : Queues c s np nt l) : threads c s = Finset.Icc 1 nt := by
  ext t
  rw [Sync.threads, Finset.mem_filter, Finset.mem_Icc, Finset.mem_Icc]
  constructor
  · rintro ⟨⟨hpos, hle⟩, hused⟩
    refine ⟨hpos, ?_⟩
    by_contra hlt
    exact hused (h.coherent.tables.freeThread t (Nat.lt_of_not_le hlt) hle)
  · rintro ⟨hpos, hle⟩
    exact ⟨⟨hpos, hle.trans h.coherent.tables.threadCount⟩, h.coherent.tables.usedThread t hpos hle⟩

theorem Queues.running_slot_mem (h : Queues c s np nt l) (hrun : running s ≠ 0) :
    running s ∈ Finset.Icc 1 c.maxThreads :=
  Finset.mem_Icc.mpr (h.running_slot hrun)

/-- A sum over the threads changes by the running thread's term. -/
theorem sum_advance {M : Type*} [AddCommMonoid M] {S : Finset Nat} (hr : running x.machine ∈ S) (f : Nat → P → M)
    (p : P) : ∑ t ∈ S, f t (advance x p t) + f (running x.machine) (x.place (running x.machine)) =
      ∑ t ∈ S, f t (x.place t) + f (running x.machine) p := by
  have hrest : ∑ t ∈ S.erase (running x.machine), f t (advance x p t) =
      ∑ t ∈ S.erase (running x.machine), f t (x.place t) :=
    Finset.sum_congr rfl (fun t ht => by rw [advance_of_ne p (Finset.ne_of_mem_erase ht)])
  rw [← Finset.add_sum_erase S _ hr, ← Finset.add_sum_erase S (fun t => f t (x.place t)) hr, hrest, advance_self]
  abel

end Steps

/-- A sum over all slots whose terms vanish beyond the created threads. -/
theorem sum_created {n nt : Nat} (hle : nt ≤ n) {f : Nat → Nat} (hzero : ∀ t, nt < t → f t = 0) :
    ∑ t ∈ Finset.Icc 1 n, f t = ∑ t ∈ Finset.Icc 1 nt, f t := by
  refine (Finset.sum_subset (Finset.Icc_subset_Icc (Nat.le_refl 1) hle) (fun t ht hnot => ?_)).symm
  refine hzero t ?_
  rw [Finset.mem_Icc] at ht hnot
  omega

/-- Distinct members of a set with a positive weight each. -/
theorem length_le_sum {S : Finset Nat} {l : List Nat} {f : Nat → Nat} (hnodup : l.Nodup) (hsub : ∀ t ∈ l, t ∈ S)
    (hweight : ∀ t ∈ l, 1 ≤ f t) : l.length ≤ ∑ t ∈ S, f t := by
  calc l.length = l.toFinset.card := (List.toFinset_card_of_nodup hnodup).symm
    _ = ∑ _t ∈ l.toFinset, 1 := by rw [Finset.sum_const, smul_eq_mul, Nat.mul_one]
    _ ≤ ∑ t ∈ l.toFinset, f t := Finset.sum_le_sum (fun t ht => hweight t (List.mem_toFinset.mp ht))
    _ ≤ ∑ t ∈ S, f t := Finset.sum_le_sum_of_subset (fun t ht => hsub t (List.mem_toFinset.mp ht))

end SengKernel.Sync
