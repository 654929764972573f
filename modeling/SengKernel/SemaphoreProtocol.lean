import SengKernel.MutexProtocol
import SengKernel.SemaphorePreemption

/- The semaphore as its callers see it: what its count says, who is granted and in
   which order. The lists of threads and the number of signals are history. -/
namespace SengKernel.Sync
open Sched MachineWord Transition LinkedRing LinkedChain

/-- The machine, the threads that called `sem_wait` on a semaphore, those that were
granted, both in order, and the number of calls of `sem_signal`. -/
structure Tally where
  state : State
  asked : List Nat
  granted : List Nat
  signals : Nat

def waitsAfter (i : Nat) (x : Tally) : Move → List Nat
  | .call (.wait j) => if j = i ∧ running x.state ≠ 0 then x.asked ++ [running x.state] else x.asked
  | _ => x.asked

/-- A wait is granted at once while the count is positive, and a queued one when a
signal dequeues it. -/
def grantsAfter (i : Nat) (x : Tally) : Move → List Nat
  | .call (.wait j) =>
      if j = i ∧ running x.state ≠ 0 ∧ x.state.value i > 0 then x.granted ++ [running x.state] else x.granted
  | .call (.signal j) =>
      if j = i ∧ x.state.waitHead (.semaphore i) ≠ 0 then x.granted ++ [x.state.waitHead (.semaphore i)]
      else x.granted
  | _ => x.granted

def signalsAfter (i : Nat) (x : Tally) : Move → Nat
  | .call (.signal j) => if j = i then x.signals + 1 else x.signals
  | _ => x.signals

def tallyStep (c : Config) (i : Nat) (x : Tally) (mv : Move) : Option Tally :=
  (moveStep c x.state mv).map (fun s => ⟨s, waitsAfter i x mv, grantsAfter i x mv, signalsAfter i x mv⟩)

def TallyStep (c : Config) (i : Nat) (x : Tally) (mv : Move) (y : Tally) : Prop := tallyStep c i x mv = some y

/-- The count stays below 2^31. -/
def CountFits (i : Nat) (x : Tally) (mv : Move) : Prop :=
  mv = .call (.signal i) → x.state.waitHead (.semaphore i) = 0 → x.state.value i + 1 < 2147483648

instance (i : Nat) (x : Tally) (mv : Move) : Decidable (CountFits i x mv) :=
  inferInstanceAs (Decidable (_ → _ → _))

structure SemaphoreProtocol (c : Config) (i : Nat) (v : Int) (x : Tally) : Prop where
  conserved : x.state.value i = v + x.signals - x.granted.length
  nonneg : 0 ≤ x.state.value i
  idle : x.state.value i > 0 → x.state.waitHead (.semaphore i) = 0
  returns : ∀ mv y, CountFits i x mv → TallyStep c i x mv y → Returns (.wait i) x.state mv y.state →
    y.granted.count (running x.state) = y.asked.count (running x.state)
  order : ∃ waiting, Path (waitNext x.state) (x.state.waitHead (.semaphore i)) waiting 0 ∧ 0 ∉ waiting ∧
    x.asked = x.granted ++ waiting ∧
    ∀ mv y, CountFits i x mv → TallyStep c i x mv y →
      ∃ waiting', Path (waitNext y.state) (y.state.waitHead (.semaphore i)) waiting' 0 ∧ 0 ∉ waiting' ∧
        ∀ w ∈ waiting, w ∉ waiting' →
          mv = .call (.signal i) ∧ waiting = w :: waiting' ∧ threadState y.state w = .ready

/-- The invariant behind the protocol, for the queues `l` of all objects. -/
structure Accounted (i : Nat) (v : Int) (x : Tally) (l : Object → List Nat) : Prop where
  conserved : x.state.value i = v + x.signals - x.granted.length
  nonneg : 0 ≤ x.state.value i
  fits : x.state.value i < 2147483648
  idle : x.state.value i > 0 → l (.semaphore i) = []
  order : x.asked = x.granted ++ l (.semaphore i)

/-- How one step changes the queue of the semaphore. -/
inductive QueueStep (i : Nat) (s s' : State) (mv : Move) (l l' : Object → List Nat) : Prop
  | same (same : l' (.semaphore i) = l (.semaphore i))
  | joined (joined : l' (.semaphore i) = l (.semaphore i) ++ [running s])
  | woken (w : Nat) (signal : mv = .call (.signal i)) (first : l (.semaphore i) = w :: l' (.semaphore i))
      (ready : threadState s' w = .ready)

section Protocol

variable {c : Config} {i : Nat} {v : Int} {x y : Tally} {np nt : Nat} {l : Object → List Nat} {mv : Move}

theorem tallyStep_cases (step : TallyStep c i x mv y) : Moved c x.state mv y.state ∧
    y.asked = waitsAfter i x mv ∧ y.granted = grantsAfter i x mv ∧ y.signals = signalsAfter i x mv := by
  obtain ⟨s, hs, rfl⟩ := Option.map_eq_some_iff.mp step
  exact ⟨moved hs, rfl, rfl, rfl⟩

/-- Nothing about this semaphore changes. -/
theorem Accounted.same (h : Accounted i v x l) {l' : Object → List Nat} (hvalue : y.state.value i = x.state.value i)
    (hl : l' (.semaphore i) = l (.semaphore i)) (hasked : y.asked = x.asked) (hgranted : y.granted = x.granted)
    (hsignals : y.signals = x.signals) : Accounted i v y l' := by
  refine ⟨?_, ?_, ?_, ?_, ?_⟩
  · rw [hvalue, hgranted, hsignals]
    exact h.conserved
  · rw [hvalue]
    exact h.nonneg
  · rw [hvalue]
    exact h.fits
  · rw [hvalue, hl]
    exact h.idle
  · rw [hasked, hgranted, hl]
    exact h.order

/-- A wait finds the count positive. -/
theorem Accounted.take (h : Accounted i v x l) (havailable : x.state.value i > 0)
    (hvalue : y.state.value i = wrap32 (x.state.value i - 1)) {r : Nat} (hasked : y.asked = x.asked ++ [r])
    (hgranted : y.granted = x.granted ++ [r]) (hsignals : y.signals = x.signals) : Accounted i v y l := by
  have hfits := h.fits
  have hconserved := h.conserved
  have hlength : y.granted.length = x.granted.length + 1 := by rw [hgranted, List.length_append, List.length_singleton]
  rw [wrap32_of_mem (by omega) (by omega)] at hvalue
  have hnil := h.idle havailable
  refine ⟨by omega, by omega, by omega, fun _ => hnil, ?_⟩
  rw [hasked, hgranted, h.order, hnil, List.append_nil, List.append_nil]

/-- A wait finds the count zero and joins the queue. -/
theorem Accounted.wait (h : Accounted i v x l) (hnone : ¬ x.state.value i > 0)
    (hvalue : y.state.value i = x.state.value i) {r : Nat} (hasked : y.asked = x.asked ++ [r])
    (hgranted : y.granted = x.granted) (hsignals : y.signals = x.signals) :
    Accounted i v y (Function.update l (.semaphore i) (l (.semaphore i) ++ [r])) := by
  refine ⟨?_, ?_, ?_, fun hpos => ?_, ?_⟩
  · rw [hvalue, hgranted, hsignals]
    exact h.conserved
  · rw [hvalue]
    exact h.nonneg
  · rw [hvalue]
    exact h.fits
  · rw [hvalue] at hpos
    exact (hnone hpos).elim
  · rw [hasked, hgranted, Function.update_self, h.order, List.append_assoc]

/-- A signal passes its token to the first waiter. -/
theorem Accounted.pass (h : Accounted i v x l) {w : Nat} {ws : List Nat} (hl : l (.semaphore i) = w :: ws)
    (hvalue : y.state.value i = x.state.value i) (hasked : y.asked = x.asked)
    (hgranted : y.granted = x.granted ++ [w]) (hsignals : y.signals = x.signals + 1) :
    Accounted i v y (Function.update l (.semaphore i) ws) := by
  have hconserved := h.conserved
  have hlength : y.granted.length = x.granted.length + 1 := by rw [hgranted, List.length_append, List.length_singleton]
  have hzero : ¬ x.state.value i > 0 := fun hpos => by
    rw [h.idle hpos] at hl
    cases hl
  refine ⟨by omega, hvalue ▸ h.nonneg, hvalue ▸ h.fits, fun hpos => (hzero (hvalue ▸ hpos)).elim, ?_⟩
  rw [hasked, hgranted, Function.update_self, h.order, hl, List.append_assoc]
  rfl

/-- A signal with nobody waiting is kept in the count. -/
theorem Accounted.bank (h : Accounted i v x l) (hnil : l (.semaphore i) = [])
    (hfits : x.state.value i + 1 < 2147483648) (hvalue : y.state.value i = wrap32 (x.state.value i + 1))
    (hasked : y.asked = x.asked) (hgranted : y.granted = x.granted) (hsignals : y.signals = x.signals + 1) :
    Accounted i v y l := by
  have hnonneg := h.nonneg
  have hconserved := h.conserved
  rw [wrap32_of_mem (by omega) (by omega)] at hvalue
  refine ⟨by rw [hgranted]; omega, by omega, by omega, fun _ => hnil, ?_⟩
  rw [hasked, hgranted]
  exact h.order

theorem Accounted.elsewhere (h : Accounted i v x l) {l' : Object → List Nat} (hq : Queues c y.state np nt l')
    (hvalue : y.state.value i = x.state.value i) (hl : l' (.semaphore i) = l (.semaphore i))
    (hasked : y.asked = x.asked) (hgranted : y.granted = x.granted) (hsignals : y.signals = x.signals) :
    ∃ l', Queues c y.state np nt l' ∧ Accounted i v y l' ∧ QueueStep i x.state y.state mv l l' :=
  ⟨l', hq, h.same hvalue hl hasked hgranted hsignals, .same hl⟩

theorem accounted_call {op : Op} (hq : Queues c x.state np nt l) (h : Accounted i v x l) (hfree : Free x.state)
    (hp : Performed x.state op y.state) (hfits : CountFits i x (.call op))
    (hasked : y.asked = waitsAfter i x (.call op)) (hgranted : y.granted = grantsAfter i x (.call op))
    (hsignals : y.signals = signalsAfter i x (.call op)) :
    ∃ l', Queues c y.state np nt l' ∧ Accounted i v y l' ∧ QueueStep i x.state y.state (.call op) l l' := by
  have hawake : running x.state ≠ 0 → threadState x.state (running x.state) ≠ .blocked :=
    fun hrun => (hq.free hfree hrun).1
  obtain ⟨s', hys⟩ : ∃ s', y.state = s' := ⟨_, rfl⟩
  rw [hys] at hp
  cases hp with
  | lockNobody | relock | unlockFree | unlockOther =>
      exact h.elsewhere (hys.symm ▸ hq) (by rw [hys]) rfl hasked hgranted hsignals
  | acquire | release =>
      exact h.elsewhere (hys.symm ▸ hq.congr rfl rfl rfl rfl) (by rw [hys]; rfl) rfl hasked hgranted hsignals
  | lockBlock somebody locked own =>
      rename_i m
      have hne : Object.semaphore i ≠ .mutex m := nofun
      exact h.elsewhere (hys.symm ▸ hq.suspend somebody (hfree.not_yield somebody)) (by rw [hys, suspend_frame])
        (Function.update_of_ne hne ..) hasked hgranted hsignals
  | handOver locked own waiter =>
      rename_i m
      have hne : Object.semaphore i ≠ .mutex m := nofun
      obtain ⟨ws, hl⟩ := hq.first waiter
      have hq' : Queues c y.state np nt (Function.update l (.mutex m) ws) :=
        hys.symm ▸ (hq.wakeFirst hl hawake).congr rfl rfl rfl rfl
      exact h.elsewhere hq' (by rw [hys, wakeFirst_frame]; rfl) (Function.update_of_ne hne ..) hasked hgranted
        hsignals
  | waitNobody nobody =>
      rw [waitsAfter, if_neg (fun hr => hr.2 nobody)] at hasked
      rw [grantsAfter, if_neg (fun hr => hr.2.1 nobody)] at hgranted
      exact h.elsewhere (hys.symm ▸ hq) (by rw [hys]) rfl hasked hgranted hsignals
  | take somebody available =>
      rename_i j
      have hq' : Queues c y.state np nt l := hys.symm ▸ hq.congr rfl rfl rfl rfl
      by_cases hj : j = i
      · subst hj
        rw [waitsAfter, if_pos ⟨rfl, somebody⟩] at hasked
        rw [grantsAfter, if_pos ⟨rfl, somebody, available⟩] at hgranted
        have hvalue : y.state.value j = wrap32 (x.state.value j - 1) := by
          rw [hys]
          exact Function.update_self ..
        exact ⟨l, hq', h.take available hvalue hasked hgranted hsignals, .same rfl⟩
      · rw [waitsAfter, if_neg (fun hr => hj hr.1)] at hasked
        rw [grantsAfter, if_neg (fun hr => hj hr.1)] at hgranted
        refine h.elsewhere hq' ?_ rfl hasked hgranted hsignals
        rw [hys]
        exact Function.update_of_ne (Ne.symm hj) ..
  | waitBlock somebody none =>
      rename_i j
      have hq' : Queues c y.state np nt _ := hys.symm ▸ hq.suspend somebody (hfree.not_yield somebody)
      have hvalue : y.state.value i = x.state.value i := by rw [hys, suspend_frame]
      by_cases hj : j = i
      · subst hj
        rw [waitsAfter, if_pos ⟨rfl, somebody⟩] at hasked
        rw [grantsAfter, if_neg (fun hr => none hr.2.2)] at hgranted
        exact ⟨_, hq', h.wait none hvalue hasked hgranted hsignals, .joined (Function.update_self ..)⟩
      · rw [waitsAfter, if_neg (fun hr => hj hr.1)] at hasked
        rw [grantsAfter, if_neg (fun hr => hj hr.1)] at hgranted
        have hne : Object.semaphore i ≠ .semaphore j := fun he => hj (by cases he; rfl)
        exact h.elsewhere hq' hvalue (Function.update_of_ne hne ..) hasked hgranted hsignals
  | pass waiter =>
      rename_i j
      obtain ⟨ws, hl⟩ := hq.first waiter
      have hq' : Queues c y.state np nt _ := hys.symm ▸ hq.wakeFirst hl hawake
      have hvalue : y.state.value i = x.state.value i := by rw [hys, wakeFirst_frame]
      by_cases hj : j = i
      · subst hj
        rw [grantsAfter, if_pos ⟨rfl, waiter⟩] at hgranted
        rw [signalsAfter, if_pos rfl] at hsignals
        refine ⟨_, hq', h.pass hl hvalue hasked hgranted hsignals, .woken (x.state.waitHead (.semaphore j)) rfl ?_ ?_⟩
        · rw [Function.update_self]
          exact hl
        · rw [hys]
          have hblocked : threadState (dequeue x.state (.semaphore j)) (x.state.waitHead (.semaphore j)) = .blocked := by
            rw [dequeue_threadState]
            exact hq.member_blocked (q := .semaphore j) (hl ▸ List.mem_cons_self ..)
          rw [unblockThread_eq _ waiter hblocked, setThreadState_threadState, if_pos rfl]
      · rw [grantsAfter, if_neg (fun hr => hj hr.1)] at hgranted
        rw [signalsAfter, if_neg hj] at hsignals
        have hne : Object.semaphore i ≠ .semaphore j := fun he => hj (by cases he; rfl)
        exact h.elsewhere hq' hvalue (Function.update_of_ne hne ..) hasked hgranted hsignals
  | bank empty =>
      rename_i j
      have hq' : Queues c y.state np nt l := hys.symm ▸ hq.congr rfl rfl rfl rfl
      by_cases hj : j = i
      · subst hj
        rw [grantsAfter, if_neg (fun hr => hr.2 empty)] at hgranted
        rw [signalsAfter, if_pos rfl] at hsignals
        have hvalue : y.state.value j = wrap32 (x.state.value j + 1) := by
          rw [hys]
          exact Function.update_self ..
        exact ⟨l, hq', h.bank ((hq.chains.head_eq_null _).mp empty) (hfits rfl empty) hvalue hasked hgranted
          hsignals, .same rfl⟩
      · rw [grantsAfter, if_neg (fun hr => hj hr.1)] at hgranted
        rw [signalsAfter, if_neg hj] at hsignals
        refine h.elsewhere hq' ?_ rfl hasked hgranted hsignals
        rw [hys]
        exact Function.update_of_ne (Ne.symm hj) ..

theorem accounted_step (hq : Queues c x.state np nt l) (h : Accounted i v x l) (hfits : CountFits i x mv)
    (step : TallyStep c i x mv y) : ∃ np' nt' l', Queues c y.state np' nt' l' ∧ Accounted i v y l' ∧
      QueueStep i x.state y.state mv l l' := by
  obtain ⟨hmoved, hasked, hgranted, hsignals⟩ := tallyStep_cases step
  rcases hmoved.call_or_quiet with ⟨op, rfl, hfree, hp⟩ | hcall
  · obtain ⟨l', h'⟩ := accounted_call hq h hfree hp hfits hasked hgranted hsignals
    exact ⟨np, nt, l', h'⟩
  · obtain ⟨np', nt', _, hq', hquiet⟩ := hq.quiet hmoved hcall
    have hsame : waitsAfter i x mv = x.asked ∧ grantsAfter i x mv = x.granted ∧ signalsAfter i x mv = x.signals := by
      cases mv with
      | call op => exact (hcall op rfl).elim
      | _ => exact ⟨rfl, rfl, rfl⟩
    exact ⟨np', nt', l, hq', h.same (by rw [hquiet.frame]) rfl (hasked.trans hsame.1) (hgranted.trans hsame.2.1)
      (hsignals.trans hsame.2.2), .same rfl⟩

/-- A thread that is not in the queue has been granted all its waits. -/
theorem Accounted.granted_all (h : Accounted i v x l) {t : Nat} (ht : t ∉ l (.semaphore i)) :
    x.granted.count t = x.asked.count t := by
  rw [h.order, List.count_append, List.count_eq_zero.mpr ht, Nat.add_zero]

/-- A thread that comes back from `sem_wait` is not BLOCKED. -/
theorem returns_awake (hq : Queues c x.state np nt l) (hmoved : Moved c x.state mv y.state)
    (hret : Returns (.wait i) x.state mv y.state) : threadState y.state (running x.state) ≠ .blocked := by
  obtain ⟨hrun, ⟨rfl, hidle⟩ | ⟨savedEsp, rfl, hat⟩⟩ := hret
  · generalize y.state = s' at hmoved hidle ⊢
    cases hmoved with
    | call free step =>
        cases step with
        | waitNobody nobody => exact (hrun nobody).elim
        | take somebody available => exact (hq.free free hrun).1
        | waitBlock somebody none =>
            rw [suspend_frame] at hidle
            simp only [Function.update_self] at hidle
            cases hidle
  · generalize y.state = s' at hmoved ⊢
    cases hmoved with
    | yield somebody at' step =>
        rw [at'] at hat
        cases hat
    | returned somebody at' =>
        exact (hq.free_not_member hrun (fun q hyield => by rw [hat] at hyield; cases hyield)).1

/-- A waiter leaves the queue only when a signal takes it, as the first and alone. -/
theorem QueueStep.leaves {s s' : State} {l' : Object → List Nat} (h : QueueStep i s s' mv l l') {w : Nat}
    (hw : w ∈ l (.semaphore i)) (hgone : w ∉ l' (.semaphore i)) :
    mv = .call (.signal i) ∧ l (.semaphore i) = w :: l' (.semaphore i) ∧ threadState s' w = .ready := by
  cases h with
  | same hl =>
      rw [hl] at hgone
      exact (hgone hw).elim
  | joined hl =>
      rw [hl] at hgone
      exact (hgone (List.mem_append_left _ hw)).elim
  | woken u signal first ready =>
      rw [first, List.mem_cons] at hw
      obtain rfl := hw.resolve_right hgone
      exact ⟨signal, first, ready⟩

end Protocol

theorem Initial.accounted {c : Config} {count : Nat → Int} {s : State} (h : Initial c count s) {i : Nat}
    (hlow : 0 ≤ count i) (hhigh : count i < 2147483648) :
    Accounted i (count i) ⟨s, [], [], 0⟩ (fun _ => []) := by
  have hvalue : s.value i = count i := by rw [h.value]
  refine ⟨?_, hvalue.symm ▸ hlow, hvalue.symm ▸ hhigh, fun _ => rfl, rfl⟩
  rw [hvalue]
  simp

theorem run_accounted {c : Config} {count : Nat → Int} {s : State} {i : Nat} {x : Tally} (initial : Initial c count s)
    (hlow : 0 ≤ count i) (hhigh : count i < 2147483648) {moves : List Move}
    (run : Run (When (CountFits i) (TallyStep c i)) ⟨s, [], [], 0⟩ moves x) :
    ∃ np nt l, Queues c x.state np nt l ∧ Accounted i (count i) x l := by
  refine run.invariant (I := fun x => ∃ np nt l, Queues c x.state np nt l ∧ Accounted i (count i) x l)
    (fun x mv y hx step => ?_) ⟨3, 0, fun _ => [], initial.queues, initial.accounted hlow hhigh⟩
  obtain ⟨np, nt, l, hq, h⟩ := hx
  obtain ⟨np', nt', l', hq', h', _⟩ := accounted_step hq h step.1 step.2
  exact ⟨np', nt', l', hq', h'⟩

/-- No token is lost or made up, and the waiters are served in their order, as long
as the count fits in an `int`. -/
theorem semaphore_protocol {c : Config} {count : Nat → Int} {s : State} {i : Nat} {x : Tally}
    (initial : Initial c count s) (hlow : 0 ≤ count i) (hhigh : count i < 2147483648) {moves : List Move}
    (run : Run (When (CountFits i) (TallyStep c i)) ⟨s, [], [], 0⟩ moves x) : SemaphoreProtocol c i (count i) x := by
  obtain ⟨np, nt, l, hq, h⟩ := run_accounted initial hlow hhigh run
  refine ⟨h.conserved, h.nonneg, fun hpos => ?_, fun mv y hfits step hret => ?_, ?_⟩
  · exact (hq.chains.head_eq_null _).mpr (h.idle hpos)
  · obtain ⟨np', nt', l', hq', h', _⟩ := accounted_step hq h hfits step
    have hawake := returns_awake hq (tallyStep_cases step).1 hret
    exact h'.granted_all (fun hmem => hawake (hq'.member_blocked hmem))
  · refine ⟨l (.semaphore i), hq.chains.path _, hq.chains.nonnull _, h.order, fun mv y hfits step => ?_⟩
    obtain ⟨np', nt', l', hq', _, hqueued⟩ := accounted_step hq h hfits step
    exact ⟨l' (.semaphore i), hq'.chains.path _, hq'.chains.nonnull _, fun w hw hgone => hqueued.leaves hw hgone⟩

/-- The only token goes to the first thread; the second waits until it is signalled. -/
def sharedToken : List Move :=
  [.irq 0, .create 0x10400 0, .create 0x10400 0, .irq 0, .call (.wait 0), .irq 0, .irq 0, .call (.wait 0),
    .resume 0, .irq 0, .call (.signal 0), .irq 0, .irq 0, .resume 0]

theorem semaphore_protocol_sample : ∃ x,
    Run (When (CountFits 0) (TallyStep sampleConfig 0)) ⟨sampleState 1, [], [], 0⟩ sharedToken x ∧
    SemaphoreProtocol sampleConfig 0 1 x := by
  have hsome : (execute (guarded (CountFits 0) (tallyStep sampleConfig 0)) ⟨sampleState 1, [], [], 0⟩
      sharedToken).isSome = true := by decide +kernel
  obtain ⟨x, hx⟩ := Option.isSome_iff_exists.mp hsome
  have run := run_of_execute_guarded hx
  exact ⟨x, run, semaphore_protocol (sampleState_initial 1) (by decide) (by decide) run⟩

end SengKernel.Sync
