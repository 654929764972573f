import SengKernel.BoundedBuffer
import SengKernel.ThreadProgress

/- The semaphore demo comes to its end. When the producers make as many items as the
   consumers take, the threads are never all blocked, and every thread executes a
   bounded number of statements. -/
namespace SengKernel.Sync
open Sched MachineWord Transition LinkedChain

/-- The statements that a thread has left: thirteen for every round, and three to end. -/
def SemPlace.cost (rounds : Nat) : SemPlace → Nat
  | .produceTest i | .consumeTest i => 13 * (rounds - i) + 3
  | .waitEmpty i | .waitFull i => 13 * (rounds - (i + 1)) + 15
  | .produceEnter i | .consumeEnter i => 13 * (rounds - (i + 1)) + 12
  | .store i | .decrement i => 13 * (rounds - (i + 1)) + 9
  | .increment i | .load i => 13 * (rounds - (i + 1)) + 8
  | .printInserted i | .printExtracted i _ => 13 * (rounds - (i + 1)) + 7
  | .produceLeave i | .consumeLeave i => 13 * (rounds - (i + 1)) + 6
  | .signalFull i | .signalEmpty i => 13 * (rounds - (i + 1)) + 5
  | .produceYield i | .consumeYield i => 13 * (rounds - (i + 1)) + 4
  | .produceDone | .consumeDone => 2
  | .produceExit | .consumeExit => 1

/-- The created producers make as many items as the created consumers take. -/
def Matched (c : Config) (job : Nat → Job) (x : BufferClient) : Prop :=
  ∑ t ∈ (threads c x.machine).filter (fun t => (x.place t).produces), (job t).rounds =
    ∑ t ∈ (threads c x.machine).filter (fun t => ¬ (x.place t).produces), (job t).rounds

/-- A semaphore with a count has no waiters. -/
def Fed (s : State) : Prop := ∀ i, s.value i > 0 → s.waitHead (.semaphore i) = 0

theorem semThread_bounded (job : Nat → Job) : Bounded (semThread job) (fun t => SemPlace.cost (job t).rounds) := by
  intro t p g
  cases p with
  | produceTest i | consumeTest i =>
      simp only [semThread, Statement.Within]
      split
      · simp only [SemPlace.cost]
        omega
      · simp only [SemPlace.cost]
        omega
  | _ =>
      simp only [semThread, Statement.Within, SemPlace.cost, Op.after]
      omega

section Fed

variable {c : Config} {s s' : State} {np nt : Nat} {l : Object → List Nat}

theorem Fed.congr (h : Fed s) (hvalue : s'.value = s.value)
    (hhead : ∀ i, s.value i > 0 → s'.waitHead (.semaphore i) = s.waitHead (.semaphore i)) : Fed s' := by
  intro i hi
  rw [hvalue] at hi
  rw [hhead i hi]
  exact h i hi

/-- Only a thread that finds no count waits. -/
theorem Fed.performed (h : Fed s) {op : Op} (hp : Performed s op s') : Fed s' := by
  have hsuspend : ∀ q, (∀ i, q = .semaphore i → ¬ s.value i > 0) → Fed (suspend s q (running s)) := by
    intro q hq
    have hframe := suspend_frame s q (running s)
    have hvalue : (suspend s q (running s)).value = s.value := by rw [hframe]
    refine h.congr hvalue fun i hi => ?_
    have hne : (Object.semaphore i) ≠ q := fun he => hq i he.symm hi
    have hhead : (suspend s q (running s)).waitHead = (enqueue s q (running s)).waitHead := rfl
    rw [hhead, (enqueue_links s q (running s)).2.1]
    split
    · exact Function.update_of_ne hne ..
    · rfl
  have hwake : ∀ q, (∀ i, q = .semaphore i → ¬ s.value i > 0) →
      Fed (unblockThread (dequeue s q) (s.waitHead q)) := by
    intro q hq
    have hframe := wakeFirst_frame s q (s.waitHead q)
    have hvalue : (unblockThread (dequeue s q) (s.waitHead q)).value = s.value := by rw [hframe]
    refine h.congr hvalue fun i hi => ?_
    have hne : (Object.semaphore i) ≠ q := fun he => hq i he.symm hi
    have hhead : (unblockThread (dequeue s q) (s.waitHead q)).waitHead = (dequeue s q).waitHead := rfl
    rw [hhead, (dequeue_links s q).2.1]
    exact Function.update_of_ne hne ..
  have hset : ∀ i v, s.waitHead (.semaphore i) = 0 → Fed (setValue s i v) := by
    intro i v hnone j hj
    by_cases hji : j = i
    · rw [hji]
      exact hnone
    · have hvalue : (setValue s i v).value j = s.value j := Function.update_of_ne hji ..
      rw [hvalue] at hj
      exact h j hj
  cases hp with
  | lockNobody | relock | unlockFree | unlockOther | waitNobody => exact h
  | acquire | release => exact h
  | lockBlock => exact hsuspend _ nofun
  | handOver => exact hwake _ nofun
  | @waitBlock i somebody none =>
      apply hsuspend
      intro j hj
      cases hj
      exact none
  | @pass i waiter =>
      apply hwake
      intro j hj hvalue
      cases hj
      exact waiter (h i hvalue)
  | @take i somebody available => exact hset i _ (h i available)
  | bank empty => exact hset _ _ empty

theorem Fed.quiet (h : Fed s) (hquiet : Quiet s s') : Fed s' := by
  rw [hquiet.frame]
  exact h

theorem Initial.fed {count : Nat → Int} (h : Initial c count s) : Fed s := by
  intro i _
  rw [h.waitHead]

end Fed

/-- The state of the demo in a run. -/
structure Demo (c : Config) (job : Nat → Job) (np nt : Nat) (l : Object → List Nat) (x : BufferClient) : Prop where
  queues : Queues c x.machine np nt l
  ledger : Ledger c l x
  items : Items c job nt x
  standing : Standing x.machine
  fed : Fed x.machine
  ended : ∀ t, Slot c t → threadState x.machine t = .terminated → (x.place t).finished = true

section Demo

variable {c : Config} {job : Nat → Job} {np nt : Nat} {l : Object → List Nat} {x y : BufferClient} {k : Tick}

theorem fed_ticked (h : Fed x.machine) (hq : Queues c x.machine np nt l) (step : Ticked c (semThread job) x y) :
    Fed y.machine := by
  cases step with
  | scheduled step quiet =>
      obtain ⟨_, _, _, _, hquiet⟩ := hq.quiet step quiet
      exact h.quiet hquiet
  | yielded executing statement step =>
      obtain ⟨_, _, _, _, hquiet⟩ := hq.quiet step nofun
      exact h.quiet hquiet
  | called executing statement step => exact h.performed step
  | worked => exact h

theorem semThread_exit (t : Nat) (p : SemPlace) (g : Buffer) (h : semThread job t p g = .exit) : p.finished = true := by
  cases p <;> first | rfl | cases h

theorem Demo.step (h : Demo c job np nt l x) (step : ClientStep c (semThread job) x k y) :
    ∃ np' nt' l', Demo c job np' nt' l' y := by
  obtain ⟨np', nt', l', hq, hledger, hitems⟩ := ledger_ticked h.ledger h.items h.queues (ticked step)
  refine ⟨np', nt', l', hq, hledger, hitems, ?_, ?_, ?_⟩
  · exact (remaining_step (semThread_bounded job) h.queues h.standing step).1
  · exact fed_ticked h.fed h.queues (ticked step)
  · intro t ht
    have hfinal : ∀ t p g, semThread job t p g = .exit → p.finished = true := semThread_exit
    exact ended_step hfinal (semThread_bounded job) h.queues h.standing step (h.ended t ht)

theorem BufferStart.demo (h : BufferStart c x) : Demo c job 3 0 (fun _ => []) x := by
  obtain ⟨count, hinit, _⟩ := h.machine
  refine ⟨hinit.queues, h.ledger, h.items, (Initial.sound (x := x) hinit).2, hinit.fed, ?_⟩
  intro t ht hend
  have hunused : threadState x.machine t = .unused := hinit.queues.coherent.tables.freeThread t ht.1 ht.2
  rw [hunused] at hend
  cases hend

/-- Where a thread stands that cannot run. -/
inductive Halted (S : Finset Nat) (l : Object → List Nat) (t : Nat) (p : SemPlace) : Prop
  | unborn (absent : t ∉ S) (start : p = .produceTest 0 ∨ p = .consumeTest 0) (out : ∀ i, t ∉ l (.semaphore i))
  | finished (present : t ∈ S) (done : p.finished = true) (out : ∀ i, t ∉ l (.semaphore i))
  | waits (present : t ∈ S) (i : Nat) (mem : t ∈ l (.semaphore i)) (awaits : p.awaits i)

theorem Demo.halted (h : Demo c job np nt l x)
    (hstuck : ∀ t ∈ threads c x.machine, threadState x.machine t = .blocked ∨ threadState x.machine t = .terminated)
    {t : Nat} (ht : Slot c t) : Halted (threads c x.machine) l t (x.place t) := by
  by_cases hmem : t ∈ threads c x.machine
  · rcases hstuck t hmem with hblocked | hend
    · obtain ⟨q, hq⟩ := (h.queues.blocked t ht).mp hblocked
      obtain ⟨i, rfl, hawaits⟩ := h.ledger.waiting q t hq
      exact .waits hmem i hq hawaits
    · refine .finished hmem (h.ended t ht hend) fun i hi => ?_
      rw [h.queues.member_blocked hi] at hend
      cases hend
  · refine .unborn hmem (h.items.outside h.queues hmem) fun i hi => ?_
    have hblocked := h.queues.member_blocked hi
    apply hmem
    refine Finset.mem_filter.mpr ⟨Finset.mem_Icc.mpr ht, ?_⟩
    rw [hblocked]
    exact nofun

theorem SemPlace.awaits.unique {i j : Nat} {p : SemPlace} (hi : p.awaits i) (hj : p.awaits j) : i = j := by
  cases p <;> first | exact hi.elim | exact hi.trans hj.symm

theorem SemPlace.finished.weight {p : SemPlace} (h : p.finished = true) (i : Nat) : weight i p = 0 := by
  cases p with
  | produceExit | consumeExit =>
      simp only [Sync.weight, SemPlace.vacant, SemPlace.filled, SemPlace.guarded, Bool.toNat_false, ite_self]
  | _ => cases h

/-- A thread that waits for the buffer holds a token of another semaphore too; any other
holds what it waits for and nothing else. -/
theorem SemPlace.awaits.weight_eq {i j : Nat} {p : SemPlace} (h : p.awaits i) (hj : j = bufferMutex ∨ i ≠ bufferMutex) :
    Sync.weight j p = if j = i then 1 else 0 := by
  have hmutex : i = bufferMutex → j = i := fun hi => hj.elim (fun hj => hj.trans hi.symm) (fun hne => (hne hi).elim)
  cases p with
  | produceEnter =>
      obtain rfl : i = emptySem := h
      simp only [Sync.weight, SemPlace.vacant, SemPlace.filled, SemPlace.guarded, Bool.toNat_false, ite_self]
  | consumeEnter =>
      obtain rfl : i = fullSem := h
      have hne : j = emptySem → j ≠ fullSem := by
        rintro rfl
        decide
      simp only [Sync.weight, SemPlace.vacant, SemPlace.filled, SemPlace.guarded, Bool.toNat_false, ite_self]
      split
      · rename_i hj
        rw [if_neg (hne hj)]
      · rfl
  | store | decrement =>
      have hi : i = bufferMutex := h
      rw [if_pos (hmutex hi), hmutex hi, hi]
      rfl
  | _ => exact h.elim

/-- Of a semaphore whose tokens only waiters hold. -/
theorem Demo.census_waiting (h : Demo c job np nt l x) {i : Nat}
    (hweight : ∀ t, Slot c t → weight i (x.place t) = if t ∈ l (.semaphore i) then 1 else 0) :
    census c (weight i) x.place = (l (.semaphore i)).length := by
  have hsum : census c (weight i) x.place = ∑ t ∈ Finset.Icc 1 c.maxThreads, if t ∈ l (.semaphore i) then 1 else 0 :=
    Finset.sum_congr rfl fun t ht => hweight t (Finset.mem_Icc.mp ht)
  have hset : (Finset.Icc 1 c.maxThreads).filter (fun t => t ∈ l (.semaphore i)) = (l (.semaphore i)).toFinset := by
    ext t
    rw [Finset.mem_filter, List.mem_toFinset]
    exact ⟨And.right, fun hmem => ⟨Finset.mem_Icc.mpr (h.queues.slot _ t hmem), hmem⟩⟩
  rw [hsum, Finset.sum_boole, hset, List.toFinset_card_of_nodup (h.queues.chains.nodup _)]
  rfl

theorem Halted.weight_eq {S : Finset Nat} {t : Nat} {p : SemPlace} (h : Halted S l t p) {i : Nat}
    (halone : ∀ j, t ∈ l (.semaphore j) → i = bufferMutex ∨ j ≠ bufferMutex)
    (hout : ∀ j, t ∈ l (.semaphore j) → p.awaits j) : weight i p = if t ∈ l (.semaphore i) then 1 else 0 := by
  cases h with
  | unborn absent start out => rw [if_neg (out i), (start_counts start 0).1]
  | finished present done out => rw [if_neg (out i), SemPlace.finished.weight done]
  | waits present j mem awaits =>
      rw [awaits.weight_eq (halone j mem)]
      have hiff : i = j ↔ t ∈ l (.semaphore i) := ⟨fun hij => hij ▸ mem, fun hi => (hout i hi).unique awaits⟩
      simp only [hiff]

/-- Nobody waits for the buffer: its token is there. -/
theorem Demo.mutex_free (h : Demo c job np nt l x)
    (hstuck : ∀ t ∈ threads c x.machine, threadState x.machine t = .blocked ∨ threadState x.machine t = .terminated) :
    l (.semaphore bufferMutex) = [] := by
  have hcensus := h.census_waiting (i := bufferMutex) fun t ht => (h.halted hstuck ht).weight_eq
    (fun _ _ => Or.inl rfl) fun j hj => by
      obtain ⟨j', hj', hawaits⟩ := h.ledger.waiting _ t hj
      cases hj'
      exact hawaits
  have hbalance := h.ledger.balance bufferMutex (by decide)
  have hshare : share bufferMutex x.data.bufferCount = 1 := rfl
  apply (h.queues.chains.head_eq_null _).mp
  apply h.fed
  omega

/-- So every waiter holds the one token that it waits for, and the counts are those of
the buffer. -/
theorem Demo.stuck_value (h : Demo c job np nt l x)
    (hstuck : ∀ t ∈ threads c x.machine, threadState x.machine t = .blocked ∨ threadState x.machine t = .terminated)
    {i : Nat} (hi : i < 3) : x.machine.value i = share i x.data.bufferCount := by
  have hcensus := h.census_waiting (i := i) fun t ht => (h.halted hstuck ht).weight_eq
    (fun j hj => Or.inr fun hmutex => by
      rw [hmutex, h.mutex_free hstuck] at hj
      cases hj)
    fun j hj => by
      obtain ⟨j', hj', hawaits⟩ := h.ledger.waiting _ t hj
      cases hj'
      exact hawaits
  have hbalance := h.ledger.balance i hi
  omega

/-- The rounds of a thread, if it is created and of the kind. -/
def due (S : Finset Nat) (job : Nat → Job) (kind : SemPlace → Bool) (t : Nat) (p : SemPlace) : Nat :=
  if t ∈ S ∧ kind p = true then (job t).rounds else 0

theorem sum_due (kind : SemPlace → Bool) :
    ∑ t ∈ Finset.Icc 1 c.maxThreads, due (threads c x.machine) job kind t (x.place t) =
      ∑ t ∈ (threads c x.machine).filter (fun t => kind (x.place t) = true), (job t).rounds := by
  have hset : (Finset.Icc 1 c.maxThreads).filter (fun t => t ∈ threads c x.machine ∧ kind (x.place t) = true) =
      (threads c x.machine).filter (fun t => kind (x.place t) = true) := by
    ext t
    simp only [Finset.mem_filter]
    exact ⟨And.right, fun h => ⟨(Finset.mem_filter.mp h.1).1, h⟩⟩
  rw [← hset, Finset.sum_filter]
  rfl

def SemPlace.consumes (p : SemPlace) : Bool := !p.produces

theorem Matched.sums (h : Matched c job x) :
    ∑ t ∈ Finset.Icc 1 c.maxThreads, due (threads c x.machine) job SemPlace.produces t (x.place t) =
      ∑ t ∈ Finset.Icc 1 c.maxThreads, due (threads c x.machine) job SemPlace.consumes t (x.place t) := by
  rw [sum_due, sum_due]
  refine h.trans (Finset.sum_congr ?_ fun _ _ => rfl)
  apply Finset.filter_congr
  intro t _
  simp only [SemPlace.consumes, Bool.not_eq_true, Bool.not_eq_true']

theorem counted_le {rounds : Nat} {p : SemPlace} (h : p.counted rounds) :
    (p.produces = true → p.stores rounds ≤ rounds ∧ p.loads rounds = 0) ∧
      (p.produces = false → p.stores rounds = 0 ∧ p.loads rounds ≤ rounds) := by
  cases p with
  | produceTest | waitEmpty | produceEnter | store | increment | printInserted | produceLeave | signalFull =>
      refine ⟨fun _ => ⟨?_, rfl⟩, fun hkind => absurd hkind.symm Bool.false_ne_true⟩
      simp only [SemPlace.counted] at h
      simp only [SemPlace.stores]
      omega
  | produceYield =>
      refine ⟨fun _ => ⟨?_, rfl⟩, fun hkind => absurd hkind.symm Bool.false_ne_true⟩
      simp only [SemPlace.counted] at h
      simp only [SemPlace.stores]
      omega
  | produceDone | produceExit =>
      exact ⟨fun _ => ⟨Nat.le_refl _, rfl⟩, fun hkind => absurd hkind.symm Bool.false_ne_true⟩
  | consumeDone | consumeExit =>
      exact ⟨fun hkind => absurd hkind Bool.false_ne_true, fun _ => ⟨rfl, Nat.le_refl _⟩⟩
  | _ =>
      refine ⟨fun hkind => absurd hkind Bool.false_ne_true, fun _ => ⟨rfl, ?_⟩⟩
      simp only [SemPlace.counted] at h
      simp only [SemPlace.loads]
      omega

theorem Demo.counts_le (h : Demo c job np nt l x) (t : Nat) :
    (x.place t).stores (job t).rounds ≤ due (threads c x.machine) job SemPlace.produces t (x.place t) ∧
      (x.place t).loads (job t).rounds ≤ due (threads c x.machine) job SemPlace.consumes t (x.place t) := by
  by_cases hmem : t ∈ threads c x.machine
  · obtain ⟨hproduces, hconsumes⟩ := counted_le (h.items.counted t)
    unfold due SemPlace.consumes
    cases hkind : (x.place t).produces with
    | true =>
        obtain ⟨hstores, hloads⟩ := hproduces hkind
        rw [if_pos ⟨hmem, rfl⟩, hloads]
        exact ⟨hstores, Nat.zero_le _⟩
    | false =>
        obtain ⟨hstores, hloads⟩ := hconsumes hkind
        rw [if_neg (fun hboth => nomatch hboth.2), if_pos ⟨hmem, rfl⟩, hstores]
        exact ⟨Nat.le_refl 0, hloads⟩
  · have hstart := start_counts (h.items.outside h.queues hmem) (job t).rounds
    rw [hstart.2.2.2.1, hstart.2.2.2.2]
    exact ⟨Nat.zero_le _, Nat.zero_le _⟩

variable (job) in
/-- When nobody waits for an item, the consumers have all they were to take; when nobody
waits for a slot, the producers have made all that they were to make. -/
theorem Halted.all {S : Finset Nat} {t : Nat} {p : SemPlace} (h : Halted S l t p)
    (hmutex : t ∉ l (.semaphore bufferMutex)) :
    (t ∉ l (.semaphore fullSem) → p.loads (job t).rounds = due S job SemPlace.consumes t p) ∧
      (t ∉ l (.semaphore emptySem) → p.stores (job t).rounds = due S job SemPlace.produces t p) := by
  cases h with
  | unborn absent start out =>
      have hstart := start_counts start (job t).rounds
      rw [hstart.2.2.2.1, hstart.2.2.2.2, due, due, if_neg (fun h => absent h.1), if_neg (fun h => absent h.1)]
      exact ⟨fun _ => rfl, fun _ => rfl⟩
  | finished present done out =>
      cases p with
      | produceExit => exact ⟨fun _ => (if_neg nofun).symm, fun _ => (if_pos ⟨present, rfl⟩).symm⟩
      | consumeExit => exact ⟨fun _ => (if_pos ⟨present, rfl⟩).symm, fun _ => (if_neg nofun).symm⟩
      | _ => cases done
  | waits present i mem awaits =>
      cases p with
      | produceEnter i' =>
          obtain rfl : i = emptySem := awaits
          exact ⟨fun _ => (if_neg nofun).symm, fun hout => (hout mem).elim⟩
      | consumeEnter i' =>
          obtain rfl : i = fullSem := awaits
          exact ⟨fun hout => (hout mem).elim, fun _ => (if_neg nofun).symm⟩
      | store | decrement =>
          obtain rfl : i = bufferMutex := awaits
          exact (hmutex mem).elim
      | _ => exact awaits.elim

theorem Demo.cards (h : Demo c job np nt l x)
    (hstuck : ∀ t ∈ threads c x.machine, threadState x.machine t = .blocked ∨ threadState x.machine t = .terminated) :
    ∑ t ∈ Finset.Icc 1 c.maxThreads, (x.place t).stores (job t).rounds =
      (∑ t ∈ Finset.Icc 1 c.maxThreads, (x.place t).loads (job t).rounds) + x.data.bufferCount.toNat := by
  have hpending : census c SemPlace.pending x.place = 0 := by
    refine Finset.sum_eq_zero fun t ht => ?_
    cases h.halted hstuck (Finset.mem_Icc.mp ht) with
    | unborn absent start => exact (start_counts start 0).2.1
    | finished present done =>
        generalize x.place t = p at done
        cases p <;> first | rfl | cases done
    | waits present i mem awaits => exact awaits.not_pending
  have hstored := congrArg Multiset.card h.items.stored
  rw [hpending, Nat.add_zero, Multiset.card_add, h.items.extracted, h.items.inserted, Multiset.card_sum, stock,
    Multiset.card_map, Multiset.card_range] at hstored
  rw [← hstored]
  refine Finset.sum_congr rfl fun t _ => ?_
  rw [made, Multiset.card_map, Multiset.card_range]

/-- A thread that waits for an item has rounds left. -/
theorem Demo.loads_lt (h : Demo c job np nt l x) {t : Nat} (ht : t ∈ threads c x.machine) {i : Nat}
    (hmem : t ∈ l (.semaphore i)) (hempty : i ≠ emptySem) (hmutex : i ≠ bufferMutex) :
    (x.place t).loads (job t).rounds < due (threads c x.machine) job SemPlace.consumes t (x.place t) := by
  obtain ⟨j, hj, hawaits⟩ := h.ledger.waiting _ t hmem
  cases hj
  have hcounted := h.items.counted t
  generalize x.place t = p at hawaits hcounted
  cases p with
  | consumeEnter i' =>
      rw [due, if_pos ⟨ht, rfl⟩]
      exact hcounted
  | produceEnter => exact (hempty hawaits).elim
  | store | decrement => exact (hmutex hawaits).elim
  | _ => exact hawaits.elim

/-- The threads are never all blocked. -/
theorem Demo.not_stuck (h : Demo c job np nt l x) (hmatched : Matched c job x)
    (hlive : ∃ t ∈ threads c x.machine, threadState x.machine t ≠ .terminated) :
    ∃ t ∈ threads c x.machine, Runnable x.machine.kernel (.thread t) := by
  by_contra hnone
  have hstuck : ∀ t ∈ threads c x.machine,
      threadState x.machine t = .blocked ∨ threadState x.machine t = .terminated := by
    intro t ht
    exact threadState_of_idle ht fun hrunnable => hnone ⟨t, ht, hrunnable⟩
  obtain ⟨t, ht, hlive⟩ := hlive
  have hslot : Slot c t := Finset.mem_Icc.mp (Finset.mem_filter.mp ht).1
  have hcards := h.cards hstuck
  have hsums := hmatched.sums
  have hbounds := h.ledger.bounds h.queues
  have hsize : bufferSize = 4 := rfl
  have hmutex := h.mutex_free hstuck
  have hempty : x.machine.value emptySem = bufferSize - x.data.bufferCount := h.stuck_value hstuck (by decide)
  have hfull : x.machine.value fullSem = x.data.bufferCount := h.stuck_value hstuck (by decide)
  have hnil : ∀ i, x.machine.value i > 0 → l (.semaphore i) = [] :=
    fun i hi => (h.queues.chains.head_eq_null _).mp (h.fed i hi)
  have hall := fun u (hu : Slot c u) => (h.halted hstuck hu).all job (by rw [hmutex]; exact List.not_mem_nil)
  by_cases hcount : x.data.bufferCount = 0
  · -- the buffer is empty, so the waiter is a consumer and has rounds left
    have hnobody := hnil emptySem (by omega)
    have hstores : ∑ u ∈ Finset.Icc 1 c.maxThreads, (x.place u).stores (job u).rounds =
        ∑ u ∈ Finset.Icc 1 c.maxThreads, due (threads c x.machine) job SemPlace.produces u (x.place u) := by
      refine Finset.sum_congr rfl fun u hu => ?_
      apply (hall u (Finset.mem_Icc.mp hu)).2
      rw [hnobody]
      exact List.not_mem_nil
    have hless : ∑ u ∈ Finset.Icc 1 c.maxThreads, (x.place u).loads (job u).rounds <
        ∑ u ∈ Finset.Icc 1 c.maxThreads, due (threads c x.machine) job SemPlace.consumes u (x.place u) := by
      apply Finset.sum_lt_sum
      · exact fun u _ => (h.counts_le u).2
      · obtain ⟨q, hq⟩ := (h.queues.blocked t hslot).mp ((hstuck t ht).resolve_right hlive)
        obtain ⟨i, rfl, _⟩ := h.ledger.waiting q t hq
        refine ⟨t, Finset.mem_Icc.mpr hslot, h.loads_lt ht hq ?_ ?_⟩
        · rintro rfl
          rw [hnobody] at hq
          cases hq
        · rintro rfl
          rw [hmutex] at hq
          cases hq
    omega
  · -- there are items, so the consumers have finished
    have hnobody := hnil fullSem (by omega)
    have hloads : ∑ u ∈ Finset.Icc 1 c.maxThreads, (x.place u).loads (job u).rounds =
        ∑ u ∈ Finset.Icc 1 c.maxThreads, due (threads c x.machine) job SemPlace.consumes u (x.place u) := by
      refine Finset.sum_congr rfl fun u hu => ?_
      apply (hall u (Finset.mem_Icc.mp hu)).1
      rw [hnobody]
      exact List.not_mem_nil
    have hle : ∑ u ∈ Finset.Icc 1 c.maxThreads, (x.place u).stores (job u).rounds ≤
        ∑ u ∈ Finset.Icc 1 c.maxThreads, due (threads c x.machine) job SemPlace.produces u (x.place u) :=
      Finset.sum_le_sum fun u _ => (h.counts_le u).1
    omega

/-- A thread stays a producer or a consumer. -/
theorem produces_ticked (step : Ticked c (semThread job) x y) (t : Nat) :
    (y.place t).produces = (x.place t).produces := by
  have hadvance : ∀ p : SemPlace, p.produces = (x.place (running x.machine)).produces →
      (advance x p t).produces = (x.place t).produces := by
    intro p hp
    by_cases ht : t = running x.machine
    · rw [ht, advance_self]
      exact hp
    · rw [advance_of_ne p ht]
  cases step with
  | scheduled => rfl
  | yielded executing statement step =>
      apply hadvance
      generalize x.place (running x.machine) = p at statement
      cases p <;> cases statement <;> rfl
  | called executing statement step =>
      apply hadvance
      generalize x.place (running x.machine) = p at statement
      cases p <;> cases statement <;> rfl
  | worked executing statement =>
      apply hadvance
      generalize x.place (running x.machine) = p at statement
      cases p <;> cases statement <;> first | rfl | (split <;> rfl)

theorem Matched.step (h : Matched c job x) (hdemo : Demo c job np nt l x) (hk : ∀ fn arg, k ≠ .create fn arg)
    (step : ClientStep c (semThread job) x k y) : Matched c job y := by
  have hthreads := threads_step (semThread_bounded job) hdemo.queues hdemo.standing hk step
  unfold Matched
  simp only [produces_ticked (ticked step), hthreads]
  exact h

end Demo

theorem run_demo {c : Config} {job : Nat → Job} {x y : BufferClient} (start : BufferStart c x) {ticks : List Tick}
    (run : Run (ClientStep c (semThread job)) x ticks y) : ∃ np nt l, Demo c job np nt l y := by
  refine run.invariant (I := fun x => ∃ np nt l, Demo c job np nt l x) ?_ ⟨3, 0, fun _ => [], start.demo⟩
  intro x k y hx step
  obtain ⟨np, nt, l, hx⟩ := hx
  exact hx.step step

/-- What the demo comes to. -/
structure BufferEnds (c : Config) (job : Nat → Job) (x : BufferClient) : Prop where
  runnable : (∃ t ∈ threads c x.machine, threadState x.machine t ≠ .terminated) →
    ∃ t ∈ threads c x.machine, Runnable x.machine.kernel (.thread t)
  completed : ∃ ticks y, Run (ClientStep c (semThread job)) x ticks y ∧
    (∀ t ∈ threads c y.machine, threadState y.machine t = .terminated) ∧ y.data.bufferCount = 0 ∧
    y.data.extracted = allItems job ((threads c y.machine).filter (fun t => (y.place t).produces))

/-- From every state that the demo can reach with calls in one piece, it can go on to its end,
with every item consumed: the threads are never all blocked. -/
theorem bounded_buffer_ends {c : Config} {job : Nat → Job} {x y : BufferClient} (start : BufferStart c x)
    {ticks : List Tick} (run : Run (ClientStep c (semThread job)) x ticks y) (hmatched : Matched c job y) :
    BufferEnds c job y := by
  obtain ⟨np, nt, l, hdemo⟩ := run_demo start run
  refine ⟨hdemo.not_stuck hmatched, ?_⟩
  let I : BufferClient → Prop := fun x => (∃ np nt l, Demo c job np nt l x) ∧ Matched c job x
  have hsound : ∀ x, I x → Sound c x := by
    intro x hx
    obtain ⟨⟨np, nt, l, hx⟩, _⟩ := hx
    exact ⟨⟨np, nt, l, hx.queues⟩, hx.standing⟩
  have hstep : ∀ x k y, I x → (∀ fn arg, k ≠ .create fn arg) → ClientStep c (semThread job) x k y → I y := by
    intro x k y hx hk step
    obtain ⟨⟨np, nt, l, hx⟩, hmatched⟩ := hx
    exact ⟨hx.step step, hmatched.step hx hk step⟩
  have hlive : ∀ x, I x → (∃ t ∈ threads c x.machine, threadState x.machine t ≠ .terminated) →
      ∃ t ∈ threads c x.machine, Runnable x.machine.kernel (.thread t) := by
    intro x hx hlive
    obtain ⟨⟨np, nt, l, hx⟩, hmatched⟩ := hx
    exact hx.not_stuck hmatched hlive
  obtain ⟨later, z, run', ⟨⟨np', nt', l', hz⟩, hmatched'⟩, hall⟩ :=
    completes (semThread_bounded job) hsound hstep hlive ⟨⟨np, nt, l, hdemo⟩, hmatched⟩
  refine ⟨later, z, run', hall, hz.items.finished hz.ledger hz.queues ?_ hmatched'⟩
  intro t ht
  exact hz.ended t (Finset.mem_Icc.mp (Finset.mem_filter.mp ht).1) (hall t ht)

instance (c : Config) (job : Nat → Job) (x : BufferClient) : Decidable (Matched c job x) :=
  inferInstanceAs (Decidable (_ = _))

/-- The consumer of the sample has been created and waits; the producer has not run. -/
def consumerWaits : List Tick := [.irq 0, .create 0x10400 0, .create 0x10400 0, .irq 0] ++ stmts 3

theorem bounded_buffer_ends_sample : ∃ y,
    Run (ClientStep sampleConfig (semThread (fun _ => ⟨1, 1⟩))) semaphoreDemo consumerWaits y ∧
      BufferEnds sampleConfig (fun _ => ⟨1, 1⟩) y := by
  have hsome : (execute (clientStep sampleConfig (semThread (fun _ => ⟨1, 1⟩))) semaphoreDemo consumerWaits).map
      (fun y => decide (Matched sampleConfig (fun _ => ⟨1, 1⟩) y)) = some true := by decide +kernel
  obtain ⟨y, hy, hmatched⟩ := Option.map_eq_some_iff.mp hsome
  have run : Run (ClientStep sampleConfig (semThread (fun _ => ⟨1, 1⟩))) semaphoreDemo consumerWaits y :=
    run_of_execute hy
  exact ⟨y, run, bounded_buffer_ends semaphoreDemo_start run (of_decide_eq_true hmatched)⟩

/-- In every run every thread executes at most thirteen statements for each of its rounds,
and three more, a whole call counted as one. -/
theorem bounded_buffer_statements {c : Config} {job : Nat → Job} {x : BufferClient} (start : BufferStart c x)
    {ticks : List Tick} {b : Counted Buffer SemPlace}
    (run : Run (CountedStep c (semThread job)) ⟨x, fun _ => 0⟩ ticks b) (t : Nat) :
    b.executed t ≤ 13 * (job t).rounds + 3 := by
  have hdemo : Demo c job 3 0 (fun _ => []) x := start.demo
  have hle := run_executed_le (semThread_bounded job) ⟨⟨3, 0, _, hdemo.queues⟩, hdemo.standing⟩ run t
  have hinit := remaining_le (fun t => SemPlace.cost (job t).rounds) (x := x) t
  obtain ⟨count, hmachine, _⟩ := start.machine
  rw [hmachine.pc] at hinit
  have hcost : SemPlace.cost (job t).rounds (x.place t) = 13 * (job t).rounds + 3 := by
    rcases start.place t with hplace | hplace
    · rw [hplace]
      rfl
    · rw [hplace]
      rfl
  simp only [Pc.left] at hinit
  dsimp only at hle
  omega

end SengKernel.Sync
