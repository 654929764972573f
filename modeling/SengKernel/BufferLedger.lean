import SengKernel.SemaphoreDemo

/- The tokens of the three semaphores of the demo. Every token is in the count of its
   semaphore, with a thread, or stands for an item or a slot of the buffer. -/
namespace SengKernel.Sync
open Sched MachineWord Transition LinkedChain

/-- Between the increment of the buffer and `sem_signal(&full_sem)`, or between
`sem_wait(&full_sem)` and the decrement. -/
def SemPlace.filled : SemPlace → Nat
  | .printInserted _ | .produceLeave _ | .signalFull _ | .consumeEnter _ | .decrement _ => 1
  | _ => 0

/-- Between `sem_wait(&empty_sem)` and the increment, or between the decrement and
`sem_signal(&empty_sem)`. -/
def SemPlace.vacant : SemPlace → Nat
  | .produceEnter _ | .store _ | .increment _ | .load _ | .printExtracted _ _ | .consumeLeave _ | .signalEmpty _ => 1
  | _ => 0

/-- The buffer holds one item more than its counter says. -/
def SemPlace.pending : SemPlace → Nat
  | .increment _ | .load _ => 1
  | _ => 0

/-- The tokens of semaphore `i` that a thread at a place holds, or waits for. -/
def weight (i : Nat) (p : SemPlace) : Nat :=
  if i = emptySem then p.vacant else if i = fullSem then p.filled else if i = bufferMutex then p.guarded.toNat else 0

/-- The tokens that semaphore `i` and its users share, for a count of the buffer. -/
def share (i : Nat) (count : Int) : Int :=
  if i = emptySem then bufferSize - count else if i = fullSem then count else 1

/-- The places after a wait. -/
def SemPlace.awaits (i : Nat) : SemPlace → Prop
  | .produceEnter _ => i = emptySem
  | .consumeEnter _ => i = fullSem
  | .store _ | .decrement _ => i = bufferMutex
  | _ => False

/-- A sum over all slots. -/
def census (c : Config) (f : SemPlace → Nat) (place : Nat → SemPlace) : Nat :=
  ∑ t ∈ Finset.Icc 1 c.maxThreads, f (place t)

/-- The invariant of the semaphores, for the queues `l`. -/
structure Ledger (c : Config) (l : Object → List Nat) (x : BufferClient) : Prop where
  balance : ∀ i, i < 3 → x.machine.value i + census c (weight i) x.place =
    share i x.data.bufferCount + (l (.semaphore i)).length
  nonneg : ∀ i, i < 3 → 0 ≤ x.machine.value i
  waiting : ∀ q t, t ∈ l q → ∃ i, q = .semaphore i ∧ (x.place t).awaits i

theorem SemPlace.awaits.lt {i : Nat} {p : SemPlace} (h : p.awaits i) : i < 3 := by
  cases p <;> first | exact h.elim | (cases h; decide)

/-- A thread that waits for a token is counted with it. -/
theorem SemPlace.awaits.weight {i : Nat} {p : SemPlace} (h : p.awaits i) : weight i p = 1 := by
  cases p <;> first | exact h.elim | (cases h; rfl)

theorem SemPlace.awaits.not_pending {i : Nat} {p : SemPlace} (h : p.awaits i) : p.pending = 0 := by
  cases p <;> first | exact h.elim | rfl

theorem SemPlace.pending_le (p : SemPlace) : p.pending ≤ weight bufferMutex p := by
  cases p <;> exact Nat.le_of_ble_eq_true rfl

section Ledger

variable {c : Config} {np nt : Nat} {l : Object → List Nat} {x : BufferClient} {s : State} {p : SemPlace} {g : Buffer}

theorem census_advance (f : SemPlace → Nat) (hr : running x.machine ∈ Finset.Icc 1 c.maxThreads) (p : SemPlace) :
    census c f (advance x p) + f (x.place (running x.machine)) = census c f x.place + f p :=
  sum_advance hr (fun _ => f) p

theorem census_same {f : SemPlace → Nat} (hr : running x.machine ∈ Finset.Icc 1 c.maxThreads)
    (hf : f p = f (x.place (running x.machine))) : census c f (advance x p) = census c f x.place := by
  have := census_advance f hr p
  omega

/-- The waiters of a semaphore are counted, and so is any other thread that holds one
of its tokens. -/
theorem Ledger.length_le (h : Ledger c l x) (hq : Queues c x.machine np nt l) (i : Nat) :
    (l (.semaphore i)).length ≤ census c (weight i) x.place := by
  refine length_le_sum (hq.chains.nodup _) (fun t ht => Finset.mem_Icc.mpr (hq.slot _ t ht)) (fun t ht => ?_)
  obtain ⟨j, hj, hawaits⟩ := h.waiting _ t ht
  cases hj
  exact hawaits.weight.ge

theorem Ledger.length_lt (h : Ledger c l x) (hq : Queues c x.machine np nt l) {i t : Nat} (ht : Slot c t)
    (hout : t ∉ l (.semaphore i)) (hweight : 1 ≤ weight i (x.place t)) :
    (l (.semaphore i)).length + 1 ≤ census c (weight i) x.place := by
  refine length_le_sum (l := t :: l (.semaphore i)) (List.nodup_cons.mpr ⟨hout, hq.chains.nodup _⟩) (fun u hu => ?_)
    (fun u hu => ?_)
  · rcases List.mem_cons.mp hu with rfl | hu
    · exact Finset.mem_Icc.mpr ht
    · exact Finset.mem_Icc.mpr (hq.slot _ u hu)
  · rcases List.mem_cons.mp hu with rfl | hu
    · exact hweight
    · obtain ⟨j, hj, hawaits⟩ := h.waiting _ u hu
      cases hj
      exact hawaits.weight.ge

theorem Ledger.bounds (h : Ledger c l x) (hq : Queues c x.machine np nt l) :
    0 ≤ x.data.bufferCount ∧ x.data.bufferCount ≤ bufferSize := by
  have hempty := h.balance emptySem (by decide)
  have hfull := h.balance fullSem (by decide)
  have := h.length_le hq emptySem
  have := h.length_le hq fullSem
  have := h.nonneg emptySem (by decide)
  have := h.nonneg fullSem (by decide)
  have hs0 : share emptySem x.data.bufferCount = bufferSize - x.data.bufferCount := rfl
  have hs1 : share fullSem x.data.bufferCount = x.data.bufferCount := rfl
  omega

theorem share_le (i : Nat) {n : Int} (hlow : 0 ≤ n) (hhigh : n ≤ bufferSize) : share i n ≤ bufferSize := by
  have : bufferSize = 4 := rfl
  unfold share
  split
  · omega
  · split <;> omega

theorem Ledger.value_le (h : Ledger c l x) (hq : Queues c x.machine np nt l) {i : Nat} (hi : i < 3) :
    x.machine.value i ≤ bufferSize := by
  have := h.balance i hi
  have := h.length_le hq i
  have := share_le i (h.bounds hq).1 (h.bounds hq).2
  omega

/-- One semaphore changes, with its tokens. -/
theorem Ledger.step (h : Ledger c l x) {i : Nat} {l' : Object → List Nat} {place : Nat → SemPlace}
    (hvalue : ∀ j, j ≠ i → s.value j = x.machine.value j)
    (hlength : ∀ j, j ≠ i → l' (.semaphore j) = l (.semaphore j))
    (hsame : ∀ j, j ≠ i → census c (weight j) place = census c (weight j) x.place)
    (hbalance : s.value i + census c (weight i) place = share i x.data.bufferCount + (l' (.semaphore i)).length)
    (hnonneg : 0 ≤ s.value i) (hwaiting : ∀ q t, t ∈ l' q → ∃ i, q = .semaphore i ∧ (place t).awaits i) :
    Ledger c l' ⟨s, place, x.data⟩ := by
  refine ⟨fun j hj => ?_, fun j hj => ?_, hwaiting⟩
  · by_cases hji : j = i
    · rw [hji]
      exact hbalance
    · simp only [hvalue j hji, hsame j hji, hlength j hji]
      exact h.balance j hj
  · by_cases hji : j = i
    · rw [hji]
      exact hnonneg
    · simp only [hvalue j hji]
      exact h.nonneg j hj

theorem update_semaphore {i j : Nat} (hji : j ≠ i) (ts : List Nat) :
    Function.update l (.semaphore i) ts (.semaphore j) = l (.semaphore j) :=
  Function.update_of_ne (fun he => hji (by cases he; rfl)) ..

/-- The waiters stay at their places when the running thread moves on. -/
theorem Ledger.waiting_advance (h : Ledger c l x) (hq : Queues c x.machine np nt l) (hexec : Executing x.machine)
    {q : Object} {t : Nat} (ht : t ∈ l q) : ∃ i, q = .semaphore i ∧ (advance x p t).awaits i := by
  have htr : t ≠ running x.machine := fun he => (hq.free hexec.2 hexec.1).2 q (he ▸ ht)
  rw [advance_of_ne p htr]
  exact h.waiting q t ht

/-- A wait for a token: the running thread is counted from here on. -/
theorem Ledger.wait (h : Ledger c l x) (hq : Queues c x.machine np nt l) (hexec : Executing x.machine) {i : Nat}
    (hp : Performed x.machine (.wait i) s) (hawaits : p.awaits i)
    (hnone : weight i (x.place (running x.machine)) = 0)
    (hother : ∀ j, j ≠ i → weight j p = weight j (x.place (running x.machine))) :
    ∃ l', Queues c s np nt l' ∧ Ledger c l' ⟨s, advance x p, x.data⟩ := by
  have hslot := hq.running_slot_mem hexec.1
  have hsame : ∀ j, j ≠ i → census c (weight j) (advance x p) = census c (weight j) x.place :=
    fun j hj => census_same hslot (hother j hj)
  have hmore : census c (weight i) (advance x p) = census c (weight i) x.place + 1 := by
    have := census_advance (weight i) hslot p
    rw [hnone, hawaits.weight] at this
    omega
  have hbalance := h.balance i hawaits.lt
  have hnonneg := h.nonneg i hawaits.lt
  cases hp with
  | waitNobody nobody => exact (hexec.1 nobody).elim
  | take somebody available =>
      have hle := h.value_le hq hawaits.lt
      have hsize : bufferSize = 4 := rfl
      have hvalue : (setValue x.machine i (wrap32 (x.machine.value i - 1))).value i = x.machine.value i - 1 := by
        rw [wrap32_of_mem (by omega) (by omega)]
        exact Function.update_self ..
      refine ⟨l, hq.congr rfl rfl rfl rfl, h.step (fun j hj => Function.update_of_ne hj ..) (fun _ _ => rfl) hsame
        ?_ ?_ (fun q t ht => h.waiting_advance hq hexec ht)⟩
      · rw [hvalue, hmore]
        push_cast
        omega
      · rw [hvalue]
        omega
  | waitBlock somebody none =>
      have hvalue : (suspend x.machine (.semaphore i) (running x.machine)).value = x.machine.value := by
        rw [suspend_frame]
      refine ⟨_, hq.suspend hexec.1 (hexec.2.not_yield hexec.1), h.step (fun j _ => congrFun hvalue j)
        (fun j hj => update_semaphore hj _) hsame ?_ ?_ (fun q t ht => ?_)⟩
      · rw [hvalue, hmore, Function.update_self, List.length_append, List.length_singleton]
        push_cast
        omega
      · rw [hvalue]
        exact hnonneg
      · rcases mem_join.mp ht with hmem | ⟨hqi, hself⟩
        · exact h.waiting_advance hq hexec hmem
        · rw [hself, advance_self]
          exact ⟨i, hqi, hawaits⟩

/-- A signal gives a token back, or to the first waiter. -/
theorem Ledger.signal (h : Ledger c l x) (hq : Queues c x.machine np nt l) (hexec : Executing x.machine) {i : Nat}
    (hi : i < 3) (hp : Performed x.machine (.signal i) s) (hone : weight i (x.place (running x.machine)) = 1)
    (hnone : weight i p = 0) (hother : ∀ j, j ≠ i → weight j p = weight j (x.place (running x.machine))) :
    ∃ l', Queues c s np nt l' ∧ Ledger c l' ⟨s, advance x p, x.data⟩ := by
  have hslot := hq.running_slot_mem hexec.1
  have hsame : ∀ j, j ≠ i → census c (weight j) (advance x p) = census c (weight j) x.place :=
    fun j hj => census_same hslot (hother j hj)
  have hless : census c (weight i) (advance x p) + 1 = census c (weight i) x.place := by
    have := census_advance (c := c) (weight i) hslot p
    omega
  have hbalance := h.balance i hi
  have hnonneg := h.nonneg i hi
  cases hp with
  | pass waiter =>
      obtain ⟨ws, hl⟩ := hq.first waiter
      have hvalue : (unblockThread (dequeue x.machine (.semaphore i)) (x.machine.waitHead (.semaphore i))).value =
          x.machine.value := by rw [wakeFirst_frame]
      have hlength : (l (.semaphore i)).length = ws.length + 1 := by rw [hl, List.length_cons]
      refine ⟨_, hq.wakeFirst hl (fun hrun => (hq.free hexec.2 hrun).1), h.step (fun j _ => congrFun hvalue j)
        (fun j hj => update_semaphore hj _) hsame ?_ ?_ (fun q t ht => ?_)⟩
      · rw [hvalue, Function.update_self]
        omega
      · rw [hvalue]
        exact hnonneg
      · exact h.waiting_advance hq hexec ((mem_leave hq.chains hl).mp ht).1
  | bank empty =>
      have hle := h.value_le hq hi
      have hsize : bufferSize = 4 := rfl
      have hvalue : (setValue x.machine i (wrap32 (x.machine.value i + 1))).value i = x.machine.value i + 1 := by
        rw [wrap32_of_mem (by omega) (by omega)]
        exact Function.update_self ..
      refine ⟨l, hq.congr rfl rfl rfl rfl, h.step (fun j hj => Function.update_of_ne hj ..) (fun _ _ => rfl) hsame
        ?_ ?_ (fun q t ht => h.waiting_advance hq hexec ht)⟩
      · rw [hvalue]
        omega
      · rw [hvalue]
        omega

/-- The statements that leave the semaphores and the counter alone. -/
theorem Ledger.plain (h : Ledger c l x) (hq : Queues c x.machine np nt l) (hexec : Executing x.machine)
    (hsame : ∀ j, weight j p = weight j (x.place (running x.machine))) (hg : g.bufferCount = x.data.bufferCount) :
    Ledger c l ⟨x.machine, advance x p, g⟩ := by
  have hslot := hq.running_slot_mem hexec.1
  refine ⟨fun i hi => ?_, h.nonneg, fun q t ht => h.waiting_advance hq hexec ht⟩
  simp only [census_same hslot (hsame i), hg]
  exact h.balance i hi

/-- The counter moves with the place: `buffer_count++` and `buffer_count--`. -/
theorem Ledger.count (h : Ledger c l x) (hq : Queues c x.machine np nt l) (hexec : Executing x.machine) {n : Int}
    (hvacant : (p.vacant : Int) + n = (x.place (running x.machine)).vacant)
    (hfilled : (p.filled : Int) = (x.place (running x.machine)).filled + n)
    (hguarded : p.guarded = (x.place (running x.machine)).guarded)
    (hg : g.bufferCount = x.data.bufferCount + n) : Ledger c l ⟨x.machine, advance x p, g⟩ := by
  have hslot := hq.running_slot_mem hexec.1
  refine ⟨fun i hi => ?_, h.nonneg, fun q t ht => h.waiting_advance hq hexec ht⟩
  have hbalance := h.balance i hi
  have hcensus := census_advance (c := c) (weight i) hslot p
  have hi' : i = emptySem ∨ i = fullSem ∨ i = bufferMutex := by
    simp only [emptySem, fullSem, bufferMutex]
    omega
  simp only [hg]
  rcases hi' with rfl | rfl | rfl
  · have hshare : ∀ k, share emptySem k = bufferSize - k := fun _ => rfl
    have hw : ∀ p, weight emptySem p = p.vacant := fun _ => rfl
    rw [hshare] at hbalance ⊢
    simp only [hw] at hcensus hbalance ⊢
    omega
  · have hshare : ∀ k, share fullSem k = k := fun _ => rfl
    have hw : ∀ p, weight fullSem p = p.filled := fun _ => rfl
    rw [hshare] at hbalance ⊢
    simp only [hw] at hcensus hbalance ⊢
    omega
  · have hshare : ∀ k, share bufferMutex k = 1 := fun _ => rfl
    have hw : ∀ p, weight bufferMutex p = p.guarded.toNat := fun _ => rfl
    rw [hshare] at hbalance ⊢
    simp only [hw, hguarded] at hcensus hbalance ⊢
    omega

/-- Threads inside or waiting to be, and not between the two halves of a change. -/
theorem Ledger.pending_le (h : Ledger c l x) {w : List Nat} (hnodup : w.Nodup) (hslot : ∀ t ∈ w, Slot c t)
    (hinside : ∀ t ∈ w, weight bufferMutex (x.place t) = 1 ∧ (x.place t).pending = 0) :
    census c SemPlace.pending x.place + w.length ≤ 1 + (l (.semaphore bufferMutex)).length := by
  have hbalance := h.balance bufferMutex (by decide)
  have hnonneg := h.nonneg bufferMutex (by decide)
  have hshare : share bufferMutex x.data.bufferCount = 1 := rfl
  have hrest : w.length ≤
      ∑ t ∈ Finset.Icc 1 c.maxThreads, (weight bufferMutex (x.place t) - (x.place t).pending) :=
    length_le_sum hnodup (fun t ht => Finset.mem_Icc.mpr (hslot t ht)) (fun t ht => by
      rw [(hinside t ht).1, (hinside t ht).2])
  have hsplit : census c (weight bufferMutex) x.place = census c SemPlace.pending x.place +
      ∑ t ∈ Finset.Icc 1 c.maxThreads, (weight bufferMutex (x.place t) - (x.place t).pending) := by
    rw [census, census, ← Finset.sum_add_distrib]
    refine Finset.sum_congr rfl (fun t _ => ?_)
    have := (x.place t).pending_le
    omega
  omega

theorem Ledger.waiter_inside (h : Ledger c l x) {t : Nat} (ht : t ∈ l (.semaphore bufferMutex)) :
    weight bufferMutex (x.place t) = 1 ∧ (x.place t).pending = 0 := by
  obtain ⟨j, hj, hawaits⟩ := h.waiting _ t ht
  cases hj
  exact ⟨hawaits.weight, hawaits.not_pending⟩

theorem Ledger.pending_le_one (h : Ledger c l x) (hq : Queues c x.machine np nt l) :
    census c SemPlace.pending x.place ≤ 1 := by
  have := h.pending_le (hq.chains.nodup _) (hq.slot _) (fun t ht => h.waiter_inside ht)
  omega

/-- While a thread is inside and not between the two halves of a change, the counter
is exact. -/
theorem Ledger.settled (h : Ledger c l x) (hq : Queues c x.machine np nt l) {t : Nat} (ht : Slot c t)
    (hout : t ∉ l (.semaphore bufferMutex)) (hinside : weight bufferMutex (x.place t) = 1)
    (hdone : (x.place t).pending = 0) : census c SemPlace.pending x.place = 0 := by
  have := h.pending_le (w := t :: l (.semaphore bufferMutex)) (List.nodup_cons.mpr ⟨hout, hq.chains.nodup _⟩)
    (fun u hu => ?_) (fun u hu => ?_)
  · rw [List.length_cons] at this
    omega
  · rcases List.mem_cons.mp hu with rfl | hu
    · exact ht
    · exact hq.slot _ u hu
  · rcases List.mem_cons.mp hu with rfl | hu
    · exact ⟨hinside, hdone⟩
    · exact h.waiter_inside hu

/-- There is room for the item of a producer, and an item for a consumer. -/
theorem Ledger.room (h : Ledger c l x) (hq : Queues c x.machine np nt l) {t : Nat} (ht : Slot c t)
    (hout : t ∉ l (.semaphore emptySem)) (hvacant : (x.place t).vacant = 1) : x.data.bufferCount + 1 ≤ bufferSize := by
  have hempty := h.balance emptySem (by decide)
  have hlt := h.length_lt hq ht hout hvacant.ge
  have hnonneg := h.nonneg emptySem (by decide)
  have hshare : share emptySem x.data.bufferCount = bufferSize - x.data.bufferCount := rfl
  omega

theorem Ledger.stocked (h : Ledger c l x) (hq : Queues c x.machine np nt l) {t : Nat} (ht : Slot c t)
    (hout : t ∉ l (.semaphore fullSem)) (hfilled : (x.place t).filled = 1) : 1 ≤ x.data.bufferCount := by
  have hfull := h.balance fullSem (by decide)
  have hlt := h.length_lt hq ht hout hfilled.ge
  have hnonneg := h.nonneg fullSem (by decide)
  have hshare : share fullSem x.data.bufferCount = x.data.bufferCount := rfl
  omega

theorem Ledger.scheduled (h : Ledger c l x) (hvalue : s.value = x.machine.value) : Ledger c l ⟨s, x.place, x.data⟩ := by
  refine ⟨fun i hi => ?_, fun i hi => ?_, h.waiting⟩
  all_goals simp only [hvalue]
  · exact h.balance i hi
  · exact h.nonneg i hi

theorem weight_congr {p q : SemPlace} (hvacant : p.vacant = q.vacant) (hfilled : p.filled = q.filled)
    (hguarded : p.guarded = q.guarded) (i : Nat) : weight i p = weight i q := by
  simp only [weight, hvacant, hfilled, hguarded]

/-- Every access of a statement is inside the buffer. -/
theorem Ledger.access (h : Ledger c l x) (hq : Queues c x.machine np nt l) (hexec : Executing x.machine) {i : Int}
    (hi : accessed (x.place (running x.machine)) x.data = some i) : 0 ≤ i ∧ i < bufferSize := by
  have hslot := hq.running_slot hexec.1
  have hout := (hq.free hexec.2 hexec.1).2
  have hbounds := h.bounds hq
  generalize hplace : x.place (running x.machine) = q at hi
  cases q <;> cases hi
  case store i | load i =>
      have hroom := h.room hq hslot (hout _) (by rw [hplace]; rfl)
      omega
  case printInserted i =>
      have hstocked := h.stocked hq hslot (hout _) (by rw [hplace]; rfl)
      omega

/-- Two threads inside would hold two tokens. -/
theorem Ledger.exclusive (h : Ledger c l x) (hq : Queues c x.machine np nt l) {t u : Nat} (ht : Slot c t)
    (hu : Slot c u) (hgt : Granted x t) (hgu : Granted x u) : t = u := by
  by_contra hne
  have hbalance := h.balance bufferMutex (by decide)
  have hnonneg := h.nonneg bufferMutex (by decide)
  have hshare : share bufferMutex x.data.bufferCount = 1 := rfl
  have hout : ∀ {v}, Granted x v → v ∉ l (.semaphore bufferMutex) :=
    fun hv hmem => hv.2 (hq.member_blocked hmem)
  have hone : ∀ {v}, Granted x v → 1 ≤ weight bufferMutex (x.place v) := by
    intro v hv
    have hw : weight bufferMutex (x.place v) = (x.place v).guarded.toNat := rfl
    rw [hw, hv.1]
    exact Nat.le_refl 1
  have htwo := length_le_sum (S := Finset.Icc 1 c.maxThreads) (l := t :: u :: l (.semaphore bufferMutex))
    (f := fun t => weight bufferMutex (x.place t)) ?_ ?_ ?_
  · rw [List.length_cons, List.length_cons] at htwo
    have hc : census c (weight bufferMutex) x.place =
      ∑ t ∈ Finset.Icc 1 c.maxThreads, weight bufferMutex (x.place t) := rfl
    omega
  · refine List.nodup_cons.mpr ⟨fun hmem => ?_, List.nodup_cons.mpr ⟨hout hgu, hq.chains.nodup _⟩⟩
    exact (List.mem_cons.mp hmem).elim hne (hout hgt)
  · intro v hv
    rcases List.mem_cons.mp hv with rfl | hv
    · exact Finset.mem_Icc.mpr ht
    · rcases List.mem_cons.mp hv with rfl | hv
      · exact Finset.mem_Icc.mpr hu
      · exact Finset.mem_Icc.mpr (hq.slot _ v hv)
  · intro v hv
    rcases List.mem_cons.mp hv with rfl | hv
    · exact hone hgt
    · rcases List.mem_cons.mp hv with rfl | hv
      · exact hone hgu
      · exact (h.waiter_inside hv).1.ge

end Ledger

end SengKernel.Sync
