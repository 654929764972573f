import SengKernel.BufferLedger

/- The items of the semaphore demo: what has been inserted is what has been extracted
   and what the buffer holds, with the exception of a change half done. -/
namespace SengKernel.Sync
open Sched MachineWord Transition LinkedChain

def SemPlace.counted (rounds : Nat) : SemPlace → Prop
  | .produceTest i | .consumeTest i => i ≤ rounds
  | .waitEmpty i | .produceEnter i | .store i | .increment i | .printInserted i => i < rounds
  | .produceLeave i | .signalFull i | .produceYield i => i < rounds
  | .waitFull i | .consumeEnter i | .decrement i | .load i | .printExtracted i _ => i < rounds
  | .consumeLeave i | .signalEmpty i | .consumeYield i => i < rounds
  | .produceDone | .produceExit | .consumeDone | .consumeExit => True

/-- The number of items that the thread has stored. -/
def SemPlace.stores (rounds : Nat) : SemPlace → Nat
  | .produceTest i | .waitEmpty i | .produceEnter i | .store i => i
  | .increment i | .printInserted i | .produceLeave i | .signalFull i | .produceYield i => i + 1
  | .produceDone | .produceExit => rounds
  | _ => 0

/-- The number of items that the thread has loaded. -/
def SemPlace.loads (rounds : Nat) : SemPlace → Nat
  | .consumeTest i | .waitFull i | .consumeEnter i | .decrement i | .load i => i
  | .printExtracted i _ | .consumeLeave i | .signalEmpty i | .consumeYield i => i + 1
  | .consumeDone | .consumeExit => rounds
  | _ => 0

def made (job : Job) (n : Nat) : Multiset Int := (Multiset.range n).map (item job.id)

/-- The invariant of the items and the loop counters, for `nt` threads. -/
structure Items (c : Config) (job : Nat → Job) (nt : Nat) (x : BufferClient) : Prop where
  unborn : ∀ t, t = 0 ∨ nt < t → x.place t = .produceTest 0 ∨ x.place t = .consumeTest 0
  counted : ∀ t, (x.place t).counted (job t).rounds
  resting : ∀ t, (x.place t).pending = 1 → ∀ q, ¬ Asleep x.machine q t
  stored : x.data.inserted = x.data.extracted +
    stock x.data (x.data.bufferCount.toNat + census c SemPlace.pending x.place)
  inserted : x.data.inserted =
    ∑ t ∈ Finset.Icc 1 c.maxThreads, made (job t) ((x.place t).stores (job t).rounds)
  extracted : Multiset.card x.data.extracted =
    ∑ t ∈ Finset.Icc 1 c.maxThreads, (x.place t).loads (job t).rounds

section Items

variable {c : Config} {job : Nat → Job} {np nt nt' : Nat} {l : Object → List Nat} {x y : BufferClient} {s : State}
  {p : SemPlace} {g : Buffer}

theorem stock_succ (g : Buffer) (n : Nat) : stock g (n + 1) = g.buffer n ::ₘ stock g n := by
  rw [stock, Multiset.range_succ, Multiset.map_cons]
  rfl

theorem stock_congr {g' : Buffer} {n : Nat} (h : ∀ i, i < n → g'.buffer i = g.buffer i) : stock g' n = stock g n :=
  Multiset.map_congr rfl (fun i hi => h i (Multiset.mem_range.mp hi))

theorem made_succ (j : Job) (n : Nat) : made j (n + 1) = item j.id n ::ₘ made j n := by
  rw [made, Multiset.range_succ, Multiset.map_cons]
  rfl

theorem Items.scheduled (h : Items c job nt x) (hgrows : nt ≤ nt')
    (hasleep : ∀ q t, Asleep s q t → Asleep x.machine q t) : Items c job nt' ⟨s, x.place, x.data⟩ :=
  ⟨fun t ht => h.unborn t (ht.imp_right (Nat.lt_of_le_of_lt hgrows)), h.counted,
    fun t ht q hq => h.resting t ht q (hasleep q t hq), h.stored, h.inserted, h.extracted⟩

/-- The running thread moves on. -/
theorem Items.move (h : Items c job nt x) (hq : Queues c x.machine np nt l) (hrun : running x.machine ≠ 0)
    (hcounted : p.counted (job (running x.machine)).rounds)
    (hasleep : ∀ q t, t ≠ running x.machine → Asleep s q t → Asleep x.machine q t)
    (hresting : p.pending = 1 → ∀ q, ¬ Asleep s q (running x.machine))
    (hstored : g.inserted = g.extracted + stock g (g.bufferCount.toNat + census c SemPlace.pending (advance x p)))
    (hinserted : g.inserted + made (job (running x.machine))
        ((x.place (running x.machine)).stores (job (running x.machine)).rounds) =
      x.data.inserted + made (job (running x.machine)) (p.stores (job (running x.machine)).rounds))
    (hextracted : Multiset.card g.extracted + (x.place (running x.machine)).loads (job (running x.machine)).rounds =
      Multiset.card x.data.extracted + p.loads (job (running x.machine)).rounds) :
    Items c job nt ⟨s, advance x p, g⟩ := by
  have hslot := hq.running_slot_mem hrun
  have hle : running x.machine ≤ nt := hq.coherent.tables.runningThread
  refine ⟨fun t ht => ?_, fun t => ?_, fun t ht q hsleep => ?_, hstored, ?_, ?_⟩
  · have htr : t ≠ running x.machine := by omega
    simp only [advance_of_ne p htr]
    exact h.unborn t ht
  · by_cases htr : t = running x.machine
    · rw [htr]
      simp only [advance_self]
      exact hcounted
    · simp only [advance_of_ne p htr]
      exact h.counted t
  · by_cases htr : t = running x.machine
    · rw [htr] at ht hsleep
      simp only [advance_self] at ht
      exact hresting ht q hsleep
    · simp only [advance_of_ne p htr] at ht
      exact h.resting t ht q (hasleep q t htr hsleep)
  · have hsum := sum_advance (x := x) hslot (fun t p => made (job t) (p.stores (job t).rounds)) p
    rw [← h.inserted] at hsum
    exact add_right_cancel (hinserted.trans hsum.symm)
  · have hsum := sum_advance (x := x) hslot (fun t p => p.loads (job t).rounds) p
    rw [← h.extracted] at hsum
    exact add_right_cancel (hextracted.trans hsum.symm)

/-- The statements that touch neither the buffer nor a loop's progress. -/
theorem Items.plain (h : Items c job nt x) (hq : Queues c x.machine np nt l) (hrun : running x.machine ≠ 0)
    (hcounted : p.counted (job (running x.machine)).rounds)
    (hasleep : ∀ q t, t ≠ running x.machine → Asleep s q t → Asleep x.machine q t)
    (hpending : p.pending = 0 ∧ (x.place (running x.machine)).pending = 0)
    (hstores : p.stores (job (running x.machine)).rounds =
      (x.place (running x.machine)).stores (job (running x.machine)).rounds)
    (hloads : p.loads (job (running x.machine)).rounds =
      (x.place (running x.machine)).loads (job (running x.machine)).rounds)
    (hg : g = { x.data with semDone := g.semDone }) : Items c job nt ⟨s, advance x p, g⟩ := by
  have hcensus : census c SemPlace.pending (advance x p) = census c SemPlace.pending x.place :=
    census_same (hq.running_slot_mem hrun) (hpending.1.trans hpending.2.symm)
  refine h.move hq hrun hcounted hasleep (fun hone => ?_) ?_ ?_ ?_
  · rw [hpending.1] at hone
    cases hone
  · rw [hcensus, hg]
    exact h.stored
  · rw [hstores, hg]
  · rw [hloads, hg]

theorem Items.store (h : Items c job nt x) (hledger : Ledger c l x) (hq : Queues c x.machine np nt l)
    (hexec : Executing x.machine) {i : Nat} (hplace : x.place (running x.machine) = .store i) :
    Items c job nt ⟨x.machine, advance x (.increment i),
      { x.data with buffer := Function.update x.data.buffer x.data.bufferCount (item (job (running x.machine)).id i)
                    inserted := item (job (running x.machine)).id i ::ₘ x.data.inserted }⟩ := by
  have hslot := hq.running_slot_mem hexec.1
  have hcounted := h.counted (running x.machine)
  have hsettled := hledger.settled hq (hq.running_slot hexec.1) ((hq.free hexec.2 hexec.1).2 _)
    (by rw [hplace]; rfl) (by rw [hplace]; rfl)
  have hpending := census_advance (c := c) SemPlace.pending hslot (.increment i)
  have hcount : ((x.data.bufferCount.toNat : Nat) : Int) = x.data.bufferCount :=
    Int.toNat_of_nonneg (hledger.bounds hq).1
  have hstored := h.stored
  rw [hplace] at hcounted hpending
  have hone : census c SemPlace.pending (advance x (.increment i)) = 1 := by
    rw [hsettled] at hpending
    exact hpending
  rw [hsettled, Nat.add_zero] at hstored
  refine h.move hq hexec.1 hcounted (fun _ _ _ => id) (fun _ => executing_awake hexec) ?_ ?_ ?_
  · have hsame : stock { x.data with buffer := Function.update x.data.buffer x.data.bufferCount (item (job (running x.machine)).id i)
                                     inserted := item (job (running x.machine)).id i ::ₘ x.data.inserted }
        x.data.bufferCount.toNat = stock x.data x.data.bufferCount.toNat := by
      refine stock_congr (fun j hj => Function.update_of_ne ?_ ..)
      omega
    rw [hone, stock_succ, hsame]
    dsimp only
    rw [hcount, Function.update_self, hstored, Multiset.add_cons]
  · rw [hplace]
    simp only [SemPlace.stores, made_succ, Multiset.cons_add, Multiset.add_cons]
  · rw [hplace]
    rfl

theorem Items.increment (h : Items c job nt x) (hledger : Ledger c l x) (hq : Queues c x.machine np nt l)
    (hexec : Executing x.machine) {i : Nat} (hplace : x.place (running x.machine) = .increment i) :
    Items c job nt ⟨x.machine, advance x (.printInserted i),
      { x.data with bufferCount := x.data.bufferCount + 1 }⟩ := by
  have hcounted := h.counted (running x.machine)
  have hpending := census_advance (c := c) SemPlace.pending (hq.running_slot_mem hexec.1) (.printInserted i)
  have hcount := (hledger.bounds hq).1
  have hstored := h.stored
  rw [hplace] at hcounted hpending
  simp only [SemPlace.pending] at hpending
  have hindex : (x.data.bufferCount + 1).toNat + census c SemPlace.pending (advance x (.printInserted i)) =
      x.data.bufferCount.toNat + census c SemPlace.pending x.place := by omega
  refine h.move hq hexec.1 hcounted (fun _ _ _ => id) nofun ?_ ?_ ?_
  · rw [hindex, hstored]
    exact congrArg _ (stock_congr (fun _ _ => rfl))
  · rw [hplace]
    rfl
  · rw [hplace]
    rfl

theorem Items.decrement (h : Items c job nt x) (hledger : Ledger c l x) (hq : Queues c x.machine np nt l)
    (hexec : Executing x.machine) {i : Nat} (hplace : x.place (running x.machine) = .decrement i) :
    Items c job nt ⟨x.machine, advance x (.load i), { x.data with bufferCount := x.data.bufferCount - 1 }⟩ := by
  have hcounted := h.counted (running x.machine)
  have hpending := census_advance (c := c) SemPlace.pending (hq.running_slot_mem hexec.1) (.load i)
  have hcount := hledger.stocked hq (hq.running_slot hexec.1) ((hq.free hexec.2 hexec.1).2 _) (by rw [hplace]; rfl)
  have hstored := h.stored
  rw [hplace] at hcounted hpending
  simp only [SemPlace.pending] at hpending
  have hindex : (x.data.bufferCount - 1).toNat + census c SemPlace.pending (advance x (.load i)) =
      x.data.bufferCount.toNat + census c SemPlace.pending x.place := by omega
  refine h.move hq hexec.1 hcounted (fun _ _ _ => id) (fun _ => executing_awake hexec) ?_ ?_ ?_
  · rw [hindex, hstored]
    exact congrArg _ (stock_congr (fun _ _ => rfl))
  · rw [hplace]
    rfl
  · rw [hplace]
    rfl

theorem Items.load (h : Items c job nt x) (hledger : Ledger c l x) (hq : Queues c x.machine np nt l)
    (hexec : Executing x.machine) {i : Nat} (hplace : x.place (running x.machine) = .load i) :
    Items c job nt ⟨x.machine, advance x (.printExtracted i (x.data.buffer x.data.bufferCount)),
      { x.data with extracted := x.data.buffer x.data.bufferCount ::ₘ x.data.extracted }⟩ := by
  have hcounted := h.counted (running x.machine)
  have hpending := census_advance (c := c) SemPlace.pending (hq.running_slot_mem hexec.1)
    (.printExtracted i (x.data.buffer x.data.bufferCount))
  have hone := hledger.pending_le_one hq
  have hcount : ((x.data.bufferCount.toNat : Nat) : Int) = x.data.bufferCount :=
    Int.toNat_of_nonneg (hledger.bounds hq).1
  have hstored := h.stored
  rw [hplace] at hcounted hpending
  simp only [SemPlace.pending] at hpending
  have hbefore : census c SemPlace.pending x.place = 1 := by omega
  have hafter : census c SemPlace.pending
      (advance x (.printExtracted i (x.data.buffer x.data.bufferCount))) = 0 := by omega
  refine h.move hq hexec.1 hcounted (fun _ _ _ => id) nofun ?_ ?_ ?_
  · rw [hafter, hstored, hbefore, stock_succ, hcount, Multiset.add_cons, Multiset.cons_add]
    rfl
  · rw [hplace]
    rfl
  · rw [hplace, Multiset.card_cons]
    simp only [SemPlace.loads]
    omega

/-- A statement at `q` leads to `p`, and nothing that is counted changes. -/
structure SameCounts (rounds : Nat) (q p : SemPlace) : Prop where
  counted : p.counted rounds
  vacant : p.vacant = q.vacant
  filled : p.filled = q.filled
  guarded : p.guarded = q.guarded
  pending : p.pending = 0 ∧ q.pending = 0
  stores : p.stores rounds = q.stores rounds
  loads : p.loads rounds = q.loads rounds

theorem SameCounts.step {q : SemPlace} (h : SameCounts (job (running x.machine)).rounds q p)
    (hplace : x.place (running x.machine) = q) (hledger : Ledger c l x) (hitems : Items c job nt x)
    (hq : Queues c x.machine np nt l) (hexec : Executing x.machine) (hg : g = { x.data with semDone := g.semDone }) :
    Ledger c l ⟨x.machine, advance x p, g⟩ ∧ Items c job nt ⟨x.machine, advance x p, g⟩ := by
  subst hplace
  exact ⟨hledger.plain hq hexec (weight_congr h.vacant h.filled h.guarded) (by rw [hg]),
    hitems.plain hq hexec.1 h.counted (fun _ _ _ => id) h.pending h.stores h.loads hg⟩

/-- A call of `sem_wait` or `sem_signal` leaves the items alone. -/
theorem Items.called (h : Items c job nt x) (hq : Queues c x.machine np nt l) (hexec : Executing x.machine) {op : Op}
    (hp : Performed x.machine op s) {q : SemPlace} (hplace : x.place (running x.machine) = q)
    (hcounted : p.counted (job (running x.machine)).rounds) (hpending : p.pending = 0 ∧ q.pending = 0)
    (hstores : p.stores (job (running x.machine)).rounds = q.stores (job (running x.machine)).rounds)
    (hloads : p.loads (job (running x.machine)).rounds = q.loads (job (running x.machine)).rounds) :
    Items c job nt ⟨s, advance x p, x.data⟩ := by
  subst hplace
  exact h.plain hq hexec.1 hcounted (fun _ _ ht hsleep => hp.asleep ht hsleep) hpending hstores hloads rfl

theorem ledger_call (h : Ledger c l x) (k : Items c job nt x) (hq : Queues c x.machine np nt l)
    (hexec : Executing x.machine) {op : Op}
    (hst : semThread job (running x.machine) (x.place (running x.machine)) x.data = .call op p)
    (hp : Performed x.machine op s) : ∃ l', Queues c s np nt l' ∧ Ledger c l' ⟨s, advance x p, x.data⟩ ∧
      Items c job nt ⟨s, advance x p, x.data⟩ := by
  have hcounted := k.counted (running x.machine)
  generalize hplace : x.place (running x.machine) = q at hst hcounted
  have hwait : ∀ i, op = .wait i → p.awaits i → weight i q = 0 → (∀ j, j ≠ i → weight j p = weight j q) →
      ∃ l', Queues c s np nt l' ∧ Ledger c l' ⟨s, advance x p, x.data⟩ := by
    intro i hop hawaits hnone hother
    subst hop hplace
    exact h.wait hq hexec hp hawaits hnone hother
  have hsignal : ∀ i, i < 3 → op = .signal i → weight i q = 1 → weight i p = 0 →
      (∀ j, j ≠ i → weight j p = weight j q) →
      ∃ l', Queues c s np nt l' ∧ Ledger c l' ⟨s, advance x p, x.data⟩ := by
    intro i hi hop hone hnone hother
    subst hop hplace
    exact h.signal hq hexec hi hp hone hnone hother
  have hitems := k.called (p := p) hq hexec hp hplace
  cases q <;> cases hst
  case waitEmpty i =>
      obtain ⟨l', hq', h'⟩ := hwait emptySem rfl rfl rfl
        (fun j hj => by simp only [weight, if_neg hj, SemPlace.filled, SemPlace.guarded])
      exact ⟨l', hq', h', hitems hcounted ⟨rfl, rfl⟩ rfl rfl⟩
  case produceEnter i =>
      obtain ⟨l', hq', h'⟩ := hwait bufferMutex rfl rfl rfl
        (fun j hj => by simp only [weight, if_neg hj, SemPlace.filled, SemPlace.vacant])
      exact ⟨l', hq', h', hitems hcounted ⟨rfl, rfl⟩ rfl rfl⟩
  case produceLeave i =>
      obtain ⟨l', hq', h'⟩ := hsignal bufferMutex (by decide) rfl rfl rfl
        (fun j hj => by simp only [weight, if_neg hj, SemPlace.filled, SemPlace.vacant])
      exact ⟨l', hq', h', hitems hcounted ⟨rfl, rfl⟩ rfl rfl⟩
  case signalFull i =>
      obtain ⟨l', hq', h'⟩ := hsignal fullSem (by decide) rfl rfl rfl
        (fun j hj => by simp only [weight, if_neg hj, SemPlace.vacant, SemPlace.guarded])
      exact ⟨l', hq', h', hitems hcounted ⟨rfl, rfl⟩ rfl rfl⟩
  case waitFull i =>
      obtain ⟨l', hq', h'⟩ := hwait fullSem rfl rfl rfl
        (fun j hj => by simp only [weight, if_neg hj, SemPlace.vacant, SemPlace.guarded])
      exact ⟨l', hq', h', hitems hcounted ⟨rfl, rfl⟩ rfl rfl⟩
  case consumeEnter i =>
      obtain ⟨l', hq', h'⟩ := hwait bufferMutex rfl rfl rfl
        (fun j hj => by simp only [weight, if_neg hj, SemPlace.filled, SemPlace.vacant])
      exact ⟨l', hq', h', hitems hcounted ⟨rfl, rfl⟩ rfl rfl⟩
  case consumeLeave i =>
      obtain ⟨l', hq', h'⟩ := hsignal bufferMutex (by decide) rfl rfl rfl
        (fun j hj => by simp only [weight, if_neg hj, SemPlace.filled, SemPlace.vacant])
      exact ⟨l', hq', h', hitems hcounted ⟨rfl, rfl⟩ rfl rfl⟩
  case signalEmpty i =>
      obtain ⟨l', hq', h'⟩ := hsignal emptySem (by decide) rfl rfl rfl
        (fun j hj => by simp only [weight, if_neg hj, SemPlace.filled, SemPlace.guarded])
      exact ⟨l', hq', h', hitems hcounted ⟨rfl, rfl⟩ rfl rfl⟩

theorem ledger_work (h : Ledger c l x) (k : Items c job nt x) (hq : Queues c x.machine np nt l)
    (hexec : Executing x.machine)
    (hst : semThread job (running x.machine) (x.place (running x.machine)) x.data = .work g p) :
    Ledger c l ⟨x.machine, advance x p, g⟩ ∧ Items c job nt ⟨x.machine, advance x p, g⟩ := by
  have hcounted := k.counted (running x.machine)
  have hsize : bufferSize = 4 := rfl
  have hslot := hq.running_slot hexec.1
  have hout := (hq.free hexec.2 hexec.1).2
  generalize hplace : x.place (running x.machine) = q at hst hcounted
  cases q <;> cases hst
  case store i =>
      exact ⟨h.plain hq hexec (by rw [hplace]; exact weight_congr rfl rfl rfl) rfl, k.store h hq hexec hplace⟩
  case increment i =>
      have hroom := h.room hq hslot (hout _) (by rw [hplace]; rfl)
      rw [wrap32_of_mem (by have := (h.bounds hq).1; omega) (by omega)]
      exact ⟨h.count (n := 1) hq hexec (by rw [hplace]; rfl) (by rw [hplace]; rfl) (by rw [hplace]; rfl) rfl,
        k.increment h hq hexec hplace⟩
  case decrement i =>
      have hstocked := h.stocked hq hslot (hout _) (by rw [hplace]; rfl)
      have hbound := (h.bounds hq).2
      rw [wrap32_of_mem (by omega) (by omega)]
      exact ⟨h.count (n := -1) hq hexec (by rw [hplace]; rfl) (by rw [hplace]; rfl) (by rw [hplace]; rfl) rfl,
        k.decrement h hq hexec hplace⟩
  case load i =>
      exact ⟨h.plain hq hexec (by rw [hplace]; exact weight_congr rfl rfl rfl) rfl, k.load h hq hexec hplace⟩
  case produceTest i =>
      refine SameCounts.step ?_ hplace h k hq hexec rfl
      split
      · exact ⟨by assumption, rfl, rfl, rfl, ⟨rfl, rfl⟩, rfl, rfl⟩
      · have hall : (job (running x.machine)).rounds = i := Nat.le_antisymm (Nat.le_of_not_lt (by assumption)) hcounted
        exact ⟨trivial, rfl, rfl, rfl, ⟨rfl, rfl⟩, hall, rfl⟩
  case consumeTest i =>
      refine SameCounts.step ?_ hplace h k hq hexec rfl
      split
      · exact ⟨by assumption, rfl, rfl, rfl, ⟨rfl, rfl⟩, rfl, rfl⟩
      · have hall : (job (running x.machine)).rounds = i := Nat.le_antisymm (Nat.le_of_not_lt (by assumption)) hcounted
        exact ⟨trivial, rfl, rfl, rfl, ⟨rfl, rfl⟩, rfl, hall⟩
  case printInserted i | printExtracted i =>
      refine SameCounts.step ?_ hplace h k hq hexec rfl
      exact ⟨hcounted, rfl, rfl, rfl, ⟨rfl, rfl⟩, rfl, rfl⟩
  case produceDone | consumeDone =>
      refine SameCounts.step ?_ hplace h k hq hexec rfl
      exact ⟨trivial, rfl, rfl, rfl, ⟨rfl, rfl⟩, rfl, rfl⟩

theorem ledger_ticked (h : Ledger c l x) (k : Items c job nt x) (hq : Queues c x.machine np nt l)
    (step : Ticked c (semThread job) x y) :
    ∃ np' nt' l', Queues c y.machine np' nt' l' ∧ Ledger c l' y ∧ Items c job nt' y := by
  cases step with
  | scheduled step quiet =>
      obtain ⟨np', nt', hgrows, hq', hquiet⟩ := hq.quiet step quiet
      exact ⟨np', nt', l, hq', h.scheduled (by rw [hquiet.frame]), k.scheduled hgrows hquiet.asleep⟩
  | @yielded _ next _ executing statement step =>
      have hcounted := k.counted (running x.machine)
      have hsame : SameCounts (job (running x.machine)).rounds (x.place (running x.machine)) next := by
        generalize x.place (running x.machine) = q at statement hcounted
        cases q <;> cases statement
        all_goals exact ⟨hcounted, rfl, rfl, rfl, ⟨rfl, rfl⟩, rfl, rfl⟩
      obtain ⟨h', k'⟩ := hsame.step (g := x.data) rfl h k hq executing rfl
      obtain ⟨np', nt', hgrows, hq', hquiet⟩ := hq.quiet step nofun
      exact ⟨np', nt', l, hq', h'.scheduled (by rw [hquiet.frame]), k'.scheduled hgrows hquiet.asleep⟩
  | called executing statement step =>
      obtain ⟨l', hq', h', k'⟩ := ledger_call h k hq executing statement step
      exact ⟨np, nt, l', hq', h', k'⟩
  | worked executing statement =>
      obtain ⟨h', k'⟩ := ledger_work h k hq executing statement
      exact ⟨np, nt, l, hq, h', k'⟩

/-- At its start a thread holds nothing and has done nothing. -/
theorem start_counts {q : SemPlace} (h : q = .produceTest 0 ∨ q = .consumeTest 0) (rounds : Nat) :
    (∀ i, weight i q = 0) ∧ q.pending = 0 ∧ q.counted rounds ∧ q.stores rounds = 0 ∧ q.loads rounds = 0 := by
  rcases h with rfl | rfl
  all_goals
    exact ⟨fun i => by simp only [weight, SemPlace.vacant, SemPlace.filled, SemPlace.guarded, Bool.toNat_false,
      ite_self], rfl, Nat.zero_le _, rfl, rfl⟩

theorem BufferStart.ledger (h : BufferStart c x) : Ledger c (fun _ => []) x := by
  obtain ⟨count, hinit, hempty, hfull, hmutex⟩ := h.machine
  have hzero : ∀ i, census c (weight i) x.place = 0 :=
    fun i => Finset.sum_eq_zero (fun t _ => (start_counts (h.place t) 0).1 i)
  have hvalue : ∀ i, i < 3 → x.machine.value i = share i 0 := by
    intro i hi
    have hi' : i = emptySem ∨ i = fullSem ∨ i = bufferMutex := by
      simp only [emptySem, fullSem, bufferMutex]
      omega
    rw [hinit.value]
    rcases hi' with rfl | rfl | rfl
    · exact hempty.trans (Int.sub_zero _).symm
    · exact hfull
    · exact hmutex
  refine ⟨fun i hi => ?_, fun i hi => ?_, fun q t ht => (by cases ht)⟩
  · rw [hvalue i hi, hzero, h.count]
    rfl
  · rw [hvalue i hi]
    unfold share
    split
    · decide
    · split <;> decide

theorem BufferStart.items (h : BufferStart c x) : Items c job 0 x := by
  have hstart := fun t => start_counts (h.place t) (job t).rounds
  refine ⟨fun t _ => h.place t, fun t => (hstart t).2.2.1, fun t ht => ?_, ?_, ?_, ?_⟩
  · rw [(hstart t).2.1] at ht
    cases ht
  · have hzero : census c SemPlace.pending x.place = 0 := Finset.sum_eq_zero (fun t _ => (hstart t).2.1)
    rw [hzero, h.inserted, h.extracted, h.count]
    rfl
  · rw [h.inserted]
    exact (Finset.sum_eq_zero (fun t _ => by rw [(hstart t).2.2.2.1]; rfl)).symm
  · rw [h.extracted]
    exact (Finset.sum_eq_zero (fun t _ => (hstart t).2.2.2.2)).symm

theorem run_ledger (start : BufferStart c x) {ticks : List Tick} (run : Run (ClientStep c (semThread job)) x ticks y) :
    ∃ np nt l, Queues c y.machine np nt l ∧ Ledger c l y ∧ Items c job nt y := by
  obtain ⟨count, hinit, _⟩ := start.machine
  refine run.invariant (I := fun x => ∃ np nt l, Queues c x.machine np nt l ∧ Ledger c l x ∧ Items c job nt x)
    (fun x k y hx step => ?_) ⟨3, 0, fun _ => [], hinit.queues, start.ledger, start.items⟩
  obtain ⟨np, nt, l, hq, h, k⟩ := hx
  exact ledger_ticked h k hq (ticked step)

/-- The slots without a thread are at their start. -/
theorem Items.outside (h : Items c job nt x) (hq : Queues c x.machine np nt l) {t : Nat}
    (ht : t ∉ threads c x.machine) : x.place t = .produceTest 0 ∨ x.place t = .consumeTest 0 := by
  refine h.unborn t ?_
  rw [hq.threads, Finset.mem_Icc] at ht
  omega

/-- While no thread is inside, the counter is exact. -/
theorem Items.conserved (h : Items c job nt x) (hledger : Ledger c l x) (hq : Queues c x.machine np nt l)
    (hnone : ∀ t ∈ threads c x.machine, ¬ InGuarded x t) :
    x.data.inserted = x.data.extracted + stock x.data x.data.bufferCount.toNat := by
  have hpending : ∀ t ∈ Finset.Icc 1 c.maxThreads, (x.place t).pending = 0 := by
    intro t ht
    by_contra hne
    have hone : (x.place t).pending = 1 := by
      generalize x.place t = q at hne
      cases q <;> first | rfl | exact (hne rfl).elim
    have hguarded : (x.place t).guarded = true := by
      generalize x.place t = q at hone
      cases q <;> first | rfl | cases hone
    refine hnone t ?_ ⟨⟨hguarded, fun hblocked => ?_⟩, h.resting t hone⟩
    · by_contra hout
      exact hne (start_counts (h.outside hq hout) 0).2.1
    · obtain ⟨q, hmem⟩ := (hq.blocked t (Finset.mem_Icc.mp ht)).mp hblocked
      obtain ⟨i, _, hawaits⟩ := hledger.waiting q t hmem
      exact hne hawaits.not_pending
  have hstored := h.stored
  rw [census, Finset.sum_eq_zero hpending, Nat.add_zero] at hstored
  exact hstored

/-- A sum over all slots whose terms come from some of the threads. -/
theorem sum_threads {M : Type*} [AddCommMonoid M] {P : Nat → Bool} {f f' : Nat → M}
    (hout : ∀ t, t ∉ threads c s → f t = 0) (hnot : ∀ t ∈ threads c s, P t = false → f t = 0)
    (hsame : ∀ t ∈ threads c s, P t = true → f t = f' t) :
    ∑ t ∈ Finset.Icc 1 c.maxThreads, f t = ∑ t ∈ (threads c s).filter (fun t => P t), f' t := by
  have hsub : (threads c s).filter (fun t => P t) ⊆ Finset.Icc 1 c.maxThreads :=
    (Finset.filter_subset _ _).trans (Finset.filter_subset _ _)
  rw [← Finset.sum_subset hsub (fun t _ ht => ?_)]
  · refine Finset.sum_congr rfl (fun t ht => ?_)
    obtain ⟨hmem, hp⟩ := Finset.mem_filter.mp ht
    exact hsame t hmem hp
  · by_cases hmem : t ∈ threads c s
    · refine hnot t hmem ?_
      rw [Finset.mem_filter, not_and, Bool.not_eq_true] at ht
      exact ht hmem
    · exact hout t hmem

/-- All threads have finished, and as many items were asked for as were made. -/
theorem Items.finished (h : Items c job nt x) (hledger : Ledger c l x) (hq : Queues c x.machine np nt l)
    (hdone : ∀ t ∈ threads c x.machine, (x.place t).finished = true)
    (htotals : ∑ t ∈ (threads c x.machine).filter (fun t => (x.place t).produces), (job t).rounds =
      ∑ t ∈ (threads c x.machine).filter (fun t => ¬ (x.place t).produces), (job t).rounds) :
    x.data.bufferCount = 0 ∧
      x.data.extracted = allItems job ((threads c x.machine).filter (fun t => (x.place t).produces)) := by
  have hstart := fun t ht => start_counts (h.outside hq (t := t) ht) (job t).rounds
  have hexit : ∀ t ∈ threads c x.machine, x.place t = .produceExit ∨ x.place t = .consumeExit := by
    intro t ht
    have hfinished := hdone t ht
    generalize x.place t = q at hfinished
    cases q <;> first | exact Or.inl rfl | exact Or.inr rfl | cases hfinished
  have hinserted : x.data.inserted =
      allItems job ((threads c x.machine).filter (fun t => (x.place t).produces)) := by
    rw [h.inserted]
    refine sum_threads (fun t ht => ?_) (fun t ht hp => ?_) (fun t ht hp => ?_)
    · rw [(hstart t ht).2.2.2.1]
      rfl
    · rcases hexit t ht with he | he
      · rw [he] at hp
        cases hp
      · rw [he]
        rfl
    · rcases hexit t ht with he | he
      · rw [he]
        rfl
      · rw [he] at hp
        cases hp
  have hextracted : Multiset.card x.data.extracted =
      ∑ t ∈ (threads c x.machine).filter (fun t => !(x.place t).produces), (job t).rounds := by
    rw [h.extracted]
    refine sum_threads (fun t ht => (hstart t ht).2.2.2.2) (fun t ht hp => ?_) (fun t ht hp => ?_)
    · rcases hexit t ht with he | he
      · rw [he]
        rfl
      · rw [he] at hp
        cases hp
    · rcases hexit t ht with he | he
      · rw [he] at hp
        cases hp
      · rw [he]
        rfl
  have hconserved := h.conserved hledger hq (fun t ht hin => by
    have hguarded := hin.1.1
    rcases hexit t ht with he | he
    all_goals
      rw [he] at hguarded
      cases hguarded)
  have hsize : Multiset.card x.data.inserted =
      ∑ t ∈ (threads c x.machine).filter (fun t => (x.place t).produces), (job t).rounds := by
    rw [hinserted, allItems, Multiset.card_sum]
    exact Finset.sum_congr rfl (fun t _ => by rw [Multiset.card_map, Multiset.card_range])
  have hempty : x.data.bufferCount.toNat = 0 := by
    have hcards := congrArg Multiset.card hconserved
    simp only [Bool.not_eq_true] at htotals
    simp only [Bool.not_eq_true'] at hextracted
    rw [hsize, htotals, Multiset.card_add, hextracted, stock, Multiset.card_map, Multiset.card_range] at hcards
    omega
  refine ⟨by have := (hledger.bounds hq).1; omega, ?_⟩
  rw [hempty] at hconserved
  rw [← hinserted, hconserved]
  exact (add_zero _).symm

end Items

/-- In every interleaving of any producers and consumers the buffer is used within its
bounds by one thread at a time, and no item is lost or duplicated. -/
theorem bounded_buffer_safe {c : Config} {job : Nat → Job} {x y : BufferClient} (start : BufferStart c x)
    {ticks : List Tick} (run : Run (ClientStep c (semThread job)) x ticks y) : BufferSafe c job y := by
  obtain ⟨np, nt, l, hq, h, k⟩ := run_ledger start run
  have hslot : ∀ t, t ∈ threads c y.machine → Slot c t :=
    fun t ht => Finset.mem_Icc.mp (Finset.mem_filter.mp ht).1
  exact ⟨h.bounds hq, fun hexec i hi => h.access hq hexec hi,
    fun t u ht hu hgt hgu => h.exclusive hq (hslot t ht) (hslot u hu) hgt hgu, k.conserved h hq, k.finished h hq⟩

/-- The counts that the demo starts with. -/
def demoCounts : Nat → Int := fun i => if i = emptySem then bufferSize else if i = bufferMutex then 1 else 0

def semaphoreDemo : BufferClient :=
  ⟨{ sampleState 0 with value := demoCounts }, fun t => if t = 1 then .consumeTest 0 else .produceTest 0,
    ⟨fun _ => 0, 0, 0, 0, 0⟩⟩

theorem semaphoreDemo_start : BufferStart sampleConfig semaphoreDemo := by
  refine ⟨⟨demoCounts, ⟨⟨_, sampleSession_boot⟩, rfl, rfl, rfl, rfl, rfl, rfl⟩, rfl, rfl, rfl⟩, fun t => ?_, rfl, rfl, rfl⟩
  unfold semaphoreDemo
  dsimp only
  split
  · exact Or.inr rfl
  · exact Or.inl rfl

/-- A consumer that waits first, and a producer, of one round each. -/
def semaphoreDemoRun : List Tick :=
  [.irq 0, .create 0x10400 0, .create 0x10400 0, .irq 0] ++ stmts 3 ++ [.irq 0] ++ stmts 9 ++ [.irq 0] ++ stmts 8 ++
    [.irq 0] ++ stmts 3 ++ [.irq 0, .irq 0] ++ stmts 3

theorem bounded_buffer_safe_sample : ∃ y,
    Run (ClientStep sampleConfig (semThread (fun _ => ⟨1, 1⟩))) semaphoreDemo semaphoreDemoRun y ∧
    BufferSafe sampleConfig (fun _ => ⟨1, 1⟩) y := by
  have hsome : (execute (clientStep sampleConfig (semThread (fun _ => ⟨1, 1⟩))) semaphoreDemo
      semaphoreDemoRun).isSome = true := by decide +kernel
  obtain ⟨y, hy⟩ := Option.isSome_iff_exists.mp hsome
  have run : Run (ClientStep sampleConfig (semThread (fun _ => ⟨1, 1⟩))) semaphoreDemo semaphoreDemoRun y :=
    run_of_execute hy
  exact ⟨y, run, bounded_buffer_safe semaphoreDemo_start run⟩

end SengKernel.Sync
