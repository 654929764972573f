import SengKernel.SchedulerState

/- The run queues: both rings hold the created entries of their table, once each
   and in creation order, so that the insertion walk and the two searches end. -/
namespace SengKernel.Sched
open BoundedLoop MachineWord LinkedRing

/-- A run queue of `n` entries: slots are handed out in order and never reused. -/
def Queue (next : Nat → Nat) (head n : Nat) : Prop :=
  (n = 0 ∧ head = 0) ∨ (head = 1 ∧ IsRing next head (List.range' 1 n))

theorem mem_queue {n p : Nat} : p ∈ List.range' 1 n ↔ 1 ≤ p ∧ p ≤ n := by
  rw [List.mem_range'_1]
  omega

theorem Queue.congr {next next' : Nat → Nat} {head n : Nat} (h : Queue next head n)
    (hsame : ∀ p, 1 ≤ p → p ≤ n → next' p = next p) : Queue next' head n := by
  refine h.imp id (fun hring => ⟨hring.1, hring.2.congr (fun p hp => ?_)⟩)
  exact hsame p (mem_queue.mp hp).1 (mem_queue.mp hp).2

theorem Queue.ring {next : Nat → Nat} {head n : Nat} (h : Queue next head n) (hn : 1 ≤ n) :
    head = 1 ∧ IsRing next head (List.range' 1 n) := by
  rcases h with ⟨hzero, _⟩ | hring
  · omega
  · exact hring

theorem Queue.head_eq_zero {next : Nat → Nat} {head : Nat} (h : Queue next head 0) : head = 0 := by
  rcases h with ⟨_, hhead⟩ | ⟨_, hring⟩
  · exact hhead
  · exact (hring.nonempty rfl).elim

theorem Queue.head_ne_zero {next : Nat → Nat} {head n : Nat} (h : Queue next head n) (hn : 1 ≤ n) : head ≠ 0 := by
  rw [(h.ring hn).1]
  decide

theorem Queue.next_bounds {next : Nat → Nat} {head n p : Nat} (h : Queue next head n)
    (hp : 1 ≤ p) (hpn : p ≤ n) : 1 ≤ next p ∧ next p ≤ n :=
  mem_queue.mp ((h.ring (hp.trans hpn)).2.next_mem (mem_queue.mpr ⟨hp, hpn⟩))

/-- The search of a run queue from one of its entries ends; it returns null
exactly when no entry is ready. -/
theorem Queue.search_spec {next : Nat → Nat} {head n m fuel : Nat} (h : Queue next head n)
    (ready : Nat → Bool) (hm : 1 ≤ m) (hmn : m ≤ n) (hfuel : n ≤ fuel) :
    ∃ r, search next ready 0 m fuel m = some r ∧
      ((r = 0 ∧ ∀ p, 1 ≤ p → p ≤ n → ready p = false) ∨ (1 ≤ r ∧ r ≤ n ∧ ready r = true)) := by
  have hnull : 0 ∉ List.range' 1 n := by
    rw [mem_queue]
    omega
  have hlen : (List.range' 1 n).length ≤ fuel := by rwa [List.length_range']
  obtain ⟨r, hsearch, hr⟩ := (h.ring (hm.trans hmn)).2.search_spec (mem_queue.mpr ⟨hm, hmn⟩) hnull hlen
  refine ⟨r, hsearch, ?_⟩
  rcases hr with ⟨hzero, hnone⟩ | ⟨_, hmem, hready⟩
  · exact Or.inl ⟨hzero, fun p hp hpn => hnone p (mem_queue.mpr ⟨hp, hpn⟩)⟩
  · exact Or.inr ⟨(mem_queue.mp hmem).1, (mem_queue.mp hmem).2, hready⟩

/-- Both searches of the scheduler are this one, on their own table. -/
theorem Queue.findNext_spec {next : Nat → Nat} {head current n fuel : Nat} (h : Queue next head n)
    (hcurrent : current ≤ n) (hfuel : n ≤ fuel) (ready : Nat → Bool) {found : Option Nat}
    (hfound : found = if head = 0 then some 0 else if (if current ≠ 0 then next current else head) = 0 then some 0
      else search next ready 0 (if current ≠ 0 then next current else head) fuel
        (if current ≠ 0 then next current else head)) :
    ∃ r, found = some r ∧
      ((r = 0 ∧ ∀ p, 1 ≤ p → p ≤ n → ready p = false) ∨ (1 ≤ r ∧ r ≤ n ∧ ready r = true)) := by
  rcases Nat.eq_zero_or_pos n with rfl | hpos
  · refine ⟨0, by rw [hfound, if_pos h.head_eq_zero], Or.inl ⟨rfl, ?_⟩⟩
    intro p hp hp0
    omega
  · have hstart : 1 ≤ (if current ≠ 0 then next current else head) ∧ (if current ≠ 0 then next current else head) ≤ n := by
      split
      · rename_i hne
        exact h.next_bounds (Nat.pos_of_ne_zero hne) hcurrent
      · rw [(h.ring hpos).1]
        exact ⟨Nat.le_refl 1, hpos⟩
    rw [hfound, if_neg (h.head_ne_zero hpos), if_neg (Nat.ne_of_gt hstart.1)]
    exact h.search_spec ready hstart.1 hstart.2 hfuel

/-- The insertion of entry `n + 1` behind the last of `n` entries. -/
theorem Queue.insert {next : Nat → Nat} {head n fuel : Nat} (h : Queue next head n) (hn : 1 ≤ n)
    (hfuel : n ≤ fuel) :
    ∃ last, 1 ≤ last ∧ last ≤ n ∧ walkToLast next head fuel head = some last ∧
      Queue (Function.update (Function.update next last (n + 1)) (n + 1) head) head (n + 1) := by
  obtain ⟨hhead, hring⟩ := h.ring hn
  have hnew : n + 1 ∉ List.range' 1 n := by
    rw [mem_queue]
    omega
  have hlen : (List.range' 1 n).length ≤ fuel := by rwa [List.length_range']
  obtain ⟨last, hlast, hwalk, hnext⟩ := hring.insert hnew hlen
  refine ⟨last, (mem_queue.mp hlast).1, (mem_queue.mp hlast).2, hwalk, Or.inr ⟨hhead, ?_⟩⟩
  rw [List.range'_concat, Nat.one_mul, Nat.add_comm 1 n]
  exact hnext

theorem Queue.first (next : Nat → Nat) : Queue (Function.update next 1 1) 1 1 :=
  Or.inr ⟨rfl, isRing_single next 1⟩

section Updates

variable (k : Kernel) (p t : Nat)

@[simp] theorem setProc_self (f : Pcb → Pcb) : (setProc k p f).pcbTable p = f (k.pcbTable p) :=
  Function.update_self ..

theorem setProc_of_ne {q : Nat} (f : Pcb → Pcb) (h : q ≠ p) :
    (setProc k p f).pcbTable q = k.pcbTable q := Function.update_of_ne h ..

@[simp] theorem setThread_self (f : Thread → Thread) :
    (setThread k t f).threadTable t = f (k.threadTable t) := Function.update_self ..

theorem setThread_of_ne {u : Nat} (f : Thread → Thread) (h : u ≠ t) :
    (setThread k t f).threadTable u = k.threadTable u := Function.update_of_ne h ..

theorem procNext_setProc_next (n : Nat) :
    procNext (setProc k p (fun q => { q with next := n })) = Function.update (procNext k) p n := by
  funext q
  by_cases hq : q = p
  · subst q
    simp [procNext]
  · simp [procNext, setProc_of_ne, hq]

theorem threadNext_setThread_next (n : Nat) :
    threadNext (setThread k t (fun u => { u with next := n })) = Function.update (threadNext k) t n := by
  funext u
  by_cases hu : u = t
  · subst u
    simp [threadNext]
  · simp [threadNext, setThread_of_ne, hu]

/-- An update of other fields leaves the links alone. -/
theorem procNext_setProc {f : Pcb → Pcb} (hf : ∀ q, (f q).next = q.next) :
    procNext (setProc k p f) = procNext k := by
  funext q
  by_cases hq : q = p
  · subst q
    simp [procNext, hf]
  · simp [procNext, setProc_of_ne, hq]

theorem threadNext_setThread {f : Thread → Thread} (hf : ∀ u, (f u).next = u.next) :
    threadNext (setThread k t f) = threadNext k := by
  funext u
  by_cases hu : u = t
  · subst u
    simp [threadNext, hf]
  · simp [threadNext, setThread_of_ne, hu]

end Updates

/-- Entry `n + 1` joins the process ring; nothing but links changes. -/
theorem schedulerAddProcess_spec {k : Kernel} {n : Nat} (h : Queue (procNext k) k.readyHead n)
    (hn : n < 16) :
    ∃ k', schedulerAddProcess k (n + 1) = some k' ∧ Queue (procNext k') k'.readyHead (n + 1) ∧
      (∀ p, k'.pcbTable p = { k.pcbTable p with next := procNext k' p }) ∧
      k' = { k with pcbTable := k'.pcbTable, readyHead := k'.readyHead } := by
  rcases Nat.eq_zero_or_pos n with rfl | hpos
  · refine ⟨_, by rw [schedulerAddProcess, if_neg (by decide), if_pos h.head_eq_zero], ?_, ?_, rfl⟩
    · rw [procNext_setProc_next]
      exact Queue.first _
    · intro p
      by_cases hp : p = 0 + 1
      · subst p
        simp [procNext]
      · simp [procNext, setProc_of_ne, hp]
  · obtain ⟨last, hlast, hlastn, hwalk, hqueue⟩ := h.insert hpos (Nat.le_of_lt hn)
    refine ⟨_, by rw [schedulerAddProcess, if_neg (Nat.succ_ne_zero n), if_neg (h.head_ne_zero hpos), hwalk], ?_, ?_, rfl⟩
    · rw [procNext_setProc_next, procNext_setProc_next]
      exact hqueue
    · intro p
      by_cases hp : p = n + 1
      · subst p
        simp [procNext, setProc_of_ne, show n + 1 ≠ last by omega]
      · by_cases hpl : p = last
        · subst p
          simp [procNext, setProc_of_ne, hp]
        · simp [procNext, setProc_of_ne, hp, hpl]

theorem schedulerAddThread_spec {c : Config} {k : Kernel} {n : Nat}
    (h : Queue (threadNext k) k.threadHead n) (hn : n < c.maxThreads) :
    ∃ k', schedulerAddThread c k (n + 1) = some k' ∧ Queue (threadNext k') k'.threadHead (n + 1) ∧
      (∀ t, k'.threadTable t = { k.threadTable t with next := threadNext k' t }) ∧
      k' = { k with threadTable := k'.threadTable, threadHead := k'.threadHead } := by
  rcases Nat.eq_zero_or_pos n with rfl | hpos
  · refine ⟨_, by rw [schedulerAddThread, if_neg (by decide), if_pos h.head_eq_zero], ?_, ?_, rfl⟩
    · rw [threadNext_setThread_next]
      exact Queue.first _
    · intro t
      by_cases ht : t = 0 + 1
      · subst t
        simp [threadNext]
      · simp [threadNext, setThread_of_ne, ht]
  · obtain ⟨last, hlast, hlastn, hwalk, hqueue⟩ := h.insert hpos (Nat.le_of_lt hn)
    refine ⟨_, by rw [schedulerAddThread, if_neg (Nat.succ_ne_zero n), if_neg (h.head_ne_zero hpos), hwalk], ?_, ?_, rfl⟩
    · rw [threadNext_setThread_next, threadNext_setThread_next]
      exact hqueue
    · intro t
      by_cases ht : t = n + 1
      · subst t
        simp [threadNext, setThread_of_ne, show n + 1 ≠ last by omega]
      · by_cases htl : t = last
        · subst t
          simp [threadNext, setThread_of_ne, ht]
        · simp [threadNext, setThread_of_ne, ht, htl]

/-- The tables after `np` processes and `nt` threads were created. -/
structure Tables (c : Config) (k : Kernel) (np nt : Nat) : Prop where
  procCount : np ≤ 16
  threadCount : nt ≤ c.maxThreads
  nextPid : k.nextPid = np + 1
  created : ∀ p, 1 ≤ p → p ≤ np → (k.pcbTable p).pid = p
  freePcb : ∀ p, np < p → p ≤ 16 → (k.pcbTable p).pid = 0 ∧ (k.pcbTable p).state = .zombie
  usedThread : ∀ t, 1 ≤ t → t ≤ nt → (k.threadTable t).state ≠ .unused
  freeThread : ∀ t, nt < t → t ≤ c.maxThreads → (k.threadTable t).state = .unused
  procRing : Queue (procNext k) k.readyHead np
  threadRing : Queue (threadNext k) k.threadHead nt
  currentProc : k.current ≤ np
  currentThread : k.currentSchedThread ≤ nt
  runningThread : k.currentThread ≤ nt

section Searches

variable {c : Config} {k : Kernel} {np nt : Nat}

theorem Tables.findNextProcess_spec (h : Tables c k np nt) :
    ∃ r, findNextProcess k = some r ∧
      ((r = 0 ∧ ∀ p, 1 ≤ p → p ≤ np → (k.pcbTable p).state ≠ .ready) ∨
        (1 ≤ r ∧ r ≤ np ∧ (k.pcbTable r).state = .ready)) := by
  obtain ⟨r, hfound, hr⟩ :=
    h.procRing.findNext_spec h.currentProc h.procCount (fun p => (k.pcbTable p).state = .ready) rfl
  exact ⟨r, hfound, by simpa using hr⟩

theorem Tables.findNextThread_spec (h : Tables c k np nt) :
    ∃ r, findNextThread c k = some r ∧
      ((r = 0 ∧ ∀ t, 1 ≤ t → t ≤ nt → (k.threadTable t).state ≠ .ready) ∨
        (1 ≤ r ∧ r ≤ nt ∧ (k.threadTable r).state = .ready)) := by
  obtain ⟨r, hfound, hr⟩ :=
    h.threadRing.findNext_spec h.currentThread h.threadCount (fun t => (k.threadTable t).state = .ready) rfl
  exact ⟨r, hfound, by simpa using hr⟩

end Searches

end SengKernel.Sched
