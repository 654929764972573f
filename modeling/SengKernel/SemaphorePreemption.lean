import SengKernel.WakeupPreemption

/- Tokens of one semaphore under timer preemption, whatever else its threads lock, wait
   for and signal. Every sem_signal call brings one token; the count, a signal still at
   work and a waiter already woken hold one each. The invariant says nothing of the wait
   queues, which interrupts may ruin. -/
namespace SengKernel.Sync
open Sched MachineWord Transition

/-- The machine with the history of one semaphore: waits granted, signals started. -/
structure Account where
  state : State
  granted : Nat
  signals : Nat

/-- The statements that end a `sem_wait` with its token: the decrement, and the
return of a woken waiter. -/
def Pc.grants (i : Nat) : Pc → Bool
  | .waitTake j _ => j = i
  | .resumed q => q = .semaphore i
  | _ => false

def accountStep (c : Config) (i : Nat) (a : Account) (l : Label) : Option Account :=
  (step c a.state l).map (fun s =>
    { state := s
      granted := a.granted + if isStmt l ∧ (a.state.pc (running a.state)).grants i then 1 else 0
      signals := a.signals + if l = .call (.signal i) then 1 else 0 })

def AccountStep (c : Config) (i : Nat) (a : Account) (l : Label) (b : Account) : Prop :=
  accountStep c i a l = some b

/-- Threads that call `sem_wait` and `sem_signal` on the semaphore in any order. -/
def WaitsAndSignals (i : Nat) (_ : Account) : Label → Prop
  | .call op => op = .wait i ∨ op = .signal i
  | _ => True

def Pc.decrements (i : Nat) : Pc → Bool
  | .waitTake j _ => j = i
  | _ => false

def Pc.increments (i : Nat) : Pc → Bool
  | .signalInc j => j = i
  | _ => false

/-- In `sem_wait` on `i`, stopped or woken. -/
def Pc.sleepsOn (i : Nat) : Pc → Bool
  | .yield q | .resumed q => q = .semaphore i
  | _ => false

theorem Pc.object_of_sleepsOn {i : Nat} {p : Pc} (h : p.sleepsOn i = true) : p.object = some (.semaphore i) := by
  cases p with
  | yield q => exact congrArg some (of_decide_eq_true h)
  | resumed q => exact congrArg some (of_decide_eq_true h)
  | _ => cases h

theorem Pc.sleepsOn_le (i : Nat) (p : Pc) :
    (if p.sleepsOn i then 1 else 0) ≤ (if p.role = .asleep then 1 else 0 : Nat) := by
  cases p with
  | yield q => split <;> simp [Pc.role]
  | resumed q => split <;> simp [Pc.role]
  | _ => exact Nat.zero_le _

/-- `thread->state = THREAD_READY` for a BLOCKED waiter of `i`, on behalf of another object. -/
def Pc.mistakes (i : Nat) (s : State) : Pc → Bool
  | .wake q next => q ≠ .semaphore i ∧ (s.pc next).sleepsOn i ∧ threadState s next = .blocked
  | _ => false

/-- No interrupt between the test that found a token and its decrement, and no increment
past the largest `int`. -/
structure UncutTest (i : Nat) (a : Account) (l : Label) : Prop where
  test : isIrq l = true → (a.state.pc (running a.state)).decrements i = false
  limit : isStmt l = true → (a.state.pc (running a.state)).increments i = true → a.state.value i < 2147483647

/-- Nor is a waiter woken on behalf of another object. -/
structure UncutDecrement (i : Nat) (a : Account) (l : Label) : Prop extends UncutTest i a l where
  waker : isStmt l = true → (a.state.pc (running a.state)).mistakes i a.state = false

instance (i : Nat) (a : Account) : ∀ l : Label, Decidable (WaitsAndSignals i a l)
  | .call _ => inferInstanceAs (Decidable (_ ∨ _))
  | .irq _ | .create _ _ | .stmt _ => .isTrue trivial

instance (i : Nat) (a : Account) (l : Label) : Decidable (UncutTest i a l) :=
  decidable_of_iff (_ ∧ _) ⟨fun h => ⟨h.1, h.2⟩, fun h => ⟨h.test, h.limit⟩⟩

instance (i : Nat) (a : Account) (l : Label) : Decidable (UncutDecrement i a l) :=
  decidable_of_iff (_ ∧ _) ⟨fun h => ⟨h.1, h.2⟩, fun h => ⟨h.toUncutTest, h.waker⟩⟩

/-- What the users of the semaphore rely on. -/
def TokenSafe (i : Nat) (v : Int) (a : Account) : Prop :=
  (a.granted : Int) ≤ v + a.signals ∧ 0 ≤ a.state.value i

theorem wrap32_of_mem {v : Int} (hlow : -2147483648 ≤ v) (hhigh : v < 2147483648) : wrap32 v = v :=
  Int.bmod_eq_of_le (by simpa using hlow) (by simpa using hhigh)

/-- Two sums that differ at one index only. -/
theorem sum_move {ι : Type*} [DecidableEq ι] {S : Finset ι} {f g : ι → Nat} {t : ι} (ht : t ∈ S)
    (h : ∀ u, u ≠ t → f u = g u) : S.sum f + g t = S.sum g + f t := by
  have hrest : (S.erase t).sum f = (S.erase t).sum g :=
    Finset.sum_congr rfl (fun u hu => h u (Finset.ne_of_mem_erase hu))
  have hf : f t + (S.erase t).sum f = S.sum f := Finset.add_sum_erase S f ht
  have hg : g t + (S.erase t).sum g = S.sum g := Finset.add_sum_erase S g ht
  omega

section Tokens

variable {c : Config} {i : Nat} {s s' : State}

/-- A signal at work holds a token, and so does a waiter that has been woken. -/
def carried (p : Pc) (st : ThreadState) : Nat :=
  match p.role with
  | .releasing => 1
  | .asleep => if st = .blocked then 0 else 1
  | _ => 0

/-- The token of `i` that a thread holds. -/
def token (i : Nat) (p : Pc) (st : ThreadState) : Nat := if p.object = some (.semaphore i) then carried p st else 0

def tokenOf (i : Nat) (s : State) (t : Nat) : Nat := token i (s.pc t) (threadState s t)

def tokens (c : Config) (i : Nat) (s : State) : Nat := (Finset.range (c.maxThreads + 1)).sum (tokenOf i s)

theorem carried_le (p : Pc) (st : ThreadState) : carried p st ≤ 1 := by
  unfold carried
  split
  · exact Nat.le_refl 1
  · split <;> decide
  · decide

theorem token_le_carried (i : Nat) (p : Pc) (st : ThreadState) : token i p st ≤ carried p st := by
  unfold token
  split
  · exact Nat.le_refl _
  · exact Nat.zero_le _

theorem token_le (i : Nat) (p : Pc) (st : ThreadState) : token i p st ≤ 1 := (token_le_carried i p st).trans (carried_le p st)

theorem token_of_ne {p : Pc} (h : p.object ≠ some (.semaphore i)) (st : ThreadState) : token i p st = 0 := if_neg h

/-- Only of those asleep does it matter whether they are BLOCKED. -/
theorem token_awake {p : Pc} (h : p.sleepsOn i = false) (st st' : ThreadState) : token i p st = token i p st' := by
  cases p with
  | yield q =>
      have hq : (Pc.yield q).object ≠ some (.semaphore i) := fun heq => of_decide_eq_false h (Option.some.inj heq)
      rw [token_of_ne hq, token_of_ne hq]
  | resumed q =>
      have hq : (Pc.resumed q).object ≠ some (.semaphore i) := fun heq => of_decide_eq_false h (Option.some.inj heq)
      rw [token_of_ne hq, token_of_ne hq]
  | _ => rfl

theorem token_congr {p : Pc} {st st' : ThreadState} (h : st = .blocked ↔ st' = .blocked) :
    token i p st = token i p st' := by
  unfold token carried
  simp only [h]

theorem tokens_congr (hpc : s'.pc = s.pc) (h : ∀ t, threadState s' t = .blocked ↔ threadState s t = .blocked) :
    tokens c i s' = tokens c i s :=
  Finset.sum_congr rfl (fun t _ => by rw [tokenOf, tokenOf, hpc, token_congr (h t)])

theorem tokens_goto {t : Nat} (ht : t ≤ c.maxThreads) (p : Pc) :
    tokens c i (goto s t p) + tokenOf i s t = tokens c i s + token i p (threadState s t) := by
  have hmem : t ∈ Finset.range (c.maxThreads + 1) := Finset.mem_range.mpr (Nat.lt_succ_of_le ht)
  have hmove := sum_move hmem (fun u hu => show tokenOf i (goto s t p) u = tokenOf i s u by
    rw [tokenOf, goto_pc_of_ne _ _ hu]
    rfl)
  have hself : tokenOf i (goto s t p) t = token i p (threadState s t) := by
    rw [tokenOf, goto_pc_self]
    rfl
  rw [hself] at hmove
  exact hmove

/-- Waking a thread makes at most one more token of it. -/
theorem tokens_wake (next : Nat) : tokens c i (setThreadState s next .ready) ≤ tokens c i s + 1 := by
  have hother : ∀ u, u ≠ next → tokenOf i (setThreadState s next .ready) u = tokenOf i s u := by
    intro u hu
    rw [tokenOf, setThreadState_threadState, if_neg hu]
    rfl
  by_cases hmem : next ∈ Finset.range (c.maxThreads + 1)
  · have hmove := sum_move hmem hother
    have := token_le i ((setThreadState s next .ready).pc next) (threadState (setThreadState s next .ready) next)
    simp only [tokens, tokenOf] at hmove ⊢
    omega
  · have heq : tokens c i (setThreadState s next .ready) = tokens c i s :=
      Finset.sum_congr rfl (fun u hu => hother u (fun heq => hmem (heq ▸ hu)))
    omega

/-- Of a thread that waits for something else, or is not BLOCKED, it makes none. -/
theorem tokens_wake_other {next : Nat} (h : (s.pc next).sleepsOn i = true → threadState s next ≠ .blocked) :
    tokens c i (setThreadState s next .ready) = tokens c i s := by
  apply Finset.sum_congr rfl
  intro u _
  by_cases hu : u = next
  · subst u
    have hready : threadState (setThreadState s next .ready) next = .ready := by
      rw [setThreadState_threadState, if_pos rfl]
    cases hsleeps : (s.pc next).sleepsOn i with
    | false => exact token_awake hsleeps _ _
    | true =>
        apply token_congr
        rw [hready]
        exact iff_of_false ThreadState.noConfusion (h hsleeps)
  · rw [tokenOf, setThreadState_threadState, if_neg hu]
    rfl

/-- A statement other than the waking one moves the tokens of its own thread only. -/
theorem tokens_exec {np nt t : Nat} (h : Base c s np nt) (ht : t ≤ c.maxThreads)
    (hwake : ∀ q next, s.pc t ≠ .wake q next) :
    tokens c i (exec s t (s.pc t)) + tokenOf i s t = tokens c i s + tokenOf i (exec s t (s.pc t)) t := by
  have hmem : t ∈ Finset.range (c.maxThreads + 1) := Finset.mem_range.mpr (Nat.lt_succ_of_le ht)
  refine sum_move hmem (fun u hu => ?_)
  rw [tokenOf, tokenOf, exec_pc_of_ne _ _ hu, exec_threadState_of_ne h hu hwake]

end Tokens

/-- The invariant: tokens spent, on hand and in transit never exceed those supplied. -/
structure Balanced (c : Config) (i : Nat) (v : Int) (a : Account) : Prop where
  base : ∃ np nt, Base c a.state np nt
  nonneg : 0 ≤ a.state.value i
  bounded : a.state.value i < 2147483648
  balance : (a.granted : Int) + a.state.value i + tokens c i a.state ≤ v + a.signals
  deciding : ∀ t cur, a.state.pc t = .waitTake i cur → t = running a.state ∧ 0 < a.state.value i

section Steps

variable {c : Config} {i : Nat} {v : Int} {a b : Account}

/-- What interrupts, creations and yields leave: the same tokens. -/
theorem Balanced.frame {s : State} (h : Balanced c i v a) (hbase : ∃ np nt, Base c s np nt)
    (hframe : s = { a.state with kernel := s.kernel })
    (hblocked : ∀ t, threadState s t = .blocked ↔ threadState a.state t = .blocked)
    (hrunning : ∀ t cur, a.state.pc t = .waitTake i cur → running s = running a.state) :
    Balanced c i v { a with state := s } := by
  have hpc : s.pc = a.state.pc := by rw [hframe]
  have hvalue : s.value = a.state.value := by rw [hframe]
  refine ⟨hbase, ?_, ?_, ?_, ?_⟩
  · rw [hvalue]
    exact h.nonneg
  · rw [hvalue]
    exact h.bounded
  · rw [hvalue, tokens_congr hpc hblocked]
    exact h.balance
  · intro t cur hp
    rw [hpc] at hp
    rw [hvalue, hrunning t cur hp]
    exact h.deciding t cur hp

/-- Only the running thread can come to stand at the decrement. -/
theorem Balanced.decider {s : State} {t cur : Nat} (h : Balanced c i v a)
    (hothers : ∀ u, u ≠ running a.state → s.pc u = a.state.pc u) (hp : s.pc t = .waitTake i cur) :
    t = running a.state := by
  by_contra hne
  rw [hothers t hne] at hp
  exact hne (h.deciding t cur hp).1

theorem exec_value {s : State} {t : Nat} {p : Pc} (htake : ∀ cur, p ≠ .waitTake i cur) (hinc : p ≠ .signalInc i) :
    (exec s t p).value i = s.value i := by
  cases p with
  | waitTake j cur => exact Function.update_of_ne (fun h => htake cur (by rw [h])) ..
  | signalInc j => exact Function.update_of_ne (fun h => hinc (by rw [h])) ..
  | _ => rfl

/-- A statement of a call on another object leaves its thread without a token of `i`. -/
theorem exec_token_other {s : State} {t : Nat} (h : (s.pc t).object ≠ some (.semaphore i)) :
    tokenOf i (exec s t (s.pc t)) t = 0 := by
  apply token_of_ne
  rcases exec_object (s.pc t) rfl with hnone | hsame
  · rw [hnone]
    exact (Option.some_ne_none _).symm
  · rw [hsame]
    exact h

/-- No statement gives its own thread a token; the return after a yield takes one
away, for the thread that executes it is not BLOCKED. -/
theorem exec_carried {s : State} {np nt : Nat} (h : Base c s np nt) (hrun : running s ≠ 0)
    (hyield : ∀ q, s.pc (running s) ≠ .yield q) :
    carried ((exec s (running s) (s.pc (running s))).pc (running s))
        (threadState (exec s (running s) (s.pc (running s))) (running s)) +
      (if (s.pc (running s)).role = .asleep then 1 else 0) ≤
        carried (s.pc (running s)) (threadState s (running s)) := by
  have hcur : ∀ cur, (s.pc (running s)).current = some cur → cur ≠ 0 :=
    fun cur hc => h.current _ cur hc ▸ hrun
  have hblock : ∀ q cur, s.pc (running s) = .block q cur →
      threadState (exec s (running s) (s.pc (running s))) (running s) = .blocked := by
    intro q cur hp
    have : cur = running s := h.current _ cur (by rw [hp]; rfl)
    rw [hp, exec]
    exact (setThreadState_threadState s cur (running s) .blocked).trans (if_pos this.symm)
  have hawake : ∀ q, s.pc (running s) = .resumed q → threadState s (running s) ≠ .blocked := by
    intro q hp hblocked
    obtain ⟨q', hq'⟩ := h.awake hrun hblocked
    rw [hp] at hq'
    cases hq'
  cases hp : s.pc (running s) with
  | yield q => exact (hyield q hp).elim
  | block q cur =>
      have hst := hblock q cur hp
      rw [hp] at hst
      rw [hst]
      simp [carried, exec, Pc.role]
  | resumed q => simp [carried, exec, Pc.role, hawake q hp]
  | blockTest q cur =>
      have := hcur cur (by rw [hp]; rfl)
      simp [carried, exec, Pc.role, this]
  | _ =>
      simp only [exec, goto_pc_self, hp, Pc.role, reduceCtorEq, if_false, Nat.add_zero]
      (try split) <;> simp [carried, Pc.role]

theorem exec_token {s : State} {np nt : Nat} (h : Base c s np nt) (hrun : running s ≠ 0)
    (hyield : ∀ q, s.pc (running s) ≠ .yield q) :
    tokenOf i (exec s (running s) (s.pc (running s))) (running s) +
      (if (s.pc (running s)).sleepsOn i then 1 else 0) ≤ tokenOf i s (running s) := by
  by_cases hobject : (s.pc (running s)).object = some (.semaphore i)
  · have hcarried := exec_carried h hrun hyield
    have hold : tokenOf i s (running s) = carried (s.pc (running s)) (threadState s (running s)) := if_pos hobject
    have hnew := token_le_carried i ((exec s (running s) (s.pc (running s))).pc (running s))
      (threadState (exec s (running s) (s.pc (running s))) (running s))
    have hsleeps := Pc.sleepsOn_le i (s.pc (running s))
    rw [hold, tokenOf]
    omega
  · have hawake : (s.pc (running s)).sleepsOn i = false := by
      by_contra hsleeps
      exact hobject (Pc.object_of_sleepsOn ((Bool.not_eq_false _).mp hsleeps))
    rw [exec_token_other hobject, hawake]
    exact Nat.zero_le _

/-- Besides the decrement only the return of a waiter grants. -/
theorem grants_le {p : Pc} (hp : ∀ cur, p ≠ .waitTake i cur) :
    (if p.grants i then 1 else 0 : Nat) ≤ if p.sleepsOn i then 1 else 0 := by
  cases p with
  | waitTake j cur =>
      have hne : j ≠ i := fun h => hp cur (by rw [h])
      simp [Pc.grants, hne]
  | resumed q => exact Nat.le_refl _
  | _ => exact Nat.zero_le _

/-- The token of a signal that ends goes to the waiter that it wakes, if there is one. -/
theorem wake_tokens {s : State} {q : Object} {next : Nat} (hmax : running s ≤ c.maxThreads)
    (hp : s.pc (running s) = .wake q next) (hown : (s.pc (running s)).mistakes i s = false) :
    tokens c i (exec s (running s) (.wake q next)) ≤ tokens c i s := by
  have hgoto := tokens_goto (i := i) (s := setThreadState s next .ready) hmax .idle
  have hidle : token i .idle (threadState (setThreadState s next .ready) (running s)) = 0 := rfl
  rw [hidle] at hgoto
  have hpc : (setThreadState s next .ready).pc (running s) = .wake q next := hp
  by_cases hq : q = .semaphore i
  · have hwake := tokens_wake (c := c) (i := i) (s := s) next
    have hold : tokenOf i (setThreadState s next .ready) (running s) = 1 := by
      rw [tokenOf, hpc, hq]
      simp [token, carried, Pc.role, Pc.object]
    rw [exec]
    omega
  · rw [hp] at hown
    have hother : (s.pc next).sleepsOn i = true → threadState s next ≠ .blocked :=
      fun hsleeps hblocked => of_decide_eq_false hown ⟨hq, hsleeps, hblocked⟩
    rw [exec, ← tokens_wake_other (c := c) hother]
    omega

/-- What a statement does to the count, the tokens and the history, by its place. -/
theorem Balanced.statement (h : Balanced c i v a) {np nt : Nat} (hbase : Base c a.state np nt)
    (hrun : running a.state ≠ 0)
    (hyield : ∀ q, a.state.pc (running a.state) ≠ .yield q)
    (hmax : (a.state.pc (running a.state)).increments i = true → a.state.value i < 2147483647)
    (hown : (a.state.pc (running a.state)).mistakes i a.state = false) :
    let s' := exec a.state (running a.state) (a.state.pc (running a.state))
    0 ≤ s'.value i ∧ s'.value i < 2147483648 ∧
    ((if (a.state.pc (running a.state)).grants i then 1 else 0 : Nat) : Int) + s'.value i + tokens c i s' ≤
      a.state.value i + tokens c i a.state := by
  have hmax' := hbase.running_le
  have hnonneg := h.nonneg
  have hbounded := h.bounded
  have htoken := exec_token (i := i) hbase hrun hyield
  intro s'
  by_cases htake : ∃ cur, a.state.pc (running a.state) = .waitTake i cur
  · -- the token on hand is spent
    obtain ⟨cur, hp⟩ := htake
    have hpos := (h.deciding _ cur hp).2
    have hmove := tokens_exec (i := i) hbase hmax' (fun q next hq => by rw [hp] at hq; cases hq)
    have hvalue : s'.value i = a.state.value i - 1 := by
      simp only [s', hp, exec, goto, setValue, Function.update_self]
      exact wrap32_of_mem (by omega) (by omega)
    have hgrants : (a.state.pc (running a.state)).grants i = true := by simp [hp, Pc.grants]
    have hawake : (a.state.pc (running a.state)).sleepsOn i = false := by
      rw [hp]
      rfl
    rw [hawake] at htoken
    rw [hvalue, if_pos hgrants]
    simp only [s'] at *
    omega
  by_cases hinc : a.state.pc (running a.state) = .signalInc i
  · -- the token of the signal goes on hand
    have hlt := hmax (by simp [hinc, Pc.increments])
    have hmove := tokens_exec (i := i) hbase hmax' (fun q next hq => by rw [hinc] at hq; cases hq)
    have hvalue : s'.value i = a.state.value i + 1 := by
      simp only [s', hinc, exec, goto, setValue, Function.update_self]
      exact wrap32_of_mem (by omega) (by omega)
    have hold : tokenOf i a.state (running a.state) = 1 := by simp [tokenOf, token, carried, hinc, Pc.role, Pc.object]
    have hnew : tokenOf i s' (running a.state) = 0 := by simp [s', tokenOf, token, exec, hinc, Pc.object]
    have hgrants : (a.state.pc (running a.state)).grants i = false := by simp [hinc, Pc.grants]
    rw [hvalue, hgrants]
    simp only [s', Bool.false_eq_true, if_false] at *
    omega
  · have hplain : ∀ cur, a.state.pc (running a.state) ≠ .waitTake i cur := fun cur hp => htake ⟨cur, hp⟩
    have hvalue : s'.value i = a.state.value i := exec_value hplain hinc
    rw [hvalue]
    refine ⟨hnonneg, hbounded, ?_⟩
    have hgrants := grants_le hplain
    by_cases hwake : ∃ q next, a.state.pc (running a.state) = .wake q next
    · obtain ⟨q, next, hp⟩ := hwake
      have hle := wake_tokens hmax' hp hown
      simp only [s', hp, Pc.sleepsOn, Bool.false_eq_true, if_false] at *
      omega
    · have hmove := tokens_exec (i := i) hbase hmax' (fun q next hq => hwake ⟨q, next, hq⟩)
      simp only [s'] at *
      omega

end Steps

/-- A thread reaches the decrement only with a token on hand. -/
theorem exec_deciding {s : State} {t i cur : Nat} (hidle : (s.pc t).isIdle = false)
    (hp : (exec s t (s.pc t)).pc t = .waitTake i cur) : 0 < (exec s t (s.pc t)).value i := by
  cases hpc : s.pc t with
  | idle =>
      rw [hpc] at hidle
      cases hidle
  | waitTest j cur' =>
      rw [hpc] at hp
      simp only [exec, goto_pc_self] at hp
      split at hp
      · rename_i hpos
        cases hp
        exact hpos
      · cases hp
  | _ =>
      rw [hpc] at hp
      simp only [exec, goto_pc_self] at hp
      (try split at hp) <;> cases hp

/-- A call brings a token if it is a signal. -/
theorem entry_token (i : Nat) (op : Op) (st : ThreadState) :
    token i (entry op) st = if op = .signal i then 1 else 0 := by
  cases op with
  | signal j => simp [entry, token, carried, Pc.role, Pc.object]
  | wait j =>
      have hcarried : carried (.waitEntry j) st = 0 := rfl
      rw [entry, token, hcarried, ite_self]
      rfl
  | _ => rfl

/-- One step of the account, with what the scheduler invariant adds. -/
theorem balanced_step {c : Config} {i : Nat} {v : Int} {a b : Account} {l : Label}
    (h : Balanced c i v a) (huncut : UncutDecrement i a l) (hstep : AccountStep c i a l b) : Balanced c i v b := by
  obtain ⟨s', hs', rfl⟩ := Option.map_eq_some_iff.mp hstep
  have hbase' := base_step h.base hs'
  obtain ⟨np, nt, hbase⟩ := h.base
  rcases step_cases hs' with ⟨e, rfl, hirq⟩ | ⟨fn, arg, rfl, hcreate⟩ | ⟨op, rfl, hrun, hidle, rfl⟩ |
    ⟨e, q, rfl, hrun, hp, hirq⟩ | ⟨e, rfl, hrun, hidle, hyield, rfl⟩
  · have hspec := (interrupt_spec hbase.coherent hirq).2
    refine (h.frame hbase' hspec.frame hspec.blocked (fun t cur hp => ?_))
    have := h.deciding t cur hp
    have hcut := huncut.test rfl
    rw [← this.1, hp] at hcut
    simp [Pc.decrements] at hcut
  · obtain ⟨_, _, _, hspawn⟩ := create_spec hbase.coherent hcreate
    exact h.frame hbase' hspawn.frame hspawn.blocked (fun _ _ _ => hspawn.running)
  · have hmove := tokens_goto (i := i) (s := a.state) hbase.running_le (entry op)
    have hold : tokenOf i a.state (running a.state) = 0 := by
      rw [tokenOf, Pc.eq_idle hidle]
      rfl
    have hbalance := h.balance
    refine ⟨hbase', h.nonneg, h.bounded, ?_, fun t cur hp => ?_⟩
    · have hbrings := entry_token i op (threadState a.state (running a.state))
      simp only [isStmt, Bool.false_eq_true, false_and, if_false, Label.call.injEq, Nat.add_zero]
      change (a.granted : Int) + a.state.value i + _ ≤ _
      omega
    · rw [h.decider (fun u hu => goto_pc_of_ne _ _ hu) hp, goto_pc_self] at hp
      cases op <;> cases hp
  · have hspec := (interrupt_spec (s := goto a.state (running a.state) (.resumed q)) hbase.coherent hirq).2
    have hvalue : s'.value = a.state.value := by rw [hspec.frame]; rfl
    have hpc : s'.pc = (goto a.state (running a.state) (.resumed q)).pc := by rw [hspec.frame]
    have hmove := tokens_goto (i := i) (s := a.state) hbase.running_le (.resumed q)
    have hsame : tokenOf i a.state (running a.state) = token i (.resumed q) (threadState a.state (running a.state)) := by
      rw [tokenOf, hp]
      rfl
    have htokens := tokens_congr (c := c) (i := i) hpc hspec.blocked
    have hbalance := h.balance
    refine ⟨hbase', ?_, ?_, ?_, fun t cur hp' => ?_⟩
    · change 0 ≤ s'.value i
      rw [hvalue]
      exact h.nonneg
    · change s'.value i < _
      rw [hvalue]
      exact h.bounded
    · simp only [hp, Pc.grants, isStmt, Bool.false_eq_true, and_false, if_false, reduceCtorEq, Nat.add_zero, hvalue]
      omega
    · rw [hpc] at hp'
      rw [h.decider (fun u hu => goto_pc_of_ne _ _ hu) hp', goto_pc_self] at hp'
      cases hp'
  · obtain ⟨hnonneg, hbounded, hle⟩ := h.statement hbase hrun hyield (huncut.limit rfl) (huncut.waker rfl)
    have hbalance := h.balance
    refine ⟨hbase', hnonneg, hbounded, ?_, fun t cur hp => ?_⟩
    · simp only [isStmt, true_and, reduceCtorEq, if_false, Nat.add_zero]
      omega
    · have ht := h.decider (fun u hu => exec_pc_of_ne _ _ hu) hp
      subst t
      exact ⟨(exec_running ..).symm, exec_deciding hidle hp⟩

/-- An account opened on a freshly initialised machine. -/
structure Opened (c : Config) (i : Nat) (v : Int) (a : Account) : Prop where
  initial : ∃ count, count i = v ∧ Initial c count a.state
  granted : a.granted = 0
  signals : a.signals = 0

theorem opened_balanced {c : Config} {i : Nat} {v : Int} {a : Account} (h : Opened c i v a) (hlow : 0 ≤ v)
    (hhigh : v < 2147483648) : Balanced c i v a := by
  obtain ⟨count, rfl, hinit⟩ := h.initial
  have hnone : tokens c i a.state = 0 := by
    refine Finset.sum_eq_zero (fun t _ => ?_)
    rw [tokenOf, hinit.pc]
    rfl
  refine ⟨⟨3, 0, hinit.base⟩, ?_, ?_, ?_, ?_⟩
  · rw [hinit.value]
    exact hlow
  · rw [hinit.value]
    exact hhigh
  · rw [hinit.value, hnone, h.granted, h.signals]
    simp
  · intro t cur hp
    rw [hinit.pc] at hp
    cases hp

/-- In every run that never cuts the test from the decrement nor wakes a waiter by mistake,
grants are covered by the initial count and the signals, and the count is never negative. -/
theorem tokens_safe_of_uncut {c : Config} {i : Nat} {v : Int} (hlow : 0 ≤ v) (hhigh : v < 2147483648)
    {a b : Account} (opened : Opened c i v a) {labels : List Label}
    (run : Run (When (UncutDecrement i) (AccountStep c i)) a labels b) : TokenSafe i v b := by
  have h : Balanced c i v b :=
    run.invariant (I := Balanced c i v) (fun _ _ _ h step => balanced_step h step.1 step.2)
      (opened_balanced opened hlow hhigh)
  have hbalance := h.balance
  have hnonneg := h.nonneg
  exact ⟨by omega, hnonneg⟩

section Wakers

variable {c : Config} {i : Nat} {v : Int} {a b : Account} {labels : List Label}

theorem mistakes_eq_false {s : State}
    (h : ∀ q next, s.pc (running s) = .wake q next → (s.pc next).object = some (.semaphore i) → q = .semaphore i) :
    (s.pc (running s)).mistakes i s = false := by
  cases hp : s.pc (running s) with
  | wake q next =>
      apply decide_eq_false
      intro hmistake
      exact hmistake.1 (h q next hp (Pc.object_of_sleepsOn hmistake.2.1))
  | _ => rfl

/-- Where all calls are on one semaphore, nobody else can wake its waiters. -/
theorem uncut_of_one_semaphore (opened : Opened c i v a)
    (run : Run (When (fun a l => WaitsAndSignals i a l ∧ UncutTest i a l) (AccountStep c i)) a labels b) :
    Run (When (UncutDecrement i) (AccountStep c i)) a labels b := by
  obtain ⟨count, _, hinit⟩ := opened.initial
  refine run.when_of_invariant
    (I := fun a => (∃ np nt, Base c a.state np nt) ∧ Only (fun q => q = .semaphore i) a.state) ?_ ?_ ?_
  · rintro a l b ⟨hbase, honly⟩ ⟨hcalls, _⟩ hstep
    obtain ⟨s, hs, rfl⟩ := Option.map_eq_some_iff.mp hstep
    refine ⟨base_step hbase hs, only_step honly (fun op hop => ?_) hbase hs⟩
    subst hop
    rcases hcalls with rfl | rfl <;> rfl
  · rintro a l ⟨_, honly⟩ ⟨_, huncut⟩
    refine ⟨huncut, fun _ => mistakes_eq_false (fun q next hp _ => ?_)⟩
    exact honly (running a.state) q (by rw [hp]; rfl)
  · refine ⟨⟨3, 0, hinit.base⟩, fun t q hq => ?_⟩
    rw [hinit.pc] at hq
    cases hq

/-- Where no interrupt falls inside an update of a wait queue, whoever is woken waits for
the object that wakes him, whatever mutexes and semaphores there are. -/
theorem uncut_of_whole_updates (opened : Opened c i v a)
    (run : Run (When (fun a l => UncutUpdate a.state l ∧ UncutTest i a l) (AccountStep c i)) a labels b) :
    Run (When (UncutDecrement i) (AccountStep c i)) a labels b := by
  obtain ⟨count, _, hinit⟩ := opened.initial
  refine run.when_of_invariant
    (I := fun a => (∃ np nt, Base c a.state np nt) ∧ (∃ l, Queued c a.state l) ∧ OwnRemovals a.state) ?_ ?_ ?_
  · rintro a l b ⟨hbase, hqueued, hown⟩ ⟨hwhole, _⟩ hstep
    obtain ⟨s, hs, rfl⟩ := Option.map_eq_some_iff.mp hstep
    exact ⟨base_step hbase hs, queued_step hbase hqueued hwhole hs, ownRemovals_step hbase hqueued hown hs⟩
  · rintro a l ⟨_, _, hown⟩ ⟨_, huncut⟩
    refine ⟨huncut, fun _ => mistakes_eq_false (fun q next hp hobject => ?_)⟩
    exact Option.some.inj ((hown.wakes hp).symm.trans hobject)
  · exact ⟨⟨3, 0, hinit.base⟩, ⟨_, hinit.queued⟩, hinit.ownRemovals⟩

end Wakers

def openedSample (v : Int) : Account := ⟨sampleState v, 0, 0⟩

theorem openedSample_opened (v : Int) : Opened sampleConfig 0 v (openedSample v) :=
  ⟨⟨fun _ => v, rfl, sampleState_initial v⟩, rfl, rfl⟩

/-- Thread 1, with a mutex, takes the only token, thread 2 takes one of another semaphore
and blocks, thread 1 signals and thread 2 returns with the token. -/
def tokenPassed : List Label :=
  List.flatten [startTwo, [.call (.lock 0)], steps 5, [.call (.wait 0)], steps 4, switchThread,
    [.call (.wait 1)], steps 4, [.call (.wait 0)], steps 10, [.irq 0, .call (.signal 0)], steps 9, switchThread, steps 1]

theorem tokens_safe_of_uncut_sample :
    ∃ b, Run (When (UncutDecrement 0) (AccountStep sampleConfig 0)) (openedSample 1) tokenPassed b ∧
      b.granted = 2 ∧ b.signals = 1 ∧ TokenSafe 0 1 b := by
  have hsome : (execute (guarded (UncutDecrement 0) (accountStep sampleConfig 0)) (openedSample 1) tokenPassed).map
      (fun b => (b.granted, b.signals)) = some (2, 1) := by decide +kernel
  obtain ⟨b, hb, hcounts⟩ := Option.map_eq_some_iff.mp hsome
  obtain ⟨hgranted, hsignals⟩ := Prod.mk.inj hcounts
  have run := run_of_execute_guarded hb
  exact ⟨b, run, hgranted, hsignals, tokens_safe_of_uncut (by decide) (by decide) (openedSample_opened 1) run⟩

/-- Thread 1 waits for semaphore 1. Thread 2 signals it and is interrupted with thread 1 read
as the first waiter; thread 3 signals it too and wakes thread 1, which goes on to wait for
semaphore 0. Thread 2 wakes it there. -/
def wokenForAnother : List Label :=
  List.flatten [[.irq 0], List.replicate 3 (.create 0x10400 0), [.irq 0, .call (.wait 1)], steps 10,
    [.irq 0, .call (.signal 1)], steps 2, switchThread, [.call (.signal 1)], steps 9, switchThread, steps 1,
    [.call (.wait 0)], steps 10, [.irq 0], steps 7, switchThread, switchThread, steps 1]

-- no token, no signal, one grant, though the test is never cut from the decrement
example : (execute (guarded (UncutTest 0) (accountStep sampleConfig 0)) (openedSample 0) wokenForAnother).map
    (fun b => (b.granted, b.signals)) = some (1, 0) := by decide +kernel

/-- Thread 1 is interrupted after its test; thread 2 takes the token; thread 1 takes
it again. -/
def tokenTakenTwice : List Label :=
  startTwo ++ [.call (.wait 0)] ++ steps 3 ++ switchThread ++ [.call (.wait 0)] ++ steps 4 ++
    switchThread ++ steps 1

/-- One token, two grants, no signal: the count is -1. -/
theorem token_taken_twice :
    ∃ b, Run (When (WaitsAndSignals 0) (AccountStep sampleConfig 0)) (openedSample 1) tokenTakenTwice b ∧
      ¬ TokenSafe 0 1 b := by
  have hsome : ((execute (guarded (WaitsAndSignals 0) (accountStep sampleConfig 0)) (openedSample 1)
      tokenTakenTwice).map (fun b => (b.granted, b.signals, b.state.value 0))) = some (2, 0, -1) := by
    decide +kernel
  obtain ⟨b, hb, hvalue⟩ := Option.map_eq_some_iff.mp hsome
  refine ⟨b, run_of_execute_guarded hb, fun hsafe => ?_⟩
  have hneg : b.state.value 0 = -1 := congrArg (fun r => r.2.2) hvalue
  have := hsafe.2
  omega

end SengKernel.Sync
