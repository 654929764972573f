import SengKernel.SyncOperations

/- The mutex as its callers see it: who owns it, when a call of `mutex_lock` returns
   and in which order the lock is obtained. The two lists of threads are history. -/
namespace SengKernel.Sync
open Sched MachineWord Transition LinkedRing LinkedChain

/-- The machine, the threads that called `mutex_lock` on a mutex and those that have
become its owner, both in order. -/
structure Line where
  state : State
  asked : List Nat
  served : List Nat

def askedAfter (m : Nat) (x : Line) : Move → List Nat
  | .call (.lock n) => if n = m ∧ running x.state ≠ 0 then x.asked ++ [running x.state] else x.asked
  | _ => x.asked

/-- A change of the owner field to a thread is one more service. -/
def servedAfter (m : Nat) (x : Line) (s : State) : List Nat :=
  if s.owner m ≠ x.state.owner m ∧ s.owner m ≠ 0 then x.served ++ [s.owner m] else x.served

def lineStep (c : Config) (m : Nat) (x : Line) (mv : Move) : Option Line :=
  (moveStep c x.state mv).map (fun s => ⟨s, askedAfter m x mv, servedAfter m x s⟩)

def LineStep (c : Config) (m : Nat) (x : Line) (mv : Move) (y : Line) : Prop := lineStep c m x mv = some y

/-- No thread locks a mutex that it owns. -/
def NoRelock (x : Line) : Move → Prop
  | .call (.lock m) => running x.state ≠ 0 → x.state.owner m ≠ running x.state
  | _ => True

instance (x : Line) (mv : Move) : Decidable (NoRelock x mv) :=
  match mv with
  | .call (.lock _) => inferInstanceAs (Decidable (_ → _))
  | .call (.unlock _) => isTrue trivial
  | .call (.wait _) => isTrue trivial
  | .call (.signal _) => isTrue trivial
  | .irq _ => isTrue trivial
  | .create _ _ => isTrue trivial
  | .exit => isTrue trivial
  | .resume _ => isTrue trivial

/-- The move ends a call of `mutex_lock` (or `sem_wait`) of the running thread: at
once, or after it was suspended. -/
def Returns (op : Op) (s : State) (mv : Move) (s' : State) : Prop :=
  running s ≠ 0 ∧ ((mv = .call op ∧ (s'.pc (running s)).isIdle = true) ∨
    ∃ savedEsp, mv = .resume savedEsp ∧ s.pc (running s) = .resumed op.object)

structure MutexProtocol (c : Config) (m : Nat) (x : Line) : Prop where
  locked : x.state.locked m = true ↔ x.state.owner m ≠ 0
  queued : x.state.waitHead (.mutex m) ≠ 0 → x.state.locked m = true
  returns : ∀ mv y, NoRelock x mv → LineStep c m x mv y → Returns (.lock m) x.state mv y.state →
    y.state.owner m = running x.state
  released : ∀ mv y, NoRelock x mv → LineStep c m x mv y → x.state.owner m ≠ 0 →
    y.state.owner m ≠ x.state.owner m → mv = .call (.unlock m) ∧ running x.state = x.state.owner m
  order : ∃ waiting, Path (waitNext x.state) (x.state.waitHead (.mutex m)) waiting 0 ∧
    x.asked = x.served ++ waiting

/-- The invariant behind the protocol, for the queues `l` of all objects. -/
structure Orderly (m : Nat) (x : Line) (l : Object → List Nat) : Prop where
  locked : x.state.locked m = true ↔ x.state.owner m ≠ 0
  queued : l (.mutex m) ≠ [] → x.state.locked m = true
  asleep : ∀ t, t ≠ 0 → Asleep x.state (.mutex m) t → t ∈ l (.mutex m) ∨ x.state.owner m = t
  order : x.asked = x.served ++ l (.mutex m)

section Protocol

variable {c : Config} {m : Nat} {x y : Line} {np nt : Nat} {l : Object → List Nat} {mv : Move}

theorem lineStep_cases (step : LineStep c m x mv y) : Moved c x.state mv y.state ∧
    y.asked = askedAfter m x mv ∧ y.served = servedAfter m x y.state := by
  obtain ⟨s, hs, rfl⟩ := Option.map_eq_some_iff.mp step
  exact ⟨moved hs, rfl, rfl⟩

/-- A thread that goes on in its own code is not asleep. -/
theorem free_not_asleep {s : State} (hfree : Free s) (hrun : running s ≠ 0) (q : Object) :
    ¬ Asleep s q (running s) := by
  obtain ⟨hidle, _⟩ := hfree.resolve_left hrun
  rintro (hq | hq) <;> · rw [hq] at hidle; cases hidle

theorem servedAfter_same {s : State} (h : s.owner m = x.state.owner m) : servedAfter m x s = x.served :=
  if_neg (fun hne => hne.1 h)

/-- Nothing about this mutex changes. -/
theorem Orderly.same (h : Orderly m x l) {l' : Object → List Nat} (hlocked : y.state.locked m = x.state.locked m)
    (howner : y.state.owner m = x.state.owner m) (hl : l' (.mutex m) = l (.mutex m))
    (hasleep : ∀ t, Asleep y.state (.mutex m) t → Asleep x.state (.mutex m) t)
    (hasked : y.asked = x.asked) (hserved : y.served = servedAfter m x y.state) : Orderly m y l' := by
  refine ⟨by rw [hlocked, howner]; exact h.locked, by rw [hl, hlocked]; exact h.queued, fun t ht hsleep => ?_, ?_⟩
  · rw [hl, howner]
    exact h.asleep t ht (hasleep t hsleep)
  · rw [hl, hasked, hserved, servedAfter_same howner]
    exact h.order

theorem asleep_suspend {s : State} {q q' : Object} {r t : Nat} (h : Asleep (suspend s q r) q' t) :
    (t = r ∧ q' = q) ∨ (t ≠ r ∧ Asleep s q' t) := by
  rw [Asleep, suspend_frame] at h
  by_cases htr : t = r
  · subst htr
    simp only [Function.update_self] at h
    rcases h with h | h
    · cases h
      exact Or.inl ⟨rfl, rfl⟩
    · cases h
  · simp only [Function.update_of_ne htr] at h
    exact Or.inr ⟨htr, h⟩

/-- The running thread joins a queue. -/
theorem Orderly.suspend (h : Orderly m x l) {q : Object} (hstate : y.state = suspend x.state q (running x.state))
    (hasked : y.asked = if q = .mutex m then x.asked ++ [running x.state] else x.asked)
    (hlocked : q = .mutex m → x.state.locked m = true)
    (hserved : y.served = servedAfter m x y.state) :
    Orderly m y (Function.update l q (l q ++ [running x.state])) := by
  have hsame : y.state.locked = x.state.locked ∧ y.state.owner = x.state.owner := by
    rw [hstate, suspend_frame]
    exact ⟨rfl, rfl⟩
  have howner : y.state.owner m = x.state.owner m := by rw [hsame.2]
  refine ⟨by rw [hsame.1, hsame.2]; exact h.locked, ?_, fun t ht hsleep => ?_, ?_⟩
  · rw [hsame.1]
    by_cases hq : q = .mutex m
    · exact fun _ => hlocked hq
    · rw [Function.update_of_ne (Ne.symm hq)]
      exact h.queued
  · rw [hstate] at hsleep
    rw [mem_join, hsame.2]
    rcases asleep_suspend hsleep with ⟨hself, hq⟩ | ⟨_, hold⟩
    · exact Or.inl (Or.inr ⟨hq, hself⟩)
    · exact (h.asleep t ht hold).imp_left Or.inl
  · rw [hasked, hserved, servedAfter_same howner]
    split
    · rename_i hq
      subst hq
      rw [Function.update_self, h.order, List.append_assoc]
    · rename_i hq
      rw [Function.update_of_ne (Ne.symm hq)]
      exact h.order

/-- The first waiter gets the mutex. -/
theorem Orderly.handOver (h : Orderly m x l) (hq : Queues c x.state np nt l) (hfree : Free x.state)
    (hlocked : x.state.locked m = true) (hown : x.state.owner m = running x.state) {w : Nat} {ws : List Nat}
    (hl : l (.mutex m) = w :: ws)
    (hstate : y.state = setLocked (setOwner (unblockThread (dequeue x.state (.mutex m)) w) m w) m true)
    (hasked : y.asked = x.asked) (hserved : y.served = servedAfter m x y.state) :
    Orderly m y (Function.update l (.mutex m) ws) := by
  have hrun : running x.state ≠ 0 := hown ▸ h.locked.mp hlocked
  have hw : w ≠ 0 := (hq.chains.head_cons hl).2
  have hfield : y.state.locked m = true ∧ y.state.owner m = w ∧ y.state.pc = x.state.pc := by
    rw [hstate, wakeFirst_frame]
    exact ⟨Function.update_self .., Function.update_self .., rfl⟩
  have hnew : w ≠ running x.state := by
    rintro rfl
    refine (hq.free hfree hrun).2 (.mutex m) ?_
    rw [hl]
    exact List.mem_cons_self ..
  refine ⟨?_, fun _ => hfield.1, fun t ht hsleep => ?_, ?_⟩
  · rw [hfield.1, hfield.2.1]
    exact iff_of_true rfl hw
  · rw [Asleep, hfield.2.2] at hsleep
    rw [mem_leave hq.chains hl, hfield.2.1]
    rcases h.asleep t ht hsleep with hold | howner
    · by_cases htw : t = w
      · exact Or.inr htw.symm
      · exact Or.inl ⟨hold, htw⟩
    · rw [← howner, hown] at hsleep
      exact (free_not_asleep hfree hrun _ hsleep).elim
  · have hchange : y.state.owner m ≠ x.state.owner m ∧ y.state.owner m ≠ 0 := by
      rw [hfield.2.1, hown]
      exact ⟨hnew, hw⟩
    rw [hasked, hserved, servedAfter, if_pos hchange, hfield.2.1, Function.update_self, h.order, hl,
      List.append_assoc]
    rfl

/-- An operation on another object, or one that does nothing. -/
theorem Orderly.elsewhere (h : Orderly m x l) {l' : Object → List Nat} (hq : Queues c y.state np nt l')
    (hlocked : y.state.locked m = x.state.locked m) (howner : y.state.owner m = x.state.owner m)
    (hpc : y.state.pc = x.state.pc) (hl : l' (.mutex m) = l (.mutex m)) (hasked : y.asked = x.asked)
    (hserved : y.served = servedAfter m x y.state) : ∃ l', Queues c y.state np nt l' ∧ Orderly m y l' :=
  ⟨l', hq, h.same hlocked howner hl (fun t => by rw [Asleep, hpc]; exact id) hasked hserved⟩

/-- A free mutex is taken at once. -/
theorem Orderly.acquire (h : Orderly m x l) (hrun : running x.state ≠ 0)
    (hunlocked : x.state.locked m = false)
    (hstate : y.state = setOwner (setLocked x.state m true) m (running x.state))
    (hasked : y.asked = x.asked ++ [running x.state]) (hserved : y.served = servedAfter m x y.state) :
    Orderly m y l := by
  have hnil : l (.mutex m) = [] := by
    by_contra hne
    rw [h.queued hne] at hunlocked
    cases hunlocked
  have howner : x.state.owner m = 0 := by
    by_contra hne
    rw [h.locked.mpr hne] at hunlocked
    cases hunlocked
  have hlocked' : y.state.locked m = true := by
    rw [hstate]
    exact Function.update_self ..
  have howner' : y.state.owner m = running x.state := by
    rw [hstate]
    exact Function.update_self ..
  refine ⟨?_, fun _ => hlocked', fun t ht hsleep => ?_, ?_⟩
  · rw [hlocked', howner']
    exact iff_of_true rfl hrun
  · rw [hstate] at hsleep
    rcases h.asleep t ht hsleep with hmem | hown
    · exact Or.inl hmem
    · exact (ht (hown.symm.trans howner)).elim
  · have hchange : y.state.owner m ≠ x.state.owner m ∧ y.state.owner m ≠ 0 := by
      rw [howner', howner]
      exact ⟨hrun, hrun⟩
    rw [hasked, hserved, servedAfter, if_pos hchange, howner', h.order, hnil]
    simp only [List.append_nil]

/-- The owner unlocks and nobody waits. -/
theorem Orderly.release (h : Orderly m x l) (hq : Queues c x.state np nt l) (hfree : Free x.state)
    (hlocked : x.state.locked m = true) (hown : x.state.owner m = running x.state)
    (hempty : x.state.waitHead (.mutex m) = 0)
    (hstate : y.state = setOwner (setLocked x.state m false) m 0)
    (hasked : y.asked = x.asked) (hserved : y.served = servedAfter m x y.state) : Orderly m y l := by
  have hrun : running x.state ≠ 0 := hown ▸ h.locked.mp hlocked
  have hnil : l (.mutex m) = [] := (hq.chains.head_eq_null _).mp hempty
  have hlocked' : y.state.locked m = false := by
    rw [hstate]
    exact Function.update_self ..
  have howner' : y.state.owner m = 0 := by
    rw [hstate]
    exact Function.update_self ..
  refine ⟨?_, fun hne => (hne hnil).elim, fun t ht hsleep => ?_, ?_⟩
  · rw [hlocked', howner']
    exact iff_of_false nofun (fun hne => hne rfl)
  · rw [hstate] at hsleep
    rcases h.asleep t ht hsleep with hmem | howner
    · exact Or.inl hmem
    · rw [← howner, hown] at hsleep
      exact (free_not_asleep hfree hrun _ hsleep).elim
  · rw [hasked, hserved, servedAfter, if_neg (fun hchange => hchange.2 howner')]
    exact h.order

theorem orderly_call {op : Op} (hq : Queues c x.state np nt l) (h : Orderly m x l) (hfree : Free x.state)
    (hp : Performed x.state op y.state) (hok : NoRelock x (.call op))
    (hasked : y.asked = askedAfter m x (.call op)) (hserved : y.served = servedAfter m x y.state) :
    ∃ l', Queues c y.state np nt l' ∧ Orderly m y l' := by
  have hawake : running x.state ≠ 0 → threadState x.state (running x.state) ≠ .blocked :=
    fun hrun => (hq.free hfree hrun).1
  obtain ⟨s', hys⟩ : ∃ s', y.state = s' := ⟨_, rfl⟩
  rw [hys] at hp
  cases hp with
  | lockNobody nobody =>
      rw [askedAfter, if_neg (fun hr => hr.2 nobody)] at hasked
      exact h.elsewhere (hys.symm ▸ hq) (by rw [hys]) (by rw [hys]) (by rw [hys]) rfl hasked hserved
  | relock somebody locked own => exact (hok somebody own).elim
  | unlockFree unlocked =>
      exact h.elsewhere (hys.symm ▸ hq) (by rw [hys]) (by rw [hys]) (by rw [hys]) rfl hasked hserved
  | unlockOther locked own =>
      exact h.elsewhere (hys.symm ▸ hq) (by rw [hys]) (by rw [hys]) (by rw [hys]) rfl hasked hserved
  | waitNobody nobody =>
      exact h.elsewhere (hys.symm ▸ hq) (by rw [hys]) (by rw [hys]) (by rw [hys]) rfl hasked hserved
  | take somebody available =>
      exact h.elsewhere (hys.symm ▸ hq.congr rfl rfl rfl rfl) (by rw [hys]; rfl) (by rw [hys]; rfl) (by rw [hys]; rfl)
        rfl hasked hserved
  | bank empty =>
      exact h.elsewhere (hys.symm ▸ hq.congr rfl rfl rfl rfl) (by rw [hys]; rfl) (by rw [hys]; rfl) (by rw [hys]; rfl)
        rfl hasked hserved
  | pass waiter =>
      rename_i i
      obtain ⟨ws, hl⟩ := hq.first waiter
      have hne : Object.mutex m ≠ .semaphore i := nofun
      refine h.elsewhere (hys.symm ▸ hq.wakeFirst hl hawake) ?_ ?_ ?_ (Function.update_of_ne hne ..) hasked hserved
      all_goals rw [hys, wakeFirst_frame]
  | waitBlock somebody none =>
      exact ⟨_, hys.symm ▸ hq.suspend somebody (hfree.not_yield somebody),
        h.suspend hys (by rw [if_neg nofun]; exact hasked) nofun hserved⟩
  | lockBlock somebody locked own =>
      rename_i n
      refine ⟨_, hys.symm ▸ hq.suspend somebody (hfree.not_yield somebody), h.suspend hys ?_ ?_ hserved⟩
      · by_cases hn : n = m
        · rw [hasked, askedAfter, if_pos ⟨hn, somebody⟩, if_pos (hn ▸ rfl)]
        · rw [hasked, askedAfter, if_neg (fun hr => hn hr.1), if_neg (fun he => hn (by cases he; rfl))]
      · rintro he
        cases he
        exact locked
  | acquire somebody unlocked =>
      rename_i n
      have hq' : Queues c y.state np nt l := hys.symm ▸ hq.congr rfl rfl rfl rfl
      by_cases hn : n = m
      · subst hn
        rw [askedAfter, if_pos ⟨rfl, somebody⟩] at hasked
        exact ⟨l, hq', h.acquire somebody unlocked hys hasked hserved⟩
      · rw [askedAfter, if_neg (fun hr => hn hr.1)] at hasked
        refine h.elsewhere hq' ?_ ?_ (by rw [hys]; rfl) rfl hasked hserved
        all_goals rw [hys]; exact Function.update_of_ne (Ne.symm hn) ..
  | release locked own empty =>
      rename_i n
      have hq' : Queues c y.state np nt l := hys.symm ▸ hq.congr rfl rfl rfl rfl
      by_cases hn : n = m
      · subst hn
        exact ⟨l, hq', h.release hq hfree locked own empty hys hasked hserved⟩
      · refine h.elsewhere hq' ?_ ?_ (by rw [hys]; rfl) rfl hasked hserved
        all_goals rw [hys]; exact Function.update_of_ne (Ne.symm hn) ..
  | handOver locked own waiter =>
      rename_i n
      obtain ⟨ws, hl⟩ := hq.first waiter
      have hq' : Queues c y.state np nt (Function.update l (.mutex n) ws) :=
        hys.symm ▸ (hq.wakeFirst hl hawake).congr rfl rfl rfl rfl
      by_cases hn : n = m
      · subst hn
        exact ⟨_, hq', h.handOver hq hfree locked own hl hys hasked hserved⟩
      · refine h.elsewhere hq' ?_ ?_ ?_ (Function.update_of_ne (fun he => hn (by cases he; rfl)) ..) hasked hserved
        · rw [hys, wakeFirst_frame]
          exact Function.update_of_ne (Ne.symm hn) ..
        · rw [hys, wakeFirst_frame]
          exact Function.update_of_ne (Ne.symm hn) ..
        · rw [hys, wakeFirst_frame]
          rfl

theorem orderly_step (h : ∃ np nt l, Queues c x.state np nt l ∧ Orderly m x l) (hok : NoRelock x mv)
    (step : LineStep c m x mv y) : ∃ np nt l, Queues c y.state np nt l ∧ Orderly m y l := by
  obtain ⟨np, nt, l, hq, h⟩ := h
  obtain ⟨hmoved, hasked, hserved⟩ := lineStep_cases step
  rcases hmoved.call_or_quiet with ⟨op, rfl, hfree, hp⟩ | hcall
  · obtain ⟨l', h'⟩ := orderly_call hq h hfree hp hok hasked hserved
    exact ⟨np, nt, l', h'⟩
  · obtain ⟨np', nt', _, hq', hquiet⟩ := hq.quiet hmoved hcall
    have hsame : askedAfter m x mv = x.asked := by
      cases mv with
      | call op => exact (hcall op rfl).elim
      | _ => rfl
    exact ⟨np', nt', l, hq', h.same (by rw [hquiet.frame]) (by rw [hquiet.frame]) rfl (hquiet.asleep _)
      (hasked.trans hsame) hserved⟩

/-- A thread comes back from `mutex_lock` as the owner. -/
theorem Orderly.returns (h : Orderly m x l) (hq : Queues c x.state np nt l) (hok : NoRelock x mv)
    (hmoved : Moved c x.state mv y.state) (hret : Returns (.lock m) x.state mv y.state) :
    y.state.owner m = running x.state := by
  obtain ⟨hrun, ⟨rfl, hidle⟩ | ⟨savedEsp, rfl, hat⟩⟩ := hret
  · generalize hys : y.state = s' at hmoved hidle
    cases hmoved with
    | call free step =>
        cases step with
        | lockNobody nobody => exact (hrun nobody).elim
        | relock somebody locked own => exact (hok somebody own).elim
        | acquire somebody unlocked => exact Function.update_self ..
        | lockBlock somebody locked own =>
            rw [suspend_frame] at hidle
            simp only [Function.update_self] at hidle
            cases hidle
  · generalize hys : y.state = s' at hmoved
    cases hmoved with
    | yield somebody at' step =>
        rw [at'] at hat
        cases hat
    | returned somebody at' =>
        have hnot := (hq.free_not_member hrun (fun q hyield => by rw [hat] at hyield; cases hyield)).2
        exact (h.asleep _ hrun (Or.inr hat)).resolve_left (hnot _)

/-- Only the owner's `mutex_unlock` takes the mutex from it. -/
theorem owner_changes (hmoved : Moved c x.state mv y.state) (h : Orderly m x l) (hok : NoRelock x mv)
    (hq : Queues c x.state np nt l) (hheld : x.state.owner m ≠ 0) (hchange : y.state.owner m ≠ x.state.owner m) :
    mv = .call (.unlock m) ∧ running x.state = x.state.owner m := by
  rcases hmoved.call_or_quiet with ⟨op, rfl, hfree, hp⟩ | hcall
  · generalize hys : y.state = s' at hp
    rw [hys] at hchange
    cases hp with
    | lockNobody | relock | unlockFree | unlockOther | waitNobody | take | bank => exact (hchange rfl).elim
    | pass waiter =>
        rw [wakeFirst_frame] at hchange
        exact (hchange rfl).elim
    | waitBlock somebody none =>
        rw [suspend_frame] at hchange
        exact (hchange rfl).elim
    | lockBlock somebody locked own =>
        rw [suspend_frame] at hchange
        exact (hchange rfl).elim
    | acquire somebody unlocked =>
        rename_i n
        by_cases hn : m = n
        · subst hn
          rw [h.locked.mpr hheld] at unlocked
          cases unlocked
        · exact (hchange (Function.update_of_ne hn ..)).elim
    | release locked own empty =>
        rename_i n
        by_cases hn : m = n
        · subst hn
          exact ⟨rfl, own.symm⟩
        · exact (hchange (Function.update_of_ne hn ..)).elim
    | handOver locked own waiter =>
        rename_i n
        by_cases hn : m = n
        · subst hn
          exact ⟨rfl, own.symm⟩
        · rw [wakeFirst_frame] at hchange
          exact (hchange (Function.update_of_ne hn ..)).elim
  · obtain ⟨_, _, _, _, hquiet⟩ := hq.quiet hmoved hcall
    rw [hquiet.frame] at hchange
    exact (hchange rfl).elim

end Protocol

theorem Initial.orderly {c : Config} {count : Nat → Int} {s : State} (h : Initial c count s) (m : Nat) :
    Orderly m ⟨s, [], []⟩ (fun _ => []) := by
  refine ⟨?_, fun hne => (hne rfl).elim, fun t _ hsleep => ?_, rfl⟩
  · rw [h.locked, h.owner]
    exact iff_of_false nofun (fun hne => hne rfl)
  · rw [Asleep, h.pc] at hsleep
    rcases hsleep with hsleep | hsleep <;> cases hsleep

theorem run_orderly {c : Config} {count : Nat → Int} {s : State} {m : Nat} {x : Line} (initial : Initial c count s)
    {moves : List Move} (run : Run (When NoRelock (LineStep c m)) ⟨s, [], []⟩ moves x) :
    ∃ np nt l, Queues c x.state np nt l ∧ Orderly m x l :=
  run.invariant (I := fun x => ∃ np nt l, Queues c x.state np nt l ∧ Orderly m x l)
    (fun _ _ _ h step => orderly_step h step.1 step.2) ⟨3, 0, fun _ => [], initial.queues, initial.orderly m⟩

/-- The mutex keeps its protocol as long as no thread locks a mutex that it owns. -/
theorem mutex_protocol {c : Config} {count : Nat → Int} {s : State} {m : Nat} {x : Line}
    (initial : Initial c count s) {moves : List Move}
    (run : Run (When NoRelock (LineStep c m)) ⟨s, [], []⟩ moves x) : MutexProtocol c m x := by
  obtain ⟨np, nt, l, hq, h⟩ := run_orderly initial run
  refine ⟨h.locked, fun hhead => ?_, fun mv y hok step hret => ?_, fun mv y hok step hheld hchange => ?_, ?_⟩
  · exact h.queued (fun hnil => hhead ((hq.chains.head_eq_null _).mpr hnil))
  · exact h.returns hq hok (lineStep_cases step).1 hret
  · exact owner_changes (lineStep_cases step).1 h hok hq hheld hchange
  · exact ⟨l (.mutex m), hq.chains.path _, h.order⟩

theorem mutex_protocol_sample : ∃ x, Run (When NoRelock (LineStep sampleConfig 0)) ⟨sampleState 0, [], []⟩ contended x ∧
    MutexProtocol sampleConfig 0 x := by
  have hsome : (execute (guarded NoRelock (lineStep sampleConfig 0)) ⟨sampleState 0, [], []⟩ contended).isSome = true := by
    decide +kernel
  obtain ⟨x, hx⟩ := Option.isSome_iff_exists.mp hsome
  have run := run_of_execute_guarded hx
  exact ⟨x, run, mutex_protocol (sampleState_initial 0) run⟩

end SengKernel.Sync
