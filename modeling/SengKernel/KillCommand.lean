import SengKernel.ShellText
import SengKernel.SchedulerFairness

/- The kill command of the shell in kernel/kernel.c: which arguments make it act on
   the process that they name and on nothing else. -/
namespace SengKernel.Ksh
open BoundedLoop Str Sched Transition

/-- `cmd_kill`. A process that kills itself yields before it can report. -/
def cmdKill (k : Kernel) (args : CString) : Kernel × List Printed :=
  let pidText := kLtrim args.chars
  if strlen pidText = 0 then (k, [.putsColor "  Usage: kill <pid>\n" .yellow .black])
  else
    let pid := kAtoi pidText
    let result := procKill k pid.toNat
    if result.2 = 1 then
      if k.currentProc = procFind k pid.toNat then (result.1, [])
      else (result.1, [.printf "  Process %d killed.\n" [.int pid.toBitVec.toInt]])
    else if result.2 = -1 then (result.1, [.putsColor "  Cannot kill the shell process.\n" .yellow .black])
    else (result.1, [.putsColor "  No such process.\n" .lightRed .black])

/-- The argument names a process that may be killed: a numeral of its pid, which
`proc_create` gave to it. -/
structure Names (k : Kernel) (args : CString) (p : Nat) : Prop where
  slot : 1 ≤ p ∧ p ≤ 16
  nonempty : kLtrim args.chars ≠ []
  digits : ∀ c ∈ kLtrim args.chars, isDigit c
  value : decimal (kLtrim args.chars) = (k.pcbTable p).pid
  created : (k.pcbTable p).pid ≠ 0
  other : (k.pcbTable p).pid ≠ 1
  alive : (k.pcbTable p).state ≠ .zombie

def reportsKill (out : List Printed) : Bool :=
  out.any (fun x => match x with | .printf fmt _ => fmt == "  Process %d killed.\n" | _ => false)

def reportsError (out : List Printed) : Bool := out.any (fun x => match x with | .putsColor _ _ _ => true | _ => false)

/-- Only a process that the argument names is changed or reported; else an error is. -/
structure KillsNamed (k : Kernel) (args : CString) : Prop where
  changed : ∀ p, (cmdKill k args).1.pcbTable p ≠ k.pcbTable p → Names k args p
  reported : reportsKill (cmdKill k args).2 → ∃ p, Names k args p
  refused : (¬ ∃ p, Names k args p) → (cmdKill k args).1 = k ∧ reportsError (cmdKill k args).2

/-- Where the leading digits, as 32 bits hold them, are the pid of no slot or of the
shell, or the whole argument is the numeral of a living process. -/
def Harmless (k : Kernel) (args : CString) : Prop :=
  kLtrim args.chars = [] ∨ decimal (leadingDigits (kLtrim args.chars)) % 4294967296 = 1 ∨
  (∀ p, 1 ≤ p → p ≤ 16 → (k.pcbTable p).pid ≠ decimal (leadingDigits (kLtrim args.chars)) % 4294967296) ∨
  ∃ p, 1 ≤ p ∧ p ≤ 16 ∧ (k.pcbTable p).pid = decimal (leadingDigits (kLtrim args.chars)) % 4294967296 ∧
    (k.pcbTable p).pid ≠ 0 ∧ (k.pcbTable p).state ≠ .zombie ∧ leadingDigits (kLtrim args.chars) = kLtrim args.chars ∧
    decimal (kLtrim args.chars) < 4294967296

section Killing

variable {c : Config} {k : Kernel} {np nt : Nat} {args : CString}

theorem procFind_cases (k : Kernel) (pid : Nat) :
    (procFind k pid = 0 ∧ ∀ p, 1 ≤ p → p ≤ 16 → (k.pcbTable p).pid ≠ pid) ∨
    (1 ≤ procFind k pid ∧ procFind k pid ≤ 16 ∧ (k.pcbTable (procFind k pid)).pid = pid) := by
  unfold procFind
  cases hscan : scan (fun i => decide ((k.pcbTable (i + 1)).pid = pid)) 0 maxProcesses with
  | none =>
      refine Or.inl ⟨rfl, fun p hp hp16 => ?_⟩
      obtain ⟨i, rfl⟩ := Nat.exists_eq_add_of_le' hp
      exact of_decide_eq_false (scan_none hscan i (Nat.zero_le i) (by simp only [maxProcesses]; omega))
  | some i =>
      obtain ⟨_, hi, hpid, _⟩ := scan_some hscan
      simp only [maxProcesses] at hi
      have hlast : i + 1 ≤ 16 := by omega
      exact Or.inr ⟨Nat.le_add_left 1 i, hlast, of_decide_eq_true hpid⟩

/-- What the command does. -/
theorem cmdKill_cases (k : Kernel) (args : CString) {n : Nat}
    (hn : n = decimal (leadingDigits (kLtrim args.chars)) % 4294967296) :
    ((kLtrim args.chars = [] ∨ procFind k n = 0 ∨ n = 1) ∧ (cmdKill k args).1 = k ∧
      ∃ s fg bg, (cmdKill k args).2 = [.putsColor s fg bg]) ∨
    (kLtrim args.chars ≠ [] ∧ procFind k n ≠ 0 ∧ n ≠ 1 ∧
      (cmdKill k args).1 = setProc k (procFind k n) (fun p => { p with state := .zombie }) ∧
      ((cmdKill k args).2 = [] ∨ ∃ d, (cmdKill k args).2 = [.printf "  Process %d killed.\n" [.int d]])) := by
  have hnul : 0 ∉ kLtrim args.chars := fun hmem => args.noNul (kLtrim_subset _ hmem)
  have hlen : strlen (kLtrim args.chars) = 0 ↔ kLtrim args.chars = [] := by
    rw [strlen_eq, List.length_eq_zero_iff]
    exact iff_of_eq (congrArg (· = []) (CString.text_chars ⟨_, hnul⟩))
  rw [← kAtoi_toNat] at hn
  by_cases hempty : kLtrim args.chars = []
  · refine Or.inl ⟨Or.inl hempty, ?_⟩
    rw [cmdKill, if_pos (hlen.mpr hempty)]
    exact ⟨rfl, _, _, _, rfl⟩
  · simp only [cmdKill, if_neg (fun h => hempty (hlen.mp h)), ← hn]
    by_cases hnone : procFind k n = 0
    · refine Or.inl ⟨Or.inr (Or.inl hnone), ?_⟩
      simp only [procKill, if_pos hnone]
      exact ⟨rfl, _, _, _, rfl⟩
    · have hpid := ((procFind_cases k n).resolve_left (fun h => hnone h.1)).2.2
      by_cases hshell : n = 1
      · refine Or.inl ⟨Or.inr (Or.inr hshell), ?_⟩
        simp only [procKill, if_neg hnone, if_pos (hpid.trans hshell)]
        exact ⟨rfl, _, _, _, rfl⟩
      · refine Or.inr ⟨hempty, hnone, hshell, ?_⟩
        simp only [procKill, if_neg hnone, if_neg (fun h => hshell (hpid.symm.trans h)), if_true]
        split
        · exact ⟨rfl, Or.inl rfl⟩
        · exact ⟨rfl, Or.inr ⟨_, rfl⟩⟩

/-- A slot with a pid holds its own number. -/
theorem pid_eq_slot (h : Tables c k np nt) {p : Nat} (hp : 1 ≤ p ∧ p ≤ 16) (hcreated : (k.pcbTable p).pid ≠ 0) :
    (k.pcbTable p).pid = p := by
  by_cases hnp : p ≤ np
  · exact h.created p hp.1 hnp
  · exact (hcreated (h.freePcb p (by omega) hp.2).1).elim

theorem Names.decimal_eq (h : Tables c k np nt) {p : Nat} (hp : Names k args p) :
    leadingDigits (kLtrim args.chars) = kLtrim args.chars ∧ decimal (kLtrim args.chars) = p := by
  refine ⟨List.takeWhile_eq_self_iff.mpr hp.digits, ?_⟩
  rw [hp.value, pid_eq_slot h hp.slot hp.created]

/-- A refusal changes nothing and reports an error. -/
theorem killsNamed_of_refused (hsame : (cmdKill k args).1 = k)
    (hprinted : ∃ s fg bg, (cmdKill k args).2 = [.putsColor s fg bg]) : KillsNamed k args := by
  obtain ⟨s, fg, bg, hprinted⟩ := hprinted
  refine ⟨fun p hp => (hp (by rw [hsame])).elim, fun hrep => ?_, fun _ => ⟨hsame, ?_⟩⟩
  · rw [hprinted] at hrep
    cases hrep
  · rw [hprinted]
    rfl

theorem killsNamed_iff (h : Tables c k np nt) (args : CString) : KillsNamed k args ↔ Harmless k args := by
  obtain ⟨n, hn⟩ : ∃ n, n = decimal (leadingDigits (kLtrim args.chars)) % 4294967296 := ⟨_, rfl⟩
  rw [Harmless, ← hn]
  rcases cmdKill_cases k args hn with ⟨hwhy, hsame, hprinted⟩ | ⟨hne, hfound, hshell, hkilled, hprinted⟩
  · refine iff_of_true (killsNamed_of_refused hsame hprinted) ?_
    rcases hwhy with hempty | hnone | hone
    · exact Or.inl hempty
    · refine Or.inr (Or.inr (Or.inl ?_))
      exact ((procFind_cases k n).resolve_right (fun hsome => absurd hnone (Nat.ne_of_gt hsome.1))).2
    · exact Or.inr (Or.inl hone)
  · obtain ⟨hlow, hhigh, hpid⟩ := (procFind_cases k n).resolve_left (fun hnone => hfound hnone.1)
    constructor
    · intro hkills
      -- silence is no error, and a report needs a name
      have hnamed : ∃ p, Names k args p := by
        rcases hprinted with hsilent | ⟨d, hreport⟩
        · by_contra hnone
          have hrefused := (hkills.refused hnone).2
          rw [hsilent] at hrefused
          cases hrefused
        · exact hkills.reported (by rw [hreport]; rfl)
      obtain ⟨p, hp⟩ := hnamed
      obtain ⟨hall, hvalue⟩ := hp.decimal_eq h
      have hslot := hp.slot
      refine Or.inr (Or.inr (Or.inr ⟨p, hslot.1, hslot.2, ?_, hp.created, hp.alive, hall, by omega⟩))
      rw [hn, hall, hvalue, pid_eq_slot h hslot hp.created]
      omega
    · rintro (hempty | hone | hnone | ⟨p, hp, hp16, hpn, hcreated, halive, hall, hsmall⟩)
      · exact (hne hempty).elim
      · exact (hshell hone).elim
      · exact (hnone _ hlow hhigh hpid).elim
      · have hself := pid_eq_slot h ⟨hp, hp16⟩ hcreated
        have hsame : procFind k n = p := by
          have := pid_eq_slot h ⟨hlow, hhigh⟩ (by omega)
          omega
        have hp : Names k args p := by
          refine ⟨⟨hp, hp16⟩, hne, List.takeWhile_eq_self_iff.mp hall, ?_, hcreated, by omega, halive⟩
          rw [hpn, hn, hall, Nat.mod_eq_of_lt hsmall]
        refine ⟨fun q hq => ?_, fun _ => ⟨p, hp⟩, fun hnone => (hnone ⟨p, hp⟩).elim⟩
        rw [hkilled, hsame] at hq
        by_cases hqp : q = p
        · exact hqp ▸ hp
        · exact (hq (setProc_of_ne _ _ _ hqp)).elim

end Killing

/-- In every reachable state: the command acts on the named process only, exactly for
the harmless arguments. -/
theorem kill_named_iff {c : Config} {s t : Activity} {acts : List Act} (started : Started c s)
    (run : Run (ActStep c) s acts t) (args : CString) : KillsNamed t.kernel args ↔ Harmless t.kernel args := by
  obtain ⟨np, nt, h⟩ := run_settled started run
  exact killsNamed_iff h.tables args

theorem kill_named_iff_sample : KillsNamed sampleActivity.kernel ⟨ascii "3", by decide⟩ := by
  refine (kill_named_iff sampleActivity_started (.nil _) ⟨ascii "3", by decide⟩).mpr (Or.inr (Or.inr (Or.inr ⟨3, ?_⟩)))
  decide +kernel

/-- An argument without a digit is taken for the pid of a free slot. -/
theorem word_reported_killed :
    (cmdKill sampleActivity.kernel ⟨ascii "x", by decide⟩).2 = [.printf "  Process %d killed.\n" [.int 0]] ∧
    ¬ KillsNamed sampleActivity.kernel ⟨ascii "x", by decide⟩ := by
  have hreport : (cmdKill sampleActivity.kernel ⟨ascii "x", by decide⟩).2 =
      [.printf "  Process %d killed.\n" [.int 0]] := by decide +kernel
  refine ⟨hreport, fun hkills => ?_⟩
  obtain ⟨p, hp⟩ := hkills.reported (by rw [hreport]; rfl)
  have hdigit := hp.digits 120 (by decide)
  cases hdigit

end SengKernel.Ksh
