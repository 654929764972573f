import SengKernel.ShellCommands
import SengKernel.ShellCompare

/- The chain of comparisons in `shell_run`, against a table of commands: a line is
   served by its first word, whatever the order of the tests. -/
namespace SengKernel.Ksh
open Str

/-- What `shell_run` does with a line. -/
inductive Request where
  | nothing
  | help
  | clear
  | about
  | version
  | mem
  | halt
  | echo (args : CString)
  | colour (args : CString)
  | ps
  | kill (args : CString)
  | threads
  | race
  | mutexdemo
  | semdemo
  | threadlist
  | meminfo
  | ls
  | touch (args : CString)
  | cat (args : CString)
  | write (args : CString)
  | rm (args : CString)
  | fsstats
  | unknown (cmd : CString)
  deriving DecidableEq, Repr

theorem noArgs_noNul : (0 : UInt8) ∉ ([] : List UInt8) := List.not_mem_nil

/-- `""` -/
def noArgs : CString := ⟨[], noArgs_noNul⟩

/-- The body of the loop of `shell_run`, after `kb_readline`. -/
def shellDispatch (line : CString) : Request :=
  let cmd := kLtrim line.chars
  let args (n : Nat) : CString := ofBytes (kLtrim (cmd.drop n))
  if strlen cmd = 0 then .nothing
  else if strcmp cmd (ascii "help") = 0 then .help
  else if strcmp cmd (ascii "clear") = 0 then .clear
  else if strcmp cmd (ascii "about") = 0 then .about
  else if strcmp cmd (ascii "version") = 0 then .version
  else if strcmp cmd (ascii "mem") = 0 then .mem
  else if strcmp cmd (ascii "halt") = 0 then .halt
  else if kStrncmp cmd (ascii "echo ") 5 = 0 then .echo (args 5)
  else if kStrncmp cmd (ascii "colour ") 7 = 0 then .colour (args 7)
  else if strcmp cmd (ascii "colour") = 0 then .colour noArgs
  else if strcmp cmd (ascii "ps") = 0 then .ps
  else if kStrncmp cmd (ascii "kill ") 5 = 0 then .kill (args 5)
  else if strcmp cmd (ascii "kill") = 0 then .kill noArgs
  else if strcmp cmd (ascii "threads") = 0 then .threads
  else if strcmp cmd (ascii "race") = 0 then .race
  else if strcmp cmd (ascii "mutexdemo") = 0 then .mutexdemo
  else if strcmp cmd (ascii "semdemo") = 0 then .semdemo
  else if strcmp cmd (ascii "threadlist") = 0 then .threadlist
  else if strcmp cmd (ascii "meminfo") = 0 then .meminfo
  else if strcmp cmd (ascii "ls") = 0 then .ls
  else if kStrncmp cmd (ascii "touch ") 6 = 0 then .touch (args 6)
  else if strcmp cmd (ascii "touch") = 0 then .touch noArgs
  else if kStrncmp cmd (ascii "cat ") 4 = 0 then .cat (args 4)
  else if strcmp cmd (ascii "cat") = 0 then .cat noArgs
  else if kStrncmp cmd (ascii "write ") 6 = 0 then .write (args 6)
  else if strcmp cmd (ascii "write") = 0 then .write noArgs
  else if kStrncmp cmd (ascii "rm ") 3 = 0 then .rm (args 3)
  else if strcmp cmd (ascii "rm") = 0 then .rm noArgs
  else if strcmp cmd (ascii "fsstats") = 0 then .fsstats
  else .unknown (ofBytes cmd)

/-- A word alone. -/
def wordTable : List (List UInt8 × Request) :=
  [(ascii "help", .help), (ascii "clear", .clear), (ascii "about", .about), (ascii "version", .version),
    (ascii "mem", .mem), (ascii "halt", .halt), (ascii "colour", .colour noArgs), (ascii "ps", .ps),
    (ascii "kill", .kill noArgs), (ascii "threads", .threads), (ascii "race", .race), (ascii "mutexdemo", .mutexdemo),
    (ascii "semdemo", .semdemo), (ascii "threadlist", .threadlist), (ascii "meminfo", .meminfo), (ascii "ls", .ls),
    (ascii "touch", .touch noArgs), (ascii "cat", .cat noArgs), (ascii "write", .write noArgs),
    (ascii "rm", .rm noArgs), (ascii "fsstats", .fsstats)]

/-- A word that a space follows. -/
def argumentTable : List (List UInt8 × (CString → Request)) :=
  [(ascii "echo", .echo), (ascii "colour", .colour), (ascii "kill", .kill), (ascii "touch", .touch),
    (ascii "cat", .cat), (ascii "write", .write), (ascii "rm", .rm)]

/-- The entry of the word. -/
def entryOf {α : Type} (default : α) : List (List UInt8 × α) → List UInt8 → α
  | [], _ => default
  | (word, entry) :: rest, s => if s = word then entry else entryOf default rest s

/-- What the shell is to do with a line. -/
def tableRequest (line : CString) : Request :=
  let cmd := kLtrim line.chars
  let word := firstWord cmd
  let rest := cmd.drop word.length
  if cmd = [] then .nothing
  else if rest = [] then entryOf (.unknown (ofBytes cmd)) wordTable word
  else entryOf (fun _ => .unknown (ofBytes cmd)) argumentTable word (ofBytes (kLtrim rest))

/-- The file command that a request is for. -/
def Request.command : Request → Option Command
  | .touch args => some (.touch args)
  | .cat args => some (.cat args)
  | .write args => some (.write args)
  | .rm args => some (.rm args)
  | _ => none

/-- The part of `shell_run` that hands a line to the file commands. -/
def dispatch (line : CString) : Option Command := (shellDispatch line).command

section Words

variable {s p : List UInt8}

theorem kLtrim_noNul (line : CString) : 0 ∉ kLtrim line.chars := fun h => line.noNul (kLtrim_subset _ h)

theorem text_of_noNul (h : 0 ∉ s) : text s = s := CString.text_chars ⟨s, h⟩

theorem firstWord_self (hnul : 0 ∉ s) (hspace : space ∉ s) : firstWord s = s := by
  rw [firstWord, List.takeWhile_eq_self_iff]
  intro c hc
  exact word_char (fun h => hnul (h ▸ hc)) (fun h => hspace (h ▸ hc))

/-- A string is its first word and what follows. -/
theorem firstWord_drop (s : List UInt8) : firstWord s ++ s.drop (firstWord s).length = s := by
  obtain ⟨t, ht⟩ := List.takeWhile_prefix (fun c => c != 0 && c != space) (l := s)
  have hword : firstWord s ++ t = s := ht
  have hdrop : s.drop (firstWord s).length = t := by
    rw [← hword, List.drop_left' (by rw [hword])]
  rw [hdrop, hword]

/-- `p` is the whole line. -/
theorem word_iff (hs : 0 ∉ s) (p : List UInt8) (h : 0 ∉ p ∧ space ∉ p) :
    strcmp s p = 0 ↔ s.drop (firstWord s).length = [] ∧ firstWord s = p := by
  obtain ⟨hp, hspace⟩ := h
  rw [strcmp_eq_zero, text_of_noNul hs, text_of_noNul hp]
  constructor
  · rintro rfl
    rw [firstWord_self hs hspace]
    exact ⟨List.drop_length, rfl⟩
  · rintro ⟨hrest, hword⟩
    have hsplit := firstWord_drop s
    rw [hrest, List.append_nil, hword] at hsplit
    exact hsplit.symm

/-- What follows the first word begins with a space. -/
theorem rest_eq (hs : 0 ∉ s) (hrest : s.drop (firstWord s).length ≠ []) :
    ∃ t, s.drop (firstWord s).length = space :: t := by
  have hmem : space ∈ s := by
    by_contra hnone
    rw [firstWord_self hs hnone] at hrest
    exact hrest List.drop_length
  obtain ⟨t, ht⟩ := firstWord_split hs hmem
  exact ⟨t, List.append_cancel_left ((firstWord_drop s).trans ht)⟩

/-- A word and a space begin the line. -/
theorem prefix_iff (hs : 0 ∉ s) (p : List UInt8) (n : Nat)
    (h : n = p.length ∧ p.dropLast ++ [space] = p ∧ 0 ∉ p ∧ space ∉ p.dropLast) :
    kStrncmp s p n = 0 ↔ s.drop (firstWord s).length ≠ [] ∧ firstWord s = p.dropLast := by
  obtain ⟨hn, hword, hp, hspace⟩ := h
  have hnul : 0 ∉ p.dropLast := fun h => hp (List.dropLast_subset p h)
  rw [hn, kStrncmp_prefix s hp, text_of_noNul hs]
  constructor
  · rintro ⟨t, rfl⟩
    have hsplit : p ++ t = p.dropLast ++ space :: t := by
      conv_lhs => rw [← hword, List.append_assoc, List.singleton_append]
    rw [hsplit, firstWord_append hnul hspace, List.drop_left' rfl]
    exact ⟨List.cons_ne_nil space t, rfl⟩
  · rintro ⟨hrest, hfirst⟩
    obtain ⟨t, ht⟩ := rest_eq hs hrest
    have hsplit := firstWord_drop s
    rw [ht, hfirst] at hsplit
    refine ⟨t, ?_⟩
    rw [← hsplit]
    conv_lhs => rw [← hword, List.append_assoc, List.singleton_append]

/-- What follows the word and its space. -/
theorem drop_word (hs : 0 ∉ s) (hrest : s.drop (firstWord s).length ≠ []) {n : Nat} (hfirst : firstWord s = p)
    (hn : p.length + 1 = n) : ofBytes (kLtrim (s.drop n)) = ofBytes (kLtrim (s.drop (firstWord s).length)) := by
  obtain ⟨t, ht⟩ := rest_eq hs hrest
  have hdrop : s.drop n = t := by
    rw [← hn, ← hfirst, ← List.drop_drop, ht]
    rfl
  rw [hdrop, ht]
  rfl

theorem strlen_eq_zero (hs : 0 ∉ s) : strlen s = 0 ↔ s = [] := by
  rw [strlen_eq, text_of_noNul hs, List.length_eq_zero_iff]

end Words

/-- The chain of comparisons finds the entry of the first word. -/
theorem shellDispatch_eq (line : CString) : shellDispatch line = tableRequest line := by
  have hnul := kLtrim_noNul line
  rw [shellDispatch, tableRequest]
  dsimp only
  generalize kLtrim line.chars = cmd at hnul
  simp only [strlen_eq_zero hnul]
  by_cases hcmd : cmd = []
  · rw [if_pos hcmd, if_pos hcmd]
  · rw [if_neg hcmd, if_neg hcmd]
    simp only [word_iff hnul (ascii "help") (by decide), word_iff hnul (ascii "clear") (by decide),
      word_iff hnul (ascii "about") (by decide), word_iff hnul (ascii "version") (by decide),
      word_iff hnul (ascii "mem") (by decide), word_iff hnul (ascii "halt") (by decide),
      prefix_iff hnul (ascii "echo ") 5 (by decide), prefix_iff hnul (ascii "colour ") 7 (by decide),
      word_iff hnul (ascii "colour") (by decide), word_iff hnul (ascii "ps") (by decide),
      prefix_iff hnul (ascii "kill ") 5 (by decide), word_iff hnul (ascii "kill") (by decide),
      word_iff hnul (ascii "threads") (by decide), word_iff hnul (ascii "race") (by decide),
      word_iff hnul (ascii "mutexdemo") (by decide), word_iff hnul (ascii "semdemo") (by decide),
      word_iff hnul (ascii "threadlist") (by decide), word_iff hnul (ascii "meminfo") (by decide),
      word_iff hnul (ascii "ls") (by decide), prefix_iff hnul (ascii "touch ") 6 (by decide),
      word_iff hnul (ascii "touch") (by decide), prefix_iff hnul (ascii "cat ") 4 (by decide),
      word_iff hnul (ascii "cat") (by decide), prefix_iff hnul (ascii "write ") 6 (by decide),
      word_iff hnul (ascii "write") (by decide), prefix_iff hnul (ascii "rm ") 3 (by decide),
      word_iff hnul (ascii "rm") (by decide), word_iff hnul (ascii "fsstats") (by decide)]
    by_cases hrest : cmd.drop (firstWord cmd).length = []
    · simp only [hrest, ne_eq, not_true, false_and, true_and, if_false, if_true, wordTable, entryOf]
    · simp only [hrest, ne_eq, not_false_eq_true, false_and, true_and, if_false, argumentTable, entryOf, ite_apply]
      refine ite_congr rfl (fun h => congrArg Request.echo (drop_word hnul hrest h rfl)) (fun _ => ?_)
      refine ite_congr rfl (fun h => congrArg Request.colour (drop_word hnul hrest h rfl)) (fun _ => ?_)
      refine ite_congr rfl (fun h => congrArg Request.kill (drop_word hnul hrest h rfl)) (fun _ => ?_)
      refine ite_congr rfl (fun h => congrArg Request.touch (drop_word hnul hrest h rfl)) (fun _ => ?_)
      refine ite_congr rfl (fun h => congrArg Request.cat (drop_word hnul hrest h rfl)) (fun _ => ?_)
      refine ite_congr rfl (fun h => congrArg Request.write (drop_word hnul hrest h rfl)) (fun _ => ?_)
      exact ite_congr rfl (fun h => congrArg Request.rm (drop_word hnul hrest h rfl)) (fun _ => rfl)

/-- A line that begins with a word, and goes on with arguments. -/
theorem tableRequest_word (line : CString) (word : List UInt8) {args : CString}
    (hword : word ≠ [] ∧ 0 ∉ word ∧ space ∉ word)
    (hline : line.chars = word ++ space :: args.chars) (hargs : deref args.chars ≠ space) :
    tableRequest line = entryOf (fun _ => .unknown line) argumentTable word args := by
  obtain ⟨hne, hnul, hspace⟩ := hword
  have hhead : deref line.chars ≠ space := by
    rw [hline]
    cases word with
    | nil => exact (hne rfl).elim
    | cons c cs => exact fun hc => hspace (hc ▸ List.mem_cons_self)
  have hsplit : (word ++ space :: args.chars).drop word.length = space :: args.chars := List.drop_left' rfl
  have htrim : kLtrim (space :: args.chars) = args.chars := kLtrim_of_head hargs
  have hback : ∀ t : CString, ofBytes t.chars = t := fun t => CString.mk.injEq .. ▸ CString.text_chars t
  rw [tableRequest, kLtrim_of_head hhead, hback line, hline, firstWord_append hnul hspace, hsplit, htrim, hback args,
    if_neg (List.append_ne_nil_of_left_ne_nil hne _), if_neg (List.cons_ne_nil _ _)]

end SengKernel.Ksh
