import SengKernel.ShellTyping
import SengKernel.FormatText

/- What the user sees: prompt, line and answer of one turn after the other, on the screen
   of kernel/vga.c. -/
namespace SengKernel.Ksh
open Str Vga Fs Splice Transition Kbd

/-- The characters of a call of the console. -/
def Printed.chars : Printed → Option (List UInt8)
  | .puts s => some (text s)
  | .putsColor s _ _ => some (text (ascii s))
  | .printf fmt args => (parse (ascii fmt)).bind (fun ps => expand ps args)

def chars : List Printed → Option (List UInt8)
  | [] => some []
  | p :: ps => p.chars.bind (fun t => (chars ps).map (t ++ ·))

section Display

variable {μ : Type*} (M : CellMemory μ) (stack : Nat → UInt8)

/-- `vga_puts_color` -/
def vgaPutsColorOn (v : Screen μ) (s : List UInt8) (fg bg : VgaColor) : Screen μ :=
  { Vga.vgaPuts M { v with curAttr := vgaAttr fg bg } (some s) with curAttr := v.curAttr }

/-- A call of the console, made on the screen. -/
def display (v : Screen μ) : Printed → Option (Screen μ)
  | .puts s => some (Vga.vgaPuts M v (some s))
  | .putsColor s fg bg => some (vgaPutsColorOn M v (ascii s) fg bg)
  | .printf fmt args => Vga.vgaPrintf M stack v (ascii fmt) args

def displayAll (v : Screen μ) : List Printed → Option (Screen μ)
  | [] => some v
  | p :: ps => (display M stack v p).bind (fun w => displayAll w ps)

/-- The shell with its keyboard and its screen. -/
structure Desk (μ : Type*) where
  terminal : Terminal
  screen : Screen μ

/-- One turn of `shell_run`: the prompt, the line as it is typed, and what is printed
while it is served. -/
inductive Shown : Desk μ → TypedLine → Desk μ → Prop
  | line {x : Desk μ} {l : TypedLine} {buf stack stack' : Nat → UInt8} {read : Line (Screen μ)} {held : Bool}
      {rest : List UInt8} {fuel : Nat} {out : List Printed} {sh : Shell} {v w : Screen μ} :
      display M stack x.screen shellPrompt = some v →
      readCodes (vgaPutchar M) 256 ⟨buf, 0, v⟩ x.terminal.shiftHeld x.terminal.codes = some (read, held, rest) →
      l.line.chars = text (window read.buf 0 256) →
      serve fuel stack' (vgaPutsColor x.terminal.shell "\n  ksh> " .lightGreen .black) (shellDispatch l.line) = some sh →
      sh.output = x.terminal.shell.output ++ [shellPrompt] ++ out →
      displayAll M stack read.console out = some w → Shown x l ⟨⟨sh, held, rest⟩, w⟩

end Display

/-- A request for the files, or for nobody. -/
def Request.files : Request → Bool
  | .nothing | .echo _ | .ls | .touch _ | .cat _ | .write _ | .rm _ | .fsstats | .unknown _ => true
  | _ => false

/-- What a session writes on the page, and the files that it leaves. -/
def transcript (v : Volume) : List TypedKeys → Option (Volume × List UInt8)
  | [] => some (v, [])
  | k :: ks =>
      (v.answer (tableRequest k.line.line)).bind (fun a =>
        (chars a.1).bind (fun t =>
          (transcript a.2 ks).map (fun r =>
            (r.1, text (ascii "\n  ksh> ") ++ (echoFrom 256 [] k.keys ++ [10]) ++ t ++ r.2))))

section Characters

variable {μ : Type*} {M : CellMemory μ} {stack : Nat → UInt8} {v w : Screen μ} {page : Page} {p : Printed}
  {ps qs : List Printed} {s t : List UInt8}

theorem chars_append : chars (ps ++ qs) = (chars ps).bind (fun t => (chars qs).map (t ++ ·)) := by
  induction ps with
  | nil =>
      change chars qs = (chars qs).map ([] ++ ·)
      simp
  | cons p ps ih =>
      rw [List.cons_append, chars, ih, chars]
      cases p.chars with
      | none => rfl
      | some a =>
          cases chars ps with
          | none => rfl
          | some b =>
              cases chars qs with
              | none => rfl
              | some c => exact congrArg some (List.append_assoc a b c).symm

theorem vgaPutchar_curAttr (v : Screen μ) (c : UInt8) : (vgaPutchar M v c).curAttr = v.curAttr := by
  have hwrap : ∀ v : Screen μ, (wrapLine v).curAttr = v.curAttr := by
    intro v
    rw [wrapLine]
    split
    · rfl
    · rfl
  have hplace : (placeChar M v c).curAttr = v.curAttr := by
    rw [placeChar]
    split
    · rfl
    split
    · rfl
    split
    · exact hwrap _
    split
    · split
      · rfl
      · rfl
    · exact hwrap _
  rw [vgaPutchar]
  split
  · exact hplace
  · exact hplace

theorem foldl_curAttr (v : Screen μ) (cs : List UInt8) : (cs.foldl (vgaPutchar M) v).curAttr = v.curAttr := by
  induction cs generalizing v with
  | nil => rfl
  | cons c cs ih => rw [List.foldl_cons, ih, vgaPutchar_curAttr]


theorem write_append (page : Page) (s t : List UInt8) : page.write (s ++ t) = (page.write s).write t := List.foldl_append

variable (stack) in
/-- A call with characters writes them, and the colour is what it was. -/
theorem display_window (hwindow : Window M v page) (h : p.chars = some t) :
    ∃ w, display M stack v p = some w ∧ Window M w (page.write t) ∧ w.curAttr = v.curAttr := by
  cases p with
  | puts s =>
      obtain rfl := Option.some.inj h
      refine ⟨_, rfl, ?_, ?_⟩
      · rw [Vga.vgaPuts, putsLoop_eq]
        exact hwindow.run _
      · rw [Vga.vgaPuts, putsLoop_eq]
        exact foldl_curAttr v _
  | putsColor s fg bg =>
      obtain rfl := Option.some.inj h
      refine ⟨_, rfl, ?_, rfl⟩
      have hcolour : Window M { v with curAttr := vgaAttr fg bg } page :=
        ⟨⟨hwindow.onScreen.row, hwindow.onScreen.col⟩, hwindow.cursor, hwindow.cells, hwindow.below⟩
      have hrun := hcolour.run (text (ascii s))
      rw [← putsLoop_eq] at hrun
      exact ⟨⟨hrun.onScreen.row, hrun.onScreen.col⟩, hrun.cursor, hrun.cells, hrun.below⟩
  | printf fmt args =>
      obtain ⟨ps, hparse, hexpand⟩ := Option.bind_eq_some_iff.mp h
      refine ⟨t.foldl (vgaPutchar M) v, ?_, hwindow.run t, foldl_curAttr v t⟩
      rw [display, vgaPrintf_eq, hparse, Option.bind_some, hexpand]
      rfl

variable (stack) in
theorem displayAll_window (hwindow : Window M v page) (h : chars ps = some t) :
    ∃ w, displayAll M stack v ps = some w ∧ Window M w (page.write t) ∧ w.curAttr = v.curAttr := by
  induction ps generalizing v page t with
  | nil =>
      obtain rfl := Option.some.inj h
      exact ⟨v, rfl, hwindow, rfl⟩
  | cons p ps ih =>
      obtain ⟨a, ha, hrest⟩ := Option.bind_eq_some_iff.mp h
      obtain ⟨b, hb, rfl⟩ := Option.map_eq_some_iff.mp hrest
      obtain ⟨u, hu, hwindow', hattr⟩ := display_window stack hwindow ha
      obtain ⟨w, hw, hwindow'', hattr'⟩ := ih hwindow' hb
      refine ⟨w, ?_, ?_, hattr'.trans hattr⟩
      · rw [displayAll, hu]
        exact hw
      · rw [write_append]
        exact hwindow''

end Characters

section Answers

variable {v v' : Volume} {out ps qs : List Printed} {r : Request}

/-- Every call has its characters: the format suits the arguments. -/
def Printable (ps : List Printed) : Prop := ∃ t, chars ps = some t

theorem Printable.append (h : Printable ps) (h' : Printable qs) : Printable (ps ++ qs) := by
  obtain ⟨s, hs⟩ := h
  obtain ⟨t, ht⟩ := h'
  exact ⟨s ++ t, by rw [chars_append, hs, ht]; rfl⟩

theorem printable_puts (s : List UInt8) : Printable [.puts s] := ⟨_, rfl⟩

theorem printable_putsColor (s : String) (fg bg : VgaColor) : Printable [.putsColor s fg bg] := ⟨_, rfl⟩

/-- A format whose directives are of the kinds of the arguments, in their order. -/
theorem printable_printf {fmt : String} {args : List Argument} (kinds : List Bool)
    (hfmt : (parse (ascii fmt)).map (List.filterMap Piece.kind) = some kinds)
    (hargs : args.map isString = kinds) : Printable [.printf fmt args] := by
  obtain ⟨ps, hparse, hkinds⟩ := Option.map_eq_some_iff.mp hfmt
  obtain ⟨t, ht⟩ := expand_of_kinds (hkinds.trans hargs.symm)
  have hchars : (Printed.printf fmt args).chars = some t := by
    rw [Printed.chars, hparse, Option.bind_some, ht]
  exact ⟨t ++ [], by rw [chars, hchars]; rfl⟩

theorem printable_all (h : ∀ p ∈ ps, Printable [p]) : Printable ps := by
  induction ps with
  | nil => exact ⟨[], rfl⟩
  | cons p ps ih => exact (h p List.mem_cons_self).append (ih (fun q hq => h q (List.mem_cons_of_mem p hq)))

theorem printable_entry (e : Option File) : Printable (entryLines e) := by
  cases e with
  | none => exact ⟨[], rfl⟩
  | some e =>
      have hsize : Printable [.printf "%u bytes\n" [.int e.bytes.length]] :=
        printable_printf [false] (by decide +kernel) rfl
      exact (((printable_puts _).append (printable_puts _)).append (printable_puts _)).append hsize

theorem printable_lines (v : Volume) : Printable v.lines := by
  rw [Volume.lines]
  induction List.range fsMaxDirEntries with
  | nil => exact ⟨[], rfl⟩
  | cons i is ih => exact (printable_entry (v i)).append ih

theorem printable_listing (v : Volume) : Printable v.listing := by
  have hempty : Printable (if v.count = 0 then [.puts (ascii "  (empty)\n")] else []) := by
    split
    · exact printable_puts _
    · exact ⟨[], rfl⟩
  have hcount : Printable [.printf "\n  %d file(s)\n\n" [.int v.count]] :=
    printable_printf [false] (by decide +kernel) rfl
  exact ((((printable_putsColor ..).append (printable_puts _)).append (printable_lines v)).append hempty).append hcount

theorem printable_statistics (v : Volume) : Printable v.statistics := by
  apply printable_all
  intro p hp
  simp only [Volume.statistics, List.mem_cons, List.not_mem_nil, or_false] at hp
  rcases hp with rfl | rfl | rfl | rfl | rfl | rfl | rfl | rfl | rfl | rfl | rfl | rfl
  · exact printable_putsColor ..
  · exact printable_puts _
  all_goals first | exact printable_printf [false] (by decide +kernel) rfl | exact printable_puts _

theorem printable_touch (v : Volume) (f : CString) : Printable (v.touch f).1 := by
  rw [Volume.touch]
  split
  · exact printable_putsColor ..
  split
  · exact printable_printf [true] (by decide +kernel) rfl
  · exact printable_printf [true] (by decide +kernel) rfl

theorem printable_cat (v : Volume) (f : CString) : Printable (v.cat f) := by
  rw [Volume.cat]
  split
  · exact printable_putsColor ..
  split
  · have hpieces : ∀ ss : List (List UInt8), Printable (ss.map .puts) := by
      intro ss
      apply printable_all
      intro p hp
      obtain ⟨s, _, rfl⟩ := List.mem_map.mp hp
      exact printable_puts s
    exact ((printable_puts _).append (hpieces _)).append (printable_puts _)
  · exact printable_printf [true] (by decide +kernel) rfl

theorem printable_store (v : Volume) (f : CString) (s : List UInt8) : Printable (v.store f s).1 := by
  rw [Volume.store]
  split
  · dsimp only
    split
    · exact printable_printf [false, true] (by decide +kernel) rfl
    · exact printable_printf [true] (by decide +kernel) rfl
  · exact printable_printf [true] (by decide +kernel) rfl

theorem printable_write (v : Volume) (args : CString) : Printable (v.write args).1 := by
  rw [Volume.write]
  split
  · exact printable_putsColor ..
  · exact printable_store v _ _

theorem printable_rm (v : Volume) (f : CString) : Printable (v.rm f).1 := by
  rw [Volume.rm]
  split
  · exact printable_putsColor ..
  split
  · exact printable_printf [true] (by decide +kernel) rfl
  · exact printable_printf [true] (by decide +kernel) rfl

/-- No answer sends `vga_printf` astray. -/
theorem printable_answer (h : v.answer r = some (out, v')) : Printable out := by
  cases r with
  | nothing =>
      cases h
      exact ⟨[], rfl⟩
  | echo args =>
      cases h
      exact ((printable_puts _).append (printable_puts _)).append (printable_puts _)
  | ls =>
      cases h
      exact printable_listing v
  | touch args =>
      have hout : (v.touch args).1 = out := congrArg Prod.fst (Option.some.inj h)
      exact hout ▸ printable_touch v args
  | cat args =>
      cases h
      exact printable_cat v args
  | write args =>
      have hout : (v.write args).1 = out := congrArg Prod.fst (Option.some.inj h)
      exact hout ▸ printable_write v args
  | rm args =>
      have hout : (v.rm args).1 = out := congrArg Prod.fst (Option.some.inj h)
      exact hout ▸ printable_rm v args
  | fsstats =>
      cases h
      exact printable_statistics v
  | unknown cmd =>
      cases h
      exact ((printable_putsColor ..).append (printable_puts _)).append (printable_puts _)
  | _ => cases h

theorem answer_isSome (v : Volume) (h : r.files = true) : ∃ out v', v.answer r = some (out, v') := by
  cases r <;> first | exact ⟨_, _, rfl⟩ | cases h

end Answers

section Turns

variable {μ : Type*} {M : CellMemory μ} {x y : Desk μ} {k : TypedKeys} {ks : List TypedKeys} {l : TypedLine}
  {ls : List TypedLine} {v : Volume} {page : Page}

/-- Between two lines: what is still to be typed, the files and the page. -/
structure Ready (M : CellMemory μ) (ks : List TypedKeys) (v : Volume) (page : Page) (x : Desk μ) : Prop where
  waiting : Waiting ks x.terminal
  files : ∃ m, Stands x.terminal.shell.fs m v
  window : Window M x.screen page

/-- The prompt and the echo. -/
theorem Ready.typed (h : Ready M (k :: ks) v page x) (stack buf : Nat → UInt8) :
    ∃ w, display M stack x.screen shellPrompt = some w ∧
      Window M (kbReadline (vgaPutchar M) 256 buf w (k.keys ++ [10])).console
        (page.write (text (ascii "\n  ksh> ") ++ (echoFrom 256 [] k.keys ++ [10]))) ∧
      (kbReadline (vgaPutchar M) 256 buf w (k.keys ++ [10])).console.curAttr = x.screen.curAttr := by
  obtain ⟨w, hw, hwindow, hattr⟩ := display_window stack (p := shellPrompt) h.window rfl
  refine ⟨w, hw, ?_, ?_⟩
  · rw [kbReadline_console k.noEnter k.fits, write_append]
    exact hwindow.run _
  · rw [kbReadline_console k.noEnter k.fits, foldl_curAttr]
    exact hattr

/-- One turn, as the files answer the line that was typed. -/
theorem Ready.step (h : Ready M (k :: ks) v page x) (step : Shown M x l y) :
    ∃ out v' t, l = k.line ∧ v.answer (tableRequest k.line.line) = some (out, v') ∧ chars out = some t ∧
      Ready M ks v' (page.write (text (ascii "\n  ksh> ") ++ (echoFrom 256 [] k.keys ++ [10]) ++ t)) y ∧
      y.screen.curAttr = x.screen.curAttr := by
  cases step with
  | @line buf stack stack' read held rest fuel out sh w w' hprompt hread hchars hserve hout hshow =>
      obtain ⟨u, hu, hwindow, hattr⟩ := h.typed stack buf
      cases Option.some.inj (hu.symm.trans hprompt)
      cases Option.some.inj (hread.symm.trans (h.waiting.read_line _ _ _))
      obtain rfl := k.line_eq hchars
      obtain ⟨m, hstands⟩ := h.files
      have hmore := serve_more_fuel hserve 32769
      rw [shellDispatch_eq] at hmore
      rcases hstands.serve k.line.request_short (Nat.lt_add_left fuel (Nat.lt_succ_self 32768)) stack'
        (x.terminal.shell.output ++ [shellPrompt]) with ⟨_, hnone⟩ | ⟨out', v', s', m', hanswer, hsome, hstands'⟩
      · cases hmore.symm.trans hnone
      · cases Option.some.inj (hmore.symm.trans hsome)
        obtain rfl := List.append_cancel_left hout
        obtain ⟨t, ht⟩ := printable_answer hanswer
        obtain ⟨w'', hw'', hwindow', hattr'⟩ := displayAll_window stack hwindow ht
        cases Option.some.inj (hw''.symm.trans hshow)
        refine ⟨out', v', t, rfl, hanswer, ht, ⟨⟨rfl, Or.inr rfl⟩, ⟨m', hstands'⟩, ?_⟩, hattr'.trans hattr⟩
        rw [write_append]
        exact hwindow'

/-- Every line for the files is served to its end. -/
theorem Ready.next (h : Ready M (k :: ks) v page x) (hfiles : (tableRequest k.line.line).files = true) :
    ∃ y, Shown M x k.line y := by
  obtain ⟨out, v', hanswer⟩ := answer_isSome v hfiles
  obtain ⟨w, hw, hwindow, _⟩ := h.typed (fun _ => 0) (fun _ => 0)
  obtain ⟨m, hstands⟩ := h.files
  rcases hstands.serve k.line.request_short (Nat.lt_succ_self 32768) (fun _ => 0)
    (x.terminal.shell.output ++ [shellPrompt]) with ⟨hnone, _⟩ | ⟨out', v'', s', m', hanswer', hsome, _⟩
  · cases hanswer.symm.trans hnone
  · obtain ⟨t, ht⟩ := printable_answer hanswer'
    obtain ⟨w', hw', _, _⟩ := displayAll_window (fun _ => 0) hwindow ht
    rw [← shellDispatch_eq] at hsome
    exact ⟨_, .line hw (h.waiting.read_line _ _ _) (k.buffer _ _ _).symm hsome rfl hw'⟩

theorem Ready.done (h : Ready M [] v page x) : ¬ Shown M x l y := by
  intro step
  cases step with
  | line hprompt hread _ _ _ _ =>
      rw [h.waiting.read_none] at hread
      cases hread

/-- What a run has shown is the transcript of the lines that it has served. -/
theorem Ready.run (h : Ready M ks v page x) (run : Run (Shown M) x ls y) :
    ∃ ks' rest v' t, ks = ks' ++ rest ∧ ls = ks'.map TypedKeys.line ∧ transcript v ks' = some (v', t) ∧
      Ready M rest v' (page.write t) y ∧ y.screen.curAttr = x.screen.curAttr := by
  induction run generalizing ks v page with
  | nil => exact ⟨[], ks, v, [], rfl, rfl, rfl, h, rfl⟩
  | cons step _ ih =>
      cases ks with
      | nil => exact (h.done step).elim
      | cons k ks =>
          obtain ⟨out, v', t, rfl, hanswer, ht, hready, hattr⟩ := h.step step
          obtain ⟨ks', rest, v'', t', rfl, rfl, htranscript, hready', hattr'⟩ := ih hready
          refine ⟨k :: ks', rest, v'', text (ascii "\n  ksh> ") ++ (echoFrom 256 [] k.keys ++ [10]) ++ t ++ t', rfl, rfl,
            ?_, ?_, hattr'.trans hattr⟩
          · rw [transcript, hanswer, Option.bind_some, ht, Option.bind_some, htranscript]
            rfl
          · rw [write_append]
            exact hready'

theorem Ready.run_all (h : Ready M ks v page x) (hfiles : ∀ k ∈ ks, (tableRequest k.line.line).files = true) :
    ∃ y, Run (Shown M) x (ks.map TypedKeys.line) y := by
  induction ks generalizing x v page with
  | nil => exact ⟨x, .nil x⟩
  | cons k ks ih =>
      obtain ⟨y, step⟩ := h.next (hfiles k List.mem_cons_self)
      obtain ⟨_, _, _, _, _, _, hready, _⟩ := h.step step
      obtain ⟨z, run⟩ := ih hready (fun k' hk' => hfiles k' (List.mem_cons_of_mem k hk'))
      exact ⟨z, .cons step run⟩

end Turns

/-- What is typed, on the screen; before the first prompt it showed `cs`. -/
structure ScreenSession {μ : Type*} (M : CellMemory μ) (s : State) (blank : Screen μ) (cs : List UInt8)
    (ks : List TypedKeys) : Prop where
  shown : ∀ ls y, Run (Shown M) ⟨bootTerminal s ks, cs.foldl (vgaPutchar M) (vgaClear M blank .black)⟩ ls y →
    ∃ ks' v t, ks' <+: ks ∧ ls = ks'.map TypedKeys.line ∧ transcript Volume.empty ks' = some (v, t) ∧
      Window M y.screen (Page.empty.write (cs ++ t)) ∧ (∃ m, Stands y.terminal.shell.fs m v) ∧
      y.screen.curAttr = vgaAttr .lightGrey .black
  all : (∀ k ∈ ks, (tableRequest k.line.line).files = true) →
    ∃ y, Run (Shown M) ⟨bootTerminal s ks, cs.foldl (vgaPutchar M) (vgaClear M blank .black)⟩ (ks.map TypedKeys.line) y

/-- The screen always shows the end of one page: what was there, and then for each line the
prompt, the line with its corrections, and the answer of the files. -/
theorem screen_session {μ : Type*} (M : CellMemory μ) (s : State) (blank : Screen μ) (cs : List UInt8)
    (ks : List TypedKeys) : ScreenSession M s blank cs ks := by
  have hready : Ready M ks Volume.empty (Page.empty.write cs)
      ⟨bootTerminal s ks, cs.foldl (vgaPutchar M) (vgaClear M blank .black)⟩ :=
    ⟨⟨rfl, Or.inl rfl⟩, ⟨_, stands_init s⟩, (window_vgaClear blank .black).run cs⟩
  constructor
  · intro ls y run
    obtain ⟨ks', rest, v, t, rfl, hls, htranscript, hready', hattr⟩ := hready.run run
    refine ⟨ks', v, t, List.prefix_append ks' rest, hls, htranscript, ?_, hready'.files, ?_⟩
    · rw [write_append]
      exact hready'.window
    · rw [hattr]
      exact foldl_curAttr _ cs
  · exact hready.run_all

end SengKernel.Ksh
