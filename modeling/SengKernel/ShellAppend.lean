import SengKernel.ShellFiles
import SengKernel.ShellDispatch

/- What several write commands to one file leave in it. Each of them opens the file at
   offset 0, so that a later text is written over the earlier ones. -/
namespace SengKernel.Ksh
open BoundedLoop MachineWord Str Fs Splice Transition

theorem writeArgs_noNul (f t : CString) : 0 ∉ f.chars ++ space :: t.chars := by
  rw [List.mem_append, List.mem_cons]
  rintro (h | h | h)
  · exact f.noNul h
  · cases h
  · exact t.noNul h

def writeArgs (f t : CString) : CString := ⟨f.chars ++ space :: t.chars, writeArgs_noNul f t⟩

/-- The line `write f t`. -/
def writeLine (f t : CString) : CString :=
  ⟨ascii "write " ++ (writeArgs f t).chars, by
    rw [List.mem_append]
    rintro (h | h)
    · exact absurd h (by decide)
    · exact (writeArgs f t).noNul h⟩

/-- A line that the shell takes for one of its file commands. -/
def Typed (sh : Shell) (line : CString) (t : Shell) : Prop := ∃ c, dispatch line = some c ∧ Step sh c t

/-- `f` is there with the content `xs`, as its size says and cat shows. -/
structure Stores (sh : Shell) (f : CString) (xs : List UInt8) : Prop where
  found : fsFindInode sh.fs f ≠ 0
  size : (sh.fs.inodes (fsFindInode sh.fs f)).size = xs.length
  shown : Shows sh f xs

section Lines

variable {f t : CString}

theorem head_ne_space {s : List UInt8} (hspace : space ∉ s) : deref s ≠ space := by
  cases s with
  | nil => decide
  | cons c cs => exact fun hc => hspace (hc ▸ List.mem_cons_self ..)

/-- The shell reads back the command that was typed. -/
theorem dispatch_writeLine (hname : f.chars ≠ []) (hhead : deref f.chars ≠ space) :
    dispatch (writeLine f t) = some (.write (writeArgs f t)) := by
  have hargs : deref (writeArgs f t).chars ≠ space := by
    obtain ⟨c, cs, hcs⟩ := List.exists_cons_of_ne_nil hname
    change deref (f.chars ++ space :: t.chars) ≠ space
    rw [hcs] at hhead ⊢
    exact hhead
  rw [dispatch, shellDispatch_eq, tableRequest_word (writeLine f t) (ascii "write") (by decide) rfl hargs]
  rfl

/-- The command writes what follows the first word to the file of that word. -/
theorem cmdWrite_word (hname : 1 ≤ f.chars.length ∧ f.chars.length ≤ 27) (hspace : space ∉ f.chars)
    (stack : Nat → UInt8) (sh : Shell) :
    cmdWrite stack sh (writeArgs f t) = writeText stack sh f (kLtrim t.chars) := by
  have hword : firstWord (writeArgs f t).chars = f.chars := firstWord_append f.noNul hspace t.chars
  have hlen : strlen (writeArgs f t).chars ≠ 0 := by
    rw [strlen_eq, CString.text_chars, writeArgs, List.length_append]
    omega
  have hrest : (writeArgs f t).chars.drop f.chars.length = space :: t.chars := List.drop_left' rfl
  have hback : ofBytes f.chars = f := CString.mk.injEq .. ▸ CString.text_chars f
  have hspaced : deref (space :: t.chars) ≠ 0 := by
    change space ≠ 0
    decide
  rw [cmdWrite, if_neg hlen]
  dsimp only
  rw [hword, hrest, if_neg hspaced, if_neg (by omega), List.take_length, hback, List.tail_cons]

theorem cmdWrite_writeArgs (hname : 1 ≤ f.chars.length ∧ f.chars.length ≤ 27) (hspace : space ∉ f.chars)
    (ht : deref t.chars ≠ space) (stack : Nat → UInt8) (sh : Shell) :
    cmdWrite stack sh (writeArgs f t) = writeText stack sh f t.chars := by
  rw [cmdWrite_word hname hspace, kLtrim_of_head ht]

/-- What a step with such a line does. -/
theorem typed_writeLine (hname : 1 ≤ f.chars.length ∧ f.chars.length ≤ 27) (hspace : space ∉ f.chars)
    (ht : deref t.chars ≠ space) {sh sh' : Shell} (h : Typed sh (writeLine f t) sh') :
    ∃ stack, sh' = writeText stack sh f t.chars := by
  obtain ⟨c, hc, fuel, stack, hstep⟩ := h
  rw [dispatch_writeLine (List.ne_nil_of_length_pos hname.1) (head_ne_space hspace)] at hc
  cases hc
  cases hstep
  exact ⟨stack, cmdWrite_writeArgs hname hspace ht stack sh⟩

end Lines

section Overwriting

variable {xs : List UInt8} {texts : List (List UInt8)}

/-- The content after the texts, each of which is written over the start. -/
def overwritten (xs : List UInt8) (texts : List (List UInt8)) : List UInt8 := texts.foldl (fun xs t => splice xs 0 t) xs

theorem length_overwritten_le (xs : List UInt8) (texts : List (List UInt8)) :
    (overwritten xs texts).length ≤ xs.length + texts.flatten.length := by
  induction texts generalizing xs with
  | nil => exact Nat.le_refl _
  | cons t texts ih =>
      have hrest := ih (splice xs 0 t)
      rw [length_splice (Nat.zero_le _)] at hrest
      rw [List.flatten_cons, List.length_append]
      change (overwritten (splice xs 0 t) texts).length ≤ _
      omega

/-- Two texts or more leave less than their sum. -/
theorem length_overwritten_lt (hlen : 2 ≤ texts.length) (hne : ∀ t ∈ texts, t ≠ []) :
    (overwritten [] texts).length < texts.flatten.length := by
  match texts, hlen, hne with
  | t :: u :: texts, _, hne =>
      have ht : 0 < t.length := List.length_pos_iff.mpr (hne t (List.mem_cons_self ..))
      have hu : 0 < u.length := List.length_pos_iff.mpr (hne u (List.mem_cons_of_mem _ (List.mem_cons_self ..)))
      have hrest := length_overwritten_le (splice (splice [] 0 t) 0 u) texts
      rw [length_splice (Nat.zero_le _), length_splice (Nat.zero_le _), List.length_nil] at hrest
      rw [List.flatten_cons, List.flatten_cons, List.length_append, List.length_append]
      change (overwritten (splice (splice [] 0 t) 0 u) texts).length < _
      omega

end Overwriting

section Runs

variable {s : State} {m : FileMap} {f : CString} {texts : List CString}

/-- The texts of a run of write commands. -/
structure Writable (f : CString) (texts : List CString) (room : Nat) : Prop where
  name : 1 ≤ f.chars.length ∧ f.chars.length ≤ 27
  word : space ∉ f.chars
  each : ∀ t ∈ texts, t.chars ≠ [] ∧ deref t.chars ≠ space
  small : ∀ t ∈ texts, t.chars.length ≤ 32768 ∧ t.chars.length ≤ 4096 * room

theorem Writable.tail {t : CString} {room : Nat} (h : Writable f (t :: texts) room) : Writable f texts room :=
  ⟨h.name, h.word, fun u hu => h.each u (List.mem_cons_of_mem t hu), fun u hu => h.small u (List.mem_cons_of_mem t hu)⟩

/-- Where the file is there or can be made, every text is written over it. -/
theorem Quiet.writes {sh t : Shell} {room : Nat} (h : Quiet sh.fs m) (hw : Writable f texts room)
    (hroom : pages (bytesOf m f).length + m.free = room) (hfile : f ∈ m.names ∨ Creates m f)
    (run : Run Typed sh (texts.map (writeLine f)) t) :
    ∃ m', Quiet t.fs m' ∧ bytesOf m' f = overwritten (bytesOf m f) (texts.map CString.chars) ∧
      (f ∈ m.names ∨ texts ≠ [] → f ∈ m'.names) := by
  induction texts generalizing sh m with
  | nil =>
      cases run
      exact ⟨m, h, rfl, fun hor => hor.resolve_right (fun hne => hne rfl)⟩
  | cons x texts ih =>
      cases run with
      | cons step rest =>
          obtain ⟨stack, rfl⟩ := typed_writeLine hw.name hw.word (hw.each x (List.mem_cons_self ..)).2 step
          obtain ⟨hsmall, hfits⟩ := hw.small x (List.mem_cons_self ..)
          have hn : x.chars.length = min (UInt32.ofNat x.chars.length).toNat
              (min 32768 (4096 * (pages (bytesOf m f).length + m.free))) := by
            rw [hroom, UInt32.toNat_ofNat', Nat.mod_eq_of_lt (by omega)]
            omega
          obtain ⟨s, output⟩ := sh
          rcases h.writeText f x.noNul stack output hn with ⟨hf, hno, _⟩ | ⟨_, m1, hquiet, hbecomes⟩
          · exact (hfile.elim hf hno).elim
          · rw [List.take_length] at hbecomes
            have hroom1 : pages (bytesOf m1 f).length + m1.free = room := by
              rw [hbecomes.bytesOf, hbecomes.room, hroom]
            obtain ⟨m', hquiet', hbytes, hmem⟩ := ih hquiet hw.tail hroom1 (Or.inl hbecomes.mem) rest
            refine ⟨m', hquiet', ?_, fun _ => hmem (Or.inl hbecomes.mem)⟩
            rw [hbytes, hbecomes.bytesOf]
            rfl

/-- Where the file can not be made, nothing is written. -/
theorem Quiet.writes_nothing {sh t : Shell} {room : Nat} (h : Quiet sh.fs m) (hw : Writable f texts room)
    (habsent : f ∉ m.names) (hno : ¬ Creates m f) (run : Run Typed sh (texts.map (writeLine f)) t) : Quiet t.fs m := by
  induction texts generalizing sh with
  | nil =>
      cases run
      exact h
  | cons x texts ih =>
      cases run with
      | cons step rest =>
          obtain ⟨stack, rfl⟩ := typed_writeLine hw.name hw.word (hw.each x (List.mem_cons_self ..)).2 step
          obtain ⟨s, output⟩ := sh
          rcases h.writeText f x.noNul stack output rfl with ⟨_, _, hquiet⟩ | ⟨hfile, _⟩
          · exact ih hquiet hw.tail rest
          · exact (hfile.elim habsent hno).elim

/-- cat shows one content only. -/
theorem Shows.unique {sh : Shell} {xs ys : List UInt8} (hx : Shows sh f xs) (hy : Shows sh f ys) : xs = ys := by
  obtain ⟨t, ⟨fuel, ht⟩, hout, _⟩ := hx (fun _ => 0)
  obtain ⟨u, ⟨fuel', hu⟩, hout', _⟩ := hy (fun _ => 0)
  have hsame := ht fuel'
  rw [Nat.add_comm, hu fuel, Option.some.injEq] at hsame
  rw [hsame, hout, List.append_cancel_right_eq, List.append_cancel_left_eq] at hout'
  have hpieces := List.map_injective_iff.mpr (fun a b h => Printed.puts.inj h) hout'
  rw [← flatten_pieces (Nat.zero_lt_succ 254) xs, hpieces, flatten_pieces (Nat.zero_lt_succ 254)]

/-- The map has the file with this content exactly where the file system does. -/
theorem Quiet.stores_iff {sh : Shell} {xs : List UInt8} (h : Quiet sh.fs m) :
    Stores sh f xs ↔ f ∈ m.names ∧ m.content f = xs := by
  constructor
  · intro hstores
    have hf : f ∈ m.names := by
      by_contra habsent
      exact hstores.found (h.represents.listing.absent habsent)
    exact ⟨hf, (h.shows hf sh.output).unique hstores.shown⟩
  · rintro ⟨hf, rfl⟩
    exact ⟨h.find_ne hf, (h.holds hf).size, h.shows hf sh.output⟩

end Runs

/-- The texts of several write commands are all in the file exactly where there is one
text and the directory has room for the file. -/
theorem writes_append_iff (s : State) {commands : List Command} {sh t : Shell} (run : Run Step ⟨fsInit s, []⟩ commands sh)
    {f : CString} (hname : 1 ≤ f.chars.length ∧ f.chars.length ≤ 27) (hspace : space ∉ f.chars)
    (habsent : fsFindInode sh.fs f = 0) {texts : List CString}
    (heach : ∀ x ∈ texts, x.chars ≠ [] ∧ deref x.chars ≠ space)
    (htotal : (texts.map CString.chars).flatten.length ≤ 32768)
    (hfree : pages (texts.map CString.chars).flatten.length ≤ sh.fs.superblock.freeBlocks)
    (hwrites : Run Typed sh (texts.map (writeLine f)) t) :
    Stores t f (texts.map CString.chars).flatten ↔
      texts.length = 1 ∧ ∃ i < 128, (sh.fs.directory i).inode = 0 := by
  obtain ⟨m, h⟩ := quiet_run s run
  have hf : f ∉ m.names := h.represents.listing.find_eq_zero.mp habsent
  have hnone : bytesOf m f = [] := if_neg hf
  rw [h.represents.free_eq] at hfree
  have hsmall : ∀ x ∈ texts, x.chars.length ≤ (texts.map CString.chars).flatten.length := fun x hx =>
    (List.sublist_flatten_of_mem (List.mem_map_of_mem hx)).length_le
  have hw : Writable f texts m.free := by
    refine ⟨hname, hspace, heach, fun x hx => ?_⟩
    have := hsmall x hx
    simp only [pages] at hfree
    omega
  have hroom : pages (bytesOf m f).length + m.free = m.free := by
    rw [hnone]
    exact Nat.zero_add _
  by_cases hentry : ∃ i < 128, (sh.fs.directory i).inode = 0
  · obtain ⟨i, hi, hdead⟩ := hentry
    have hcreates : Creates m f := ⟨hname, hf, h.represents.listing.entry_free hi hdead⟩
    obtain ⟨m', hquiet, hbytes, hmem⟩ := h.writes hw hroom (Or.inr hcreates) hwrites
    rw [hnone] at hbytes
    constructor
    · intro hstores
      obtain ⟨hf', hcontent⟩ := hquiet.stores_iff.mp hstores
      rw [bytesOf, if_pos hf', hcontent] at hbytes
      refine ⟨?_, i, hi, hdead⟩
      cases texts with
      | nil =>
          cases hwrites
          exact (hstores.found habsent).elim
      | cons x texts =>
          by_contra hmany
          have hlt : (overwritten [] ((x :: texts).map CString.chars)).length <
              ((x :: texts).map CString.chars).flatten.length := length_overwritten_lt (by grind) (by grind)
          rw [← hbytes] at hlt
          exact Nat.lt_irrefl _ hlt
    · rintro ⟨hone, _⟩
      obtain ⟨x, rfl⟩ := List.length_eq_one_iff.mp hone
      have hf' := hmem (Or.inr (List.cons_ne_nil _ _))
      rw [bytesOf, if_pos hf'] at hbytes
      refine hquiet.stores_iff.mpr ⟨hf', hbytes.trans ?_⟩
      simp [overwritten, splice]
  · have hno : ¬ Creates m f := by
      intro hcreates
      have hfull := h.represents.listing.entries_full (fun i hi hdead => hentry ⟨i, hi, hdead⟩)
      exact Nat.ne_of_lt hcreates.2.2 hfull
    have hquiet := h.writes_nothing hw hf hno hwrites
    rw [hquiet.stores_iff]
    exact iff_of_false (fun hstores => hf hstores.1) (fun hone => hentry hone.2)

/-- An empty disk, and two texts of one letter for the file `a`. -/
def emptyShell : Shell := ⟨fsInit blankState, []⟩

def twoTexts : List CString := [⟨ascii "A", by decide⟩, ⟨ascii "B", by decide⟩]

def afterFirst : Shell := writeText (fun _ => 0) emptyShell nameA (ascii "A")

def afterSecond : Shell := writeText (fun _ => 0) afterFirst nameA (ascii "B")

theorem run_twoTexts : Run Typed emptyShell (twoTexts.map (writeLine nameA)) afterSecond :=
  .cons ⟨_, dispatch_writeLine (by decide) (by decide), 0, fun _ => 0,
      congrArg some (cmdWrite_writeArgs (by decide) (by decide) (by decide) _ _)⟩
    (.cons ⟨_, dispatch_writeLine (by decide) (by decide), 0, fun _ => 0,
      congrArg some (cmdWrite_writeArgs (by decide) (by decide) (by decide) _ _)⟩ (.nil _))

theorem writes_append_iff_sample : ¬ Stores afterSecond nameA (ascii "AB") := by
  have h := writes_append_iff blankState (.nil _) (f := nameA) (by decide) (by decide) (by decide +kernel)
    (fun x (hx : x ∈ twoTexts) => (by decide : ∀ x ∈ twoTexts, x.chars ≠ [] ∧ deref x.chars ≠ space) x hx) (by decide)
    (by decide +kernel) run_twoTexts
  intro hstores
  have hone := (h.mp hstores).1
  exact absurd hone (by decide)

/-- After the second command the file holds the second text alone. -/
theorem second_write_overwrites :
    (fsFindInode emptyShell.fs nameA = 0 ∧ (∀ x ∈ twoTexts, x.chars ≠ [] ∧ deref x.chars ≠ space) ∧
      pages (twoTexts.map CString.chars).flatten.length ≤ emptyShell.fs.superblock.freeBlocks ∧
      Run Typed emptyShell (twoTexts.map (writeLine nameA)) afterSecond) ∧
    (afterSecond.fs.inodes (fsFindInode afterSecond.fs nameA)).size = 1 ∧
    contentByte afterSecond.fs (fsFindInode afterSecond.fs nameA) 0 = some 66 ∧
    ¬ Stores afterSecond nameA (twoTexts.map CString.chars).flatten := by
  have hsize : (afterSecond.fs.inodes (fsFindInode afterSecond.fs nameA)).size = 1 := by decide +kernel
  refine ⟨⟨by decide +kernel, by decide, by decide +kernel, run_twoTexts⟩, hsize, by decide +kernel, fun hstores => ?_⟩
  have := hstores.size
  rw [hsize] at this
  cases this

end SengKernel.Ksh
