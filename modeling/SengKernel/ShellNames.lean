import SengKernel.ShellAppend

/- What the file commands take for a name. touch, cat and rm take the rest of the line,
   write takes its first word. -/
namespace SengKernel.Ksh
open BoundedLoop MachineWord Str Fs Splice Transition

theorem namedLine_noNul {p : List UInt8} (hp : 0 ∉ p) (n : CString) : 0 ∉ p ++ n.chars := by
  rw [List.mem_append]
  rintro (h | h)
  · exact hp h
  · exact n.noNul h

/-- A command with a text behind it. -/
def namedLine (p : List UInt8) (hp : 0 ∉ p) (n : CString) : CString := ⟨p ++ n.chars, namedLine_noNul hp n⟩

def touchLine (n : CString) : CString := namedLine (ascii "touch ") (by decide) n

def catLine (n : CString) : CString := namedLine (ascii "cat ") (by decide) n

def rmLine (n : CString) : CString := namedLine (ascii "rm ") (by decide) n

section Dispatch

variable {n : CString}

theorem dispatch_touchLine (h : deref n.chars ≠ space) : dispatch (touchLine n) = some (.touch n) := by
  have hrequest := tableRequest_word (touchLine n) (ascii "touch") (by decide) rfl h
  rw [dispatch, shellDispatch_eq, hrequest]
  rfl

theorem dispatch_catLine (h : deref n.chars ≠ space) : dispatch (catLine n) = some (.cat n) := by
  have hrequest := tableRequest_word (catLine n) (ascii "cat") (by decide) rfl h
  rw [dispatch, shellDispatch_eq, hrequest]
  rfl

theorem dispatch_rmLine (h : deref n.chars ≠ space) : dispatch (rmLine n) = some (.rm n) := by
  have hrequest := tableRequest_word (rmLine n) (ascii "rm") (by decide) rfl h
  rw [dispatch, shellDispatch_eq, hrequest]
  rfl

end Dispatch

/-- Every file but `f` is as it was, and none is new. -/
def OnlyFile (f : CString) (sh t : Shell) : Prop :=
  ∀ g, g ≠ f → (fsFindInode t.fs g = 0 ↔ fsFindInode sh.fs g = 0) ∧ ∀ xs, Stores t g xs ↔ Stores sh g xs

/-- The one line printed ends in the name `f`. -/
def Mentions (f : CString) (sh t : Shell) : Prop :=
  ∃ fmt args, t.output = sh.output ++ [.printf fmt (args ++ [.str f.chars])]

/-- As much of a text as an empty file can take. -/
def kept (s : State) (x : CString) : List UInt8 :=
  x.chars.take (min (UInt32.ofNat x.chars.length).toNat (min 32768 (4096 * s.superblock.freeBlocks)))

/-- The commands that take a name all act on the empty file `n`, whatever text is written. -/
structure NamesAgree (sh : Shell) (n : CString) : Prop where
  cat : dispatch (catLine n) = some (.cat n) ∧ Stores sh n []
  rm : (∃ t, Typed sh (rmLine n) t) ∧
    ∀ t, Typed sh (rmLine n) t → Mentions n sh t ∧ fsFindInode t.fs n = 0 ∧ OnlyFile n sh t
  write : ∀ x : CString, x.chars ≠ [] → deref x.chars ≠ space → (∃ t, Typed sh (writeLine n x) t) ∧
    ∀ t, Typed sh (writeLine n x) t → Mentions n sh t ∧ Stores t n (kept sh.fs x) ∧ OnlyFile n sh t

section Effects

variable {s : State} {sh t : Shell} {m m' : FileMap} {f n : CString}

theorem Quiet.onlyFile (h : Quiet sh.fs m) (h' : Quiet t.fs m') (hnames : ∀ g, g ≠ f → (g ∈ m'.names ↔ g ∈ m.names))
    (hcontent : ∀ g, g ≠ f → m'.content g = m.content g) : OnlyFile f sh t := by
  intro g hg
  constructor
  · rw [h'.represents.listing.find_eq_zero, h.represents.listing.find_eq_zero, hnames g hg]
  · intro xs
    rw [h'.stores_iff, h.stores_iff, hnames g hg, hcontent g hg]

theorem Becomes.onlyFile {xs : List UInt8} (hb : Becomes m m' f xs) (h : Quiet sh.fs m) (h' : Quiet t.fs m') :
    OnlyFile f sh t := by
  apply h.onlyFile h'
  · intro g hg
    rw [hb.names, Finset.mem_insert]
    exact ⟨fun hor => hor.resolve_left hg, Or.inr⟩
  · exact hb.others

/-- A touch that succeeds makes an empty file of the whole text. -/
theorem Quiet.touched (h : Quiet sh.fs m) (hhead : deref n.chars ≠ space) (step : Typed sh (touchLine n) t)
    (hmade : (fsCreateFile sh.fs (some n)).1 = 0) :
    Creates m n ∧ ∃ m1, Quiet t.fs m1 ∧ Becomes m m1 n [] := by
  obtain ⟨c, hc, fuel, stack, hstep⟩ := step
  rw [dispatch_touchLine hhead] at hc
  cases hc
  cases hstep
  rcases h.created n with ⟨_, hfailed, _⟩ | ⟨hcreates, _, m1, hquiet, hfile⟩
  · rw [hmade] at hfailed
    cases hfailed
  · have hlen : strlen n.chars ≠ 0 := by
      rw [strlen_eq, CString.text_chars]
      have := hcreates.1.1
      omega
    refine ⟨hcreates, m1, ?_, hfile⟩
    rw [cmdTouch, if_neg hlen]
    dsimp only
    rw [if_pos hmade]
    exact hquiet

theorem Quiet.rm_line (h : Quiet sh.fs m) (hhead : deref n.chars ≠ space) (hn : n ∈ m.names)
    (step : Typed sh (rmLine n) t) : Mentions n sh t ∧ fsFindInode t.fs n = 0 ∧ OnlyFile n sh t := by
  obtain ⟨c, hc, fuel, stack, hstep⟩ := step
  rw [dispatch_rmLine hhead] at hc
  cases hc
  cases hstep
  obtain ⟨hret, m', hquiet, hnames, hcontent⟩ := (h.unlinked n).resolve_left (fun habsent => habsent.1 hn)
  have hdone : cmdRm sh n = vgaPrintf { sh with fs := (fsUnlink sh.fs (some n)).2 } "Removed: %s\n" [.str n.chars] := by
    rw [cmdRm, if_neg (h.strlen_ne hn)]
    dsimp only
    rw [if_pos hret]
  have hquiet' : Quiet (cmdRm sh n).fs m' := by
    rw [hdone]
    exact hquiet
  refine ⟨⟨"Removed: %s\n", [], ?_⟩, ?_, ?_⟩
  · rw [hdone]
    rfl
  · rw [hquiet'.represents.listing.find_eq_zero, hnames]
    exact Finset.notMem_erase n m.names
  · apply h.onlyFile hquiet'
    · intro g hg
      rw [hnames, Finset.mem_erase]
      exact ⟨fun hand => hand.2, fun hmem => ⟨hg, hmem⟩⟩
    · intro g _
      rw [hcontent]

/-- Whatever comes of it, the write command says which file it meant. -/
theorem writeText_mentions (stack : Nat → UInt8) (sh : Shell) (f : CString) (text : List UInt8) :
    Mentions f sh (writeText stack sh f text) := by
  simp only [writeText]
  split
  · exact ⟨_, [], rfl⟩
  · split
    · exact ⟨_, [_], rfl⟩
    · exact ⟨_, [], rfl⟩

theorem Mentions.unique (hf : Mentions f sh t) (hn : Mentions n sh t) : f = n := by
  obtain ⟨fmt, args, hout⟩ := hf
  obtain ⟨fmt', args', hout'⟩ := hn
  rw [hout, List.append_cancel_left_eq, List.cons.injEq, Printed.printf.injEq] at hout'
  obtain ⟨⟨_, hargs⟩, _⟩ := hout'
  have hlast := (List.append_inj' hargs rfl).2
  rw [List.cons.injEq, Argument.str.injEq] at hlast
  obtain ⟨fs, hfs⟩ := f
  obtain ⟨ns, hns⟩ := n
  obtain rfl : fs = ns := hlast.1
  rfl

theorem Quiet.write_line (h : Quiet sh.fs m) (hn : n ∈ m.names) (hempty : m.content n = []) (hspace : space ∉ n.chars)
    {x : CString} (hx : deref x.chars ≠ space) (step : Typed sh (writeLine n x) t) :
    Mentions n sh t ∧ Stores t n (kept sh.fs x) ∧ OnlyFile n sh t := by
  obtain ⟨stack, rfl⟩ := typed_writeLine (m.named n hn) hspace hx step
  have hbytes : bytesOf m n = [] := (if_pos hn).trans hempty
  rcases h.writeText n x.noNul stack sh.output rfl with ⟨hf, _⟩ | ⟨_, m', hquiet, hbecomes⟩
  · exact (hf hn).elim
  · have hkept : splice (bytesOf m n) 0 (x.chars.take (min (UInt32.ofNat x.chars.length).toNat
        (min 32768 (4096 * (pages (bytesOf m n).length + m.free))))) = kept sh.fs x := by
      have hzero : pages ([] : List UInt8).length = 0 := rfl
      rw [hbytes, kept, h.represents.free_eq, hzero, Nat.zero_add, splice, List.take_zero, List.nil_append,
        List.drop_nil, List.append_nil]
    rw [hkept] at hbecomes
    exact ⟨writeText_mentions stack sh n x.chars, hquiet.stores_iff.mpr ⟨hbecomes.mem, hbecomes.content⟩,
      hbecomes.onlyFile h hquiet⟩

end Effects

section FirstWords

variable {sh t : Shell} {n x : CString}

/-- The first word of a text. -/
def wordOf (n : CString) : CString := ⟨firstWord n.chars, fun h => n.noNul (firstWord_subset n.chars h)⟩

/-- The write command takes the first word alone for the name, and the rest is text. -/
theorem writeArgs_word (hspace : space ∈ n.chars) (x : CString) : ∃ y, writeArgs n x = writeArgs (wordOf n) y := by
  obtain ⟨rest, hrest⟩ := firstWord_split n.noNul hspace
  have hnul : 0 ∉ rest ++ space :: x.chars := by
    rw [List.mem_append]
    rintro (h | h)
    · refine n.noNul ?_
      rw [hrest]
      exact List.mem_append_right _ (List.mem_cons_of_mem _ h)
    · exact (List.mem_cons.mp h).elim (by decide) x.noNul
  refine ⟨⟨rest ++ space :: x.chars, hnul⟩, ?_⟩
  rw [writeArgs, writeArgs, CString.mk.injEq]
  calc n.chars ++ space :: x.chars
      = (firstWord n.chars ++ space :: rest) ++ space :: x.chars := by rw [← hrest]
    _ = firstWord n.chars ++ space :: (rest ++ space :: x.chars) := by rw [List.append_assoc, List.cons_append]

theorem length_wordOf (hhead : deref n.chars ≠ space) (hspace : space ∈ n.chars) :
    1 ≤ (wordOf n).chars.length ∧ (wordOf n).chars.length ≤ n.chars.length := by
  refine ⟨?_, (List.takeWhile_prefix _).length_le⟩
  obtain ⟨rest, hrest⟩ := firstWord_split n.noNul hspace
  rw [Nat.one_le_iff_ne_zero, ne_eq, List.length_eq_zero_iff]
  intro hnil
  have hnil : firstWord n.chars = [] := hnil
  rw [hrest, hnil] at hhead
  exact hhead rfl

theorem write_mentions_word (hname : n.chars.length ≤ 27) (hhead : deref n.chars ≠ space) (hspace : space ∈ n.chars)
    (step : Typed sh (writeLine n x) t) : Mentions (wordOf n) sh t := by
  obtain ⟨c, hc, fuel, stack, hstep⟩ := step
  rw [dispatch_writeLine (List.ne_nil_of_mem hspace) hhead] at hc
  cases hc
  cases hstep
  obtain ⟨y, hy⟩ := writeArgs_word hspace x
  obtain ⟨hpos, hle⟩ := length_wordOf hhead hspace
  rw [hy, cmdWrite_word ⟨hpos, hle.trans hname⟩ (space_notMem_firstWord n.chars)]
  exact writeText_mentions _ _ _ _

end FirstWords

/-- A text to write. -/
def letterX : CString := ⟨ascii "x", by decide⟩

/-- After a touch that succeeds, the commands agree on the name exactly where it has no
space. -/
theorem names_agree_iff (s : State) {commands : List Command} {sh t : Shell}
    (run : Run Step ⟨fsInit s, []⟩ commands sh) {n : CString} (hhead : deref n.chars ≠ space)
    (htouch : Typed sh (touchLine n) t) (hmade : (fsCreateFile sh.fs (some n)).1 = 0) :
    NamesAgree t n ↔ space ∉ n.chars := by
  obtain ⟨m, h⟩ := quiet_run s run
  obtain ⟨hcreates, m1, hquiet, hfile⟩ := h.touched hhead htouch hmade
  have hne : n.chars ≠ [] := List.ne_nil_of_length_pos hcreates.1.1
  have hwritten : ∀ x, ∃ u, Typed t (writeLine n x) u := fun x =>
    ⟨_, _, dispatch_writeLine hne hhead, 0, fun _ => 0, rfl⟩
  constructor
  · intro hagree hspace
    obtain ⟨⟨u, hu⟩, hall⟩ := hagree.write letterX (by decide) (by decide)
    have hword := write_mentions_word hcreates.1.2 hhead hspace hu
    have hsame : wordOf n = n := hword.unique (hall u hu).1
    have hnone : space ∉ (wordOf n).chars := space_notMem_firstWord n.chars
    rw [hsame] at hnone
    exact hnone hspace
  · intro hspace
    refine ⟨⟨dispatch_catLine hhead, hquiet.stores_iff.mpr ⟨hfile.mem, hfile.content⟩⟩, ⟨?_, ?_⟩, ?_⟩
    · exact ⟨_, _, dispatch_rmLine hhead, 0, fun _ => 0, rfl⟩
    · intro u hu
      exact hquiet.rm_line hhead hfile.mem hu
    · intro x _ hx
      exact ⟨hwritten x, fun u hu => hquiet.write_line hfile.mem hfile.content hspace hx hu⟩

def touchedShell : Shell := cmdTouch emptyShell nameA

theorem names_agree_iff_sample : NamesAgree touchedShell nameA :=
  (names_agree_iff blankState (.nil _) (by decide) ⟨_, dispatch_touchLine (by decide), 0, fun _ => 0, rfl⟩
    (by decide +kernel)).mpr (by decide)

/-- A name with a space inside. -/
def nameAB : CString := ⟨ascii "a b", by decide⟩

def spacedShell : Shell := cmdTouch emptyShell nameAB

def splitShell : Shell := cmdWrite (fun _ => 0) spacedShell (writeArgs nameAB letterX)

/-- The write command makes a file `a` of the text `b x`, and `a b` stays empty. -/
theorem write_splits_name :
    (deref nameAB.chars ≠ space ∧ Typed emptyShell (touchLine nameAB) spacedShell ∧
      (fsCreateFile emptyShell.fs (some nameAB)).1 = 0 ∧ Typed spacedShell (writeLine nameAB letterX) splitShell) ∧
    (fsFindInode spacedShell.fs nameA = 0 ∧ fsFindInode splitShell.fs nameA ≠ 0 ∧
      (splitShell.fs.inodes (fsFindInode splitShell.fs nameA)).size = 3 ∧
      (splitShell.fs.inodes (fsFindInode splitShell.fs nameAB)).size = 0) ∧
    ¬ NamesAgree spacedShell nameAB := by
  have hwrite : Typed spacedShell (writeLine nameAB letterX) splitShell :=
    ⟨_, dispatch_writeLine (by decide) (by decide), 0, fun _ => 0, rfl⟩
  have hbefore : fsFindInode spacedShell.fs nameA = 0 := by decide +kernel
  have hafter : fsFindInode splitShell.fs nameA ≠ 0 := by decide +kernel
  refine ⟨⟨by decide, ⟨_, dispatch_touchLine (by decide), 0, fun _ => 0, rfl⟩, by decide +kernel, hwrite⟩,
    ⟨hbefore, hafter, by decide +kernel, by decide +kernel⟩, ?_⟩
  intro hagree
  obtain ⟨_, hall⟩ := hagree.write letterX (by decide) (by decide)
  obtain ⟨_, _, honly⟩ := hall splitShell hwrite
  exact hafter ((honly nameA (by decide)).1.mpr hbefore)

end SengKernel.Ksh
