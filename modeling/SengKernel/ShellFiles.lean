import SengKernel.ShellCommands

/- Between two commands the file system stands for a map of files that nothing has
   open, and cat prints the contents of that map. -/
namespace SengKernel.Ksh
open BoundedLoop MachineWord Str Fs Splice Transition

structure Quiet (s : State) (m : FileMap) : Prop where
  represents : Represents s m
  closed : ∀ k, m.fds k = none
  noNul : ∀ f ∈ m.names, 0 ∉ m.content f

/-- Only what free descriptors still hold may differ. -/
structure SameFiles (s t : State) : Prop where
  disk : { t with openFiles := s.openFiles } = s
  closed : ∀ k < 16, (t.openFiles k).valid = false

/-- `cat f` ends, and prints `xs` in pieces of 255 bytes. -/
def Shows (sh : Shell) (f : CString) (xs : List UInt8) : Prop :=
  ∀ stack, ∃ t, (∃ fuel, ∀ more, cmdCat (fuel + more) stack sh f = some t) ∧
    t.output = sh.output ++ [.puts (ascii "\n")] ++ (pieces 255 xs).map .puts ++ [.puts (ascii "\n\n")] ∧
    SameFiles sh.fs t.fs

/-- What the name stands for; a name without a file stands for nothing. -/
def bytesOf (m : FileMap) (f : CString) : List UInt8 := if f ∈ m.names then m.content f else []

/-- `m'` is `m` with a file `f` of content `xs`. -/
structure Becomes (m m' : FileMap) (f : CString) (xs : List UInt8) : Prop where
  names : m'.names = insert f m.names
  content : m'.content f = xs
  others : ∀ g, g ≠ f → m'.content g = m.content g

section Maps

variable {m m' : FileMap} {f : CString} {xs : List UInt8}

theorem Becomes.mem (h : Becomes m m' f xs) : f ∈ m'.names := h.names ▸ Finset.mem_insert_self f m.names

theorem Becomes.bytesOf (h : Becomes m m' f xs) : Ksh.bytesOf m' f = xs := by
  rw [Ksh.bytesOf, if_pos h.mem, h.content]

theorem Becomes.noNul (h : Becomes m m' f xs) (hm : ∀ g ∈ m.names, 0 ∉ m.content g) (hxs : 0 ∉ xs) :
    ∀ g ∈ m'.names, 0 ∉ m'.content g := by
  intro g hg
  rw [h.names] at hg
  by_cases hgf : g = f
  · rw [hgf, h.content]
    exact hxs
  · rw [h.others g hgf]
    exact hm g ((Finset.mem_insert.mp hg).resolve_left hgf)

theorem sum_pages (m : FileMap) (f : CString) :
    ∑ g ∈ m.names, pages (m.content g).length =
      ∑ g ∈ m.names.erase f, pages (m.content g).length + pages (Ksh.bytesOf m f).length := by
  by_cases hf : f ∈ m.names
  · rw [Ksh.bytesOf, if_pos hf, Finset.sum_erase_add _ _ hf]
  · rw [Ksh.bytesOf, if_neg hf, Finset.erase_eq_of_notMem hf]
    rfl

/-- The blocks that a file has or could get stay the same when only it changes. -/
theorem Becomes.room (h : Becomes m m' f xs) :
    pages xs.length + m'.free = pages (Ksh.bytesOf m f).length + m.free := by
  have hrest : ∑ g ∈ m'.names.erase f, pages (m'.content g).length = ∑ g ∈ m.names.erase f, pages (m.content g).length := by
    rw [h.names, Finset.erase_insert_eq_erase]
    exact Finset.sum_congr rfl (fun g hg => by rw [h.others g (Finset.ne_of_mem_erase hg)])
  have hold := sum_pages m f
  have hnew := sum_pages m' f
  have hfits := m.fits
  have hfits' := m'.fits
  rw [h.bytesOf, hrest] at hnew
  simp only [FileMap.free]
  omega

/-- Where `fs_create_file` makes a file. -/
def Creates (m : FileMap) (f : CString) : Prop :=
  (1 ≤ f.chars.length ∧ f.chars.length ≤ 27) ∧ f ∉ m.names ∧ m.names.card < 128

theorem create_cases (m : FileMap) (f : CString) :
    (¬ Creates m f ∧ m.create (some f) = (-1, m)) ∨
    (Creates m f ∧ ∃ m1, m.create (some f) = (0, m1) ∧ Becomes m m1 f [] ∧ m1.fds = m.fds) := by
  by_cases h : Creates m f
  · refine Or.inr ⟨h, m.addFile f h.1 h.2.1 h.2.2, ?_, ⟨rfl, Function.update_self .., fun g hg => ?_⟩, rfl⟩
    · rw [FileMap.create]
      exact dif_pos h
    · exact Function.update_of_ne hg _ _
  · exact Or.inl ⟨h, by rw [FileMap.create]; exact dif_neg h⟩

theorem Becomes.trans {m1 m2 : FileMap} {ys : List UInt8} (h : Becomes m m1 f xs) (h' : Becomes m1 m2 f ys) :
    Becomes m m2 f ys := by
  refine ⟨?_, h'.content, fun g hg => (h'.others g hg).trans (h.others g hg)⟩
  rw [h'.names, h.names, Finset.insert_idem]

/-- Opening a file for writing where nothing is open. -/
theorem openOrCreate_cases (hclosed : ∀ k, m.fds k = none) (f : CString) :
    (f ∉ m.names ∧ ¬ Creates m f ∧ m.openOrCreate (some f) 1 = (-1, m)) ∨
    ((f ∈ m.names ∨ Creates m f) ∧ ∃ m1, m.openOrCreate (some f) 1 = (0, m1) ∧ Becomes m m1 f (Ksh.bytesOf m f) ∧
      m1.fds 0 = some ⟨f, 0⟩ ∧ ∀ k, k ≠ 0 → m1.fds k = none) := by
  have hopen : ∀ m1 : FileMap, (∀ k, m1.fds k = none) → f ∈ m1.names → Becomes m m1 f (Ksh.bytesOf m f) →
      ∃ m2, m1.openFile f = (0, m2) ∧ Becomes m m2 f (Ksh.bytesOf m f) ∧ m2.fds 0 = some ⟨f, 0⟩ ∧
        ∀ k, k ≠ 0 → m2.fds k = none := by
    intro m1 hclosed1 hf hfile
    have hlow : m1.lowestFree = some 0 :=
      scan_eq_some (Nat.le_refl 0) (by decide) (by rw [hclosed1]; rfl) (fun j _ hj => absurd hj (Nat.not_lt_zero j))
    have hzero : ∀ e, some (Opened.mk f 0) = some e → 0 < 16 ∧ e.name ∈ m1.names ∧ e.offset ≤ (m1.content e.name).length := by
      intro e he
      cases he
      exact ⟨by decide, hf, Nat.zero_le _⟩
    refine ⟨m1.setFd 0 (some ⟨f, 0⟩) hzero, m1.openFile_some hf hlow hzero, ⟨hfile.names, hfile.content, hfile.others⟩,
      ?_, fun k hk => ?_⟩
    · change Function.update m1.fds 0 (some (Opened.mk f 0)) 0 = some (Opened.mk f 0)
      rw [Function.update_self]
    · exact (Function.update_of_ne hk _ _).trans (hclosed1 k)
  by_cases hf : f ∈ m.names
  · have hself : Becomes m m f (Ksh.bytesOf m f) :=
      ⟨(Finset.insert_eq_self.mpr hf).symm, by rw [Ksh.bytesOf, if_pos hf], fun _ _ => rfl⟩
    refine Or.inr ⟨Or.inl hf, ?_⟩
    rw [FileMap.openOrCreate, if_neg (fun hnew => hnew.1 hf)]
    exact hopen m hclosed hf hself
  · have hnew : f ∉ m.names ∧ (1 : Int) ≠ 0 := ⟨hf, by decide⟩
    rw [FileMap.openOrCreate, if_pos hnew]
    rcases create_cases m f with ⟨hno, hnone⟩ | ⟨hyes, m1, hsome, hfile, hfds⟩
    · refine Or.inl ⟨hf, hno, ?_⟩
      rw [hnone, FileMap.openFile, dif_neg hf]
    · refine Or.inr ⟨Or.inr hyes, ?_⟩
      rw [hsome]
      refine hopen m1 (fun k => hfds ▸ hclosed k) hfile.mem ?_
      rw [Ksh.bytesOf, if_neg hf]
      exact hfile

/-- Writing through the only descriptor and closing it. -/
theorem write_close {m1 : FileMap} (h0 : m1.fds 0 = some ⟨f, 0⟩) (hrest : ∀ k, k ≠ 0 → m1.fds k = none)
    (buf : Nat → UInt8) {count n : Nat} (hn : n = min count (m1.capacity f)) :
    ∃ m2 m3, m1.write ((0 : Nat) : Int) (some buf) count = ((n : Int), m2) ∧ m2.close ((0 : Nat) : Int) = (0, m3) ∧
      Becomes m1 m3 f (splice (m1.content f) 0 (window buf 0 n)) ∧ ∀ k, m3.fds k = none := by
  obtain ⟨_, hf, _⟩ := m1.opened 0 _ h0
  have hfit : 0 + (window buf 0 n).length ≤ m1.capacity f := by
    rw [length_window]
    omega
  have hdesc : m1.desc ((0 : Nat) : Int) = some ⟨f, 0⟩ := h0
  have hcount : n = min count (m1.capacity f - 0) := hn
  have hwrite := m1.write_some hdesc buf hcount hfit
  refine ⟨_, (m1.store 0 ⟨f, 0⟩ (window buf 0 n) h0 hfit).setFd 0 none (by simp), hwrite, ?_, ⟨?_, ?_, fun g hg => ?_⟩,
    fun k => ?_⟩
  · rw [FileMap.close, if_pos]
    · rfl
    · change ((Function.update m1.fds 0 (some _)) 0).isSome = true
      rw [Function.update_self]
      rfl
  · exact (Finset.insert_eq_self.mpr hf).symm
  · exact Function.update_self ..
  · exact Function.update_of_ne hg _ _
  · change Function.update (Function.update m1.fds 0 _) 0 none k = none
    rw [Function.update_idem]
    by_cases hk : k = 0
    · rw [hk, Function.update_self]
    · rw [Function.update_of_ne hk]
      exact hrest k hk

end Maps

section Cat

variable {s : State} {m : FileMap} {n k : Nat} {xs ys : List UInt8}

/-- The buffer that cat prints holds the bytes read and a NUL. -/
theorem text_buffer (hnul : 0 ∉ ys) (hlength : ys.length < 256) (buf : Nat → UInt8) :
    text (window (Function.update (overlay ys buf) ys.length 0) 0 256) = ys := by
  have hfirst : window (Function.update (overlay ys buf) ys.length 0) 0 ys.length = ys := by
    refine Eq.trans (window_congr (fun j hj => ?_)) (window_overlay ys buf)
    rw [Nat.zero_add, Function.update_of_ne (Nat.ne_of_lt hj)]
  have hsplit : ys.length + (255 - ys.length + 1) = 256 := by omega
  have hcut := window_append (Function.update (overlay ys buf) ys.length 0) 0 ys.length (255 - ys.length + 1)
  rw [hsplit, hfirst, Nat.zero_add, window_succ, Function.update_self] at hcut
  rw [← hcut, text_append hnul, text_cons, if_pos rfl, List.append_nil]

theorem catLoop_eq (h : Holds s n xs) (hnul : 0 ∉ xs) (hk : k < 16) {o : Nat} (ho : o ≤ xs.length) {fuel : Nat}
    (hfuel : xs.length - o < fuel) (output : List Printed) (buffer : Nat → UInt8) :
    catLoop k fuel ⟨Fs.setDesc s k ⟨n, o, true⟩, output⟩ buffer =
      some ⟨Fs.setDesc s k ⟨n, xs.length, true⟩, output ++ (pieces 255 (xs.drop o)).map .puts⟩ := by
  induction fuel generalizing o output buffer with
  | zero => exact (Nat.not_lt_zero _ hfuel).elim
  | succ fuel ih =>
      have hsmall := h.small
      obtain ⟨ys, hys⟩ : ∃ ys, ys = (xs.drop o).take 255 := ⟨_, rfl⟩
      have hlength : ys.length = min 255 (xs.length - o) := by rw [hys, List.length_take, List.length_drop]
      have hholds : Holds (Fs.setDesc s k ⟨n, o, true⟩) n xs := h.congr rfl (fun _ _ => rfl)
      have hread := hholds.fsRead hk (by rw [setDesc_self]) (by rw [setDesc_self]) (by rw [setDesc_self]) ho
        (show o + UInt32.toNat 255 < 4294967296 by change o + 255 < _; omega) buffer hys
      rw [setDesc_self, setDesc_setDesc] at hread
      rw [catLoop, hread]
      by_cases hend : o = xs.length
      · have hzero : ys.length = 0 := by omega
        rw [if_neg (by dsimp only; omega), hzero, List.drop_of_length_le (by omega), pieces_nil (by decide), ← hend]
        simp
      · have hne : xs.drop o ≠ [] := List.ne_nil_of_length_pos (by rw [List.length_drop]; omega)
        have hnul' : 0 ∉ ys := fun hmem => hnul (List.mem_of_mem_drop (List.mem_of_mem_take (hys ▸ hmem)))
        rw [if_pos (by dsimp only; omega)]
        change catLoop k fuel ⟨Fs.setDesc s k ⟨n, o + ys.length, true⟩, output ++ [.puts (text (window
          (Function.update (overlay ys buffer) (Int.toNat ys.length) 0) 0 256))]⟩ _ = _
        rw [Int.toNat_natCast, text_buffer hnul' (by omega), ih (by omega) (by omega), pieces_cons (by decide) hne, ← hys,
          List.drop_drop, List.append_assoc]
        -- a short piece is the last one
        have hdrop : xs.drop (o + 255) = xs.drop (o + ys.length) := by
          by_cases hshort : xs.length ≤ o + 255
          · rw [List.drop_of_length_le hshort, List.drop_of_length_le (by omega)]
          · rw [show ys.length = 255 by omega]
        rw [hdrop]
        rfl

theorem catLoop_more_fuel {fd : Int} {fuel : Nat} {sh t : Shell} {buffer : Nat → UInt8}
    (h : catLoop fd fuel sh buffer = some t) (more : Nat) : catLoop fd (fuel + more) sh buffer = some t := by
  induction fuel generalizing sh buffer with
  | zero => cases h
  | succ fuel ih =>
      rw [Nat.add_right_comm]
      rw [catLoop] at h ⊢
      split at h
      · rename_i hmore
        rw [if_pos hmore]
        exact ih h
      · rename_i hend
        rw [if_neg hend]
        exact h

end Cat

section Quiet

variable {s : State} {m : FileMap} {f : CString}

theorem quiet_init (s : State) : Quiet (fsInit s) FileMap.empty := ⟨represents_init s, fun _ => rfl, nofun⟩

theorem Quiet.free (h : Quiet s m) {k : Nat} (hk : k < 16) : (s.openFiles k).valid = false := by
  rw [h.represents.valid_eq hk, h.closed]
  rfl

theorem Quiet.strlen_ne (_ : Quiet s m) (hf : f ∈ m.names) : strlen f.chars ≠ 0 := by
  rw [strlen_eq, CString.text_chars]
  have := (m.named f hf).1
  omega

/-- The first descriptor is free. -/
theorem Quiet.fsOpenInode (h : Quiet s m) {n : Nat} (hn : n ≠ 0) :
    Fs.fsOpenInode s n = (((0 : Nat) : Int), Fs.setDesc s 0 ⟨n, 0, true⟩) := by
  rcases fsOpenInode_cases s n with ⟨_, hnone | hfull⟩ | ⟨_, k, _, _, hbefore, heq⟩
  · exact (hn hnone).elim
  · cases (h.free (Nat.zero_lt_succ 15)).symm.trans (hfull 0 (by decide))
  · have hk : k = 0 := by
      by_contra hne
      cases (h.free (Nat.zero_lt_succ 15)).symm.trans (hbefore 0 (by omega))
    rw [heq, hk]

theorem Quiet.find_ne (h : Quiet s m) (hf : f ∈ m.names) : fsFindInode s f ≠ 0 := fun hzero =>
  h.represents.listing.find_eq_zero.mp hzero hf

theorem Quiet.holds (h : Quiet s m) (hf : f ∈ m.names) : Holds s (fsFindInode s f) (m.content f) := by
  obtain ⟨i, hi⟩ := (h.represents.listed f).mp hf
  rw [h.represents.listing.find hi]
  exact h.represents.holds i f hi

theorem Quiet.fsOpen (h : Quiet s m) (hf : f ∈ m.names) (create : Int) :
    Fs.fsOpen s (some f) create = (((0 : Nat) : Int), Fs.setDesc s 0 ⟨fsFindInode s f, 0, true⟩) := by
  have hne := h.find_ne hf
  rw [Fs.fsOpen, if_neg (fun hnew => hne hnew.1)]
  exact h.fsOpenInode hne

/-- A descriptor that is free may hold anything. -/
theorem Quiet.reset (h : Quiet s m) (k n o : Nat) : Quiet (Fs.setDesc s k ⟨n, o, false⟩) m := by
  have hrep := h.represents.setDesc (k := k) (d := ⟨n, o, false⟩) (o := none) rfl (by simp)
  rw [m.setFd_self (h.closed k)] at hrep
  exact ⟨hrep, h.closed, h.noNul⟩

theorem fsClose_setDesc (s : State) {k : Nat} (hk : k < 16) (n o : Nat) :
    fsClose (Fs.setDesc s k ⟨n, o, true⟩) k = (0, Fs.setDesc s k ⟨n, o, false⟩) := by
  have hgood : badFd (Fs.setDesc s k ⟨n, o, true⟩) (k : Int) = false := badFd_eq_false.mpr ⟨k, hk, rfl, by rw [setDesc_self]⟩
  rw [fsClose, hgood, Int.toNat_natCast, setDesc_self, setDesc_setDesc]
  rfl

/-- cat on a file that is there. -/
theorem Quiet.cmdCat (h : Quiet s m) (hf : f ∈ m.names) {fuel : Nat} (hfuel : (m.content f).length < fuel)
    (stack : Nat → UInt8) (output : List Printed) :
    cmdCat fuel stack ⟨s, output⟩ f =
      some ⟨Fs.setDesc s 0 ⟨fsFindInode s f, (m.content f).length, false⟩,
        output ++ [.puts (ascii "\n")] ++ (pieces 255 (m.content f)).map .puts ++ [.puts (ascii "\n\n")]⟩ := by
  have hloop := catLoop_eq (h.holds hf) (h.noNul f hf) (Nat.zero_lt_succ 15) (Nat.zero_le _)
    (show (m.content f).length - 0 < fuel by omega) (output ++ [.puts (ascii "\n")]) stack
  rw [List.drop_zero] at hloop
  have hclose := fsClose_setDesc s (Nat.zero_lt_succ 15) (fsFindInode s f) (m.content f).length
  have htext : text (ascii "\n") = ascii "\n" := rfl
  have htexts : text (ascii "\n\n") = ascii "\n\n" := rfl
  rw [Ksh.cmdCat, if_neg (h.strlen_ne hf), h.fsOpen hf]
  simp only [Int.natCast_nonneg, not_lt.mpr, if_false, vgaPuts, htext, htexts, hloop, Option.map_some, hclose]

/-- cat on a file that is not there. -/
theorem Quiet.cmdCat_absent (h : Quiet s m) (hf : f ∉ m.names) (fuel : Nat) (stack : Nat → UInt8)
    (output : List Printed) : ∃ p, Ksh.cmdCat fuel stack ⟨s, output⟩ f = some ⟨s, output ++ [p]⟩ := by
  have hopen : Fs.fsOpen s (some f) 0 = (-1, s) := by
    rw [Fs.fsOpen, if_neg (fun hnew => hnew.2 rfl), h.represents.listing.absent hf, Fs.fsOpenInode, if_pos rfl]
  rw [Ksh.cmdCat]
  split
  · exact ⟨_, rfl⟩
  · rw [hopen]
    exact ⟨_, rfl⟩

theorem Quiet.shows (h : Quiet s m) (hf : f ∈ m.names) (output : List Printed) : Shows ⟨s, output⟩ f (m.content f) := by
  intro stack
  refine ⟨_, ⟨(m.content f).length + 1, fun more => h.cmdCat hf (by omega) stack output⟩, rfl, ?_, fun k hk => ?_⟩
  · rfl
  · exact (h.reset 0 _ _).free hk

end Quiet

section Commands

variable {s : State} {m : FileMap} {f : CString}

theorem cmdCat_more_fuel {fuel : Nat} {stack : Nat → UInt8} {sh t : Shell} (h : cmdCat fuel stack sh f = some t)
    (more : Nat) : cmdCat (fuel + more) stack sh f = some t := by
  simp only [cmdCat] at h ⊢
  split at h
  · rename_i hempty
    rw [if_pos hempty]
    exact h
  · rename_i hname
    rw [if_neg hname]
    split at h
    · rename_i hfail
      rw [if_pos hfail]
      exact h
    · rename_i hopen
      rw [if_neg hopen]
      obtain ⟨u, hu, rfl⟩ := Option.map_eq_some_iff.mp h
      rw [catLoop_more_fuel hu more]
      rfl

theorem Quiet.cat (h : Quiet s m) {fuel : Nat} {stack : Nat → UInt8} {output : List Printed} {t : Shell}
    (hcat : Ksh.cmdCat fuel stack ⟨s, output⟩ f = some t) : Quiet t.fs m := by
  by_cases hf : f ∈ m.names
  · have hmore := cmdCat_more_fuel hcat ((m.content f).length + 1)
    rw [h.cmdCat hf (by omega)] at hmore
    cases hmore
    exact h.reset 0 _ _
  · obtain ⟨p, habsent⟩ := h.cmdCat_absent hf fuel stack output
    rw [habsent] at hcat
    cases hcat
    exact h

/-- The file system makes a file where there is none and room for one. -/
theorem Quiet.created (h : Quiet s m) (f : CString) :
    (¬ Creates m f ∧ (fsCreateFile s (some f)).1 = -1 ∧ Quiet (fsCreateFile s (some f)).2 m) ∨
    (Creates m f ∧ (fsCreateFile s (some f)).1 = 0 ∧ ∃ m1, Quiet (fsCreateFile s (some f)).2 m1 ∧ Becomes m m1 f []) := by
  obtain ⟨hret, hrep⟩ := h.represents.create (some f)
  rcases create_cases m f with ⟨hno, hnone⟩ | ⟨hyes, m1, hsome, hfile, hfds⟩
  · rw [hnone] at hret hrep
    exact Or.inl ⟨hno, hret, hrep, h.closed, h.noNul⟩
  · rw [hsome] at hret hrep
    refine Or.inr ⟨hyes, hret, m1, ⟨hrep, ?_, hfile.noNul h.noNul List.not_mem_nil⟩, hfile⟩
    intro k
    rw [hfds, h.closed k]

theorem Quiet.touch (h : Quiet s m) (args : CString) (output : List Printed) :
    ∃ m', Quiet (cmdTouch ⟨s, output⟩ args).fs m' := by
  have hmade : ∃ m', Quiet (fsCreateFile s (some args)).2 m' := by
    rcases h.created args with ⟨_, _, hquiet⟩ | ⟨_, _, m1, hquiet, _⟩
    · exact ⟨m, hquiet⟩
    · exact ⟨m1, hquiet⟩
  simp only [cmdTouch]
  split
  · exact ⟨m, h⟩
  · split
    · exact hmade
    · exact hmade

/-- The write command on a file that is there or can be made. -/
theorem Quiet.writeText (h : Quiet s m) (f : CString) {text : List UInt8} (hnul : 0 ∉ text) (stack : Nat → UInt8)
    (output : List Printed) {n : Nat}
    (hn : n = min (UInt32.ofNat text.length).toNat (min 32768 (4096 * (pages (bytesOf m f).length + m.free)))) :
    (f ∉ m.names ∧ ¬ Creates m f ∧ Quiet (writeText stack ⟨s, output⟩ f text).fs m) ∨
    ((f ∈ m.names ∨ Creates m f) ∧ ∃ m', Quiet (writeText stack ⟨s, output⟩ f text).fs m' ∧
      Becomes m m' f (splice (bytesOf m f) 0 (text.take n))) := by
  have hlen : strlen text = text.length := by
    rw [strlen_eq]
    exact congrArg List.length (CString.text_chars ⟨text, hnul⟩)
  obtain ⟨hret, hrep⟩ := h.represents.open (some f) 1
  simp only [Ksh.writeText, hlen]
  generalize Fs.fsOpen s (some f) 1 = opened at hret hrep
  rcases openOrCreate_cases h.closed f with ⟨hf, hno, hnone⟩ | ⟨hyes, m1, hsome, hfile, h0, hrest⟩
  · rw [hnone] at hret hrep
    have hret : opened.1 = -1 := hret
    rw [if_pos (by rw [hret]; decide)]
    exact Or.inl ⟨hf, hno, hrep, h.closed, h.noNul⟩
  · rw [hsome] at hret hrep
    refine Or.inr ⟨hyes, ?_⟩
    have hcapacity : m1.capacity f = min 32768 (4096 * (pages (bytesOf m f).length + m.free)) := by
      rw [FileMap.capacity, hfile.content, hfile.room]
    obtain ⟨m2, m3, hwrite, hclose, hwritten, hclosed⟩ :=
      write_close h0 hrest (overlay text stack) (hn.trans (by rw [hcapacity]))
    have hle : n ≤ text.length := by
      have := Nat.mod_le text.length (2 ^ 32)
      rw [UInt32.toNat_ofNat'] at hn
      omega
    have hprefix : window (overlay text stack) 0 n = text.take n := by
      have hcut := window_append (overlay text stack) 0 n (text.length - n)
      rw [Nat.add_sub_cancel' hle, window_overlay] at hcut
      exact ((congrArg (List.take n) hcut).symm.trans (List.take_left' (length_window ..))).symm
    have hagree := hrep.write ((0 : Nat) : Int) (some (overlay text stack)) (UInt32.ofNat text.length)
    rw [hwrite] at hagree
    have hlast := (hagree.2.close ((0 : Nat) : Int)).2
    rw [hclose] at hlast
    have hret : opened.1 = ((0 : Nat) : Int) := hret
    have hdone : Quiet (fsClose (Fs.fsWrite opened.2 opened.1 (some (overlay text stack))
        (UInt32.ofNat text.length)).2 opened.1).2 m3 := by
      rw [hret]
      refine ⟨hlast, hclosed, (hfile.trans hwritten).noNul h.noNul ?_⟩
      rw [hfile.content, hprefix, splice, List.take_zero, List.nil_append, List.mem_append]
      rintro (hmem | hmem)
      · exact hnul (List.mem_of_mem_take hmem)
      · rw [bytesOf] at hmem
        split at hmem
        · rename_i hf
          exact h.noNul f hf (List.mem_of_mem_drop hmem)
        · exact absurd (List.mem_of_mem_drop hmem) List.not_mem_nil
    have hopen : ¬ opened.1 < 0 := by
      rw [hret]
      decide
    rw [if_neg hopen]
    refine ⟨m3, ?_, ?_⟩
    · split
      · exact hdone
      · exact hdone
    · rw [← hprefix, ← hfile.content]
      exact hfile.trans hwritten

theorem Quiet.write (h : Quiet s m) (stack : Nat → UInt8) (args : CString) (output : List Printed) :
    ∃ m', Quiet (cmdWrite stack ⟨s, output⟩ args).fs m' := by
  simp only [cmdWrite]
  split
  · exact ⟨m, h⟩
  · split
    · exact ⟨m, h⟩
    · generalize ofBytes _ = f
      have hnul : 0 ∉ kLtrim (args.chars.drop (firstWord args.chars).length).tail := fun hmem =>
        args.noNul (List.mem_of_mem_drop (List.mem_of_mem_tail (kLtrim_subset _ hmem)))
      rcases h.writeText f hnul stack output rfl with ⟨_, _, hquiet⟩ | ⟨_, m', hquiet, _⟩
      · exact ⟨m, hquiet⟩
      · exact ⟨m', hquiet⟩

/-- The file system removes the file that is there. -/
theorem Quiet.unlinked (h : Quiet s m) (f : CString) :
    (f ∉ m.names ∧ Quiet (fsUnlink s (some f)).2 m) ∨
    ((fsUnlink s (some f)).1 = 0 ∧ ∃ m', Quiet (fsUnlink s (some f)).2 m' ∧ m'.names = m.names.erase f ∧
      m'.content = m.content) := by
  obtain ⟨y, hy, hret, hrep⟩ := h.represents.unlink (some f) (fun g _ _ k hk hvalid => by
    rw [h.free hk] at hvalid
    cases hvalid)
  by_cases hf : f ∈ m.names
  · have hnone : ∀ k < 16, (m.fds k).map Opened.name ≠ some f := by
      intro k _ hopen
      rw [h.closed k] at hopen
      cases hopen
    rw [FileMap.unlink, if_neg (not_not.mpr hf), dif_pos hnone] at hy
    cases hy
    exact Or.inr ⟨hret, _, ⟨hrep, h.closed, fun g hg => h.noNul g (Finset.mem_of_mem_erase hg)⟩, rfl, rfl⟩
  · rw [FileMap.unlink, if_pos hf] at hy
    cases hy
    exact Or.inl ⟨hf, hrep, h.closed, h.noNul⟩

theorem Quiet.rm (h : Quiet s m) (args : CString) (output : List Printed) :
    ∃ m', Quiet (cmdRm ⟨s, output⟩ args).fs m' := by
  have hremoved : ∃ m', Quiet (fsUnlink s (some args)).2 m' := by
    rcases h.unlinked args with ⟨_, hquiet⟩ | ⟨_, m', hquiet, _⟩
    · exact ⟨m, hquiet⟩
    · exact ⟨m', hquiet⟩
  simp only [cmdRm]
  split
  · exact ⟨m, h⟩
  · split
    · exact hremoved
    · exact hremoved

theorem quiet_step {sh t : Shell} {c : Command} (h : Quiet sh.fs m) (hstep : Step sh c t) : ∃ m', Quiet t.fs m' := by
  obtain ⟨fuel, stack, hstep⟩ := hstep
  obtain ⟨s, output⟩ := sh
  cases c with
  | touch args =>
      cases hstep
      exact h.touch args output
  | cat args => exact ⟨m, h.cat hstep⟩
  | write args =>
      cases hstep
      exact h.write stack args output
  | rm args =>
      cases hstep
      exact h.rm args output

theorem quiet_run (s : State) {output : List Printed} {commands : List Command} {sh : Shell}
    (run : Run Step ⟨fsInit s, output⟩ commands sh) : ∃ m, Quiet sh.fs m :=
  run.invariant (I := fun sh => ∃ m, Quiet sh.fs m) (fun _ _ _ ⟨_, h⟩ step => quiet_step h step) ⟨_, quiet_init s⟩

end Commands

/-- Between commands all descriptors are free, and cat shows exactly the file. -/
theorem cat_shows_file (s : State) {commands : List Command} {sh : Shell}
    (run : Run Step ⟨fsInit s, []⟩ commands sh) :
    (∀ k < 16, (sh.fs.openFiles k).valid = false) ∧
    ∀ f, fsFindInode sh.fs f ≠ 0 → ∃ xs,
      xs.map some = (List.range (sh.fs.inodes (fsFindInode sh.fs f)).size).map
        (contentByte sh.fs (fsFindInode sh.fs f)) ∧
      (pieces 255 xs).flatten = xs ∧ Shows sh f xs := by
  obtain ⟨m, h⟩ := quiet_run s run
  refine ⟨fun k hk => h.free hk, fun f hfound => ?_⟩
  have hf : f ∈ m.names := by
    by_contra habsent
    exact hfound (h.represents.listing.absent habsent)
  have hholds := h.holds hf
  refine ⟨m.content f, ?_, flatten_pieces (by decide) _, h.shows hf sh.output⟩
  rw [hholds.size]
  refine List.ext_getElem? (fun p => ?_)
  rw [List.getElem?_map, List.getElem?_map]
  by_cases hp : p < (m.content f).length
  · have hsmall := hholds.small
    have hblock := (hholds.blocks (p / 4096) (by omega)).mpr (by omega)
    rw [hholds.bytes p hp, List.getElem?_range hp]
    exact congrArg some (contentByte_some ⟨by omega, hblock⟩).symm
  · rw [List.getElem?_eq_none (Nat.le_of_not_lt hp), List.getElem?_eq_none (by rw [List.length_range]; omega)]
    rfl

/-- A file that one command wrote. -/
def greeted : Shell := cmdWrite (fun _ => 0) ⟨fsInit blankState, []⟩ ⟨ascii "a hi", by decide⟩

theorem cat_shows_file_sample : Shows greeted nameA (ascii "hi") := by
  obtain ⟨_, hall⟩ := cat_shows_file blankState
    (.cons (a := .write ⟨ascii "a hi", by decide⟩) (t := greeted) ⟨0, fun _ => 0, rfl⟩ (.nil _))
  obtain ⟨xs, hxs, _, hshows⟩ := hall nameA (by decide +kernel)
  have hbytes : (List.range (greeted.fs.inodes (fsFindInode greeted.fs nameA)).size).map
      (contentByte greeted.fs (fsFindInode greeted.fs nameA)) = (ascii "hi").map some := by decide +kernel
  rw [hbytes] at hxs
  rwa [List.map_injective_iff.mpr (Option.some_injective _) hxs] at hshows

end SengKernel.Ksh
