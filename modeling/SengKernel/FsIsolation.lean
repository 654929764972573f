import SengKernel.FsOwnership

/- Descriptors and the files they were opened on. The history gives every file an
   identity of its own, so that a later file on the same inode is another file. -/
namespace SengKernel.Fs
open BoundedLoop MachineWord Str Transition

/-- The file system with what happened to it: the file last put on each inode, the
number of files made, and the file that each descriptor was opened on. -/
structure History where
  fs : State
  born : Nat → Nat
  files : Nat
  target : Nat → Nat

def bornAfter (h : History) (c : Call) : Nat → Nat :=
  if makesFile h.fs c then Function.update h.born (fsAllocInode h.fs).1 h.files else h.born

def targetAfter (h : History) (c : Call) : Nat → Nat :=
  match c with
  | .openFile filename create =>
      match (fsOpen h.fs filename create).1 with
      | .ofNat fd =>
          Function.update h.target fd (bornAfter h c ((fsOpen h.fs filename create).2.openFiles fd).inode)
      | .negSucc _ => h.target
  | _ => h.target

def record (h : History) (c : Call) : History :=
  { fs := (call h.fs c).2
    born := bornAfter h c
    files := if makesFile h.fs c then h.files + 1 else h.files
    target := targetAfter h c }

def HistoryStep (h : History) (c : Call) (h' : History) : Prop := record h c = h'

def startHistory (s : State) : History := { fs := fsInit s, born := fun _ => 0, files := 0, target := fun _ => 0 }

/-- Byte `p` of the file on inode `n`, if it has a block. -/
def contentByte (s : State) (n p : Nat) : Option UInt8 :=
  if (s.inodes n).blocks (p / 4096) = 0 then none
  else some (s.ramdisk ((s.inodes n).blocks (p / 4096) * 4096 + p % 4096))

/-- Writing through `d` leaves every listed file but the one `d` was opened on. -/
def Isolated (h : History) (d : Nat) : Prop :=
  (h.fs.openFiles d).valid = true → ∀ buffer count i, Live h.fs i →
    h.born (h.fs.directory i).inode ≠ h.target d →
    ((fsWrite h.fs d buffer count).2.inodes (h.fs.directory i).inode).size =
      (h.fs.inodes (h.fs.directory i).inode).size ∧
    ∀ p < 32768, contentByte (fsWrite h.fs d buffer count).2 (h.fs.directory i).inode p =
      contentByte h.fs (h.fs.directory i).inode p

/-- The call does not unlink the file that `d` is open on. -/
def KeepsFile (d : Nat) (h : History) (c : Call) : Prop :=
  ∀ f, c = .unlink (some f) → (h.fs.openFiles d).valid = true → fsFindInode h.fs f ≠ (h.fs.openFiles d).inode

/-- Inode `n` has no block in common with inode `m`, and its blocks are taken. -/
structure Spared (s : State) (m n : Nat) : Prop where
  other : n ≠ m
  apart : ∀ j < 8, (s.inodes n).blocks j ≠ 0 → ∀ i < 8, (s.inodes m).blocks i ≠ (s.inodes n).blocks j
  taken : ∀ j < 8, (s.inodes n).blocks j ≠ 0 → ByteBitmap.test s.blockBitmap ((s.inodes n).blocks j - 36) = true

section Writes

variable {s : State}

theorem putBytes_ramdisk (s : State) (fd : Nat) (buf : Nat → UInt8) (m w a : Nat) :
    (putBytes s fd buf m w).ramdisk a =
      if (s.inodes (s.openFiles fd).inode).blocks ((s.openFiles fd).offset / 4096) * 4096 +
          (s.openFiles fd).offset % 4096 ≤ a ∧
        a < (s.inodes (s.openFiles fd).inode).blocks ((s.openFiles fd).offset / 4096) * 4096 +
          (s.openFiles fd).offset % 4096 + w then
        buf (m + (a - ((s.inodes (s.openFiles fd).inode).blocks ((s.openFiles fd).offset / 4096) * 4096 +
          (s.openFiles fd).offset % 4096)))
      else s.ramdisk a := memcpy_apply ..

/-- The copy stays inside its block. -/
theorem putBytes_ramdisk_of_ne {fd : Nat} {buf : Nat → UInt8} {m w b o : Nat}
    (hw : w ≤ 4096 - (s.openFiles fd).offset % 4096) (ho : o < 4096)
    (hb : b ≠ (s.inodes (s.openFiles fd).inode).blocks ((s.openFiles fd).offset / 4096)) :
    (putBytes s fd buf m w).ramdisk (b * 4096 + o) = s.ramdisk (b * 4096 + o) := by
  rw [putBytes_ramdisk, if_neg]
  generalize (s.inodes (s.openFiles fd).inode).blocks ((s.openFiles fd).offset / 4096) = c at hb
  have hmod := Nat.mod_lt (s.openFiles fd).offset (show 0 < 4096 by decide)
  omega

theorem Spared.grow {m n j i : Nat} (h : Spared s m n) (hclear : ByteBitmap.test s.blockBitmap i = false) :
    Spared (growInode s m j i) m n := by
  have hsame : ∀ x, ((growInode s m j i).inodes n).blocks x = (s.inodes n).blocks x := fun x => by
    rw [growInode_blocks, if_neg (fun heq => h.other heq.1)]
  refine ⟨h.other, fun x hx hne y hy => ?_, fun x hx hne => ?_⟩
  · rw [hsame] at hne ⊢
    rw [growInode_blocks]
    split
    · intro heq
      have htaken := h.taken x hx hne
      rw [← heq, Nat.add_sub_cancel_left, hclear] at htaken
      cases htaken
    · exact h.apart x hx hne y hy
  · rw [hsame] at hne ⊢
    exact (ByteBitmap.test_set s.blockBitmap i _).trans (by rw [h.taken x hx hne, Bool.or_true])

theorem Spared.put {m n : Nat} (h : Spared s m n) (k : Nat) (buf : Nat → UInt8) (b w : Nat) :
    Spared (putBytes s k buf b w) m n := by
  refine ⟨h.other, fun x hx hne y hy => ?_, fun x hx hne => ?_⟩
  · rw [putBytes_blocks] at hne ⊢
    rw [putBytes_blocks]
    exact h.apart x hx hne y hy
  · rw [putBytes_blocks] at hne ⊢
    exact h.taken x hx hne

/-- A write leaves the files that its inode spares. -/
theorem Spared.write_keeps {d n : Nat} (h : Spared s (s.openFiles d).inode n) (buf : Nat → UInt8) (count : Nat) :
    (writeLoop d buf count ⟨s, 0⟩).fs.inodes n = s.inodes n ∧
    ∀ p < 32768, contentByte (writeLoop d buf count ⟨s, 0⟩).fs n p = contentByte s n p := by
  have hinv : Spared (writeLoop d buf count ⟨s, 0⟩).fs (s.openFiles d).inode n ∧
      ((writeLoop d buf count ⟨s, 0⟩).fs.openFiles d).inode = (s.openFiles d).inode ∧
      (writeLoop d buf count ⟨s, 0⟩).fs.inodes n = s.inodes n ∧
      ∀ p < 32768, contentByte (writeLoop d buf count ⟨s, 0⟩).fs n p = contentByte s n p := by
    refine writeLoop_invariant
      (fun t => Spared t (s.openFiles d).inode n ∧ (t.openFiles d).inode = (s.openFiles d).inode ∧
        t.inodes n = s.inodes n ∧ ∀ p < 32768, contentByte t n p = contentByte s n p)
      (fun t b ht _ _ _ hclear => ?_) (fun t m w ht hidx hblock hw => ?_) ⟨h, rfl, rfl, fun _ _ => rfl⟩
    · obtain ⟨hspared, hdesc, hsame, hbytes⟩ := ht
      rw [hdesc]
      have hkeep : (growInode t (s.openFiles d).inode ((t.openFiles d).offset / 4096) b).inodes n = t.inodes n := by
        simp [growInode, setInode, setFreeBlocks, hspared.other]
      refine ⟨hspared.grow hclear, hdesc, hkeep.trans hsame, fun p hp => ?_⟩
      rw [← hbytes p hp, contentByte, contentByte, hkeep]
      rfl
    · obtain ⟨hspared, hdesc, hsame, hbytes⟩ := ht
      have hkeep : (putBytes t d buf m w).inodes n = t.inodes n := by
        simp [putBytes, setInode, setDesc, hdesc, hspared.other]
      refine ⟨hspared.put d buf m w, (putBytes_desc_inode t d buf m w d).1.trans hdesc, hkeep.trans hsame,
        fun p hp => ?_⟩
      rw [← hbytes p hp, contentByte, contentByte, hkeep]
      by_cases hzero : (t.inodes n).blocks (p / 4096) = 0
      · rw [if_pos hzero, if_pos hzero]
      · rw [if_neg hzero, if_neg hzero]
        refine congrArg some (putBytes_ramdisk_of_ne hw (Nat.mod_lt p (by decide)) ?_)
        rw [hdesc]
        exact (hspared.apart (p / 4096) (by omega) hzero _ hidx).symm
  exact hinv.2.2

/-- A listed file spares every other. -/
theorem Owned.spared (h : Owned s) {e i : Nat} (he : Live s e) (hi : Live s i) (hne : i ≠ e) :
    Spared s (s.directory e).inode (s.directory i).inode :=
  ⟨fun heq => hne (h.inodeOnce i e hi he heq),
    fun j hj hblock k hk heq => hne (h.exclusive i e hi he j hj k hk hblock heq.symm).1,
    fun j hj hblock => h.allocated i hi j hj hblock⟩

/-- A write through a descriptor of one listed file leaves the others. -/
theorem Owned.write_other (h : Owned s) {d e i : Nat} (he : Live s e) (hd : (s.directory e).inode = (s.openFiles d).inode)
    (hi : Live s i) (hne : i ≠ e) (buf : Nat → UInt8) (count : Nat) :
    (writeLoop d buf count ⟨s, 0⟩).fs.inodes (s.directory i).inode = s.inodes (s.directory i).inode ∧
    ∀ p < 32768, contentByte (writeLoop d buf count ⟨s, 0⟩).fs (s.directory i).inode p =
      contentByte s (s.directory i).inode p :=
  (hd ▸ h.spared he hi hne : Spared s (s.openFiles d).inode (s.directory i).inode).write_keeps buf count

end Writes

section Anchors

variable {h h' : History} {d : Nat} {c : Call}

/-- An open `d` is on the inode of a listed file, the one it was opened on. -/
def Anchored (d : Nat) (h : History) : Prop :=
  (h.fs.openFiles d).valid = true → ∃ e, Live h.fs e ∧ (h.fs.directory e).inode = (h.fs.openFiles d).inode ∧
    h.born (h.fs.directory e).inode = h.target d

theorem Anchored.isolated (howned : Owned h.fs) (ha : Anchored d h) : Isolated h d := by
  intro hvalid buffer count i hi hother
  obtain ⟨e, he, hinode, hborn⟩ := ha hvalid
  have hne : i ≠ e := by
    rintro rfl
    exact hother hborn
  rcases fsWrite_cases h.fs d buffer count with heq | ⟨k, buf, _, hdk, _, _, _, heq⟩
  · rw [heq]
    exact ⟨rfl, fun _ _ => rfl⟩
  · obtain rfl : d = k := by exact_mod_cast hdk
    obtain ⟨hsame, hbytes⟩ := howned.write_other he hinode hi hne buf count.toNat
    rw [heq]
    exact ⟨by rw [hsame], hbytes⟩

/-- What a call leaves of an anchor: the entry, its inode and the identity on it. -/
theorem Anchored.keep (ha : Anchored d h) (hborn : ∀ e, Live h.fs e →
      h'.born (h.fs.directory e).inode = h.born (h.fs.directory e).inode) (htarget : h'.target d = h.target d)
    (hdir : ∀ e, Live h.fs e → (h.fs.openFiles d).valid = true →
      (h.fs.directory e).inode = (h.fs.openFiles d).inode → h'.fs.directory e = h.fs.directory e)
    (hdesc : (h'.fs.openFiles d).valid = true →
      (h.fs.openFiles d).valid = true ∧ (h'.fs.openFiles d).inode = (h.fs.openFiles d).inode) : Anchored d h' := by
  intro hvalid
  obtain ⟨hvalid', hinode⟩ := hdesc hvalid
  obtain ⟨e, he, heq, hsame⟩ := ha hvalid'
  have hentry := hdir e he hvalid' heq
  refine ⟨e, ⟨he.1, ?_⟩, ?_, ?_⟩
  · rw [hentry]
    exact he.2
  · rw [hentry, hinode]
    exact heq
  · rw [hentry, hborn e he, htarget]
    exact hsame

/-- A call that keeps the directory and opens nothing. -/
theorem Anchored.stay (ha : Anchored d h) (hborn : h'.born = h.born) (htarget : h'.target = h.target)
    (hdir : h'.fs.directory = h.fs.directory)
    (hdesc : (h'.fs.openFiles d).valid = true →
      (h.fs.openFiles d).valid = true ∧ (h'.fs.openFiles d).inode = (h.fs.openFiles d).inode) : Anchored d h' :=
  ha.keep (fun e _ => by rw [hborn]) (by rw [htarget]) (fun e _ _ _ => by rw [hdir]) hdesc

/-- A new file disturbs neither the entries nor the identities of the others. -/
theorem bornAfter_live (howned : Owned h.fs) {f : CString} {i n : Nat} (hc : Creatable h.fs f i n) {e : Nat}
    (he : Live h.fs e) : bornAfter h c (h.fs.directory e).inode = h.born (h.fs.directory e).inode := by
  rw [bornAfter]
  split
  · rw [hc.given, Function.update_of_ne (howned.fresh hc he)]
  · rfl

theorem newFile_directory_live {s : State} {f : CString} {i n e : Nat} (hc : Creatable s f i n) (he : Live s e) :
    (newFile s i n f).directory e = s.directory e := by
  rw [newFile_directory, Function.update_of_ne]
  rintro rfl
  exact he.2 hc.entryFree

theorem fsFindInode_live {s : State} {f : CString} (hne : fsFindInode s f ≠ 0) :
    ∃ e, Live s e ∧ (s.directory e).inode = fsFindInode s f ∧ text (s.directory e).name = f.chars := by
  rcases fsFindEntry_cases s f with ⟨e, he, hfind, hlive, hname⟩ | ⟨hnone, _⟩
  · exact ⟨e, ⟨he, hlive⟩, by rw [fsFindInode, hfind], hname⟩
  · exact (hne (by rw [fsFindInode, hnone])).elim

/-- The end of `fs_open` on a state that keeps the listed files. -/
theorem Anchored.open (ha : Anchored d h) {t : State} {f : CString}
    (heq : call h.fs c = plainReply (fsOpenInode t (fsFindInode t f)))
    (hname : ∃ filename create, c = .openFile filename create)
    (hborn : ∀ e, Live h.fs e → bornAfter h c (h.fs.directory e).inode = h.born (h.fs.directory e).inode)
    (hdir : ∀ e, Live h.fs e → t.directory e = h.fs.directory e) (hdesc : t.openFiles = h.fs.openFiles) :
    Anchored d (record h c) := by
  obtain ⟨filename, create, rfl⟩ := hname
  have hopen : fsOpen h.fs filename create = fsOpenInode t (fsFindInode t f) := by
    injection heq with hret hfs
    injection hret with hret
    exact Prod.ext hret hfs
  rcases fsOpenInode_cases t (fsFindInode t f) with ⟨hfail, _⟩ | ⟨hne, k, hk, hfree, _, hok⟩
  · have htarget : (record h (.openFile filename create)).target = h.target := by
      simp only [record, targetAfter, hopen, hfail]
      rfl
    have hfs : (record h (.openFile filename create)).fs = t := by
      simp only [record, heq, hfail, plainReply]
    refine ha.keep hborn (congrFun htarget d) (fun e he _ _ => hfs ▸ hdir e he) (fun hvalid => ?_)
    rw [hfs, hdesc] at hvalid ⊢
    exact ⟨hvalid, rfl⟩
  · have hfs : (record h (.openFile filename create)).fs =
        setDesc t k { inode := fsFindInode t f, offset := 0, valid := true } := by
      simp only [record, heq, hok, plainReply]
    have htarget : (record h (.openFile filename create)).target =
        Function.update h.target k (bornAfter h (.openFile filename create) (fsFindInode t f)) := by
      simp only [record, targetAfter, hopen, hok]
      rw [setDesc_self]
    by_cases hdk : d = k
    · subst d
      intro _
      obtain ⟨e, he, hinode, _⟩ := fsFindInode_live hne
      refine ⟨e, ?_, ?_, ?_⟩
      · rw [hfs]
        exact he
      · rw [hfs]
        rw [setDesc_self]
        exact hinode
      · rw [hfs, htarget, Function.update_self]
        exact congrArg (bornAfter h (.openFile filename create)) hinode
    · refine ha.keep hborn ?_ (fun e he _ _ => ?_) (fun hvalid => ?_)
      · rw [htarget, Function.update_of_ne hdk]
      · rw [hfs]
        exact hdir e he
      · rw [hfs, setDesc_of_ne t _ hdk, hdesc] at hvalid ⊢
        exact ⟨hvalid, rfl⟩

/-- One call that keeps the file of `d`. -/
theorem anchored_step (howned : Owned h.fs) (ha : Anchored d h) (hkeeps : KeepsFile d h c) :
    Anchored d (record h c) := by
  have hstill : makesFile h.fs c = false → bornAfter h c = h.born := by
    intro hmade
    rw [bornAfter, hmade]
    rfl
  cases c with
  | createFile filename =>
      rcases fsCreateFile_cases h.fs filename with ⟨heq, _⟩ | ⟨f, i, n, _, hc, heq⟩
      · have hfs : (record h (.createFile filename)).fs = h.fs := congrArg Prod.snd heq
        refine ha.keep (fun e _ => congrFun (hstill (by simp [makesFile, heq])) _) rfl (fun e _ _ _ => by rw [hfs])
          (fun hvalid => ?_)
        rw [hfs] at hvalid ⊢
        exact ⟨hvalid, rfl⟩
      · have hfs : (record h (.createFile filename)).fs = newFile h.fs i n f := congrArg Prod.snd heq
        refine ha.keep (fun e he => bornAfter_live howned hc he) rfl (fun e he _ _ => ?_) (fun hvalid => ?_)
        · rw [hfs]
          exact newFile_directory_live hc he
        · rw [hfs] at hvalid ⊢
          exact ⟨hvalid, rfl⟩
  | openFile filename create =>
      rcases fsOpen_cases h.fs filename create with ⟨hmade, heq | ⟨f, _, heq⟩⟩ | ⟨_, f, i, n, _, hc, heq⟩
      · have hfs : (record h (.openFile filename create)).fs = h.fs := congrArg Prod.snd heq
        have htarget : (record h (.openFile filename create)).target = h.target := by
          simp only [record, targetAfter, heq]
          rfl
        refine ha.keep (fun e _ => congrFun (hstill hmade) _) (congrFun htarget d) (fun e _ _ _ => by rw [hfs])
          (fun hvalid => ?_)
        rw [hfs] at hvalid ⊢
        exact ⟨hvalid, rfl⟩
      · exact ha.open (t := h.fs) (f := f) (congrArg plainReply heq) ⟨_, _, rfl⟩
          (fun e _ => congrFun (hstill hmade) _) (fun _ _ => rfl) rfl
      · exact ha.open (t := newFile h.fs i n f) (f := f) (congrArg plainReply heq) ⟨_, _, rfl⟩
          (fun e he => bornAfter_live howned hc he) (fun e he => newFile_directory_live hc he) rfl
  | close fd =>
      refine ha.stay rfl rfl ?_ ?_
      · change (fsClose h.fs fd).2.directory = _
        rcases fsClose_cases h.fs fd with ⟨_, heq⟩ | ⟨k, _, _, _, heq⟩ <;>
          exact congrArg (fun r => r.2.directory) heq
      · change ((fsClose h.fs fd).2.openFiles d).valid = true → _ ∧ ((fsClose h.fs fd).2.openFiles d).inode = _
        rcases fsClose_cases h.fs fd with ⟨_, heq⟩ | ⟨k, _, _, _, heq⟩ <;> rw [heq]
        · exact fun hvalid => ⟨hvalid, rfl⟩
        · intro hvalid
          by_cases hdk : d = k
          · subst d
            rw [setDesc_self] at hvalid
            cases hvalid
          · rw [setDesc_of_ne _ _ hdk] at hvalid ⊢
            exact ⟨hvalid, rfl⟩
  | read fd buffer count =>
      refine ha.stay rfl rfl ?_ ?_
      · change (fsRead h.fs fd buffer count).2.directory = _
        rcases fsRead_frame h.fs fd buffer count with heq | ⟨k, _, _, _, o, heq⟩ <;>
          exact (congrArg State.directory heq).trans rfl
      · change ((fsRead h.fs fd buffer count).2.openFiles d).valid = true →
          _ ∧ ((fsRead h.fs fd buffer count).2.openFiles d).inode = _
        rcases fsRead_frame h.fs fd buffer count with heq | ⟨k, _, _, _, o, heq⟩ <;> rw [heq]
        · exact fun hvalid => ⟨hvalid, rfl⟩
        · intro hvalid
          by_cases hdk : d = k
          · subst d
            rw [setDesc_self] at hvalid ⊢
            exact ⟨hvalid, rfl⟩
          · rw [setDesc_of_ne _ _ hdk] at hvalid ⊢
            exact ⟨hvalid, rfl⟩
  | write fd buffer count =>
      have hframe := fsWrite_frame h.fs fd buffer count
      exact ha.stay rfl rfl hframe.1 (fun hvalid => ⟨(hframe.2 d).2 ▸ hvalid, (hframe.2 d).1⟩)
  | unlink filename =>
      rcases howned.fsUnlink_cases filename with ⟨heq, _⟩ | ⟨f, i, t, rfl, hi, _, hfind, heq, hu⟩
      · have hfs : (record h (.unlink filename)).fs = h.fs := congrArg Prod.snd heq
        refine ha.stay rfl rfl (by rw [hfs]) (fun hvalid => ?_)
        rw [hfs] at hvalid ⊢
        exact ⟨hvalid, rfl⟩
      · have hfs : (record h (.unlink (some f))).fs = t := congrArg Prod.snd heq
        refine ha.keep (fun _ _ => rfl) rfl (fun e he hvalid hinode => ?_) (fun hvalid => ?_)
        · have hei : e ≠ i := by
            rintro rfl
            exact hkeeps f rfl hvalid (hfind.trans hinode)
          rw [hfs, hu.directory, Function.update_of_ne hei]
        · rw [hfs, hu.openFiles] at hvalid ⊢
          exact ⟨hvalid, rfl⟩

end Anchors

/-- From the opening of `d` on, whatever happened before: in every run that never unlinks the
file that `d` is open on, `d` reaches no other file. -/
theorem isolated_of_kept (s : State) {d : Nat} {before calls : List Call} {g h : History}
    (earlier : Run HistoryStep (startHistory s) before g) (closed : (g.fs.openFiles d).valid = false)
    (run : Run (When (KeepsFile d) HistoryStep) g calls h) : Isolated h d := by
  have howned : Owned g.fs := by
    refine earlier.invariant (I := fun h => Owned h.fs) ?_ (owned_init s)
    rintro h c h' howned rfl
    exact owned_step (l := (c, (call h.fs c).1)) howned rfl
  have hinv : Owned h.fs ∧ Anchored d h := by
    refine run.invariant (I := fun h => Owned h.fs ∧ Anchored d h) ?_ ⟨howned, fun hvalid => ?_⟩
    · rintro h c h' ⟨howned, ha⟩ ⟨hkeeps, rfl⟩
      exact ⟨owned_step (l := (c, (call h.fs c).1)) howned rfl, anchored_step howned ha hkeeps⟩
    · rw [closed] at hvalid
      cases hvalid
  exact hinv.2.isolated hinv.1

/-- Descriptor 0 is opened on `a`, which is unlinked before the descriptor is closed. -/
def openedBefore : List Call :=
  [.createFile (some nameA), .openFile (some nameA) 0, .unlink (some nameA), .close 0]

/-- It is opened again, on `b`; a file `a` comes and goes, and `b` is written. -/
def otherUnlinked : List Call :=
  [.openFile (some nameB) 1, .createFile (some nameA), .unlink (some nameA), .write 0 (some fun _ => 88) 5]

def reopened : History := openedBefore.foldl record (startHistory blankState)

theorem isolated_of_kept_sample : Isolated (otherUnlinked.foldl record reopened) 0 := by
  have hkept : KeepsFile 0 (record (record reopened (.openFile (some nameB) 1)) (.createFile (some nameA)))
      (.unlink (some nameA)) := by
    intro f hf _
    cases hf
    decide +kernel
  exact isolated_of_kept blankState (run_foldl record (startHistory blankState) openedBefore) (by decide +kernel)
    (.cons ⟨(by intro _ h; cases h), rfl⟩ (.cons ⟨(by intro _ h; cases h), rfl⟩
      (.cons ⟨hkept, rfl⟩ (.cons ⟨(by intro _ h; cases h), rfl⟩ (.nil _)))))

/-- `a` is opened and removed, and `b` gets its inode. -/
def inodeReused : List Call :=
  [.createFile (some nameA), .openFile (some nameA) 0, .unlink (some nameA), .createFile (some nameB)]

/-- The descriptor of the removed `a` writes into `b`. -/
theorem stale_descriptor_writes :
    ∃ h, Run HistoryStep (startHistory blankState) inodeReused h ∧ ¬ Isolated h 0 := by
  refine ⟨_, run_foldl record (startHistory blankState) inodeReused, fun hiso => ?_⟩
  have hvalid : ((inodeReused.foldl record (startHistory blankState)).fs.openFiles 0).valid = true := by
    decide +kernel
  have hlive : ((inodeReused.foldl record (startHistory blankState)).fs.directory 0).inode ≠ 0 := by
    decide +kernel
  have hother : (inodeReused.foldl record (startHistory blankState)).born
      ((inodeReused.foldl record (startHistory blankState)).fs.directory 0).inode ≠
      (inodeReused.foldl record (startHistory blankState)).target 0 := by
    decide +kernel
  have hsize := (hiso hvalid (some fun _ => 88) 1 0 ⟨by decide, hlive⟩ hother).1
  exact absurd hsize (by decide +kernel)

end SengKernel.Fs
