import SengKernel.FsEffects

/- Which file owns which block: an invariant of every run of file calls, dangling
   pointers of freed inodes and stale descriptors included. -/
namespace SengKernel.Fs
open BoundedLoop MachineWord Str Transition

/-- Entry `i` of the directory names a file. -/
def Live (s : State) (i : Nat) : Prop := i < 128 ∧ (s.directory i).inode ≠ 0

/-- Block pointer `j` of the file of entry `i`. -/
def fileBlock (s : State) (i j : Nat) : Nat := (s.inodes (s.directory i).inode).blocks j

structure Owned (s : State) : Prop where
  range : ∀ n < 1024, ∀ j < 8, (s.inodes n).blocks j ≠ 0 →
    36 ≤ (s.inodes n).blocks j ∧ (s.inodes n).blocks j < 256
  inodeRange : ∀ i, Live s i → (s.directory i).inode < 1024
  inodeSet : ∀ i, Live s i → ByteBitmap.test s.inodeBitmap (s.directory i).inode = true
  inodeOnce : ∀ i k, Live s i → Live s k → (s.directory i).inode = (s.directory k).inode → i = k
  descRange : ∀ k < 16, (s.openFiles k).valid = true → (s.openFiles k).inode < 1024
  allocated : ∀ i, Live s i → ∀ j < 8, fileBlock s i j ≠ 0 →
    ByteBitmap.test s.blockBitmap (fileBlock s i j - 36) = true
  exclusive : ∀ i k, Live s i → Live s k → ∀ j < 8, ∀ m < 8, fileBlock s i j ≠ 0 →
    fileBlock s i j = fileBlock s k m → i = k ∧ j = m
  accounted : Accounted s

section Operations

variable {s t : State}

theorem Owned.fileRange (h : Owned s) {i j : Nat} (hi : Live s i) (hj : j < 8) (hne : fileBlock s i j ≠ 0) :
    36 ≤ fileBlock s i j ∧ fileBlock s i j < 256 := h.range _ (h.inodeRange i hi) j hj hne

/-- A change of descriptors. -/
theorem Owned.desc (h : Owned s) {k : Nat} {d : FileDesc} (hd : d.valid = true → d.inode < 1024) :
    Owned (setDesc s k d) := by
  refine ⟨h.range, h.inodeRange, h.inodeSet, h.inodeOnce, fun m hm hvalid => ?_, h.allocated, h.exclusive,
    h.accounted⟩
  by_cases hmk : m = k
  · subst m
    simp only [setDesc, Function.update_self] at hvalid ⊢
    exact hd hvalid
  · simp only [setDesc, Function.update_of_ne hmk] at hvalid ⊢
    exact h.descRange m hm hvalid

@[simp] theorem putBytes_directory (s : State) (fd : Nat) (buf : Nat → UInt8) (m w : Nat) :
    (putBytes s fd buf m w).directory = s.directory := rfl

/-- The copy of a write leaves every block pointer. -/
theorem putBytes_blocks (s : State) (fd : Nat) (buf : Nat → UInt8) (m w n : Nat) :
    ((putBytes s fd buf m w).inodes n).blocks = (s.inodes n).blocks := by
  by_cases hn : n = (s.openFiles fd).inode
  · subst n
    simp [putBytes, setInode]
  · simp [putBytes, setInode, setDesc, hn]

theorem putBytes_size_of_ne (s : State) (fd : Nat) (buf : Nat → UInt8) (m w : Nat) {n : Nat}
    (hn : n ≠ (s.openFiles fd).inode) : ((putBytes s fd buf m w).inodes n).size = (s.inodes n).size := by
  simp [putBytes, setInode, setDesc, hn]

theorem putBytes_desc_inode (s : State) (fd : Nat) (buf : Nat → UInt8) (m w k : Nat) :
    ((putBytes s fd buf m w).openFiles k).inode = (s.openFiles k).inode ∧
    ((putBytes s fd buf m w).openFiles k).valid = (s.openFiles k).valid := by
  by_cases hk : k = fd
  · subst k
    simp [putBytes, setInode, setDesc]
  · simp [putBytes, setInode, setDesc, hk]

theorem Owned.put (h : Owned s) (fd : Nat) (buf : Nat → UInt8) (m w : Nat) : Owned (putBytes s fd buf m w) := by
  have hblocks := putBytes_blocks s fd buf m w
  refine ⟨fun n hn j hj => ?_, h.inodeRange, h.inodeSet, h.inodeOnce, fun k hk hvalid => ?_, fun i hi j hj => ?_,
    fun i k hi hk j hj p hp => ?_, h.accounted⟩
  · rw [hblocks]
    exact h.range n hn j hj
  · obtain ⟨hinode, hvalid'⟩ := putBytes_desc_inode s fd buf m w k
    rw [hinode]
    exact h.descRange k hk (hvalid' ▸ hvalid)
  · simp only [fileBlock, hblocks]
    exact h.allocated i hi j hj
  · simp only [fileBlock, hblocks]
    exact h.exclusive i k hi hk j hj p hp

/-- A free block linked where an inode, listed or not, has none. -/
theorem Owned.grow (h : Owned s) {n j i : Nat} (hi : i < 220) (hclear : ByteBitmap.test s.blockBitmap i = false) :
    Owned (growInode s n j i) := by
  have hblocks := growInode_blocks s n j i
  have htest : ∀ k, ByteBitmap.test (growInode s n j i).blockBitmap k = (decide (k = i) || ByteBitmap.test s.blockBitmap k) :=
    ByteBitmap.test_set s.blockBitmap i
  -- a block that a listed file owned before is not the new one
  have hold : ∀ e, Live s e → ∀ k < 8, fileBlock s e k ≠ 36 + i := by
    intro e he k hk heq
    have := h.allocated e he k hk (by omega)
    rw [heq, Nat.add_sub_cancel_left, hclear] at this
    cases this
  refine ⟨fun m hm k hk => ?_, h.inodeRange, h.inodeSet, h.inodeOnce, h.descRange, fun e he k hk => ?_,
    fun e e' he he' k hk k' hk' => ?_, ?_⟩
  · rw [hblocks]
    split
    · exact fun _ => ⟨by omega, by omega⟩
    · exact h.range m hm k hk
  · rw [fileBlock, hblocks, htest]
    split
    · intro _
      rw [Nat.add_sub_cancel_left, decide_eq_true rfl, Bool.true_or]
    · intro hne
      have hset : ByteBitmap.test s.blockBitmap (fileBlock s e k - 36) = true := h.allocated e he k hk hne
      exact Bool.or_eq_true_iff.mpr (Or.inr hset)
  · simp only [fileBlock, hblocks]
    change Live s e at he
    change Live s e' at he'
    split <;> split
    · rename_i hnew hnew'
      intro _ _
      exact ⟨h.inodeOnce e e' he he' (hnew.1.trans hnew'.1.symm), hnew.2.trans hnew'.2.symm⟩
    · intro _ heq
      exact (hold e' he' k' hk' heq.symm).elim
    · intro _ heq
      exact (hold e he k hk heq).elim
    · exact h.exclusive e e' he he' k hk k' hk'
  · have hcount := ByteBitmap.clearCount_set hi hclear
    have hacc : s.superblock.freeBlocks = ByteBitmap.clearCount s.blockBitmap 220 := h.accounted
    change dec32 s.superblock.freeBlocks = ByteBitmap.clearCount (ByteBitmap.set s.blockBitmap i) 220
    rw [dec32_of_pos (by omega)]
    omega

theorem newFile_directory (s : State) (i n : Nat) (f : CString) :
    (newFile s i n f).directory =
      Function.update s.directory i { name := strncpy f.chars 27 ++ [0], inode := n } := rfl

theorem newFile_inodes (s : State) (i n : Nat) (f : CString) :
    (newFile s i n f).inodes = Function.update s.inodes n { size := 0, blocks := fun _ => 0 } := rfl

/-- The entries of the new directory: the new one and those there were. -/
theorem newFile_live {f : CString} {i n k : Nat} (hk : Live (newFile s i n f) k) :
    k = i ∧ ((newFile s i n f).directory k).inode = n ∨
    k ≠ i ∧ Live s k ∧ (newFile s i n f).directory k = s.directory k := by
  by_cases hki : k = i
  · refine Or.inl ⟨hki, ?_⟩
    rw [newFile_directory, hki, Function.update_self]
  · have hsame : (newFile s i n f).directory k = s.directory k := by
      rw [newFile_directory, Function.update_of_ne hki]
    exact Or.inr ⟨hki, ⟨hk.1, hsame ▸ hk.2⟩, hsame⟩

/-- The new inode was listed nowhere. -/
theorem Owned.fresh (h : Owned s) {f : CString} {i n : Nat} (hc : Creatable s f i n) {k : Nat} (hk : Live s k) :
    (s.directory k).inode ≠ n := by
  intro heq
  have := h.inodeSet k hk
  rw [heq, hc.inodeFree] at this
  cases this

theorem Owned.created (h : Owned s) {f : CString} {i n : Nat} (hc : Creatable s f i n) : Owned (newFile s i n f) := by
  have hblocks : ∀ m j, m ≠ n → ((newFile s i n f).inodes m).blocks j = (s.inodes m).blocks j := by
    intro m j hm
    rw [newFile_inodes, Function.update_of_ne hm]
  have hempty : ∀ j, ((newFile s i n f).inodes n).blocks j = 0 := by
    intro j
    rw [newFile_inodes, Function.update_self]
  have hfile : ∀ k, Live (newFile s i n f) k → ∀ j, fileBlock (newFile s i n f) k j ≠ 0 →
      k ≠ i ∧ Live s k ∧ fileBlock (newFile s i n f) k j = fileBlock s k j := by
    intro k hk j hne
    rcases newFile_live hk with ⟨_, hinode⟩ | ⟨hki, hlive, hsame⟩
    · rw [fileBlock, hinode, hempty] at hne
      exact (hne rfl).elim
    · exact ⟨hki, hlive, by rw [fileBlock, hsame, hblocks _ _ (h.fresh hc hlive), fileBlock]⟩
  have hinode : ∀ m, ByteBitmap.test (newFile s i n f).inodeBitmap m = (decide (m = n) || ByteBitmap.test s.inodeBitmap m) :=
    ByteBitmap.test_set s.inodeBitmap n
  refine ⟨fun m hm j hj => ?_, fun k hk => ?_, fun k hk => ?_, fun k k' hk hk' heq => ?_, h.descRange,
    fun k hk j hj hne => ?_, fun k k' hk hk' j hj m hm hne heq => ?_, h.accounted⟩
  · by_cases hmn : m = n
    · rw [hmn, hempty]
      exact fun hne => (hne rfl).elim
    · rw [hblocks m j hmn]
      exact h.range m hm j hj
  · rcases newFile_live hk with ⟨_, hnew⟩ | ⟨_, hlive, hsame⟩
    · rw [hnew]
      exact hc.bound
    · rw [hsame]
      exact h.inodeRange k hlive
  · rcases newFile_live hk with ⟨_, hnew⟩ | ⟨_, hlive, hsame⟩
    · rw [hnew, hinode, decide_eq_true rfl, Bool.true_or]
    · rw [hsame, hinode, h.inodeSet k hlive, Bool.or_true]
  · rcases newFile_live hk with ⟨hki, hnew⟩ | ⟨_, hlive, hsame⟩ <;>
      rcases newFile_live hk' with ⟨hki', hnew'⟩ | ⟨_, hlive', hsame'⟩
    · exact hki.trans hki'.symm
    · rw [hnew, hsame'] at heq
      exact (h.fresh hc hlive' heq.symm).elim
    · rw [hnew', hsame] at heq
      exact (h.fresh hc hlive heq).elim
    · rw [hsame, hsame'] at heq
      exact h.inodeOnce k k' hlive hlive' heq
  · obtain ⟨_, hlive, hsame⟩ := hfile k hk j hne
    rw [hsame] at hne ⊢
    exact h.allocated k hlive j hj hne
  · obtain ⟨_, hlive, hsame⟩ := hfile k hk j hne
    obtain ⟨_, hlive', hsame'⟩ := hfile k' hk' m (heq ▸ hne)
    rw [hsame] at hne heq
    rw [hsame'] at heq
    exact h.exclusive k k' hlive hlive' j hj m hm hne heq

/-- What `fs_unlink` does to the file of entry `i`. -/
structure Unlinked (s t : State) (i : Nat) : Prop where
  directory : t.directory = Function.update s.directory i { name := (s.directory i).name.set 0 0, inode := 0 }
  inodes : t.inodes = s.inodes
  ramdisk : t.ramdisk = s.ramdisk
  openFiles : t.openFiles = s.openFiles
  freeInodes : t.superblock.freeInodes = inc32 s.superblock.freeInodes
  blockBits : ∀ k, ByteBitmap.test t.blockBitmap k = true ↔
    ByteBitmap.test s.blockBitmap k = true ∧ ∀ j < 8, fileBlock s i j ≠ 36 + k
  inodeBits : ∀ k, ByteBitmap.test t.inodeBitmap k =
    (decide (k ≠ (s.directory i).inode) && ByteBitmap.test s.inodeBitmap k)
  accounted : Accounted t

theorem Owned.fsUnlink_cases (h : Owned s) (filename : Option CString) :
    (fsUnlink s filename = (-1, s) ∧ ∀ f, filename = some f → fsFindInode s f = 0) ∨
    ∃ f i t, filename = some f ∧ Live s i ∧ text (s.directory i).name = f.chars ∧
      fsFindInode s f = (s.directory i).inode ∧ fsUnlink s filename = (0, t) ∧ Unlinked s t i := by
  cases filename with
  | none => exact Or.inl ⟨rfl, nofun⟩
  | some f =>
      rcases fsFindEntry_cases s f with ⟨i, hi, hfind, hne, hname⟩ | ⟨hnone, _⟩
      · have hlive : Live s i := ⟨hi, hne⟩
        have hinode : fsFindInode s f = (s.directory i).inode := by rw [fsFindInode, hfind]
        obtain ⟨honly, hacc, hbits⟩ := freeDataBlocks_spec s (s.directory i).inode
          (fun j hj => h.range _ (h.inodeRange i hlive) j hj)
        have hunlink : fsUnlink s (some f) = (0, removeEntry (fsFreeInode (freeDataBlocks s (s.directory i).inode)
            (s.directory i).inode) (s.directory i).inode) := by
          simp only [fsUnlink, hinode, if_neg hne]
        generalize freeDataBlocks s (s.directory i).inode = u at honly hacc hbits hunlink
        have hdir : u.directory = s.directory := by rw [honly]
        have hinodes : u.inodes = s.inodes := by rw [honly]
        have hramdisk : u.ramdisk = s.ramdisk := by rw [honly]
        have hopen : u.openFiles = s.openFiles := by rw [honly]
        have hbitmap : u.inodeBitmap = s.inodeBitmap := by rw [honly]
        have hcount : u.superblock.freeInodes = s.superblock.freeInodes := by rw [honly]
        have hrange : ¬ ((s.directory i).inode = 0 ∨ (s.directory i).inode ≥ fsMaxInodes) := by
          have := h.inodeRange i hlive
          simp only [fsMaxInodes]
          omega
        have hfree : fsFreeInode u (s.directory i).inode =
            setFreeInodes { u with inodeBitmap := ByteBitmap.clear s.inodeBitmap (s.directory i).inode }
              (inc32 s.superblock.freeInodes) := by
          simp only [fsFreeInode, if_neg hrange, hbitmap, h.inodeSet i hlive, if_true, hcount]
        have honce : ∀ k < 128, (u.directory k).inode = (s.directory i).inode → k = i := by
          intro k hk heq
          rw [hdir] at heq
          exact h.inodeOnce k i ⟨hk, heq ▸ hne⟩ hlive heq
        have hentry : (u.directory i).inode = (s.directory i).inode := by rw [hdir]
        rw [hfree] at hunlink
        generalize hv : setFreeInodes { u with inodeBitmap := ByteBitmap.clear s.inodeBitmap (s.directory i).inode }
          (inc32 s.superblock.freeInodes) = v at hunlink
        have hvdir : v.directory = u.directory := by rw [← hv]; rfl
        rw [removeEntry_eq hi (by rw [hvdir]; exact hentry) (by rw [hvdir]; exact honce), hvdir, ← hv] at hunlink
        refine Or.inr ⟨f, i, _, rfl, hlive, hname, hinode, hunlink, ?_, ?_, ?_, ?_, rfl, hbits, fun k => ?_,
          hacc h.accounted⟩
        · change Function.update u.directory i { name := (u.directory i).name.set 0 0, inode := 0 } = _
          rw [hdir]
        · exact hinodes
        · exact hramdisk
        · exact hopen
        · exact ByteBitmap.test_clear s.inodeBitmap (s.directory i).inode k
      · have hzero : fsFindInode s f = 0 := by rw [fsFindInode, hnone]
        exact Or.inl ⟨by simp only [fsUnlink, hzero, if_true], fun g hg => by cases hg; exact hzero⟩

/-- The files that remain. -/
theorem Unlinked.live {i k : Nat} (h : Unlinked s t i) (hk : Live t k) :
    k ≠ i ∧ Live s k ∧ t.directory k = s.directory k := by
  by_cases hki : k = i
  · have hzero : (t.directory k).inode = 0 := by rw [h.directory, hki, Function.update_self]
    exact (hk.2 hzero).elim
  · have hsame : t.directory k = s.directory k := by rw [h.directory, Function.update_of_ne hki]
    exact ⟨hki, ⟨hk.1, hsame ▸ hk.2⟩, hsame⟩

theorem Unlinked.fileBlock {i k : Nat} (h : Unlinked s t i) (hk : Live t k) (j : Nat) :
    fileBlock t k j = fileBlock s k j := by
  rw [Fs.fileBlock, (h.live hk).2.2, h.inodes, Fs.fileBlock]

theorem Owned.unlinked (h : Owned s) {i : Nat} (hi : Live s i) (hu : Unlinked s t i) : Owned t := by
  refine ⟨by rw [hu.inodes]; exact h.range, fun k hk => ?_, fun k hk => ?_, fun k m hk hm heq => ?_,
    by rw [hu.openFiles]; exact h.descRange, fun k hk j hj hne => ?_, fun k m hk hm j hj p hp hne heq => ?_,
    hu.accounted⟩
  · obtain ⟨_, hlive, hsame⟩ := hu.live hk
    rw [hsame]
    exact h.inodeRange k hlive
  · obtain ⟨hki, hlive, hsame⟩ := hu.live hk
    rw [hsame, hu.inodeBits, h.inodeSet k hlive, Bool.and_true, decide_eq_true_eq]
    exact fun heq => hki (h.inodeOnce k i hlive hi heq)
  · obtain ⟨_, hlive, hsame⟩ := hu.live hk
    obtain ⟨_, hlive', hsame'⟩ := hu.live hm
    rw [hsame, hsame'] at heq
    exact h.inodeOnce k m hlive hlive' heq
  · obtain ⟨hki, hlive, _⟩ := hu.live hk
    rw [hu.fileBlock hk] at hne ⊢
    refine (hu.blockBits _).mpr ⟨h.allocated k hlive j hj hne, fun p hp heq => ?_⟩
    have hrange := h.fileRange hlive hj hne
    refine hki (h.exclusive k i hlive hi j hj p hp hne ?_).1
    omega
  · rw [hu.fileBlock hk] at hne heq
    rw [hu.fileBlock hm] at heq
    exact h.exclusive k m (hu.live hk).2.1 (hu.live hm).2.1 j hj p hp hne heq

theorem Owned.written (h : Owned s) (fd : Nat) (buf : Nat → UInt8) (count : Nat) :
    Owned (writeLoop fd buf count ⟨s, 0⟩).fs :=
  writeLoop_invariant Owned (fun _ _ h _ _ hi hclear => h.grow hi hclear)
    (fun _ _ _ h _ _ _ => h.put fd buf _ _) h

/-- A write keeps the directory, and the inode of every descriptor. -/
theorem fsWrite_frame (s : State) (fd : Int) (buffer : Option (Nat → UInt8)) (count : UInt32) :
    (fsWrite s fd buffer count).2.directory = s.directory ∧
    ∀ k, ((fsWrite s fd buffer count).2.openFiles k).inode = (s.openFiles k).inode ∧
      ((fsWrite s fd buffer count).2.openFiles k).valid = (s.openFiles k).valid := by
  rcases fsWrite_cases s fd buffer count with heq | ⟨k, buf, _, _, _, _, _, heq⟩ <;> rw [heq]
  · exact ⟨rfl, fun _ => ⟨rfl, rfl⟩⟩
  · refine writeLoop_invariant
      (fun t => t.directory = s.directory ∧ ∀ m, (t.openFiles m).inode = (s.openFiles m).inode ∧
        (t.openFiles m).valid = (s.openFiles m).valid)
      (fun _ _ ht _ _ _ _ => ht) (fun t n w ht _ _ _ => ⟨ht.1, fun m => ?_⟩) ⟨rfl, fun _ => ⟨rfl, rfl⟩⟩
    obtain ⟨hinode, hvalid⟩ := putBytes_desc_inode t k buf n w m
    exact ⟨hinode.trans (ht.2 m).1, hvalid.trans (ht.2 m).2⟩

theorem Owned.opened (h : Owned s) (f : CString) : Owned (fsOpenInode s (fsFindInode s f)).2 := by
  rcases fsOpenInode_cases s (fsFindInode s f) with ⟨heq, _⟩ | ⟨hne, k, _, _, _, heq⟩
  · rw [heq]
    exact h
  · rw [heq]
    refine h.desc (fun _ => ?_)
    rcases fsFindEntry_cases s f with ⟨i, hi, hfind, hlive, _⟩ | ⟨hnone, _⟩
    · simp only [fsFindInode, hfind]
      exact h.inodeRange i ⟨hi, hlive⟩
    · exact (hne (by rw [fsFindInode, hnone])).elim

theorem Owned.fsCreateFile (h : Owned s) (filename : Option CString) : Owned (fsCreateFile s filename).2 := by
  rcases fsCreateFile_cases s filename with ⟨heq, _⟩ | ⟨f, i, n, _, hc, heq⟩ <;> rw [heq]
  · exact h
  · exact h.created hc

/-- Every call keeps the ownership of blocks. -/
theorem owned_step {l : Call × Reply} (h : Owned s) (hstep : Step s l t) : Owned t := by
  obtain ⟨c, r⟩ := l
  obtain rfl : (call s c).2 = t := congrArg Prod.snd hstep
  cases c with
  | createFile filename => exact h.fsCreateFile filename
  | openFile filename create =>
      change Owned (fsOpen s filename create).2
      rcases fsOpen_cases s filename create with ⟨_, heq | ⟨f, _, heq⟩⟩ | ⟨_, f, i, n, _, hc, heq⟩ <;> rw [heq]
      · exact h
      · exact h.opened f
      · exact (h.created hc).opened f
  | close fd =>
      change Owned (fsClose s fd).2
      rcases fsClose_cases s fd with ⟨_, heq⟩ | ⟨k, _, _, _, heq⟩ <;> rw [heq]
      · exact h
      · exact h.desc nofun
  | read fd buffer count =>
      change Owned (fsRead s fd buffer count).2
      rcases fsRead_frame s fd buffer count with heq | ⟨k, hk, _, hvalid, o, heq⟩ <;> rw [heq]
      · exact h
      · exact h.desc (fun _ => h.descRange k hk hvalid)
  | write fd buffer count =>
      change Owned (fsWrite s fd buffer count).2
      rcases fsWrite_cases s fd buffer count with heq | ⟨k, buf, _, _, _, _, _, heq⟩ <;> rw [heq]
      · exact h
      · exact h.written k buf _
  | unlink filename =>
      change Owned (fsUnlink s filename).2
      rcases h.fsUnlink_cases filename with ⟨heq, _⟩ | ⟨f, i, u, _, hi, _, _, heq, hu⟩ <;> rw [heq]
      · exact h
      · exact h.unlinked hi hu

theorem owned_init (s : State) : Owned (fsInit s) := by
  have hdead : ∀ i, ¬ Live (fsInit s) i := fun i hi => hi.2 rfl
  refine ⟨fun _ _ _ _ hne => (hne rfl).elim, fun i hi => (hdead i hi).elim, fun i hi => (hdead i hi).elim,
    fun i _ hi => (hdead i hi).elim, fun k hk hvalid => ?_, fun i hi => (hdead i hi).elim,
    fun i _ hi => (hdead i hi).elim, ?_⟩
  · simp only [fsInit, fsMaxOpenFiles, if_pos hk] at hvalid
    cases hvalid
  · change 220 = ByteBitmap.clearCount (fun _ => 0) 220
    decide +kernel

end Operations

section Accesses

variable {s : State}

/-- The addresses of the data blocks. -/
def InData (a : Nat) : Prop := 36 * 4096 ≤ a ∧ a < 256 * 4096

/-- A write stores inside the data blocks only. -/
theorem Owned.write_stays (h : Owned s) (fd : Int) (buffer : Option (Nat → UInt8)) (count : UInt32) {a : Nat}
    (ha : ¬ InData a) : (fsWrite s fd buffer count).2.ramdisk a = s.ramdisk a := by
  rcases fsWrite_cases s fd buffer count with heq | ⟨k, buf, hk, _, hvalid, _, _, heq⟩ <;> rw [heq]
  have hinv : Owned (writeLoop k buf count.toNat ⟨s, 0⟩).fs ∧
      (((writeLoop k buf count.toNat ⟨s, 0⟩).fs.openFiles k).inode = (s.openFiles k).inode) ∧
      (writeLoop k buf count.toNat ⟨s, 0⟩).fs.ramdisk a = s.ramdisk a := by
    refine writeLoop_invariant
      (fun t => Owned t ∧ (t.openFiles k).inode = (s.openFiles k).inode ∧ t.ramdisk a = s.ramdisk a)
      (fun t i ht _ _ hi hclear => ⟨ht.1.grow hi hclear, ht.2⟩) (fun t m w ht hidx hne hw => ?_) ⟨h, rfl, rfl⟩
    obtain ⟨howned, hinode, hsame⟩ := ht
    refine ⟨howned.put k buf m w, (putBytes_desc_inode t k buf m w k).1.trans hinode, ?_⟩
    have hn : (t.openFiles k).inode < 1024 := hinode ▸ h.descRange k hk hvalid
    have hrange := howned.range _ hn _ hidx hne
    have hmod := Nat.mod_lt (t.openFiles k).offset (show 0 < 4096 by decide)
    refine Eq.trans (memcpy_apply ..) ((if_neg ?_).trans hsame)
    simp only [fsBlockPtr, fsBlockSize, InData] at ha ⊢
    omega
  exact hinv.2.2

/-- The same state over another memory. -/
def withMemory (r : Nat → UInt8) (x : Reading) : Reading := { x with fs := { x.fs with ramdisk := r } }

theorem memcpy_congr {dest src src' : Nat → UInt8} {d p n : Nat} (h : ∀ a, p ≤ a → a < p + n → src' a = src a) :
    memcpy dest d src' p n = memcpy dest d src p n := by
  funext a
  rw [memcpy_apply, memcpy_apply]
  split
  · exact h _ (by omega) (by omega)
  · rfl

theorem readPass_withMemory {fd count : Nat} {x : Reading} {r : Nat → UInt8}
    (hr : ∀ j < 8, (x.fs.inodes (x.fs.openFiles fd).inode).blocks j ≠ 0 →
      ∀ a, (x.fs.inodes (x.fs.openFiles fd).inode).blocks j * 4096 ≤ a →
        a < (x.fs.inodes (x.fs.openFiles fd).inode).blocks j * 4096 + 4096 → r a = x.fs.ramdisk a) :
    readPass fd count (withMemory r x) = (readPass fd count x).map (withMemory r) := by
  by_cases hidx : (x.fs.openFiles fd).offset / fsBlockSize ≥ fsDirectBlocks
  · have hnone : readPass fd count x = none := if_pos hidx
    rw [hnone]
    exact if_pos hidx
  · by_cases hne : (x.fs.inodes (x.fs.openFiles fd).inode).blocks ((x.fs.openFiles fd).offset / fsBlockSize) = 0
    · have hnone : readPass fd count x = none := (if_neg hidx).trans (if_pos hne)
      rw [hnone]
      exact (if_neg hidx).trans (if_pos hne)
    · have hmod := Nat.mod_lt (x.fs.openFiles fd).offset (show 0 < 4096 by decide)
      have hle := (passSize_le ((x.fs.openFiles fd).offset % 4096) (count - x.bytesRead)).2
      have hsame := hr _ (Nat.lt_of_not_le hidx) hne
      have hfit : ∀ b m w : Nat, m < 4096 → w ≤ 4096 - m → b * 4096 + m + w ≤ b * 4096 + 4096 := by omega
      have hcopy : memcpy x.buf x.bytesRead r
          ((x.fs.inodes (x.fs.openFiles fd).inode).blocks ((x.fs.openFiles fd).offset / 4096) * 4096 +
            (x.fs.openFiles fd).offset % 4096) (passSize ((x.fs.openFiles fd).offset % 4096) (count - x.bytesRead)) =
          memcpy x.buf x.bytesRead x.fs.ramdisk
          ((x.fs.inodes (x.fs.openFiles fd).inode).blocks ((x.fs.openFiles fd).offset / 4096) * 4096 +
            (x.fs.openFiles fd).offset % 4096) (passSize ((x.fs.openFiles fd).offset % 4096) (count - x.bytesRead)) :=
        memcpy_congr (fun a hlow hhigh =>
          hsame a (Nat.le_trans (Nat.le_add_right ..) hlow) (Nat.lt_of_lt_of_le hhigh (hfit _ _ _ hmod hle)))
      refine Eq.trans ((if_neg hidx).trans (if_neg hne)) ?_
      refine Eq.trans ?_ (congrArg (Option.map (withMemory r)) ((if_neg hidx).trans (if_neg hne)).symm)
      exact congrArg (fun b => some (Reading.mk _ _ b)) hcopy

/-- A read fetches from the data blocks only: other contents elsewhere change nothing. -/
theorem Owned.read_stays (h : Owned s) (fd : Int) (buffer : Option (Nat → UInt8)) (count : UInt32)
    {r : Nat → UInt8} (hr : ∀ a, InData a → r a = s.ramdisk a) :
    (fsRead { s with ramdisk := r } fd buffer count).1 = (fsRead s fd buffer count).1 := by
  have hbad' : badFd { s with ramdisk := r } fd = badFd s fd := rfl
  cases hbad : badFd s fd with
  | true => simp only [fsRead, hbad', hbad, if_true]
  | false =>
      obtain ⟨k, hk, rfl, hvalid⟩ := badFd_eq_false.mp hbad
      -- every pass of the two loops copies the same bytes
      have hloop : ∀ n buf, readLoop k n ⟨{ s with ramdisk := r }, 0, buf⟩ =
          withMemory r (readLoop k n ⟨s, 0, buf⟩) := by
        intro n buf
        refine loopWhile_map (s := (⟨s, 0, buf⟩ : Reading)) (withMemory r)
          (fun x : Reading => x.fs.inodes = s.inodes ∧ (x.fs.openFiles k).inode = (s.openFiles k).inode ∧
            x.fs.ramdisk = s.ramdisk)
          (fun x y hx _ hpass => ?_) (fun _ _ => rfl) (fun x hx _ => ?_) ⟨rfl, rfl, rfl⟩
        · obtain ⟨_, _, hfs, _⟩ := readPass_some hpass
          rw [hfs]
          simpa only [setDesc, Function.update_self] using hx
        · obtain ⟨hinodes, hinode, hramdisk⟩ := hx
          refine readPass_withMemory (fun j hj hne a hlow hhigh => ?_)
          rw [hinodes, hinode] at hne hlow hhigh
          have hrange := h.range _ (h.descRange k hk hvalid) j hj hne
          rw [hramdisk]
          exact hr a (by simp only [InData]; omega)
      simp only [fsRead, hbad', hbad, Bool.false_eq_true, if_false, Int.toNat_natCast, hloop]
      split
      · rfl
      · split
        · rfl
        · split
          · rfl
          · rfl

/-- The set bits of the block bitmap. -/
def usedBlocks (s : State) : Finset Nat := (Finset.range 220).filter (fun i => ByteBitmap.test s.blockBitmap i = true)

/-- What a run of file calls guarantees of the blocks. -/
structure ExclusiveBlocks (s : State) : Prop where
  range : ∀ n < 1024, ∀ j < 8, (s.inodes n).blocks j ≠ 0 →
    36 ≤ (s.inodes n).blocks j ∧ (s.inodes n).blocks j ≤ 255
  writes : ∀ fd buffer count a, ¬ InData a → (fsWrite s fd buffer count).2.ramdisk a = s.ramdisk a
  reads : ∀ fd buffer count r, (∀ a, InData a → r a = s.ramdisk a) →
    (fsRead { s with ramdisk := r } fd buffer count).1 = (fsRead s fd buffer count).1
  allocated : ∀ i, Live s i → ∀ j < 8, fileBlock s i j ≠ 0 →
    ByteBitmap.test s.blockBitmap (fileBlock s i j - 36) = true
  exclusive : ∀ i k, Live s i → Live s k → ∀ j < 8, ∀ m < 8, fileBlock s i j ≠ 0 →
    fileBlock s i j = fileBlock s k m → i = k ∧ j = m
  free : s.superblock.freeBlocks + (usedBlocks s).card = 220

theorem Owned.exclusiveBlocks (h : Owned s) : ExclusiveBlocks s := by
  refine ⟨fun n hn j hj hne => ?_, fun fd buffer count a ha => h.write_stays fd buffer count ha,
    fun fd buffer count r hr => h.read_stays fd buffer count hr, h.allocated, h.exclusive, ?_⟩
  · have := h.range n hn j hj hne
    omega
  · have hsplit : (ByteBitmap.clearBits s.blockBitmap 220).card + (usedBlocks s).card = 220 := by
      have := Finset.card_filter_add_card_filter_not (s := Finset.range 220)
        (fun i => ByteBitmap.test s.blockBitmap i = false)
      simpa only [Finset.card_range, Bool.not_eq_false, ByteBitmap.clearBits, usedBlocks] using this
    have hacc : s.superblock.freeBlocks = (ByteBitmap.clearBits s.blockBitmap 220).card := h.accounted
    omega

/-- After any file calls, those through stale descriptors included. -/
theorem exclusive_blocks (s : State) (calls : List Call) : ExclusiveBlocks (afterCalls (fsInit s) calls) :=
  ((run_trace (fsInit s) calls).invariant (fun _ _ _ h step => owned_step h step) (owned_init s)).exclusiveBlocks

end Accesses

end SengKernel.Fs
