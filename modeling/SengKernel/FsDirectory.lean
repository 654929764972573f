import SengKernel.FsListing

/- The directory against the inode bitmap and the counter of inodes, in every run of
   file calls, with the set of names that the calls have created and not unlinked. -/
namespace SengKernel.Fs
open BoundedLoop MachineWord Str Transition

/-- A file of this name can be created. -/
def Accepts (names : Finset CString) (f : CString) : Prop :=
  (1 ≤ f.chars.length ∧ f.chars.length ≤ 27) ∧ f ∉ names ∧ names.card < 128

instance (names : Finset CString) (f : CString) : Decidable (Accepts names f) := by
  unfold Accepts
  infer_instance

def addName (names : Finset CString) (f : CString) : Finset CString := if Accepts names f then insert f names else names

/-- The names created and not since unlinked. -/
def namesAfter (names : Finset CString) : Call → Finset CString
  | .createFile (some f) => addName names f
  | .openFile (some f) create => if create = 0 then names else addName names f
  | .unlink (some f) => names.erase f
  | _ => names

def createdNames (calls : List Call) : Finset CString := calls.foldl namesAfter ∅

/-- The invariant of the directory and the inode bitmap. -/
structure Directory (s : State) (names : Finset CString) : Prop where
  listing : Listing s names
  valid : ∀ f ∈ names, 1 ≤ f.chars.length ∧ f.chars.length ≤ 27
  inodes : ∀ n, InodeListed s n
  stored : ∀ i, Live s i → (s.directory i).name.length = 28 ∧ (s.directory i).name[27]? = some 0
  counted : s.superblock.freeInodes + (liveEntries s).card = 1023

section Steps

variable {s t : State} {names : Finset CString} {i n : Nat} {f : CString}

/-- Only the directory, the inode bitmap and the counter matter. -/
theorem Directory.congr (h : Directory s names) (hdir : t.directory = s.directory)
    (hbitmap : t.inodeBitmap = s.inodeBitmap) (hcount : t.superblock.freeInodes = s.superblock.freeInodes) :
    Directory t names := by
  have hlive : ∀ i, Live t i ↔ Live s i := fun i => by rw [Live, Live, hdir]
  refine ⟨h.listing.congr hdir, h.valid, fun n hset => ?_, fun i hi => ?_, ?_⟩
  · rw [hbitmap] at hset
    obtain ⟨i, hi, heq⟩ := h.inodes n hset
    exact ⟨i, (hlive i).mpr hi, hdir ▸ heq⟩
  · rw [hdir]
    exact h.stored i ((hlive i).mp hi)
  · rw [hcount, liveEntries, hdir]
    exact h.counted

theorem liveEntries_newFile (hc : Creatable s f i n) : liveEntries (newFile s i n f) = insert i (liveEntries s) := by
  ext k
  rw [Finset.mem_insert, mem_liveEntries, mem_liveEntries]
  constructor
  · intro hk
    exact (newFile_live hk).imp And.left (fun hold => hold.2.1)
  · rintro (rfl | hk)
    · exact (newFile_named hc).1
    · exact ((named_entryName hk).newFile hc).1.1

theorem Directory.created (h : Directory s names) (hc : Creatable s f i n) (habsent : f ∉ names) :
    Directory (newFile s i n f) (insert f names) := by
  refine ⟨h.listing.newFile hc habsent, fun g hg => ?_, fun p => (h.inodes p).newFile hc, fun k hk => ?_, ?_⟩
  · rcases Finset.mem_insert.mp hg with rfl | hold
    · exact ⟨hc.nonempty, hc.short⟩
    · exact h.valid g hold
  · rcases newFile_live hk with ⟨rfl, _⟩ | ⟨_, hlive, hsame⟩
    · have hlength := strncpy_length f.chars 27
      rw [newFile_directory, Function.update_self]
      refine ⟨by rw [List.length_append, hlength, List.length_singleton], ?_⟩
      rw [List.getElem?_append_right (by rw [hlength]), hlength]
      rfl
    · rw [hsame]
      exact h.stored k hlive
  · have hnew : i ∉ liveEntries s := fun hi => (mem_liveEntries.mp hi).2 hc.entryFree
    have hcard := liveEntries_card_le (newFile s i n f)
    have hcounted := h.counted
    rw [liveEntries_newFile hc, Finset.card_insert_of_notMem hnew] at hcard ⊢
    change dec32 s.superblock.freeInodes + _ = 1023
    rw [dec32_of_pos (by omega)]
    omega

theorem Directory.unlinked (h : Directory s names) (hi : Named s i f) (hu : Unlinked s t i) :
    Directory t (names.erase f) := by
  refine ⟨h.listing.removed hi hu, fun g hg => h.valid g (Finset.mem_of_mem_erase hg),
    fun p => (h.inodes p).removed h.listing hi hu, fun k hk => ?_, ?_⟩
  · obtain ⟨_, hlive, hsame⟩ := hu.live hk
    rw [hsame]
    exact h.stored k hlive
  · have herase : liveEntries t = (liveEntries s).erase i := by
      ext k
      rw [Finset.mem_erase, mem_liveEntries, mem_liveEntries]
      constructor
      · intro hk
        exact ⟨(hu.live hk).1, (hu.live hk).2.1⟩
      · rintro ⟨hki, hk⟩
        have hsame : t.directory k = s.directory k := by rw [hu.directory, Function.update_of_ne hki]
        exact ⟨hk.1, hsame ▸ hk.2⟩
    have hcard := Finset.card_erase_add_one (mem_liveEntries.mpr hi.1)
    have hcounted := h.counted
    rw [hu.freeInodes, inc32_of_lt (by omega), herase]
    omega

/-- `fs_create_file` makes the file exactly when the name is accepted. -/
theorem Directory.create_cases (h : Directory s names) (f : CString) :
    (¬ Accepts names f ∧ fsCreateFile s (some f) = (-1, s)) ∨
    (Accepts names f ∧ ∃ i n, Creatable s f i n ∧ fsCreateFile s (some f) = (0, newFile s i n f)) := by
  rcases fsCreateFile_cases s (some f) with ⟨heq, hwhy⟩ | ⟨g, i, n, hg, hc, heq⟩
  · refine Or.inl ⟨?_, heq⟩
    rintro ⟨hname, habsent, hfew⟩
    rcases hwhy f rfl with hzero | hlong | hfound | hfull | hbits
    · omega
    · omega
    · exact hfound (h.listing.absent habsent)
    · have := h.listing.entries_full hfull
      omega
    · exact inode_left (fun n _ _ => h.inodes n) hbits
  · cases hg
    exact Or.inr ⟨⟨⟨hc.nonempty, hc.short⟩, h.listing.find_eq_zero.mp hc.absent,
      h.listing.entry_free hc.entry hc.entryFree⟩, i, n, hc, heq⟩

theorem Directory.fsCreateFile (h : Directory s names) (f : CString) :
    Directory (fsCreateFile s (some f)).2 (addName names f) := by
  rcases h.create_cases f with ⟨hno, heq⟩ | ⟨hyes, i, n, hc, heq⟩
  · rw [heq, addName, if_neg hno]
    exact h
  · rw [heq, addName, if_pos hyes]
    exact h.created hc hyes.2.1

theorem Directory.opened (h : Directory s names) (n : Nat) : Directory (fsOpenInode s n).2 names := by
  rcases fsOpenInode_cases s n with ⟨heq, _⟩ | ⟨_, k, _, _, _, heq⟩ <;> rw [heq]
  · exact h
  · exact h.congr rfl rfl rfl

theorem fsWrite_keeps_inodes (s : State) (fd : Int) (buffer : Option (Nat → UInt8)) (count : UInt32) :
    (fsWrite s fd buffer count).2.inodeBitmap = s.inodeBitmap ∧
    (fsWrite s fd buffer count).2.superblock.freeInodes = s.superblock.freeInodes := by
  rcases fsWrite_cases s fd buffer count with heq | ⟨k, buf, _, _, _, _, _, heq⟩ <;> rw [heq]
  · exact ⟨rfl, rfl⟩
  · exact writeLoop_invariant
      (fun t => t.inodeBitmap = s.inodeBitmap ∧ t.superblock.freeInodes = s.superblock.freeInodes)
      (fun _ _ ht _ _ _ _ => ht) (fun _ _ _ ht _ _ _ => ht) ⟨rfl, rfl⟩

/-- Every call keeps the directory and follows the set of names. -/
theorem directory_step (howned : Owned s) (h : Directory s names) (c : Call) :
    Directory (call s c).2 (namesAfter names c) := by
  cases c with
  | createFile filename =>
      cases filename with
      | none => exact h
      | some f => exact h.fsCreateFile f
  | openFile filename create =>
      cases filename with
      | none => exact h
      | some f =>
          change Directory (fsOpen s (some f) create).2 (if create = 0 then names else addName names f)
          by_cases hmake : fsFindInode s f = 0 ∧ create ≠ 0
          · have hcreated := h.fsCreateFile f
            simp only [fsOpen, if_pos hmake, if_neg hmake.2]
            split
            · exact hcreated
            · exact hcreated.opened _
          · have hsame : (if create = 0 then names else addName names f) = names := by
              split
              · rfl
              · rename_i hcreate
                have hf : f ∈ names := by
                  by_contra habsent
                  exact hmake ⟨h.listing.absent habsent, hcreate⟩
                exact if_neg (fun haccepts => haccepts.2.1 hf)
            simp only [fsOpen, if_neg hmake, hsame]
            exact h.opened _
  | close fd =>
      change Directory (fsClose s fd).2 names
      rcases fsClose_cases s fd with ⟨_, heq⟩ | ⟨k, _, _, _, heq⟩ <;> rw [heq]
      · exact h
      · exact h.congr rfl rfl rfl
  | read fd buffer count =>
      change Directory (fsRead s fd buffer count).2 names
      rcases fsRead_frame s fd buffer count with heq | ⟨k, _, _, _, o, heq⟩ <;> rw [heq]
      · exact h
      · exact h.congr rfl rfl rfl
  | write fd buffer count =>
      obtain ⟨hbitmap, hcount⟩ := fsWrite_keeps_inodes s fd buffer count
      exact h.congr (fsWrite_frame s fd buffer count).1 hbitmap hcount
  | unlink filename =>
      cases filename with
      | none => exact h
      | some f =>
          change Directory (fsUnlink s (some f)).2 (names.erase f)
          rcases howned.fsUnlink_cases (some f) with ⟨heq, hwhy⟩ | ⟨g, i, t, hg, hlive, hname, _, heq, hu⟩ <;> rw [heq]
          · rw [Finset.erase_eq_of_notMem (h.listing.find_eq_zero.mp (hwhy f rfl))]
            exact h
          · cases hg
            exact h.unlinked ⟨hlive, hname⟩ hu

end Steps

theorem directory_init (s : State) : Directory (fsInit s) ∅ := by
  have hdead : ∀ i, ¬ Live (fsInit s) i := fun i hi => hi.2 rfl
  refine ⟨listing_init s, fun f hf => absurd hf (Finset.notMem_empty f), inodeListed_init s,
    fun i hi => (hdead i hi).elim, ?_⟩
  have hnone : liveEntries (fsInit s) = ∅ := Finset.filter_false_of_mem (fun i _ => not_not.mpr rfl)
  rw [hnone]
  rfl

theorem directory_after (s : State) (calls : List Call) :
    Owned (afterCalls (fsInit s) calls) ∧ Directory (afterCalls (fsInit s) calls) (createdNames calls) := by
  have hrun : ∀ (t : State) (names : Finset CString), Owned t → Directory t names →
      Owned (afterCalls t calls) ∧ Directory (afterCalls t calls) (calls.foldl namesAfter names) := by
    induction calls with
    | nil => exact fun _ _ howned h => ⟨howned, h⟩
    | cons c calls ih =>
        intro t names howned h
        exact ih _ _ (owned_step (l := (c, (call t c).1)) howned rfl) (directory_step howned h c)
  exact hrun _ _ (owned_init s) (directory_init s)

/-- What a run of file calls guarantees of the directory. -/
structure DirectorySound (s : State) (names : Finset CString) : Prop where
  stored : ∀ i, Live s i → (s.directory i).name.length = 28 ∧ (s.directory i).name[27]? = some 0 ∧
    1 ≤ (text (s.directory i).name).length ∧ (text (s.directory i).name).length ≤ 27
  distinct : ∀ i k, Live s i → Live s k → text (s.directory i).name = text (s.directory k).name → i = k
  range : ∀ i, Live s i → 1 ≤ (s.directory i).inode ∧ (s.directory i).inode ≤ 1023
  once : ∀ i k, Live s i → Live s k → (s.directory i).inode = (s.directory k).inode → i = k
  bits : ∀ n, ByteBitmap.test s.inodeBitmap n = true ↔ ∃ i, Live s i ∧ (s.directory i).inode = n
  freeInodes : s.superblock.freeInodes = 1023 - (liveEntries s).card
  find : ∀ f, fsFindInode s f ≠ 0 ↔ f ∈ names
  create : ∀ f, (fsCreateFile s (some f)).1 = -1 ↔
    f.chars.length = 0 ∨ 27 < f.chars.length ∨ f ∈ names ∨ (liveEntries s).card = 128
  inodeLeft : (fsAllocInode s).1 ≠ 0

theorem Directory.sound {s : State} {names : Finset CString} (howned : Owned s) (h : Directory s names) :
    DirectorySound s names := by
  refine ⟨fun i hi => ?_, fun i k hi hk heq => ?_, fun i hi => ?_, howned.inodeOnce, fun n => ⟨h.inodes n, ?_⟩, ?_,
    fun f => ?_, fun f => ?_, fun hzero => ?_⟩
  · obtain ⟨hlength, hend⟩ := h.stored i hi
    have hname := h.valid _ ((h.listing.listed _).mpr ⟨i, named_entryName hi⟩)
    exact ⟨hlength, hend, hname⟩
  · exact h.listing.unique i k ⟨_, nul_notMem_text _⟩ ⟨hi, rfl⟩ ⟨hk, heq.symm⟩
  · have := howned.inodeRange i hi
    have := hi.2
    omega
  · rintro ⟨i, hi, rfl⟩
    exact howned.inodeSet i hi
  · have := h.counted
    omega
  · rw [ne_eq, h.listing.find_eq_zero, not_not]
  · have hcard := h.listing.card_eq
    have hle := liveEntries_card_le s
    rcases h.create_cases f with ⟨hno, heq⟩ | ⟨hyes, i, n, _, heq⟩ <;> rw [heq]
    · refine iff_of_true rfl ?_
      by_contra hall
      simp only [not_or] at hall
      exact hno ⟨⟨by omega, by omega⟩, hall.2.2.1, by omega⟩
    · refine iff_of_false (show ¬ (0 : Int) = -1 by decide) ?_
      obtain ⟨hname, habsent, hfew⟩ := hyes
      rintro (hzero | hlong | hmem | hfull)
      · omega
      · omega
      · exact habsent hmem
      · omega
  · rcases fsAllocInode_cases s with ⟨_, hall⟩ | ⟨n, hn, _, _, heq⟩
    · exact inode_left (fun n _ _ => h.inodes n) hall
    · rw [heq] at hzero
      omega

/-- After any file calls, those on unlinked files included. -/
theorem directory_sound (s : State) (calls : List Call) :
    DirectorySound (afterCalls (fsInit s) calls) (createdNames calls) :=
  (directory_after s calls).2.sound (directory_after s calls).1

end SengKernel.Fs
