import SengKernel.FsLeaks

/- The names in the directory: which set of names the entries list, how a lookup
   answers, and what creating and removing a file does to the set. -/
namespace SengKernel.Fs
open BoundedLoop MachineWord Str Transition

/-- Entry `i` of the directory lists the file `f`. -/
def Named (s : State) (i : Nat) (f : CString) : Prop := Live s i ∧ text (s.directory i).name = f.chars

/-- The directory lists every name of the set, once. -/
structure Listing (s : State) (names : Finset CString) : Prop where
  listed : ∀ f, f ∈ names ↔ ∃ i, Named s i f
  unique : ∀ i k f, Named s i f → Named s k f → i = k

/-- Inode `n` is given out to a listed file only. -/
def InodeListed (s : State) (n : Nat) : Prop :=
  ByteBitmap.test s.inodeBitmap n = true → ∃ i, Live s i ∧ (s.directory i).inode = n

/-- The used entries of the directory. -/
def liveEntries (s : State) : Finset Nat := (Finset.range 128).filter (fun i => (s.directory i).inode ≠ 0)

def entryName (s : State) (i : Nat) : CString := ofBytes (s.directory i).name

section Names

variable {s t : State} {names : Finset CString} {i : Nat} {f : CString}

theorem mem_liveEntries : i ∈ liveEntries s ↔ Live s i := by
  rw [liveEntries, Finset.mem_filter, Finset.mem_range, Live]

theorem liveEntries_card_le (s : State) : (liveEntries s).card ≤ 128 := by
  have := Finset.card_filter_le (Finset.range 128) (fun i => (s.directory i).inode ≠ 0)
  rwa [Finset.card_range] at this

theorem named_entryName (h : Live s i) : Named s i (entryName s i) := ⟨h, rfl⟩

theorem Named.eq_entryName (h : Named s i f) : entryName s i = f := by
  obtain ⟨chars, hnul⟩ := f
  have hchars : text (s.directory i).name = chars := h.2
  subst hchars
  rfl

theorem Listing.find (h : Listing s names) (hi : Named s i f) : fsFindInode s f = (s.directory i).inode := by
  rcases fsFindEntry_cases s f with ⟨k, hk, hfind, hne, hname⟩ | ⟨_, hnone⟩
  · obtain rfl := h.unique i k f hi ⟨⟨hk, hne⟩, hname⟩
    rw [fsFindInode, hfind]
  · exact (hnone i hi.1.1 hi.1.2 hi.2).elim

theorem Listing.absent (h : Listing s names) (hf : f ∉ names) : fsFindInode s f = 0 := by
  rcases fsFindEntry_cases s f with ⟨k, hk, _, hne, hname⟩ | ⟨hnone, _⟩
  · exact (hf ((h.listed f).mpr ⟨k, ⟨hk, hne⟩, hname⟩)).elim
  · rw [fsFindInode, hnone]

theorem Listing.find_eq_zero (h : Listing s names) : fsFindInode s f = 0 ↔ f ∉ names := by
  refine ⟨fun hzero hf => ?_, h.absent⟩
  obtain ⟨i, hi⟩ := (h.listed f).mp hf
  rw [h.find hi] at hzero
  exact hi.1.2 hzero

theorem Listing.names_eq (h : Listing s names) : names = (liveEntries s).image (entryName s) := by
  ext f
  rw [h.listed, Finset.mem_image]
  constructor
  · rintro ⟨i, hi⟩
    exact ⟨i, mem_liveEntries.mpr hi.1, hi.eq_entryName⟩
  · rintro ⟨i, hi, rfl⟩
    exact ⟨i, named_entryName (mem_liveEntries.mp hi)⟩

theorem Listing.entryName_injOn (h : Listing s names) : Set.InjOn (entryName s) (liveEntries s) := by
  intro i hi k hk heq
  have hi := named_entryName (mem_liveEntries.mp hi)
  have hk := named_entryName (mem_liveEntries.mp hk)
  rw [heq] at hi
  exact h.unique i k _ hi hk

/-- As many names as used entries. -/
theorem Listing.card_eq (h : Listing s names) : names.card = (liveEntries s).card := by
  rw [h.names_eq, Finset.card_image_of_injOn h.entryName_injOn]

theorem Listing.entry_free (h : Listing s names) (hi : i < 128) (hfree : (s.directory i).inode = 0) :
    names.card < 128 := by
  have hsub : liveEntries s ⊂ Finset.range 128 :=
    Finset.filter_ssubset.mpr ⟨i, Finset.mem_range.mpr hi, not_not.mpr hfree⟩
  have := Finset.card_lt_card hsub
  rw [Finset.card_range] at this
  rw [h.card_eq]
  exact this

theorem Listing.entries_full (h : Listing s names) (hfull : ∀ i < 128, (s.directory i).inode ≠ 0) :
    names.card = 128 := by
  have hall : liveEntries s = Finset.range 128 :=
    Finset.filter_true_of_mem (fun i hi => hfull i (Finset.mem_range.mp hi))
  rw [h.card_eq, hall, Finset.card_range]

/-- There are more inodes than entries. -/
theorem inode_left (hlisted : ∀ n, 1 ≤ n → n < 1024 → InodeListed s n) :
    ¬ ∀ n, 1 ≤ n → n < 1024 → ByteBitmap.test s.inodeBitmap n = true := by
  intro hall
  have hsub : Finset.Ico 1 1024 ⊆ (liveEntries s).image (fun i => (s.directory i).inode) := by
    intro n hn
    obtain ⟨hpos, hlt⟩ := Finset.mem_Ico.mp hn
    obtain ⟨i, hi, heq⟩ := hlisted n hpos hlt (hall n hpos hlt)
    exact Finset.mem_image.mpr ⟨i, mem_liveEntries.mpr hi, heq⟩
  have hcard := (Finset.card_le_card hsub).trans Finset.card_image_le
  have hlive := liveEntries_card_le s
  rw [Nat.card_Ico] at hcard
  omega

/-- Only the directory matters. -/
theorem Listing.congr (h : Listing s names) (hdir : t.directory = s.directory) : Listing t names := by
  have hnamed : ∀ i f, Named t i f ↔ Named s i f := by
    intro i f
    rw [Named, Named, Live, Live, hdir]
  refine ⟨fun f => (h.listed f).trans (exists_congr (fun i => (hnamed i f).symm)), fun i k f hi hk => ?_⟩
  exact h.unique i k f ((hnamed i f).mp hi) ((hnamed k f).mp hk)

end Names

theorem listing_init (s : State) : Listing (fsInit s) ∅ :=
  ⟨fun f => iff_of_false (Finset.notMem_empty f) (fun ⟨_, hi⟩ => hi.1.2 rfl), fun _ _ _ hi => (hi.1.2 rfl).elim⟩

theorem inodeListed_init (s : State) (n : Nat) : InodeListed (fsInit s) n := by
  intro hset
  have hclear : ByteBitmap.test (fun _ => 0) n = false := by simp [ByteBitmap.test]
  cases hclear.symm.trans hset

section Creating

variable {s : State} {names : Finset CString} {i n k : Nat} {f g : CString}

theorem text_stored (hlen : f.chars.length ≤ 27) : text (strncpy f.chars 27 ++ [0]) = f.chars := by
  rw [strncpy_eq f.noNul hlen, List.append_assoc, text_append f.noNul]
  have hpad : text (List.replicate (27 - f.chars.length) 0 ++ [0]) = [] := by
    cases 27 - f.chars.length with
    | zero => rfl
    | succ k => rfl
  rw [hpad, List.append_nil]

theorem Named.newFile (hc : Creatable s f i n) (hk : Named s k g) :
    Named (newFile s i n f) k g ∧ ((newFile s i n f).directory k) = s.directory k := by
  have hki : k ≠ i := by
    rintro rfl
    exact hk.1.2 hc.entryFree
  have hsame : (Fs.newFile s i n f).directory k = s.directory k := by
    rw [newFile_directory, Function.update_of_ne hki]
  exact ⟨⟨⟨hk.1.1, hsame ▸ hk.1.2⟩, hsame ▸ hk.2⟩, hsame⟩

theorem newFile_named (hc : Creatable s f i n) : Named (newFile s i n f) i f := by
  have hself : (newFile s i n f).directory i = { name := strncpy f.chars 27 ++ [0], inode := n } := by
    rw [newFile_directory, Function.update_self]
  refine ⟨⟨hc.entry, ?_⟩, ?_⟩
  · rw [hself]
    exact Nat.ne_of_gt hc.positive
  · rw [hself]
    exact text_stored hc.short

theorem named_newFile (hc : Creatable s f i n) (hk : Named (newFile s i n f) k g) :
    (k = i ∧ g = f) ∨ Named s k g := by
  rcases newFile_live hk.1 with ⟨rfl, _⟩ | ⟨_, hlive, hsame⟩
  · refine Or.inl ⟨rfl, ?_⟩
    have h1 := hk.eq_entryName
    have h2 := (newFile_named hc).eq_entryName
    exact h1.symm.trans h2
  · exact Or.inr ⟨hlive, hsame ▸ hk.2⟩

theorem Listing.newFile (h : Listing s names) (hc : Creatable s f i n) (habsent : f ∉ names) :
    Listing (newFile s i n f) (insert f names) := by
  have hother : ∀ k g, Named s k g → g ≠ f := fun k g hk hgf => habsent (hgf ▸ (h.listed g).mpr ⟨k, hk⟩)
  refine ⟨fun g => ?_, fun k k' g hk hk' => ?_⟩
  · rw [Finset.mem_insert, h.listed]
    constructor
    · rintro (rfl | ⟨k, hk⟩)
      · exact ⟨i, newFile_named hc⟩
      · exact ⟨k, (hk.newFile hc).1⟩
    · rintro ⟨k, hk⟩
      exact (named_newFile hc hk).imp And.right (fun hold => ⟨k, hold⟩)
  · rcases named_newFile hc hk with ⟨hki, hgf⟩ | hold <;> rcases named_newFile hc hk' with ⟨hki', hgf'⟩ | hold'
    · exact hki.trans hki'.symm
    · exact (hother _ _ hold' hgf).elim
    · exact (hother _ _ hold hgf').elim
    · exact h.unique _ _ _ hold hold'

theorem InodeListed.newFile {p : Nat} (h : InodeListed s p) (hc : Creatable s f i n) :
    InodeListed (newFile s i n f) p := by
  intro hset
  have hset : ByteBitmap.test (ByteBitmap.set s.inodeBitmap n) p = true := hset
  rw [ByteBitmap.test_set, Bool.or_eq_true, decide_eq_true_eq] at hset
  rcases hset with rfl | hold
  · refine ⟨i, (newFile_named hc).1, ?_⟩
    rw [newFile_directory, Function.update_self]
  · obtain ⟨k, hk, heq⟩ := h hold
    obtain ⟨hk', hsame⟩ := (named_entryName hk).newFile hc
    exact ⟨k, hk'.1, by rw [hsame]; exact heq⟩

end Creating

section Removing

variable {s t : State} {names : Finset CString} {i k : Nat} {f g : CString}

theorem Unlinked.named_old (h : Listing s names) (hi : Named s i f) (hu : Unlinked s t i) (hk : Named t k g) :
    Named s k g ∧ g ≠ f ∧ t.directory k = s.directory k := by
  obtain ⟨hki, hlive, hsame⟩ := hu.live hk.1
  have hold : Named s k g := ⟨hlive, hsame ▸ hk.2⟩
  refine ⟨hold, ?_, hsame⟩
  rintro rfl
  exact hki (h.unique k i g hold hi)

theorem Unlinked.named_stay (hi : Named s i f) (hu : Unlinked s t i) (hk : Named s k g) (hgf : g ≠ f) :
    Named t k g ∧ t.directory k = s.directory k := by
  have hki : k ≠ i := by
    rintro rfl
    exact hgf (hk.eq_entryName.symm.trans hi.eq_entryName)
  have hsame : t.directory k = s.directory k := by rw [hu.directory, Function.update_of_ne hki]
  exact ⟨⟨⟨hk.1.1, hsame ▸ hk.1.2⟩, hsame ▸ hk.2⟩, hsame⟩

theorem Listing.removed (h : Listing s names) (hi : Named s i f) (hu : Unlinked s t i) :
    Listing t (names.erase f) := by
  refine ⟨fun g => ?_, fun k k' g hk hk' => ?_⟩
  · rw [Finset.mem_erase, h.listed]
    constructor
    · rintro ⟨hgf, k, hk⟩
      exact ⟨k, (Unlinked.named_stay hi hu hk hgf).1⟩
    · rintro ⟨k, hk⟩
      obtain ⟨hold, hgf, _⟩ := Unlinked.named_old h hi hu hk
      exact ⟨hgf, k, hold⟩
  · exact h.unique k k' g (Unlinked.named_old h hi hu hk).1 (Unlinked.named_old h hi hu hk').1

theorem InodeListed.removed {p : Nat} (hp : InodeListed s p) (h : Listing s names) (hi : Named s i f)
    (hu : Unlinked s t i) : InodeListed t p := by
  intro hset
  rw [hu.inodeBits, Bool.and_eq_true, decide_eq_true_eq] at hset
  obtain ⟨k, hk, heq⟩ := hp hset.2
  have hgf : entryName s k ≠ f := by
    intro hname
    have hk' := named_entryName hk
    rw [hname] at hk'
    obtain rfl := h.unique k i f hk' hi
    exact hset.1 heq.symm
  obtain ⟨hk', hsame⟩ := Unlinked.named_stay hi hu (named_entryName hk) hgf
  exact ⟨k, hk'.1, by rw [hsame]; exact heq⟩

end Removing

end SengKernel.Fs
