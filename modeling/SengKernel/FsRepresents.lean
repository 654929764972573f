import SengKernel.FileMap
import SengKernel.FsListing

/- The states of the file system that stand for a map of files, and the calls that
   move no data: creating, opening, closing and removing a file. -/
namespace SengKernel.Fs
open BoundedLoop MachineWord Str Transition Splice

/-- Inode `n` holds the content `xs`. -/
structure Holds (s : State) (n : Nat) (xs : List UInt8) : Prop where
  size : (s.inodes n).size = xs.length
  small : xs.length ≤ 32768
  blocks : ∀ j < 8, (s.inodes n).blocks j ≠ 0 ↔ 4096 * j < xs.length
  bytes : ∀ p < xs.length, xs[p]? = some (s.ramdisk ((s.inodes n).blocks (p / 4096) * 4096 + p % 4096))

/-- A descriptor stands for an opened file, or is free. -/
def Matches (s : State) (d : FileDesc) : Option Opened → Prop
  | none => d.valid = false
  | some e => d.valid = true ∧ d.offset = e.offset ∧ ∃ i, Named s i e.name ∧ (s.directory i).inode = d.inode

structure Represents (s : State) (m : FileMap) : Prop where
  owned : Owned s
  noLeak : NoLeak s
  listed : ∀ f, f ∈ m.names ↔ ∃ i, Named s i f
  unique : ∀ i k f, Named s i f → Named s k f → i = k
  holds : ∀ i f, Named s i f → Holds s (s.directory i).inode (m.content f)
  inodeBits : ∀ n, 1 ≤ n → n < 1024 → ByteBitmap.test s.inodeBitmap n = true →
    ∃ i, Live s i ∧ (s.directory i).inode = n
  descs : ∀ k < 16, Matches s (s.openFiles k) (m.fds k)

theorem Represents.listing {s : State} {m : FileMap} (h : Represents s m) : Listing s m.names := ⟨h.listed, h.unique⟩

theorem represents_init (s : State) : Represents (fsInit s) FileMap.empty := by
  have hdead : ∀ i, ¬ Live (fsInit s) i := fun i hi => hi.2 rfl
  refine ⟨owned_init s, fun i _ hset => ?_, (listing_init s).listed, (listing_init s).unique,
    fun i _ hi => (hdead i hi.1).elim, fun n _ _ hset => inodeListed_init s n hset, fun k hk => ?_⟩
  · have hclear : ByteBitmap.test (fun _ => 0) i = false := by simp [ByteBitmap.test]
    cases hclear.symm.trans hset
  · change ((fsInit s).openFiles k).valid = false
    simp only [fsInit, fsMaxOpenFiles, if_pos hk]

/-- The same result, and related states. -/
def Agree (x : Int × State) (y : Int × FileMap) : Prop := x.1 = y.1 ∧ Represents x.2 y.2

section Calls

variable {s t : State} {m : FileMap} {i n : Nat} {f : CString}

/-- Only the inode and the bytes of its blocks matter. -/
theorem Holds.congr {xs : List UInt8} (h : Holds s n xs) (hinode : t.inodes n = s.inodes n)
    (hbytes : ∀ p < xs.length, t.ramdisk ((s.inodes n).blocks (p / 4096) * 4096 + p % 4096) =
      s.ramdisk ((s.inodes n).blocks (p / 4096) * 4096 + p % 4096)) : Holds t n xs := by
  refine ⟨by rw [hinode]; exact h.size, h.small, fun j hj => by rw [hinode]; exact h.blocks j hj, fun p hp => ?_⟩
  rw [hinode, hbytes p hp]
  exact h.bytes p hp

/-- What a descriptor stands for depends on the directory only. -/
theorem Matches.congr {d : FileDesc} {o : Option Opened} (h : Matches s d o)
    (hnamed : ∀ e, o = some e → ∀ i, Named s i e.name → Named t i e.name ∧ t.directory i = s.directory i) :
    Matches t d o := by
  cases o with
  | none => exact h
  | some e =>
      obtain ⟨hvalid, hoffset, i, hi, hinode⟩ := h
      obtain ⟨hi', hsame⟩ := hnamed e rfl i hi
      exact ⟨hvalid, hoffset, i, hi', by rw [hsame]; exact hinode⟩

theorem Represents.newFile (h : Represents s m) (hc : Creatable s f i n)
    (hname : 1 ≤ f.chars.length ∧ f.chars.length ≤ 27) (habsent : f ∉ m.names) (hfew : m.names.card < 128) :
    Represents (newFile s i n f) (m.addFile f hname habsent hfew) := by
  have hother : ∀ k g, Named s k g → g ≠ f := fun k g hk hgf => habsent (hgf ▸ (h.listed g).mpr ⟨k, hk⟩)
  have hlisting : Listing (Fs.newFile s i n f) (insert f m.names) := h.listing.newFile hc habsent
  refine ⟨h.owned.created hc, h.noLeak.created h.owned hc, hlisting.listed, hlisting.unique, fun k g hk => ?_,
    fun p hp hlt hset => ?_, fun k hk => ?_⟩
  · change Holds _ _ (Function.update m.content f [] g)
    rcases named_newFile hc hk with ⟨rfl, rfl⟩ | hold
    · have hself : ((Fs.newFile s k n g).directory k).inode = n := by rw [newFile_directory, Function.update_self]
      have hinode : (Fs.newFile s k n g).inodes n = { size := 0, blocks := fun _ => 0 } := by
        rw [newFile_inodes, Function.update_self]
      rw [Function.update_self, hself]
      refine ⟨by rw [hinode]; rfl, Nat.zero_le _, fun j _ => ?_, fun p hp => absurd hp (Nat.not_lt_zero p)⟩
      rw [hinode]
      exact iff_of_false (fun hne => hne rfl) (Nat.not_lt_zero _)
    · rw [Function.update_of_ne (hother k g hold), (hold.newFile hc).2]
      refine (h.holds k g hold).congr ?_ (fun _ _ => rfl)
      rw [newFile_inodes, Function.update_of_ne (h.owned.fresh hc hold.1)]
  · exact InodeListed.newFile (h.inodeBits p hp hlt) hc hset
  · exact (h.descs k hk).congr (fun e _ j hj => hj.newFile hc)

theorem Represents.create (h : Represents s m) (filename : Option CString) :
    Agree (fsCreateFile s filename) (m.create filename) := by
  rcases fsCreateFile_cases s filename with ⟨heq, hwhy⟩ | ⟨f, i, n, rfl, hc, heq⟩
  · rw [heq]
    cases filename with
    | none => exact ⟨rfl, h⟩
    | some f =>
        have hno : ¬ ((1 ≤ f.chars.length ∧ f.chars.length ≤ 27) ∧ f ∉ m.names ∧ m.names.card < 128) := by
          rintro ⟨hname, habsent, hfew⟩
          rcases hwhy f rfl with hzero | hlong | hfound | hfull | hbits
          · omega
          · omega
          · exact hfound (h.listing.absent habsent)
          · have := h.listing.entries_full hfull
            omega
          · exact inode_left h.inodeBits hbits
        simp only [FileMap.create, dif_neg hno]
        exact ⟨rfl, h⟩
  · have habsent : f ∉ m.names := h.listing.find_eq_zero.mp hc.absent
    have hfew := h.listing.entry_free hc.entry hc.entryFree
    have hyes : (1 ≤ f.chars.length ∧ f.chars.length ≤ 27) ∧ f ∉ m.names ∧ m.names.card < 128 :=
      ⟨⟨hc.nonempty, hc.short⟩, habsent, hfew⟩
    rw [heq]
    simp only [FileMap.create, dif_pos hyes]
    exact ⟨rfl, h.newFile hc hyes.1 habsent hfew⟩

theorem create_failed {filename : Option CString} (h : (m.create filename).1 ≠ 0) : (m.create filename).2 = m := by
  unfold FileMap.create at h ⊢
  split at h
  · rfl
  · split at h
    · exact (h rfl).elim
    · rename_i hno
      rw [dif_neg hno]

/-- A change of one descriptor. -/
theorem Represents.setDesc (h : Represents s m) {k : Nat} {d : FileDesc} {o : Option Opened} (hm : Matches s d o)
    (ho : ∀ e, o = some e → k < 16 ∧ e.name ∈ m.names ∧ e.offset ≤ (m.content e.name).length) :
    Represents (setDesc s k d) (m.setFd k o ho) := by
  have hrange : d.valid = true → d.inode < 1024 := by
    intro hvalid
    cases o with
    | none =>
        rw [show d.valid = false from hm] at hvalid
        cases hvalid
    | some e =>
        obtain ⟨_, _, i, hi, hinode⟩ := hm
        exact hinode ▸ h.owned.inodeRange i hi.1
  refine ⟨h.owned.desc hrange, h.noLeak.congr rfl rfl (fun _ => rfl), h.listed, h.unique, fun i f hi => ?_,
    h.inodeBits, fun j hj => ?_⟩
  · exact (h.holds i f hi).congr rfl (fun _ _ => rfl)
  · change Matches _ ((Fs.setDesc s k d).openFiles j) (Function.update m.fds k o j)
    by_cases hjk : j = k
    · subst hjk
      rw [setDesc_self, Function.update_self]
      exact hm.congr (fun e _ i hi => ⟨hi, rfl⟩)
    · rw [setDesc_of_ne s d hjk, Function.update_of_ne hjk]
      exact (h.descs j hj).congr (fun e _ i hi => ⟨hi, rfl⟩)

theorem Represents.valid_eq (h : Represents s m) {k : Nat} (hk : k < 16) :
    (s.openFiles k).valid = (m.fds k).isSome := by
  have hm := h.descs k hk
  cases hfd : m.fds k with
  | none =>
      rw [hfd] at hm
      exact hm
  | some e =>
      rw [hfd] at hm
      exact hm.1

theorem Represents.lowestFree (h : Represents s m) : fsFindFreeFd s = m.lowestFree := by
  refine scan_congr (fun k _ hk => ?_)
  rw [h.valid_eq (k := k) (by simpa using hk), Option.not_isSome]

theorem Represents.openFile (h : Represents s m) (f : CString) :
    Agree (fsOpenInode s (fsFindInode s f)) (m.openFile f) := by
  by_cases hf : f ∈ m.names
  · obtain ⟨i, hi⟩ := (h.listed f).mp hf
    have hne : fsFindInode s f ≠ 0 := fun hzero => h.listing.find_eq_zero.mp hzero hf
    have hfree := h.lowestFree
    rcases fsOpenInode_cases s (fsFindInode s f) with ⟨heq, hwhy⟩ | ⟨_, k, hk, hclear, hbefore, heq⟩
    · have hfull := hwhy.resolve_left hne
      have hnone : fsFindFreeFd s = none := scan_eq_none (fun k _ hk => by rw [hfull k (by simpa using hk)]; rfl)
      rw [heq, m.openFile_none (hfree.symm.trans hnone)]
      exact ⟨rfl, h⟩
    · have hsome : fsFindFreeFd s = some k := by
        refine scan_eq_some (Nat.zero_le k) (by simpa using hk) (by rw [hclear]; rfl) (fun j _ hj => ?_)
        rw [hbefore j hj]
        rfl
      have ho : ∀ e, some (Opened.mk f 0) = some e → k < 16 ∧ e.name ∈ m.names ∧ e.offset ≤ (m.content e.name).length := by
        intro e he
        cases he
        exact ⟨hk, hf, Nat.zero_le _⟩
      rw [heq, m.openFile_some hf (hfree.symm.trans hsome) ho]
      refine ⟨rfl, h.setDesc ?_ ho⟩
      exact ⟨rfl, rfl, i, hi, (h.listing.find hi).symm⟩
  · simp only [FileMap.openFile, dif_neg hf, h.listing.absent hf, fsOpenInode, if_true]
    exact ⟨rfl, h⟩

theorem Represents.open (h : Represents s m) (filename : Option CString) (create : Int) :
    Agree (fsOpen s filename create) (m.openOrCreate filename create) := by
  cases filename with
  | none => exact ⟨rfl, h⟩
  | some f =>
      by_cases hnew : f ∉ m.names ∧ create ≠ 0
      · have hfind : fsFindInode s f = 0 ∧ create ≠ 0 := ⟨h.listing.absent hnew.1, hnew.2⟩
        obtain ⟨hret, hmade⟩ := h.create (some f)
        simp only [FileMap.openOrCreate, if_pos hnew, fsOpen, if_pos hfind]
        split
        · rename_i hfail
          rw [hret] at hfail
          rw [create_failed hfail] at hmade ⊢
          simp only [FileMap.openFile, dif_neg hnew.1]
          exact ⟨rfl, hmade⟩
        · exact hmade.openFile f
      · have hfind : ¬ (fsFindInode s f = 0 ∧ create ≠ 0) := by
          rw [h.listing.find_eq_zero]
          exact hnew
        simp only [FileMap.openOrCreate, if_neg hnew, fsOpen, if_neg hfind]
        exact h.openFile f

/-- The descriptors that the calls accept. -/
theorem Represents.badFd (h : Represents s m) (fd : Int) :
    (badFd s fd = true ∧ m.desc fd = none) ∨
    ∃ k d, k < 16 ∧ fd = (k : Nat) ∧ badFd s fd = false ∧ m.desc fd = some d ∧ m.fds k = some d := by
  cases fd with
  | ofNat k =>
      by_cases hk : k < 16
      · have hv := h.valid_eq hk
        have hbad : Fs.badFd s (Int.ofNat k) = !(s.openFiles k).valid := badFd_natCast hk
        cases hfd : m.fds k with
        | none =>
            rw [hfd] at hv
            rw [hv] at hbad
            exact Or.inl ⟨hbad, hfd⟩
        | some d =>
            rw [hfd] at hv
            rw [hv] at hbad
            exact Or.inr ⟨k, d, hk, rfl, hbad, hfd, hfd⟩
      · refine Or.inl ⟨?_, ?_⟩
        · simp only [Fs.badFd, fsMaxOpenFiles]
          simp
          omega
        · cases hfd : m.fds k with
          | none => exact hfd
          | some d => exact (hk (m.opened k d hfd).1).elim
  | negSucc k => exact Or.inl ⟨by simp [Fs.badFd, Int.negSucc_lt_zero], rfl⟩

theorem Represents.close (h : Represents s m) (fd : Int) : Agree (fsClose s fd) (m.close fd) := by
  rcases h.badFd fd with ⟨hbad, hnone⟩ | ⟨k, d, hk, rfl, hbad, hdesc, _⟩
  · simp only [FileMap.close, hnone, fsClose, hbad]
    exact ⟨rfl, h⟩
  · simp only [FileMap.close, hdesc, fsClose, hbad]
    refine ⟨rfl, h.setDesc (o := none) ?_ (by simp)⟩
    exact rfl

/-- The file of entry `i` is removed and no descriptor is open on it. -/
theorem Represents.removed (h : Represents s m) (hi : Named s i f) (hu : Unlinked s t i)
    (hclosed : ∀ k d, m.fds k = some d → d.name ≠ f) : Represents t (m.remove f hclosed) := by
  have hlisting : Listing t (m.names.erase f) := h.listing.removed hi hu
  refine ⟨h.owned.unlinked hi.1 hu, h.noLeak.unlinked hu, hlisting.listed, hlisting.unique, fun k g hk => ?_,
    fun p hp hlt hset => ?_, fun k hk => ?_⟩
  · obtain ⟨hold, _, hsame⟩ := Unlinked.named_old h.listing hi hu hk
    rw [hsame]
    refine (h.holds k g hold).congr (by rw [hu.inodes]) (fun _ _ => by rw [hu.ramdisk])
  · exact InodeListed.removed (h.inodeBits p hp hlt) h.listing hi hu hset
  · rw [hu.openFiles]
    refine (h.descs k hk).congr (fun e he j hj => ?_)
    exact Unlinked.named_stay hi hu hj (hclosed k e he)

/-- No descriptor that the calls accept is open on the file. -/
def NotOpen (s : State) (f : CString) : Prop :=
  ∀ k < 16, (s.openFiles k).valid = true → (s.openFiles k).inode ≠ fsFindInode s f

theorem Represents.unlink (h : Represents s m) (filename : Option CString)
    (hclosed : ∀ f, filename = some f → f ∈ m.names → NotOpen s f) :
    ∃ y, m.unlink filename = some y ∧ Agree (fsUnlink s filename) y := by
  cases filename with
  | none => exact ⟨_, rfl, rfl, h⟩
  | some f =>
      rcases h.owned.fsUnlink_cases (some f) with ⟨heq, hwhy⟩ | ⟨g, i, t, hg, hlive, hname, hinode, heq, hu⟩
      · have habsent : f ∉ m.names := h.listing.find_eq_zero.mp (hwhy f rfl)
        refine ⟨_, by rw [FileMap.unlink, if_pos habsent], ?_⟩
        rw [heq]
        exact ⟨rfl, h⟩
      · cases hg
        have hi : Named s i f := ⟨hlive, hname⟩
        have hf : f ∈ m.names := (h.listed f).mpr ⟨i, hi⟩
        have hnone : ∀ k < 16, (m.fds k).map Opened.name ≠ some f := by
          intro k hk hfd
          obtain ⟨d, hd, rfl⟩ := Option.map_eq_some_iff.mp hfd
          have hm := h.descs k hk
          rw [hd] at hm
          obtain ⟨hvalid, _, j, hj, hjn⟩ := hm
          refine hclosed d.name rfl hf k hk hvalid ?_
          rw [← hjn, h.listing.find hj]
        refine ⟨_, by rw [FileMap.unlink, if_neg (not_not.mpr hf), dif_pos hnone], ?_⟩
        rw [heq]
        refine ⟨rfl, h.removed hi hu (fun k d hd hname => hnone k (m.opened k d hd).1 ?_)⟩
        rw [hd, ← hname]
        rfl

end Calls

end SengKernel.Fs
