import SengKernel.FsRepresents
import SengKernel.FsReads

/- The reads and writes of kernel/fs.c against the map of files: the loops move the
   bytes of the content block by block. -/
namespace SengKernel.Fs
open BoundedLoop MachineWord Str Transition Splice

section Reading

variable {s : State} {n k o : Nat} {xs : List UInt8}

/-- The read loop delivers the bytes of the content from the offset on. -/
theorem Holds.readLoop (h : Holds s n xs) (hinode : (s.openFiles k).inode = n) (hoffset : (s.openFiles k).offset = o)
    {count : Nat} (hcount : o + count ≤ xs.length) (buf : Nat → UInt8) :
    readLoop k count ⟨s, 0, buf⟩ =
      ⟨setDesc s k { s.openFiles k with offset := o + count }, count, overlay ((xs.drop o).take count) buf⟩ := by
  subst hinode hoffset
  have hsmall := h.small
  have hpresent : ∀ i < count, HasBlock s (s.openFiles k).inode ((s.openFiles k).offset + i) := by
    intro i hi
    exact ⟨by omega, (h.blocks _ (by omega)).mpr (by omega)⟩
  have hfetched := readLoop_fetched s k count buf
  generalize Fs.readLoop k count ⟨s, 0, buf⟩ = x at hfetched
  have hall := hfetched.bytesRead_eq (Nat.le_refl count) hpresent (Or.inl rfl)
  have hbuf : x.buf = overlay ((xs.drop (s.openFiles k).offset).take count) buf := by
    funext i
    rw [overlay]
    by_cases hi : i < count
    · have hbyte := hfetched.bytes i (by omega)
      rw [contentByte_some (hpresent i hi), ← h.bytes _ (by omega)] at hbyte
      rw [List.getElem?_take_of_lt hi, List.getElem?_drop, hbyte]
      rfl
    · rw [hfetched.rest i (by omega), List.getElem?_eq_none (by rw [List.length_take]; omega)]
      rfl
  have hfs := hfetched.fs
  rw [hall] at hfs
  exact Reading.mk.injEq .. ▸ ⟨hfs, hall, hbuf⟩

/-- `fs_read` delivers the bytes of the content from the offset on. -/
theorem Holds.fsRead (h : Holds s n xs) (hk : k < 16) (hvalid : (s.openFiles k).valid = true)
    (hinode : (s.openFiles k).inode = n) (hoffset : (s.openFiles k).offset = o) (ho : o ≤ xs.length)
    {count : UInt32} (hword : o + count.toNat < 4294967296) (buf : Nat → UInt8) {ys : List UInt8}
    (hys : ys = (xs.drop o).take count.toNat) :
    fsRead s k (some buf) count =
      (⟨ys.length, some (overlay ys buf)⟩, setDesc s k { s.openFiles k with offset := o + ys.length }) := by
  have hlength : ys.length = min count.toNat (xs.length - o) := by rw [hys, List.length_take, List.length_drop]
  rw [fsRead_eq hk hvalid, hinode, h.size, hoffset]
  split
  · rename_i hnone
    have hzero : ys.length = 0 := by
      rcases hnone with rfl | hend
      · rw [hlength, UInt32.toNat_zero, Nat.zero_min]
      · omega
    rw [hzero, List.eq_nil_of_length_eq_zero hzero, overlay_nil, Nat.add_zero, ← hoffset, setDesc_same]
    rfl
  · rename_i hsome
    have hcount : readCount (s.openFiles k) (s.inodes n) count.toNat = ys.length := by
      rw [readCount, hoffset, add32_of_lt hword, h.size, hlength]
      split <;> omega
    have htake : (xs.drop o).take ys.length = ys := by
      rw [hys, List.take_eq_take_iff, List.length_take, List.length_drop]
      omega
    rw [hcount, h.readLoop hinode hoffset (by omega) buf, htake]

end Reading

section Space

variable {s : State} {m : FileMap}

theorem lt_pages {j len : Nat} : j < pages len ↔ 4096 * j < len := by
  rw [pages]
  omega

/-- The used blocks are those that the contents fill. -/
theorem Represents.used_card (h : Represents s m) :
    (usedBlocks s).card = ∑ f ∈ m.names, pages (m.content f).length := by
  have hlive : ∀ i, Live s i → Holds s (s.directory i).inode (m.content (entryName s i)) :=
    fun i hi => h.holds i _ (named_entryName hi)
  have hsigma : ∑ f ∈ m.names, pages (m.content f).length =
      ((liveEntries s).sigma (fun i => Finset.range (pages (m.content (entryName s i)).length))).card := by
    rw [h.listing.names_eq, Finset.sum_image h.listing.entryName_injOn, Finset.card_sigma]
    simp only [Finset.card_range]
  -- the pairs of a file and a filled index, against the bits of their blocks
  have hblock : ∀ i, Live s i → ∀ j, j < pages (m.content (entryName s i)).length → j < 8 ∧ fileBlock s i j ≠ 0 := by
    intro i hi j hj
    have hj := lt_pages.mp hj
    have hsmall := (hlive i hi).small
    have hlt : j < 8 := by omega
    exact ⟨hlt, ((hlive i hi).blocks j hlt).mpr hj⟩
  rw [hsigma]
  symm
  refine Finset.card_bij (fun x _ => fileBlock s x.1 x.2 - 36) ?_ ?_ ?_
  · rintro ⟨i, j⟩ hx
    obtain ⟨hi, hj⟩ := Finset.mem_sigma.mp hx
    have hi : Live s i := mem_liveEntries.mp hi
    obtain ⟨hlt, hne⟩ := hblock i hi j (Finset.mem_range.mp hj)
    have hrange := h.owned.fileRange hi hlt hne
    exact Finset.mem_filter.mpr ⟨Finset.mem_range.mpr (by dsimp only; omega), h.owned.allocated i hi j hlt hne⟩
  · rintro ⟨i, j⟩ hx ⟨i', j'⟩ hx' heq
    obtain ⟨hi, hj⟩ := Finset.mem_sigma.mp hx
    obtain ⟨hi', hj'⟩ := Finset.mem_sigma.mp hx'
    have hi : Live s i := mem_liveEntries.mp hi
    have hi' : Live s i' := mem_liveEntries.mp hi'
    obtain ⟨hlt, hne⟩ := hblock i hi j (Finset.mem_range.mp hj)
    obtain ⟨hlt', hne'⟩ := hblock i' hi' j' (Finset.mem_range.mp hj')
    have hrange := h.owned.fileRange hi hlt hne
    have hrange' := h.owned.fileRange hi' hlt' hne'
    have heq : fileBlock s i j = fileBlock s i' j' := by
      dsimp only at heq
      omega
    obtain ⟨rfl, rfl⟩ := h.owned.exclusive i i' hi hi' j hlt j' hlt' hne heq
    rfl
  · intro b hb
    obtain ⟨hb, hset⟩ := Finset.mem_filter.mp hb
    obtain ⟨e, he, j, hj, heq⟩ := h.noLeak b (Finset.mem_range.mp hb) hset
    have hne : fileBlock s e j ≠ 0 := by omega
    have hfilled := ((hlive e he).blocks j hj).mp hne
    refine ⟨⟨e, j⟩, Finset.mem_sigma.mpr ⟨mem_liveEntries.mpr he, Finset.mem_range.mpr (lt_pages.mpr hfilled)⟩, ?_⟩
    dsimp only
    omega

/-- The counter of the superblock is the space that the map has left. -/
theorem Represents.free_eq (h : Represents s m) : s.superblock.freeBlocks = m.free := by
  have := h.owned.exclusiveBlocks.free
  rw [h.used_card] at this
  rw [FileMap.free]
  omega

end Space

section Calls

variable {s : State} {m : FileMap} {k : Nat} {d : Opened}

/-- The file that a descriptor is open on. -/
theorem Represents.opened (h : Represents s m) (hd : m.fds k = some d) :
    k < 16 ∧ (s.openFiles k).valid = true ∧ (s.openFiles k).offset = d.offset ∧
    ∃ e, Named s e d.name ∧ (s.directory e).inode = (s.openFiles k).inode ∧
      Holds s (s.openFiles k).inode (m.content d.name) := by
  obtain ⟨hk, _, _⟩ := m.opened k d hd
  have hm := h.descs k hk
  rw [hd] at hm
  obtain ⟨hvalid, hoffset, e, he, hinode⟩ := hm
  exact ⟨hk, hvalid, hoffset, e, he, hinode, hinode ▸ h.holds e d.name he⟩

theorem Represents.read (h : Represents s m) (fd : Int) (buffer : Option (Nat → UInt8)) (count : UInt32)
    (hword : Fs.badFd s fd = false → (s.openFiles fd.toNat).offset + count.toNat < 4294967296) :
    (fsRead s fd buffer count).1 = (m.read fd buffer count.toNat).1 ∧
    Represents (fsRead s fd buffer count).2 (m.read fd buffer count.toNat).2 := by
  rcases h.badFd fd with ⟨hbad, hnone⟩ | ⟨k, d, _, rfl, hbad, hdesc, hd⟩
  · simp only [m.read_none hnone, fsRead, if_pos hbad]
    exact ⟨trivial, h⟩
  · obtain ⟨hk, hvalid, hoffset, e, he, hinode, hholds⟩ := h.opened hd
    have hword := hword hbad
    rw [Int.toNat_natCast] at hword
    cases buffer with
    | none =>
        simp only [m.read_null hdesc, fsRead, hbad, Bool.false_eq_true, if_false]
        exact ⟨trivial, h⟩
    | some buf =>
        obtain ⟨_, hname, hle⟩ := m.opened k d hd
        generalize hys : ((m.content d.name).drop d.offset).take count.toNat = ys
        have ho : ∀ e, some { d with offset := d.offset + ys.length } = some e →
            k < 16 ∧ e.name ∈ m.names ∧ e.offset ≤ (m.content e.name).length := by
          intro e he
          cases he
          refine ⟨hk, hname, ?_⟩
          change d.offset + ys.length ≤ (m.content d.name).length
          rw [← hys, List.length_take, List.length_drop]
          omega
        rw [hoffset] at hword
        rw [hholds.fsRead hk hvalid rfl hoffset hle hword buf hys.symm, m.read_some hdesc buf count.toNat hys.symm ho]
        refine ⟨rfl, h.setDesc ?_ ho⟩
        exact ⟨hvalid, rfl, e, he, hinode⟩

end Calls

section Writing

variable {s u : State} {m : FileMap} {n j k : Nat} {d : Opened} {buf : Nat → UInt8}

/-- `u` is `s` where inode `n` has a block at index `j`, perhaps a new one. -/
structure Ready (s u : State) (n j : Nat) : Prop where
  owned : Owned u
  noLeak : NoLeak u
  directory : u.directory = s.directory
  openFiles : u.openFiles = s.openFiles
  inodeBitmap : u.inodeBitmap = s.inodeBitmap
  ramdisk : u.ramdisk = s.ramdisk
  size : ∀ p, (u.inodes p).size = (s.inodes p).size
  present : (u.inodes n).blocks j ≠ 0
  blocks : ∀ p q, (s.inodes p).blocks q ≠ 0 ∨ ¬ (p = n ∧ q = j) → (u.inodes p).blocks q = (s.inodes p).blocks q

theorem ready_of_ensureBlock (howned : Owned s) (hleak : NoLeak s) {e : Nat} (he : Live s e)
    (hn : (s.directory e).inode = n) (hj : j < 8) (h : ensureBlock s n j = some u) : Ready s u n j := by
  rcases ensureBlock_some h with ⟨hne, rfl⟩ | ⟨hzero, i, hi, hclear, rfl⟩
  · exact ⟨howned, hleak, rfl, rfl, rfl, rfl, fun _ => rfl, hne, fun _ _ _ => rfl⟩
  · refine ⟨howned.grow hi hclear, hleak.grow he hn hj hzero, rfl, rfl, rfl, rfl, growInode_size s n j i, ?_,
      fun p q hpq => ?_⟩
    · rw [growInode_blocks, if_pos ⟨rfl, rfl⟩]
      omega
    · rw [growInode_blocks, if_neg]
      rintro ⟨rfl, rfl⟩
      exact hpq.elim (fun hne => hne hzero) (fun hne => hne ⟨rfl, rfl⟩)

/-- Another file than that of the descriptor keeps its inode. -/
theorem Ready.inode_other (h : Ready s u n j) {p : Nat} (hp : p ≠ n) : u.inodes p = s.inodes p := by
  have hsize := h.size p
  have hblocks : (u.inodes p).blocks = (s.inodes p).blocks :=
    funext (fun q => h.blocks p q (Or.inr (fun hpq => hp hpq.1)))
  cases hu : u.inodes p
  cases hs : s.inodes p
  rw [hu, hs] at hsize hblocks
  exact Inode.mk.injEq .. ▸ ⟨hsize, hblocks⟩

theorem putBytes_size (s : State) (fd : Nat) (buf : Nat → UInt8) (b w : Nat) :
    ((putBytes s fd buf b w).inodes (s.openFiles fd).inode).size =
      max (s.inodes (s.openFiles fd).inode).size ((s.openFiles fd).offset + w) := by
  simp only [putBytes, setInode, Function.update_self]
  split <;> omega

theorem putBytes_inode_other (s : State) (fd : Nat) (buf : Nat → UInt8) (b w : Nat) {p : Nat}
    (hp : p ≠ (s.openFiles fd).inode) : (putBytes s fd buf b w).inodes p = s.inodes p := by
  simp [putBytes, setInode, setDesc, hp]

/-- The file of the descriptor after a pass. -/
theorem Holds.put {xs : List UInt8} {o b w e : Nat} (h : Holds s n xs) (hu : Ready s u n (o / 4096))
    (he : Live u e) (hn : (u.directory e).inode = n) (hinode : (u.openFiles k).inode = n)
    (hoffset : (u.openFiles k).offset = o) (ho : o ≤ xs.length) (hidx : o / 4096 < 8) (hpos : 0 < w)
    (hw : w ≤ 4096 - o % 4096) : Holds (putBytes u k buf b w) n (splice xs o (window buf b w)) := by
  have hsmall := h.small
  have hlength : (splice xs o (window buf b w)).length = max xs.length (o + w) := by
    rw [length_splice ho, length_window]
  refine ⟨?_, ?_, fun q hq => ?_, fun p hp => ?_⟩
  · rw [hlength, ← h.size, ← hu.size n, ← hinode, ← hoffset]
    exact putBytes_size u k buf b w
  · omega
  · rw [putBytes_blocks, hlength]
    by_cases hqo : q = o / 4096
    · subst hqo
      exact iff_of_true hu.present (by omega)
    · rw [hu.blocks n q (Or.inr (fun hq => hqo hq.2)), h.blocks q hq]
      omega
  · rw [hlength] at hp
    rw [putBytes_blocks, getElem?_splice ho, length_window]
    by_cases hnew : o ≤ p ∧ p < o + w
    · have hdiv : p / 4096 = o / 4096 := by omega
      rw [if_pos hnew, getElem?_window, if_pos (by omega), putBytes_ramdisk, hinode, hoffset, hdiv, if_pos (by omega)]
      congr 2
      omega
    · have hold : p < xs.length := by omega
      have hblock : (s.inodes n).blocks (p / 4096) ≠ 0 := (h.blocks (p / 4096) (by omega)).mpr (by omega)
      rw [if_neg hnew, h.bytes p hold, hu.blocks n _ (Or.inl hblock), ← hu.ramdisk]
      refine congrArg some ?_
      by_cases hdiv : p / 4096 = o / 4096
      · have hsame : (u.inodes n).blocks (p / 4096) = (s.inodes n).blocks (p / 4096) := hu.blocks n _ (Or.inl hblock)
        rw [putBytes_ramdisk, hinode, hoffset, ← hdiv, hsame, if_neg (by omega)]
      · refine (putBytes_ramdisk_of_ne (by rw [hoffset]; exact hw) (Nat.mod_lt p (by decide)) (fun heq => hdiv ?_)).symm
        rw [hinode, hoffset, ← hu.blocks n _ (Or.inl hblock)] at heq
        refine (hu.owned.exclusive e e he he (p / 4096) (by omega) (o / 4096) hidx ?_ ?_).2
        · rw [fileBlock, hn, hu.blocks n _ (Or.inl hblock)]
          exact hblock
        · rw [fileBlock, fileBlock, hn]
          exact heq

/-- One copy is one store of the map. -/
theorem Represents.put (h : Represents s m) (hd : m.fds k = some d)
    (hu : Ready s u (s.openFiles k).inode (d.offset / 4096)) (hidx : d.offset / 4096 < 8) {b w : Nat} (hpos : 0 < w)
    (hw : w ≤ 4096 - d.offset % 4096) (hfit : d.offset + (window buf b w).length ≤ m.capacity d.name) :
    Represents (putBytes u k buf b w) (m.store k d (window buf b w) hd hfit) := by
  obtain ⟨hk, hvalid, hoffset, e, he, hinode, hholds⟩ := h.opened hd
  obtain ⟨_, _, hle⟩ := m.opened k d hd
  have hdesc : (u.openFiles k).inode = (s.openFiles k).inode := by rw [hu.openFiles]
  have hoffset' : (u.openFiles k).offset = d.offset := by rw [hu.openFiles, hoffset]
  have hlive : ∀ i, Live u i ↔ Live s i := fun i => by rw [Live, Live, hu.directory]
  have hnamed : ∀ i f, Named (putBytes u k buf b w) i f ↔ Named s i f := by
    intro i f
    rw [Named, Named, Live, Live, putBytes_directory, hu.directory]
  have hlisting : Listing (putBytes u k buf b w) m.names := h.listing.congr hu.directory
  refine ⟨hu.owned.put k buf b w, hu.noLeak.congr rfl rfl (putBytes_blocks u k buf b w), hlisting.listed,
    hlisting.unique, fun i f hi => ?_, fun n hpos hlt hset => ?_, fun j hj => ?_⟩
  · have hi := (hnamed i f).mp hi
    change Holds _ _ (Function.update m.content d.name _ f)
    rw [putBytes_directory, hu.directory]
    by_cases hf : f = d.name
    · subst hf
      obtain rfl := h.unique i e d.name hi he
      rw [Function.update_self, hinode]
      exact hholds.put hu ((hlive i).mpr hi.1) (by rw [hu.directory]; exact hinode) hdesc hoffset' hle hidx hpos hw
    · have hie : i ≠ e := by
        rintro rfl
        exact hf (hi.eq_entryName.symm.trans he.eq_entryName)
      have hother : (s.directory i).inode ≠ (s.openFiles k).inode := fun heq =>
        hie (h.owned.inodeOnce i e hi.1 he.1 (heq.trans hinode.symm))
      have hsame := hu.inode_other hother
      rw [Function.update_of_ne hf]
      refine (h.holds i f hi).congr ?_ (fun p hp => ?_)
      · rw [putBytes_inode_other u k buf b w (hdesc ▸ hother), hsame]
      · rw [← hu.ramdisk]
        have hsmall := (h.holds i f hi).small
        have hblock := ((h.holds i f hi).blocks (p / 4096) (by omega)).mpr (by omega)
        refine putBytes_ramdisk_of_ne (by rw [hoffset']; exact hw) (Nat.mod_lt p (by decide)) (fun heq => hie ?_)
        rw [hdesc, hoffset'] at heq
        refine (hu.owned.exclusive i e ((hlive i).mpr hi.1) ((hlive e).mpr he.1) (p / 4096) (by omega)
          (d.offset / 4096) hidx ?_ ?_).1
        · rw [fileBlock, hu.directory, hsame]
          exact hblock
        · rw [fileBlock, fileBlock, hu.directory, hsame, hinode]
          exact heq
  · have hset : ByteBitmap.test s.inodeBitmap n = true := hu.inodeBitmap ▸ hset
    obtain ⟨i, hi, heq⟩ := h.inodeBits n hpos hlt hset
    exact ⟨i, (hlive i).mpr hi, by rw [putBytes_directory, hu.directory]; exact heq⟩
  · change Matches _ _ (Function.update m.fds k _ j)
    by_cases hjk : j = k
    · subst hjk
      obtain ⟨hsame, hvalid'⟩ := putBytes_desc_inode u j buf b w j
      rw [Function.update_self, length_window]
      refine ⟨hvalid'.trans (by rw [hu.openFiles]; exact hvalid), ?_, e, (hnamed e d.name).mpr he, ?_⟩
      · rw [putBytes_offset, hoffset']
      · rw [putBytes_directory, hu.directory, hsame, hdesc]
        exact hinode
    · have hkeep : (putBytes u k buf b w).openFiles j = s.openFiles j :=
        (setDesc_of_ne _ _ hjk).trans (by rw [← hu.openFiles])
      rw [Function.update_of_ne hjk, hkeep]
      refine (h.descs j hj).congr (fun e' _ i hi => ⟨(hnamed i e'.name).mpr hi, ?_⟩)
      rw [putBytes_directory, hu.directory]

/-- A pass that finds its block stays inside what the file can grow to. -/
theorem Represents.fit (h : Represents s m) (hd : m.fds k = some d)
    (hens : ensureBlock s (s.openFiles k).inode (d.offset / 4096) = some u) (hidx : d.offset / 4096 < 8) {w : Nat}
    (hw : w ≤ 4096 - d.offset % 4096) : d.offset + w ≤ m.capacity d.name := by
  obtain ⟨_, _, _, e, he, _, hholds⟩ := h.opened hd
  obtain ⟨_, _, hle⟩ := m.opened k d hd
  have hblocks := hholds.blocks (d.offset / 4096) hidx
  have hroom : d.offset < 4096 * (pages (m.content d.name).length + m.free) → d.offset + w ≤ m.capacity d.name := by
    intro hlt
    simp only [FileMap.capacity]
    omega
  refine hroom ?_
  rcases ensureBlock_some hens with ⟨hne, _⟩ | ⟨_, i, hi, hclear, _⟩
  · have := lt_pages.mpr (hblocks.mp hne)
    omega
  · have hpos := ByteBitmap.clearCount_pos hi hclear
    have hacc : s.superblock.freeBlocks = ByteBitmap.clearCount s.blockBitmap 220 := h.owned.accounted
    rw [h.free_eq] at hacc
    simp only [pages]
    omega

/-- A pass that finds no block has filled the file. -/
theorem Represents.full (h : Represents s m) (hd : m.fds k = some d)
    (hstop : 8 ≤ d.offset / 4096 ∨ ensureBlock s (s.openFiles k).inode (d.offset / 4096) = none) :
    m.capacity d.name ≤ d.offset := by
  obtain ⟨_, _, _, e, he, _, hholds⟩ := h.opened hd
  obtain ⟨_, _, hle⟩ := m.opened k d hd
  by_cases hidx : 8 ≤ d.offset / 4096
  · simp only [FileMap.capacity]
    omega
  · obtain ⟨hzero, hall⟩ := ensureBlock_none (hstop.resolve_left hidx)
    have hblocks := hholds.blocks (d.offset / 4096) (by omega)
    have hempty : ¬ 4096 * (d.offset / 4096) < (m.content d.name).length := fun hlt => hblocks.mpr hlt hzero
    have hfree : m.free = 0 := by
      rw [← h.free_eq]
      refine Eq.trans h.owned.accounted (Nat.eq_zero_of_not_pos (fun hpos => ?_))
      obtain ⟨i, hi, hclear⟩ := ByteBitmap.exists_clear_of_pos hpos
      rw [hall i hi] at hclear
      cases hclear
    simp only [FileMap.capacity, hfree, pages]
    omega

theorem writePass_none {fd count : Nat} {x : Writing} (h : writePass fd buf count x = none) :
    8 ≤ (x.fs.openFiles fd).offset / 4096 ∨
    ensureBlock x.fs (x.fs.openFiles fd).inode ((x.fs.openFiles fd).offset / 4096) = none := by
  simp only [writePass] at h
  split at h
  · rename_i hidx
    exact Or.inl hidx
  · exact Or.inr (Option.map_eq_none_iff.mp h)

/-- The map after `n` bytes of a write. -/
def Stored (s : State) (m : FileMap) (k : Nat) (d : Opened) (buf : Nat → UInt8) (n : Nat) : Prop :=
  ∃ (hd : m.fds k = some d) (hfit : d.offset + (window buf 0 n).length ≤ m.capacity d.name),
    Represents s (m.store k d (window buf 0 n) hd hfit)

theorem stored_fds {n : Nat} (hd : m.fds k = some d) (hfit : d.offset + (window buf 0 n).length ≤ m.capacity d.name) :
    (m.store k d (window buf 0 n) hd hfit).fds k = some { d with offset := d.offset + n } := by
  change Function.update m.fds k (some { d with offset := d.offset + (window buf 0 n).length }) k = _
  rw [Function.update_self, length_window]

theorem Stored.opened {n : Nat} (h : Stored s m k d buf n) :
    ∃ m' : FileMap, Represents s m' ∧ m'.fds k = some { d with offset := d.offset + n } ∧
      m'.capacity d.name = m.capacity d.name := by
  obtain ⟨hd, hstart, hrep⟩ := h
  exact ⟨_, hrep, stored_fds hd hstart, m.capacity_store hd hstart⟩

/-- One pass of a write. -/
theorem Stored.pass {count b : Nat} {y : Writing} (h : Stored s m k d buf b) (hmore : b < count)
    (hpass : writePass k buf count ⟨s, b⟩ = some y) : Stored y.fs m k d buf y.bytesWritten := by
  obtain ⟨hd, hfit, hrep⟩ := h
  have hd' := stored_fds hd hfit
  have hcapacity := m.capacity_store hd hfit
  obtain ⟨_, _, hoffset, e, he, hinode, _⟩ := hrep.opened hd'
  obtain ⟨hidx, u, hens, rfl⟩ := writePass_some hpass
  have hoffset : (s.openFiles k).offset = d.offset + b := hoffset
  rw [hoffset] at hidx hens
  generalize hw : passSize ((s.openFiles k).offset % 4096) (count - b) = w
  have hroom : w ≤ 4096 - (d.offset + b) % 4096 := by
    rw [← hw, ← hoffset]
    exact (passSize_le _ _).2
  have hpos : 0 < w := hw ▸ passSize_pos (Nat.mod_lt _ (by decide)) (by omega)
  have hfit' : d.offset + b + (window buf b w).length ≤ (m.store k d (window buf 0 b) hd hfit).capacity d.name := by
    rw [length_window]
    exact hrep.fit hd' hens hidx hroom
  have hready := ready_of_ensureBlock hrep.owned hrep.noLeak he.1 hinode hidx hens
  have hput := hrep.put hd' hready hidx hpos hroom hfit'
  -- the two stores are one
  have happend : window buf 0 b ++ window buf b w = window buf 0 (b + w) := by
    have := window_append buf 0 b w
    rwa [Nat.zero_add] at this
  have hfit'' : d.offset + (window buf 0 b ++ window buf b w).length ≤ m.capacity d.name := by
    rw [hcapacity, length_window] at hfit'
    rw [happend, length_window, ← Nat.add_assoc]
    exact hfit'
  rw [m.store_store hd hfit (by rw [length_window]) hd' hfit' hfit''] at hput
  refine ⟨hd, by rw [← happend]; exact hfit'', ?_⟩
  change Represents _ (m.store k d (window buf 0 (b + w)) hd _)
  simp only [← happend]
  exact hput

/-- The write loop stores what fits. -/
theorem Represents.writeLoop (h : Represents s m) (hd : m.fds k = some d) (buf : Nat → UInt8) (count : Nat) {n : Nat}
    (hn : n = min count (m.capacity d.name - d.offset)) :
    (writeLoop k buf count ⟨s, 0⟩).bytesWritten = n ∧ Stored (writeLoop k buf count ⟨s, 0⟩).fs m k d buf n := by
  have hstart : d.offset + (window buf 0 0).length ≤ m.capacity d.name := by
    obtain ⟨_, hname, hle⟩ := m.opened k d hd
    exact hle.trans (m.length_le_capacity hname)
  have hinv : (Fs.writeLoop k buf count ⟨s, 0⟩).bytesWritten ≤ count ∧
      Stored (Fs.writeLoop k buf count ⟨s, 0⟩).fs m k d buf (Fs.writeLoop k buf count ⟨s, 0⟩).bytesWritten := by
    refine loopWhile_invariant
      (fun x : Writing => x.bytesWritten ≤ count ∧ Stored x.fs m k d buf x.bytesWritten)
      (fun x y hx hmore hpass => ?_) ⟨Nat.zero_le _, hd, hstart, ?_⟩
    · have hmore : x.bytesWritten < count := of_decide_eq_true hmore
      exact ⟨(writePass_moves hmore hpass).2, hx.2.pass hmore hpass⟩
    · exact (m.store_nil hd hstart).symm ▸ h
  have hends := (writeLoop_ends k count buf ⟨s, 0⟩).1
  generalize Fs.writeLoop k buf count ⟨s, 0⟩ = x at hinv hends
  obtain ⟨hle, hstored⟩ := hinv
  have hroom : d.offset + x.bytesWritten ≤ m.capacity d.name := by
    obtain ⟨_, hfit, _⟩ := hstored
    rwa [length_window] at hfit
  have hall : x.bytesWritten = n := by
    rcases hends with hdone | hnone
    · omega
    · obtain ⟨m', hrep, hd', hcapacity⟩ := hstored.opened
      obtain ⟨_, _, hoffset, _⟩ := hrep.opened hd'
      have hstop := writePass_none hnone
      rw [hoffset] at hstop
      have hfull := hrep.full hd' hstop
      rw [hcapacity] at hfull
      dsimp only at hfull
      omega
  exact ⟨hall, hall ▸ hstored⟩

theorem Represents.write (h : Represents s m) (fd : Int) (buffer : Option (Nat → UInt8)) (count : UInt32) :
    Agree (fsWrite s fd buffer count) (m.write fd buffer count.toNat) := by
  rcases h.badFd fd with ⟨hbad, hnone⟩ | ⟨k, d, _, rfl, hbad, hdesc, hd⟩
  · simp only [m.write_none hnone, fsWrite, if_pos hbad]
    exact ⟨rfl, h⟩
  · cases buffer with
    | none =>
        simp only [m.write_null hdesc, fsWrite, hbad, Bool.false_eq_true, if_false]
        exact ⟨rfl, h⟩
    | some buf =>
        obtain ⟨_, hname, hle⟩ := m.opened k d hd
        have hcapacity := m.length_le_capacity hname
        generalize hn : min count.toNat (m.capacity d.name - d.offset) = n
        have hfit : d.offset + (window buf 0 n).length ≤ m.capacity d.name := by
          rw [length_window]
          omega
        simp only [m.write_some hdesc buf hn.symm hfit, fsWrite, hbad, Bool.false_eq_true, if_false,
          Int.toNat_natCast]
        split
        · rename_i hcount
          have hzero : n = 0 := by
            rw [← hn, hcount, UInt32.toNat_zero, Nat.zero_min]
          subst hzero
          exact ⟨rfl, (m.store_nil hd hfit).symm ▸ h⟩
        · obtain ⟨hret, hd', hfit', hrep⟩ := h.writeLoop hd buf count.toNat hn.symm
          exact ⟨congrArg Nat.cast hret, hrep⟩

end Writing

end SengKernel.Fs
