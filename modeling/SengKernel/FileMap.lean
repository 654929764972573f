import SengKernel.SpliceBasics
import SengKernel.FsCalls

/- What the file system is for: a map from names to byte strings, with descriptors
   that hold a file and an offset. The limits of the disk are fields of the map. -/
namespace SengKernel.Fs
open BoundedLoop Str Splice

/-- The blocks that a content of this length fills. -/
def pages (len : Nat) : Nat := (len + 4095) / 4096

structure Opened where
  name : CString
  offset : Nat
  deriving DecidableEq, Repr

/-- `content` counts at the names only. -/
@[ext] structure FileMap where
  names : Finset CString
  content : CString → List UInt8
  fds : Nat → Option Opened
  named : ∀ f ∈ names, 1 ≤ f.chars.length ∧ f.chars.length ≤ 27
  few : names.card ≤ 128
  small : ∀ f ∈ names, (content f).length ≤ 32768
  fits : ∑ f ∈ names, pages (content f).length ≤ 220
  opened : ∀ k d, fds k = some d → k < 16 ∧ d.name ∈ names ∧ d.offset ≤ (content d.name).length

namespace FileMap

variable (m : FileMap)

def empty : FileMap where
  names := ∅
  content _ := []
  fds _ := none
  named := by simp
  few := by simp
  small := by simp
  fits := by simp
  opened := by simp

/-- The number of free blocks. -/
def free : Nat := 220 - ∑ f ∈ m.names, pages (m.content f).length

/-- The length that the content of a file can reach. -/
def capacity (f : CString) : Nat := min 32768 (4096 * (pages (m.content f).length + m.free))

theorem length_le_capacity {f : CString} (hf : f ∈ m.names) : (m.content f).length ≤ m.capacity f := by
  have := m.small f hf
  simp only [capacity, pages]
  omega

def addFile (f : CString) (hname : 1 ≤ f.chars.length ∧ f.chars.length ≤ 27) (habsent : f ∉ m.names)
    (hfew : m.names.card < 128) : FileMap where
  names := insert f m.names
  content := Function.update m.content f []
  fds := m.fds
  named g hg := by
    rcases Finset.mem_insert.mp hg with rfl | hg
    · exact hname
    · exact m.named g hg
  few := by
    rw [Finset.card_insert_of_notMem habsent]
    exact hfew
  small g hg := by
    by_cases hgf : g = f
    · simp [hgf]
    · rw [Function.update_of_ne hgf]
      exact m.small g ((Finset.mem_insert.mp hg).resolve_left hgf)
  fits := by
    have hsame : ∑ g ∈ m.names, pages (Function.update m.content f [] g).length = ∑ g ∈ m.names, pages (m.content g).length :=
      Finset.sum_congr rfl (fun g hg => by rw [Function.update_of_ne (ne_of_mem_of_not_mem hg habsent)])
    rw [Finset.sum_insert habsent, Function.update_self, hsame]
    have := m.fits
    simpa [pages] using this
  opened k d hd := by
    obtain ⟨hk, hname, hoffset⟩ := m.opened k d hd
    refine ⟨hk, Finset.mem_insert_of_mem hname, ?_⟩
    rw [Function.update_of_ne (ne_of_mem_of_not_mem hname habsent)]
    exact hoffset

def setFd (k : Nat) (d : Option Opened)
    (hd : ∀ e, d = some e → k < 16 ∧ e.name ∈ m.names ∧ e.offset ≤ (m.content e.name).length) : FileMap where
  names := m.names
  content := m.content
  fds := Function.update m.fds k d
  named := m.named
  few := m.few
  small := m.small
  fits := m.fits
  opened j e he := by
    by_cases hjk : j = k
    · subst hjk
      rw [Function.update_self] at he
      exact hd e he
    · rw [Function.update_of_ne hjk] at he
      exact m.opened j e he

/-- A sum of which one term grows within what is left. -/
theorem sum_grow {S : Finset CString} {f : CString} (hf : f ∈ S) {g g' : CString → Nat} {n : Nat}
    (hsame : ∀ h, h ≠ f → g' h = g h) (hle : ∑ h ∈ S, g h ≤ n) (hgrow : g' f ≤ g f + (n - ∑ h ∈ S, g h)) :
    ∑ h ∈ S, g' h ≤ n := by
  have hrest : ∑ h ∈ S.erase f, g' h = ∑ h ∈ S.erase f, g h :=
    Finset.sum_congr rfl (fun h hh => hsame h (Finset.ne_of_mem_erase hh))
  have hg := Finset.add_sum_erase S g hf
  have hg' := Finset.add_sum_erase S g' hf
  omega

/-- Bytes written through a descriptor, which moves past them. -/
def store (k : Nat) (d : Opened) (ys : List UInt8) (hk : m.fds k = some d)
    (hfit : d.offset + ys.length ≤ m.capacity d.name) : FileMap where
  names := m.names
  content := Function.update m.content d.name (splice (m.content d.name) d.offset ys)
  fds := Function.update m.fds k (some { d with offset := d.offset + ys.length })
  named := m.named
  few := m.few
  small g hg := by
    by_cases hgf : g = d.name
    · subst hgf
      have hold := m.small _ hg
      rw [Function.update_self, length_splice (m.opened k d hk).2.2]
      simp only [capacity] at hfit
      omega
    · rw [Function.update_of_ne hgf]
      exact m.small g hg
  fits := by
    obtain ⟨_, hname, hoffset⟩ := m.opened k d hk
    refine sum_grow hname (fun g hg => by rw [Function.update_of_ne hg]) m.fits ?_
    rw [Function.update_self, length_splice hoffset]
    simp only [capacity, free, pages] at hfit ⊢
    omega
  opened j e he := by
    have hgrown : ∀ g, (m.content g).length ≤
        (Function.update m.content d.name (splice (m.content d.name) d.offset ys) g).length := by
      intro g
      by_cases hgf : g = d.name
      · subst hgf
        rw [Function.update_self, length_splice (m.opened k d hk).2.2]
        exact Nat.le_max_left ..
      · rw [Function.update_of_ne hgf]
    by_cases hjk : j = k
    · subst hjk
      rw [Function.update_self, Option.some.injEq] at he
      subst he
      obtain ⟨hlt, hname, hoffset⟩ := m.opened j d hk
      refine ⟨hlt, hname, ?_⟩
      rw [Function.update_self, length_splice hoffset]
      exact Nat.le_max_right ..
    · rw [Function.update_of_ne hjk] at he
      obtain ⟨hlt, hname, hoffset⟩ := m.opened j e he
      exact ⟨hlt, hname, hoffset.trans (hgrown e.name)⟩

def remove (f : CString) (hclosed : ∀ k d, m.fds k = some d → d.name ≠ f) : FileMap where
  names := m.names.erase f
  content := m.content
  fds := m.fds
  named g hg := m.named g (Finset.mem_of_mem_erase hg)
  few := (Finset.card_le_card (Finset.erase_subset f m.names)).trans m.few
  small g hg := m.small g (Finset.mem_of_mem_erase hg)
  fits := (Finset.sum_le_sum_of_subset (Finset.erase_subset f m.names)).trans m.fits
  opened k d hd := by
    obtain ⟨hk, hname, hoffset⟩ := m.opened k d hd
    exact ⟨hk, Finset.mem_erase.mpr ⟨hclosed k d hd, hname⟩, hoffset⟩

/-- The first free descriptor. -/
def lowestFree : Option Nat := scan (fun k => (m.fds k).isNone) 0 16

theorem lowestFree_lt {k : Nat} (h : m.lowestFree = some k) : k < 16 := by
  have := (scan_some h).2.1
  omega

def desc : Int → Option Opened
  | .ofNat k => m.fds k
  | .negSucc _ => none

theorem desc_toNat {fd : Int} {d : Opened} (h : m.desc fd = some d) : m.fds fd.toNat = some d := by
  cases fd with
  | ofNat k => exact h
  | negSucc k => cases h

def create (filename : Option CString) : Int × FileMap :=
  match filename with
  | none => (-1, m)
  | some f =>
      if h : (1 ≤ f.chars.length ∧ f.chars.length ≤ 27) ∧ f ∉ m.names ∧ m.names.card < 128 then
        (0, m.addFile f h.1 h.2.1 h.2.2)
      else (-1, m)

/-- A descriptor on a file that is there. -/
def openFile (f : CString) : Int × FileMap :=
  if hf : f ∈ m.names then
    match hk : m.lowestFree with
    | none => (-1, m)
    | some k =>
        (k, m.setFd k (some ⟨f, 0⟩) (fun e he => by
          cases he
          exact ⟨m.lowestFree_lt hk, hf, Nat.zero_le _⟩))
  else (-1, m)

theorem openFile_none {f : CString} (hnone : m.lowestFree = none) : m.openFile f = (-1, m) := by
  unfold openFile
  split
  · split
    · rfl
    · rename_i hsome
      cases hnone.symm.trans hsome
  · rfl

theorem openFile_some {f : CString} {k : Nat} (hf : f ∈ m.names) (hsome : m.lowestFree = some k)
    (h : ∀ e, some (Opened.mk f 0) = some e → k < 16 ∧ e.name ∈ m.names ∧ e.offset ≤ (m.content e.name).length) :
    m.openFile f = ((k : Int), m.setFd k (some ⟨f, 0⟩) h) := by
  unfold openFile
  rw [dif_pos hf]
  split
  · rename_i hnone
    cases hnone.symm.trans hsome
  · rename_i k' hk'
    obtain rfl : k' = k := Option.some.inj (hk'.symm.trans hsome)
    rfl

def openOrCreate (filename : Option CString) (create : Int) : Int × FileMap :=
  match filename with
  | none => (-1, m)
  | some f => (if f ∉ m.names ∧ create ≠ 0 then (m.create (some f)).2 else m).openFile f

def close (fd : Int) : Int × FileMap :=
  if (m.desc fd).isSome then (0, m.setFd fd.toNat none nofun) else (-1, m)

/-- The bytes from the offset on, at most `count` of them. -/
def read (fd : Int) (buffer : Option (Nat → UInt8)) (count : Nat) : Reply × FileMap :=
  match hd : m.desc fd with
  | none => (⟨-1, buffer⟩, m)
  | some d =>
      match buffer with
      | none => (⟨0, none⟩, m)
      | some buf =>
          let ys := ((m.content d.name).drop d.offset).take count
          (⟨ys.length, some (overlay ys buf)⟩,
            m.setFd fd.toNat (some { d with offset := d.offset + ys.length }) (fun e he => by
              cases he
              obtain ⟨hk, hname, hoffset⟩ := m.opened _ d (m.desc_toNat hd)
              refine ⟨hk, hname, ?_⟩
              simp only [ys, List.length_take, List.length_drop]
              omega))

/-- As many bytes as fit. -/
def write (fd : Int) (buffer : Option (Nat → UInt8)) (count : Nat) : Int × FileMap :=
  match hd : m.desc fd with
  | none => (-1, m)
  | some d =>
      match buffer with
      | none => (0, m)
      | some buf =>
          let n := min count (m.capacity d.name - d.offset)
          (n, m.store fd.toNat d (window buf 0 n) (m.desc_toNat hd) (by
            obtain ⟨_, hname, hoffset⟩ := m.opened _ d (m.desc_toNat hd)
            have := m.length_le_capacity hname
            simp only [n, length_window]
            omega))

theorem read_none {fd : Int} (hd : m.desc fd = none) (buffer : Option (Nat → UInt8)) (count : Nat) :
    m.read fd buffer count = (⟨-1, buffer⟩, m) := by
  unfold read
  split
  · rfl
  · rename_i hsome
    cases hd.symm.trans hsome

theorem read_null {fd : Int} {d : Opened} (hd : m.desc fd = some d) (count : Nat) :
    m.read fd none count = (⟨0, none⟩, m) := by
  unfold read
  split
  · rename_i hnone
    cases hd.symm.trans hnone
  · rfl

theorem read_some {fd : Int} {d : Opened} (hd : m.desc fd = some d) (buf : Nat → UInt8) (count : Nat) {ys : List UInt8}
    (hys : ys = ((m.content d.name).drop d.offset).take count)
    (h : ∀ e, some { d with offset := d.offset + ys.length } = some e →
      fd.toNat < 16 ∧ e.name ∈ m.names ∧ e.offset ≤ (m.content e.name).length) :
    m.read fd (some buf) count =
      (⟨ys.length, some (overlay ys buf)⟩, m.setFd fd.toNat (some { d with offset := d.offset + ys.length }) h) := by
  subst hys
  unfold read
  split
  · rename_i hnone
    cases hd.symm.trans hnone
  · rename_i d' hsome
    obtain rfl : d' = d := Option.some.inj (hsome.symm.trans hd)
    rfl

theorem write_none {fd : Int} (hd : m.desc fd = none) (buffer : Option (Nat → UInt8)) (count : Nat) :
    m.write fd buffer count = (-1, m) := by
  unfold write
  split
  · rfl
  · rename_i hsome
    cases hd.symm.trans hsome

theorem write_null {fd : Int} {d : Opened} (hd : m.desc fd = some d) (count : Nat) : m.write fd none count = (0, m) := by
  unfold write
  split
  · rename_i hnone
    cases hd.symm.trans hnone
  · rfl

theorem write_some {fd : Int} {d : Opened} (hd : m.desc fd = some d) (buf : Nat → UInt8) {count n : Nat}
    (hn : n = min count (m.capacity d.name - d.offset))
    (hfit : d.offset + (window buf 0 n).length ≤ m.capacity d.name) :
    m.write fd (some buf) count = ((n : Int), m.store fd.toNat d (window buf 0 n) (m.desc_toNat hd) hfit) := by
  subst hn
  unfold write
  split
  · rename_i hnone
    cases hd.symm.trans hnone
  · rename_i d' hsome
    obtain rfl : d' = d := Option.some.inj (hsome.symm.trans hd)
    rfl

theorem setFd_self {k : Nat} {o : Option Opened} (ho : m.fds k = o)
    (h : ∀ e, o = some e → k < 16 ∧ e.name ∈ m.names ∧ e.offset ≤ (m.content e.name).length) : m.setFd k o h = m := by
  subst ho
  exact FileMap.ext rfl rfl (Function.update_eq_self ..)

theorem store_nil {k : Nat} {d : Opened} (hk : m.fds k = some d)
    (hfit : d.offset + ([] : List UInt8).length ≤ m.capacity d.name) : m.store k d [] hk hfit = m := by
  refine FileMap.ext rfl ?_ ?_
  · change Function.update m.content d.name (splice (m.content d.name) d.offset []) = m.content
    rw [splice_nil, Function.update_eq_self]
  · change Function.update m.fds k (some { d with offset := d.offset + 0 }) = m.fds
    exact (congrArg _ hk.symm).trans (Function.update_eq_self ..)

/-- Two writes in a row are one. -/
theorem store_store {k : Nat} {d d' : Opened} {ys zs : List UInt8} (hk : m.fds k = some d)
    (hfit : d.offset + ys.length ≤ m.capacity d.name) (hd : d' = { d with offset := d.offset + ys.length })
    (hk' : (m.store k d ys hk hfit).fds k = some d')
    (hfit' : d'.offset + zs.length ≤ (m.store k d ys hk hfit).capacity d'.name)
    (hfit'' : d.offset + (ys ++ zs).length ≤ m.capacity d.name) :
    (m.store k d ys hk hfit).store k d' zs hk' hfit' = m.store k d (ys ++ zs) hk hfit'' := by
  subst hd
  refine FileMap.ext rfl ?_ ?_
  · change Function.update (Function.update m.content d.name (splice (m.content d.name) d.offset ys)) d.name
      (splice (Function.update m.content d.name (splice (m.content d.name) d.offset ys) d.name)
        (d.offset + ys.length) zs) = Function.update m.content d.name (splice (m.content d.name) d.offset (ys ++ zs))
    rw [Function.update_idem, Function.update_self, splice_splice (m.opened k d hk).2.2]
  · change Function.update (Function.update m.fds k _) k (some { d with offset := d.offset + ys.length + zs.length }) =
      Function.update m.fds k (some { d with offset := d.offset + (ys ++ zs).length })
    rw [Function.update_idem, List.length_append, Nat.add_assoc]

/-- A write leaves what the file can grow to. -/
theorem capacity_store {k : Nat} {d : Opened} {ys : List UInt8} (hk : m.fds k = some d)
    (hfit : d.offset + ys.length ≤ m.capacity d.name) :
    (m.store k d ys hk hfit).capacity d.name = m.capacity d.name := by
  obtain ⟨_, hname, hoffset⟩ := m.opened k d hk
  have hfits := m.fits
  have hfits' := (m.store k d ys hk hfit).fits
  have hlength : ((m.store k d ys hk hfit).content d.name).length =
      max (m.content d.name).length (d.offset + ys.length) := by
    change (Function.update m.content d.name (splice (m.content d.name) d.offset ys) d.name).length = _
    rw [Function.update_self, length_splice hoffset]
  have hrest : ∑ g ∈ m.names.erase d.name, pages ((m.store k d ys hk hfit).content g).length =
      ∑ g ∈ m.names.erase d.name, pages (m.content g).length :=
    Finset.sum_congr rfl (fun g hg => by
      change pages (Function.update m.content d.name _ g).length = _
      rw [Function.update_of_ne (Finset.ne_of_mem_erase hg)])
  have hsum := Finset.add_sum_erase m.names (fun g => pages (m.content g).length) hname
  have hsum' := Finset.add_sum_erase m.names (fun g => pages ((m.store k d ys hk hfit).content g).length) hname
  have hnames : (m.store k d ys hk hfit).names = m.names := rfl
  rw [hnames] at hfits'
  have hgrow : pages (m.content d.name).length ≤ pages ((m.store k d ys hk hfit).content d.name).length := by
    rw [hlength]
    simp only [pages]
    omega
  simp only [capacity, free, hnames]
  congr 2
  omega

/-- `none` where a descriptor is open on the file. -/
def unlink (filename : Option CString) : Option (Int × FileMap) :=
  match filename with
  | none => some (-1, m)
  | some f =>
      if f ∉ m.names then some (-1, m)
      else if h : ∀ k < 16, (m.fds k).map Opened.name ≠ some f then
        some (0, m.remove f (fun k d hd hname => h k (m.opened k d hd).1 (by rw [hd, ← hname]; rfl)))
      else none

end FileMap

def FileMap.plainReply (r : Int × FileMap) : Reply × FileMap := (⟨r.1, none⟩, r.2)

/-- A call on the map of files. -/
def fileCall (m : FileMap) : Call → Option (Reply × FileMap)
  | .createFile filename => some (FileMap.plainReply (m.create filename))
  | .openFile filename create => some (FileMap.plainReply (m.openOrCreate filename create))
  | .close fd => some (FileMap.plainReply (m.close fd))
  | .read fd buffer count => some (m.read fd buffer count.toNat)
  | .write fd buffer count => some (FileMap.plainReply (m.write fd buffer count.toNat))
  | .unlink filename => (m.unlink filename).map FileMap.plainReply

def FileStep (m : FileMap) (l : Call × Reply) (m' : FileMap) : Prop := fileCall m l.1 = some (l.2, m')

end SengKernel.Fs
