import SengKernel.PmmSafety

/- The free frames against the byte ranges of the memory map: the usable entries, in
   any order, and the entries that report something else. -/
namespace SengKernel.Pmm
open BoundedLoop MachineWord

/-- The byte `x` lies in `[base, base + length)`. -/
def Reports (e : E820Entry) (x : Nat) : Prop := e.base.toNat ≤ x ∧ x < e.base.toNat + e.length.toNat

/-- One usable entry reports every byte of frame `f`. -/
def Usable (e : E820Entry) (f : Nat) : Prop :=
  e.type = 1 ∧ e.base.toNat ≤ 4096 * f ∧ 4096 * (f + 1) ≤ e.base.toNat + e.length.toNat

instance (e : E820Entry) (f : Nat) : Decidable (Usable e f) := by
  unfold Usable
  infer_instance

/-- The range of the entry meets frame `f`. -/
def Meets (e : E820Entry) (f : Nat) : Prop := ∃ x, Reports e x ∧ 4096 * f ≤ x ∧ x < 4096 * (f + 1)

/-- The frames above the first megabyte and below 128 MiB that one usable entry covers. -/
def usableFrames (e820 : List E820Entry) : Finset Nat :=
  (Finset.range 32768).filter (fun f => 256 ≤ f ∧ ∃ e ∈ e820, Usable e f)

/-- No entry reaches beyond the 64-bit addresses. -/
def InRange (e820 : List E820Entry) : Prop := ∀ e ∈ e820, e.base.toNat + e.length.toNat < 2 ^ 64

instance (e820 : List E820Entry) (f : Nat) : Decidable (Allocatable e820 f) := by
  unfold Allocatable
  infer_instance

section Ranges

variable {e820 : List E820Entry} {e : E820Entry} {f : Nat}

theorem covers_iff_usable (h : e.base.toNat + e.length.toNat < 2 ^ 64) : Covers e f ↔ Usable e f := by
  have hsum : (e.base + e.length).toNat = e.base.toNat + e.length.toNat := by
    rw [UInt64.toNat_add]
    exact Nat.mod_eq_of_lt h
  rw [Covers, Usable, hsum]

/-- A sum that wraps only makes the entry shorter. -/
theorem Covers.usable (h : Covers e f) : Usable e f := by
  obtain ⟨htype, hbase, hend⟩ := h
  have hsum : (e.base + e.length).toNat ≤ e.base.toNat + e.length.toNat := by
    rw [UInt64.toNat_add]
    exact Nat.mod_le _ _
  exact ⟨htype, hbase, hend.trans hsum⟩

theorem Usable.reports (h : Usable e f) {x : Nat} (hlow : 4096 * f ≤ x) (hhigh : x < 4096 * (f + 1)) : Reports e x :=
  ⟨h.2.1.trans hlow, hhigh.trans_le h.2.2⟩

theorem mem_usableFrames : f ∈ usableFrames e820 ↔ 256 ≤ f ∧ f < 32768 ∧ ∃ e ∈ e820, Usable e f := by
  rw [usableFrames, Finset.mem_filter, Finset.mem_range]
  exact and_left_comm

end Ranges

section Bits

variable {p : State}

theorem freeUsableFrame_high {i f : Nat} (hne : f ≠ i) : bitmapTest (freeUsableFrame i p) f = bitmapTest p f := by
  unfold freeUsableFrame
  split
  · change bitmapTest (bitmapClear p i) f = _
    rw [bitmapTest_clear, decide_eq_true hne, Bool.true_and]
  · rfl

theorem reserveLowFrame_high {i f : Nat} (hne : f ≠ i) : bitmapTest (reserveLowFrame i p) f = bitmapTest p f := by
  have hset : bitmapTest (bitmapSet p i) f = bitmapTest p f := by
    rw [bitmapTest_set, decide_eq_false hne, Bool.false_or]
  unfold reserveLowFrame
  split
  · rfl
  · split
    · exact hset
    · exact hset

/-- No pass of the E820 loop touches a bit beyond the bitmap. -/
theorem freeUsableRegion_high (e : E820Entry) {f : Nat} (hf : 32768 ≤ f) :
    bitmapTest (freeUsableRegion p e) f = bitmapTest p f := by
  have hlast : lastFrame e ≤ 32768 := by
    simp only [lastFrame, pmmMaxFrames]
    split <;> omega
  unfold freeUsableRegion
  split
  · rfl
  · split
    · rfl
    · refine forRange_invariant (fun _ q => bitmapTest q f = bitmapTest p f) rfl (fun i q hi hlt hq => ?_)
      rw [freeUsableFrame_high (by omega), hq]

/-- Every bit after `pmm_init`. -/
theorem pmmInit_test (e820 : List E820Entry) (p : State) (f : Nat) :
    bitmapTest (pmmInit e820 p) f = if f < 32768 then decide (¬ Allocatable e820 f) else bitmapTest p f := by
  split
  · rename_i hf
    have hfree := (pmmInit_spec e820 p).2.2 f
    rw [mem_freeFrames] at hfree
    by_cases hallocatable : Allocatable e820 f
    · rw [(hfree.mpr hallocatable).2, decide_eq_false (not_not.mpr hallocatable)]
    · rw [decide_eq_true hallocatable, ← Bool.not_eq_false]
      exact fun hclear => hallocatable (hfree.mp ⟨hf, hclear⟩)
  · rename_i hf
    have hregions : ∀ q : State, bitmapTest (e820.foldl freeUsableRegion q) f = bitmapTest q f := by
      induction e820 with
      | nil => exact fun _ => rfl
      | cons e e820 ih =>
          intro q
          rw [List.foldl_cons, ih, freeUsableRegion_high e (by omega)]
    have hlow : ∀ q : State, bitmapTest (forRange reserveLowFrame 0 256 q) f = bitmapTest q f := by
      intro q
      refine forRange_invariant (fun _ r => bitmapTest r f = bitmapTest q f) rfl (fun i r _ hlt hr => ?_)
      rw [reserveLowFrame_high (by omega), hr]
    have hinit : bitmapTest (pmmInit e820 p) f = bitmapTest (forRange reserveLowFrame 0 256
        (e820.foldl freeUsableRegion ⟨fun i => if i < 4096 then 0xFF else p.bitmap i, 0, 0⟩)) f := by
      simp only [bitmapTest, pmmInit, pmmFrameSize, pmmBitmapSize, pmmMaxFrames]
    have hbyte : ¬ f / 8 < 4096 := by omega
    rw [hinit, hlow, hregions]
    simp only [bitmapTest, ByteBitmap.test_eq_byteBit, if_neg hbyte]

/-- The state after `pmm_init` is that of any other order of the entries. -/
theorem pmmInit_perm {e820 e820' : List E820Entry} (h : e820.Perm e820') (p : State) :
    pmmInit e820 p = pmmInit e820' p := by
  have hsame : ∀ f, Allocatable e820 f ↔ Allocatable e820' f := fun f =>
    and_congr_right (fun _ => and_congr_right (fun _ => exists_congr (fun e => and_congr_left (fun _ => h.mem_iff))))
  have hbitmap : (pmmInit e820 p).bitmap = (pmmInit e820' p).bitmap := by
    refine ByteBitmap.eq_of_test (fun f => ?_)
    change bitmapTest (pmmInit e820 p) f = bitmapTest (pmmInit e820' p) f
    simp only [pmmInit_test, hsame]
  obtain ⟨hcount, hused, _⟩ := pmmInit_spec e820 p
  obtain ⟨hcount', hused', _⟩ := pmmInit_spec e820' p
  have htotal : (pmmInit e820 p).totalFramesCount = (pmmInit e820' p).totalFramesCount := by
    rw [hcount, hcount', freeFrames, freeFrames, hbitmap]
  generalize pmmInit e820 p = q at hbitmap htotal hused
  generalize pmmInit e820' p = q' at hbitmap htotal hused'
  exact State.mk.injEq .. ▸ ⟨hbitmap, htotal, hused.trans hused'.symm⟩

end Bits

/-- What `pmm_init` has computed. -/
structure Initialised (e820 : List E820Entry) (p : State) : Prop where
  free : ∀ f, f ∈ freeFrames (pmmInit e820 p) ↔ 256 ≤ f ∧ f < 32768 ∧ ∃ e ∈ e820, Usable e f
  total : (pmmInit e820 p).totalFramesCount = (usableFrames e820).card
  used : (pmmInit e820 p).usedFramesCount = 0
  order : ∀ e820', e820.Perm e820' → pmmInit e820' p = pmmInit e820 p

theorem pmmInit_usable (e820 : List E820Entry) (h : InRange e820) (p : State) : Initialised e820 p := by
  obtain ⟨hcount, hused, hfree⟩ := pmmInit_spec e820 p
  have husable : ∀ f, f ∈ freeFrames (pmmInit e820 p) ↔ 256 ≤ f ∧ f < 32768 ∧ ∃ e ∈ e820, Usable e f := by
    intro f
    rw [hfree]
    exact and_congr_right (fun _ => and_congr_right (fun _ =>
      exists_congr (fun e => and_congr_right (fun he => covers_iff_usable (h e he)))))
  refine ⟨husable, ?_, hused, fun e820' hperm => (pmmInit_perm hperm p).symm⟩
  have hframes : freeFrames (pmmInit e820 p) = usableFrames e820 := by
    ext f
    rw [husable, mem_usableFrames]
  rw [← hframes]
  exact hcount

/-- Two usable entries that overlap, the higher one first. -/
def overlappingMap : List E820Entry := [⟨0x180000, 0x100000, 1⟩, ⟨0x9FC00, 0x400, 2⟩, ⟨0x100000, 0x100001, 1⟩]

theorem pmmInit_usable_sample : Initialised overlappingMap blank :=
  pmmInit_usable overlappingMap (by unfold InRange; decide) blank

/-- A free frame lies inside one usable entry, whatever else is reported of it; where no
other entry overlaps a usable one, it meets none. -/
theorem free_frame_reported_usable (e820 : List E820Entry) (p : State) {f : Nat} (hf : f ∈ freeFrames (pmmInit e820 p)) :
    (∃ u ∈ e820, Usable u f) ∧
    ((∀ u ∈ e820, ∀ e ∈ e820, u.type = 1 → e.type ≠ 1 → ∀ x, ¬ (Reports u x ∧ Reports e x)) →
      ∀ e ∈ e820, e.type ≠ 1 → ¬ Meets e f) := by
  obtain ⟨_, _, u, hu, hcovers⟩ := ((pmmInit_spec e820 p).2.2 f).mp hf
  refine ⟨⟨u, hu, hcovers.usable⟩, fun hapart e he htype => ?_⟩
  rintro ⟨x, hx, hlow, hhigh⟩
  exact hapart u hu e he hcovers.1 htype x ⟨hcovers.usable.reports hlow hhigh, hx⟩

theorem free_frame_reported_usable_sample :
    (∃ u ∈ overlappingMap, Usable u 256) ∧
    ((∀ u ∈ overlappingMap, ∀ e ∈ overlappingMap, u.type = 1 → e.type ≠ 1 → ∀ x, ¬ (Reports u x ∧ Reports e x)) →
      ∀ e ∈ overlappingMap, e.type ≠ 1 → ¬ Meets e 256) :=
  free_frame_reported_usable overlappingMap blank
    (((pmmInit_spec overlappingMap blank).2.2 256).mpr
      ⟨by decide, by decide, ⟨0x100000, 0x100001, 1⟩, by decide, by decide⟩)

/-- A reserved page inside a usable entry. -/
def reservedInside : List E820Entry := [⟨0x100000, 0x100000, 1⟩, ⟨0x100000, 0x1000, 2⟩]

/-- The reserved page is free after `pmm_init`. -/
theorem reserved_frame_free :
    ∃ f ∈ freeFrames (pmmInit reservedInside blank), ∃ e ∈ reservedInside, e.type ≠ 1 ∧ Meets e f := by
  refine ⟨256, ((pmmInit_spec reservedInside blank).2.2 256).mpr ?_, ⟨0x100000, 0x1000, 2⟩, by decide, by decide, ?_⟩
  · exact ⟨by decide, by decide, ⟨0x100000, 0x100000, 1⟩, by decide, by decide⟩
  · exact ⟨0x100000, ⟨by decide, by decide⟩, by decide, by decide⟩

end SengKernel.Pmm
