import SengKernel.PmmFrames

/- What `pmm_init` leaves free, for every memory map. -/
namespace SengKernel.Pmm
open BoundedLoop MachineWord

/-- The entry is usable RAM and covers the whole of frame `f`. -/
def Covers (e : E820Entry) (f : Nat) : Prop :=
  e.type = 1 ∧ e.base.toNat ≤ 4096 * f ∧ 4096 * (f + 1) ≤ (e.base + e.length).toNat

instance (e : E820Entry) (f : Nat) : Decidable (Covers e f) := by
  unfold Covers
  infer_instance

/-- The frames that a memory map makes allocatable: above the first megabyte,
below 128 MiB, and covered by one usable entry. -/
def Allocatable (e820 : List E820Entry) (f : Nat) : Prop :=
  256 ≤ f ∧ f < 32768 ∧ ∃ e ∈ e820, Covers e f

/-- The counter of frames agrees with the bitmap while none is handed out. -/
def Counted (p : State) : Prop := p.totalFramesCount = (freeFrames p).card

theorem freeFrames_card_le (p : State) : (freeFrames p).card ≤ 32768 :=
  ByteBitmap.clearCount_le p.bitmap 32768

theorem freeFrames_clear (p : State) {i : Nat} (hi : i < 32768) :
    freeFrames (bitmapClear p i) = insert i (freeFrames p) := by
  ext f
  rw [Finset.mem_insert, mem_freeFrames, mem_freeFrames, bitmapTest_clear]
  by_cases h : f = i
  · subst f; simp [hi]
  · simp [h]

theorem freeFrames_set (p : State) (i : Nat) :
    freeFrames (bitmapSet p i) = (freeFrames p).erase i := by
  ext f
  rw [Finset.mem_erase, mem_freeFrames, mem_freeFrames, bitmapTest_set]
  by_cases h : f = i
  · subst f; simp
  · simp [h]

/-- Clearing a frame twice counts it once. -/
theorem freeUsableFrame_spec {p : State} {i : Nat} (hi : i < 32768) (hp : Counted p) :
    Counted (freeUsableFrame i p) ∧ freeFrames (freeUsableFrame i p) = insert i (freeFrames p) := by
  unfold freeUsableFrame
  split
  · rename_i hset
    refine ⟨?_, freeFrames_clear p hi⟩
    have hcard : (freeFrames (bitmapClear p i)).card = (freeFrames p).card + 1 :=
      ByteBitmap.clearCount_clear hi hset
    have hle := freeFrames_card_le (bitmapClear p i)
    change inc32 p.totalFramesCount = (freeFrames (bitmapClear p i)).card
    rw [hp, hcard, inc32_of_lt (by omega)]
  · rename_i hclear
    exact ⟨hp, (Finset.insert_eq_self.mpr (mem_freeFrames.mpr ⟨hi, by simpa using hclear⟩)).symm⟩

/-- The frames cleared by the inner loop, in the source's own bounds. -/
theorem forRange_freeUsable {p : State} (first n : Nat) (hn : n = 0 ∨ first + n ≤ 32768)
    (hp : Counted p) :
    Counted (forRange freeUsableFrame first n p) ∧
    ∀ f, f ∈ freeFrames (forRange freeUsableFrame first n p) ↔
      f ∈ freeFrames p ∨ (first ≤ f ∧ f < first + n) := by
  refine forRange_invariant (fun i q => Counted q ∧
    ∀ f, f ∈ freeFrames q ↔ f ∈ freeFrames p ∨ (first ≤ f ∧ f < i)) ⟨hp, ?_⟩ ?_
  · intro f
    have : ¬ (first ≤ f ∧ f < first) := by omega
    simp only [this, or_false]
  · intro i q hi hlt ⟨hq, hfree⟩
    obtain ⟨hcount, hinsert⟩ := freeUsableFrame_spec (i := i) (by omega) hq
    refine ⟨hcount, fun f => ?_⟩
    have hstep : (first ≤ f ∧ f < i + 1) ↔ f = i ∨ (first ≤ f ∧ f < i) := by omega
    rw [hinsert, Finset.mem_insert, hfree, hstep]
    exact or_left_comm

/-- The clips at 4 GiB and 128 MiB and the casts to 32 bits lose no frame that
the bitmap can hold. -/
theorem between_frames_iff {e : E820Entry} {f : Nat} (htype : e.type = 1) (hf : f < 32768)
    (hlow : e.base.toNat < 0x100000000) :
    (firstFrame e ≤ f ∧ f < firstFrame e + (lastFrame e - firstFrame e)) ↔ Covers e f := by
  have hend : 4096 * (f + 1) ≤ (e.base + e.length).toNat ↔ 4096 * (f + 1) ≤ regionEnd e := by
    unfold regionEnd
    split <;> omega
  have hendLe : regionEnd e ≤ 0x100000000 := by
    unfold regionEnd
    split <;> omega
  have hfirst : firstFrame e ≤ f ↔ e.base.toNat ≤ 4096 * f := by
    simp only [firstFrame, pmmFrameSize, wordSize]
    omega
  have hlast : f < lastFrame e ↔ 4096 * (f + 1) ≤ regionEnd e := by
    simp only [lastFrame, pmmFrameSize, wordSize, pmmMaxFrames]
    split <;> omega
  rw [Covers, hend, ← hlast, ← hfirst]
  constructor
  · rintro ⟨h1, h2⟩
    exact ⟨htype, h1, by omega⟩
  · rintro ⟨_, h1, h2⟩
    exact ⟨h1, by omega⟩

/-- One pass of the E820 loop frees exactly the covered frames. -/
theorem freeUsableRegion_spec {p : State} (e : E820Entry) (hp : Counted p) :
    Counted (freeUsableRegion p e) ∧
    ∀ f, f ∈ freeFrames (freeUsableRegion p e) ↔ f ∈ freeFrames p ∨ (f < 32768 ∧ Covers e f) := by
  unfold freeUsableRegion
  split
  · rename_i htype
    exact ⟨hp, fun f => by simp only [Covers, htype, false_and, and_false, or_false]⟩
  · rename_i htype
    rw [not_not] at htype
    split
    · rename_i hhigh
      refine ⟨hp, fun f => ?_⟩
      have : ¬ (f < 32768 ∧ Covers e f) := by
        rintro ⟨hf, _, hbase, _⟩
        omega
      simp only [this, or_false]
    · rename_i hlow
      have hlast : lastFrame e ≤ 32768 := by
        simp only [lastFrame, pmmMaxFrames]
        split <;> omega
      obtain ⟨hcount, hfree⟩ := forRange_freeUsable (firstFrame e) (lastFrame e - firstFrame e)
        (by omega) hp
      refine ⟨hcount, fun f => ?_⟩
      rw [hfree]
      refine or_congr_right ⟨fun h => ?_, fun h => ?_⟩
      · have hf : f < 32768 := by omega
        exact ⟨hf, (between_frames_iff htype hf (by omega)).mp h⟩
      · exact (between_frames_iff htype h.1 (by omega)).mpr h.2

theorem foldl_freeUsableRegion (e820 : List E820Entry) {p : State} (hp : Counted p) :
    Counted (e820.foldl freeUsableRegion p) ∧
    ∀ f, f ∈ freeFrames (e820.foldl freeUsableRegion p) ↔
      f ∈ freeFrames p ∨ (f < 32768 ∧ ∃ e ∈ e820, Covers e f) := by
  induction e820 generalizing p with
  | nil => exact ⟨hp, fun f => by simp⟩
  | cons e e820 ih =>
      obtain ⟨hcount, hfree⟩ := freeUsableRegion_spec e hp
      obtain ⟨hcount', hfree'⟩ := ih hcount
      refine ⟨hcount', fun f => ?_⟩
      rw [List.foldl_cons, hfree' f, hfree f, List.exists_mem_cons_iff]
      rw [or_assoc, ← and_or_left]

theorem reserveLowFrame_spec {p : State} {i : Nat} (hi : i < 32768) (hp : Counted p) :
    Counted (reserveLowFrame i p) ∧ freeFrames (reserveLowFrame i p) = (freeFrames p).erase i := by
  unfold reserveLowFrame
  split
  · rename_i hset
    refine ⟨hp, (Finset.erase_eq_of_notMem ?_).symm⟩
    simp [hset]
  · rename_i hclear
    have hcard : (freeFrames (bitmapSet p i)).card + 1 = (freeFrames p).card :=
      ByteBitmap.clearCount_set hi (by simpa [bitmapTest] using hclear)
    rw [← hp] at hcard
    split
    · refine ⟨?_, freeFrames_set p i⟩
      change p.totalFramesCount - 1 = (freeFrames (bitmapSet p i)).card
      omega
    · refine ⟨?_, freeFrames_set p i⟩
      change p.totalFramesCount = (freeFrames (bitmapSet p i)).card
      omega

theorem forRange_reserveLow {p : State} (hp : Counted p) :
    Counted (forRange reserveLowFrame 0 256 p) ∧
    ∀ f, f ∈ freeFrames (forRange reserveLowFrame 0 256 p) ↔ f ∈ freeFrames p ∧ 0 + 256 ≤ f := by
  refine forRange_invariant (fun i q => Counted q ∧
    ∀ f, f ∈ freeFrames q ↔ f ∈ freeFrames p ∧ i ≤ f) ⟨hp, fun f => by simp⟩ ?_
  intro i q _ hlt ⟨hq, hfree⟩
  obtain ⟨hcount, herase⟩ := reserveLowFrame_spec (i := i) (by omega) hq
  refine ⟨hcount, fun f => ?_⟩
  have hstep : i + 1 ≤ f ↔ f ≠ i ∧ i ≤ f := by omega
  rw [herase, Finset.mem_erase, hfree, hstep]
  exact and_left_comm

/-- All bytes 0xFF: no frame is free. -/
theorem ones_test (bm : Nat → UInt8) {n : Nat} (f : Nat) (hf : f / 8 < n) :
    ByteBitmap.test (fun i => if i < n then 0xFF else bm i) f = true := by
  have hbits : ∀ k : Fin 8, ByteBitmap.byteBit 0xFF k.val = true := by decide
  simp only [ByteBitmap.test_eq_byteBit, hf, if_true]
  exact hbits ⟨f % 8, Nat.mod_lt f (by omega)⟩

/-- The free frames after initialisation, with the counters that go with them. -/
theorem pmmInit_spec (e820 : List E820Entry) (p : State) :
    Counted (pmmInit e820 p) ∧ (pmmInit e820 p).usedFramesCount = 0 ∧
    ∀ f, f ∈ freeFrames (pmmInit e820 p) ↔ Allocatable e820 f := by
  let marked : State :=
    { bitmap := fun i => if i < pmmBitmapSize then 0xFF else p.bitmap i
      totalFramesCount := 0
      usedFramesCount := 0 }
  have hnone : freeFrames marked = ∅ := by
    ext f
    simp only [mem_freeFrames, Finset.notMem_empty, iff_false, not_and]
    intro hf
    have := ones_test p.bitmap (n := pmmBitmapSize) f (by simp only [pmmBitmapSize, pmmMaxFrames]; omega)
    simp only [bitmapTest, marked, this, Bool.true_eq_false, not_false_eq_true]
  have hmarked : Counted marked := by
    rw [Counted, hnone]
    rfl
  obtain ⟨hcount, hfree⟩ := foldl_freeUsableRegion e820 hmarked
  obtain ⟨hcount', hfree'⟩ := forRange_reserveLow hcount
  have hbitmap : freeFrames (pmmInit e820 p) =
      freeFrames (forRange reserveLowFrame 0 256 (e820.foldl freeUsableRegion marked)) := by
    simp only [freeFrames, pmmInit, marked, pmmFrameSize]
  refine ⟨?_, rfl, fun f => ?_⟩
  · rw [Counted, hbitmap]
    exact hcount'
  · rw [hbitmap, hfree', hfree, hnone]
    simp only [Finset.notMem_empty, false_or, Allocatable]
    constructor
    · rintro ⟨⟨hf, hcover⟩, hhigh⟩
      exact ⟨by omega, hf, hcover⟩
    · rintro ⟨hhigh, hf, hcover⟩
      exact ⟨⟨hf, hcover⟩, by omega⟩

end SengKernel.Pmm
