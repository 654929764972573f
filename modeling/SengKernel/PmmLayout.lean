import SengKernel.PmmSafety

/- Frames against the memory the kernel itself occupies: the linked image of
   linker.ld with the RAM disk in its .bss, and the stack of boot.asm. -/
namespace SengKernel.Pmm
open Transition

/-- `. = 0x10000` in linker.ld, `FS_RAMDISK_SIZE` in fs.h, and the stack pointer
that boot.asm loads. -/
abbrev kernelBase : Nat := 0x10000
abbrev ramdiskSize : Nat := 0x100000
abbrev stackTop : Nat := 0x200000

/-- How far the image reaches is the linker's choice and how deep the stack goes
is the program's; the image holds the whole RAM disk, and the stack is not empty. -/
structure Layout where
  imageEnd : Nat
  stackLow : Nat
  ramdisk_linked : kernelBase + ramdiskSize ≤ imageEnd
  stack_used : stackLow < stackTop

def Layout.Occupies (L : Layout) (x : Nat) : Prop :=
  (kernelBase ≤ x ∧ x < L.imageEnd) ∨ (L.stackLow ≤ x ∧ x < stackTop)

/-- No byte of the frame at `a` belongs to the kernel. -/
def Layout.FrameClear (L : Layout) (a : Nat) : Prop :=
  ∀ x, a ≤ x → x < a + 4096 → ¬ L.Occupies x

/-- Only addresses that an allocation once returned are freed. -/
def FreesReturned (s : Session) : Call → Prop
  | .alloc => True
  | .free paddr => paddr ∈ s.returned

theorem freesAllocatable_of_returned {e820 : List E820Entry} {p : State} {s : Session} {c : Call}
    (h : Sound e820 (pmmInit e820 p) s) (hc : FreesReturned s c) : FreesAllocatable e820 s c := by
  cases c with
  | alloc => trivial
  | free paddr =>
      intro _ _ _ _
      obtain ⟨f, haddr, hinit⟩ := h.returned paddr hc
      have hframe : paddr.toNat / 4096 = f := by omega
      rw [hframe]
      exact ((pmmInit_spec e820 p).2.2 f).mp hinit

theorem returned_step_sound {e820 : List E820Entry} {p : State} {s t : Session} {c : Call}
    (h : Sound e820 (pmmInit e820 p) s) (step : When FreesReturned Step s c t) :
    Sound e820 (pmmInit e820 p) t :=
  sound_step h ⟨freesAllocatable_of_returned h step.1, step.2⟩

theorem returned_run_sound {e820 : List E820Entry} {p : State} {s : Session} {calls : List Call}
    (run : Run (When FreesReturned Step) (boot e820 p) calls s) : Sound e820 (pmmInit e820 p) s :=
  run.invariant (fun _ _ _ h step => returned_step_sound h step) (boot_sound e820 p)

/-- Allocating again and again reaches every free frame: each allocation takes a
lower one, so the frames below it run out. -/
theorem exists_alloc_run {f : Nat} (n : Nat) (s : Session) (hn : (freeFrames s.pmm).card = n)
    (hf : f ∈ freeFrames s.pmm) :
    ∃ calls t, Run (When FreesReturned Step) s calls t ∧
      (pmmAllocFrame t.pmm).1 = UInt32.ofNat (f * pmmFrameSize) := by
  induction n generalizing s with
  | zero => exact absurd (Finset.card_pos.mpr ⟨f, hf⟩) (by omega)
  | succ n ih =>
      rcases pmmAllocFrame_cases s.pmm with ⟨g, hg, _, hres⟩ | ⟨hnone, _⟩
      · by_cases hfg : f = g
        · exact ⟨[], s, .nil s, by rw [hres, hfg]⟩
        · have hpmm : freeFrames (call s .alloc).pmm = (freeFrames s.pmm).erase g := by
            have : (call s .alloc).pmm = (pmmAllocFrame s.pmm).2 := by
              unfold call
              dsimp only
              split <;> rfl
            rw [this, hres]
            exact (freeFrames_usedFrames _ _).trans (freeFrames_set s.pmm g)
          have hcard : (freeFrames (call s .alloc).pmm).card = n := by
            rw [hpmm, Finset.card_erase_of_mem hg]
            omega
          have hmem : f ∈ freeFrames (call s .alloc).pmm := by
            rw [hpmm]
            exact Finset.mem_erase.mpr ⟨hfg, hf⟩
          obtain ⟨calls, t, run, hret⟩ := ih (call s .alloc) hcard hmem
          exact ⟨.alloc :: calls, t, .cons ⟨trivial, rfl⟩ run, hret⟩
      · rw [hnone] at hf
        cases hf

/-- The allocator stays off the kernel's memory exactly when the memory map makes
no frame of that memory allocatable; the first-megabyte reserve does not help. -/
theorem alloc_clear_of_kernel_iff (L : Layout) (e820 : List E820Entry) (p : State) :
    (∀ calls s, Run (When FreesReturned Step) (boot e820 p) calls s →
      (pmmAllocFrame s.pmm).1 ≠ 0 → L.FrameClear (pmmAllocFrame s.pmm).1.toNat) ↔
    ∀ f, Allocatable e820 f → L.FrameClear (4096 * f) := by
  constructor
  · intro h f hf
    have hinit := ((pmmInit_spec e820 p).2.2 f).mpr hf
    obtain ⟨calls, t, run, hret⟩ := exists_alloc_run _ (boot e820 p) rfl hinit
    have haddr : (pmmAllocFrame t.pmm).1.toNat = 4096 * f := by
      rw [hret]
      exact frame_toNat hf.2.1
    have hne : (pmmAllocFrame t.pmm).1 ≠ 0 := by
      intro hzero
      rw [hzero] at haddr
      have : (0 : UInt32).toNat = 0 := rfl
      have := hf.1
      omega
    rw [← haddr]
    exact h calls t run hne
  · intro h calls s run hne
    obtain ⟨f, haddr, hallocatable, _⟩ := (returned_run_sound run).frameSafe.2 hne
    rw [haddr]
    exact h f hallocatable

/-- On a common 32 MiB machine the first allocation is 0x100000, which lies inside
the linked image of every build. -/
theorem first_frame_is_kernel_memory :
    (pmmAllocFrame (boot sampleMap blank).pmm).1 = 0x100000 ∧ ∀ L : Layout, ¬ L.FrameClear 0x100000 := by
  have hmem : 256 ∈ freeFrames (boot sampleMap blank).pmm :=
    ((pmmInit_spec sampleMap blank).2.2 256).mpr sampleMap_allocatable
  constructor
  · rcases pmmAllocFrame_cases (boot sampleMap blank).pmm with ⟨f, hf, hleast, hres⟩ | ⟨hnone, _⟩
    · have hle := hleast 256 hmem
      have hge := (((pmmInit_spec sampleMap blank).2.2 f).mp hf).1
      have : f = 256 := by omega
      rw [hres, this]
      rfl
    · rw [hnone] at hmem
      cases hmem
  · intro L hclear
    have hend := L.ramdisk_linked
    simp only [kernelBase, ramdiskSize] at hend
    exact hclear 0x100000 (Nat.le_refl _) (by omega) (Or.inl ⟨by decide, by omega⟩)

end SengKernel.Pmm
