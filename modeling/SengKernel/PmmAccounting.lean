import SengKernel.PmmSafety

/- Well-behaved sessions of the frame allocator: a caller frees what it holds, or
   an address that the code rejects. The bitmap is then the set of frames that
   `pmm_init` left clear without the outstanding ones, whatever the history. -/
namespace SengKernel.Pmm
open BoundedLoop MachineWord Transition

def pmmTotalFrames (p : State) : Nat := p.totalFramesCount
def pmmUsedFrames (p : State) : Nat := p.usedFramesCount

def pmmFreeFrames (p : State) : Nat :=
  if p.totalFramesCount ≥ p.usedFramesCount then p.totalFramesCount - p.usedFramesCount else 0

/-- The four checks of `pmm_free_frame`, the last on the frame's own bit. -/
def Rejected (p : State) (paddr : UInt32) : Prop :=
  paddr = 0 ∨ paddr.toNat % 4096 ≠ 0 ∨ 0x8000000 ≤ paddr.toNat ∨
    bitmapTest p (paddr.toNat / 4096) = false

def WellBehaved (s : Session) : Call → Prop
  | .alloc => True
  | .free paddr => paddr ∈ s.handedOut ∨ Rejected s.pmm paddr

/-- The frames that callers hold. -/
def outstanding (s : Session) : Finset Nat := (s.handedOut.map (fun a => a.toNat / 4096)).toFinset

theorem mem_outstanding {s : Session} {f : Nat} :
    f ∈ outstanding s ↔ ∃ a ∈ s.handedOut, a.toNat / 4096 = f := by simp [outstanding]

theorem pmmFreeFrame_of_rejected {p : State} {paddr : UInt32} (h : Rejected p paddr) :
    pmmFreeFrame p paddr = p := by
  rcases pmmFreeFrame_cases p paddr with hres | ⟨f, haddr, hpos, hlt, hset, _⟩
  · exact hres
  · have hframe : paddr.toNat / 4096 = f := by omega
    rcases h with hzero | hmisaligned | hhigh | hclear
    · rw [hzero] at haddr
      have : (0 : UInt32).toNat = 0 := rfl
      omega
    · omega
    · omega
    · rw [hframe] at hclear
      exact (hset (mem_freeFrames.mpr ⟨hlt, hclear⟩)).elim

/-- The invariant of well-behaved sessions: the bitmap and both counters as
functions of the initial state and of what is held. -/
structure Accounted (initial : State) (s : Session) : Prop where
  held : ∀ a ∈ s.handedOut, ∃ f, f ∈ freeFrames initial ∧ a.toNat = 4096 * f
  once : s.handedOut.Nodup
  clear : freeFrames s.pmm = freeFrames initial \ outstanding s
  beyond : ∀ f, 32768 ≤ f → bitmapTest s.pmm f = bitmapTest initial f
  used : s.pmm.usedFramesCount = s.handedOut.length
  total : s.pmm.totalFramesCount = initial.totalFramesCount

section Invariant

variable {initial : State} {s : Session}

theorem Accounted.card_outstanding (h : Accounted initial s) :
    (outstanding s).card = s.handedOut.length := by
  rw [outstanding, List.toFinset_card_of_nodup, List.length_map]
  refine (List.nodup_map_iff_inj_on h.once).mpr (fun a ha b hb hab => ?_)
  obtain ⟨f, _, hf⟩ := h.held a ha
  obtain ⟨g, _, hg⟩ := h.held b hb
  exact UInt32.toNat_inj.mp (by omega)

theorem Accounted.outstanding_subset (h : Accounted initial s) : outstanding s ⊆ freeFrames initial := by
  intro g hg
  obtain ⟨a, ha, hag⟩ := mem_outstanding.mp hg
  obtain ⟨f, hf, haf⟩ := h.held a ha
  have : g = f := by omega
  exact this ▸ hf

/-- Held and clear frames together are the initial ones. -/
theorem Accounted.card_clear (h : Accounted initial s) :
    s.handedOut.length + (freeFrames s.pmm).card = (freeFrames initial).card := by
  rw [h.clear, ← h.card_outstanding, Finset.card_sdiff_of_subset h.outstanding_subset]
  have := Finset.card_le_card h.outstanding_subset
  omega

theorem Accounted.alloc (h : Accounted initial s) (hlow : 0 ∉ freeFrames initial) :
    Accounted initial (call s .alloc) := by
  rcases pmmAllocFrame_cases s.pmm with ⟨f, hf, _, hres⟩ | ⟨_, hres⟩
  · obtain ⟨hlt, hclear⟩ := mem_freeFrames.mp hf
    have hdiff : f ∈ freeFrames initial ∧ f ∉ outstanding s := by
      rw [h.clear] at hf
      exact Finset.mem_sdiff.mp hf
    have haddr := frame_toNat hlt
    have hpos : f ≠ 0 := fun hzero => hlow (hzero ▸ hdiff.1)
    have hne : UInt32.ofNat (f * pmmFrameSize) ≠ 0 := by
      intro hzero
      rw [hzero] at haddr
      have : (0 : UInt32).toNat = 0 := rfl
      omega
    have hcard := h.card_clear
    have hle := freeFrames_card_le initial
    have hfree : 0 < (freeFrames s.pmm).card := Finset.card_pos.mpr ⟨f, hf⟩
    simp only [call, hres, hne, if_false]
    refine ⟨?_, ?_, ?_, ?_, ?_, h.total⟩
    · intro a ha
      rcases List.mem_cons.mp ha with rfl | hold
      · exact ⟨f, hdiff.1, haddr⟩
      · exact h.held a hold
    · refine List.nodup_cons.mpr ⟨fun hmem => ?_, h.once⟩
      exact hdiff.2 (mem_outstanding.mpr ⟨_, hmem, by omega⟩)
    · have hframe : (UInt32.ofNat (f * pmmFrameSize)).toNat / 4096 = f := by omega
      rw [freeFrames_usedFrames, freeFrames_set, h.clear]
      ext g
      rw [Finset.mem_erase, Finset.mem_sdiff, Finset.mem_sdiff, mem_outstanding, mem_outstanding,
        List.exists_mem_cons_iff, hframe, not_or]
      constructor
      · rintro ⟨hne, hg, hout⟩
        exact ⟨hg, Ne.symm hne, hout⟩
      · rintro ⟨hg, hne, hout⟩
        exact ⟨Ne.symm hne, hg, hout⟩
    · intro g hg
      rw [← h.beyond g hg]
      refine (bitmapTest_set s.pmm f g).trans ?_
      rw [decide_eq_false (by omega), Bool.false_or]
    · change inc32 s.pmm.usedFramesCount = s.handedOut.length + 1
      rw [h.used, inc32_of_lt (by omega)]
  · simpa only [call, hres, if_true] using h

/-- A free that changes the bitmap is one of a held address. -/
theorem Accounted.free (h : Accounted initial s) (hlow : 0 ∉ freeFrames initial) {paddr : UInt32}
    (hok : WellBehaved s (.free paddr)) : Accounted initial (call s (.free paddr)) := by
  have hmem : ∀ a, a ∈ s.handedOut.filter (fun a => a ≠ paddr) ↔ a ∈ s.handedOut ∧ a ≠ paddr := by
    intro a
    simp
  by_cases hheld : paddr ∈ s.handedOut
  · obtain ⟨f, hf, haddr⟩ := h.held paddr hheld
    have hlt : f < 32768 := (mem_freeFrames.mp hf).1
    have hout : f ∈ outstanding s := mem_outstanding.mpr ⟨paddr, hheld, by omega⟩
    have hset : f ∉ freeFrames s.pmm := by
      rw [h.clear]
      exact fun hdiff => (Finset.mem_sdiff.mp hdiff).2 hout
    have hbit : bitmapTest s.pmm f = true := by
      simpa only [mem_freeFrames, hlt, true_and, Bool.not_eq_false] using hset
    have hpos : 0 < f := Nat.pos_of_ne_zero (fun hzero => hlow (hzero ▸ hf))
    have hres := pmmFreeFrame_of_set haddr hpos hlt hbit
    -- two held addresses of one frame are the same address
    have hframe : ∀ a, a ∈ s.handedOut → a.toNat / 4096 = f → a = paddr := by
      intro a ha haf
      obtain ⟨g, _, hg⟩ := h.held a ha
      exact UInt32.toNat_inj.mp (by omega)
    simp only [call, hres]
    refine ⟨fun a ha => h.held a ((hmem a).mp ha).1, h.once.filter _, ?_, ?_, ?_, h.total⟩
    · rw [freeFrames_usedFrames, freeFrames_clear _ hlt, h.clear]
      ext g
      rw [Finset.mem_insert, Finset.mem_sdiff, Finset.mem_sdiff, mem_outstanding, mem_outstanding]
      constructor
      · rintro (rfl | ⟨hg, hout⟩)
        · refine ⟨hf, ?_⟩
          rintro ⟨a, ha, hag⟩
          obtain ⟨hold, hne⟩ := (hmem a).mp ha
          exact hne (hframe a hold hag)
        · refine ⟨hg, ?_⟩
          rintro ⟨a, ha, hag⟩
          exact hout ⟨a, ((hmem a).mp ha).1, hag⟩
      · rintro ⟨hg, hout⟩
        by_cases hgf : g = f
        · exact Or.inl hgf
        · refine Or.inr ⟨hg, ?_⟩
          rintro ⟨a, ha, hag⟩
          refine hout ⟨a, (hmem a).mpr ⟨ha, fun heq => ?_⟩, hag⟩
          subst heq
          omega
    · intro g hg
      rw [← h.beyond g hg]
      refine (bitmapTest_clear s.pmm f g).trans ?_
      rw [decide_eq_true (by omega), Bool.true_and]
    · change s.pmm.usedFramesCount - 1 = (s.handedOut.filter (fun a => a ≠ paddr)).length
      have herase : s.handedOut.filter (fun a => a ≠ paddr) = s.handedOut.erase paddr := by
        rw [h.once.erase_eq_filter]
        exact List.filter_congr (fun a _ => Bool.eq_iff_iff.mpr (by simp))
      rw [h.used, herase, List.length_erase_of_mem hheld]
  · have hrejected : Rejected s.pmm paddr := hok.resolve_left hheld
    have hsame : s.handedOut.filter (fun a => a ≠ paddr) = s.handedOut := by
      rw [List.filter_eq_self]
      exact fun a ha => decide_eq_true (fun heq => hheld (heq ▸ ha))
    simp only [call, pmmFreeFrame_of_rejected hrejected, hsame]
    exact h

/-- Nothing held: every byte of the bitmap is as it was. -/
theorem Accounted.restored (h : Accounted initial s) (hunused : initial.usedFramesCount = 0)
    (hnone : s.handedOut = []) : s.pmm = initial := by
  have hout : outstanding s = ∅ := by rw [outstanding, hnone]; rfl
  have hclear : freeFrames s.pmm = freeFrames initial := by rw [h.clear, hout, Finset.sdiff_empty]
  have hbits : ∀ f, bitmapTest s.pmm f = bitmapTest initial f := by
    intro f
    by_cases hf : f < 32768
    · have := Finset.ext_iff.mp hclear f
      simp only [mem_freeFrames, hf, true_and] at this
      exact Bool.eq_iff_iff.mpr (by simpa only [Bool.not_eq_false] using not_congr this)
    · exact h.beyond f (by omega)
  have hbitmap : s.pmm.bitmap = initial.bitmap := ByteBitmap.eq_of_test hbits
  have hused : s.pmm.usedFramesCount = initial.usedFramesCount := by rw [h.used, hnone, hunused, List.length_nil]
  calc s.pmm = ⟨s.pmm.bitmap, s.pmm.totalFramesCount, s.pmm.usedFramesCount⟩ := rfl
    _ = ⟨initial.bitmap, initial.totalFramesCount, initial.usedFramesCount⟩ := by rw [hbitmap, h.total, hused]
    _ = initial := rfl

end Invariant

theorem boot_accounted (e820 : List E820Entry) (p : State) :
    Accounted (pmmInit e820 p) (boot e820 p) := by
  refine ⟨fun a ha => (by cases ha), List.nodup_nil, ?_, fun _ _ => rfl, (pmmInit_spec e820 p).2.1, rfl⟩
  have hout : outstanding (boot e820 p) = ∅ := rfl
  rw [hout, Finset.sdiff_empty]
  rfl

theorem zero_not_free (e820 : List E820Entry) (p : State) : 0 ∉ freeFrames (pmmInit e820 p) := fun h =>
  absurd (((pmmInit_spec e820 p).2.2 0).mp h).1 (by decide)

theorem accounted_step {e820 : List E820Entry} {p : State} {s t : Session} {c : Call}
    (h : Accounted (pmmInit e820 p) s) (step : When WellBehaved Step s c t) :
    Accounted (pmmInit e820 p) t := by
  obtain ⟨hok, rfl⟩ := step
  cases c with
  | alloc => exact h.alloc (zero_not_free e820 p)
  | free paddr => exact h.free (zero_not_free e820 p) hok

/-- The set model: the clear frames, the counters and the next allocation as
functions of the initial free frames and of the outstanding ones. -/
structure SetModel (initial : State) (s : Session) : Prop where
  clear : freeFrames s.pmm = freeFrames initial \ outstanding s
  used : pmmUsedFrames s.pmm = s.handedOut.length ∧ s.handedOut.Nodup ∧
    (outstanding s).card = s.handedOut.length
  free : pmmUsedFrames s.pmm ≤ pmmTotalFrames s.pmm ∧
    pmmTotalFrames s.pmm - pmmUsedFrames s.pmm = (freeFrames s.pmm).card ∧
    pmmFreeFrames s.pmm = (freeFrames s.pmm).card
  lowest : ∀ f, (f ∈ freeFrames initial \ outstanding s ∧ ∀ g ∈ freeFrames initial \ outstanding s, f ≤ g) →
    (pmmAllocFrame s.pmm).1.toNat = 4096 * f ∧ (pmmAllocFrame s.pmm).1 ∉ s.handedOut
  exhausted : (pmmAllocFrame s.pmm).1 = 0 ↔ freeFrames initial \ outstanding s = ∅
  rejected : ∀ paddr, Rejected s.pmm paddr → pmmFreeFrame s.pmm paddr = s.pmm
  restored : s.handedOut = [] → s.pmm = initial

theorem Accounted.setModel {initial : State} {s : Session} (h : Accounted initial s)
    (hlow : 0 ∉ freeFrames initial) (hcounted : Counted initial) (hunused : initial.usedFramesCount = 0) :
    SetModel initial s := by
  have hcard := h.card_clear
  have htotal : s.pmm.totalFramesCount = s.handedOut.length + (freeFrames s.pmm).card := by
    rw [h.total, hcounted, hcard]
  have hused := h.used
  refine ⟨h.clear, ⟨hused, h.once, h.card_outstanding⟩, ?_, ?_, ?_, fun _ => pmmFreeFrame_of_rejected,
    h.restored hunused⟩
  · simp only [pmmUsedFrames, pmmTotalFrames, pmmFreeFrames]
    refine ⟨by omega, by omega, ?_⟩
    rw [if_pos (by omega)]
    omega
  · intro f ⟨hf, hleast⟩
    rw [← h.clear] at hf hleast
    rcases pmmAllocFrame_cases s.pmm with ⟨g, hg, hbelow, hres⟩ | ⟨hnone, _⟩
    · have hfg : f = g := Nat.le_antisymm (hleast g hg) (hbelow f hf)
      subst hfg
      have haddr : (pmmAllocFrame s.pmm).1.toNat = 4096 * f := by
        rw [hres]
        exact frame_toNat (mem_freeFrames.mp hf).1
      refine ⟨haddr, fun hmem => ?_⟩
      have hout : f ∈ outstanding s := mem_outstanding.mpr ⟨_, hmem, by omega⟩
      rw [h.clear] at hf
      exact (Finset.mem_sdiff.mp hf).2 hout
    · rw [hnone] at hf
      cases hf
  · rw [← h.clear]
    rcases pmmAllocFrame_cases s.pmm with ⟨g, hg, _, hres⟩ | ⟨hnone, hres⟩
    · have haddr : (pmmAllocFrame s.pmm).1.toNat = 4096 * g := by
        rw [hres]
        exact frame_toNat (mem_freeFrames.mp hg).1
      constructor
      · intro hzero
        rw [hzero] at haddr
        have : (0 : UInt32).toNat = 0 := rfl
        have hgzero : g = 0 := by omega
        rw [h.clear, hgzero] at hg
        exact (hlow (Finset.mem_sdiff.mp hg).1).elim
      · intro hnone
        rw [hnone] at hg
        cases hg
    · exact ⟨fun _ => hnone, fun _ => by rw [hres]⟩

/-- Well-behaved sessions of any length and order keep to the set model. -/
theorem well_behaved_set_model (e820 : List E820Entry) (p : State) {calls : List Call} {s : Session}
    (run : Run (When WellBehaved Step) (boot e820 p) calls s) : SetModel (pmmInit e820 p) s := by
  obtain ⟨hcounted, hunused, _⟩ := pmmInit_spec e820 p
  have h : Accounted (pmmInit e820 p) s :=
    run.invariant (fun _ _ _ h step => accounted_step h step) (boot_accounted e820 p)
  exact h.setModel (zero_not_free e820 p) hcounted hunused

/-- A machine with two usable frames. -/
def twoFrames : List E820Entry := [⟨0x100000, 0x2000, 1⟩]

instance (p : State) (paddr : UInt32) : Decidable (Rejected p paddr) := by
  unfold Rejected
  infer_instance

instance (s : Session) (c : Call) : Decidable (WellBehaved s c) := by
  cases c <;> unfold WellBehaved <;> infer_instance

/-- Both frames are taken and given back in the order they came; then a free of
the first one again is rejected. -/
theorem well_behaved_set_model_sample :
    ∃ s, Run (When WellBehaved Step) (boot twoFrames blank)
        [.alloc, .alloc, .free 0x100000, .free 0x101000, .free 0x100000] s ∧
      SetModel (pmmInit twoFrames blank) s := by
  let calls : List Call := [.alloc, .alloc, .free 0x100000, .free 0x101000, .free 0x100000]
  have hsome : (execute (guarded WellBehaved (fun s c => some (call s c)))
      (boot twoFrames blank) calls).isSome = true := by decide +kernel
  obtain ⟨s, hs⟩ := Option.isSome_iff_exists.mp hsome
  have run : Run (When WellBehaved Step) (boot twoFrames blank) calls s :=
    (run_of_execute_guarded hs).mono (fun _ _ _ step => ⟨step.1, (Option.some.inj step.2).symm⟩)
  exact ⟨s, run, well_behaved_set_model twoFrames blank run⟩

end SengKernel.Pmm
