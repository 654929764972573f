import SengKernel.ShellSession
import SengKernel.ShellAppend

/- What a session leaves alone: a file that no line writes to or removes. -/
namespace SengKernel.Ksh
open BoundedLoop Str Fs Splice Transition

/-- The name that the write command takes from its arguments. -/
def writtenName (args : CString) : CString := ofBytes ((firstWord args.chars).take 63)

/-- The requests that may change the file `f`. -/
def Request.alters (f : CString) : Request → Prop
  | .write args => writtenName args = f
  | .rm args => args = f
  | _ => False

section Volumes

variable {v w : Volume} {f g : CString} {i k : Nat} {xs text : List UInt8} {out : List Printed} {r : Request}

theorem Volume.find_spec (h : v.find f = some i) : (v i).map File.name = some f := by
  obtain ⟨_, _, hp, _⟩ := scan_some h
  exact beq_iff_eq.mp hp

theorem Volume.place_spec (h : v.place f = some i) : v i = none := by
  rw [Volume.place] at h
  split at h
  · obtain ⟨_, _, hp, _⟩ := scan_some h
    exact Option.isNone_iff_eq_none.mp hp
  · cases h

theorem Volume.put_of_ne (e : Option File) (h : i ≠ k) : v.put k e i = v i := Function.update_of_ne h ..

/-- An entry found for one name is not that of another. -/
theorem Volume.find_ne (hi : v i = some ⟨f, xs⟩) (hk : v.find g = some k) (hgf : g ≠ f) : i ≠ k := by
  rintro rfl
  have hname := find_spec hk
  rw [hi] at hname
  exact hgf (Option.some.inj hname).symm

theorem Volume.place_ne (hi : v i = some ⟨f, xs⟩) (hk : v.place g = some k) : i ≠ k := by
  rintro rfl
  cases hi.symm.trans (place_spec hk)

theorem Volume.touch_frame (hi : v i = some ⟨f, xs⟩) (g : CString) : (v.touch g).2 i = some ⟨f, xs⟩ := by
  rw [Volume.touch]
  split
  · exact hi
  · split
    · rename_i k hk
      exact (v.put_of_ne _ (place_ne hi hk)).trans hi
    · exact hi

theorem Volume.store_frame (hi : v i = some ⟨f, xs⟩) (hgf : g ≠ f) : (v.store g text).2 i = some ⟨f, xs⟩ := by
  rw [Volume.store]
  split
  · rename_i k hk
    have hne : i ≠ k := by
      rcases Option.or_eq_some_iff.mp hk with hfind | ⟨_, hplace⟩
      · exact find_ne hi hfind hgf
      · exact place_ne hi hplace
    exact (v.put_of_ne _ hne).trans hi
  · exact hi

theorem Volume.rm_frame (hi : v i = some ⟨f, xs⟩) (hgf : g ≠ f) : (v.rm g).2 i = some ⟨f, xs⟩ := by
  rw [Volume.rm]
  split
  · exact hi
  · split
    · rename_i k hk
      exact (v.put_of_ne _ (find_ne hi hk hgf)).trans hi
    · exact hi

theorem Volume.write_frame (hi : v i = some ⟨f, xs⟩) {args : CString} (hname : writtenName args ≠ f) :
    (v.write args).2 i = some ⟨f, xs⟩ := by
  rw [Volume.write]
  split
  · exact hi
  · exact store_frame hi hname

/-- A request that does not alter the file leaves its entry as it is. -/
theorem Volume.answer_frame (hi : v i = some ⟨f, xs⟩) (h : v.answer r = some (out, w)) (hr : ¬ r.alters f) :
    w i = some ⟨f, xs⟩ := by
  have hsnd : ∀ p : List Printed × Volume, some p = some (out, w) → w = p.2 := fun p hp =>
    congrArg Prod.snd (Option.some.inj hp).symm
  cases r with
  | touch args =>
      rw [hsnd (v.touch args) h]
      exact touch_frame hi args
  | write args =>
      rw [hsnd (v.write args) h]
      exact write_frame hi hr
  | rm args =>
      rw [hsnd (v.rm args) h]
      exact rm_frame hi hr
  | nothing | echo | ls | cat | fsstats | unknown =>
      rw [hsnd (_, v) h]
      exact hi
  | _ => cases h

end Volumes

section Sessions

variable {s : State} {m : FileMap} {sh t : Shell} {x y : Session} {f : CString} {i : Nat} {xs : List UInt8}

theorem Answered.frame {l : TypedLine} (step : Answered x l y) (hi : x.files i = some ⟨f, xs⟩)
    (hl : ¬ (tableRequest l.line).alters f) : y.files i = some ⟨f, xs⟩ := by
  cases step with
  | files hanswer => exact Volume.answer_frame hi hanswer hl
  | elsewhere => exact hi

theorem run_frame {ls : List TypedLine} (run : Run Answered x ls y) (hi : x.files i = some ⟨f, xs⟩)
    (hls : ∀ l ∈ ls, ¬ (tableRequest l.line).alters f) : y.files i = some ⟨f, xs⟩ := by
  induction run with
  | nil => exact hi
  | cons step _ ih =>
      exact ih (step.frame hi (hls _ List.mem_cons_self)) (fun l hl => hls l (List.mem_cons_of_mem _ hl))

/-- The entry of a file is what cat shows of it. -/
theorem InStep.stores_iff (h : InStep sh x) : Stores sh f xs ↔ ∃ i, x.files i = some ⟨f, xs⟩ := by
  obtain ⟨⟨m, hstands⟩, _⟩ := h
  have hlisted := hstands.directory.listing.listed f
  rw [hstands.quiet.stores_iff]
  constructor
  · rintro ⟨hmem, rfl⟩
    obtain ⟨i, hi⟩ := hlisted.mp hmem
    exact ⟨i, hstands.named hi⟩
  · rintro ⟨i, hi⟩
    by_cases hlive : Live sh.fs i
    · have hentry := (hstands.live i hlive).symm.trans hi
      obtain ⟨hname, hcontent⟩ := File.mk.inj (Option.some.inj hentry)
      rw [hname] at hcontent
      exact ⟨hlisted.mpr ⟨i, hname ▸ named_entryName hlive⟩, hcontent⟩
    · cases (hstands.free i hlive).symm.trans hi

end Sessions

/-- A file that the shell has keeps its bytes, and cat goes on showing them, through any
lines that neither write to it nor remove it. -/
theorem file_survives (s : State) {before after : List TypedLine} {sh t : Shell} {f : CString} {xs : List UInt8}
    (start : Run Turn ⟨fsInit s, []⟩ before sh) (hstores : Stores sh f xs) (run : Run Turn sh after t)
    (huntouched : ∀ l ∈ after, ¬ (shellDispatch l.line).alters f) : Stores t f xs := by
  obtain ⟨x, _, hx⟩ := start.simulation (R := InStep) id (fun _ _ _ _ h step => h.forth step) (inStep_init s)
  obtain ⟨y, run', hy⟩ := run.simulation (R := InStep) id (fun _ _ _ _ h step => h.forth step) hx
  obtain ⟨i, hi⟩ := hx.stores_iff.mp hstores
  refine hy.stores_iff.mpr ⟨i, run_frame run' hi ?_⟩
  intro l hl
  rw [List.map_id] at hl
  rw [← shellDispatch_eq]
  exact huntouched l hl

/-- `write a hi` and `touch b` -/
def writeHi : TypedLine := ⟨⟨ascii "write a hi", by decide⟩, by decide⟩

def touchB : TypedLine := ⟨⟨ascii "touch b", by decide⟩, by decide⟩

theorem file_survives_sample : ∃ sh t, Run Turn ⟨fsInit blankState, []⟩ [writeHi] sh ∧ Run Turn sh [touchB] t ∧
    Stores t nameA (ascii "hi") := by
  have hwrite : tableRequest writeHi.line = .write ⟨ascii "a hi", by decide⟩ := by decide
  have htouch : tableRequest touchB.line = .touch ⟨ascii "b", by decide⟩ := by decide
  have hanswer : Volume.empty.answer (tableRequest writeHi.line) = some (Volume.empty.write ⟨ascii "a hi", by decide⟩) :=
    congrArg Volume.empty.answer hwrite
  have hanswer' : ∀ v : Volume, v.answer (tableRequest touchB.line) = some (v.touch ⟨ascii "b", by decide⟩) :=
    fun v => congrArg v.answer htouch
  obtain ⟨sh, step, hsh⟩ := (inStep_init blankState).back (.files hanswer)
  obtain ⟨t, step', ht⟩ := hsh.back (.files (hanswer' _))
  have hentry : (Volume.empty.write ⟨ascii "a hi", by decide⟩).2 0 = some ⟨nameA, ascii "hi"⟩ := by decide +kernel
  have hstores : Stores sh nameA (ascii "hi") := hsh.stores_iff.mpr ⟨0, hentry⟩
  refine ⟨sh, t, .cons step (.nil sh), .cons step' (.nil t), ?_⟩
  refine file_survives blankState (.cons step (.nil sh)) hstores (.cons step' (.nil t)) ?_
  intro l hl
  rw [List.mem_singleton.mp hl, shellDispatch_eq, htouch]
  exact id

end SengKernel.Ksh
