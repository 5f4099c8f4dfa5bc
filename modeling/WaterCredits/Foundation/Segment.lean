import WaterCredits.Foundation.Machine

/-! # Segments of a run

Some calls open a new segment of a run. The current segment is the part of the
trace since the last of them.
-/

namespace Foundation

variable {σ Λ : Type*} {opens : Λ → Bool} {st st' : Step σ Λ} {tr : Trace σ Λ}

/-- The accepted calls since the last one that opens a segment. -/
def segment (opens : Λ → Bool) (tr : Trace σ Λ) : Trace σ Λ :=
  tr.takeWhile fun st => !opens st.label

theorem segment_of_opens (h : opens st.label = true) : segment opens (st :: tr) = [] := by
  simp [segment, h]

theorem segment_of_not (h : opens st.label = false) :
    segment opens (st :: tr) = st :: segment opens tr := by
  simp [segment, h]

theorem mem_of_mem_segment (h : st ∈ segment opens tr) : st ∈ tr :=
  (List.takeWhile_prefix _).subset h

/-- Some call of the trace opened the current segment. -/
def Opened (opens : Λ → Bool) (tr : Trace σ Λ) : Prop := ∃ st ∈ tr, opens st.label = true

theorem opened_cons : Opened opens (st :: tr) ↔ opens st.label = true ∨ Opened opens tr := by
  simp [Opened]

theorem Opened.mono {tr' : Trace σ Λ} (h : Opened opens tr) (hs : tr ⊆ tr') : Opened opens tr' := by
  obtain ⟨st, hst, h⟩ := h
  exact ⟨st, hs hst, h⟩

end Foundation
