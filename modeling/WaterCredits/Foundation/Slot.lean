import WaterCredits.Foundation.Machine
import Mathlib.Data.List.Infix

/-! # Slots

A slot holds at most one value. A call of a run puts a value into it, clears it
or keeps what it holds, so the slot holds what the last change put into it, and
a value is taken out at most once.
-/

namespace Foundation

variable {σ Λ β : Type*}

inductive Slot (β : Type*)
  | put (b : β)
  | clear
  | keep

namespace Slot

variable {change : Λ → Slot β} {tr pre pre' post post' : Trace σ Λ} {st st' : Step σ Λ} {k k' : ℕ}
  {b b' : β}

/-- The slot holds the value that the call after the first `k` ones put into it. -/
def Holds (change : Λ → Slot β) (tr : Trace σ Λ) (k : ℕ) (b : β) : Prop :=
  ∃ mid st old, tr = mid ++ st :: old ∧ old.length = k ∧ change st.label = .put b ∧
    ∀ st' ∈ mid, change st'.label = .keep

/-- The value in the slot after a run, and the number of calls before it was put there. -/
def content (change : Λ → Slot β) : Trace σ Λ → Option (ℕ × β)
  | [] => none
  | st :: tr =>
    match change st.label with
    | .put b => some (tr.length, b)
    | .clear => none
    | .keep => content change tr

theorem content_eq_some : content change tr = some (k, b) ↔ Holds change tr k b := by
  constructor
  · intro h
    induction tr with
    | nil => cases h
    | cons st tr ih =>
      unfold content at h
      split at h
      · rename_i hput
        cases h
        exact ⟨[], st, tr, rfl, rfl, hput, fun st hst => absurd hst List.not_mem_nil⟩
      · cases h
      · rename_i hkeep
        obtain ⟨mid, st', old, rfl, hk, hput, hmid⟩ := ih h
        exact ⟨st :: mid, st', old, rfl, hk, hput, List.forall_mem_cons.mpr ⟨hkeep, hmid⟩⟩
  · rintro ⟨mid, st, old, rfl, rfl, hput, hmid⟩
    induction mid with
    | nil => simp [content, hput]
    | cons st' mid ih =>
      obtain ⟨hkeep, hmid⟩ := List.forall_mem_cons.mp hmid
      simp only [List.cons_append, content, hkeep]
      exact ih hmid

namespace Holds

variable (h : Holds change tr k b)

include h

theorem unique (h' : Holds change tr k' b') : k = k' ∧ b = b' := by
  have heq := (content_eq_some.mpr h).symm.trans (content_eq_some.mpr h')
  exact Prod.mk.inj (Option.some.inj heq)

theorem exists_mem : ∃ st ∈ tr, change st.label = .put b := by
  obtain ⟨mid, st, old, rfl, -, hput, -⟩ := h
  exact ⟨st, List.mem_append_right _ (List.mem_cons_self ..), hput⟩

theorem lt_length : k < tr.length := by
  obtain ⟨mid, st, old, rfl, rfl, -, -⟩ := h
  rw [List.length_append, List.length_cons]
  omega

theorem length_le (ht : tr = post ++ st :: pre) (hst : change st.label ≠ .keep) :
    pre.length ≤ k := by
  obtain ⟨mid, st', old, rfl, rfl, -, hmid⟩ := h
  rcases List.append_eq_append_iff.mp ht with ⟨c, rfl, hc⟩ | ⟨c, rfl, hc⟩
  · have hl := congrArg List.length hc
    simp only [List.length_cons, List.length_append] at hl
    omega
  · cases c with
    | nil =>
      simp only [List.nil_append, List.cons.injEq] at hc
      exact hc.2 ▸ le_rfl
    | cons st'' c =>
      obtain ⟨rfl, -⟩ := List.cons.inj hc
      exact absurd (hmid st (List.mem_append_right _ (List.mem_cons_self ..))) hst

end Holds

theorem Holds.eq_of_change (h : Holds change pre k b) (h' : Holds change pre' k b')
    (hst : change st.label ≠ .keep) (hst' : change st'.label ≠ .keep)
    (ht : post ++ st :: pre = post' ++ st' :: pre') : post = post' := by
  -- the later of the two would find a value that was put there after the earlier one
  have earlier {post post' pre pre' : Trace σ Λ} {st st' : Step σ Λ} {b b' : β}
      (h : Holds change pre k b) (h' : Holds change pre' k b') (hst : change st.label ≠ .keep)
      (ht : post ++ st :: pre = post' ++ st' :: pre') : pre'.length ≤ pre.length := by
    by_contra hlt
    have hpre' : pre' <:+ post ++ st :: pre :=
      ht ▸ (List.suffix_cons st' pre').trans (List.suffix_append post' (st' :: pre'))
    have hsuffix : st :: pre <:+ pre' := by
      refine List.suffix_of_suffix_length_le (List.suffix_append ..) hpre' ?_
      rw [List.length_cons]
      omega
    obtain ⟨mid, hmid⟩ := hsuffix
    have hle := h'.length_le hmid.symm hst
    have hgt := h.lt_length
    omega
  have hlength : pre.length = pre'.length :=
    le_antisymm (earlier h' h hst' ht.symm) (earlier h h' hst ht)
  have hcons : (st :: pre).length = (st' :: pre').length := by
    rw [List.length_cons, List.length_cons, hlength]
  exact (List.append_inj' ht hcons).1

/-- What the slot holds after a call. -/
def apply (old : Option β) : Slot β → Option β
  | .put b => some b
  | .clear => none
  | .keep => old

theorem content_cons :
    (content change (st :: tr)).map Prod.snd =
      (change st.label).apply ((content change tr).map Prod.snd) := by
  rw [content]
  cases change st.label <;> rfl

theorem stored {ε : Type*} {m : Machine σ Λ ε} {G : Guard σ Λ} {I : σ → Option β → Prop}
    (h0 : ∀ s, m.init s → I s none)
    (hstep : ∀ s l s' old, m.step l s = .ok s' → I s old → I s' ((change l).apply old))
    {s : σ} (h : m.Run G tr s) : I s ((content change tr).map Prod.snd) := by
  refine Machine.Run.invariant
    (I := fun tr s => I s ((content change tr).map Prod.snd)) h0 ?_ h
  intro tr s l s' _ hs _ hl
  rw [content_cons]
  exact hstep s l s' _ hl hs

end Slot

end Foundation
