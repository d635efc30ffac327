import Mathlib.Data.List.Basic

/-! Runs of labelled steps, and what they keep. -/
namespace StoreProgram

variable {σ ι α : Type}

inductive History (Step : σ → ι → σ → Prop) (s : σ) : List ι → σ → Prop
  | start : History Step s [] s
  | step {labels : List ι} {t u : σ} {a : ι} (h : History Step s labels t) (hstep : Step t a u) :
      History Step s (labels ++ [a]) u

namespace History

variable {Step : σ → ι → σ → Prop} {s t u : σ} {labels labels' : List ι}

theorem invariant (I : σ → Prop) (hI : ∀ s a t, I s → Step s a t → I t) (h : History Step s labels t)
    (hs : I s) : I t := by
  induction h with
  | start => exact hs
  | step _ hstep ih => exact hI _ _ _ ih hstep

theorem mono {Step' : σ → ι → σ → Prop} (hstep : ∀ s a t, Step s a t → Step' s a t)
    (h : History Step s labels t) : History Step' s labels t := by
  induction h with
  | start => exact .start
  | step _ hs ih => exact .step ih (hstep _ _ _ hs)

theorem trans (h : History Step s labels t) (h' : History Step t labels' u) :
    History Step s (labels ++ labels') u := by
  induction h' with
  | start =>
    rw [List.append_nil]
    exact h
  | step _ hs ih =>
    rw [← List.append_assoc]
    exact ih.step hs

/-- What a state shows was shown at the start, or comes with one of the steps. -/
theorem shown_or_gained (I : σ → Prop) (shows : σ → α → Prop) (gains : ι → α → Prop)
    (hI : ∀ s a t, I s → Step s a t → I t ∧ ∀ x, shows t x → shows s x ∨ gains a x)
    (h : History Step s labels t) (hs : I s) {x : α} (hx : shows t x) :
    shows s x ∨ ∃ a ∈ labels, gains a x := by
  induction h with
  | start => exact .inl hx
  | @step labels t u a h hstep ih =>
    have ht : I t := h.invariant I (fun s a t hs hst => (hI s a t hs hst).1) hs
    rcases (hI t a u ht hstep).2 x hx with hx | hx
    · rcases ih hx with hx | ⟨b,hb,hx⟩
      · exact .inl hx
      · exact .inr ⟨b, List.mem_append_left _ hb, hx⟩
    · exact .inr ⟨a, List.mem_append_right _ (List.mem_singleton_self a), hx⟩

end History
end StoreProgram
