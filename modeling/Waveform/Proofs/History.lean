import Mathlib.Data.List.Induction

/-!
# Histories

What a sequence of requests has left behind, without the state that they act on: the last request
of a kind, as long as no later one has undone it. A new request settles this by one step, and a
property of histories and states that each step preserves holds after every run.
-/

namespace Waveform

variable {Request State : Type}

/-- A request of the history made something so, and no later one has ended it. -/
def Since (makes ends : Request → Prop) (history : List Request) : Prop :=
  ∃ earlier request later, history = earlier ++ request :: later ∧ makes request ∧
    ∀ other ∈ later, ¬ends other

theorem not_since_nil {makes ends : Request → Prop} : ¬Since makes ends [] := by
  rintro ⟨earlier, request, later, hhistory, -⟩
  simp at hhistory

theorem since_concat {makes ends : Request → Prop} {history : List Request} {request : Request} :
    Since makes ends (history ++ [request]) ↔
      makes request ∨ (Since makes ends history ∧ ¬ends request) := by
  constructor
  · rintro ⟨earlier, maker, later, hhistory, hmakes, hlater⟩
    obtain rfl | ⟨later, last, rfl⟩ := List.eq_nil_or_concat later
    · obtain ⟨-, hrequest⟩ := List.append_inj' hhistory rfl
      rw [List.singleton_inj.mp hrequest]
      exact .inl hmakes
    · rw [List.concat_eq_append, ← List.cons_append, ← List.append_assoc] at hhistory
      obtain ⟨hhistory, hrequest⟩ := List.append_inj' hhistory rfl
      rw [List.singleton_inj.mp hrequest]
      rw [List.concat_eq_append, List.forall_mem_append, List.forall_mem_singleton] at hlater
      exact .inr ⟨⟨earlier, maker, later, hhistory, hmakes, hlater.1⟩, hlater.2⟩
  · rintro (hmakes | ⟨⟨earlier, maker, later, rfl, hmakes, hlater⟩, hends⟩)
    · exact ⟨history, request, [], rfl, hmakes, by simp⟩
    · refine ⟨earlier, maker, later ++ [request], by simp, hmakes, ?_⟩
      rw [List.forall_mem_append, List.forall_mem_singleton]
      exact ⟨hlater, hends⟩

theorem foldl_preserves {step : State → Request → State} {start : State}
    {holds : List Request → State → Prop} (hstart : holds [] start)
    (hstep : ∀ history state request, holds history state →
      holds (history ++ [request]) (step state request)) (history : List Request) :
    holds history (history.foldl step start) := by
  induction history using List.reverseRecOn with
  | nil => exact hstart
  | append_singleton history request ih =>
      rw [List.foldl_append]
      exact hstep history _ request ih

end Waveform
