import Mathlib.Data.List.Basic

/-! # What happened since

`Since P Q events` says that an event with `P` happened, in view of the events before it, and that all
events after it satisfy `Q`. It is determined event by event (`since_concat`). -/

namespace Paneflow.Past

variable {E : Type*} {P P' : List E → E → Prop} {Q Q' : E → Prop} {events : List E} {event : E}

def Since (P : List E → E → Prop) (Q : E → Prop) (events : List E) : Prop :=
  ∃ before event after, events = before ++ event :: after ∧ P before event ∧ ∀ e ∈ after, Q e

/-- It happens now, or it happened before and nothing has come in between. -/
theorem since_concat :
    Since P Q (events ++ [event]) ↔ P events event ∨ Since P Q events ∧ Q event := by
  constructor
  · rintro ⟨before, first, after, hevents, hfirst, hafter⟩
    rcases List.eq_nil_or_concat after with rfl | ⟨after, last, rfl⟩
    · obtain ⟨rfl, hlast⟩ := List.append_inj' hevents rfl
      cases hlast
      exact .inl hfirst
    · have hsplit : events ++ [event] = (before ++ first :: after) ++ [last] := by
        rw [hevents]
        simp
      obtain ⟨rfl, hlast⟩ := List.append_inj' hsplit rfl
      cases hlast
      exact .inr ⟨⟨before, first, after, rfl, hfirst, fun e he => hafter e (by simp [he])⟩,
        hafter _ (by simp)⟩
  · rintro (hnow | ⟨⟨before, first, after, rfl, hfirst, hafter⟩, hevent⟩)
    · exact ⟨events, event, [], rfl, hnow, by simp⟩
    · refine ⟨before, first, after ++ [event], by simp, hfirst, fun e he => ?_⟩
      rcases List.mem_append.1 he with he | he
      · exact hafter e he
      · exact List.mem_singleton.1 he ▸ hevent

theorem Since.now (h : P events event) : Since P Q (events ++ [event]) := since_concat.2 (.inl h)

theorem Since.concat (h : Since P Q events) (hq : Q event) : Since P Q (events ++ [event]) :=
  since_concat.2 (.inr ⟨h, hq⟩)

theorem Since.mono (h : Since P Q events) (hP : ∀ before e, P before e → P' before e)
    (hQ : ∀ e, Q e → Q' e) : Since P' Q' events := by
  obtain ⟨before, first, after, hevents, hfirst, hafter⟩ := h
  exact ⟨before, first, after, hevents, hP _ _ hfirst, fun e he => hQ e (hafter e he)⟩

theorem not_since_nil : ¬ Since P Q [] := by
  rintro ⟨before, event, after, hevents, -⟩
  simp at hevents

end Paneflow.Past
