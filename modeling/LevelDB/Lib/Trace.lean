/-
  Traces of labelled transition systems, over any types of states and events.
-/
import Mathlib.Order.Lattice

namespace Transition

open List

variable {S T E : Type*}

/-- The traces from `init`, with their events in order. -/
inductive Trace (init : S) (step : S → E → S → Prop) : List E → S → Prop where
  | start : Trace init step [] init
  | step {events : List E} {e : E} {s s' : S} (htrace : Trace init step events s)
      (hstep : step s e s') : Trace init step (events ++ [e]) s'

namespace Trace

variable {init : S} {step : S → E → S → Prop} {events : List E} {s : S}

theorem invariant {I : List E → S → Prop} (hinit : I [] init)
    (hstep : ∀ {events e s s'}, Trace init step events s → I events s → step s e s' →
      I (events ++ [e]) s') (h : Trace init step events s) : I events s := by
  induction h with
  | start => exact hinit
  | step htrace hs ih => exact hstep htrace ih hs

/-- The simulation rule. -/
theorem simulation {init' : T} {step' : T → E → T → Prop} {R : S → T → Prop} (hinit : R init init')
    (hstep : ∀ {e s s' t}, R s t → step s e s' → ∃ t', step' t e t' ∧ R s' t')
    (h : Trace init step events s) : ∃ t, Trace init' step' events t ∧ R s t := by
  induction h with
  | start => exact ⟨init', .start, hinit⟩
  | step _ hs ih =>
    obtain ⟨t, ht, hR⟩ := ih
    obtain ⟨t', hst, hR'⟩ := hstep hR hs
    exact ⟨t', ht.step hst, hR'⟩

theorem trans {more : List E} {s' : S} (h : Trace init step events s)
    (h' : Trace s step more s') : Trace init step (events ++ more) s' := by
  induction h' with
  | start =>
    rw [append_nil]
    exact h
  | step _ hs ih =>
    rw [← append_assoc]
    exact ih.step hs

theorem last {e : E} (h : Trace init step (events ++ [e]) s) :
    ∃ s₀, Trace init step events s₀ ∧ step s₀ e s := by
  obtain ⟨l, hl⟩ : ∃ l, l = events ++ [e] := ⟨_, rfl⟩
  rw [← hl] at h
  cases h with
  | start => simp at hl
  | step htrace hstep =>
    obtain ⟨rfl, heq⟩ := append_inj' hl rfl
    obtain rfl := singleton_inj.mp heq
    exact ⟨_, htrace, hstep⟩

end Trace

end Transition
