import Pykafka.System

/-! Runs and reachable states.

A run is any sequence of events; `Reachable allowed s₀` is the set of states the
runs from `s₀` made only of `allowed` events reach. Theorems restrict runs by
kind of event through `allowed` (no session expiry, no leader change, or only the
steps of one thread); `Reachable.induct` turns a property that the initial state has
and every allowed step keeps into one of every reachable state. -/
namespace Pykafka

def Event.isLeader : Event → Bool
  | .leader .. => true
  | _ => false

def Event.isExpire : Event → Bool
  | .expire _ => true
  | _ => false

/-- The states reached from `s₀` by runs of `allowed` events. -/
inductive Reachable (allowed : Event → Prop) (s₀ : Sys) : Sys → Prop
  | refl : Reachable allowed s₀ s₀
  | step {s s' : Sys} {e : Event} :
      Reachable allowed s₀ s → allowed e → s.step e = some s' → Reachable allowed s₀ s'

namespace Reachable

variable {allowed : Event → Prop} {s₀ s s' : Sys}

theorem induct (I : Sys → Prop) (h₀ : I s₀)
    (hstep : ∀ {s s' e}, Reachable allowed s₀ s → I s → allowed e → s.step e = some s' → I s')
    (h : Reachable allowed s₀ s) : I s := by
  induction h with
  | refl => exact h₀
  | step hr he hs ih => exact hstep hr ih he hs

theorem trans (h₁ : Reachable allowed s₀ s) (h₂ : Reachable allowed s s') :
    Reachable allowed s₀ s' := by
  induction h₂ with
  | refl => exact h₁
  | step _ he hs ih => exact .step ih he hs

theorem mono {allowed' : Event → Prop} (h : ∀ e, allowed e → allowed' e) (hr : Reachable allowed s₀ s) :
    Reachable allowed' s₀ s := by
  induction hr with
  | refl => exact .refl
  | step _ he hs ih => exact .step ih (h _ he) hs

theorem of_run {es : List Event} (hes : ∀ e ∈ es, allowed e) (h : s₀.run es = some s) :
    Reachable allowed s₀ s := by
  induction es generalizing s₀ with
  | nil => cases h; exact .refl
  | cons e es ih =>
    simp only [Sys.run, Option.bind_eq_some] at h
    obtain ⟨s₁, h₁, h₂⟩ := h
    exact trans (.step .refl (hes e (List.mem_cons_self e es)) h₁)
      (ih (fun e' he' => hes e' (List.mem_cons_of_mem e he')) h₂)

/-- A state a given run reaches, with a property read off it. -/
theorem exists_of_run (P : Sys → Prop) [DecidablePred P] (es : List Event)
    (hes : ∀ e ∈ es, allowed e) (h : (s₀.run es).map (fun s => decide (P s)) = some true) :
    ∃ s, Reachable allowed s₀ s ∧ P s := by
  cases hr : s₀.run es with
  | none => rw [hr] at h; cases h
  | some s =>
    rw [hr] at h
    exact ⟨s, of_run hes hr, of_decide_eq_true (Option.some.inj h)⟩

end Reachable

end Pykafka
