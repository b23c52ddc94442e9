import Pykafka.Claims

/-! The inner consumers a member builds.

`_setup_internal_consumer` gives the `SimpleConsumer` it builds `reset_offset_on_start`
only when the member holds no inner consumer yet, and nothing sets `self._consumer`
back to `None`: `stop` only stops it. So along every run a member builds at most one
inner consumer with `reset_offset_on_start` set, and only as its first
(`resetOffsetOnStart_first_only`).

What an event does to a member's inner consumer (`Sys.step_consumer`) is read off the
step lemma `stepFrame_moves`: it keeps it, stops it (`stop`), or replaces it by the one
`_setup_internal_consumer` builds (the end of a pass of `_rebalance`). -/
namespace Pykafka

/-- The inner consumer an event built, seen on the member before (`M`) and after (`M'`)
it: the member holds a running inner consumer it did not hold before. `stop` leaves the
same consumer, stopped; a rebuild never gives back the consumer the member had, since
`_rebalance` rebuilds only over partitions that differ from it. -/
def built (M M' : Member) : Option Consumer :=
  if M'.consumer = M.consumer then none else M'.consumer.filter (·.running)

theorem built_isSome {M M' : Member} {c : Consumer} (hb : built M M' = some c) : M'.consumer.isSome := by
  unfold built at hb
  split at hb
  · cases hb
  · cases h : M'.consumer <;> simp_all

namespace Sys

/-- The inner consumers member `x` builds along the events `es` from `s`, in order; the
list ends where the run does. -/
def builds (x : String) : Sys → List Event → List Consumer
  | _, [] => []
  | s, e :: es =>
    match s.step e with
    | none => []
    | some s' => (built (s.members x) (s'.members x)).toList ++ builds x s' es

/-- What an event does to member `x`'s inner consumer: it keeps it, stops it, or replaces
it by the one `_setup_internal_consumer` builds. -/
theorem step_consumer {s s' : Sys} {e : Event} (hs : s.step e = some s') (x : String) :
    (s'.members x).consumer = (s.members x).consumer ∨
    (s'.members x).consumer = (s.members x).consumer.map ({· with running := false}) ∨
    ∃ new, (s'.members x).consumer = ((s.members x).setupInternalConsumer new).consumer := by
  obtain ⟨i, ok, t, f, fs, r, rfl, -, -, hf, he, rfl⟩ | ⟨m', entry, rfl, rfl⟩ | ⟨sid, rfl, rfl⟩ |
    ⟨m', p, l, rfl, rfl⟩ := step_cases hs
  · by_cases hx : x = t.self
    · subst hx
      rcases (stepFrame_moves hf).consumer with h | ⟨-, h⟩ | ⟨-, new, -, h⟩
      · exact .inl h
      · exact .inr (.inl h)
      · exact .inr (.inr ⟨new, h⟩)
    · exact .inl (congrArg Member.consumer (he.others x hx))
  · exact .inl rfl
  · exact .inl (by rw [expireSession_members])
  · refine .inl ?_
    rw [setMember_members]
    split <;> simp_all

/-- An inner consumer built while the member already holds one is not given
`reset_offset_on_start`. -/
theorem built_resetOffsetOnStart {s s' : Sys} {e : Event} (hs : s.step e = some s') {x : String}
    {c : Consumer} (hb : built (s.members x) (s'.members x) = some c) (hc : (s.members x).consumer.isSome) :
    c.resetOffsetOnStart = false := by
  obtain ⟨c₀, hc₀⟩ := Option.isSome_iff_exists.mp hc
  unfold built at hb
  rcases step_consumer hs x with h | h | ⟨new, h⟩
  · rw [if_pos h] at hb
    cases hb
  · rw [h, hc₀] at hb
    simp only [Option.map_some', Option.filter_some, Option.some.injEq] at hb
    split at hb <;> simp_all
  · rw [h] at hb
    simp only [Member.setupInternalConsumer, hc, if_true] at hb
    split at hb
    · cases hb
    · cases hb
      rfl

/-- Once the member holds an inner consumer, every one it builds along a run is given
`reset_offset_on_start=False`. -/
theorem builds_of_isSome (x : String) : ∀ (s : Sys) (es : List Event), (s.members x).consumer.isSome →
    ∀ c ∈ s.builds x es, c.resetOffsetOnStart = false
  | _, [], _ => by simp [builds]
  | s, e :: es, h => by
    unfold builds
    cases hs : s.step e with
    | none => simp
    | some s' =>
      simp only [List.mem_append, Option.mem_toList]
      rintro c (hc | hc)
      · exact built_resetOffsetOnStart hs hc h
      · exact builds_of_isSome x s' es ((step_persists hs x).2 h) c hc

end Sys

/-- **`reset_offset_on_start` is honoured only by the first inner consumer.** Along every
run, from any state, every inner consumer a member builds after its first is given
`reset_offset_on_start=False`: at most one is built with it set, and only the first. -/
theorem resetOffsetOnStart_first_only (x : String) : ∀ (s : Sys) (es : List Event),
    ∀ c ∈ (s.builds x es).tail, c.resetOffsetOnStart = false
  | _, [] => by simp [Sys.builds]
  | s, e :: es => by
    unfold Sys.builds
    cases hs : s.step e with
    | none => simp
    | some s' =>
      dsimp only
      cases hb : built (s.members x) (s'.members x) with
      | none => exact resetOffsetOnStart_first_only x s' es
      | some c₀ => exact Sys.builds_of_isSome x s' es (built_isSome hb)

/-- A member configured with `reset_offset_on_start=True` starts alone on two partitions:
its first inner consumer is given the setting. -/
example : ((Sys.init (fun _ => {resetOffsetOnStart := true}) (fun _ => twoPartitions) true 0).builds "a"
    ([.call "a" .start] ++ List.replicate 26 (.run 0 true))).map (·.resetOffsetOnStart) = [true] := by
  decide

/-- `a`, configured with `reset_offset_on_start=True`, starts alone on two partitions; `b`
registers; then a watch fires at `a`, whose `_rebalance` keeps one partition and rebuilds
the inner consumer over it. -/
def rebuildRun : List Event :=
  [.call "a" .start] ++ List.replicate 26 (.run 0 true) ++ [.call "b" .start] ++
    List.replicate 6 (.run 2 true) ++ [.call "a" .watch] ++ List.replicate 21 (.run 3 true)

theorem resetOffsetOnStart_first_only_rebuild :
    (⟨[0], false, true⟩ : Consumer) ∈
        ((Sys.init (fun _ => {resetOffsetOnStart := true}) (fun _ => twoPartitions) true 0).builds "a" rebuildRun).tail ∧
      (⟨[0], false, true⟩ : Consumer).resetOffsetOnStart = false :=
  ⟨by decide, resetOffsetOnStart_first_only "a" (Sys.init (fun _ => {resetOffsetOnStart := true}) (fun _ => twoPartitions) true 0)
    rebuildRun _ (by decide)⟩

end Pykafka
