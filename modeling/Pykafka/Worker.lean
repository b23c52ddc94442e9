import Pykafka.Effect

/-! Background errors.

The watch callbacks, under `_catch_thread_exception`, and the checker thread store
the error that ends them in `_worker_exception`. `_raise_worker_exceptions`, which
`consume`, `commit_offsets` and `reset_offsets` start with, raises the stored error
and logs its traceback once, but never clears the slot, and no code but another
store writes it. So once a member has a stored error, every later state has one
(`workerException_isSome_of_reachable`), and then every façade call raises it, as
does the first `commit_offsets` of every later `_rebalance` of a member with an
inner consumer (`workerException_persists`). What `consume` does here is read off
`Member.consume`, its loop over one reading of the member, which is what the consuming
thread does when no other party steps (`consume_alone`).
 -/
namespace Pykafka

namespace Member

variable {M : Member} {e : Exc}

theorem commitOffsets_of_workerException (h : M.workerException = some e) (ok : Bool) :
    M.commitOffsets ok = .error e := by
  unfold commitOffsets raiseWorkerExceptions
  rw [h]
  rfl

theorem resetOffsets_of_workerException (h : M.workerException = some e) :
    M.resetOffsets = .error e := by
  unfold resetOffsets raiseWorkerExceptions
  rw [h]
  rfl

/-- `consume` raises the stored error in the first pass of its loop, which it enters
when the consumer has partitions and the first timeout check passes. -/
theorem consume_of_workerException {Msg : Type} (h : M.workerException = some e)
    (hp : M.partitions ≠ []) (block : Bool) (p : Poll Msg) (ps : List (Poll Msg))
    (ht : M.config.consumerTimeoutMs = -1 ∨ p.timedOut = false) :
    M.consume block (p :: ps) = some (.error e) := by
  have hcheck : (M.config.consumerTimeoutMs != -1 && p.timedOut) = false := by
    rcases ht with ht | ht <;> simp [ht]
  simp [consume, hp, consumeLoop, hcheck, raiseWorkerExceptions, h]

@[simp] theorem logWorkerTrace_workerException (M : Member) :
    M.logWorkerTrace.workerException = M.workerException := rfl

end Member

/-- The first step of `_rebalance` of a member with an inner consumer and a stored error
raises that error from `commit_offsets`. -/
theorem stepFrame_commit_of_workerException {s : Sys} {m : String} {e : Exc} {fs : List Frame}
    {ok : Bool} (h : (s.members m).workerException = some e) (hc : (s.members m).consumer.isSome) :
    stepFrame s m fs ok (.rebalance .commit) = some (raise m e (s.setMember m Member.logWorkerTrace) fs) := by
  simp only [stepFrame, hc, if_true, Member.commitOffsets_of_workerException h]

theorem workerException_isSome_of_reachable {allowed : Event → Prop} {s₀ s : Sys}
    (h : Reachable allowed s₀ s) {m : String} (hm : (s₀.members m).workerException.isSome) :
    (s.members m).workerException.isSome :=
  h.induct (fun s => (s.members m).workerException.isSome) hm fun _ hi _ hs => (Sys.step_persists hs m).1 hi

/-- **A stored background error is never cleared.** Along every run from a state in which
member `m` has a stored error, `m` has one in every later state, and then `commit_offsets`
and `reset_offsets` raise it, `consume` raises it once its loop runs, and `_rebalance` of
`m` with an inner consumer raises it from its first `commit_offsets`. -/
theorem workerException_persists {allowed : Event → Prop} {s₀ s : Sys} (h : Reachable allowed s₀ s)
    {m : String} (hm : (s₀.members m).workerException.isSome) :
    ∃ e, (s.members m).workerException = some e ∧
      (∀ ok, (s.members m).commitOffsets ok = .error e) ∧
      (s.members m).resetOffsets = .error e ∧
      (∀ (Msg : Type) (block : Bool) (p : Poll Msg) (ps : List (Poll Msg)),
        (s.members m).partitions ≠ [] →
        ((s.members m).config.consumerTimeoutMs = -1 ∨ p.timedOut = false) →
        (s.members m).consume block (p :: ps) = some (.error e)) ∧
      ∀ fs ok, (s.members m).consumer.isSome →
        stepFrame s m fs ok (.rebalance .commit) = some (raise m e (s.setMember m Member.logWorkerTrace) fs) := by
  obtain ⟨e, he⟩ := Option.isSome_iff_exists.mp (workerException_isSome_of_reachable h hm)
  exact ⟨e, he, Member.commitOffsets_of_workerException he, Member.resetOffsets_of_workerException he,
    fun _ block p ps hp ht => Member.consume_of_workerException he hp block p ps ht,
    fun _ _ hc => stepFrame_commit_of_workerException he hc⟩

/-- One member, with a stored `ValueError` and an inner consumer. -/
def storedError : Sys :=
  (Sys.init (fun _ => {}) (fun _ => ⟨"t", [⟨0, 1⟩], by decide⟩) true 0).setMember "a" fun M =>
    {M with workerException := some .valueError, consumer := some ⟨[0], false, true⟩}

theorem workerException_persists_storedError :
    ∃ e, (storedError.members "a").workerException = some e ∧
      (∀ ok, (storedError.members "a").commitOffsets ok = .error e) ∧
      (storedError.members "a").resetOffsets = .error e ∧
      (∀ (Msg : Type) (block : Bool) (p : Poll Msg) (ps : List (Poll Msg)),
        (storedError.members "a").partitions ≠ [] →
        ((storedError.members "a").config.consumerTimeoutMs = -1 ∨ p.timedOut = false) →
        (storedError.members "a").consume block (p :: ps) = some (.error e)) ∧
      ∀ fs ok, (storedError.members "a").consumer.isSome →
        stepFrame storedError "a" fs ok (.rebalance .commit) =
          some (raise "a" e (storedError.setMember "a" Member.logWorkerTrace) fs) :=
  workerException_persists (@Reachable.refl (fun _ => True) storedError) (by decide)

/-- A watch callback passes its running check; `stop` clears `_running`; the callback's
`_rebalance` raises `ConsumerStoppedException`, which the callback stores. -/
def stoppedWatchRun : List Event :=
  [.call "a" .start] ++ List.replicate 25 (.run 0 true) ++
    [.call "a" .watch, .run 2 true, .call "a" .stop, .run 3 true] ++ List.replicate 3 (.run 2 true)

/-- After `stoppedWatchRun`, `commit_offsets` raises the stored error, the call leaves the
error in its slot, and the next call raises it again. -/
theorem workerException_raised_again :
    ∃ s, Reachable (fun _ => True) (Sys.init (fun _ => {}) (fun _ => ⟨"t", [⟨0, 1⟩], by decide⟩) true 0) s ∧
      (s.members "a").commitOffsets true = .error (.consumerStopped "") ∧
      (s.members "a").logWorkerTrace.workerException = some (.consumerStopped "") ∧
      (s.members "a").logWorkerTrace.commitOffsets true = .error (.consumerStopped "") := by
  have : ∃ s, Reachable (fun _ => True) (Sys.init (fun _ => {}) (fun _ => ⟨"t", [⟨0, 1⟩], by decide⟩) true 0) s ∧
      (s.members "a").workerException = some (.consumerStopped "") :=
    Reachable.exists_of_run _ stoppedWatchRun (fun _ _ => trivial) (by decide)
  obtain ⟨s, hr, he⟩ := this
  exact ⟨s, hr, Member.commitOffsets_of_workerException he true, he,
    Member.commitOffsets_of_workerException he true⟩

end Pykafka
