import Pykafka.Failure

/-! The rebalancing lock, and what is done under it.

`_rebalance` does its work inside `with self._rebalancing_lock:`, and a `with` block
lets go of the lock however it is left: at its end, or by an exception, which the retry
loop either handles inside the block or lets through. `Locks` says that a member's lock
is set while one of its threads holds it, by that thread only.

Inside the block, `_rebalance` passes the `_running` check first, and `stop()` clears
`_running` only once the lock is free (`Checked`). So every ownership record is created,
and every inner consumer built, by a step of a thread of the member it belongs to that
holds the member's lock while the member runs (`built_under_lock`). And no inner consumer
outlives `stop()`: once `_running` is cleared, the thread of `stop()` goes on to stop the
inner consumer, and no `_rebalance` can build a new one, so an inner consumer runs only
while its member runs or in that window (`consumer_stops_with_member`). -/
namespace Pykafka

/-! ### What is done under the lock -/

/-- Below `_add_partitions` is `_rebalance` inside the lock, its only caller. -/
theorem Frame.Stack.lockHeld_addPartitions {ps : List Nat} {fs : List Frame}
    (h : Frame.Stack (.addPartitions ps :: fs)) : lockHeld (.addPartitions ps :: fs) := by
  rcases fs with _ | ⟨g, gs⟩
  · exact absurd h (by simp [Frame.Stack, Frame.kind, Frame.Kind.isEntry])
  · have hg := h.1
    unfold Frame.waitsOn at hg
    split at hg <;> cases hg
    simp [Frame.holdsLock, Rebalance.holdsLock]

/-- A step that creates an ownership record is `_add_partitions` creating it with its
member's id. -/
theorem stepFrame_creates {s : Sys} {self : String} {f : Frame} {r : Sys}
    (he : StepEffect self f s r) {name : String} {node : Node}
    (hnew : s.store.owners.get name = none) (hget : r.store.owners.get name = some node) :
    ∃ ps, f = .addPartitions ps ∧ node.value = self := by
  rcases he.owners with ho | ⟨p, ps, sid, rfl, -, hc⟩ | ⟨p, ps, -, -, -, hd⟩ | ⟨c, -, -, ho⟩
  · rw [ho, hnew] at hget
    cases hget
  · rw [Dir.get_create hc] at hget
    split at hget
    · cases hget
      exact ⟨_, rfl, rfl⟩
    · rw [hnew] at hget
      cases hget
  · rw [Dir.get_delete hd] at hget
    split at hget
    · cases hget
    · rw [hnew] at hget
      cases hget
  · rw [ho, Dir.get_expire, hnew] at hget
    cases hget

/-- **Records are created, and inner consumers built, only under the lock of a running
member.** Along every run, a step that creates an ownership record with the id `x`, or
gives `x` a running inner consumer it did not hold, is a step of one of `x`'s threads
that is inside the `with` block of `_rebalance`, while `x` holds its lock and runs. -/
theorem built_under_lock {allowed : Event → Prop} {config : String → Config} {topic : String → Topic}
    {brokers : Bool} {n : Nat} {s s' : Sys} {e : Event} (h : Reachable allowed (Sys.init config topic brokers n) s)
    (hs : s.step e = some s') (x : String)
    (hb : (∃ name node, s.store.owners.get name = none ∧ s'.store.owners.get name = some node ∧ node.value = x) ∨
      ∃ c, (s'.members x).consumer = some c ∧ c.running ∧ (s'.members x).consumer ≠ (s.members x).consumer) :
    ∃ (i : Nat) (ok : Bool) (t : Thread), e = .run i ok ∧ s.threads[i]? = some t ∧ t.self = x ∧ lockHeld t.stack ∧
      (s.members x).locked ∧ (s.members x).running := by
  have hL := Locks.reachable h
  -- the step of a thread inside the block, that is not at the `_running` check
  have inside : ∀ (i : Nat) (t : Thread), s.threads[i]? = some t → lockHeld t.stack → t.stack.head? ≠ some (.rebalance .check) →
      (s.members t.self).locked ∧ (s.members t.self).running := fun i t ht hl hc =>
    ⟨(hL.lock i t ht hl).1, ((Checked.reachable h) t (List.getElem?_mem ht) hl).resolve_left hc⟩
  obtain ⟨i, ok, t, f, fs, r, rfl, ht, hst, hr, he, rfl⟩ | ⟨m, entry, rfl, rfl⟩ | ⟨sid, rfl, rfl⟩ |
    ⟨m, id, l, rfl, rfl⟩ := Sys.step_cases hs
  · have hok : StackOk (s.members t.self).config (f :: fs) := hst ▸ hL.stackOk t (List.getElem?_mem ht)
    -- the step is at a frame inside the block, not the `_running` check, of a thread of `x`
    suffices hx : t.self = x ∧ lockHeld (f :: fs) ∧ f ≠ .rebalance .check by
      obtain ⟨rfl, hl, hc⟩ := hx
      have := inside i t ht (hst ▸ hl) (by rw [hst]; exact fun h => hc (Option.some.inj h))
      exact ⟨i, ok, t, rfl, ht, rfl, hst ▸ hl, this⟩
    rcases hb with ⟨name, node, hnew, hget, rfl⟩ | ⟨c, hc, hrun, hne⟩
    · obtain ⟨ps, rfl, hv⟩ := stepFrame_creates he hnew hget
      exact ⟨hv.symm, hok.stack.lockHeld_addPartitions, Frame.noConfusion⟩
    · by_cases hx : x = t.self
      · subst hx
        rcases (stepFrame_moves hr).consumer with hc' | ⟨-, hc'⟩ | ⟨k, new, rfl, -⟩
        · exact absurd hc' hne
        · rw [hc] at hc'
          obtain ⟨c₀, -, rfl⟩ := Option.map_eq_some'.mp hc'.symm
          cases hrun
        · exact ⟨rfl, by simp [Frame.holdsLock, Rebalance.holdsLock], fun h => by cases h⟩
      · exact absurd (congrArg Member.consumer (he.others x hx)) hne
  · rcases hb with ⟨name, node, hnew, hget, -⟩ | ⟨c, -, -, hne⟩
    · exact Option.noConfusion (hnew.symm.trans hget)
    · exact absurd rfl hne
  · rcases hb with ⟨name, node, hnew, hget, -⟩ | ⟨c, -, -, hne⟩
    · rw [Sys.expireSession_store, Store.expire, Dir.get_expire, hnew] at hget
      cases hget
    · exact absurd (by rw [Sys.expireSession_members]) hne
  · rcases hb with ⟨name, node, hnew, hget, -⟩ | ⟨c, -, -, hne⟩
    · exact Option.noConfusion (hnew.symm.trans hget)
    · exact absurd (by rw [Sys.setMember_members]; split <;> simp_all) hne

/-- `a` starts alone on `twoPartitions`: the step of its `_add_partitions` that creates
the record `1-0` is taken inside the block, with `a` locked and running. -/
theorem built_under_lock_start :
    ∃ s s', Reachable (fun _ => True) (Sys.init (fun _ => {}) (fun _ => twoPartitions) true 0) s ∧
      s.step (.run 0 true) = some s' ∧ s.store.owners.get "1-0" = none ∧
      s'.store.owners.get "1-0" = some ⟨"a", 0⟩ ∧
      ∃ (i : Nat) (ok : Bool) (t : Thread), Event.run 0 true = .run i ok ∧ s.threads[i]? = some t ∧
        t.self = "a" ∧ lockHeld t.stack ∧ (s.members "a").locked ∧ (s.members "a").running := by
  obtain ⟨s, hr, hnew, hstep⟩ := @Reachable.exists_of_run (fun _ => True)
    (Sys.init (fun _ => {}) (fun _ => twoPartitions) true 0)
    (fun s => s.store.owners.get "1-0" = none ∧
      (s.step (.run 0 true)).map (fun s' => s'.store.owners.get "1-0") = some (some ⟨"a", 0⟩)) _
    ([.call "a" .start] ++ List.replicate 20 (.run 0 true)) (fun _ _ => trivial) (by decide)
  obtain ⟨s', hs, hget⟩ := Option.map_eq_some'.mp hstep
  exact ⟨s, s', hr, hs, hnew, hget, built_under_lock hr hs "a" (.inl ⟨"1-0", _, hnew, hget, rfl⟩)⟩

/-! ### The inner consumer stops with its member -/

section
variable {s : Sys} {self : String} {fs : List Frame} {ok : Bool} {r : Sys × List Frame}

/-- `with self._rebalancing_lock: self._running = False` goes on to `self._consumer.stop()`. -/
theorem stepFrame_stopLock (hs : stepFrame s self fs ok (.stop .lock) = some r) : r.2 = .stop .consumer :: fs := by
  cases stepFrame_sound hs
  rfl

/-- `self._consumer.stop()` stops the inner consumer, if any. -/
theorem stepFrame_stopConsumer (hs : stepFrame s self fs ok (.stop .consumer) = some r) :
    (r.1.members self).consumer = (s.members self).consumer.map ({· with running := false}) := by
  cases stepFrame_sound hs <;> simp

end

/-- A member's inner consumer runs only while the member runs, or while one of its threads
is inside `stop` between clearing `_running` and stopping the inner consumer. -/
def ConsumerStops (s : Sys) : Prop :=
  ∀ x c, (s.members x).consumer = some c → c.running = true →
    (s.members x).running = true ∨
      ∃ (j : Nat) (t : Thread), s.threads[j]? = some t ∧ t.self = x ∧ t.stack.head? = some (.stop .consumer)

namespace ConsumerStops

variable {s s' : Sys}

theorem step {e : Event} (hC : Checked s) (h : ConsumerStops s) (hs : s.step e = some s') : ConsumerStops s' := by
  obtain ⟨i, ok, t, f, fs, r, rfl, ht, hst, hf, he, rfl⟩ | ⟨m, entry, rfl, rfl⟩ | ⟨sid, rfl, rfl⟩ |
    ⟨m, id, l, rfl, rfl⟩ := Sys.step_cases hs
  · have hm := stepFrame_moves hf
    have hi : i < r.1.threads.length := by
      have := (List.getElem?_eq_some_iff.mp ht).1
      rcases he.threads with h | h <;> simp [h] <;> omega
    -- every other thread is as it was
    have keep : ∀ j u, s.threads[j]? = some u → j ≠ i →
        ({r.1 with threads := r.1.threads.set i ⟨t.self, r.2⟩} : Sys).threads[j]? = some u := by
      intro j u hu hj
      refine (List.getElem?_set_ne (Ne.symm hj)).trans ?_
      rcases he.threads with h | h <;> rw [h]
      · exact hu
      · rw [List.getElem?_append_left (List.getElem?_eq_some_iff.mp hu).1]
        exact hu
    intro x c hc hrun
    change (r.1.members x).consumer = some c at hc
    by_cases hx : x = t.self
    · subst hx
      rcases hm.consumer with hc₀ | ⟨rfl, hc₀⟩ | ⟨k, new, rfl, -⟩
      · rcases h t.self c (hc₀ ▸ hc) hrun with hr | ⟨j, u, hu, hux, hh⟩
        · by_cases hl : f = .stop .lock
          · -- `self._running = False`: the thread goes on to `self._consumer.stop()`
            subst hl
            exact .inr ⟨i, _, List.getElem?_set_self hi, rfl, by rw [stepFrame_stopLock hf]; rfl⟩
          · exact .inl (by simp [hm.running, hl, hr])
        · by_cases hj : j = i
          · -- the thread at `self._consumer.stop()` takes this step, and stops the consumer
            subst hj
            obtain rfl : u = t := Option.some.inj (hu.symm.trans ht)
            rw [hst] at hh
            obtain rfl := Option.some.inj hh
            rw [stepFrame_stopConsumer hf] at hc
            obtain ⟨c₀, -, rfl⟩ := Option.map_eq_some'.mp hc
            cases hrun
          · exact .inr ⟨j, u, keep j u hu hj, hux, hh⟩
      · -- `self._consumer.stop()`
        rw [hc₀] at hc
        obtain ⟨c₀, -, rfl⟩ := Option.map_eq_some'.mp hc
        cases hrun
      · -- the inner consumer rebuilt inside the lock, past the `_running` check
        have hl : lockHeld t.stack := by simp [hst, Frame.holdsLock, Rebalance.holdsLock]
        rcases hC t (List.getElem?_mem ht) hl with hchk | hr
        · rw [hst] at hchk
          cases hchk
        · exact .inl (by simp [hm.running, hr])
    · -- another member's fields are as they were
      have hx' := he.others x hx
      rcases h x c (hx' ▸ hc) hrun with hr | ⟨j, u, hu, rfl, hh⟩
      · exact .inl (hx' ▸ hr)
      · refine .inr ⟨j, u, keep j u hu fun hj => hx ?_, rfl, hh⟩
        subst hj
        rw [Option.some.inj (hu.symm.trans ht)]
  · intro x c hc hrun
    rcases h x c hc hrun with hr | ⟨j, u, hu, hx, hh⟩
    · exact .inl hr
    · exact .inr ⟨j, u, by rw [List.getElem?_append_left (List.getElem?_eq_some_iff.mp hu).1]; exact hu, hx, hh⟩
  · intro x c hc hrun
    simpa [Sys.expireSession_members] using h x c (by simpa [Sys.expireSession_members] using hc) hrun
  · intro x c hc hrun
    by_cases hx : x = m
    · subst hx
      simpa using h x c (by simpa using hc) hrun
    · simpa [hx] using h x c (by simpa [hx] using hc) hrun

theorem reachable {allowed : Event → Prop} {config : String → Config} {topic : String → Topic} {brokers : Bool}
    {n : Nat} (h : Reachable allowed (Sys.init config topic brokers n) s) : ConsumerStops s :=
  h.induct ConsumerStops (fun _ _ hc => by simp [Sys.init, Member.init] at hc) fun hr hi _ hs =>
    hi.step (Checked.reachable hr) hs

end ConsumerStops

/-- **The inner consumer stops with its member.** Along every run, with any events, a
member's inner consumer runs only while the member runs, or while one of the member's
threads is inside `stop()` between `self._running = False` and `self._consumer.stop()`:
`stop()` clears `_running` only once the lock is free, and `_rebalance` rebuilds the inner
consumer only inside the lock, past its `_running` check. -/
theorem consumer_stops_with_member {allowed : Event → Prop} {config : String → Config} {topic : String → Topic}
    {brokers : Bool} {n : Nat} {s : Sys} (h : Reachable allowed (Sys.init config topic brokers n) s) (x : String)
    {c : Consumer} (hc : (s.members x).consumer = some c) (hrun : c.running = true) :
    (s.members x).running = true ∨
      ∃ (j : Nat) (t : Thread), s.threads[j]? = some t ∧ t.self = x ∧ t.stack.head? = some (.stop .consumer) :=
  ConsumerStops.reachable h x c hc hrun

/-- `a` starts alone on `twoPartitions`; the application calls `stop()`, whose first step
clears `_running`: the inner consumer still runs, and the thread of `stop()` is at
`self._consumer.stop()`. -/
theorem consumer_stops_with_member_stopping :
    ∃ s, Reachable (fun _ => True) (Sys.init (fun _ => {}) (fun _ => twoPartitions) true 0) s ∧
      (s.members "a").consumer = some ⟨[0, 1], false, true⟩ ∧ (s.members "a").running = false ∧
      ((s.members "a").running = true ∨ ∃ (j : Nat) (t : Thread), s.threads[j]? = some t ∧ t.self = "a" ∧
        t.stack.head? = some (.stop .consumer)) := by
  obtain ⟨s, hr, hc, hrun⟩ := @Reachable.exists_of_run (fun _ => True)
    (Sys.init (fun _ => {}) (fun _ => twoPartitions) true 0)
    (fun s => (s.members "a").consumer = some ⟨[0, 1], false, true⟩ ∧ (s.members "a").running = false) _
    ([.call "a" .start] ++ List.replicate 26 (.run 0 true) ++ [.call "a" .stop, .run 2 true])
    (fun _ _ => trivial) (by decide)
  exact ⟨s, hr, hc, hrun, consumer_stops_with_member hr "a" hc rfl⟩

end Pykafka
