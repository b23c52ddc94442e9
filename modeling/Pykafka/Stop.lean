import Pykafka.Alone

/-! `stop` alone.

`stop` clears `_running` under the rebalancing lock and stops the inner consumer.
A member that owns its client then closes it, which ends its session and so its
ephemeral records. A member with an injected client deletes its records itself:
`_remove_partitions(_get_held_partitions())` and then its participant record.
Alone, and while every member sees the same leaders, both ways leave the member
stopped and, with an injected client, no record of it (`stop_alone`). A leader
change breaks the injected way: the ids read back are deleted by their new
names, and the first missing one raises out of `stop`
(`stop_raises_after_leader_change`). -/
namespace Pykafka

section
variable {s : Sys} {i : Nat} {m : String} (ok : Bool) {sid : Nat}

/-- **`stop` alone** returns normally with the member stopped. With an injected client it
leaves no ownership record and no participant record of the member; with its own client
it ends the client's session. -/
theorem stop_alone {T : Topic} (hN : NamedBy T s)
    (hW : ∀ n ∈ s.store.owners.children, ∃ id ∈ T.ids, slugId n = some id) (hi : i < s.threads.length)
    (hs : (s.members m).session = .ok sid) (hlock : (s.members m).locked = false) (fs : List Frame) :
    ∃ s' : Sys, Reachable (· = .run i ok) (s.setStack i m (.stop .lock :: fs))
      (s'.setStack i m (ret .unit fs)) ∧
      (s'.members m).running = false ∧
      ((s.members m).config.ownsZookeeper = false →
        (∀ e ∈ s'.store.owners.entries, e.2.value ≠ m) ∧ m ∉ s'.store.ids.children) ∧
      ((s.members m).config.ownsZookeeper = true →
        ∃ c, (s.members m).zookeeper = some c ∧ s'.store = s.store.expire c.session) := by
  obtain ⟨c, hc, hcl, rfl⟩ := Member.session_eq_ok hs
  -- `with self._rebalancing_lock: self._running = False` and `self._consumer.stop()`
  let s₂ := (s.setMember m fun M => {M with running := false}).setMember m
    fun M => {M with consumer := M.consumer.map ({· with running := false})}
  have hlock' : ((s.setStack i m (Frame.stop .lock :: fs)).members m).locked = false := hlock
  by_cases ho : (s.members m).config.ownsZookeeper
  · -- `self._zookeeper.stop()`
    refine ⟨?_, ?_, ?_, by simp [ho], fun _ => ⟨c, hc, ?_⟩⟩
    rotate_left
    apply Reachable.run_step hi
    · simp only [stepFrame, hlock', Bool.false_eq_true, if_false]
      rfl
    simp only [Sys.setMember_setStack, Sys.setStack_setStack]
    apply Reachable.run_step (by simpa using hi)
    · simp only [stepFrame, Sys.setStack_members, Sys.setMember_members, eq_self_iff_true, if_true, ho]
      rfl
    simp only [Sys.setMember_setStack, Sys.setStack_setStack]
    apply Reachable.run_step (by simpa using hi)
    · simp only [stepFrame, Sys.setStack_members, Sys.setMember_members, eq_self_iff_true, if_true, hc,
        hcl, Bool.false_eq_true, if_false]
      rfl
    · exact .refl
    · simp
    · simp
  · -- `self._remove_partitions(self._get_held_partitions())`, then `self._zookeeper.delete(self._path_self)`
    have hN₂ : NamedBy T s₂ := (hN.setMember rfl).setMember rfl
    have hs₂ : (s₂.members m).session = .ok c.session := by simpa [s₂, Member.session] using hs
    obtain ⟨h, hnd, hchar, hr⟩ := getHeldPartitions_alone ok hN₂ hW (by simpa using hi) hs₂
      (.stop (.held none) :: fs)
    have hex : ∀ p ∈ h, (s₂.members m).topic.pathOf p ∈ s₂.store.owners.children := by
      intro p hp
      obtain ⟨n, hn, -⟩ := (hchar p).mp hp
      rw [hN₂.topic m]
      exact Dir.mem_children.mpr ⟨n, Dir.get_eq_some.mp hn⟩
    obtain ⟨d, hd, hr'⟩ := removePartitions_alone ok (.stop (.removed false) :: fs) h s₂
      (by simpa using hi) hs₂ hnd hex
    have hnone : ∀ e ∈ d.entries, e.2.value ≠ m := by
      rintro ⟨n, node⟩ he (hv : node.value = m)
      obtain ⟨he, hne⟩ := (hd _).mp he
      obtain ⟨id, rfl⟩ := hN₂.owners n (Dir.mem_children.mpr ⟨node, he⟩)
      exact hne id ((hchar id).mpr ⟨node, Dir.get_eq_some.mpr he, hv⟩) (by rw [hN₂.topic m])
    have ho' : (s.members m).config.ownsZookeeper = false := by simpa using ho
    have hrun : ∀ s', stepFrame ((s₂.setOwners d).setStack i m (.stop .deleteSelf :: fs)) m fs ok
        (.stop .deleteSelf) = some (s', ret .unit fs) →
        Reachable (· = .run i ok) (s.setStack i m (.stop .lock :: fs)) (s'.setStack i m (ret .unit fs)) := by
      intro s' hs'
      apply Reachable.run_step hi
      · simp only [stepFrame, hlock', Bool.false_eq_true, if_false]
        rfl
      simp only [Sys.setMember_setStack, Sys.setStack_setStack]
      apply Reachable.run_step (by simpa using hi)
      · simp only [stepFrame, Sys.setStack_members, Sys.setMember_members, eq_self_iff_true, if_true, ho',
          Bool.false_eq_true, if_false]
        rfl
      simp only [Sys.setMember_setStack, Sys.setStack_setStack]
      refine hr.trans ?_
      simp only [ret, Frame.deliver]
      refine Reachable.run_step (by simpa using hi) rfl ?_
      simp only [Sys.setStack_setStack]
      refine hr'.trans ?_
      simp only [ret, Frame.deliver]
      refine Reachable.run_step (by simpa using hi) rfl ?_
      simp only [Sys.setStack_setStack]
      exact Reachable.run_step (by simpa using hi) hs' .refl
    have hs₃ : (((s₂.setOwners d).setStack i m (.stop .deleteSelf :: fs)).members m).session = .ok c.session := by
      simpa using hs₂
    have hrun₁ : (s₂.members m).running = false := by simp [s₂]
    cases hdel : s₂.store.ids.delete m with
    | none =>
      refine ⟨(s₂.setOwners d).setStack i m (.stop .deleteSelf :: fs), hrun _ ?_, by simpa using hrun₁, fun _ => ⟨by simpa using hnone, ?_⟩, fun h => absurd h ho⟩
      · simp only [stepFrame, withSession, hs₃, Sys.setStack_store, Sys.setOwners_ids, hdel]
      · simpa using Dir.delete_eq_none.mp hdel
    | some d' =>
      refine ⟨((s₂.setOwners d).setStack i m (.stop .deleteSelf :: fs)).setIds d', hrun _ ?_, by simpa using hrun₁, fun _ => ⟨by simpa using hnone, ?_⟩, fun h => absurd h ho⟩
      · simp only [stepFrame, withSession, hs₃, Sys.setStack_store, Sys.setOwners_ids, hdel]
      · intro hm
        obtain ⟨node, hn⟩ := Dir.mem_children.mp hm
        exact ((Dir.mem_delete hdel).mp (by simpa using hn)).2 rfl

end

/-- With an injected client, `a` starts alone and claims partition 0 as `1-0`; the
application calls `stop`, and before it runs a refresh moves partition 0 to broker 2 in
`a`'s topic object. -/
def leaderStopRun : List Event :=
  [.call "a" .start] ++ List.replicate 25 (.run 0 true) ++ [.call "a" .stop, .leader "a" 0 2] ++
    List.replicate 7 (.run 2 true)

/-- After `leaderStopRun`, `stop` has raised `NoNodeError`: `_get_held_partitions` read back
id 0 and `_remove_partitions` deleted it as `2-0`. The record `1-0` and the participant
record of `a` stay. -/
theorem stop_raises_after_leader_change :
    ∃ s, Reachable (fun _ => True) (Sys.init (fun _ => {zookeeper := some 0}) (fun _ => onePartition) true 1) s ∧
      s.threads[2]? = some ⟨"a", [.raised .noNode]⟩ ∧
      s.store.owners.get "1-0" = some ⟨"a", 0⟩ ∧ s.store.ids.get "a" = some ⟨"t", 0⟩ :=
  Reachable.exists_of_run _ leaderStopRun (fun _ _ => trivial) (by decide)

end Pykafka
