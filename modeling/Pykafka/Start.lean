import Pykafka.Rebalance
import Pykafka.Failure

/-! `start()` alone.

`start_alone` runs a member's first `start()` to its end while no other party moves.
`_setup_zookeeper` opens a client on the coordinator's next session, `ensure_path`
passes, `_add_self` registers the member (`start_begin` and `addSelf_alone`),
`_running` is set and `_set_watches` sets and clears `_setting_watches` around the
watches (`start_watches`), the initial `_rebalance` claims the member's share of the
partitions and builds the inner consumer over it (`rebalance_alone_settles`), and
`_setup_checker_worker` starts the checker thread.

It needs what the calls inside need: the lock free, no stored background error, at
least one retry, the brokers path, room for one more participant, and no record of
the member's share. That the member has no participant record yet is not assumed: a
member with no client has none (`Recorded`). -/
namespace Pykafka

namespace Sys

/-- Two updates of one member are one. -/
@[simp] theorem setMember_setMember (s : Sys) (m : String) (f g : Member → Member) :
    (s.setMember m f).setMember m g = s.setMember m (g ∘ f) := by
  unfold setMember
  congr 1
  funext x
  split <;> simp_all

@[simp] theorem setMember_brokers (s : Sys) (m : String) (f : Member → Member) :
    (s.setMember m f).brokers = s.brokers := rfl

end Sys

/-! ### The stretches of `start` between its calls -/

section
variable {s : Sys} {i : Nat} {m : String} (ok : Bool)

/-- **The head of `start`**: `_setup_zookeeper` opens a client on the coordinator's next
session, which answers, `ensure_path`, and the call of `_add_self`. -/
theorem start_begin (hi : i < s.threads.length) (hz : (s.members m).zookeeper = none) (fs : List Frame) :
    Reachable (· = .run i true) (s.setStack i m (.start .setup :: fs))
      (({s with nextSession := s.nextSession + 1}.setMember m
        fun M => {M with zookeeper := some ⟨s.nextSession, false⟩}).setStack i m
        (.getParticipants none [] :: .addSelf none :: .start (.addSelf false) :: fs)) := by
  apply Reachable.run_step hi
  · simp only [stepFrame, Sys.setStack_members, hz, Option.isNone_none, if_true]
    rfl
  apply Reachable.run_step (by simpa [Sys.setStack, Sys.setMember] using hi)
  · simp only [stepFrame, withSession, Sys.setStack_members, Sys.setMember_members, if_true,
      Member.session, Bool.false_eq_true, if_false]
    rfl
  simpa [Sys.setStack, Sys.setMember] using .refl

/-- **`self._running = True` and `_set_watches()`**, once `_add_self` has returned, with the
brokers path there: `_setting_watches` is set and cleared around the watches, and
`_rebalance` is called. -/
theorem start_watches {sid : Nat} (hi : i < s.threads.length) (hs : (s.members m).session = .ok sid)
    (hb : s.brokers = true) (fs : List Frame) :
    Reachable (· = .run i ok) (s.setStack i m (.start (.addSelf true) :: fs))
      ((s.setMember m fun M => {M with running := true, settingWatches := false}).setStack i m
        (.rebalance .commit :: .start (.rebalance false) :: fs)) := by
  obtain ⟨c, hc, hcl, rfl⟩ := Member.session_eq_ok hs
  refine Reachable.run_step hi rfl (Reachable.run_step (by simpa using hi) rfl ?_)
  simp only [Sys.setMember_setStack, Sys.setStack_setStack]
  apply Reachable.run_step (by simpa using hi)
  · simp only [stepFrame, withSession, Sys.setStack_members, Sys.setMember_members, if_true, Member.session,
      hc, hcl, Bool.false_eq_true, if_false, Sys.setStack_brokers, Sys.setMember_brokers, hb]
    rfl
  simpa using .refl

end

/-! ### The whole call -/

/-- **`start()` alone.** In a state reached without a leader change, let thread `i` be a
`start()` call of member `m`, which has no client yet, with its lock free, no stored
background error and at least one retry, and let the brokers path exist. Let the
registered members leave room for one more, let `A` be `_decide_partitions` over them and
`m`, and let no partition of `A` have an ownership record. Run alone, the call returns
normally, with the checker thread started last. It leaves `m` running, on a client open on
the coordinator's next session, with `_setting_watches` cleared, its inner consumer built
and every other field as it was; `m` registered; and both the records with `m`'s id and the
inner consumer's partitions exactly `A`'s. -/
theorem start_alone {config : String → Config} {T : Topic} {brokers : Bool} {n : Nat} {s : Sys}
    (hreach : Reachable (fun e => e.isLeader = false) (Sys.init config (fun _ => T) brokers n) s)
    {i : Nat} {m : String} {fs : List Frame} (ht : s.threads[i]? = some ⟨m, .start .setup :: fs⟩)
    (hz : (s.members m).zookeeper = none) (hexc : (s.members m).workerException = none)
    (hlock : (s.members m).locked = false) (hretry : 1 ≤ (s.members m).config.rebalanceMaxRetries)
    (hb : s.brokers = true) (hcap : s.store.ids.children.length < T.partitions.length)
    {A : List Partition} (hA : decidePartitions T m (m :: s.store.ids.children) = some A)
    (hfree : ∀ p ∈ A, s.store.owners.get (T.pathOf p.id) = none) :
    ∃ s', Reachable (· = .run i true) s s' ∧ s'.threads[i]? = some ⟨m, ret .unit fs⟩ ∧
      s'.threads.getLast? = some ⟨m, [.checker .loop]⟩ ∧
      s'.members m = {s.members m with
        running := true, settingWatches := false, zookeeper := some ⟨s.nextSession, false⟩,
        consumer := (s'.members m).consumer} ∧
      s'.store.ids.children = m :: s.store.ids.children ∧
      (∀ id, (∃ node, s'.store.owners.get (T.pathOf id) = some node ∧ node.value = m) ↔
        id ∈ A.map Partition.id) ∧
      (∀ id, id ∈ (s'.members m).partitions ↔ id ∈ A.map Partition.id) := by
  have hi : i < s.threads.length := (List.getElem?_eq_some_iff.mp ht).1
  -- a member with no client has no participant record
  have hnew : m ∉ s.store.ids.children := fun hm => by
    obtain ⟨node, hn⟩ := Dir.mem_children.mp hm
    obtain ⟨c, hc, -⟩ := (Recorded.reachable hreach).ids _ hn
    exact Option.noConfusion (hz.symm.trans hc)
  -- `_setup_zookeeper()` and `ensure_path`
  have r₁ := start_begin hi hz fs
  rw [Sys.setStack_eq_self ht] at r₁
  set s₁ : Sys := {s with nextSession := s.nextSession + 1}.setMember m
    fun M => {M with zookeeper := some ⟨s.nextSession, false⟩}
  have hN₁ : NamedBy T s₁ := (hreach.named_wf r₁).1.of_setStack
  have hs₁ : (s₁.members m).session = .ok s.nextSession := by simp [s₁, Member.session]
  -- `_add_self()`
  obtain ⟨d, hd, r₂⟩ := addSelf_alone true (by simpa using hi) hs₁
    (by rw [hN₁.filter_isParticipant m, hN₁.topic m]; exact hcap) hnew (.start (.addSelf false) :: fs)
  -- `self._running = True` and `_set_watches()`
  have r₃ := start_watches true (by simpa using hi : i < (s₁.setIds d).threads.length) hs₁ hb fs
  set s₃ : Sys := (s₁.setIds d).setMember m fun M => {M with running := true, settingWatches := false}
  have r₁₃ : Reachable (· = .run i true) s
      (s₃.setStack i m (.rebalance .commit :: .start (.rebalance false) :: fs)) :=
    r₁.trans (r₂.trans r₃)
  have hids₃ : s₃.store.ids.children = m :: s.store.ids.children := Dir.children_create hd
  -- `_rebalance()`
  obtain ⟨s₄, r₄, ht₄, hm₄, hids₄, hown₄, hparts₄⟩ := rebalance_alone_settles
    (hreach.trans (r₁₃.mono fun e he => by subst he; rfl)) (Sys.setStack_getElem? (by simpa [s₃] using hi))
    (by simpa [s₃] using hs₁) (by simp [s₃]) (by simpa [s₃, s₁] using hexc) (by simpa [s₃, s₁] using hlock)
    (by simpa [s₃, s₁] using hretry) (.inl (by rw [Sys.setStack_store, hids₃]; exact List.mem_cons_self _ _))
    (by rw [Sys.setStack_store, hids₃, List.insert_of_mem (List.mem_cons_self _ _)]; exact hA)
    (decidePartitions_ne_nil hA hcap) (fun p hp node hn => by simp [s₃, s₁, hfree p hp] at hn)
  -- `_setup_checker_worker()`
  have hi₄ : i < s₄.threads.length := (List.getElem?_eq_some_iff.mp ht₄).1
  refine ⟨{s₄ with threads := (s₄.threads ++ [(⟨m, [.checker .loop]⟩ : Thread)]).set i ⟨m, ret .unit fs⟩},
    r₁₃.trans (r₄.step rfl ?_), ?_, ?_, ?_, ?_, hown₄, hparts₄⟩
  · simp only [Sys.step, ht₄]
    rfl
  · simp [List.getElem?_append_left, hi₄]
  · simp [List.set_append_left _ _ hi₄]
  · show s₄.members m = _
    rw [hm₄]
    simp [s₃, s₁]
  · simp [hids₄, hids₃]

/-- `a` starts first on `twoPartitions`, with a client of its own: run alone, `start()`
registers it, gives it both partitions and starts the checker. -/
theorem start_alone_first :
    ∃ s, Reachable (fun e => e.isLeader = false) (Sys.init (fun _ => {}) (fun _ => twoPartitions) true 0) s ∧
      s.threads[0]? = some ⟨"a", [.start .setup]⟩ ∧
      ∃ s', Reachable (· = .run 0 true) s s' ∧ s'.threads[0]? = some ⟨"a", []⟩ ∧
        s'.threads.getLast? = some ⟨"a", [.checker .loop]⟩ ∧ (s'.members "a").running = true ∧
        s'.store.ids.children = ["a"] ∧ ∀ id, id ∈ (s'.members "a").partitions ↔ id ∈ [0, 1] := by
  obtain ⟨s, hr, ht, hz, hexc, hlock, hretry, hb, hcap, hids, hA, hfree⟩ :=
    @Reachable.exists_of_run (fun e => e.isLeader = false) (Sys.init (fun _ => {}) (fun _ => twoPartitions) true 0)
      (fun s => s.threads[0]? = some ⟨"a", [.start .setup]⟩ ∧ (s.members "a").zookeeper = none ∧
        (s.members "a").workerException = none ∧ (s.members "a").locked = false ∧
        1 ≤ (s.members "a").config.rebalanceMaxRetries ∧ s.brokers = true ∧
        s.store.ids.children.length < twoPartitions.partitions.length ∧ s.store.ids.children = [] ∧
        decidePartitions twoPartitions "a" ("a" :: s.store.ids.children) = some [⟨0, 1⟩, ⟨1, 1⟩] ∧
        ∀ p ∈ [(⟨0, 1⟩ : Partition), ⟨1, 1⟩], s.store.owners.get (twoPartitions.pathOf p.id) = none) _
      [.call "a" .start] (by decide) (by decide)
  obtain ⟨s', hr', ht', hlast, hm, hids', -, hparts⟩ := start_alone hr ht hz hexc hlock hretry hb hcap hA hfree
  refine ⟨s, hr, ht, s', hr', ht', hlast, by rw [hm], by rw [hids', hids], fun id => ?_⟩
  rw [hparts]
  simp

end Pykafka
