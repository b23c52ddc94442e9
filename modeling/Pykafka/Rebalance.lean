import Pykafka.Stop
import Pykafka.Frames

/-! `_rebalance` alone.

A `_rebalance` call of member `m` that runs while no other party moves: the thread
that runs it takes every step, from a state reached without a leader change. Its
head commits offsets, takes the lock and checks `_running` (`rebalance_begin`); the
first pass of the loop reads the participants and registers `m` if it has no record
(`rebalance_register`); with an empty assignment the call stops the member
(`rebalance_stop`); otherwise it deletes the records it holds outside the assignment
and creates those it lacks, which leaves the records with its id exactly the
assignment, whatever it held before (`owned_after_update`, `rebalance_update`), and
rebuilds the inner consumer over it (`rebalance_finish`); `rebalance_alone_settles`
chains these. `_check_held_partitions` then returns `True` (`checkHeld_alone`).
`rebalance_alone` puts these together.

It needs `m`'s participant record, or room for one: a member whose record vanished
and which finds as many participants as partitions raises the capacity error from
`_add_self` (`rebalance_raises_over_capacity`). And it needs at least one pass of
the loop: with `rebalance_max_retries = 0` the call returns having claimed nothing
(`rebalance_without_retries_claims_nothing`). A pass that raises after
`_remove_partitions` has deleted records leaves the inner consumer over partitions the
member no longer holds (`consumer_partitions_without_records`). -/
namespace Pykafka

theorem Sys.setStack_eq_self {s : Sys} {i : Nat} {self : String} {fs : List Frame}
    (h : s.threads[i]? = some ⟨self, fs⟩) : s.setStack i self fs = s := by
  have : s.threads.set i ⟨self, fs⟩ = s.threads := List.ext_getElem? fun j => by
    rw [List.getElem?_set]
    split
    · subst_vars
      rw [if_pos (List.getElem?_eq_some_iff.mp h).1, h]
    · rfl
  unfold Sys.setStack
  rw [this]

theorem NamedBy.of_setStack {T : Topic} {s : Sys} {i : Nat} {self : String} {fs : List Frame}
    (h : NamedBy T (s.setStack i self fs)) : NamedBy T s :=
  ⟨h.topic, h.owners, h.ids⟩

/-- With every participant record holding the topic's name, `_get_participants` keeps them all. -/
theorem NamedBy.filter_isParticipant {T : Topic} {s : Sys} (hN : NamedBy T s) (m : String) :
    s.store.ids.children.filter (s.isParticipant m) = s.store.ids.children := by
  refine List.filter_eq_self.mpr fun c hc => ?_
  obtain ⟨node, hn⟩ := Dir.mem_children.mp hc
  simpa [Sys.isParticipant, Dir.get_eq_some.mpr hn, hN.topic m] using hN.ids _ hn

@[simp] theorem Member.lock_session (M : Member) : M.lock.session = M.session := rfl
@[simp] theorem Member.unlock_session (M : Member) : M.unlock.session = M.session := rfl
@[simp] theorem Member.setupInternalConsumer_session (M : Member) (ps : List Nat) :
    (M.setupInternalConsumer ps).session = M.session := rfl

/-- `commit_offsets()` passes when no background error is stored and the inner consumer
commits. -/
theorem Member.commitOffsets_true {M : Member} (hexc : M.workerException = none)
    (hc : M.consumer.isSome) : M.commitOffsets true = .ok () := by
  obtain ⟨c, hc⟩ := Option.isSome_iff_exists.mp hc
  unfold commitOffsets raiseWorkerExceptions
  rw [hexc, hc]
  rfl

/-- `_decide_partitions` and what follows it, for an assignment `A`. -/
theorem assign_eq {s : Sys} {m : String} {T : Topic} {ps : List String} {A : List Partition}
    (hT : (s.members m).topic = T) (hA : decidePartitions T m ps = some A) (k : Nat) (fs : List Frame) :
    assign s m fs k ps = some (s, if A = [] then .rebalance (.release true) :: fs
      else .getHeldPartitions none [] :: .rebalance (.held k (A.map Partition.id) none) :: fs) := by
  simp only [assign, hT, hA]
  split_ifs <;> rfl

/-- **`_remove_partitions(H - A)` then `_add_partitions(A - H)` leave `A`.** Whatever the
records `H` with the member's id were, those with its id afterwards are exactly `A`'s. -/
theorem owned_after_update {T : Topic} {m : String} {sid : Nat} {D d₁ d₂ : Dir} {h ids : List Nat}
    (hchar : ∀ id, id ∈ h ↔ ∃ n, D.get (T.pathOf id) = some n ∧ n.value = m)
    (hd₁ : ∀ e, e ∈ d₁.entries ↔ e ∈ D.entries ∧ ∀ p ∈ h.filter (· ∉ ids), e.1 ≠ T.pathOf p)
    (hd₂ : ∀ e, e ∈ d₂.entries ↔ e ∈ d₁.entries ∨ ∃ p ∈ ids.filter (· ∉ h), e = (T.pathOf p, ⟨m, sid⟩))
    (id : Nat) : (∃ n, d₂.get (T.pathOf id) = some n ∧ n.value = m) ↔ id ∈ ids := by
  simp only [Dir.get_eq_some, hd₂, hd₁, List.mem_filter, decide_eq_true_eq, Prod.mk.injEq, Topic.pathOf_inj]
  constructor
  · rintro ⟨n, ⟨hD, hne⟩ | ⟨p, ⟨hp, -⟩, rfl, -⟩, hv⟩
    · by_contra hid
      exact hne id ⟨(hchar id).mpr ⟨n, Dir.get_eq_some.mpr hD, hv⟩, hid⟩ rfl
    · exact hp
  · intro hid
    by_cases hh : id ∈ h
    · obtain ⟨n, hn, hv⟩ := (hchar id).mp hh
      exact ⟨n, .inl ⟨Dir.get_eq_some.mp hn, fun p hp he => hp.2 (Topic.pathOf_inj.mp he ▸ hid)⟩, hv⟩
    · exact ⟨⟨m, sid⟩, .inr ⟨id, ⟨hid, hh⟩, rfl, rfl⟩, rfl⟩

section
variable {s : Sys} {i : Nat} {m : String} (ok : Bool) {sid : Nat}

/-- **The head of `_rebalance`**: `commit_offsets()`, the lock, the `_running` check, and
the first pass of the loop. -/
theorem rebalance_begin (hi : i < s.threads.length) (hrun : (s.members m).running = true)
    (hexc : (s.members m).workerException = none) (hlock : (s.members m).locked = false)
    (hretry : 1 ≤ (s.members m).config.rebalanceMaxRetries) (fs : List Frame) :
    Reachable (· = .run i true) (s.setStack i m (.rebalance .commit :: fs))
      ((s.setMember m Member.lock).setStack i m
        (.getParticipants none [] :: .rebalance (.participants 0 none) :: fs)) := by
  have hretry' : 0 < (s.members m).config.rebalanceMaxRetries.toNat := by omega
  apply Reachable.run_step hi
  · simp only [stepFrame, Sys.setStack_members]
    split
    · rw [Member.commitOffsets_true hexc ‹_›]
    · rfl
  simp only [Sys.setStack_setStack]
  apply Reachable.run_step hi
  · simp only [stepFrame, Sys.setStack_members, hlock, Bool.false_eq_true, if_false]
    rfl
  simp only [Sys.setMember_setStack, Sys.setStack_setStack]
  apply Reachable.run_step (by simpa using hi)
  · simp only [stepFrame, Sys.setStack_members, Sys.setMember_members, if_true, Member.lock, hrun,
      hretry', Bool.not_true, Bool.false_eq_true, if_false]
    rfl
  simpa using .refl

/-- **Registration alone**: `_get_participants`, and `_add_self` when `m` has no participant
record, end at the assignment `_decide_partitions` makes over the registered members and `m`. -/
theorem rebalance_register {T : Topic} (hN : NamedBy T s) (hi : i < s.threads.length)
    (hs : (s.members m).session = .ok sid)
    (hcap : m ∈ s.store.ids.children ∨ s.store.ids.children.length < T.partitions.length)
    {A : List Partition} (hA : decidePartitions T m (s.store.ids.children.insert m) = some A)
    (k : Nat) (fs : List Frame) :
    ∃ d, (m ∈ s.store.ids.children ∧ d = s.store.ids ∨ s.store.ids.create m ⟨T.name, sid⟩ = some d) ∧
      Reachable (· = .run i ok)
      (s.setStack i m (.getParticipants none [] :: .rebalance (.participants k none) :: fs))
      ((s.setIds d).setStack i m (if A = [] then .rebalance (.release true) :: fs
        else .getHeldPartitions none [] :: .rebalance (.held k (A.map Partition.id) none) :: fs)) := by
  have hT := hN.topic m
  have hX := hN.filter_isParticipant m
  have hP := List.perm_insertionSort strLE s.store.ids.children
  by_cases hm : m ∈ s.store.ids.children
  · -- `self._consumer_id in participants`
    have hA' : decidePartitions T m (sortedParticipants s.store.ids.children) = some A := by
      rw [← hA, List.insert_of_mem hm]
      exact decidePartitions_perm rfl (.refl _) hP m
    refine ⟨s.store.ids, .inl ⟨hm, rfl⟩, (getParticipants_alone ok hi hs _).trans ?_⟩
    rw [Sys.setIds_self]
    apply Reachable.run_step hi
    · simp only [ret, Frame.deliver, stepFrame, hX, mem_sortedParticipants, hm, if_true]
      exact assign_eq (by simpa using hT) hA' _ _
    · simpa using .refl
  · -- `self._add_self()` and `participants.append(self._consumer_id)`
    have hcap' : (s.store.ids.children.filter (s.isParticipant m)).length < (s.members m).topic.partitions.length := by
      rw [hX, hT]
      exact hcap.resolve_left hm
    obtain ⟨d, hd, hr⟩ := addSelf_alone ok hi hs hcap' hm (.rebalance (.addSelf k (sortedParticipants s.store.ids.children) false) :: fs)
    refine ⟨d, .inr (hT ▸ hd), (getParticipants_alone ok hi hs _).trans ?_⟩
    apply Reachable.run_step hi
    · simp only [ret, Frame.deliver, stepFrame, hX, mem_sortedParticipants, hm, if_false]
      rfl
    refine Reachable.trans (by simpa using hr) ?_
    apply Reachable.run_step (by simpa using hi)
    · have hA' : decidePartitions T m (sortedParticipants s.store.ids.children ++ [m]) = some A := by
        rw [← hA, List.insert_of_not_mem hm]
        exact decidePartitions_perm rfl (.refl _) ((List.perm_append_singleton _ _).trans (hP.cons m)) m
      simp only [ret, Frame.deliver, stepFrame]
      exact assign_eq (by simpa using hT) hA' _ _
    · simpa using .refl

/-- **The update of the registry alone.** From `_get_held_partitions()` on, `_rebalance`
reaches the comparison with the inner consumer's partitions holding records with `m`'s
id for exactly `ids`, when no other member holds a record of `ids`. -/
theorem rebalance_update {T : Topic} (hN : NamedBy T s)
    (hW : ∀ n ∈ s.store.owners.children, ∃ id ∈ T.ids, slugId n = some id) (hi : i < s.threads.length)
    (hs : (s.members m).session = .ok sid) {ids : List Nat} (hnd : ids.Nodup)
    (hfree : ∀ id ∈ ids, ∀ node ∈ s.store.owners.get (T.pathOf id), node.value = m) (k : Nat)
    (fs : List Frame) :
    ∃ d, (∀ id, (∃ node, d.get (T.pathOf id) = some node ∧ node.value = m) ↔ id ∈ ids) ∧
      Reachable (· = .run i ok)
        (s.setStack i m (.getHeldPartitions none [] :: .rebalance (.held k ids none) :: fs))
        ((s.setOwners d).setStack i m (.rebalance (.added k ids true) :: fs)) := by
  have hT := hN.topic m
  obtain ⟨h, hhnd, hchar, hr⟩ := getHeldPartitions_alone ok hN hW hi hs (.rebalance (.held k ids none) :: fs)
  -- `self._remove_partitions(current_zk_parts - new_partitions)`
  have hex : ∀ p ∈ h.filter (· ∉ ids), (s.members m).topic.pathOf p ∈ s.store.owners.children := by
    intro p hp
    obtain ⟨n, hn, -⟩ := (hchar p).mp (List.mem_of_mem_filter hp)
    rw [hT]
    exact Dir.mem_children.mpr ⟨n, Dir.get_eq_some.mp hn⟩
  obtain ⟨d₁, hd₁, hr₁⟩ := removePartitions_alone ok (.rebalance (.removed k ids h false) :: fs)
    (h.filter (· ∉ ids)) s hi hs (hhnd.filter _) hex
  rw [hT] at hd₁
  -- `self._add_partitions(new_partitions - current_zk_parts)`
  have hnot : ∀ p ∈ ids.filter (· ∉ h),
      ((s.setOwners d₁).members m).topic.pathOf p ∉ (s.setOwners d₁).store.owners.children := by
    intro p hp hin
    simp only [List.mem_filter, decide_eq_true_eq] at hp
    simp only [Sys.setOwners_members, Sys.setOwners_owners, hT] at hin
    obtain ⟨node, hn⟩ := Dir.mem_children.mp hin
    have hD := ((hd₁ _).mp hn).1
    exact hp.2 ((hchar p).mpr ⟨node, Dir.get_eq_some.mpr hD, hfree p hp.1 node (Dir.get_eq_some.mpr hD)⟩)
  obtain ⟨d₂, hd₂, hr₂⟩ := addPartitions_alone ok (.rebalance (.added k ids false) :: fs)
    (ids.filter (· ∉ h)) (s.setOwners d₁) (by simpa using hi) (by simpa using hs) (hnd.filter _) hnot
  simp only [Sys.setOwners_owners, Sys.setOwners_members, hT] at hd₂
  refine ⟨d₂, owned_after_update hchar hd₁ hd₂, hr.trans ?_⟩
  simp only [ret, Frame.deliver]
  refine Reachable.run_step hi rfl ?_
  simp only [Sys.setStack_setStack]
  refine hr₁.trans ?_
  simp only [ret, Frame.deliver]
  refine Reachable.run_step (by simpa using hi) rfl ?_
  simpa using hr₂

/-- **The tail of `_rebalance`**: the inner consumer is rebuilt over `ids` unless it holds
them already, and the lock is released. -/
theorem rebalance_finish (hi : i < s.threads.length) (k : Nat) (ids : List Nat) (fs : List Frame) :
    ∃ s' : Sys, s'.store = s.store ∧ s'.threads = s.threads ∧
      s'.members m = {s.members m with consumer := (s'.members m).consumer, locked := false} ∧
      (∀ id, id ∈ (s'.members m).partitions ↔ id ∈ ids) ∧
      Reachable (· = .run i ok) (s.setStack i m (.rebalance (.added k ids true) :: fs))
        (s'.setStack i m (ret .unit fs)) := by
  by_cases hsame : sameSet ids (s.members m).partitions
  · -- `new_partitions == self._partitions`
    have := of_decide_eq_true hsame
    refine ⟨s.setMember m Member.unlock, rfl, rfl, by simp [Member.unlock], fun id => ⟨fun h => this.2 (by simpa [Member.partitions, Member.unlock] using h), fun h => by simpa [Member.partitions, Member.unlock] using this.1 h⟩, ?_⟩
    apply Reachable.run_step hi
    · simp only [stepFrame, Sys.setStack_members, hsame, if_true]
      rfl
    simp only [Sys.setStack_setStack]
    apply Reachable.run_step hi
    · rfl
    simpa using .refl
  · -- `self._setup_internal_consumer(list(new_partitions))`
    refine ⟨(s.setMember m (·.setupInternalConsumer ids)).setMember m Member.unlock, rfl, rfl,
      by simp [Member.unlock, Member.setupInternalConsumer],
      fun id => by simp [Member.partitions, Member.unlock, Member.setupInternalConsumer], ?_⟩
    apply Reachable.run_step hi
    · simp only [stepFrame, Sys.setStack_members, hsame, Bool.false_eq_true, if_false]
      rfl
    simp only [Sys.setMember_setStack, Sys.setStack_setStack]
    apply Reachable.run_step (by simpa using hi)
    · rfl
    simpa using .refl

/-- **`should_stop`**: with nothing assigned, `_rebalance` releases the lock and calls `stop()`,
which leaves the member stopped. -/
theorem rebalance_stop {T : Topic} (hN : NamedBy T s)
    (hW : ∀ n ∈ s.store.owners.children, ∃ id ∈ T.ids, slugId n = some id) (hi : i < s.threads.length)
    (hs : (s.members m).session = .ok sid) (fs : List Frame) :
    ∃ s' : Sys, Reachable (· = .run i ok) (s.setStack i m (.rebalance (.release true) :: fs))
      (s'.setStack i m (ret .unit fs)) ∧ (s'.members m).running = false := by
  have hN' : NamedBy T (s.setMember m Member.unlock) := hN.setMember rfl
  have hs' : ((s.setMember m Member.unlock).members m).session = .ok sid := by simpa using hs
  obtain ⟨s', hr, hrun, -⟩ := stop_alone ok hN' hW (by simpa using hi) hs' (by simp [Member.unlock])
    (.rebalance (.stopping false) :: fs)
  refine ⟨s', ?_, hrun⟩
  refine Reachable.run_step hi rfl ?_
  simp only [Sys.setMember_setStack, Sys.setStack_setStack]
  have hi' : i < s'.threads.length := by
    have := hr.threads_length_le
    simp only [Sys.setStack_length, Sys.setMember_threads] at this
    omega
  refine hr.trans ?_
  simp only [ret, Frame.deliver]
  exact Reachable.run_step hi' rfl (by simpa using .refl)

/-- **`_check_held_partitions` alone** returns `True` when the records with the member's id
are exactly its inner consumer's partitions. -/
theorem checkHeld_alone {T : Topic} (hN : NamedBy T s)
    (hW : ∀ n ∈ s.store.owners.children, ∃ id ∈ T.ids, slugId n = some id) (hi : i < s.threads.length)
    (hs : (s.members m).session = .ok sid)
    (hsame : ∀ id, (∃ node, s.store.owners.get (T.pathOf id) = some node ∧ node.value = m) ↔
      id ∈ (s.members m).partitions) (fs : List Frame) :
    Reachable (· = .run i ok) (s.setStack i m (.getHeldPartitions none [] :: .checker (.held none) :: fs))
      (s.setStack i m (.checker .loop :: fs)) := by
  obtain ⟨h, -, hchar, hr⟩ := getHeldPartitions_alone ok hN hW hi hs (.checker (.held none) :: fs)
  have hss : sameSet h (s.members m).partitions = true :=
    decide_eq_true ⟨fun id hid => (hsame id).mp ((hchar id).mp hid),
      fun id hid => (hchar id).mpr ((hsame id).mpr hid)⟩
  refine hr.trans ?_
  simp only [ret, Frame.deliver]
  apply Reachable.run_step hi
  · simp only [stepFrame, Sys.setStack_members, hss, if_true]
    rfl
  simpa using .refl

end

/-- The states a thread's steps reach from a state reached without a leader change are
reached without one too: the topic names their records, and they are well formed. -/
theorem Reachable.named_wf {config : String → Config} {T : Topic} {brokers : Bool} {n : Nat} {s s' : Sys}
    (hreach : Reachable (fun e => e.isLeader = false) (Sys.init config (fun _ => T) brokers n) s) {i : Nat} {ok : Bool}
    (h : Reachable (· = .run i ok) s s') : NamedBy T s' ∧ Wf T s' :=
  have h' := hreach.trans (h.mono fun e he => by subst he; rfl)
  ⟨NamedBy.reachable h', Wf.reachable h'⟩

/-- A `_rebalance` call run alone with a non-empty assignment `A` registers `m`, leaves the
records with `m`'s id and its inner consumer exactly over `A`, lets go of the lock and
changes no other field of `m`. -/
theorem rebalance_alone_settles {config : String → Config} {T : Topic} {brokers : Bool} {n : Nat} {s : Sys}
    (hreach : Reachable (fun e => e.isLeader = false) (Sys.init config (fun _ => T) brokers n) s)
    {i : Nat} {m : String} {fs : List Frame} (ht : s.threads[i]? = some ⟨m, .rebalance .commit :: fs⟩)
    {sid : Nat} (hs : (s.members m).session = .ok sid) (hrun : (s.members m).running = true)
    (hexc : (s.members m).workerException = none) (hlock : (s.members m).locked = false)
    (hretry : 1 ≤ (s.members m).config.rebalanceMaxRetries)
    (hcap : m ∈ s.store.ids.children ∨ s.store.ids.children.length < T.partitions.length)
    {A : List Partition} (hA : decidePartitions T m (s.store.ids.children.insert m) = some A) (hA0 : A ≠ [])
    (hfree : ∀ p ∈ A, ∀ node ∈ s.store.owners.get (T.pathOf p.id), node.value = m) :
    ∃ s', Reachable (· = .run i true) s s' ∧ s'.threads[i]? = some ⟨m, ret .unit fs⟩ ∧
      s'.members m = {s.members m with consumer := (s'.members m).consumer} ∧
      s'.store.ids.children = s.store.ids.children.insert m ∧
      (∀ id, (∃ node, s'.store.owners.get (T.pathOf id) = some node ∧ node.value = m) ↔
        id ∈ A.map Partition.id) ∧
      (∀ id, id ∈ (s'.members m).partitions ↔ id ∈ A.map Partition.id) := by
  have hi : i < s.threads.length := (List.getElem?_eq_some_iff.mp ht).1
  -- `commit_offsets()`, the lock and the `_running` check
  have r₁ := rebalance_begin hi hrun hexc hlock hretry fs
  rw [Sys.setStack_eq_self ht] at r₁
  -- `_get_participants()`, and `_add_self()` if `m` is not among them
  obtain ⟨d, hd, r₂⟩ := rebalance_register true (hreach.named_wf r₁).1.of_setStack (by simpa using hi)
    (by simpa using hs) hcap hA 0 fs
  rw [if_neg hA0] at r₂
  have r₁₂ := r₁.trans r₂
  have hs₂ : (((s.setMember m Member.lock).setIds d).members m).session = .ok sid := by simpa using hs
  -- the records outside `A` deleted, those of `A` created
  obtain ⟨d', hd', r₃⟩ := rebalance_update true (hreach.named_wf r₁₂).1.of_setStack
    (by simpa using (hreach.named_wf r₁₂).2.owners) (by simpa using hi) hs₂ (decidePartitions_ids_nodup hA)
    (fun id hid node hn => by
      obtain ⟨p, hp, rfl⟩ := List.mem_map.mp hid
      exact hfree p hp node (by simpa using hn)) 0 fs
  -- the inner consumer over `A`, and the lock let go of
  obtain ⟨s', hst, hth, hmem, hparts, r₄⟩ :=
    @rebalance_finish (((s.setMember m Member.lock).setIds d).setOwners d') _ m true (by simpa using hi) 0
      (A.map Partition.id) fs
  have hm : s'.members m = {s.members m with consumer := (s'.members m).consumer} := by
    rw [hmem]; simp [Member.lock, hlock]
  have hids : d.children = s.store.ids.children.insert m := by
    simp only [Sys.setMember_store] at hd
    rcases hd with ⟨hreg, rfl⟩ | hc
    · exact (List.insert_of_mem hreg).symm
    · rw [Dir.children_create hc, List.insert_of_not_mem (Dir.create_eq_some.mp hc).1]
  refine ⟨_, r₁₂.trans (r₃.trans r₄), Sys.setStack_getElem? (by simpa [hth] using hi),
    by simpa only [Sys.setStack_members] using hm, by simpa [hst] using hids, by simpa [hst] using hd',
    by simpa using hparts⟩

/-- **`_rebalance` alone.** In a state reached without a leader change, let thread `i` be a
`_rebalance` call of the running member `m`, with its client's session open, no stored
background error, the lock free and at least one retry, and let `m` have a participant
record or room for one. Let `A` be `_decide_partitions` over the registered members and
`m`, and let no other member hold a record of `A`. Run alone, with the offset commit
succeeding, the call returns normally. With `A` empty it has stopped `m`; otherwise the
records with `m`'s id are exactly `A`'s, the inner consumer holds exactly `A`, and
`_check_held_partitions` then returns `True`. -/
theorem rebalance_alone {config : String → Config} {T : Topic} {brokers : Bool} {n : Nat} {s : Sys}
    (hreach : Reachable (fun e => e.isLeader = false) (Sys.init config (fun _ => T) brokers n) s)
    {i : Nat} {m : String} {fs : List Frame} (ht : s.threads[i]? = some ⟨m, .rebalance .commit :: fs⟩)
    {sid : Nat} (hs : (s.members m).session = .ok sid) (hrun : (s.members m).running = true)
    (hexc : (s.members m).workerException = none) (hlock : (s.members m).locked = false)
    (hretry : 1 ≤ (s.members m).config.rebalanceMaxRetries)
    (hcap : m ∈ s.store.ids.children ∨ s.store.ids.children.length < T.partitions.length)
    {A : List Partition} (hA : decidePartitions T m (s.store.ids.children.insert m) = some A)
    (hfree : ∀ p ∈ A, ∀ node ∈ s.store.owners.get (T.pathOf p.id), node.value = m) :
    ∃ s', Reachable (· = .run i true) s s' ∧ s'.threads[i]? = some ⟨m, ret .unit fs⟩ ∧
      (A = [] → (s'.members m).running = false) ∧
      (A ≠ [] →
        (∀ id, (∃ node, s'.store.owners.get (T.pathOf id) = some node ∧ node.value = m) ↔
          id ∈ A.map Partition.id) ∧
        (∀ id, id ∈ (s'.members m).partitions ↔ id ∈ A.map Partition.id) ∧
        ∀ j fs', j < s'.threads.length → Reachable (· = .run j true)
          (s'.setStack j m (.getHeldPartitions none [] :: .checker (.held none) :: fs'))
          (s'.setStack j m (.checker .loop :: fs'))) := by
  by_cases hA0 : A = []
  · -- `should_stop`
    have hi : i < s.threads.length := (List.getElem?_eq_some_iff.mp ht).1
    have r₁ := rebalance_begin hi hrun hexc hlock hretry fs
    rw [Sys.setStack_eq_self ht] at r₁
    obtain ⟨d, -, r₂⟩ := rebalance_register true (hreach.named_wf r₁).1.of_setStack (by simpa using hi)
      (by simpa using hs) hcap hA 0 fs
    rw [if_pos hA0] at r₂
    have r₁₂ := r₁.trans r₂
    have hs₂ : (((s.setMember m Member.lock).setIds d).members m).session = .ok sid := by simpa using hs
    obtain ⟨s', r₃, hstop⟩ := rebalance_stop true (hreach.named_wf r₁₂).1.of_setStack
      (by simpa using (hreach.named_wf r₁₂).2.owners) (by simpa using hi) hs₂ fs
    have hi' : i < s'.threads.length := by
      have := r₃.threads_length_le
      simp only [Sys.setStack_length, Sys.setIds_threads, Sys.setMember_threads] at this
      omega
    exact ⟨_, r₁₂.trans r₃, Sys.setStack_getElem? hi', fun _ => by simpa using hstop,
      fun h => absurd hA0 h⟩
  · obtain ⟨s', r, ht', hm, -, hown, hparts⟩ :=
      rebalance_alone_settles hreach ht hs hrun hexc hlock hretry hcap hA hA0 hfree
    refine ⟨s', r, ht', fun h => absurd h hA0, fun _ => ⟨hown, hparts, fun j fs' hj => ?_⟩⟩
    obtain ⟨hN, hWf⟩ := hreach.named_wf r
    exact checkHeld_alone true hN hWf.owners hj (by rw [hm]; exact hs)
      (fun id => (hown id).trans (hparts id).symm) fs'

/-- `a` starts alone on `twoPartitions` and claims both partitions; `b` starts and
registers; before `b` rebalances, a watch fires at `a`, whose callback calls `_rebalance`. -/
def watchRun : List Event :=
  [.call "a" .start] ++ List.replicate 26 (.run 0 true) ++ [.call "b" .start] ++
    List.replicate 6 (.run 2 true) ++ [.call "a" .watch, .run 3 true]

/-- The state `watchRun` reaches: the watch callback's `_rebalance` of `a` is about to
commit offsets, under the conditions of `rebalance_alone`, with `a` given partition 0
only while it still holds the record of partition 1. -/
theorem watchRun_ready :
    ∃ s, Reachable (fun e => e.isLeader = false) (Sys.init (fun _ => {}) (fun _ => twoPartitions) true 0) s ∧
      s.threads[3]? = some ⟨"a", [.rebalance .commit, .watch (.rebalance false)]⟩ ∧
      (s.members "a").session = .ok 0 ∧ (s.members "a").running = true ∧
      (s.members "a").workerException = none ∧ (s.members "a").locked = false ∧
      1 ≤ (s.members "a").config.rebalanceMaxRetries ∧
      ("a" ∈ s.store.ids.children ∨ s.store.ids.children.length < twoPartitions.partitions.length) ∧
      decidePartitions twoPartitions "a" (s.store.ids.children.insert "a") = some [⟨0, 1⟩] ∧
      (∀ p ∈ [(⟨0, 1⟩ : Partition)], ∀ node ∈ s.store.owners.get (twoPartitions.pathOf p.id), node.value = "a") ∧
      ∃ node, s.store.owners.get (twoPartitions.pathOf 1) = some node ∧ node.value = "a" := by
  obtain ⟨s, hr, ht, hz, h⟩ :=
    @Reachable.exists_of_run (fun e => e.isLeader = false) (Sys.init (fun _ => {}) (fun _ => twoPartitions) true 0)
      (fun s => s.threads[3]? = some ⟨"a", [.rebalance .commit, .watch (.rebalance false)]⟩ ∧
      (s.members "a").zookeeper = some ⟨0, false⟩ ∧ (s.members "a").running = true ∧
      (s.members "a").workerException = none ∧ (s.members "a").locked = false ∧
      1 ≤ (s.members "a").config.rebalanceMaxRetries ∧
      ("a" ∈ s.store.ids.children ∨ s.store.ids.children.length < twoPartitions.partitions.length) ∧
      decidePartitions twoPartitions "a" (s.store.ids.children.insert "a") = some [⟨0, 1⟩] ∧
      (∀ p ∈ [(⟨0, 1⟩ : Partition)], ∀ node ∈ s.store.owners.get (twoPartitions.pathOf p.id), node.value = "a") ∧
      ∃ node ∈ s.store.owners.get (twoPartitions.pathOf 1), node.value = "a")
      _ watchRun (by decide) (by decide)
  obtain ⟨h₁, h₂, h₃, h₄, h₅, h₆, h₇, node, hn, hv⟩ := h
  exact ⟨s, hr, ht, by unfold Member.session; rw [hz]; rfl, h₁, h₂, h₃, h₄, h₅, h₆, h₇, node, hn, hv⟩

/-- `a`'s watch callback, after `b` registered: `a` is given partition 0 only, and its
`_rebalance`, run alone, deletes the record of partition 1 it held and keeps that of 0. -/
theorem rebalance_alone_watch :
    ∃ s, Reachable (fun e => e.isLeader = false) (Sys.init (fun _ => {}) (fun _ => twoPartitions) true 0) s ∧
      s.threads[3]? = some ⟨"a", [.rebalance .commit, .watch (.rebalance false)]⟩ ∧
      (∃ node, s.store.owners.get (twoPartitions.pathOf 1) = some node ∧ node.value = "a") ∧
      ∃ s', Reachable (· = .run 3 true) s s' ∧ s'.threads[3]? = some ⟨"a", [.watch (.rebalance true)]⟩ ∧
        ∀ id, (∃ node, s'.store.owners.get (twoPartitions.pathOf id) = some node ∧ node.value = "a") ↔
          id ∈ [0] := by
  obtain ⟨s, hr, ht, hs, hrun, hexc, hlock, hretry, hcap, hA, hfree, hheld⟩ := watchRun_ready
  obtain ⟨s', hr', ht', -, hne⟩ := rebalance_alone hr ht hs hrun hexc hlock hretry hcap hA hfree
  exact ⟨s, hr, ht, hheld, s', hr', ht', (hne (List.cons_ne_nil _ _)).1⟩

/-- `a` starts alone and claims partition 0; its session expires, which removes both its
records while it keeps running; `b` starts and registers, and before `b` rebalances a
watch fires at `a`. -/
def capacityRun : List Event :=
  [.call "a" .start] ++ List.replicate 25 (.run 0 true) ++ [.expire 0, .call "b" .start] ++
    List.replicate 7 (.run 2 true) ++ [.call "a" .watch, .run 3 true]

/-- After `capacityRun`, `a` is running with no stored error, `_decide_partitions` over `b`
and `a` gives `a` partition 0, and no member holds a record. Run alone, `a`'s `_rebalance`
raises the capacity error of `_add_self`, which the watch callback stores. -/
theorem rebalance_raises_over_capacity :
    ∃ s, Reachable (fun e => e.isLeader = false) (Sys.init (fun _ => {}) (fun _ => onePartition) true 0) s ∧
      s.threads[3]? = some ⟨"a", [.rebalance .commit, .watch (.rebalance false)]⟩ ∧
      (s.members "a").running = true ∧ (s.members "a").workerException = none ∧
      decidePartitions onePartition "a" (s.store.ids.children.insert "a") = some [⟨0, 1⟩] ∧
      s.store.owners.entries = [] ∧
      ∃ s', Reachable (· = .run 3 true) s s' ∧ s'.threads[3]? = some ⟨"a", []⟩ ∧
        (s'.members "a").workerException = some capacityError := by
  obtain ⟨s, hr, ht, hrun, hexc, hA, ho, hraise⟩ :=
    @Reachable.exists_of_run (fun e => e.isLeader = false) (Sys.init (fun _ => {}) (fun _ => onePartition) true 0)
      (fun s => s.threads[3]? = some (⟨"a", [.rebalance .commit, .watch (.rebalance false)]⟩ : Thread) ∧
        (s.members "a").running = true ∧ (s.members "a").workerException = none ∧
        decidePartitions onePartition "a" (s.store.ids.children.insert "a") = some [⟨0, 1⟩] ∧
        s.store.owners.entries = [] ∧
        (s.run (List.replicate 11 (.run 3 true))).map (fun s' => decide (s'.threads[3]? = some (⟨"a", []⟩ : Thread) ∧
          (s'.members "a").workerException = some capacityError)) = some true)
      _ capacityRun (by decide) (by decide)
  exact ⟨s, hr, ht, hrun, hexc, hA, ho,
    Reachable.exists_of_run _ _ (fun _ he => List.eq_of_mem_replicate he) hraise⟩

/-- With `rebalance_max_retries = 0`, `a` starts alone and `start` returns normally, with
`a` running and registered: its `_rebalance` made no pass of the loop, so no partition has
a record and there is no inner consumer. -/
theorem rebalance_without_retries_claims_nothing :
    ∃ s, Reachable (fun e => e.isLeader = false ∧ e.isExpire = false)
        (Sys.init (fun _ => {rebalanceMaxRetries := 0}) (fun _ => onePartition) true 0) s ∧
      s.threads = [⟨"a", []⟩, ⟨"a", [.checker .loop]⟩] ∧ s.store.ids.children = ["a"] ∧
      s.store.owners.entries = [] ∧ (s.members "a").running = true ∧ (s.members "a").consumer = none :=
  Reachable.exists_of_run _ ([.call "a" .start] ++ List.replicate 13 (.run 0 true)) (by decide) (by decide)

/-- Four partitions, all led by broker 1. -/
def fourPartitions : Topic := ⟨"t", [⟨0, 1⟩, ⟨1, 1⟩, ⟨2, 1⟩, ⟨3, 1⟩], by decide⟩

/-- With `rebalance_max_retries = 1`: `a` starts alone on `fourPartitions` and claims all
four. `b` registers; a watch fires at `a`, whose `_rebalance` keeps partitions 0 and 1 and
rebuilds the inner consumer over them; `b` then claims 2 and 3. A member `0` registers,
sorting first, and a watch fires at `a`: its `_rebalance` decides partition 2, deletes the
records of 0 and 1, and raises `PartitionOwnedError` creating `1-2`, which `b` holds. -/
def partitionOwnedRun : List Event :=
  [.call "a" .start] ++ List.replicate 28 (.run 0 true) ++ [.call "b" .start] ++
    List.replicate 7 (.run 2 true) ++ [.call "a" .watch] ++ List.replicate 24 (.run 3 true) ++
    List.replicate 23 (.run 2 true) ++ [.call "0" .start] ++ List.replicate 7 (.run 5 true) ++
    [.call "a" .watch] ++ List.replicate 22 (.run 6 true)

/-- After `partitionOwnedRun`, with no session loss and no leader change, `a` is running
and no `_rebalance` of `a` is executing, the watch callback having stored the error; but
its inner consumer still holds partitions 0 and 1, whose records the failed pass deleted. -/
theorem consumer_partitions_without_records :
    ∃ s, Reachable (fun e => e.isLeader = false ∧ e.isExpire = false)
        (Sys.init (fun _ => {rebalanceMaxRetries := 1}) (fun _ => fourPartitions) true 0) s ∧
      (s.members "a").running = true ∧
      (∀ t ∈ s.threads, t.self = "a" → t.stack = [] ∨ t.stack = [.checker .loop]) ∧
      (s.members "a").partitions = [0, 1] ∧
      s.store.owners.get (fourPartitions.pathOf 0) = none ∧ s.store.owners.get (fourPartitions.pathOf 1) = none ∧
      (s.members "a").workerException = some (.partitionOwned 2) :=
  Reachable.exists_of_run _ partitionOwnedRun (by decide) (by decide)

end Pykafka
