import Pykafka.Failure

/-! Ownership before consumption.

`_rebalance` builds the inner consumer over `new_partitions` only once
`_add_partitions` has created their records, and `_remove_partitions` deletes only the
records `_get_held_partitions` read back as the member's. With no session loss, no
leader change and every member on a client of its own, what every lock holder takes to
be its member's (`Claims`) stays so while any thread steps (`Claimed.reachable`): the
holder's own steps keep it (`stepFrame_claims`); another member deletes only records
with its own id, and another thread of the same member holds no lock, so it deletes
nothing (`removal_owned`); closing a client ends only that client's session, on which
no other member's record lives (`Sessions`).

Two things follow for every step of every such run. Whenever a member's inner consumer
is rebuilt, every partition it is built over has an ownership record with the member's
id, unless the member's client has been stopped (`consumer_built_over_owned`). And an
ownership record only ever leaves the coordinator by a step of the member whose id it
holds (`owners_removed_by_owner`); a leader change breaks this
(`removePartitions_deletes_peer_record`). -/
namespace Pykafka

/-! ### Sessions along a run -/

namespace Sessions

variable {s s' : Sys}

theorem init {config : String → Config} (hown : ∀ x, (config x).ownsZookeeper = true) (T : Topic)
    (brokers : Bool) (n : Nat) : Sessions (Sys.init config (fun _ => T) brokers n) := by
  have hz : ∀ x, ((Sys.init config (fun _ => T) brokers n).members x).zookeeper = none := fun x => by
    simpa [Sys.init, Member.init, Config.ownsZookeeper] using hown x
  exact ⟨fun _ h => (nomatch h), fun x _ cx _ hx => by simp [hz] at hx, fun x c hc => by simp [hz] at hc⟩

/-- The sessions are read off the coordinator, the members and the next session only. -/
theorem of_eq (h : Sessions s) (hs : s'.store = s.store) (hm : s'.members = s.members)
    (hn : s'.nextSession = s.nextSession) : Sessions s' := by
  obtain ⟨ho, hd, hf⟩ := h
  exact ⟨by rw [OwnersOnSession, hs, hm]; exact ho, by rw [hm]; exact hd, by rw [hm, hn]; exact hf⟩

theorem step {e : Event} (h : Sessions s) (hne : e.isLeader = false ∧ e.isExpire = false)
    (hs : s.step e = some s') : Sessions s' := by
  obtain ⟨i, ok, t, f, fs, r, rfl, -, -, hf, he, rfl⟩ | ⟨m, entry, rfl, rfl⟩ | ⟨sid, rfl, rfl⟩ |
    ⟨m, id, l, rfl, rfl⟩ := Sys.step_cases hs
  · exact (h.step_thread he (stepFrame_moves hf)).of_eq rfl rfl rfl
  · exact h.of_eq rfl rfl rfl
  · simp [Event.isExpire] at hne
  · simp [Event.isLeader] at hne

/-- **No two members' clients share a session, and every ownership record is on its
member's**, along every run with no session loss and no leader change in which every
member has a client of its own. -/
theorem reachable {config : String → Config} {T : Topic} {brokers : Bool} {n : Nat}
    (hown : ∀ x, (config x).ownsZookeeper = true)
    (h : Reachable (fun e => e.isLeader = false ∧ e.isExpire = false) (Sys.init config (fun _ => T) brokers n) s) :
    Sessions s :=
  h.induct Sessions (init hown T brokers n) fun _ hi he hs => hi.step he hs

end Sessions

/-! ### What a step removes -/

/-- Below `_remove_partitions` is `_rebalance` inside the lock: the other caller, `stop`,
calls it only with an injected client. -/
theorem removePartitions_caller {c : Config} (hc : c.ownsZookeeper = true) {ps : List Nat} {fs : List Frame}
    (h : StackOk c (.removePartitions ps :: fs)) :
    ∃ i new held gs, fs = .rebalance (.removed i new held false) :: gs := by
  rcases fs with _ | ⟨g, gs⟩
  · exact absurd h.stack (by simp [Frame.Stack, Frame.kind, Frame.Kind.isEntry])
  · have hg := h.stack.1
    unfold Frame.waitsOn at hg
    split at hg <;> cases hg
    · exact ⟨_, _, _, gs, rfl⟩
    · have := h.fits _ (.tail _ (.head _))
      simp [Frame.fits, hc] at this

/-- The record `_remove_partitions` deletes is its member's: the thread read it back as
its member's, and it holds the lock, on an open client. -/
theorem removal_owned {s : Sys} {T : Topic} {y : String} {c : Config} (hc : c.ownsZookeeper = true)
    {p : Nat} {ps : List Nat} {fs : List Frame} (hok : StackOk c (.removePartitions (p :: ps) :: fs))
    (hcl : Claims s T y (.removePartitions (p :: ps) :: fs)) {sid : Nat} (hsid : (s.members y).session = .ok sid) :
    Owned s T y p ∧ lockHeld (.removePartitions (p :: ps) :: fs) := by
  obtain ⟨i, new, held, gs, rfl⟩ := removePartitions_caller hc hok
  refine ⟨(hcl.2 p (by simp)).resolve_left ?_, by simp [Frame.holdsLock, Rebalance.holdsLock]⟩
  simp [Member.closed_of_session hsid]

section
variable {T : Topic} {y x : String} {f : Frame} {s s' : Sys}

/-- A client stopped before a step stays stopped. -/
theorem Moves.closed_keep (hm : Moves y f s s') (ho : ∀ z, z ≠ y → s'.members z = s.members z)
    (h : (s.members x).closed) : (s'.members x).closed := by
  by_cases hx : x = y
  · subst hx
    rcases hm.client with ⟨hz, -, -⟩ | ⟨-, hz₀, -⟩ | ⟨-, -, c, -, hz, -⟩
    · simpa [Member.closed, hz] using h
    · simp [Member.closed, hz₀] at h
    · simp [Member.closed, hz]
  · rwa [ho x hx]

/-- **A step keeps what another thread holds.** Let every record a step of a thread of
`y` deletes be `y`'s, and `y` not be `x` then. Whatever `x` held before the step, it holds
after it: a create adds a record next to the others, and closing `y`'s client ends `y`'s
session, on which no record of `x` lives. -/
theorem Holds.step_thread (hS : Sessions s) (hT : (s.members y).topic = T) (he : StepEffect y f s s')
    (hm : Moves y f s s')
    (hdel : ∀ p ps sid, f = .removePartitions (p :: ps) → (s.members y).session = .ok sid →
      Owned s T y p ∧ x ≠ y)
    {id : Nat} (h : Holds s T x id) : Holds s' T x id := by
  rcases h with hc | ⟨n, hg, hv⟩
  · exact .inl (hm.closed_keep he.others hc)
  rcases he.owners with ho | ⟨p, ps, sid, -, -, hc⟩ | ⟨p, ps, sid, rfl, hsid, hd⟩ | ⟨c, rfl, hz, ho⟩
  · exact .inr ⟨n, by rw [ho]; exact hg, hv⟩
  · -- `_add_partitions` creates a record that was not there
    refine .inr ⟨n, ?_, hv⟩
    rw [Dir.get_create hc, if_neg]
    · exact hg
    · intro hname
      exact (Dir.create_eq_some.mp hc).1 (Dir.mem_children.mpr ⟨n, Dir.get_eq_some.mp (hname ▸ hg)⟩)
  · -- `_remove_partitions` deletes a record of `y`'s
    rw [hT] at hd
    by_cases hid : id = p
    · subst hid
      obtain ⟨⟨n', hg', hv'⟩, hxy⟩ := hdel id ps sid rfl hsid
      rw [hg] at hg'
      cases hg'
      exact absurd (hv.symm.trans hv') hxy
    · exact .inr ⟨n, by rw [Dir.get_delete hd, if_neg (mt Topic.pathOf_inj.mp hid)]; exact hg, hv⟩
  · -- `self._zookeeper.stop()` ends `y`'s session
    by_cases hx : x = y
    · subst hx
      rcases hm.client with ⟨-, -, hnone⟩ | ⟨hf, -⟩ | ⟨-, -, c', -, hz', -⟩
      · rw [hnone rfl] at hz
        cases hz
      · cases hf
      · exact .inl (by simp [Member.closed, hz'])
    · obtain ⟨cx, hcx, hs⟩ := hS.owners (T.pathOf id, n) (Dir.get_eq_some.mp hg)
      refine .inr ⟨n, ?_, hv⟩
      rw [ho]
      exact Dir.get_of_expire hg fun hse => hx (hS.distinct x y cx c (hv ▸ hcx) hz (hs.trans hse))

end

/-! ### Every holder's claims along a run -/

/-- What every thread takes to be its member's holds. -/
def Claimed (T : Topic) (s : Sys) : Prop := ∀ t ∈ s.threads, Claims s T t.self t.stack

namespace Claimed

variable {T : Topic} {s s' : Sys}

theorem step (hown : ∀ x, (s.members x).config.ownsZookeeper = true) (hL : Locks s) (hN : NamedBy T s)
    (hS : Sessions s) (h : Claimed T s) {e : Event} (hne : e.isLeader = false ∧ e.isExpire = false)
    (hs : s.step e = some s') : Claimed T s' := by
  obtain ⟨i, ok, t, f, fs, r, rfl, ht, hst, hf, he, rfl⟩ | ⟨m, entry, rfl, rfl⟩ | ⟨sid, rfl, rfl⟩ |
    ⟨m, id, l, rfl, rfl⟩ := Sys.step_cases hs
  · have hok : StackOk (s.members t.self).config (f :: fs) := hst ▸ hL.stackOk t (List.getElem?_mem ht)
    have hc : Claims s T t.self (f :: fs) := hst ▸ h t (List.getElem?_mem ht)
    intro t' ht'
    obtain ⟨j, hj⟩ := List.mem_iff_getElem?.mp ht'
    rcases getElem?_after ht he.threads hj with ⟨-, rfl⟩ | ⟨hji, hj'⟩ | rfl
    · -- the stepping thread
      exact (stepFrame_claims hN hok.stack hc hf).mono fun _ h => h
    · -- another thread: it keeps its claims if it holds its member's lock
      cases hl : lockHeld t'.stack
      · exact Claims.of_lockHeld hl
      · refine (h t' (List.getElem?_mem hj')).mono fun id =>
          Holds.step_thread hS (hN.topic _) he (stepFrame_moves hf) ?_
        rintro p ps sid rfl hsid
        obtain ⟨ho, hlk⟩ := removal_owned (hown _) hok hc hsid
        exact ⟨ho, fun hx => hji ((hL.lock i t ht (hst ▸ hlk)).2 j t' hj' hx hl)⟩
    · trivial
  · intro t' ht'
    rcases List.mem_append.mp ht' with ht' | ht'
    · exact h t' ht'
    · rw [List.mem_singleton.mp ht']
      cases entry <;> trivial
  · simp [Event.isExpire] at hne
  · simp [Event.isLeader] at hne

/-- **What every lock holder takes to be its member's holds**, along every run with no
session loss and no leader change in which every member has a client of its own. -/
theorem reachable {config : String → Config} {brokers : Bool} {n : Nat}
    (hown : ∀ x, (config x).ownsZookeeper = true)
    (h : Reachable (fun e => e.isLeader = false ∧ e.isExpire = false) (Sys.init config (fun _ => T) brokers n) s) :
    Claimed T s :=
  h.induct (Claimed T) (fun _ h => by simp [Sys.init] at h) fun hr hi he hs =>
    hi.step (fun x => by rw [hr.config x]; exact hown x) (Locks.reachable hr)
      (NamedBy.reachable (hr.mono fun _ h => h.1)) (Sessions.reachable hown hr) he hs

end Claimed

/-! ### Consequences for every step -/

section
variable {config : String → Config} {T : Topic} {brokers : Bool} {n : Nat} {s s' : Sys} {e : Event}

/-- **The inner consumer is built only over owned partitions.** Along every run with no
session loss and no leader change in which every member has a client of its own, let a
step leave member `x` with a running inner consumer it did not have before. Then every
partition it is built over has an ownership record, named as `_path_from_partition`
names it, whose value is `x`, unless `x`'s client has been stopped. -/
theorem consumer_built_over_owned (hown : ∀ x, (config x).ownsZookeeper = true)
    (h : Reachable (fun e => e.isLeader = false ∧ e.isExpire = false) (Sys.init config (fun _ => T) brokers n) s)
    (hs : s.step e = some s') {x : String} {c : Consumer} (hc : (s'.members x).consumer = some c)
    (hrun : c.running = true) (hnew : (s'.members x).consumer ≠ (s.members x).consumer) :
    ∀ id ∈ c.partitions, Owned s' T x id ∨ (s'.members x).closed := by
  obtain ⟨i, ok, t, f, fs, r, rfl, ht, hst, hf, he, rfl⟩ | ⟨m, entry, rfl, rfl⟩ | ⟨sid, rfl, rfl⟩ |
    ⟨m, id, l, rfl, rfl⟩ := Sys.step_cases hs
  · by_cases hx : x = t.self
    · subst hx
      have hm := stepFrame_moves hf
      rcases hm.consumer with hc₀ | ⟨-, hc₀⟩ | ⟨k, new, rfl, hc₀⟩
      · exact absurd hc₀ hnew
      · -- `stop` stops the consumer it has
        rw [hc₀] at hc
        obtain ⟨c₀, -, rfl⟩ := Option.map_eq_some'.mp hc
        simp at hrun
      · -- the end of a pass of `_rebalance` builds it over `new_partitions`
        have hcl : ∀ id ∈ new, Holds s T t.self id := by
          simpa [hst] using (Claimed.reachable hown h) t (List.getElem?_mem ht)
        rw [hc₀] at hc
        simp only [Member.setupInternalConsumer, Option.some.injEq] at hc
        subst hc
        intro id hid
        rcases hcl id hid with hcl | ⟨node, hg, hv⟩
        · exact .inr (hm.closed_keep he.others hcl)
        · rcases he.owners with ho | ⟨_, _, _, hf', -⟩ | ⟨_, _, _, hf', -⟩ | ⟨_, hf', -⟩ <;>
            first | cases hf' | exact .inl ⟨node, by simpa [ho] using hg, hv⟩
    · exact absurd (congrArg Member.consumer (he.others x hx)) hnew
  · exact absurd rfl hnew
  · exact absurd (by rw [Sys.expireSession_members]) hnew
  · exact absurd (by rw [Sys.setMember_members]; split <;> simp_all) hnew

/-- `a` starts alone on `twoPartitions`: the step that ends its first pass of `_rebalance`
builds the inner consumer over both partitions, whose records are `a`'s. -/
theorem consumer_built_over_owned_start :
    ∃ s s', Reachable (fun e => e.isLeader = false ∧ e.isExpire = false)
        (Sys.init (fun _ => {}) (fun _ => twoPartitions) true 0) s ∧
      s.step (.run 0 true) = some s' ∧ (s'.members "a").consumer = some ⟨[0, 1], false, true⟩ ∧
      (s.members "a").consumer = none ∧ ∀ id ∈ [0, 1], Owned s' twoPartitions "a" id ∨ (s'.members "a").closed := by
  obtain ⟨s, hr, hstep, hc₀⟩ := @Reachable.exists_of_run (fun e => e.isLeader = false ∧ e.isExpire = false)
    (Sys.init (fun _ => {}) (fun _ => twoPartitions) true 0)
    (fun s => (s.step (.run 0 true)).map (fun s' => (s'.members "a").consumer) = some (some ⟨[0, 1], false, true⟩) ∧
      (s.members "a").consumer = none) _
    ([.call "a" .start] ++ List.replicate 23 (.run 0 true)) (by decide) (by decide)
  obtain ⟨s', hs, hc⟩ := Option.map_eq_some'.mp hstep
  exact ⟨s, s', hr, hs, hc, hc₀,
    consumer_built_over_owned (fun _ => (rfl : ({} : Config).ownsZookeeper = true)) hr hs hc rfl (by rw [hc, hc₀]; exact Option.some_ne_none _)⟩

/-- **No member removes another member's ownership record.** Along every run with no
session loss and no leader change in which every member has a client of its own, a
record that a step removes from the owners directory is removed by a step of a thread of
the member whose id it holds, or by the end of the session it is on. -/
theorem owners_removed_by_owner (hown : ∀ x, (config x).ownsZookeeper = true)
    (h : Reachable (fun e => e.isLeader = false ∧ e.isExpire = false) (Sys.init config (fun _ => T) brokers n) s)
    (hs : s.step e = some s') {name : String} {node : Node} (hg : s.store.owners.get name = some node)
    (hgone : s'.store.owners.get name ≠ some node) :
    (∃ i ok t, e = .run i ok ∧ s.threads[i]? = some t ∧ t.self = node.value) ∨ e = .expire node.session := by
  obtain ⟨i, ok, t, f, fs, r, rfl, ht, hst, hf, he, rfl⟩ | ⟨m, entry, rfl, rfl⟩ | ⟨sid, rfl, rfl⟩ |
    ⟨m, id, l, rfl, rfl⟩ := Sys.step_cases hs
  · refine .inl ⟨i, ok, t, rfl, ht, ?_⟩
    rcases he.owners with ho | ⟨p, ps, sid, -, -, hc⟩ | ⟨p, ps, sid, rfl, hsid, hd⟩ | ⟨c, rfl, hz, ho⟩
    · exact absurd (ho ▸ hg) hgone
    · -- a create leaves the records that were there
      exact absurd (Dir.get_of_create hc hg) hgone
    · -- `_remove_partitions` deletes a record its member holds
      by_cases hname : name = (s.members t.self).topic.pathOf p
      · have hok : StackOk (s.members t.self).config (.removePartitions (p :: ps) :: fs) :=
          hst ▸ (Locks.reachable h).stackOk t (List.getElem?_mem ht)
        have hcl : Claims s T t.self (.removePartitions (p :: ps) :: fs) :=
          hst ▸ (Claimed.reachable hown h) t (List.getElem?_mem ht)
        obtain ⟨⟨node', hg', hv'⟩, -⟩ :=
          removal_owned (by rw [h.config]; exact hown _) hok hcl hsid
        rw [(NamedBy.reachable (h.mono fun _ h => h.1)).topic] at hname
        rw [← hname, hg] at hg'
        cases hg'
        exact hv'.symm
      · exact absurd (Dir.get_of_delete hd hname hg) hgone
    · -- closing the client ends its session, on which only its own records live
      by_cases hse : node.session = c.session
      · obtain ⟨cx, hcx, hcs⟩ := (Sessions.reachable hown h).owners (name, node) (Dir.get_eq_some.mp hg)
        exact ((Sessions.reachable hown h).distinct _ _ cx c hcx hz (hcs.trans hse)).symm
      · exact absurd (ho ▸ Dir.get_of_expire hg hse) hgone
  · exact absurd hg hgone
  · by_cases hse : node.session = sid
    · exact .inr (hse ▸ rfl)
    · exact absurd (Dir.get_of_expire hg hse) hgone
  · exact absurd hg hgone

/-- `a` starts alone on `twoPartitions` and claims both; `b` registers; a watch fires at
`a`, whose `_rebalance` deletes `a`'s record of partition 1. -/
theorem owners_removed_by_owner_join :
    ∃ s s', Reachable (fun e => e.isLeader = false ∧ e.isExpire = false)
        (Sys.init (fun _ => {}) (fun _ => twoPartitions) true 0) s ∧
      s.step (.run 3 true) = some s' ∧ s.store.owners.get "1-1" = some ⟨"a", 0⟩ ∧
      s'.store.owners.get "1-1" = none ∧
      ((∃ i ok t, Event.run 3 true = .run i ok ∧ s.threads[i]? = some t ∧ t.self = "a") ∨
        Event.run 3 true = .expire 0) := by
  obtain ⟨s, hr, hg, hstep⟩ := @Reachable.exists_of_run (fun e => e.isLeader = false ∧ e.isExpire = false)
    (Sys.init (fun _ => {}) (fun _ => twoPartitions) true 0)
    (fun s => s.store.owners.get "1-1" = some ⟨"a", 0⟩ ∧
      (s.step (.run 3 true)).map (fun s' => s'.store.owners.get "1-1") = some none) _
    ([.call "a" .start] ++ List.replicate 26 (.run 0 true) ++ [.call "b" .start] ++
      List.replicate 6 (.run 2 true) ++ [.call "a" .watch] ++ List.replicate 14 (.run 3 true)) (by decide) (by decide)
  obtain ⟨s', hs, hgone⟩ := Option.map_eq_some'.mp hstep
  exact ⟨s, s', hr, hs, hg, hgone,
    owners_removed_by_owner (fun _ => (rfl : ({} : Config).ownsZookeeper = true)) hr hs hg (by rw [hgone]; exact Option.noConfusion)⟩

end

end Pykafka
