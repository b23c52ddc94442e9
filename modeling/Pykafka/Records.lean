import Pykafka.Claimed
import Pykafka.Frames
import Pykafka.Rebalance

/-! The records of a member, and what is read back from them.

Ownership records and participant records are ephemeral nodes of the member's client:
`_add_partitions` and `_add_self` create them on the client's session, closing the
client ends that session, and an expiry both removes the nodes of a session and moves
its open clients to a fresh one. So along every run every record belongs to an open
client of its member and is on that client's current session
(`records_on_open_client`). Nothing reopens a client `stop()` closed: `start()` uses
`self._zookeeper` as it finds it, and every operation on a closed client raises. So a
member stopped that way is never recorded again, whatever events follow, calls of
`start()` included (`stopped_never_recorded`). With either kind of client, a `stop()`
run alone without a leader change removes every record of its member
(`stop_removes_records`).

Every ownership record is named after a partition of the topic (`Wf`), and so is every
id `_get_held_partitions` has collected (`Found`). So along every run
`_get_held_partitions` raises neither the `ValueError` of `int()` on a record's name
nor the `KeyError` of `self._topic.partitions[_id]`: with the client open, each of its
steps reads the next child or returns the ids collected (`getHeldPartitions_reads_back`).
Unwinding pushes only the frames of the handlers (`forall_mem_raise`), so `Found` is
checked once per program point. -/
namespace Pykafka

/-! ### Records belong to open clients -/

/-- **Every record belongs to an open client of its member.** Along every run, each
ownership record and each participant record is on the current session of its
member's client, and that client is open. -/
theorem records_on_open_client {allowed : Event → Prop} {config : String → Config} {topic : String → Topic}
    {brokers : Bool} {n : Nat} {s : Sys} (h : Reachable allowed (Sys.init config topic brokers n) s) :
    (∀ e ∈ s.store.owners.entries, ∃ c, (s.members e.2.value).zookeeper = some c ∧ c.closed = false ∧
      c.session = e.2.session) ∧
    ∀ e ∈ s.store.ids.entries, ∃ c, (s.members e.1).zookeeper = some c ∧ c.closed = false ∧
      c.session = e.2.session := by
  have hR := Recorded.reachable h
  -- a member with a record has no closed client
  have hopen : ∀ x c, (s.members x).zookeeper = some c → ((∃ e ∈ s.store.owners.entries, e.2.value = x) ∨
      ∃ e ∈ s.store.ids.entries, e.1 = x) → c.closed = false := fun x c hc hx => by
    cases hcl : c.closed
    · rfl
    · have := hR.closed x (by simp [Member.closed, hc, hcl])
      rcases hx with ⟨e, he, hv⟩ | ⟨e, he, hv⟩
      · exact absurd hv (this.1 e he)
      · exact absurd hv (this.2 e he)
  refine ⟨fun e he => ?_, fun e he => ?_⟩
  · obtain ⟨c, hc, hs⟩ := hR.owners e he
    exact ⟨c, hc, hopen _ c hc (.inl ⟨e, he, rfl⟩), hs⟩
  · obtain ⟨c, hc, hs⟩ := hR.ids e he
    exact ⟨c, hc, hopen _ c hc (.inr ⟨e, he, rfl⟩), hs⟩

/-- `a` starts alone on `twoPartitions` and claims both partitions; its records are on
its open client's session. -/
theorem records_on_open_client_start :
    ∃ s, Reachable (fun _ => True) (Sys.init (fun _ => {}) (fun _ => twoPartitions) true 0) s ∧
      s.store.owners.children = ["1-1", "1-0"] ∧ s.store.ids.children = ["a"] ∧
      (∀ e ∈ s.store.owners.entries, ∃ c, (s.members e.2.value).zookeeper = some c ∧ c.closed = false ∧
        c.session = e.2.session) ∧
      ∀ e ∈ s.store.ids.entries, ∃ c, (s.members e.1).zookeeper = some c ∧ c.closed = false ∧
        c.session = e.2.session := by
  obtain ⟨s, hr, ho, hi⟩ := @Reachable.exists_of_run (fun _ => True) (Sys.init (fun _ => {}) (fun _ => twoPartitions) true 0)
    (fun s => s.store.owners.children = ["1-1", "1-0"] ∧ s.store.ids.children = ["a"]) _
    ([.call "a" .start] ++ List.replicate 26 (.run 0 true)) (fun _ _ => trivial) (by decide)
  exact ⟨s, hr, ho, hi, records_on_open_client hr⟩

/-! ### A stopped client stays stopped -/

/-- No event reopens a client `stop()` closed. -/
theorem Sys.step_closed {s s' : Sys} {e : Event} (hs : s.step e = some s') {x : String}
    (h : (s.members x).closed) : (s'.members x).closed := by
  obtain ⟨i, ok, t, f, fs, r, rfl, -, -, hr, he, rfl⟩ | ⟨m, entry, rfl, rfl⟩ | ⟨sid, rfl, rfl⟩ |
    ⟨m, id, l, rfl, rfl⟩ := Sys.step_cases hs
  · exact (stepFrame_moves hr).closed_keep he.others h
  · exact h
  · rwa [Sys.closed_expireSession]
  · rw [Sys.setMember_members]
    split <;> simp_all [Member.closed]

/-- **A stopped member is never recorded again.** Take a reachable state in which
member `x`'s client has been closed by `stop()`. Along every run from there, whatever
its events (`start()` of `x` included), `x`'s client stays closed, and the coordinator
holds no ownership record with `x`'s id and no participant record of `x`. -/
theorem stopped_never_recorded {allowed : Event → Prop} {config : String → Config} {topic : String → Topic}
    {brokers : Bool} {n : Nat} {s s' : Sys} {x : String} (h₀ : Reachable allowed (Sys.init config topic brokers n) s)
    (hx : (s.members x).closed) (h : Reachable allowed s s') :
    (s'.members x).closed ∧ (∀ e ∈ s'.store.owners.entries, e.2.value ≠ x) ∧
      ∀ e ∈ s'.store.ids.entries, e.1 ≠ x := by
  have hx' : (s'.members x).closed :=
    h.induct (fun s => (s.members x).closed) hx fun _ hi _ hs => Sys.step_closed hs hi
  exact ⟨hx', (Recorded.reachable (h₀.trans h)).closed x hx'⟩

/-- `a` starts alone on `twoPartitions`, then `stop()` closes its client; `a` then calls
`start()` again, which raises on the closed client, calls `stop()` and returns. -/
theorem stopped_never_recorded_restart :
    ∃ s s', Reachable (fun _ => True) (Sys.init (fun _ => {}) (fun _ => twoPartitions) true 0) s ∧
      (s.members "a").closed ∧ Reachable (fun _ => True) s s' ∧ s'.threads[3]? = some ⟨"a", []⟩ ∧
      (s'.members "a").closed ∧ (∀ e ∈ s'.store.owners.entries, e.2.value ≠ "a") ∧
        ∀ e ∈ s'.store.ids.entries, e.1 ≠ "a" := by
  let restart : List Event := [.call "a" .start] ++ List.replicate 6 (.run 3 true)
  obtain ⟨s, hr, hx, hrun⟩ := @Reachable.exists_of_run (fun _ => True) (Sys.init (fun _ => {}) (fun _ => twoPartitions) true 0)
    (fun s => (s.members "a").closed ∧ (s.run restart).map (·.threads[3]?) = some (some ⟨"a", []⟩)) _
    ([.call "a" .start] ++ List.replicate 26 (.run 0 true) ++ [.call "a" .stop] ++ List.replicate 3 (.run 2 true))
    (fun _ _ => trivial) (by decide)
  obtain ⟨s', hs', ht⟩ := Option.map_eq_some'.mp hrun
  have h' : Reachable (fun _ => True) s s' := Reachable.of_run (fun _ _ => trivial) hs'
  exact ⟨s, s', hr, hx, h', ht, stopped_never_recorded hr hx h'⟩

/-! ### `stop()` alone -/

/-- **`stop()` alone removes the member's records.** Take a state reached without a
leader change in which thread `i` of member `m` has just been called as `stop()`, with
`m`'s client open and its lock free. Run alone, the call returns normally and leaves `m`
not running, with no ownership record holding its id and no participant record: with a
client of its own it ends the client's session, with an injected one it deletes them. -/
theorem stop_removes_records {config : String → Config} {T : Topic} {brokers : Bool} {n : Nat}
    {s : Sys} {i : Nat} {m : String} {sid : Nat}
    (h : Reachable (fun e => e.isLeader = false) (Sys.init config (fun _ => T) brokers n) s)
    (ht : s.threads[i]? = some ⟨m, [.stop .lock]⟩) (hs : (s.members m).session = .ok sid)
    (hlock : (s.members m).locked = false) (ok : Bool) :
    ∃ s', Reachable (· = .run i ok) s s' ∧ s'.threads[i]? = some ⟨m, []⟩ ∧ (s'.members m).running = false ∧
      (∀ e ∈ s'.store.owners.entries, e.2.value ≠ m) ∧ m ∉ s'.store.ids.children := by
  have hi : i < s.threads.length := (List.getElem?_eq_some_iff.mp ht).1
  obtain ⟨s', hr, hrun, hinj, hown⟩ :=
    stop_alone ok (NamedBy.reachable h) (Wf.reachable h).owners hi hs hlock []
  rw [Sys.setStack_eq_self ht] at hr
  have hi' : i < s'.threads.length := by simpa using lt_of_lt_of_le hi hr.threads_length_le
  refine ⟨s'.setStack i m [], hr, Sys.setStack_getElem? hi', hrun, ?_⟩
  cases ho : (s.members m).config.ownsZookeeper
  · exact hinj ho
  · -- closing the client ended the session every record of `m` is on
    obtain ⟨c, hc, hst⟩ := hown ho
    have hR := Recorded.reachable h
    rw [Sys.setStack_store, hst]
    refine ⟨fun e he hv => ?_, fun hm => ?_⟩
    · obtain ⟨he, hne⟩ := Dir.mem_expire.mp he
      obtain ⟨c', hc', hs'⟩ := hR.owners e he
      rw [hv, hc] at hc'
      cases hc'
      exact hne hs'.symm
    · obtain ⟨node, hn⟩ := Dir.mem_children.mp hm
      obtain ⟨hn, hne⟩ := Dir.mem_expire.mp hn
      obtain ⟨c', hc', hs'⟩ := hR.ids _ hn
      rw [hc] at hc'
      cases hc'
      exact hne hs'.symm

/-- With an injected client, `a` starts alone on `twoPartitions` and claims both
partitions; the application then calls `stop()`, which deletes both records and the
participant record. -/
theorem stop_removes_records_injected :
    ∃ s, Reachable (fun e => e.isLeader = false) (Sys.init (fun _ => {zookeeper := some 0}) (fun _ => twoPartitions) true 1) s ∧
      s.threads[2]? = some ⟨"a", [.stop .lock]⟩ ∧ (s.members "a").session = .ok 0 ∧
      (s.members "a").locked = false ∧ s.store.owners.children = ["1-1", "1-0"] ∧
      ∃ s', Reachable (· = .run 2 true) s s' ∧ s'.threads[2]? = some ⟨"a", []⟩ ∧
        (s'.members "a").running = false ∧ (∀ e ∈ s'.store.owners.entries, e.2.value ≠ "a") ∧
        "a" ∉ s'.store.ids.children := by
  obtain ⟨s, hr, ht, hz, hl, ho⟩ := @Reachable.exists_of_run (fun e => e.isLeader = false)
    (Sys.init (fun _ => {zookeeper := some 0}) (fun _ => twoPartitions) true 1)
    (fun s => s.threads[2]? = some ⟨"a", [.stop .lock]⟩ ∧ (s.members "a").zookeeper = some ⟨0, false⟩ ∧
      (s.members "a").locked = false ∧ s.store.owners.children = ["1-1", "1-0"]) _
    ([.call "a" .start] ++ List.replicate 26 (.run 0 true) ++ [.call "a" .stop]) (by decide) (by decide)
  have hsid : (s.members "a").session = .ok 0 := by simp [Member.session, hz]
  exact ⟨s, hr, ht, hsid, hl, ho, stop_removes_records hr ht hsid hl true⟩

/-! ### The frames a return or an unwinding leaves -/

section
variable {P : Frame → Prop}

/-- A property of frames that delivering a result keeps holds of the stack a return leaves. -/
theorem forall_mem_ret {v : Ret} (hd : ∀ g, P g → P (g.deliver v)) {fs : List Frame}
    (hfs : ∀ g ∈ fs, P g) : ∀ g ∈ ret v fs, P g := by
  cases fs with
  | nil => simp [ret]
  | cons f fs =>
    simp only [ret, List.forall_mem_cons] at hfs ⊢
    exact ⟨hd f hfs.1, hfs.2⟩

/-- Unwinding pushes only the frames of the handlers: the retry of `_rebalance`'s loop,
the end of its `with` block, the `stop()` of `start`'s handler, and the exception that
escapes. A property of frames that holds of those, and that returning `None` keeps,
holds of the stack unwinding leaves. -/
theorem forall_mem_raise (hraised : ∀ e, P (.raised e)) (hget : P (.getParticipants none []))
    (hretry : ∀ i, P (.rebalance (.participants i none)))
    (hrelease : P (.rebalance (.release false))) (hstop : P (.stop .lock) ∧ P (.start (.failed false)))
    (hd : ∀ g, P g → P (g.deliver .unit)) {self : String} {e : Exc} {s : Sys} {fs : List Frame}
    (hfs : ∀ g ∈ fs, P g) : ∀ g ∈ (raise self e s fs).2, P g := by
  induction fs generalizing s with
  | nil => simpa [raise] using hraised e
  | cons f fs ih =>
    rw [List.forall_mem_cons] at hfs
    cases f with
    | rebalance pc =>
      simp only [raise]
      split
      · split
        · exact ih hfs.2
        · split
          · exact List.forall_mem_cons.mpr ⟨hget, List.forall_mem_cons.mpr ⟨hretry _, hfs.2⟩⟩
          · exact List.forall_mem_cons.mpr ⟨hrelease, hfs.2⟩
      · exact ih hfs.2
    | start pc =>
      cases pc <;> simp only [raise]
      case failed => exact ih hfs.2
      all_goals exact List.forall_mem_cons.mpr ⟨hstop.1, List.forall_mem_cons.mpr ⟨hstop.2, hfs.2⟩⟩
    | watch | checker => exact forall_mem_ret hd hfs.2
    | _ => exact ih hfs.2

end

/-! ### What `_get_held_partitions` collects -/

/-- The ids a frame of `_get_held_partitions` has collected are among `ids`. -/
def Frame.foundIn (ids : List Nat) : Frame → Prop
  | .getHeldPartitions _ found => found ⊆ ids
  | _ => True

section
variable {ids : List Nat}

theorem Frame.foundIn_deliver {g : Frame} (v : Ret) (hg : g.foundIn ids) : (g.deliver v).foundIn ids := by
  unfold deliver
  split <;> trivial

/-- Unwinding starts no `_get_held_partitions`. -/
theorem foundIn_raise {self : String} {e : Exc} {s : Sys} {fs : List Frame}
    (hfs : ∀ g ∈ fs, g.foundIn ids) : ∀ g ∈ (raise self e s fs).2, g.foundIn ids :=
  forall_mem_raise (P := fun g => g.foundIn ids) (fun _ => trivial) trivial (fun _ => trivial) trivial
    ⟨trivial, trivial⟩ (fun _ => Frame.foundIn_deliver _) hfs

/-- An id read off a record's name is one of `ids` when every record is named after one. -/
theorem insert_foundIn {d : Dir} (ho : ∀ n ∈ d.children, ∃ id ∈ ids, slugId n = some id) {c : String}
    {node : Node} (hg : d.get c = some node) {id : Nat} (hid : slugId c = some id) {found : List Nat}
    (hf : found ⊆ ids) : found.insert id ⊆ ids := fun x hx => by
  rcases List.mem_insert_iff.mp hx with rfl | hx
  · obtain ⟨id', hid', hs⟩ := ho c (Dir.mem_children.mpr ⟨node, Dir.get_eq_some.mp hg⟩)
    rw [hid] at hs
    exact Option.some.inj hs ▸ hid'
  · exact hf hx

/-- **A step keeps the ids collected among the topic's.** -/
theorem stepFrame_foundIn {s : Sys} {self : String} {fs : List Frame} {ok : Bool} {f : Frame}
    {r : Sys × List Frame} (ho : ∀ n ∈ s.store.owners.children, ∃ id ∈ ids, slugId n = some id)
    (hf : f.foundIn ids) (hfs : ∀ g ∈ fs, g.foundIn ids) (h : stepFrame s self fs ok f = some r) :
    ∀ g ∈ r.2, g.foundIn ids := by
  -- one case per branch of `stepFrame`
  cases stepFrame_sound h <;> try dsimp only
  -- the frames pushed on the stack first, then an unwinding and a return
  all_goals first
    | (simp only [List.forall_mem_cons]
       first
        | exact hfs
        | exact ⟨trivial, hfs⟩
        | exact ⟨hf, hfs⟩
        | exact ⟨trivial, trivial, hfs⟩
        | exact ⟨trivial, trivial, trivial, hfs⟩
        | exact ⟨List.nil_subset _, trivial, hfs⟩
        | exact ⟨List.nil_subset _, trivial, trivial, hfs⟩
        | exact ⟨insert_foundIn ho ‹_› ‹_› hf, hfs⟩)
    | exact foundIn_raise hfs
    | exact foundIn_raise (List.forall_mem_cons.mpr ⟨trivial, hfs⟩)
    | exact forall_mem_ret (fun _ => Frame.foundIn_deliver _) hfs

end

/-- Every id a frame of `_get_held_partitions` has collected is a partition id of `T`. -/
def Found (T : Topic) (s : Sys) : Prop := ∀ t ∈ s.threads, ∀ f ∈ t.stack, f.foundIn T.ids

namespace Found

variable {T : Topic} {s s' : Sys}

theorem step {e : Event} (hW : Wf T s) (h : Found T s) (hs : s.step e = some s') : Found T s' := by
  obtain ⟨i, ok, t, f, fs, r, rfl, ht, hst, hr, he, rfl⟩ | ⟨m, entry, rfl, rfl⟩ | ⟨sid, rfl, rfl⟩ |
    ⟨m, id, l, rfl, rfl⟩ := Sys.step_cases hs
  · have hft : ∀ g ∈ f :: fs, g.foundIn T.ids := hst ▸ h t (List.getElem?_mem ht)
    intro t' ht' g hg
    rcases List.mem_or_eq_of_mem_set ht' with ht' | rfl
    · rcases he.threads with hth | hth <;> rw [hth] at ht'
      · exact h t' ht' g hg
      · rcases List.mem_append.mp ht' with ht' | ht'
        · exact h t' ht' g hg
        · rw [List.mem_singleton.mp ht'] at hg
          rw [List.mem_singleton.mp hg]
          trivial
    · exact stepFrame_foundIn hW.owners (hft f (List.mem_cons_self f fs))
        (fun g hg => hft g (List.mem_cons_of_mem f hg)) hr g hg
  · intro t' ht' g hg
    rcases List.mem_append.mp ht' with ht' | ht'
    · exact h t' ht' g hg
    · rw [List.mem_singleton.mp ht'] at hg
      rw [List.mem_singleton.mp hg]
      cases entry <;> trivial
  · exact h
  · exact h

theorem reachable {allowed : Event → Prop} {config : String → Config} {brokers : Bool} {n : Nat}
    (h : Reachable allowed (Sys.init config (fun _ => T) brokers n) s) : Found T s :=
  (h.induct (fun s => Wf T s ∧ Found T s) ⟨Wf.init config brokers n, fun _ h => (nomatch h)⟩
    fun _ hi _ hs => ⟨hi.1.step hs, hi.2.step hi.1 hs⟩).2

end Found

/-- **`_get_held_partitions` raises only what the client raises.** Along every run, a
thread inside `_get_held_partitions` that has listed the owners path, on an open client,
either reads the next child (no `ValueError` from `int()` on its name) or, with every
child read, returns the ids it collected (no `KeyError` from `topic.partitions[_id]`). -/
theorem getHeldPartitions_reads_back {allowed : Event → Prop} {config : String → Config} {T : Topic}
    {brokers : Bool} {n : Nat} {s : Sys} (h : Reachable allowed (Sys.init config (fun _ => T) brokers n) s)
    {t : Thread} (ht : t ∈ s.threads) {cs : List String} {found : List Nat} {fs : List Frame}
    (hst : t.stack = .getHeldPartitions (some cs) found :: fs) {sid : Nat}
    (hsid : (s.members t.self).session = .ok sid) (ok : Bool) :
    (∃ c cs' found', cs = c :: cs' ∧ stepFrame s t.self fs ok (.getHeldPartitions (some cs) found) =
      some (s, .getHeldPartitions (some cs') found' :: fs)) ∨
    (cs = [] ∧ stepFrame s t.self fs ok (.getHeldPartitions (some cs) found) = some (s, ret (.ids found) fs)) := by
  have hW := Wf.reachable h
  cases cs with
  | nil =>
    -- every id collected is one of the topic's, which the member's topic object has
    have hf : found ⊆ T.ids :=
      Found.reachable h t ht (.getHeldPartitions (some []) found) (by rw [hst]; exact List.mem_cons_self _ _)
    have hnone : found.find? (fun id => ((s.members t.self).topic.find? id).isNone) = none :=
      List.find?_eq_none.mpr fun id hid hn =>
        absurd (Topic.find?_isSome.mpr ((hW.ids t.self).symm ▸ hf hid)) (by simpa using hn)
    exact .inr ⟨rfl, by simp only [stepFrame, hnone]⟩
  | cons c cs =>
    refine .inl ⟨c, cs, ?_⟩
    simp only [stepFrame, withSession, hsid]
    split
    · rename_i node hg
      -- the child is a record, named after a partition id
      obtain ⟨id, -, hid⟩ := hW.owners c (Dir.mem_children.mpr ⟨node, Dir.get_eq_some.mp hg⟩)
      split
      · simp only [hid]
        exact ⟨_, trivial, rfl⟩
      · exact ⟨_, trivial, rfl⟩
    · exact ⟨_, trivial, rfl⟩

/-- `a` starts alone on `twoPartitions`; its checker thread has listed the records
`1-1` and `1-0` and reads them back. -/
theorem getHeldPartitions_reads_back_checker :
    ∃ s, Reachable (fun _ => True) (Sys.init (fun _ => {}) (fun _ => twoPartitions) true 0) s ∧
      s.threads[1]? = some ⟨"a", [.getHeldPartitions (some ["1-1", "1-0"]) [], .checker (.held none)]⟩ ∧
      (s.members "a").session = .ok 0 ∧
      ((∃ c cs' found', ["1-1", "1-0"] = c :: cs' ∧
        stepFrame s "a" [.checker (.held none)] true (.getHeldPartitions (some ["1-1", "1-0"]) []) =
          some (s, .getHeldPartitions (some cs') found' :: [.checker (.held none)])) ∨
      (["1-1", "1-0"] = [] ∧ stepFrame s "a" [.checker (.held none)] true
        (.getHeldPartitions (some ["1-1", "1-0"]) []) = some (s, ret (.ids []) [.checker (.held none)]))) := by
  obtain ⟨s, hr, ht, hz⟩ := @Reachable.exists_of_run (fun _ => True) (Sys.init (fun _ => {}) (fun _ => twoPartitions) true 0)
    (fun s => s.threads[1]? = some ⟨"a", [.getHeldPartitions (some ["1-1", "1-0"]) [], .checker (.held none)]⟩ ∧
      (s.members "a").zookeeper = some ⟨0, false⟩) _
    ([.call "a" .start] ++ List.replicate 26 (.run 0 true) ++ List.replicate 2 (.run 1 true))
    (fun _ _ => trivial) (by decide)
  have hsid : (s.members "a").session = .ok 0 := by simp [Member.session, hz]
  exact ⟨s, hr, ht, hsid, getHeldPartitions_reads_back hr (List.getElem?_mem ht) rfl hsid true⟩

end Pykafka
