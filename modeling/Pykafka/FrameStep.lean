import Pykafka.System

/-! The steps of `stepFrame`, one at a time.

`FrameStep s self fs ok f r` lists every branch of `stepFrame s self fs ok f`: the
program point `f` it starts at, the guards under which the source takes it, and the
state and stack it leaves. `stepFrame_sound` is the only proof that unfolds
`stepFrame`; every invariant of a step is proved by cases on `FrameStep`.

The branches where an operation on the client raises, because the member has no client
or `stop()` closed it, are the ones named `...Closed`. -/
namespace Pykafka

/-- The branches of `stepFrame`, with their guards. Where two branches of one program
point leave the same state and stack, one constructor takes both, with the disjunction
of their guards. -/
inductive FrameStep (s : Sys) (self : String) (fs : List Frame) (ok : Bool) : Frame → Sys × List Frame → Prop
  /-- `_get_participants`: `get_children(self._consumer_id_path)`. -/
  | getIds {found : List String} {sid : Nat} (hs : (s.members self).session = .ok sid) :
    FrameStep s self fs ok (.getParticipants none found)
      (s, .getParticipants (some s.store.ids.children) found :: fs)
  | getIdsClosed {found : List String} {e : Exc} (hs : (s.members self).session = .error e) :
    FrameStep s self fs ok (.getParticipants none found) (raise self e s fs)
  /-- `topic, stat = self._zookeeper.get(...)` for the next child: kept if its record names
  the topic, skipped otherwise. -/
  | readId {c : String} {cs found : List String} {sid : Nat} (hs : (s.members self).session = .ok sid)
    (hc : s.isParticipant self c) :
    FrameStep s self fs ok (.getParticipants (some (c :: cs)) found)
      (s, .getParticipants (some cs) (found ++ [c]) :: fs)
  | readIdSkip {c : String} {cs found : List String} {sid : Nat} (hs : (s.members self).session = .ok sid)
    (hc : ¬s.isParticipant self c) :
    FrameStep s self fs ok (.getParticipants (some (c :: cs)) found) (s, .getParticipants (some cs) found :: fs)
  | readIdClosed {c : String} {cs found : List String} {e : Exc} (hs : (s.members self).session = .error e) :
    FrameStep s self fs ok (.getParticipants (some (c :: cs)) found) (raise self e s fs)
  /-- `return sorted(participants)`. -/
  | returnIds {found : List String} :
    FrameStep s self fs ok (.getParticipants (some []) found) (s, ret (.names (sortedParticipants found)) fs)
  /-- `_get_held_partitions`: `get_children(self._topic_path)`. -/
  | getOwners {found : List Nat} {sid : Nat} (hs : (s.members self).session = .ok sid) :
    FrameStep s self fs ok (.getHeldPartitions none found)
      (s, .getHeldPartitions (some s.store.owners.children) found :: fs)
  | getOwnersClosed {found : List Nat} {e : Exc} (hs : (s.members self).session = .error e) :
    FrameStep s self fs ok (.getHeldPartitions none found) (raise self e s fs)
  /-- A record with the member's id: its name parsed by `int(slug.split('-')[1])`. -/
  | readOwn {c : String} {cs : List String} {found : List Nat} {sid id : Nat} {n : Node}
    (hs : (s.members self).session = .ok sid) (hn : s.store.owners.get c = some n) (hv : n.value = self)
    (hid : slugId c = some id) :
    FrameStep s self fs ok (.getHeldPartitions (some (c :: cs)) found)
      (s, .getHeldPartitions (some cs) (found.insert id) :: fs)
  | readOwnInvalid {c : String} {cs : List String} {found : List Nat} {sid : Nat} {n : Node}
    (hs : (s.members self).session = .ok sid) (hn : s.store.owners.get c = some n) (hv : n.value = self)
    (hid : slugId c = none) :
    FrameStep s self fs ok (.getHeldPartitions (some (c :: cs)) found) (raise self .valueError s fs)
  /-- A record of another member, or one that vanished since `get_children`. -/
  | readOther {c : String} {cs : List String} {found : List Nat} {sid : Nat}
    (hs : (s.members self).session = .ok sid) (hn : ∀ n, s.store.owners.get c = some n → n.value ≠ self) :
    FrameStep s self fs ok (.getHeldPartitions (some (c :: cs)) found)
      (s, .getHeldPartitions (some cs) found :: fs)
  | readOwnerClosed {c : String} {cs : List String} {found : List Nat} {e : Exc}
    (hs : (s.members self).session = .error e) :
    FrameStep s self fs ok (.getHeldPartitions (some (c :: cs)) found) (raise self e s fs)
  /-- `self._topic.partitions[_id]` for an id the topic object lacks. -/
  | returnOwnsUnknown {found : List Nat} {id : Nat}
    (h : found.find? (fun id => ((s.members self).topic.find? id).isNone) = some id) :
    FrameStep s self fs ok (.getHeldPartitions (some []) found) (raise self (.keyError id) s fs)
  | returnOwns {found : List Nat} (h : found.find? (fun id => ((s.members self).topic.find? id).isNone) = none) :
    FrameStep s self fs ok (.getHeldPartitions (some []) found) (s, ret (.ids found) fs)
  /-- `_remove_partitions`: `self._zookeeper.delete(self._path_from_partition(p))`. -/
  | deleteOwner {p : Nat} {ps : List Nat} {sid : Nat} {d : Dir} (hs : (s.members self).session = .ok sid)
    (hd : s.store.owners.delete ((s.members self).topic.pathOf p) = some d) :
    FrameStep s self fs ok (.removePartitions (p :: ps)) (s.setOwners d, .removePartitions ps :: fs)
  | deleteOwnerMissing {p : Nat} {ps : List Nat} {sid : Nat} (hs : (s.members self).session = .ok sid)
    (hd : s.store.owners.delete ((s.members self).topic.pathOf p) = none) :
    FrameStep s self fs ok (.removePartitions (p :: ps)) (raise self .noNode s fs)
  | deleteOwnerClosed {p : Nat} {ps : List Nat} {e : Exc} (hs : (s.members self).session = .error e) :
    FrameStep s self fs ok (.removePartitions (p :: ps)) (raise self e s fs)
  | removeDone : FrameStep s self fs ok (.removePartitions []) (s, ret .unit fs)
  /-- `_add_partitions`: `self._zookeeper.create(..., value=self._consumer_id, ephemeral=True)`. -/
  | createOwner {p : Nat} {ps : List Nat} {sid : Nat} {d : Dir} (hs : (s.members self).session = .ok sid)
    (hd : s.store.owners.create ((s.members self).topic.pathOf p) ⟨self, sid⟩ = some d) :
    FrameStep s self fs ok (.addPartitions (p :: ps)) (s.setOwners d, .addPartitions ps :: fs)
  | createOwnerExists {p : Nat} {ps : List Nat} {sid : Nat} (hs : (s.members self).session = .ok sid)
    (hd : s.store.owners.create ((s.members self).topic.pathOf p) ⟨self, sid⟩ = none) :
    FrameStep s self fs ok (.addPartitions (p :: ps)) (raise self (.partitionOwned p) s fs)
  | createOwnerClosed {p : Nat} {ps : List Nat} {e : Exc} (hs : (s.members self).session = .error e) :
    FrameStep s self fs ok (.addPartitions (p :: ps)) (raise self e s fs)
  | addDone : FrameStep s self fs ok (.addPartitions []) (s, ret .unit fs)
  /-- `_add_self`, with the participants read. -/
  | addSelfFull {ps : List String} (h : (s.members self).topic.partitions.length ≤ ps.length) :
    FrameStep s self fs ok (.addSelf (some ps)) (raise self capacityError s fs)
  | createId {ps : List String} {sid : Nat} {d : Dir} (h : ¬(s.members self).topic.partitions.length ≤ ps.length)
    (hs : (s.members self).session = .ok sid)
    (hd : s.store.ids.create self ⟨(s.members self).topic.name, sid⟩ = some d) :
    FrameStep s self fs ok (.addSelf (some ps)) (s.setIds d, ret .unit fs)
  | createIdExists {ps : List String} {sid : Nat} (h : ¬(s.members self).topic.partitions.length ≤ ps.length)
    (hs : (s.members self).session = .ok sid)
    (hd : s.store.ids.create self ⟨(s.members self).topic.name, sid⟩ = none) :
    FrameStep s self fs ok (.addSelf (some ps)) (raise self .nodeExists s fs)
  | createIdClosed {ps : List String} {e : Exc} (h : ¬(s.members self).topic.partitions.length ≤ ps.length)
    (hs : (s.members self).session = .error e) :
    FrameStep s self fs ok (.addSelf (some ps)) (raise self e s fs)
  /-- `_rebalance`: `self.commit_offsets()` raises. -/
  | commitFailed {e : Exc} (hc : (s.members self).consumer.isSome)
    (he : (s.members self).commitOffsets ok = .error e) :
    FrameStep s self fs ok (.rebalance .commit) (raise self e (s.setMember self Member.logWorkerTrace) fs)
  /-- The offsets are committed, or there is no inner consumer. -/
  | commit (h : (s.members self).consumer.isSome → (s.members self).commitOffsets ok = .ok ()) :
    FrameStep s self fs ok (.rebalance .commit) (s, .rebalance .acquire :: fs)
  /-- `with self._rebalancing_lock:` once the lock is free. -/
  | acquire (h : ¬(s.members self).locked) :
    FrameStep s self fs ok (.rebalance .acquire) (s.setMember self Member.lock, .rebalance .check :: fs)
  | checkStopped (h : (s.members self).running = false) :
    FrameStep s self fs ok (.rebalance .check)
      (raise self (.consumerStopped "") s (.rebalance .check :: fs))
  | checkRetry (h : (s.members self).running = true) (hm : 0 < (s.members self).config.rebalanceMaxRetries.toNat) :
    FrameStep s self fs ok (.rebalance .check)
      (s, .getParticipants none [] :: .rebalance (.participants 0 none) :: fs)
  | checkNoRetry (h : (s.members self).running = true)
    (hm : ¬0 < (s.members self).config.rebalanceMaxRetries.toNat) :
    FrameStep s self fs ok (.rebalance .check) (s, .rebalance (.release false) :: fs)
  /-- `_decide_partitions(participants)` with the member among the participants. -/
  | decideInvalid {i : Nat} {ps : List String} (h : self ∈ ps)
    (hd : decidePartitions (s.members self).topic self ps = none) :
    FrameStep s self fs ok (.rebalance (.participants i (some ps)))
      (raise self .valueError s (.rebalance (.participants i (some ps)) :: fs))
  | decideNone {i : Nat} {ps : List String} (h : self ∈ ps)
    (hd : decidePartitions (s.members self).topic self ps = some []) :
    FrameStep s self fs ok (.rebalance (.participants i (some ps))) (s, .rebalance (.release true) :: fs)
  | decideNew {i : Nat} {ps : List String} {new : List Partition} (h : self ∈ ps)
    (hd : decidePartitions (s.members self).topic self ps = some new) (hne : ¬new = []) :
    FrameStep s self fs ok (.rebalance (.participants i (some ps)))
      (s, .getHeldPartitions none [] :: .rebalance (.held i (new.map Partition.id) none) :: fs)
  /-- `self._add_self()` for a member missing from the participants. -/
  | register {i : Nat} {ps : List String} (h : self ∉ ps) :
    FrameStep s self fs ok (.rebalance (.participants i (some ps)))
      (s, .getParticipants none [] :: .addSelf none :: .rebalance (.addSelf i ps false) :: fs)
  /-- `_decide_partitions(participants)` once `_add_self` appended the member. -/
  | decideInvalidAdded {i : Nat} {ps : List String}
    (hd : decidePartitions (s.members self).topic self (ps ++ [self]) = none) :
    FrameStep s self fs ok (.rebalance (.addSelf i ps true))
      (raise self .valueError s (.rebalance (.participants i (some (ps ++ [self]))) :: fs))
  | decideNoneAdded {i : Nat} {ps : List String}
    (hd : decidePartitions (s.members self).topic self (ps ++ [self]) = some []) :
    FrameStep s self fs ok (.rebalance (.addSelf i ps true)) (s, .rebalance (.release true) :: fs)
  | decideAdded {i : Nat} {ps : List String} {new : List Partition}
    (hd : decidePartitions (s.members self).topic self (ps ++ [self]) = some new) (hne : ¬new = []) :
    FrameStep s self fs ok (.rebalance (.addSelf i ps true))
      (s, .getHeldPartitions none [] :: .rebalance (.held i (new.map Partition.id) none) :: fs)
  /-- `self._remove_partitions(current_zk_parts - new_partitions)`. -/
  | remove {i : Nat} {new h : List Nat} :
    FrameStep s self fs ok (.rebalance (.held i new (some h)))
      (s, .removePartitions (h.filter (· ∉ new)) :: .rebalance (.removed i new h false) :: fs)
  /-- `self._add_partitions(new_partitions - current_zk_parts)`. -/
  | add {i : Nat} {new h : List Nat} :
    FrameStep s self fs ok (.rebalance (.removed i new h true))
      (s, .addPartitions (new.filter (· ∉ h)) :: .rebalance (.added i new false) :: fs)
  /-- `if new_partitions != self._partitions:` does not hold. -/
  | keep {i : Nat} {new : List Nat} (h : sameSet new (s.members self).partitions) :
    FrameStep s self fs ok (.rebalance (.added i new true)) (s, .rebalance (.release false) :: fs)
  /-- `self._setup_internal_consumer(new_partitions)`. -/
  | rebuild {i : Nat} {new : List Nat} (h : ¬sameSet new (s.members self).partitions) :
    FrameStep s self fs ok (.rebalance (.added i new true))
      (s.setMember self (·.setupInternalConsumer new), .rebalance (.release false) :: fs)
  | releaseStop :
    FrameStep s self fs ok (.rebalance (.release true))
      (s.setMember self Member.unlock, .stop .lock :: .rebalance (.stopping false) :: fs)
  | release :
    FrameStep s self fs ok (.rebalance (.release false)) (s.setMember self Member.unlock, ret .unit fs)
  | stopped : FrameStep s self fs ok (.rebalance (.stopping true)) (s, ret .unit fs)
  /-- `stop`: `with self._rebalancing_lock: self._running = False`. -/
  | stopLock (h : ¬(s.members self).locked) :
    FrameStep s self fs ok (.stop .lock) (s.setMember self fun m => {m with running := false}, .stop .consumer :: fs)
  /-- `self._consumer.stop()`, then `self._zookeeper.stop()`. -/
  | stopConsumer (h : (s.members self).config.ownsZookeeper) :
    FrameStep s self fs ok (.stop .consumer)
      (s.setMember self fun m => {m with consumer := m.consumer.map ({· with running := false})}, .stop .close :: fs)
  /-- `self._consumer.stop()`, then the records of a borrowed client. -/
  | stopConsumerBorrowed (h : ¬(s.members self).config.ownsZookeeper) :
    FrameStep s self fs ok (.stop .consumer)
      (s.setMember self fun m => {m with consumer := m.consumer.map ({· with running := false})},
        .getHeldPartitions none [] :: .stop (.held none) :: fs)
  | closeNone (h : (s.members self).zookeeper = none) :
    FrameStep s self fs ok (.stop .close)
      (raise self (.attributeError "'NoneType' object has no attribute 'stop'") s fs)
  /-- `self._zookeeper.stop()` of a client already stopped. -/
  | closeAgain {c : Client} (h : (s.members self).zookeeper = some c) (hc : c.closed = true) :
    FrameStep s self fs ok (.stop .close)
      (s.setMember self fun m => {m with zookeeper := some {c with closed := true}}, ret .unit fs)
  /-- `self._zookeeper.stop()`: the session ends. -/
  | close {c : Client} (h : (s.members self).zookeeper = some c) (hc : ¬c.closed = true) :
    FrameStep s self fs ok (.stop .close)
      ({s with store := s.store.expire c.session}.setMember self
        fun m => {m with zookeeper := some {c with closed := true}}, ret .unit fs)
  | stopHeld {h : List Nat} :
    FrameStep s self fs ok (.stop (.held (some h))) (s, .removePartitions h :: .stop (.removed false) :: fs)
  | stopRemoved : FrameStep s self fs ok (.stop (.removed true)) (s, .stop .deleteSelf :: fs)
  /-- `self._zookeeper.delete(self._path_self)`, with `NoNodeException` ignored. -/
  | deleteIdMissing {sid : Nat} (hs : (s.members self).session = .ok sid) (hd : s.store.ids.delete self = none) :
    FrameStep s self fs ok (.stop .deleteSelf) (s, ret .unit fs)
  | deleteId {sid : Nat} {d : Dir} (hs : (s.members self).session = .ok sid)
    (hd : s.store.ids.delete self = some d) :
    FrameStep s self fs ok (.stop .deleteSelf) (s.setIds d, ret .unit fs)
  | deleteIdClosed {e : Exc} (hs : (s.members self).session = .error e) :
    FrameStep s self fs ok (.stop .deleteSelf) (raise self e s fs)
  /-- `start`: `self._setup_zookeeper(...)` opens a client on a new session. -/
  | setup (h : (s.members self).zookeeper.isNone) (hok : ok) :
    FrameStep s self fs ok (.start .setup)
      ({s with nextSession := s.nextSession + 1}.setMember self
        fun m => {m with zookeeper := some ⟨s.nextSession, false⟩}, .start .ensurePath :: fs)
  /-- The client's `start()` times out: kazoo stops the client and raises, and the
  `except` of `start` calls `stop()`. -/
  | setupTimeout (h : (s.members self).zookeeper.isNone) (hok : ¬ok) :
    FrameStep s self fs ok (.start .setup)
      ({s with nextSession := s.nextSession + 1}.setMember self
        fun m => {m with zookeeper := some ⟨s.nextSession, true⟩}, .stop .lock :: .start (.failed false) :: fs)
  | setupSkip (h : ¬(s.members self).zookeeper.isNone) :
    FrameStep s self fs ok (.start .setup) (s, .start .ensurePath :: fs)
  /-- `self._zookeeper.ensure_path(self._topic_path)`, then the call of `_add_self`. -/
  | ensurePath {sid : Nat} (hs : (s.members self).session = .ok sid) :
    FrameStep s self fs ok (.start .ensurePath)
      (s, .getParticipants none [] :: .addSelf none :: .start (.addSelf false) :: fs)
  | ensurePathClosed {e : Exc} (hs : (s.members self).session = .error e) :
    FrameStep s self fs ok (.start .ensurePath) (raise self e s (.start .ensurePath :: fs))
  | selfAdded : FrameStep s self fs ok (.start (.addSelf true)) (s, .start .running :: fs)
  | running :
    FrameStep s self fs ok (.start .running) (s.setMember self fun m => {m with running := true}, .start .watches :: fs)
  /-- `_set_watches`, with the brokers path there; then the call of `_rebalance`. -/
  | watches {sid : Nat} (hs : (s.members self).session = .ok sid) (hb : s.brokers) :
    FrameStep s self fs ok (.start .watches)
      ((s.setMember self fun m => {m with settingWatches := true}).setMember self
        fun m => {m with settingWatches := false}, .rebalance .commit :: .start (.rebalance false) :: fs)
  | watchesNoBrokers {sid : Nat} (hs : (s.members self).session = .ok sid) (hb : ¬s.brokers) :
    FrameStep s self fs ok (.start .watches)
      (raise self brokerPathError (s.setMember self fun m => {m with settingWatches := true})
        (.start .watches :: fs))
  | watchesClosed {e : Exc} (hs : (s.members self).session = .error e) :
    FrameStep s self fs ok (.start .watches) (raise self e s (.start .watches :: fs))
  /-- `self._setup_checker_worker()`. -/
  | checkerStart :
    FrameStep s self fs ok (.start (.rebalance true))
      ({s with threads := s.threads ++ [⟨self, [.checker .loop]⟩]}, ret .unit fs)
  | failed : FrameStep s self fs ok (.start (.failed true)) (s, ret .unit fs)
  /-- A watch callback that returns at once. -/
  | watchSkip (h : (!(s.members self).running || (s.members self).settingWatches) = true) :
    FrameStep s self fs ok (.watch .call) (s, ret .unit fs)
  | watchRebalance (h : ¬(!(s.members self).running || (s.members self).settingWatches) = true) :
    FrameStep s self fs ok (.watch .call) (s, .rebalance .commit :: .watch (.rebalance false) :: fs)
  | watchDone : FrameStep s self fs ok (.watch (.rebalance true)) (s, ret .unit fs)
  /-- The checker: `if not self._running: break`. -/
  | checkerExit (h : (s.members self).running = false) : FrameStep s self fs ok (.checker .loop) (s, ret .unit fs)
  | checkerCheck (h : (s.members self).running = true) :
    FrameStep s self fs ok (.checker .loop) (s, .getHeldPartitions none [] :: .checker (.held none) :: fs)
  /-- `_check_held_partitions()` passes. -/
  | checkerHeld {h : List Nat} (hh : sameSet h (s.members self).partitions) :
    FrameStep s self fs ok (.checker (.held (some h))) (s, .checker .loop :: fs)
  | checkerRebalance {h : List Nat} (hh : ¬sameSet h (s.members self).partitions) :
    FrameStep s self fs ok (.checker (.held (some h))) (s, .rebalance .commit :: .checker .rebalance :: fs)
  /-- `consume`: the member holds no partitions. -/
  | consumeNoPartitions {block : Bool} {polls : List (Poll Nat)} (h : (s.members self).partitions = []) :
    FrameStep s self fs ok (.consume block polls .start) (raise self .noPartitionsForConsumer s fs)
  | consumeStart {block : Bool} {polls : List (Poll Nat)} (h : ¬(s.members self).partitions = []) :
    FrameStep s self fs ok (.consume block polls .start) (s, .consume block polls .loop :: fs)
  /-- `consumer_timed_out()` ends the loop. -/
  | consumeTimedOut {block : Bool} {p : Poll Nat} {ps : List (Poll Nat)}
    (h : ((s.members self).config.consumerTimeoutMs != -1 && p.timedOut) = true) :
    FrameStep s self fs ok (.consume block (p :: ps) .loop) (s, .consume block (p :: ps) (.returned none) :: fs)
  /-- `self._raise_worker_exceptions()` raises the stored error. -/
  | consumeWorkerError {block : Bool} {p : Poll Nat} {ps : List (Poll Nat)} {e : Exc}
    (h : ¬((s.members self).config.consumerTimeoutMs != -1 && p.timedOut) = true)
    (he : (s.members self).raiseWorkerExceptions = .error e) :
    FrameStep s self fs ok (.consume block (p :: ps) .loop) (raise self e (s.setMember self Member.logWorkerTrace) fs)
  | consumePoll {block : Bool} {p : Poll Nat} {ps : List (Poll Nat)}
    (h : ¬((s.members self).config.consumerTimeoutMs != -1 && p.timedOut) = true)
    (he : (s.members self).raiseWorkerExceptions = .ok ()) :
    FrameStep s self fs ok (.consume block (p :: ps) .loop) (s, .consume block (p :: ps) .poll :: fs)
  /-- `self._consumer.consume(...)` on `None`. -/
  | consumeNone {block : Bool} {p : Poll Nat} {ps : List (Poll Nat)} (h : (s.members self).consumer = none) :
    FrameStep s self fs ok (.consume block (p :: ps) .poll)
      (raise self (.attributeError "'NoneType' object has no attribute 'consume'") s fs)
  /-- The loop goes round again: the inner consumer raised `ConsumerStoppedException` while
  the member runs, or gave `None` to a blocking call. -/
  | consumeAgain {block : Bool} {p : Poll Nat} {ps : List (Poll Nat)} (hc : (s.members self).consumer.isSome)
    (h : p.inner = none ∧ (s.members self).running ∨ p.inner = some none ∧ block) :
    FrameStep s self fs ok (.consume block (p :: ps) .poll) (s, .consume block ps .loop :: fs)
  /-- `if not self._running: return` after `ConsumerStoppedException`. -/
  | consumeStopped {block : Bool} {p : Poll Nat} {ps : List (Poll Nat)} (hc : (s.members self).consumer.isSome)
    (hp : p.inner = none) (h : ¬(s.members self).running) :
    FrameStep s self fs ok (.consume block (p :: ps) .poll) (s, .consume block ps (.returned none) :: fs)
  /-- A message, or `None` to a call that does not block, is returned. -/
  | consumeReturn {block : Bool} {p : Poll Nat} {ps : List (Poll Nat)} {msg : Option Nat}
    (hc : (s.members self).consumer.isSome) (hp : p.inner = some msg) (h : ¬(block && msg.isNone) = true) :
    FrameStep s self fs ok (.consume block (p :: ps) .poll) (s, .consume block ps (.returned msg) :: fs)

/-- **Every step of `stepFrame` is one of its branches.** -/
theorem stepFrame_sound {s : Sys} {self : String} {fs : List Frame} {ok : Bool} {f : Frame}
    {r : Sys × List Frame} (h : stepFrame s self fs ok f = some r) : FrameStep s self fs ok f r := by
  -- one case per equation of `stepFrame`
  rcases f with ⟨_ | ⟨_ | ⟨_, _⟩⟩, _⟩ | ⟨_ | ⟨_ | ⟨_, _⟩⟩, _⟩ | ⟨_ | ⟨_, _⟩⟩ | ⟨_ | ⟨_, _⟩⟩ | ⟨_ | _⟩ |
    ⟨_ | _ | _ | ⟨_, _ | _⟩ | ⟨_, _, _ | _⟩ | ⟨_, _, _ | _⟩ | ⟨_, _, _, _ | _⟩ | ⟨_, _, _ | _⟩ | ⟨_ | _⟩ | ⟨_ | _⟩⟩ |
    ⟨_ | _ | _ | ⟨_ | _⟩ | ⟨_ | _⟩ | _⟩ | ⟨_ | _ | ⟨_ | _⟩ | _ | _ | ⟨_ | _⟩ | ⟨_ | _⟩⟩ | ⟨_ | ⟨_ | _⟩⟩ |
    ⟨_ | ⟨_ | _⟩ | _⟩ | ⟨_, _ | ⟨_, _⟩, _ | _ | _ | _⟩ | _
  all_goals simp only [stepFrame] at h
  all_goals
    try simp only [withSession, assign] at h
    repeat' split at h
    all_goals
      first
      | (cases h; done)
      | contradiction
      | obtain rfl := Option.some.inj h
  -- the branch's constructor, its guards from the hypotheses of the split
  all_goals constructor <;> first | assumption | simp_all

end Pykafka
