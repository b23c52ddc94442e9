import Pykafka.Coordinator
import Pykafka.Frame

/-! Members, threads and the coordinator, stepping one atomic action at a time.

A state holds the coordinator, every member (a member is named by its consumer
id, so two members never share one), the running threads and the next session
id the coordinator hands out. An event is one of: a thread's next step; a call
that starts a thread (`start`, `stop` or `consume` by the application, a watch
callback by kazoo); the coordinator ending a session; a metadata refresh moving a
partition's leader in one member's topic object.

`stepFrame` is the translation of the methods: one case per program point,
each doing what the source does from that point to the next shared action. An
exception unwinds the stack (`raise`) to the frame whose `try` or `with`
handles it. -/
namespace Pykafka

structure Sys where
  store : Store
  members : String → Member
  threads : List Thread
  nextSession : Nat
  /-- `/brokers/ids` exists. -/
  brokers : Bool

/-- The entry points that start a thread. -/
inductive Entry where
  | start
  | stop
  /-- A fired watch: `_brokers_changed`, `_topics_changed` or `_consumers_changed`. -/
  | watch
  /-- `consume(block)`, with the answers the passes of its loop get. -/
  | consume (block : Bool) (polls : List (Poll Nat))
deriving DecidableEq, Repr

def Entry.frame : Entry → Frame
  | .start => .start .setup
  | .stop => .stop .lock
  | .watch => .watch .call
  | .consume block polls => .consume block polls .start

inductive Event where
  /-- Thread `i` takes its next step; `ok` is the inner consumer's answer if that
  step commits offsets, and the coordinator's if it connects a new client. -/
  | run (i : Nat) (ok : Bool)
  | call (member : String) (entry : Entry)
  /-- The coordinator ends a session (expiry); clients on it reconnect. -/
  | expire (session : Nat)
  /-- A metadata refresh in one member's topic object. -/
  | leader (member : String) (id leader : Nat)
deriving DecidableEq, Repr

/-- The leader member `t` sees for partition `id`. -/
def Topic.leaderOf (t : Topic) (id : Nat) : Nat :=
  ((t.find? id).map Partition.leader).getD 0

/-- `_path_from_partition(p)` for the partition object with id `id`, as it is now. -/
def Topic.pathOf (t : Topic) (id : Nat) : String :=
  pathFromPartition ⟨id, t.leaderOf id⟩

/-- Python's `a == b` on two sets of partitions. -/
def sameSet (a b : List Nat) : Bool := decide (a ⊆ b ∧ b ⊆ a)

namespace Sys

def setMember (s : Sys) (m : String) (f : Member → Member) : Sys :=
  {s with members := fun m' => if m' = m then f (s.members m) else s.members m'}

def setOwners (s : Sys) (d : Dir) : Sys := {s with store := {s.store with owners := d}}

def setIds (s : Sys) (d : Dir) : Sys := {s with store := {s.store with ids := d}}

/-- The coordinator ends `session`: its nodes vanish, and every client on it
reconnects with a fresh session. -/
def expireSession (s : Sys) (session : Nat) : Sys where
  store := s.store.expire session
  members := fun m =>
    let M := s.members m
    match M.zookeeper with
    | some c => if c.session = session ∧ c.closed = false
        then {M with zookeeper := some {c with session := s.nextSession}} else M
    | none => M
  threads := s.threads
  nextSession := s.nextSession + 1
  brokers := s.brokers

/-- `_get_participants`' test of the child `c`: its record holds the topic's name. A
child that vanished since `get_children` is skipped. -/
def isParticipant (s : Sys) (self c : String) : Bool :=
  match s.store.ids.get c with
  | some n => n.value == (s.members self).topic.name
  | none => false

/-- The object `__init__` leaves for every member, each with the configuration and the
topic object it was constructed with, and no thread yet. -/
def init (config : String → Config) (topic : String → Topic) (brokers : Bool) (nextSession : Nat) : Sys :=
  ⟨Store.empty, fun m => Member.init (config m) (topic m), [], nextSession, brokers⟩

end Sys

def Member.lock (m : Member) : Member := {m with locked := true}
def Member.unlock (m : Member) : Member := {m with locked := false}

/-- The retry counter of a point inside the `try` of `_rebalance`'s loop. -/
def Rebalance.attempt : Rebalance → Option Nat
  | .participants i _ | .addSelf i _ _ | .held i _ _ | .removed i _ _ _ | .added i _ _ => some i
  | _ => none

/-- The points inside `with self._rebalancing_lock`, its end included. -/
def Rebalance.holdsLock : Rebalance → Bool
  | .commit | .acquire | .stopping _ => false
  | _ => true

/-- Return `v` to the caller of the frame just popped. -/
def ret (v : Ret) : List Frame → List Frame
  | [] => []
  | f :: fs => f.deliver v :: fs

/-- `e` propagates from the frame on top of `fs` down to the frame that handles it. -/
def raise (self : String) (e : Exc) : Sys → List Frame → Sys × List Frame
  | s, [] => (s, [.raised e])
  | s, .rebalance pc :: fs =>
    let max := (s.members self).config.rebalanceMaxRetries
    match pc.attempt, e with
    | some i, .partitionOwned _ =>
      if (i : Int) = max - 1 then raise self e (s.setMember self Member.unlock) fs
      else if i + 1 < max.toNat then
        (s, .getParticipants none [] :: .rebalance (.participants (i + 1) none) :: fs)
      else (s, .rebalance (.release false) :: fs)
    | _, _ => raise self e (if pc.holdsLock then s.setMember self Member.unlock else s) fs
  | s, .start pc :: fs =>
    match pc with
    | .failed _ => raise self e s fs
    | _ => (s, .stop .lock :: .start (.failed false) :: fs)
  | s, .watch _ :: fs => (s.setMember self fun m => {m with workerException := some e}, ret .unit fs)
  | s, .checker _ :: fs => (s.setMember self fun m => {m with workerException := some e}, ret .unit fs)
  | s, _ :: fs => raise self e s fs

section Step
variable (s : Sys) (self : String) (fs : List Frame)

/-- Run `k` on the client's session, or raise what an operation on the client raises. -/
def withSession (k : Nat → Option (Sys × List Frame)) : Option (Sys × List Frame) :=
  match (s.members self).session with
  | .error e => some (raise self e s fs)
  | .ok sid => k sid

/-- `new_partitions = self._decide_partitions(participants)` and what follows it in the
loop body, up to `_get_held_partitions()`. Its `ValueError` is raised inside the `with`
block, which releases the lock. -/
def assign (i : Nat) (ps : List String) : Option (Sys × List Frame) :=
  match decidePartitions (s.members self).topic self ps with
  | none => some (raise self .valueError s (.rebalance (.participants i (some ps)) :: fs))
  | some new =>
    if new = [] then some (s, .rebalance (.release true) :: fs)
    else some (s, .getHeldPartitions none [] :: .rebalance (.held i (new.map Partition.id) none) :: fs)

/-- The step of the frame `f` on top of `f :: fs`; `none` when it waits (for the lock,
or for a callee). -/
def stepFrame (ok : Bool) : Frame → Option (Sys × List Frame)
  | .getParticipants none found => withSession s self fs fun _ =>
    some (s, .getParticipants (some s.store.ids.children) found :: fs)
  | .getParticipants (some (c :: cs)) found => withSession s self fs fun _ =>
    some (s, .getParticipants (some cs) (if s.isParticipant self c then found ++ [c] else found) :: fs)
  | .getParticipants (some []) found => some (s, ret (.names (sortedParticipants found)) fs)
  | .getHeldPartitions none found => withSession s self fs fun _ =>
    some (s, .getHeldPartitions (some s.store.owners.children) found :: fs)
  | .getHeldPartitions (some (c :: cs)) found => withSession s self fs fun _ =>
    match s.store.owners.get c with
    | some n =>
      if n.value = self then
        match slugId c with
        | some id => some (s, .getHeldPartitions (some cs) (found.insert id) :: fs)
        | none => some (raise self .valueError s fs)
      else some (s, .getHeldPartitions (some cs) found :: fs)
    | none => some (s, .getHeldPartitions (some cs) found :: fs)
  | .getHeldPartitions (some []) found =>
    match found.find? fun id => ((s.members self).topic.find? id).isNone with
    | some id => some (raise self (.keyError id) s fs)
    | none => some (s, ret (.ids found) fs)
  | .removePartitions (p :: ps) => withSession s self fs fun _ =>
    match s.store.owners.delete ((s.members self).topic.pathOf p) with
    | some d => some (s.setOwners d, .removePartitions ps :: fs)
    | none => some (raise self .noNode s fs)
  | .removePartitions [] => some (s, ret .unit fs)
  | .addPartitions (p :: ps) => withSession s self fs fun sid =>
    match s.store.owners.create ((s.members self).topic.pathOf p) ⟨self, sid⟩ with
    | some d => some (s.setOwners d, .addPartitions ps :: fs)
    | none => some (raise self (.partitionOwned p) s fs)
  | .addPartitions [] => some (s, ret .unit fs)
  | .addSelf (some ps) =>
    let M := s.members self
    if M.topic.partitions.length ≤ ps.length then some (raise self capacityError s fs)
    else withSession s self fs fun sid =>
      match s.store.ids.create self ⟨M.topic.name, sid⟩ with
      | some d => some (s.setIds d, ret .unit fs)
      | none => some (raise self .nodeExists s fs)
  | .rebalance .commit =>
    let M := s.members self
    if M.consumer.isSome then
      match M.commitOffsets ok with
      | .error e => some (raise self e (s.setMember self Member.logWorkerTrace) fs)
      | .ok _ => some (s, .rebalance .acquire :: fs)
    else some (s, .rebalance .acquire :: fs)
  | .rebalance .acquire =>
    if (s.members self).locked then none
    else some (s.setMember self Member.lock, .rebalance .check :: fs)
  | .rebalance .check =>
    let M := s.members self
    if !M.running then some (raise self (.consumerStopped "") s (.rebalance .check :: fs))
    else if 0 < M.config.rebalanceMaxRetries.toNat then
      some (s, .getParticipants none [] :: .rebalance (.participants 0 none) :: fs)
    else some (s, .rebalance (.release false) :: fs)
  | .rebalance (.participants i (some ps)) =>
    if self ∈ ps then assign s self fs i ps
    else some (s, .getParticipants none [] :: .addSelf none :: .rebalance (.addSelf i ps false) :: fs)
  | .rebalance (.addSelf i ps true) => assign s self fs i (ps ++ [self])
  | .rebalance (.held i new (some h)) =>
    some (s, .removePartitions (h.filter (· ∉ new)) :: .rebalance (.removed i new h false) :: fs)
  | .rebalance (.removed i new h true) =>
    some (s, .addPartitions (new.filter (· ∉ h)) :: .rebalance (.added i new false) :: fs)
  | .rebalance (.added _ new true) =>
    let s' := if sameSet new (s.members self).partitions then s
      else s.setMember self (·.setupInternalConsumer new)
    some (s', .rebalance (.release false) :: fs)
  | .rebalance (.release shouldStop) =>
    let s' := s.setMember self Member.unlock
    if shouldStop then some (s', .stop .lock :: .rebalance (.stopping false) :: fs)
    else some (s', ret .unit fs)
  | .rebalance (.stopping true) => some (s, ret .unit fs)
  | .stop .lock =>
    if (s.members self).locked then none
    else some (s.setMember self fun m => {m with running := false}, .stop .consumer :: fs)
  | .stop .consumer =>
    let s' := s.setMember self fun m => {m with consumer := m.consumer.map ({· with running := false})}
    if (s.members self).config.ownsZookeeper then some (s', .stop .close :: fs)
    else some (s', .getHeldPartitions none [] :: .stop (.held none) :: fs)
  | .stop .close =>
    match (s.members self).zookeeper with
    | none => some (raise self (.attributeError "'NoneType' object has no attribute 'stop'") s fs)
    | some c =>
      let s' := if c.closed then s else {s with store := s.store.expire c.session}
      some (s'.setMember self fun m => {m with zookeeper := some {c with closed := true}}, ret .unit fs)
  | .stop (.held (some h)) => some (s, .removePartitions h :: .stop (.removed false) :: fs)
  | .stop (.removed true) => some (s, .stop .deleteSelf :: fs)
  | .stop .deleteSelf => withSession s self fs fun _ =>
    match s.store.ids.delete self with
    | some d => some (s.setIds d, ret .unit fs)
    | none => some (s, ret .unit fs)
  | .start .setup =>
    if (s.members self).zookeeper.isNone then
      if ok then
        some ({s with nextSession := s.nextSession + 1}.setMember self
          fun m => {m with zookeeper := some ⟨s.nextSession, false⟩}, .start .ensurePath :: fs)
      else
        -- `start()` timed out: kazoo stops the client and raises
        some (raise self .timeout ({s with nextSession := s.nextSession + 1}.setMember self
          fun m => {m with zookeeper := some ⟨s.nextSession, true⟩}) (.start .setup :: fs))
    else some (s, .start .ensurePath :: fs)
  | .start .ensurePath => withSession s self (.start .ensurePath :: fs) fun _ =>
    some (s, .getParticipants none [] :: .addSelf none :: .start (.addSelf false) :: fs)
  | .start (.addSelf true) => some (s, .start .running :: fs)
  | .start .running => some (s.setMember self fun m => {m with running := true}, .start .watches :: fs)
  | .start .watches => withSession s self (.start .watches :: fs) fun _ =>
    let s' := s.setMember self fun m => {m with settingWatches := true}
    if s.brokers then
      some (s'.setMember self fun m => {m with settingWatches := false},
        .rebalance .commit :: .start (.rebalance false) :: fs)
    else some (raise self brokerPathError s' (.start .watches :: fs))
  | .start (.rebalance true) =>
    some ({s with threads := s.threads ++ [⟨self, [.checker .loop]⟩]}, ret .unit fs)
  | .start (.failed true) => some (s, ret .unit fs)
  | .watch .call =>
    let M := s.members self
    if !M.running || M.settingWatches then some (s, ret .unit fs)
    else some (s, .rebalance .commit :: .watch (.rebalance false) :: fs)
  | .watch (.rebalance true) => some (s, ret .unit fs)
  | .checker .loop =>
    if !(s.members self).running then some (s, ret .unit fs)
    else some (s, .getHeldPartitions none [] :: .checker (.held none) :: fs)
  | .checker (.held (some h)) =>
    if sameSet h (s.members self).partitions then some (s, .checker .loop :: fs)
    else some (s, .rebalance .commit :: .checker .rebalance :: fs)
  | .consume block polls .start =>
    if (s.members self).partitions = [] then some (raise self .noPartitionsForConsumer s fs)
    else some (s, .consume block polls .loop :: fs)
  | .consume block (p :: ps) .loop =>
    let M := s.members self
    if M.config.consumerTimeoutMs != -1 && p.timedOut then some (s, .consume block (p :: ps) (.returned none) :: fs)
    else match M.raiseWorkerExceptions with
      | .error e => some (raise self e (s.setMember self Member.logWorkerTrace) fs)
      | .ok () => some (s, .consume block (p :: ps) .poll :: fs)
  | .consume block (p :: ps) .poll =>
    let M := s.members self
    match M.consumer with
    | none => some (raise self (.attributeError "'NoneType' object has no attribute 'consume'") s fs)
    | some _ =>
      match p.inner with
      -- `except ConsumerStoppedException: if not self._running: return`, else `continue`
      | none => if M.running then some (s, .consume block ps .loop :: fs)
        else some (s, .consume block ps (.returned none) :: fs)
      -- `if not block: return message`; a message ends the loop
      | some msg => if block && msg.isNone then some (s, .consume block ps .loop :: fs)
        else some (s, .consume block ps (.returned msg) :: fs)
  | _ => none

/-- A call that raised takes no further step. -/
@[simp] theorem stepFrame_raised (ok : Bool) (e : Exc) : stepFrame s self fs ok (.raised e) = none := by
  simp only [stepFrame]

end Step

namespace Sys

/-- The next step of thread `t`, with the stack it leaves. -/
def stepThread (s : Sys) (t : Thread) (ok : Bool) : Option (Sys × List Frame) :=
  match t.stack with
  | [] => none
  | f :: fs => stepFrame s t.self fs ok f

def step (s : Sys) : Event → Option Sys
  | .run i ok =>
    match s.threads[i]? with
    | none => none
    | some t => (s.stepThread t ok).map fun (s', stack) =>
      {s' with threads := s'.threads.set i ⟨t.self, stack⟩}
  | .call m e => some {s with threads := s.threads ++ [⟨m, [e.frame]⟩]}
  | .expire session => some (s.expireSession session)
  | .leader m id leader => some (s.setMember m fun M => {M with topic := M.topic.setLeader id leader})

def run (s : Sys) : List Event → Option Sys
  | [] => some s
  | e :: es => (s.step e).bind (run · es)

end Sys

end Pykafka
