import Pykafka.Assignment

/-! One `BalancedConsumer` object: its configuration and its mutable fields.

The fields are those `__init__` sets that the modelled methods read or write.
`_rebalancing_lock` is a plain flag: acquiring it waits until it is clear. The
inner `SimpleConsumer` is a collaborator; what the balanced consumer gives it
(its partitions and `reset_offset_on_start`) and whether it has been stopped is
all the model keeps of it.

The façade functions at the end are the ones the application calls; each
starts with `_raise_worker_exceptions`, which raises the stored background
error, if any, and never clears it. What a façade call writes is only the
log-once flag (`logWorkerTrace`); the functions give what the call returns or
raises. -/
namespace Pykafka

/-- The exceptions the modelled code raises or lets through. -/
inductive Exc where
  /-- `ConsumerStoppedException`, with its message (`""` for none). -/
  | consumerStopped (message : String)
  /-- `PartitionOwnedError(p)`. -/
  | partitionOwned (id : Nat)
  /-- `KafkaException`. -/
  | kafka (message : String)
  /-- kazoo's `NoNodeError`. -/
  | noNode
  /-- kazoo's `NodeExistsError`. -/
  | nodeExists
  /-- `KeyError` from `self._topic.partitions[_id]`. -/
  | keyError (id : Nat)
  /-- `ValueError` or `IndexError` from parsing a node name. -/
  | valueError
  /-- The plain `Exception` `_set_watches` raises. -/
  | exception (message : String)
  /-- An error of the inner consumer's `commit_offsets`. -/
  | commitFailed
  /-- kazoo's error for an operation on a stopped client. -/
  | connectionClosed
  /-- kazoo's `KazooTimeoutError`: `KazooClient.start()` reached no coordinator in time. -/
  | timeout
  /-- `AttributeError`, from a method called on `None`. -/
  | attributeError (message : String)
  /-- `NoPartitionsForConsumerException`. -/
  | noPartitionsForConsumer
deriving DecidableEq, Repr

/-- The raise in `_add_self`. -/
def capacityError : Exc := .kafka "Cannot add consumer: more consumers than partitions"

/-- The raise in `_set_watches` when `/brokers/ids` is missing. -/
def brokerPathError : Exc :=
  .exception ("The broker_path \"/brokers/ids\" does not exist in your " ++
    "ZooKeeper cluster -- is your Kafka cluster running?")

/-- The constructor arguments the modelled methods read. -/
structure Config where
  rebalanceMaxRetries : Int := 5
  resetOffsetOnStart : Bool := false
  consumerTimeoutMs : Int := -1
  /-- The session of the injected client (`zookeeper=`), `none` when it is `None`. -/
  zookeeper : Option Nat := none
deriving DecidableEq, Repr

/-- `self._owns_zookeeper`. -/
def Config.ownsZookeeper (c : Config) : Bool := c.zookeeper.isNone

/-- The inner `SimpleConsumer`: the partitions it was built over, the
`reset_offset_on_start` it was given, and whether it has not been stopped. -/
structure Consumer where
  partitions : List Nat
  resetOffsetOnStart : Bool
  running : Bool
deriving DecidableEq, Repr

/-- A `KazooClient`: its current session, and whether `stop()` closed it. -/
structure Client where
  session : Nat
  closed : Bool
deriving DecidableEq, Repr

structure Member where
  config : Config
  /-- `self._topic`, as this member's metadata refreshes leave it. -/
  topic : Topic
  running : Bool
  settingWatches : Bool
  workerException : Option Exc
  workerTraceLogged : Bool
  consumer : Option Consumer
  zookeeper : Option Client
  /-- `self._rebalancing_lock` is held. -/
  locked : Bool

/-- One pass of `consume`'s loop as its environment answers it: whether
`consumer_timed_out()` finds the time without messages over the limit, and what the
inner consumer's `consume(block)` gives (`none` for `ConsumerStoppedException`). -/
structure Poll (Msg : Type) where
  timedOut : Bool
  inner : Option (Option Msg)
deriving DecidableEq, Repr

namespace Member

/-- The object `__init__` leaves (`auto_start=False`). -/
def init (config : Config) (topic : Topic) : Member where
  config := config
  topic := topic
  running := false
  settingWatches := true
  workerException := none
  workerTraceLogged := false
  consumer := none
  zookeeper := config.zookeeper.map (⟨·, false⟩)
  locked := false

/-- `self._partitions`: the inner consumer's partitions, empty without one. -/
def partitions (m : Member) : List Nat :=
  match m.consumer with
  | some c => c.partitions
  | none => []

/-- The session of `self._zookeeper`, or the error an operation on it raises. -/
def session (m : Member) : Except Exc Nat :=
  match m.zookeeper with
  | none => .error (.attributeError "'NoneType' object has no attribute")
  | some c => if c.closed then .error .connectionClosed else .ok c.session

theorem session_eq_ok {m : Member} {sid : Nat} (h : m.session = .ok sid) :
    ∃ c, m.zookeeper = some c ∧ c.closed = false ∧ c.session = sid := by
  unfold session at h
  split at h
  · cases h
  · rename_i c hc
    split at h
    · cases h
    · rename_i hcl
      exact ⟨c, hc, by simpa using hcl, by cases h; rfl⟩

/-- `_setup_internal_consumer(partitions)`: the old inner consumer is stopped and
replaced; only the first one is given `reset_offset_on_start`. -/
def setupInternalConsumer (m : Member) (partitions : List Nat) : Member :=
  let resetOffsetOnStart := if m.consumer.isSome then false else m.config.resetOffsetOnStart
  {m with consumer := some ⟨partitions, resetOffsetOnStart, true⟩}

/-! ### The façade -/

/-- `_raise_worker_exceptions`: the stored error, if there is one. -/
def raiseWorkerExceptions (m : Member) : Except Exc Unit :=
  match m.workerException with
  | some e => .error e
  | none => .ok ()

/-- What `_raise_worker_exceptions` leaves: the traceback is logged once. -/
def logWorkerTrace (m : Member) : Member :=
  {m with workerTraceLogged := m.workerTraceLogged || m.workerException.isSome}

/-- `commit_offsets`, with `ok` the inner consumer's answer. -/
def commitOffsets (m : Member) (ok : Bool) : Except Exc Unit := do
  m.raiseWorkerExceptions
  match m.consumer with
  | none => throw (.attributeError "'NoneType' object has no attribute 'commit_offsets'")
  | some _ => if ok then pure () else throw .commitFailed

/-- `reset_offsets`. -/
def resetOffsets (m : Member) : Except Exc Unit := do
  m.raiseWorkerExceptions
  match m.consumer with
  | none => throw (.consumerStopped "Internal consumer is stopped")
  | some _ => pure ()

/-- The loop of `consume`, from the `message` it has; `none` when it needs more answers
than `polls` gives. -/
def consumeLoop {Msg : Type} (m : Member) (block : Bool) : Option Msg → List (Poll Msg) →
    Option (Except Exc (Option Msg))
  | some msg, _ => some (.ok (some msg))
  | none, [] => none
  | none, p :: ps =>
    if m.config.consumerTimeoutMs != -1 && p.timedOut then some (.ok none)
    else match m.raiseWorkerExceptions with
      | .error e => some (.error e)
      | .ok () =>
        match p.inner with
        | none => if m.running then consumeLoop m block none ps else some (.ok none)
        | some msg => if block then consumeLoop m block msg ps else some (.ok msg)

/-- `consume(block)`, its loop answered by `polls`, with every pass reading the member
`m` as it is at the call. The consuming thread (the `consume` frames of `stepFrame`)
re-reads the member at each pass; the two agree when no other party steps. -/
def consume {Msg : Type} (m : Member) (block : Bool) (polls : List (Poll Msg)) :
    Option (Except Exc (Option Msg)) :=
  if m.partitions = [] then some (.error .noPartitionsForConsumer)
  else consumeLoop m block none polls

end Member

end Pykafka
