import Pykafka.Member

/-! Program points of the methods that touch the coordinator.

Several threads act on one member at once: the callers of `start`, `stop` and `consume`,
kazoo's watch callbacks and the checker thread. A thread is a call stack of
frames, one frame per running method, each at a program point. A step of the
thread runs the top frame up to its next coordinator operation or shared
field, so every coordinator operation is its own atomic step.

A frame waiting for a callee has a slot for the callee's result (`none` or
`false` while waiting); the callee's return fills it. -/
namespace Pykafka

/-- What a callee returns to its caller. -/
inductive Ret where
  | unit
  /-- `_get_participants()`. -/
  | names (ids : List String)
  /-- `_get_held_partitions()`, as partition ids. -/
  | ids (ids : List Nat)
deriving DecidableEq, Repr

/-- `_rebalance`. `i` is the retry loop's counter; `new` is `new_partitions` and
`held` is `current_zk_parts`. -/
inductive Rebalance where
  /-- `if self._consumer is not None: self.commit_offsets()` -/
  | commit
  /-- `with self._rebalancing_lock:` -/
  | acquire
  /-- `if not self._running: raise ConsumerStoppedException` -/
  | check
  /-- `participants = self._get_participants()` -/
  | participants (i : Nat) (ps : Option (List String))
  /-- `self._add_self()` -/
  | addSelf (i : Nat) (ps : List String) (done : Bool)
  /-- `current_zk_parts = self._get_held_partitions()` -/
  | held (i : Nat) (new : List Nat) (held : Option (List Nat))
  /-- `self._remove_partitions(current_zk_parts - new_partitions)` -/
  | removed (i : Nat) (new held : List Nat) (done : Bool)
  /-- `self._add_partitions(new_partitions - current_zk_parts)` -/
  | added (i : Nat) (new : List Nat) (done : Bool)
  /-- the end of the `with` block -/
  | release (shouldStop : Bool)
  /-- `if should_stop: self.stop()` -/
  | stopping (done : Bool)
deriving DecidableEq, Repr

/-- `stop`. -/
inductive Stop where
  /-- `with self._rebalancing_lock: self._running = False` -/
  | lock
  /-- `if self._consumer is not None: self._consumer.stop()` -/
  | consumer
  /-- `self._zookeeper.stop()` -/
  | close
  /-- `self._remove_partitions(self._get_held_partitions())` -/
  | held (held : Option (List Nat))
  | removed (done : Bool)
  /-- `self._zookeeper.delete(self._path_self)`, `NoNodeException` ignored -/
  | deleteSelf
deriving DecidableEq, Repr

/-- `start`. -/
inductive Start where
  /-- `if self._zookeeper is None: self._setup_zookeeper(...)` -/
  | setup
  /-- `self._zookeeper.ensure_path(self._topic_path)` -/
  | ensurePath
  /-- `self._add_self()` -/
  | addSelf (done : Bool)
  /-- `self._running = True` -/
  | running
  /-- `self._set_watches()` -/
  | watches
  /-- `self._rebalance()` -/
  | rebalance (done : Bool)
  /-- `except Exception: self.stop()` -/
  | failed (done : Bool)
deriving DecidableEq, Repr

/-- `_brokers_changed`, `_consumers_changed` and `_topics_changed`, which differ only
in their log line, under `_catch_thread_exception`. -/
inductive Watch where
  /-- `if not self._running: return False`, `if self._setting_watches: return` -/
  | call
  /-- `self._rebalance()` -/
  | rebalance (done : Bool)
deriving DecidableEq, Repr

/-- The loop of the checker thread `_setup_checker_worker` spawns. -/
inductive Checker where
  /-- `if not self._running: break` -/
  | loop
  /-- `_check_held_partitions`: `zk_partitions = self._get_held_partitions()` -/
  | held (held : Option (List Nat))
  /-- `if not self._check_held_partitions(): self._rebalance()` -/
  | rebalance
deriving DecidableEq, Repr

/-- `consume(block)`: the pass of its loop it is at, or the message it returned. -/
inductive Consume where
  /-- `if not self._partitions: raise NoPartitionsForConsumerException()` -/
  | start
  /-- `while message is None and not consumer_timed_out():`, then
  `self._raise_worker_exceptions()` -/
  | loop
  /-- `message = self._consumer.consume(block=block)` and the rest of the pass -/
  | poll
  /-- `return message`, as the caller sees it. -/
  | returned (message : Option Nat)
deriving DecidableEq, Repr

inductive Frame where
  /-- `_get_participants`: before `get_children` (`none`), then the ids left to read
  and those kept. -/
  | getParticipants (left : Option (List String)) (found : List String)
  /-- `_get_held_partitions`: before `get_children` (`none`), then the names left to
  read and the partition ids found. -/
  | getHeldPartitions (left : Option (List String)) (found : List Nat)
  /-- `_remove_partitions` over the partitions left. -/
  | removePartitions (left : List Nat)
  /-- `_add_partitions` over the partitions left. -/
  | addPartitions (left : List Nat)
  /-- `_add_self`, waiting for `_get_participants()`. -/
  | addSelf (ps : Option (List String))
  | rebalance (pc : Rebalance)
  | stop (pc : Stop)
  | start (pc : Start)
  | watch (pc : Watch)
  | checker (pc : Checker)
  /-- `consume(block)` of the application, with the answers its environment gives the
  passes of its loop still to run; messages are named by numbers. -/
  | consume (block : Bool) (polls : List (Poll Nat)) (pc : Consume)
  /-- An exception that escaped the entry point, as its caller sees it. -/
  | raised (e : Exc)
deriving DecidableEq, Repr

namespace Frame

/-- A callee's result, given to the frame that called it. -/
def deliver : Frame → Ret → Frame
  | rebalance (.participants i none), .names ps => rebalance (.participants i (some ps))
  | rebalance (.addSelf i ps false), .unit => rebalance (.addSelf i ps true)
  | rebalance (.held i new none), .ids h => rebalance (.held i new (some h))
  | rebalance (.removed i new h false), .unit => rebalance (.removed i new h true)
  | rebalance (.added i new false), .unit => rebalance (.added i new true)
  | rebalance (.stopping false), .unit => rebalance (.stopping true)
  | stop (.held none), .ids h => stop (.held (some h))
  | stop (.removed false), .unit => stop (.removed true)
  | start (.addSelf false), .unit => start (.addSelf true)
  | start (.rebalance false), .unit => start (.rebalance true)
  | start (.failed false), .unit => start (.failed true)
  | watch (.rebalance false), .unit => watch (.rebalance true)
  | checker (.held none), .ids h => checker (.held (some h))
  | checker .rebalance, .unit => checker .loop
  | addSelf none, .names ps => addSelf (some ps)
  | f, _ => f

end Frame

/-- A thread: the member it runs methods of, and its call stack, innermost first.
An empty stack is a call that returned; `[.raised e]` one that raised `e`. -/
structure Thread where
  self : String
  stack : List Frame
deriving DecidableEq, Repr

end Pykafka
