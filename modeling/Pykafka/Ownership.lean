import Pykafka.Effect

/-! Ownership records and the partition ids they stand for.

`_path_from_partition` names a record `<leader>-<id>` after the partition object
of the member that creates or deletes it, and `_get_held_partitions` reads back
only the id. While no member's topic object sees a leader change, all members
name a partition alike, so every record carries its partition's one name and
no two records share an id (`owners_slugId_injective`), when every member was
constructed with the same topic object. Members whose topic objects disagree on a
leader, from construction or after a refresh in one of them, give a partition two
names: a member that claims it under its name does not collide with the record made
under the other (`owners_two_records_disagreeing_views`), and an owner that reads its
ids back and deletes by its current name deletes the other member's record
(`removePartitions_deletes_peer_record`). -/
namespace Pykafka

@[simp] theorem Topic.slugId_pathOf (t : Topic) (id : Nat) : slugId (t.pathOf id) = some id :=
  slugId_pathFromPartition _

theorem Topic.pathOf_inj {t : Topic} {a b : Nat} : t.pathOf a = t.pathOf b ↔ a = b :=
  ⟨fun h => by simpa using congrArg slugId h, congrArg _⟩

/-- Two partitions, both led by broker 1. -/
def twoPartitions : Topic := ⟨"t", [⟨0, 1⟩, ⟨1, 1⟩], by decide⟩

/-- Every member sees the topic `T`, every ownership record is named after one of its
partition ids as `T` leads it, and every participant record holds `T`'s name. -/
structure NamedBy (T : Topic) (s : Sys) : Prop where
  topic : ∀ m, (s.members m).topic = T
  owners : ∀ n ∈ s.store.owners.children, ∃ id, n = T.pathOf id
  ids : ∀ e ∈ s.store.ids.entries, e.2.value = T.name

namespace NamedBy

variable {T : Topic} {s s' : Sys}

theorem init (config : String → Config) (brokers : Bool) (n : Nat) :
    NamedBy T (Sys.init config (fun _ => T) brokers n) :=
  ⟨fun _ => rfl, fun _ h => (nomatch h), fun _ h => (nomatch h)⟩

/-- A record a thread creates is named by its member's topic, which is `T`. -/
theorem owners_effect {member : String} {f : Frame} (h : NamedBy T s) (he : OwnersEffect member f s s') :
    ∀ n ∈ s'.store.owners.children, ∃ id, n = T.pathOf id := by
  rcases he with he | ⟨p, -, sid, -, -, hc⟩ | ⟨p, -, -, -, -, hd⟩ | ⟨c, -, -, he⟩
  · rw [he]
    exact h.owners
  · intro n hn
    rw [Dir.children_create hc, h.topic member, List.mem_cons] at hn
    exact hn.elim (⟨p, ·⟩) (h.owners n)
  · exact fun n hn => h.owners n (Dir.children_delete_subset hd hn)
  · rw [he]
    exact fun n hn => h.owners n (Dir.children_expire_subset _ _ hn)

/-- A participant record a thread creates holds its member's topic name, which is `T`'s. -/
theorem ids_effect {member : String} {f : Frame} (h : NamedBy T s) (he : IdsEffect member f s s') :
    ∀ e ∈ s'.store.ids.entries, e.2.value = T.name := by
  rcases he with he | ⟨ps, sid, -, -, hc⟩ | ⟨-, hd⟩ | ⟨c, -, -, he⟩
  · rw [he]
    exact h.ids
  · intro e he
    rcases (Dir.mem_create hc).mp he with rfl | he
    · exact congrArg Topic.name (h.topic member)
    · exact h.ids e he
  · exact fun e he => h.ids e ((Dir.mem_delete hd).mp he).1
  · rw [he]
    exact fun e he => h.ids e (Dir.mem_expire.mp he).1

theorem step {e : Event} (h : NamedBy T s) (hl : e.isLeader = false) (hs : s.step e = some s') :
    NamedBy T s' := by
  obtain ⟨i, ok, t, f, fs, r, rfl, -, -, -, he, rfl⟩ | ⟨m, entry, rfl, rfl⟩ | ⟨sid, rfl, rfl⟩ |
    ⟨m, id, l, rfl, -⟩ := Sys.step_cases hs
  · refine ⟨fun m => ?_, h.owners_effect he.owners, h.ids_effect he.ids⟩
    dsimp only
    by_cases hm : m = t.self
    · rw [hm, he.keeps.topic, h.topic]
    · rw [he.others m hm, h.topic]
  · exact ⟨h.topic, h.owners, h.ids⟩
  · refine ⟨fun m => ?_, fun n hn => h.owners n (Dir.children_expire_subset s.store.owners sid hn),
      fun e he => h.ids e (Dir.mem_expire.mp he).1⟩
    rw [Sys.expireSession_members]
    exact h.topic m
  · cases hl

theorem reachable {config : String → Config} {brokers : Bool} {n : Nat}
    (h : Reachable (fun e => e.isLeader = false) (Sys.init config (fun _ => T) brokers n) s) : NamedBy T s :=
  h.induct (NamedBy T) (init config brokers n) fun _ hi hl hs => hi.step hl hs

end NamedBy

/-- **At most one record per partition id.** In every state reached without a leader
change, two ownership records that `_get_held_partitions` reads as the same partition
id are one record. -/
theorem owners_slugId_injective (config : String → Config) (T : Topic) (brokers : Bool) (n : Nat)
    {s : Sys} (h : Reachable (fun e => e.isLeader = false) (Sys.init config (fun _ => T) brokers n) s) :
    ∀ n₁ ∈ s.store.owners.children, ∀ n₂ ∈ s.store.owners.children, slugId n₁ = slugId n₂ → n₁ = n₂ := by
  have hN := NamedBy.reachable h
  intro n₁ h₁ n₂ h₂ he
  obtain ⟨id₁, rfl⟩ := hN.owners n₁ h₁
  obtain ⟨id₂, rfl⟩ := hN.owners n₂ h₂
  simp only [Topic.slugId_pathOf, Option.some.injEq] at he
  rw [he]

/-- After `a` starts alone on `twoPartitions` it holds both records, told apart by their ids. -/
theorem owners_slugId_injective_start :
    ∃ s, Reachable (fun e => e.isLeader = false) (Sys.init (fun _ => {}) (fun _ => twoPartitions) true 0) s ∧
      s.store.owners.children = ["1-1", "1-0"] ∧
      ∀ n₁ ∈ s.store.owners.children, ∀ n₂ ∈ s.store.owners.children, slugId n₁ = slugId n₂ → n₁ = n₂ := by
  obtain ⟨s, hr, hc⟩ := @Reachable.exists_of_run (fun e => e.isLeader = false)
    (Sys.init (fun _ => {}) (fun _ => twoPartitions) true 0) (fun s => s.store.owners.children = ["1-1", "1-0"]) _
    ([.call "a" .start] ++ List.replicate 26 (.run 0 true)) (by decide) (by decide)
  exact ⟨s, hr, hc, owners_slugId_injective _ _ _ _ hr⟩

/-! ### Topic objects that disagree -/

/-- `twoPartitions` with partition 1 led by broker 2. -/
def twoPartitionsMoved : Topic := ⟨"t", [⟨0, 1⟩, ⟨1, 2⟩], by decide⟩

/-- `a` and `b` were constructed with topic objects that disagree on the leader of
partition 1: `a`'s is `twoPartitions`, `b`'s `twoPartitionsMoved`. With no leader change,
`a` starts alone and claims both partitions; then `b` starts, and its `_rebalance`
claims partition 1 under its own name for it, which `create` does not find taken.
Partition 1 then has two records, `a`'s `1-1` and `b`'s `2-1`, which
`_get_held_partitions` both reads as partition 1. -/
theorem owners_two_records_disagreeing_views :
    ∃ s, Reachable (fun e => e.isLeader = false)
        (Sys.init (fun _ => {}) (fun m => if m = "b" then twoPartitionsMoved else twoPartitions) true 0) s ∧
      s.store.owners.get "1-1" = some ⟨"a", 0⟩ ∧ s.store.owners.get "2-1" = some ⟨"b", 1⟩ ∧
      slugId "1-1" = some 1 ∧ slugId "2-1" = some 1 := by
  obtain ⟨s, hr, h₁, h₂⟩ := @Reachable.exists_of_run (fun e => e.isLeader = false)
    (Sys.init (fun _ => {}) (fun m => if m = "b" then twoPartitionsMoved else twoPartitions) true 0)
    (fun s => s.store.owners.get "1-1" = some ⟨"a", 0⟩ ∧ s.store.owners.get "2-1" = some ⟨"b", 1⟩) _
    ([.call "a" .start] ++ List.replicate 26 (.run 0 true) ++ [.call "b" .start] ++ List.replicate 29 (.run 2 true))
    (by decide) (by decide)
  exact ⟨s, hr, h₁, h₂, by decide, by decide⟩

/-! ### A leader change -/

/-- `a` starts alone and claims both partitions; a refresh moves partition 1 to broker 2
in the topic objects of `a` and `b`; `b` starts and claims partition 1. -/
def leaderMoveRun : List Event :=
  [.call "a" .start] ++ List.replicate 26 (.run 0 true) ++
    [.leader "a" 1 2, .leader "b" 1 2, .call "b" .start] ++ List.replicate 29 (.run 2 true)

/-- Then a watch fires at `a`. Its `_rebalance` reads back ids 0 and 1 from its records,
keeps 0, and its `_remove_partitions` is about to delete partition 1 by `a`'s current
name for it, `2-1`: `b`'s record. Its next step deletes it. -/
theorem removePartitions_deletes_peer_record :
    ∃ s, Reachable (fun _ => True) (Sys.init (fun _ => {}) (fun _ => twoPartitions) true 0) s ∧
      s.threads[4]?.map (fun t => (t.self, t.stack.head?)) = some ("a", some (.removePartitions [1])) ∧
      (s.members "a").topic.pathOf 1 = "2-1" ∧ s.store.owners.get "2-1" = some ⟨"b", 1⟩ ∧
      (s.step (.run 4 true)).map (·.store.owners.get "2-1") = some none :=
  Reachable.exists_of_run _ (leaderMoveRun ++ .call "a" .watch :: List.replicate 15 (.run 4 true))
    (fun _ _ => trivial) (by decide)

end Pykafka
