import Mathlib.Data.List.Basic
import Mathlib.Data.Nat.Defs
import Mathlib.Data.Nat.Digits
import Mathlib.Tactic.IntervalCases

/-! Partitions, the topic object, and the strings partitions are named by.

`_decide_partitions` orders partitions by the string `p_to_str(p)`, which is
`'<topic>-<leader>-<id>'`, and an ownership record is the node
`'<leader>-<id>'` under the topic's owners path (`_path_from_partition`);
`_get_held_partitions` reads a record back as `int(slug.split('-')[1])`.

Leader and partition ids are broker-assigned and never negative, so their
`str` is the decimal digit string `Nat.toDigits 10`. The two facts everything
later rests on are proved here: a record name gives back the partition id it
was made from (`slugId_pathFromPartition`), and the sort key tells partitions
apart (`pToStr_injective`). -/
namespace Pykafka

/-- A partition as the consumer reads it: its id and the id of its current
leader (`p.leader.id`). -/
structure Partition where
  id : Nat
  leader : Nat
deriving DecidableEq, Repr

/-- The topic object of one member: its name and `topic.partitions`, a dict keyed
by partition id, listed in the dict's iteration order. -/
structure Topic where
  name : String
  partitions : List Partition
  nodup : (partitions.map Partition.id).Nodup

namespace Topic

/-- `topic.partitions[_id]`. -/
def find? (t : Topic) (id : Nat) : Option Partition :=
  t.partitions.find? (fun p => p.id == id)

/-- A metadata refresh that moves partition `id` to leader `leader`. -/
def setLeader (t : Topic) (id leader : Nat) : Topic where
  name := t.name
  partitions := t.partitions.map fun p => if p.id = id then {p with leader := leader} else p
  nodup := by
    rw [List.map_map]
    convert t.nodup using 2
    funext p
    by_cases h : p.id = id <;> simp [h]

@[simp] theorem setLeader_name (t : Topic) (id leader : Nat) :
    (t.setLeader id leader).name = t.name := rfl

theorem setLeader_ids (t : Topic) (id leader : Nat) :
    (t.setLeader id leader).partitions.map Partition.id = t.partitions.map Partition.id := by
  simp only [setLeader, List.map_map]
  congr 1
  funext p
  by_cases h : p.id = id <;> simp [h]

/-- The ids of `topic.partitions`. -/
def ids (t : Topic) : List Nat := t.partitions.map Partition.id

theorem find?_eq_some {t : Topic} {id : Nat} {p : Partition} :
    t.find? id = some p ↔ p ∈ t.partitions ∧ p.id = id := by
  unfold find?
  constructor
  · intro h
    exact ⟨List.mem_of_find?_eq_some h, by simpa using List.find?_some h⟩
  · rintro ⟨hp, rfl⟩
    cases hq : t.partitions.find? (fun q => q.id == p.id) with
    | none => simpa using List.find?_eq_none.mp hq p hp
    | some q =>
      have hqi : q.id = p.id := by simpa using List.find?_some hq
      rw [List.inj_on_of_nodup_map t.nodup (List.mem_of_find?_eq_some hq) hp hqi]

theorem find?_isSome {t : Topic} {id : Nat} : (t.find? id).isSome ↔ id ∈ t.ids := by
  rw [Option.isSome_iff_exists]
  simp only [find?_eq_some, ids, List.mem_map]

@[simp] theorem ids_setLeader (t : Topic) (id leader : Nat) : (t.setLeader id leader).ids = t.ids :=
  setLeader_ids t id leader

end Topic

/-! ### Decimal digits -/

/-- Python's `int` on a string of decimal digits; anything else raises. -/
def parseInt (cs : List Char) : Option Nat :=
  if cs ≠ [] ∧ cs.all Char.isDigit then
    some (cs.foldl (fun n c => 10 * n + (c.toNat - 48)) 0)
  else none

theorem digitChar_toNat {d : Nat} (h : d < 10) : (Nat.digitChar d).toNat - 48 = d := by
  interval_cases d <;> rfl

theorem digitChar_isDigit {d : Nat} (h : d < 10) : (Nat.digitChar d).isDigit = true := by
  interval_cases d <;> rfl

/-- The digits `toDigitsCore` puts in front of `ds` read back as `n`. -/
theorem foldl_toDigitsCore (fuel n : Nat) (ds : List Char) (h : n < fuel) :
    (Nat.toDigitsCore 10 fuel n ds).foldl (fun n c => 10 * n + (c.toNat - 48)) 0 =
      ds.foldl (fun n c => 10 * n + (c.toNat - 48)) n := by
  induction fuel generalizing n ds with
  | zero => omega
  | succ fuel ih =>
    have hd := digitChar_toNat (Nat.mod_lt n (show 10 > 0 by decide))
    simp only [Nat.toDigitsCore]
    split
    · simp only [List.foldl_cons, hd]
      congr 1
      omega
    · rw [ih _ _ (by omega), List.foldl_cons, hd]
      congr 1
      omega

theorem toDigitsCore_isDigit (fuel n : Nat) (ds : List Char) (h : ds.all Char.isDigit) :
    (Nat.toDigitsCore 10 fuel n ds).all Char.isDigit := by
  induction fuel generalizing n ds with
  | zero => exact h
  | succ fuel ih =>
    have hd := digitChar_isDigit (Nat.mod_lt n (show 10 > 0 by decide))
    simp only [Nat.toDigitsCore]
    split
    · simp [hd, h]
    · exact ih _ _ (by simp [hd, h])

theorem toDigits_isDigit (n : Nat) : (Nat.toDigits 10 n).all Char.isDigit :=
  toDigitsCore_isDigit _ _ _ rfl

theorem toDigitsCore_ne_nil (fuel n : Nat) (ds : List Char) (h : ds ≠ []) :
    Nat.toDigitsCore 10 fuel n ds ≠ [] := by
  induction fuel generalizing n ds with
  | zero => exact h
  | succ fuel ih =>
    simp only [Nat.toDigitsCore]
    split
    · exact List.cons_ne_nil _ _
    · exact ih _ _ (List.cons_ne_nil _ _)

theorem toDigits_ne_nil (n : Nat) : Nat.toDigits 10 n ≠ [] := by
  simp only [Nat.toDigits, Nat.toDigitsCore]
  split
  · exact List.cons_ne_nil _ _
  · exact toDigitsCore_ne_nil _ _ _ (List.cons_ne_nil _ _)

/-- `int(str(n)) == n`. -/
theorem parseInt_toDigits (n : Nat) : parseInt (Nat.toDigits 10 n) = some n := by
  rw [parseInt, if_pos ⟨toDigits_ne_nil n, toDigits_isDigit n⟩, Nat.toDigits,
    foldl_toDigitsCore _ _ _ (Nat.lt_succ_self n)]
  rfl

/-- `str(n)` has no `-` in it. -/
theorem dash_not_mem_toDigits (n : Nat) : '-' ∉ Nat.toDigits 10 n := fun h => by
  have := List.all_eq_true.mp (toDigits_isDigit n) _ h
  exact absurd this (by decide)

/-! ### Names -/

/-- `p_to_str` in `_decide_partitions`: `'-'.join([str(p.topic.name), str(p.leader.id), str(p.id)])`. -/
def pToStr (topicName : String) (p : Partition) : String :=
  topicName ++ "-" ++ toString p.leader ++ "-" ++ toString p.id

/-- `_path_from_partition`, below the topic's owners path: `'<leader>-<id>'`. -/
def pathFromPartition (p : Partition) : String :=
  toString p.leader ++ "-" ++ toString p.id

/-- `int(partition_slug.split('-')[1])` in `_get_held_partitions`; `none` where Python
raises. -/
def slugId (slug : String) : Option Nat :=
  match slug.data.splitOn '-' with
  | _ :: part :: _ => parseInt part
  | _ => none

theorem pathFromPartition_data (p : Partition) :
    (pathFromPartition p).data = Nat.toDigits 10 p.leader ++ '-' :: Nat.toDigits 10 p.id := by
  simp [pathFromPartition]
  rfl

theorem pathFromPartition_splitOn (p : Partition) :
    (pathFromPartition p).data.splitOn '-' = [Nat.toDigits 10 p.leader, Nat.toDigits 10 p.id] := by
  have hsep : ∀ n, ∀ c ∈ Nat.toDigits 10 n, ¬(c == '-') = true := fun n c hc h => by
    rw [beq_iff_eq] at h
    exact dash_not_mem_toDigits n (h ▸ hc)
  rw [pathFromPartition_data, List.splitOn, List.splitOnP_first _ _ (hsep _) '-' rfl,
    List.splitOnP_eq_single _ _ (hsep _)]

/-- **A record name gives back its partition id**: `_get_held_partitions` inverts
`_path_from_partition`. -/
theorem slugId_pathFromPartition (p : Partition) : slugId (pathFromPartition p) = some p.id := by
  rw [slugId, pathFromPartition_splitOn]
  exact parseInt_toDigits _

theorem pathFromPartition_injective : Function.Injective pathFromPartition := by
  intro p q h
  have hs := congrArg (fun s : String => s.data.splitOn '-') h
  simp only [pathFromPartition_splitOn, List.cons.injEq, and_true] at hs
  have hl := congrArg parseInt hs.1
  have hi := congrArg parseInt hs.2
  simp only [parseInt_toDigits, Option.some.injEq] at hl hi
  cases p; cases q
  simp_all

/-- **The sort key tells partitions apart.** -/
theorem pToStr_injective (topicName : String) : Function.Injective (pToStr topicName) := by
  intro p q h
  have hd : ∀ r, (pToStr topicName r).data = topicName.data ++ '-' :: (pathFromPartition r).data :=
    fun r => by simp [pToStr, pathFromPartition_data]; rfl
  have := congrArg String.data h
  rw [hd, hd, List.append_cancel_left_eq, List.cons.injEq] at this
  exact pathFromPartition_injective (String.ext this.2)

end Pykafka
