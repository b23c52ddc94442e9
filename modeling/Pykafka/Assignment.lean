import Mathlib.Data.List.Sort
import Mathlib.Data.String.Basic
import Pykafka.Partition

/-! The assignment: `_decide_partitions`.

Every member runs the same pure computation on its own view: sort the topic's
partitions by `p_to_str`, sort the participants, find its own position `idx`
among `k` participants and take the slice that starts at
`parts_per_consumer * idx + min(idx, remainder_ppc)`.

Two facts make it an agreement protocol with no communication. The slices of
positions `0 .. k-1` tile the sorted list, in order, with sizes that differ by
at most one (`decidePartitions_slices`); and sorting erases every difference
between two members' views, since the sort key tells partitions apart and
member ids are distinct (`decidePartitions_agree`). -/
namespace Pykafka

/-! ### Sorting as Python sorts -/

/-- Python's `<=` on `str`: code point by code point. -/
def strLE (a b : String) : Prop := ¬b.data < a.data

instance : DecidableRel strLE := fun a b => inferInstanceAs (Decidable (¬b.data < a.data))

theorem strLE_iff (a b : String) : strLE a b ↔ a ≤ b := by
  rw [strLE, not_lt, String.le_iff_toList_le]
  rfl

instance : IsTotal String strLE :=
  ⟨fun a b => (le_total a b).imp (strLE_iff a b).mpr (strLE_iff b a).mpr⟩
instance : IsTrans String strLE :=
  ⟨fun a b c hab hbc => (strLE_iff a c).mpr (le_trans ((strLE_iff a b).mp hab) ((strLE_iff b c).mp hbc))⟩
instance : IsAntisymm String strLE :=
  ⟨fun a b hab hba => le_antisymm ((strLE_iff a b).mp hab) ((strLE_iff b a).mp hba)⟩

/-- The order `sorted(all_parts, key=p_to_str)` sorts by. -/
def keyLE (topicName : String) (p q : Partition) : Prop :=
  strLE (pToStr topicName p) (pToStr topicName q)

instance (topicName : String) : DecidableRel (keyLE topicName) := fun _ _ =>
  inferInstanceAs (Decidable (strLE _ _))

instance (topicName : String) : IsTotal Partition (keyLE topicName) :=
  ⟨fun _ _ => total_of strLE _ _⟩
instance (topicName : String) : IsTrans Partition (keyLE topicName) :=
  ⟨fun _ _ _ => trans_of strLE⟩
instance (topicName : String) : IsAntisymm Partition (keyLE topicName) :=
  ⟨fun _ _ h h' => pToStr_injective topicName (antisymm_of strLE h h')⟩

/-- A stable sort by a total order gives the same list from any permutation. -/
theorem insertionSort_perm_eq {α : Type} (r : α → α → Prop) [DecidableRel r] [IsTotal α r]
    [IsTrans α r] [IsAntisymm α r] {l₁ l₂ : List α} (h : List.Perm l₁ l₂) :
    l₁.insertionSort r = l₂.insertionSort r :=
  List.eq_of_perm_of_sorted (((List.perm_insertionSort r l₁).trans h).trans
    (List.perm_insertionSort r l₂).symm) (List.sorted_insertionSort r l₁)
    (List.sorted_insertionSort r l₂)

/-- `sorted(participants)`. -/
def sortedParticipants (participants : List String) : List String :=
  participants.insertionSort strLE

/-- `sorted(self._topic.partitions.values(), key=p_to_str)`. -/
def sortedPartitions (topic : Topic) : List Partition :=
  topic.partitions.insertionSort (keyLE topic.name)

/-! ### The slice of one position -/

/-- `start = parts_per_consumer * idx + min(idx, remainder_ppc)` for `n` partitions
and `k` participants. -/
def sliceStart (n k idx : Nat) : Nat := n / k * idx + min idx (n % k)

/-- `num_parts = parts_per_consumer + (0 if (idx + 1 > remainder_ppc) else 1)`. -/
def sliceCount (n k idx : Nat) : Nat := n / k + if idx + 1 > n % k then 0 else 1

/-- `itertools.islice(all_parts, start, start + num_parts)`. -/
def slice {α : Type} (l : List α) (k idx : Nat) : List α :=
  (l.drop (sliceStart l.length k idx)).take (sliceCount l.length k idx)

/-- `_decide_partitions(participants)` for the member `consumerId`; `none` where
`participants.index(self._consumer_id)` raises. -/
def decidePartitions (topic : Topic) (consumerId : String) (participants : List String) :
    Option (List Partition) :=
  let allParts := sortedPartitions topic
  let participants := sortedParticipants participants
  if consumerId ∈ participants then
    some (slice allParts participants.length (participants.indexOf consumerId))
  else none

theorem sliceStart_succ (n k idx : Nat) :
    sliceStart n k (idx + 1) = sliceStart n k idx + sliceCount n k idx := by
  simp only [sliceStart, sliceCount, Nat.mul_succ]
  split <;> omega

theorem sliceStart_zero (n k : Nat) : sliceStart n k 0 = 0 := by
  simp [sliceStart]

theorem sliceStart_self {n k : Nat} (hk : 0 < k) : sliceStart n k k = n := by
  have := Nat.mod_lt n hk
  have := Nat.div_add_mod n k
  simp only [sliceStart, Nat.mul_comm (n / k) k]
  omega

theorem sliceStart_mono {n k i j : Nat} (h : i ≤ j) : sliceStart n k i ≤ sliceStart n k j := by
  induction j, h using Nat.le_induction with
  | base => exact le_rfl
  | succ j _ ih => rw [sliceStart_succ]; omega

theorem sliceCount_antitone {n k i j : Nat} (h : i ≤ j) : sliceCount n k j ≤ sliceCount n k i := by
  simp only [sliceCount]
  split <;> split <;> omega

theorem sliceCount_le_succ (n k i j : Nat) : sliceCount n k i ≤ sliceCount n k j + 1 := by
  simp only [sliceCount]
  split <;> split <;> omega

/-- Within `k` positions, a slice is empty exactly at the positions past the
partition count. -/
theorem sliceCount_eq_zero {n k idx : Nat} (h : idx < k) : sliceCount n k idx = 0 ↔ n ≤ idx := by
  rcases Nat.lt_or_ge n k with hn | hn
  · simp only [sliceCount, Nat.div_eq_of_lt hn, Nat.mod_eq_of_lt hn]
    split <;> omega
  · have : 0 < n / k := Nat.div_pos hn (by omega)
    simp only [sliceCount]
    omega

theorem slice_length {α : Type} {l : List α} {k idx : Nat} (hk : 0 < k) (h : idx < k) :
    (slice l k idx).length = sliceCount l.length k idx := by
  have := sliceStart_mono (n := l.length) (k := k) (Nat.succ_le_of_lt h)
  rw [sliceStart_succ, sliceStart_self hk] at this
  simp only [slice, List.length_take, List.length_drop]
  omega

/-- The slices of the first `j` positions are, in order, the first
`sliceStart j` partitions. -/
theorem flatMap_slice {α : Type} (l : List α) (k j : Nat) :
    (List.range j).flatMap (slice l k) = l.take (sliceStart l.length k j) := by
  induction j with
  | zero => simp [sliceStart_zero]
  | succ j ih =>
    rw [List.range_succ, List.flatMap_append, ih, sliceStart_succ, List.take_add]
    simp [slice]

/-- **The slices tile the sorted list**: positions `0 .. k-1`, in order, make up the
whole list. -/
theorem flatMap_slice_self {α : Type} (l : List α) {k : Nat} (hk : 0 < k) :
    (List.range k).flatMap (slice l k) = l := by
  rw [flatMap_slice, sliceStart_self hk, List.take_length]

theorem slice_disjoint {α : Type} {l : List α} (hl : l.Nodup) {k i j : Nat} (hk : 0 < k)
    (hi : i < k) (hj : j < k) (hij : i ≠ j) : List.Disjoint (slice l k i) (slice l k j) := by
  rw [← flatMap_slice_self l hk, List.nodup_flatMap] at hl
  exact hl.2.forall (fun _ _ h => h.symm) (List.mem_range.mpr hi) (List.mem_range.mpr hj) hij

theorem mem_iff_mem_slice {α : Type} {l : List α} {k : Nat} (hk : 0 < k) (p : α) :
    p ∈ l ↔ ∃ idx < k, p ∈ slice l k idx := by
  conv_lhs => rw [← flatMap_slice_self l hk]
  simp

/-! ### What every member computes -/

theorem length_sortedParticipants (P : List String) : (sortedParticipants P).length = P.length :=
  List.length_insertionSort _ _

theorem length_sortedPartitions (T : Topic) : (sortedPartitions T).length = T.partitions.length :=
  List.length_insertionSort _ _

theorem mem_sortedParticipants {P : List String} {m : String} : m ∈ sortedParticipants P ↔ m ∈ P :=
  (List.perm_insertionSort _ _).mem_iff

theorem sortedPartitions_nodup (T : Topic) : (sortedPartitions T).Nodup :=
  (List.perm_insertionSort _ _).nodup_iff.mpr (List.Nodup.of_map _ T.nodup)

/-- Only the sorted views matter: two members whose views list the same
participants and the same partitions, in any order, decide the same. -/
theorem decidePartitions_perm {T₁ T₂ : Topic} (hname : T₁.name = T₂.name)
    (hparts : List.Perm T₁.partitions T₂.partitions) {P₁ P₂ : List String}
    (hP : List.Perm P₁ P₂) (m : String) :
    decidePartitions T₁ m P₁ = decidePartitions T₂ m P₂ := by
  have h₁ : sortedPartitions T₁ = sortedPartitions T₂ := by
    unfold sortedPartitions
    rw [hname]
    exact insertionSort_perm_eq _ hparts
  have h₂ : sortedParticipants P₁ = sortedParticipants P₂ := insertionSort_perm_eq _ hP
  simp only [decidePartitions, h₁, h₂]

theorem decidePartitions_of_mem {T : Topic} {P : List String} {m : String} (hm : m ∈ P) :
    decidePartitions T m P =
      some (slice (sortedPartitions T) P.length ((sortedParticipants P).indexOf m)) := by
  simp [decidePartitions, mem_sortedParticipants.mpr hm, length_sortedParticipants]

/-- What `_decide_partitions` gives is among the topic's partitions. -/
theorem decidePartitions_subset {T : Topic} {m : String} {P : List String} {A : List Partition}
    (h : decidePartitions T m P = some A) : A ⊆ T.partitions := by
  simp only [decidePartitions, Option.ite_none_right_eq_some, Option.some.injEq] at h
  intro p hp
  rw [← h.2] at hp
  exact (List.perm_insertionSort _ _).subset (List.mem_of_mem_drop (List.mem_of_mem_take hp))

/-- What `_decide_partitions` gives names each partition id once. -/
theorem decidePartitions_ids_nodup {T : Topic} {m : String} {P : List String} {A : List Partition}
    (h : decidePartitions T m P = some A) : (A.map Partition.id).Nodup := by
  simp only [decidePartitions, Option.ite_none_right_eq_some, Option.some.injEq] at h
  rw [← h.2]
  exact (((List.take_sublist _ _).trans (List.drop_sublist _ _)).map _).nodup
    (((List.perm_insertionSort _ _).map _).nodup_iff.mpr T.nodup)

/-- With no more participants than partitions, `_decide_partitions` gives every participant a
partition. -/
theorem decidePartitions_ne_nil {T : Topic} {m : String} {P : List String} {A : List Partition}
    (h : decidePartitions T m P = some A) (hP : P.length ≤ T.partitions.length) : A ≠ [] := by
  simp only [decidePartitions, Option.ite_none_right_eq_some, Option.some.injEq] at h
  obtain ⟨hm, rfl⟩ := h
  have hidx := List.indexOf_lt_length.mpr hm
  have hk : 0 < (sortedParticipants P).length := List.length_pos_of_mem hm
  rw [← List.length_pos, slice_length hk hidx, Nat.pos_iff_ne_zero, Ne, sliceCount_eq_zero hidx,
    length_sortedPartitions]
  rw [length_sortedParticipants] at hidx
  omega

/-- **Member `idx` of `sorted(participants)` gets the `idx`-th run.** For `n`
partitions and `k` participants the runs of positions `0 .. k-1` are consecutive:
the first starts at `0`, each starts where the one before ends, and the last ends
at `n`. Their sizes never grow with the position and differ by at most one, and a
position's run is empty exactly when the position is at least `n`. -/
theorem decidePartitions_slices (T : Topic) (P : List String) (hP : P.Nodup) (hne : P ≠ []) :
    let S := sortedParticipants P
    let L := sortedPartitions T
    let n := T.partitions.length
    let k := P.length
    (∀ idx (h : idx < S.length), decidePartitions T S[idx] P = some (slice L k idx)) ∧
    (List.range k).flatMap (slice L k) = L ∧
    sliceStart n k 0 = 0 ∧
    (∀ idx, idx + 1 < k → sliceStart n k (idx + 1) = sliceStart n k idx + (slice L k idx).length) ∧
    sliceStart n k (k - 1) + (slice L k (k - 1)).length = n ∧
    (∀ i j, i ≤ j → j < k → (slice L k j).length ≤ (slice L k i).length) ∧
    (∀ i j, i < k → j < k → (slice L k i).length ≤ (slice L k j).length + 1) ∧
    (∀ idx, idx < k → (slice L k idx = [] ↔ n ≤ idx)) := by
  intro S L n k
  have hk : 0 < k := List.length_pos.mpr hne
  have hL : L.length = n := length_sortedPartitions T
  have hlen : ∀ idx, idx < k → (slice L k idx).length = sliceCount n k idx := fun idx h => by
    rw [slice_length hk h, hL]
  refine ⟨fun idx h => ?_, flatMap_slice_self L hk, sliceStart_zero n k,
    fun idx h => by rw [hlen idx (by omega), sliceStart_succ], ?_,
    fun i j hij hj => by rw [hlen i (by omega), hlen j hj]; exact sliceCount_antitone hij,
    fun i j hi hj => by rw [hlen i hi, hlen j hj]; exact sliceCount_le_succ n k i j,
    fun idx h => by rw [← List.length_eq_zero, hlen idx h, sliceCount_eq_zero h]⟩
  · have hS : S.Nodup := (List.perm_insertionSort _ _).nodup_iff.mpr hP
    rw [decidePartitions_of_mem (mem_sortedParticipants.mp (List.getElem_mem h)),
      List.indexOf_getElem hS]
  · rw [hlen (k - 1) (by omega), ← sliceStart_succ, Nat.sub_add_cancel hk, sliceStart_self hk]

theorem decidePartitions_slices_three :
    ["c", "a", "b"].Nodup ∧ ["c", "a", "b"] ≠ [] ∧
    let T : Topic := ⟨"t", [⟨1, 7⟩, ⟨0, 7⟩], by decide⟩
    let S := sortedParticipants ["c", "a", "b"]
    let L := sortedPartitions T
    let n := T.partitions.length
    let k := ["c", "a", "b"].length
    (∀ idx (h : idx < S.length), decidePartitions T S[idx] ["c", "a", "b"] = some (slice L k idx)) ∧
    (List.range k).flatMap (slice L k) = L ∧
    sliceStart n k 0 = 0 ∧
    (∀ idx, idx + 1 < k → sliceStart n k (idx + 1) = sliceStart n k idx + (slice L k idx).length) ∧
    sliceStart n k (k - 1) + (slice L k (k - 1)).length = n ∧
    (∀ i j, i ≤ j → j < k → (slice L k j).length ≤ (slice L k i).length) ∧
    (∀ i j, i < k → j < k → (slice L k i).length ≤ (slice L k j).length + 1) ∧
    (∀ idx, idx < k → (slice L k idx = [] ↔ n ≤ idx)) :=
  ⟨by decide, by decide, decidePartitions_slices _ ["c", "a", "b"] (by decide) (by decide)⟩

/-- **Agreement without communication.** Take a topic and a nonempty list `P` of
distinct member ids. Whatever order each member's own view lists the participants
and iterates `topic.partitions` in, the sets `_decide_partitions` returns at the
members of `P` are pairwise disjoint and together are the topic's partitions. -/
theorem decidePartitions_agree (T : Topic) (P : List String) (hP : P.Nodup) (hne : P ≠ [])
    (view : String → List String × Topic)
    (hview : ∀ m ∈ P, List.Perm (view m).1 P ∧ (view m).2.name = T.name ∧
      List.Perm (view m).2.partitions T.partitions) :
    ∃ A : String → List Partition,
      (∀ m ∈ P, decidePartitions (view m).2 m (view m).1 = some (A m)) ∧
      (∀ m ∈ P, ∀ m' ∈ P, m ≠ m' → ∀ p ∈ A m, p ∉ A m') ∧
      ∀ p, p ∈ T.partitions ↔ ∃ m ∈ P, p ∈ A m := by
  have hk : 0 < P.length := List.length_pos.mpr hne
  have hS : (sortedParticipants P).Nodup := (List.perm_insertionSort _ _).nodup_iff.mpr hP
  have hidx : ∀ {m}, m ∈ P → (sortedParticipants P).indexOf m < P.length := fun hm => by
    rw [← length_sortedParticipants, List.indexOf_lt_length]
    exact mem_sortedParticipants.mpr hm
  refine ⟨fun m => slice (sortedPartitions T) P.length ((sortedParticipants P).indexOf m),
    fun m hm => ?_, fun m hm m' hm' hne' p hp hp' => ?_, fun p => ?_⟩
  · obtain ⟨h₁, h₂, h₃⟩ := hview m hm
    rw [decidePartitions_perm h₂ h₃ h₁, decidePartitions_of_mem hm]
  · have hij : (sortedParticipants P).indexOf m ≠ (sortedParticipants P).indexOf m' := fun h =>
      hne' ((List.indexOf_inj (mem_sortedParticipants.mpr hm)
        (mem_sortedParticipants.mpr hm')).mp h)
    exact slice_disjoint (sortedPartitions_nodup T) hk (hidx hm) (hidx hm') hij hp hp'
  · rw [← (List.perm_insertionSort (keyLE T.name) T.partitions).mem_iff]
    refine (mem_iff_mem_slice hk p).trans ⟨fun ⟨idx, hi, hp⟩ => ?_, fun ⟨m, hm, hp⟩ =>
      ⟨_, hidx hm, hp⟩⟩
    have hi' : idx < (sortedParticipants P).length := by rwa [length_sortedParticipants]
    refine ⟨(sortedParticipants P)[idx], mem_sortedParticipants.mp (List.getElem_mem hi'), ?_⟩
    dsimp only
    rwa [List.indexOf_getElem hS]

/-- Two members' views of the participants and of a topic of three partitions, each
listing them in an order of its own. -/
def twoViews (m : String) : List String × Topic :=
  if m = "a" then (["a", "b"], ⟨"t", [⟨2, 1⟩, ⟨0, 1⟩, ⟨1, 2⟩], by decide⟩)
  else (["b", "a"], ⟨"t", [⟨1, 2⟩, ⟨2, 1⟩, ⟨0, 1⟩], by decide⟩)

theorem decidePartitions_agree_two :
    let T : Topic := ⟨"t", [⟨0, 1⟩, ⟨1, 2⟩, ⟨2, 1⟩], by decide⟩
    ["b", "a"].Nodup ∧ ["b", "a"] ≠ [] ∧
    (∀ m ∈ ["b", "a"], List.Perm (twoViews m).1 ["b", "a"] ∧ (twoViews m).2.name = T.name ∧
      List.Perm (twoViews m).2.partitions T.partitions) ∧
    ∃ A : String → List Partition,
      (∀ m ∈ ["b", "a"], decidePartitions (twoViews m).2 m (twoViews m).1 = some (A m)) ∧
      (∀ m ∈ ["b", "a"], ∀ m' ∈ ["b", "a"], m ≠ m' → ∀ p ∈ A m, p ∉ A m') ∧
      ∀ p, p ∈ T.partitions ↔ ∃ m ∈ ["b", "a"], p ∈ A m :=
  have hview : ∀ m ∈ ["b", "a"], List.Perm (twoViews m).1 ["b", "a"] ∧ (twoViews m).2.name = "t" ∧
      List.Perm (twoViews m).2.partitions [⟨0, 1⟩, ⟨1, 2⟩, ⟨2, 1⟩] := by decide
  ⟨by decide, by decide, hview, decidePartitions_agree _ _ (by decide) (by decide) twoViews hview⟩

end Pykafka
