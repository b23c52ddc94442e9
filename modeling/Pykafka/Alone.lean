import Pykafka.Frames
import Pykafka.Ownership

/-! One thread alone.

The theorems on what a call of `_rebalance`, `_add_self`, `stop`, `start` or `consume`
does are about that call while no other party acts. Such a call is a run of one
thread's steps only, `Reachable (· = .run i ok) s s'` over the system's own
`Sys.step`, so what is proved of a call alone holds of the system's runs. Each method
that touches the coordinator gets a lemma saying where its frame takes the thread and
what it leaves in the coordinator; the lemmas for `_rebalance` and `stop` are put
together from them. -/
namespace Pykafka

namespace Sys

/-- The state with thread `i` set to `⟨self, fs⟩`. -/
def setStack (s : Sys) (i : Nat) (self : String) (fs : List Frame) : Sys :=
  {s with threads := s.threads.set i ⟨self, fs⟩}

variable {s : Sys} {i : Nat} {self : String} {fs fs' : List Frame}

@[simp] theorem setStack_store : (s.setStack i self fs).store = s.store := rfl
@[simp] theorem setStack_members : (s.setStack i self fs).members = s.members := rfl
@[simp] theorem setStack_brokers : (s.setStack i self fs).brokers = s.brokers := rfl
@[simp] theorem setStack_nextSession : (s.setStack i self fs).nextSession = s.nextSession := rfl

@[simp] theorem setStack_setStack : (s.setStack i self fs).setStack i self fs' = s.setStack i self fs' := by
  simp [setStack]

@[simp] theorem setStack_length : (s.setStack i self fs).threads.length = s.threads.length := by
  simp [setStack]

@[simp] theorem setOwners_setStack (d : Dir) :
    (s.setStack i self fs).setOwners d = (s.setOwners d).setStack i self fs := rfl

@[simp] theorem setIds_setStack (d : Dir) :
    (s.setStack i self fs).setIds d = (s.setIds d).setStack i self fs := rfl

@[simp] theorem setMember_setStack (m : String) (f : Member → Member) :
    (s.setStack i self fs).setMember m f = (s.setMember m f).setStack i self fs := rfl


@[simp] theorem isParticipant_setStack (m c : String) :
    (s.setStack i self fs).isParticipant m c = s.isParticipant m c := rfl

theorem setStack_getElem? (hi : i < s.threads.length) : (s.setStack i self fs).threads[i]? = some ⟨self, fs⟩ := by
  simp [setStack, hi]

end Sys

/-- One step of thread `i`, at `f :: fs`. -/
theorem Reachable.run_step {ok : Bool} {s s₁ s' : Sys} {i : Nat} {self : String} {f : Frame}
    {fs fs₁ : List Frame} (hi : i < s.threads.length)
    (h : stepFrame (s.setStack i self (f :: fs)) self fs ok f = some (s₁, fs₁))
    (hr : Reachable (· = .run i ok) (s₁.setStack i self fs₁) s') :
    Reachable (· = .run i ok) (s.setStack i self (f :: fs)) s' := by
  refine Reachable.trans (.step .refl rfl ?_) hr
  simp only [Sys.step, Sys.setStack_getElem? hi, Sys.stepThread, h]
  rfl

section
variable {s : Sys} {i : Nat} {m : String} (ok : Bool) {sid : Nat}

theorem NamedBy.setMember {T : Topic} {m : String} {f : Member → Member} (h : NamedBy T s)
    (ht : (f (s.members m)).topic = (s.members m).topic) : NamedBy T (s.setMember m f) :=
  ⟨fun m' => by rw [Sys.setMember_members]; split <;> simp_all [h.topic], h.owners, h.ids⟩

/-- The loop of `_get_participants` over the children `cs` keeps those whose record holds
the topic's name. -/
theorem getParticipants_loop (hi : i < s.threads.length) (hs : (s.members m).session = .ok sid)
    (fs : List Frame) : ∀ cs found, Reachable (· = .run i ok)
      (s.setStack i m (.getParticipants (some cs) found :: fs))
      (s.setStack i m (.getParticipants (some []) (found ++ cs.filter (s.isParticipant m)) :: fs))
  | [], found => by simpa using .refl
  | c :: cs, found => by
    refine Reachable.run_step hi (by simp only [stepFrame, withSession, Sys.setStack_members, hs]; rfl) ?_
    simp only [Sys.setStack_setStack, Sys.isParticipant_setStack]
    have := getParticipants_loop hi hs fs cs (if s.isParticipant m c then found ++ [c] else found)
    by_cases hc : s.isParticipant m c
    · simpa only [hc, if_true, List.filter_cons_of_pos, List.append_assoc, List.singleton_append] using this
    · simpa only [hc, if_false, List.filter_cons_of_neg, Bool.false_eq_true, not_false_eq_true] using this

/-- **`_get_participants` alone** returns the sorted children whose record holds the
topic's name. -/
theorem getParticipants_alone (hi : i < s.threads.length) (hs : (s.members m).session = .ok sid)
    (fs : List Frame) : Reachable (· = .run i ok) (s.setStack i m (.getParticipants none [] :: fs))
      (s.setStack i m (ret (.names (sortedParticipants (s.store.ids.children.filter (s.isParticipant m)))) fs)) := by
  refine Reachable.run_step hi (by simp only [stepFrame, withSession, Sys.setStack_members, hs]; rfl) ?_
  simp only [Sys.setStack_setStack, Sys.setStack_store]
  refine (getParticipants_loop ok hi hs fs _ []).trans (Reachable.run_step hi rfl ?_)
  simpa using .refl

/-- **`_add_self` alone** creates the member's participant record when it reads fewer
participants than partitions and has no record yet. -/
theorem addSelf_alone (hi : i < s.threads.length) (hs : (s.members m).session = .ok sid)
    (hcap : (s.store.ids.children.filter (s.isParticipant m)).length < (s.members m).topic.partitions.length)
    (hnew : m ∉ s.store.ids.children) (fs : List Frame) :
    ∃ d, s.store.ids.create m ⟨(s.members m).topic.name, sid⟩ = some d ∧
      Reachable (· = .run i ok) (s.setStack i m (.getParticipants none [] :: .addSelf none :: fs))
        ((s.setIds d).setStack i m (ret .unit fs)) := by
  obtain ⟨d, hd⟩ : ∃ d, s.store.ids.create m ⟨(s.members m).topic.name, sid⟩ = some d := by
    cases h : s.store.ids.create m ⟨(s.members m).topic.name, sid⟩ with
    | none => exact absurd (Dir.create_eq_none.mp h) hnew
    | some d => exact ⟨d, rfl⟩
  have hlen : ¬(s.members m).topic.partitions.length ≤
      (sortedParticipants (s.store.ids.children.filter (s.isParticipant m))).length := by
    rw [length_sortedParticipants]
    omega
  refine ⟨d, hd, (getParticipants_alone ok hi hs _).trans ?_⟩
  apply Reachable.run_step hi
  · simp only [stepFrame, withSession, ret, Frame.deliver, Sys.setStack_members, Sys.setStack_store, hlen,
      if_false, hs, hd]
    rfl
  · simpa using .refl

/-- The loop of `_get_held_partitions` over the children `cs` adds the id of each record
whose value is the member's id. -/
theorem getHeldPartitions_loop (hi : i < s.threads.length) (hs : (s.members m).session = .ok sid)
    (fs : List Frame) : ∀ cs found, (∀ c ∈ cs, (slugId c).isSome) →
      ∃ found', (∀ id, id ∈ found' ↔ id ∈ found ∨
          ∃ c ∈ cs, (∃ n, s.store.owners.get c = some n ∧ n.value = m) ∧ slugId c = some id) ∧
        (found.Nodup → found'.Nodup) ∧
        Reachable (· = .run i ok) (s.setStack i m (.getHeldPartitions (some cs) found :: fs))
          (s.setStack i m (.getHeldPartitions (some []) found' :: fs))
  | [], found, _ => ⟨found, by simp, id, by simpa using .refl⟩
  | c :: cs, found, hparse => by
    obtain ⟨id, hid⟩ := Option.isSome_iff_exists.mp (hparse c (List.mem_cons_self c cs))
    have hparse' := fun c' hc' => hparse c' (List.mem_cons_of_mem c hc')
    by_cases hc : ∃ n, s.store.owners.get c = some n ∧ n.value = m
    · obtain ⟨n, hn, hv⟩ := hc
      obtain ⟨found', hmem, hnd, hr⟩ := getHeldPartitions_loop hi hs fs cs (found.insert id) hparse'
      refine ⟨found', fun id' => ?_, fun h => hnd (h.insert), ?_⟩
      · rw [hmem, List.mem_insert_iff]
        constructor
        · rintro ((rfl | h) | ⟨c', hc', h⟩)
          · exact .inr ⟨c, List.mem_cons_self c cs, ⟨n, hn, hv⟩, hid⟩
          · exact .inl h
          · exact .inr ⟨c', List.mem_cons_of_mem c hc', h⟩
        · rintro (h | ⟨c', hc', h⟩)
          · exact .inl (.inr h)
          · rcases List.mem_cons.mp hc' with rfl | hc'
            · exact .inl (.inl (Option.some.inj (h.2.symm.trans hid)))
            · exact .inr ⟨c', hc', h⟩
      · apply Reachable.run_step hi
        · simp only [stepFrame, withSession, Sys.setStack_members, Sys.setStack_store, hs, hn, hv, hid,
            if_true]
          rfl
        · simpa using hr
    · obtain ⟨found', hmem, hnd, hr⟩ := getHeldPartitions_loop hi hs fs cs found hparse'
      refine ⟨found', fun id' => ?_, hnd, ?_⟩
      · rw [hmem]
        constructor
        · rintro (h | ⟨c', hc', h⟩)
          · exact .inl h
          · exact .inr ⟨c', List.mem_cons_of_mem c hc', h⟩
        · rintro (h | ⟨c', hc', h⟩)
          · exact .inl h
          · rcases List.mem_cons.mp hc' with rfl | hc'
            · exact absurd h.1 hc
            · exact .inr ⟨c', hc', h⟩
      · apply Reachable.run_step hi
        · simp only [stepFrame, withSession, Sys.setStack_members, Sys.setStack_store, hs]
          cases hn : s.store.owners.get c with
          | none => rfl
          | some n =>
            have hv : ¬n.value = m := fun hv => hc ⟨n, hn, hv⟩
            simp only [hv, if_false]
        · simpa using hr

/-- **`_get_held_partitions` alone**, where every member sees `T` and every id is `T`'s:
it returns, without repeats, the ids whose record has the member's id as value. -/
theorem getHeldPartitions_alone {T : Topic} (hN : NamedBy T s)
    (hW : ∀ n ∈ s.store.owners.children, ∃ id ∈ T.ids, slugId n = some id) (hi : i < s.threads.length)
    (hs : (s.members m).session = .ok sid) (fs : List Frame) :
    ∃ h, h.Nodup ∧ (∀ id, id ∈ h ↔ ∃ n, s.store.owners.get (T.pathOf id) = some n ∧ n.value = m) ∧
      Reachable (· = .run i ok) (s.setStack i m (.getHeldPartitions none [] :: fs))
        (s.setStack i m (ret (.ids h) fs)) := by
  obtain ⟨h, hmem, hnd, hr⟩ := getHeldPartitions_loop ok hi hs fs s.store.owners.children []
    fun c hc => by obtain ⟨id, -, hid⟩ := hW c hc; simp [hid]
  have hchar : ∀ id, id ∈ h ↔ ∃ n, s.store.owners.get (T.pathOf id) = some n ∧ n.value = m := by
    intro id
    rw [hmem]
    simp only [List.not_mem_nil, false_or]
    constructor
    · rintro ⟨c, hc, hn, hid⟩
      obtain ⟨id', rfl⟩ := hN.owners c hc
      rw [Topic.slugId_pathOf, Option.some.injEq] at hid
      rwa [← hid]
    · rintro ⟨n, hn, hv⟩
      exact ⟨T.pathOf id, Dir.mem_children.mpr ⟨n, Dir.get_eq_some.mp hn⟩, ⟨n, hn, hv⟩, Topic.slugId_pathOf _ _⟩
  have hsub : ∀ id ∈ h, id ∈ T.ids := by
    intro id hid
    obtain ⟨n, hn, -⟩ := (hchar id).mp hid
    obtain ⟨id', hid', hslug⟩ := hW _ (Dir.mem_children.mpr ⟨n, Dir.get_eq_some.mp hn⟩)
    rw [Topic.slugId_pathOf, Option.some.injEq] at hslug
    rwa [hslug]
  have hfind : h.find? (fun id => ((s.members m).topic.find? id).isNone) = none := by
    refine List.find?_eq_none.mpr fun id hid => ?_
    have := Topic.find?_isSome.mpr (hsub id hid)
    rw [hN.topic m]
    cases hx : T.find? id <;> simp_all
  refine ⟨h, hnd List.nodup_nil, hchar, ?_⟩
  apply Reachable.run_step hi
  · simp only [stepFrame, withSession, Sys.setStack_members, Sys.setStack_store, hs]
    rfl
  · simp only [Sys.setStack_setStack]
    refine hr.trans ?_
    apply Reachable.run_step hi
    · simp only [stepFrame, Sys.setStack_members, hfind]
      rfl
    · simpa using .refl

/-- **`_remove_partitions` alone** deletes the record of each partition it is given, by the
name the member's topic gives it, when all of them exist. -/
theorem removePartitions_alone (fs : List Frame) : ∀ (ps : List Nat) (s : Sys), i < s.threads.length →
    (s.members m).session = .ok sid → ps.Nodup →
    (∀ p ∈ ps, (s.members m).topic.pathOf p ∈ s.store.owners.children) →
    ∃ d, (∀ e, e ∈ d.entries ↔ e ∈ s.store.owners.entries ∧ ∀ p ∈ ps, e.1 ≠ (s.members m).topic.pathOf p) ∧
      Reachable (· = .run i ok) (s.setStack i m (.removePartitions ps :: fs))
        ((s.setOwners d).setStack i m (ret .unit fs))
  | [], s, hi, _, _, _ => ⟨s.store.owners, by simp, Reachable.run_step hi rfl (by simpa using .refl)⟩
  | p :: ps, s, hi, hs, hnd, hex => by
    obtain ⟨d₁, hd₁⟩ : ∃ d, s.store.owners.delete ((s.members m).topic.pathOf p) = some d := by
      cases h : s.store.owners.delete ((s.members m).topic.pathOf p) with
      | none => exact absurd (hex p (List.mem_cons_self p ps)) (Dir.delete_eq_none.mp h)
      | some d => exact ⟨d, rfl⟩
    have hnd' := List.nodup_cons.mp hnd
    have hex' : ∀ p' ∈ ps, (s.members m).topic.pathOf p' ∈ d₁.children := by
      intro p' hp'
      obtain ⟨n, hn⟩ := Dir.mem_children.mp (hex p' (List.mem_cons_of_mem p hp'))
      refine Dir.mem_children.mpr ⟨n, (Dir.mem_delete hd₁).mpr ⟨hn, ?_⟩⟩
      exact fun h => hnd'.1 (Topic.pathOf_inj.mp h ▸ hp')
    obtain ⟨d, hd, hr⟩ := removePartitions_alone fs ps (s.setOwners d₁) hi hs hnd'.2 hex'
    refine ⟨d, fun e => ?_, ?_⟩
    · rw [hd, Sys.setOwners_owners, Dir.mem_delete hd₁, List.forall_mem_cons, Sys.setOwners_members]
      tauto
    · apply Reachable.run_step hi
      · simp only [stepFrame, withSession, Sys.setStack_members, Sys.setStack_store, hs, hd₁]
        rfl
      · simpa using hr

/-- **`_add_partitions` alone** creates, with the member's id as value, the record of each
partition it is given, when none of them exists. -/
theorem addPartitions_alone (fs : List Frame) : ∀ (ps : List Nat) (s : Sys), i < s.threads.length →
    (s.members m).session = .ok sid → ps.Nodup →
    (∀ p ∈ ps, (s.members m).topic.pathOf p ∉ s.store.owners.children) →
    ∃ d, (∀ e, e ∈ d.entries ↔ e ∈ s.store.owners.entries ∨
        ∃ p ∈ ps, e = ((s.members m).topic.pathOf p, ⟨m, sid⟩)) ∧
      Reachable (· = .run i ok) (s.setStack i m (.addPartitions ps :: fs))
        ((s.setOwners d).setStack i m (ret .unit fs))
  | [], s, hi, _, _, _ => ⟨s.store.owners, by simp, Reachable.run_step hi rfl (by simpa using .refl)⟩
  | p :: ps, s, hi, hs, hnd, hnot => by
    obtain ⟨d₁, hd₁⟩ : ∃ d, s.store.owners.create ((s.members m).topic.pathOf p) ⟨m, sid⟩ = some d := by
      cases h : s.store.owners.create ((s.members m).topic.pathOf p) ⟨m, sid⟩ with
      | none => exact absurd (Dir.create_eq_none.mp h) (hnot p (List.mem_cons_self p ps))
      | some d => exact ⟨d, rfl⟩
    have hnd' := List.nodup_cons.mp hnd
    have hnot' : ∀ p' ∈ ps, (s.members m).topic.pathOf p' ∉ d₁.children := by
      intro p' hp' h
      rw [Dir.children_create hd₁, List.mem_cons] at h
      rcases h with h | h
      · exact hnd'.1 (Topic.pathOf_inj.mp h ▸ hp')
      · exact hnot p' (List.mem_cons_of_mem p hp') h
    obtain ⟨d, hd, hr⟩ := addPartitions_alone fs ps (s.setOwners d₁) hi hs hnd'.2 hnot'
    refine ⟨d, fun e => ?_, ?_⟩
    · simp only [hd, Sys.setOwners_owners, Dir.mem_create hd₁, Sys.setOwners_members, List.mem_cons,
        or_and_right, exists_or, exists_eq_left]
      tauto
    · apply Reachable.run_step hi
      · simp only [stepFrame, withSession, Sys.setStack_members, Sys.setStack_store, hs, hd₁]
        rfl
      · simpa using hr

end

/-- One partition, led by broker 1. -/
def onePartition : Topic := ⟨"t", [⟨0, 1⟩], by decide⟩

/-- `a` and `b` start together on `onePartition`: each reads no participant and passes
`_add_self`'s check before either creates its record, then both create one. -/
def addSelfRaceRun : List Event :=
  [.call "a" .start, .call "b" .start] ++ List.replicate 4 (.run 0 true) ++
    List.replicate 4 (.run 1 true) ++ [.run 0 true, .run 1 true]

/-- After `addSelfRaceRun` there are two participant records holding the topic's name, for
one partition. -/
theorem addSelf_race_exceeds_partitions :
    ∃ s, Reachable (fun _ => True) (Sys.init (fun _ => {}) (fun _ => onePartition) true 0) s ∧
      onePartition.partitions.length < (s.store.ids.entries.filter (·.2.value == onePartition.name)).length :=
  Reachable.exists_of_run _ addSelfRaceRun (fun _ _ => trivial) (by decide)

end Pykafka
