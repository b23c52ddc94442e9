import Pykafka.Effect

/-! The partition ids the threads hold.

The frames of `_rebalance`, `_remove_partitions`, `_add_partitions` and `stop` hold
partition ids: those `_decide_partitions` picked, and those `_get_held_partitions`
read back, which it looks up in `topic.partitions` (the `KeyError`) before it
returns them. So every id a thread holds, and every ownership record, names a
partition of the topic, in every reachable state (`Wf.reachable`). A leader
change moves no partition id, so this holds along every run. -/
namespace Pykafka

/-- The partition ids frame `f` holds are among `ids`. -/
def Frame.idsIn (ids : List Nat) : Frame → Prop
  | .removePartitions ps | .addPartitions ps => ps ⊆ ids
  | .rebalance (.held _ new h) => new ⊆ ids ∧ ∀ h' ∈ h, h' ⊆ ids
  | .rebalance (.removed _ new h _) => new ⊆ ids ∧ h ⊆ ids
  | .rebalance (.added _ new _) => new ⊆ ids
  | .stop (.held h) => ∀ h' ∈ h, h' ⊆ ids
  | _ => True

section
variable {ids : List Nat}

theorem Frame.idsIn_deliver {g : Frame} {v : Ret} (hv : ∀ h, v = .ids h → h ⊆ ids)
    (hg : g.idsIn ids) : (g.deliver v).idsIn ids := by
  unfold deliver
  split
  all_goals first
    | exact hg
    | exact ⟨hg.1, fun _ h => Option.mem_some_iff.mp h ▸ hv _ rfl⟩
    | exact fun _ h => Option.mem_some_iff.mp h ▸ hv _ rfl

theorem idsIn_ret {v : Ret} {fs : List Frame} (hv : ∀ h, v = .ids h → h ⊆ ids)
    (hfs : ∀ g ∈ fs, g.idsIn ids) : ∀ g ∈ ret v fs, g.idsIn ids := by
  cases fs with
  | nil => simp [ret]
  | cons f fs =>
    simp only [ret, List.forall_mem_cons] at hfs ⊢
    exact ⟨Frame.idsIn_deliver hv hfs.1, hfs.2⟩

/-- Unwinding an exception pushes no id. -/
theorem idsIn_raise {self : String} {e : Exc} {s : Sys} {fs : List Frame}
    (hfs : ∀ g ∈ fs, g.idsIn ids) : ∀ g ∈ (raise self e s fs).2, g.idsIn ids := by
  induction fs generalizing s with
  | nil => simp [raise, Frame.idsIn]
  | cons f fs ih =>
    rw [List.forall_mem_cons] at hfs
    cases f with
    | rebalance pc =>
      simp only [raise]
      split
      · split
        · exact ih hfs.2
        · split
          · exact List.forall_mem_cons.mpr ⟨trivial, List.forall_mem_cons.mpr ⟨trivial, hfs.2⟩⟩
          · exact List.forall_mem_cons.mpr ⟨trivial, hfs.2⟩
      · exact ih hfs.2
    | start pc =>
      cases pc <;> simp only [raise]
      case failed => exact ih hfs.2
      all_goals exact List.forall_mem_cons.mpr ⟨trivial, List.forall_mem_cons.mpr ⟨trivial, hfs.2⟩⟩
    | watch | checker => exact idsIn_ret (by simp) hfs.2
    | _ => exact ih hfs.2

/-- The ids `_get_held_partitions` returns passed its `topic.partitions[_id]` lookup. -/
theorem subset_ids_of_find? {t : Topic} {found : List Nat}
    (h : found.find? (fun id => (t.find? id).isNone) = none) : found ⊆ t.ids := fun id hid => by
  have := List.find?_eq_none.mp h id hid
  rw [← Topic.find?_isSome]
  cases hx : t.find? id <;> simp_all

theorem ids_subset_of_decidePartitions {t : Topic} {m : String} {P : List String} {A : List Partition}
    (h : decidePartitions t m P = some A) : A.map Partition.id ⊆ t.ids := fun _ hx => by
  obtain ⟨p, hp, rfl⟩ := List.mem_map.mp hx
  exact List.mem_map_of_mem _ (decidePartitions_subset h hp)

/-- **A step keeps the ids of the stack among the topic's.** -/
theorem stepFrame_idsIn {s : Sys} {self : String} {fs : List Frame} {ok : Bool} {f : Frame}
    {r : Sys × List Frame} (hids : (s.members self).topic.ids = ids) (hf : f.idsIn ids)
    (hfs : ∀ g ∈ fs, g.idsIn ids) (h : stepFrame s self fs ok f = some r) : ∀ g ∈ r.2, g.idsIn ids := by
  -- one case per branch of `stepFrame`
  cases stepFrame_sound h <;> try dsimp only
  all_goals first
    | exact idsIn_raise hfs
    | exact idsIn_raise (List.forall_mem_cons.mpr ⟨trivial, hfs⟩)
    | exact idsIn_ret (fun _ h => Ret.noConfusion h) hfs
    | exact idsIn_ret (fun _ h => by cases h; rw [← hids]; exact subset_ids_of_find? ‹_›) hfs
    | skip
  all_goals simp only [List.forall_mem_cons]
  all_goals first
    | exact hfs
    | exact ⟨trivial, hfs⟩
    | exact ⟨trivial, trivial, hfs⟩
    | exact ⟨trivial, trivial, trivial, hfs⟩
    | exact ⟨List.subset_of_cons_subset hf, hfs⟩
    | exact ⟨fun _ hx => hf.2 _ rfl (List.mem_of_mem_filter hx), ⟨hf.1, hf.2 _ rfl⟩, hfs⟩
    | exact ⟨fun _ hx => hf.1 (List.mem_of_mem_filter hx), hf.1, hfs⟩
    | exact ⟨hf _ rfl, trivial, hfs⟩
    | refine ⟨trivial, And.intro ?_ (fun _ h => by cases h), hfs⟩
      rw [← hids]
      exact ids_subset_of_decidePartitions ‹_›
    | exact ⟨trivial, by simp [Frame.idsIn], hfs⟩

end

/-- The ids of a record a step creates: a partition id the creating frame holds. -/
theorem owners_idsIn_of_effect {self : String} {f : Frame} {s s' : Sys} {ids : List Nat}
    (hf : f.idsIn ids) (ho : ∀ n ∈ s.store.owners.children, ∃ id ∈ ids, slugId n = some id)
    (he : OwnersEffect self f s s') : ∀ n ∈ s'.store.owners.children, ∃ id ∈ ids, slugId n = some id := by
  rcases he with he | ⟨p, ps, sid, rfl, -, hc⟩ | ⟨p, ps, -, -, -, hd⟩ | ⟨c, -, -, he⟩
  · rw [he]
    exact ho
  · intro n hn
    rw [Dir.children_create hc, List.mem_cons] at hn
    rcases hn with rfl | hn
    · exact ⟨p, hf (List.mem_cons_self p ps), slugId_pathFromPartition _⟩
    · exact ho n hn
  · exact fun n hn => ho n (Dir.children_delete_subset hd hn)
  · rw [he]
    exact fun n hn => ho n (Dir.children_expire_subset _ _ hn)

/-- Every member's topic object has the ids of `T`, every id a thread holds is one of
them, and every ownership record names one of them. -/
structure Wf (T : Topic) (s : Sys) : Prop where
  ids : ∀ m, (s.members m).topic.ids = T.ids
  frames : ∀ t ∈ s.threads, ∀ f ∈ t.stack, f.idsIn T.ids
  owners : ∀ n ∈ s.store.owners.children, ∃ id ∈ T.ids, slugId n = some id

namespace Wf

variable {T : Topic} {s s' : Sys}

theorem init (config : String → Config) (brokers : Bool) (n : Nat) : Wf T (Sys.init config (fun _ => T) brokers n) :=
  ⟨fun _ => rfl, fun _ h => (nomatch h), fun _ h => (nomatch h)⟩

theorem step {e : Event} (h : Wf T s) (hs : s.step e = some s') : Wf T s' := by
  obtain ⟨i, ok, t, f, fs, r, rfl, ht, hst, hr, he, rfl⟩ | ⟨m, entry, rfl, rfl⟩ | ⟨sid, rfl, rfl⟩ |
    ⟨m, p, l, rfl, rfl⟩ := Sys.step_cases hs
  · have hft : ∀ g ∈ f :: fs, g.idsIn T.ids := hst ▸ h.frames t (List.getElem?_mem ht)
    refine ⟨fun m => ?_, fun t' ht' g hg => ?_,
      owners_idsIn_of_effect (hft f (List.mem_cons_self f fs)) h.owners he.owners⟩
    · dsimp only
      by_cases hm : m = t.self
      · rw [hm, he.keeps.topic, h.ids]
      · rw [he.others m hm, h.ids]
    · rcases List.mem_or_eq_of_mem_set ht' with ht' | rfl
      · rcases he.threads with hth | hth <;> rw [hth] at ht'
        · exact h.frames t' ht' g hg
        · rcases List.mem_append.mp ht' with ht' | ht'
          · exact h.frames t' ht' g hg
          · rw [List.mem_singleton.mp ht'] at hg
            rw [List.mem_singleton.mp hg]
            trivial
      · have hself : (s.members t.self).topic.ids = T.ids := h.ids t.self
        exact stepFrame_idsIn hself (hft f (List.mem_cons_self f fs))
          (fun g hg => hft g (List.mem_cons_of_mem f hg)) hr g hg
  · refine ⟨h.ids, fun t' ht' g hg => ?_, h.owners⟩
    rcases List.mem_append.mp ht' with ht' | ht'
    · exact h.frames t' ht' g hg
    · rw [List.mem_singleton.mp ht'] at hg
      rw [List.mem_singleton.mp hg]
      cases entry <;> trivial
  · refine ⟨fun m => ?_, h.frames, fun n hn => h.owners n (Dir.children_expire_subset s.store.owners sid hn)⟩
    rw [Sys.expireSession_members]
    exact h.ids m
  · refine ⟨fun m' => ?_, h.frames, h.owners⟩
    rw [Sys.setMember_members]
    split
    · rw [Topic.ids_setLeader]
      exact h.ids m
    · exact h.ids m'

/-- **Every id held is a partition of the topic**, along every run. -/
theorem reachable {allowed : Event → Prop} {config : String → Config} {brokers : Bool} {n : Nat}
    (h : Reachable allowed (Sys.init config (fun _ => T) brokers n) s) : Wf T s :=
  h.induct (Wf T) (init config brokers n) fun _ hi _ hs => hi.step hs

end Wf

end Pykafka
