import Pykafka.Run
import Pykafka.FrameStep

/-! What one step can do to the shared state.

`stepFrame_effect` is the one inversion lemma over the program points: a step
of a thread of member `self` changes no other member, never changes a topic
object or a configuration, and does at most one coordinator operation, which is
one of those the source performs, at the program point that performs it:
`_add_partitions` creates and `_remove_partitions` deletes the ownership record
of the partition it is at, `_add_self` creates and `stop` deletes the member's
own participant record, and `stop` ends the member's own session. Every
invariant below is derived from it and never unfolds `stepFrame` again. -/
namespace Pykafka

/-- The coordinator operations a thread of `self` at frame `f` performs on the owners
directory. -/
def OwnersEffect (self : String) (f : Frame) (s s' : Sys) : Prop :=
  s'.store.owners = s.store.owners ∨
  (∃ p ps sid, f = .addPartitions (p :: ps) ∧ (s.members self).session = .ok sid ∧
    s.store.owners.create ((s.members self).topic.pathOf p) ⟨self, sid⟩ = some s'.store.owners) ∨
  (∃ p ps sid, f = .removePartitions (p :: ps) ∧ (s.members self).session = .ok sid ∧
    s.store.owners.delete ((s.members self).topic.pathOf p) = some s'.store.owners) ∨
  ∃ c, f = .stop .close ∧ (s.members self).zookeeper = some c ∧
    s'.store.owners = s.store.owners.expire c.session

/-- The coordinator operations a thread of `self` at frame `f` performs on the participants
directory. -/
def IdsEffect (self : String) (f : Frame) (s s' : Sys) : Prop :=
  s'.store.ids = s.store.ids ∨
  (∃ ps sid, f = .addSelf (some ps) ∧ (s.members self).session = .ok sid ∧
    s.store.ids.create self ⟨(s.members self).topic.name, sid⟩ = some s'.store.ids) ∨
  (f = .stop .deleteSelf ∧ s.store.ids.delete self = some s'.store.ids) ∨
  ∃ c, f = .stop .close ∧ (s.members self).zookeeper = some c ∧
    s'.store.ids = s.store.ids.expire c.session

/-- What a step of a thread of a member can do to the member's own fields: its topic
object and configuration stay, and a stored background error or an inner consumer, once
there, stays. -/
structure Member.Keeps (M M' : Member) : Prop where
  topic : M'.topic = M.topic
  config : M'.config = M.config
  workerException : M.workerException.isSome → M'.workerException.isSome
  consumer : M.consumer.isSome → M'.consumer.isSome

theorem Member.Keeps.refl (M : Member) : M.Keeps M := ⟨rfl, rfl, id, id⟩

theorem Member.Keeps.trans {M₁ M₂ M₃ : Member} (h₁ : M₁.Keeps M₂) (h₂ : M₂.Keeps M₃) : M₁.Keeps M₃ :=
  ⟨h₂.topic.trans h₁.topic, h₂.config.trans h₁.config, h₂.workerException ∘ h₁.workerException,
    h₂.consumer ∘ h₁.consumer⟩

/-- What a step of a thread of `member` at frame `f` can change. -/
structure StepEffect (member : String) (f : Frame) (s s' : Sys) : Prop where
  others : ∀ m, m ≠ member → s'.members m = s.members m
  keeps : (s.members member).Keeps (s'.members member)
  owners : OwnersEffect member f s s'
  ids : IdsEffect member f s s'
  /-- The only thread a step starts is the checker, at the end of `start`. -/
  threads : s'.threads = s.threads ∨ s'.threads = s.threads ++ [⟨member, [.checker .loop]⟩]

namespace Sys

@[simp] theorem setMember_store (s : Sys) (m : String) (f : Member → Member) :
    (s.setMember m f).store = s.store := rfl

@[simp] theorem setMember_members (s : Sys) (m m' : String) (f : Member → Member) :
    (s.setMember m f).members m' = if m' = m then f (s.members m) else s.members m' := by
  rfl

section
variable (s : Sys) (d d' : Dir)

@[simp] theorem setMember_threads (m : String) (f : Member → Member) :
    (s.setMember m f).threads = s.threads := rfl
@[simp] theorem setMember_nextSession (m : String) (f : Member → Member) :
    (s.setMember m f).nextSession = s.nextSession := rfl
@[simp] theorem setIds_members : (s.setIds d).members = s.members := rfl
@[simp] theorem setIds_threads : (s.setIds d).threads = s.threads := rfl
@[simp] theorem setIds_nextSession : (s.setIds d).nextSession = s.nextSession := rfl
@[simp] theorem setIds_owners : (s.setIds d).store.owners = s.store.owners := rfl
@[simp] theorem setIds_ids : (s.setIds d).store.ids = d := rfl
@[simp] theorem setOwners_members : (s.setOwners d).members = s.members := rfl
@[simp] theorem setOwners_threads : (s.setOwners d).threads = s.threads := rfl
@[simp] theorem setOwners_nextSession : (s.setOwners d).nextSession = s.nextSession := rfl
@[simp] theorem setOwners_owners : (s.setOwners d).store.owners = d := rfl
@[simp] theorem setOwners_ids : (s.setOwners d).store.ids = s.store.ids := rfl
@[simp] theorem setOwners_setOwners : (s.setOwners d).setOwners d' = s.setOwners d' := rfl
@[simp] theorem setOwners_self : s.setOwners s.store.owners = s := rfl
@[simp] theorem setIds_self : s.setIds s.store.ids = s := rfl

end

/-- An expiry moves the clients on the ended session to a new one and changes nothing else
of any member. -/
theorem expireSession_members (s : Sys) (session : Nat) (m : String) :
    (s.expireSession session).members m = {s.members m with zookeeper := (s.members m).zookeeper.map (fun c =>
      if c.session = session ∧ c.closed = false then {c with session := s.nextSession} else c)} := by
  simp only [expireSession]
  generalize s.members m = M
  rcases M with ⟨_, _, _, _, _, _, _, _ | c, _⟩
  · rfl
  · dsimp only [Option.map_some']
    split <;> rfl

@[simp] theorem expireSession_store (s : Sys) (session : Nat) :
    (s.expireSession session).store = s.store.expire session := rfl

end Sys

/-- A step that only updates fields of `self` that `Member.Keeps` allows. -/
theorem StepEffect.setMember {self : String} {g : Frame} {s : Sys} {f : Member → Member}
    (h : (s.members self).Keeps (f (s.members self))) : StepEffect self g s (s.setMember self f) :=
  ⟨fun m hm => by simp [hm], by simpa using h, .inl rfl, .inl rfl, .inl rfl⟩

theorem StepEffect.refl (self : String) (g : Frame) (s : Sys) : StepEffect self g s s :=
  ⟨fun _ _ => rfl, .refl _, .inl rfl, .inl rfl, .inl rfl⟩

theorem StepEffect.trans_local {self : String} {g : Frame} {s s₁ s₂ : Sys}
    (h₁ : StepEffect self g s s₁) (h₂ : StepEffect self g s₁ s₂) (hl : s₂.store = s₁.store)
    (ht : s₂.threads = s₁.threads) : StepEffect self g s s₂ := by
  refine ⟨fun m hm => (h₂.others m hm).trans (h₁.others m hm), h₁.keeps.trans h₂.keeps, ?_, ?_,
    ht ▸ h₁.threads⟩
  · have := h₁.owners
    unfold OwnersEffect at this ⊢
    rwa [hl]
  · have := h₁.ids
    unfold IdsEffect at this ⊢
    rwa [hl]

/-- Unwinding an exception changes only members. -/
theorem raise_fst (self : String) (e : Exc) (s : Sys) (fs : List Frame) :
    (raise self e s fs).1 = {s with members := (raise self e s fs).1.members} := by
  induction fs generalizing s with
  | nil => rfl
  | cons f fs ih =>
    cases f with
    | rebalance pc =>
      simp only [raise]
      split
      · split
        · rw [ih]
          rfl
        · split <;> rfl
      · rw [ih]
        split <;> rfl
    | start pc => cases pc <;> first | exact ih s | rfl
    | watch | checker => rfl
    | _ => exact ih s

theorem raise_store (self : String) (e : Exc) (s : Sys) (fs : List Frame) :
    (raise self e s fs).1.store = s.store := by
  rw [raise_fst]

theorem raise_threads (self : String) (e : Exc) (s : Sys) (fs : List Frame) :
    (raise self e s fs).1.threads = s.threads := by
  rw [raise_fst]

/-- Unwinding an exception only releases the lock or stores the background error. -/
theorem raise_effect (self : String) (g : Frame) (e : Exc) (s : Sys) (fs : List Frame) :
    StepEffect self g s (raise self e s fs).1 := by
  induction fs generalizing s with
  | nil => exact .refl self g s
  | cons f fs ih =>
    cases f with
    | rebalance pc =>
      simp only [raise]
      split
      · split
        · exact (StepEffect.setMember ⟨rfl, rfl, id, id⟩).trans_local (ih _) (raise_store _ _ _ _)
            (raise_threads _ _ _ _)
        · split <;> exact .refl self g s
      · split
        · exact (StepEffect.setMember ⟨rfl, rfl, id, id⟩).trans_local (ih _) (raise_store _ _ _ _)
            (raise_threads _ _ _ _)
        · exact ih s
    | start pc => cases pc <;> first | exact ih s | exact .refl self g s
    | watch | checker =>
      simp only [raise]
      exact StepEffect.setMember ⟨rfl, rfl, fun _ => rfl, id⟩
    | _ => exact ih s

theorem StepEffect.of_eq {self : String} {g : Frame} {s s' : Sys} (hm : s'.members = s.members)
    (hs : s'.store = s.store) (ht : s'.threads = s.threads) : StepEffect self g s s' :=
  ⟨fun m _ => by rw [hm], by rw [hm]; exact .refl _, .inl (by rw [hs]), .inl (by rw [hs]), .inl ht⟩

theorem StepEffect.spawn {self : String} {g : Frame} {s : Sys} :
    StepEffect self g s {s with threads := s.threads ++ [⟨self, [.checker .loop]⟩]} :=
  ⟨fun _ _ => rfl, .refl _, .inl rfl, .inl rfl, .inr rfl⟩

theorem StepEffect.createOwner {self : String} {s : Sys} {p sid : Nat} {ps : List Nat} {d : Dir}
    (hs : (s.members self).session = .ok sid)
    (h : s.store.owners.create ((s.members self).topic.pathOf p) ⟨self, sid⟩ = some d) :
    StepEffect self (.addPartitions (p :: ps)) s (s.setOwners d) :=
  ⟨fun _ _ => rfl, .refl _, .inr (.inl ⟨p, ps, sid, rfl, hs, h⟩), .inl rfl, .inl rfl⟩

theorem StepEffect.deleteOwner {self : String} {s : Sys} {p sid : Nat} {ps : List Nat} {d : Dir}
    (hs : (s.members self).session = .ok sid)
    (h : s.store.owners.delete ((s.members self).topic.pathOf p) = some d) :
    StepEffect self (.removePartitions (p :: ps)) s (s.setOwners d) :=
  ⟨fun _ _ => rfl, .refl _, .inr (.inr (.inl ⟨p, ps, sid, rfl, hs, h⟩)), .inl rfl, .inl rfl⟩

theorem StepEffect.createId {self : String} {s : Sys} {sid : Nat} {ps : List String} {d : Dir}
    (hs : (s.members self).session = .ok sid)
    (h : s.store.ids.create self ⟨(s.members self).topic.name, sid⟩ = some d) :
    StepEffect self (.addSelf (some ps)) s (s.setIds d) :=
  ⟨fun _ _ => rfl, .refl _, .inl rfl, .inr (.inl ⟨ps, sid, rfl, hs, h⟩), .inl rfl⟩

theorem StepEffect.deleteId {self : String} {s : Sys} {d : Dir} (h : s.store.ids.delete self = some d) :
    StepEffect self (.stop .deleteSelf) s (s.setIds d) :=
  ⟨fun _ _ => rfl, .refl _, .inl rfl, .inr (.inr (.inl ⟨rfl, h⟩)), .inl rfl⟩

theorem StepEffect.expire {self : String} {s : Sys} {c : Client} (hc : (s.members self).zookeeper = some c) :
    StepEffect self (.stop .close) s {s with store := s.store.expire c.session} :=
  ⟨fun _ _ => rfl, .refl _, .inr (.inr (.inr ⟨c, rfl, hc, rfl⟩)), .inr (.inr (.inr ⟨c, rfl, hc, rfl⟩)),
    .inl rfl⟩

theorem StepEffect.trans_members {self : String} {g : Frame} {s s₁ : Sys} {f : Member → Member}
    (h : StepEffect self g s s₁) (hm : s₁.members = s.members)
    (hk : (s.members self).Keeps (f (s.members self))) :
    StepEffect self g s (s₁.setMember self f) := by
  refine ⟨fun m hm' => by simp [hm', hm], by simpa [hm] using hk, ?_, ?_, h.threads⟩
  · have := h.owners
    unfold OwnersEffect at this ⊢
    exact this
  · have := h.ids
    unfold IdsEffect at this ⊢
    exact this

theorem StepEffect.setMember_of {self : String} {g : Frame} {s s₁ : Sys} {f : Member → Member}
    (hm : s₁.members = s.members) (hs : s₁.store = s.store) (ht : s₁.threads = s.threads)
    (hk : (s.members self).Keeps (f (s.members self))) :
    StepEffect self g s (s₁.setMember self f) :=
  (StepEffect.of_eq hm hs ht).trans_members hm hk

theorem withSession_eq_some {s : Sys} {self : String} {fs : List Frame}
    {k : Nat → Option (Sys × List Frame)} {r : Sys × List Frame}
    (h : withSession s self fs k = some r) : (∃ e, r = raise self e s fs) ∨ ∃ sid, k sid = some r := by
  unfold withSession at h
  split at h
  · exact .inl ⟨_, (Option.some.inj h).symm⟩
  · exact .inr ⟨_, h⟩

/-- **What a step does.** -/
theorem stepFrame_effect {s : Sys} {self : String} {fs : List Frame} {ok : Bool} {f : Frame}
    {r : Sys × List Frame} (h : stepFrame s self fs ok f = some r) : StepEffect self f s r.1 := by
  -- one case per branch of `stepFrame`
  cases stepFrame_sound h <;> try dsimp only
  all_goals first
    | exact .refl _ _ _
    | exact raise_effect _ _ _ _ _
    | exact .createOwner ‹_› ‹_›
    | exact .deleteOwner ‹_› ‹_›
    | exact .createId ‹_› ‹_›
    | exact .deleteId ‹_›
    | exact .of_eq rfl rfl rfl
    | refine .setMember ?_
    | exact .spawn
    | refine (StepEffect.setMember ?_).trans_local (raise_effect _ _ _ _ _) (raise_store _ _ _ _)
        (raise_threads _ _ _ _)
    | refine (StepEffect.setMember ?_).trans_local (StepEffect.setMember ?_) rfl rfl
    | refine (StepEffect.expire ‹_›).trans_members rfl ?_
    | refine StepEffect.setMember_of rfl rfl rfl ?_
  -- what the member updates keep: no field of `Member.Keeps` is touched, or the inner
  -- consumer is rebuilt, or it is stopped
  all_goals
    first
    | exact ⟨rfl, rfl, id, id⟩
    | exact ⟨rfl, rfl, id, fun _ => rfl⟩
    | exact ⟨rfl, rfl, id, fun h => by simpa using h⟩

namespace Sys

theorem stepThread_effect {s : Sys} {t : Thread} {ok : Bool} {r : Sys × List Frame}
    (h : s.stepThread t ok = some r) :
    ∃ f fs, t.stack = f :: fs ∧ stepFrame s t.self fs ok f = some r ∧ StepEffect t.self f s r.1 := by
  unfold stepThread at h
  split at h
  · cases h
  · exact ⟨_, _, ‹_›, h, stepFrame_effect h⟩

/-- **What an event does**: a thread's step is its member's `StepEffect`; a call only
starts a thread; an expiry ends a session; a refresh moves a leader. -/
theorem step_cases {s s' : Sys} {e : Event} (h : s.step e = some s') :
    (∃ i ok t f fs r, e = .run i ok ∧ s.threads[i]? = some t ∧ t.stack = f :: fs ∧
      stepFrame s t.self fs ok f = some r ∧ StepEffect t.self f s r.1 ∧
      s' = {r.1 with threads := r.1.threads.set i ⟨t.self, r.2⟩}) ∨
    (∃ m entry, e = .call m entry ∧ s' = {s with threads := s.threads ++ [⟨m, [entry.frame]⟩]}) ∨
    (∃ sid, e = .expire sid ∧ s' = s.expireSession sid) ∨
    ∃ m id l, e = .leader m id l ∧
      s' = s.setMember m fun M => {M with topic := M.topic.setLeader id l} := by
  cases e with
  | run i ok =>
    simp only [step] at h
    split at h
    · cases h
    · rename_i t ht
      obtain ⟨r, hr, rfl⟩ := Option.map_eq_some'.mp h
      obtain ⟨f, fs, hst, hf, he⟩ := stepThread_effect hr
      exact .inl ⟨i, ok, t, f, fs, r, rfl, ht, hst, hf, he, rfl⟩
  | call m entry => cases h; exact .inr (.inl ⟨m, entry, rfl, rfl⟩)
  | expire sid => cases h; exact .inr (.inr (.inl ⟨sid, rfl, rfl⟩))
  | leader m id l => cases h; exact .inr (.inr (.inr ⟨m, id, l, rfl, rfl⟩))

/-- What every event keeps of every member: a stored background error, and an inner
consumer. -/
theorem step_persists {s s' : Sys} {e : Event} (hs : s.step e = some s') (m : String) :
    ((s.members m).workerException.isSome → (s'.members m).workerException.isSome) ∧
    ((s.members m).consumer.isSome → (s'.members m).consumer.isSome) := by
  obtain ⟨i, ok, t, f, fs, r, rfl, -, -, -, he, rfl⟩ | ⟨m', entry, rfl, rfl⟩ | ⟨sid, rfl, rfl⟩ |
    ⟨m', p, l, rfl, rfl⟩ := step_cases hs
  · dsimp only
    by_cases h : m = t.self
    · subst h
      exact ⟨he.keeps.workerException, he.keeps.consumer⟩
    · rw [he.others m h]
      exact ⟨id, id⟩
  · exact ⟨id, id⟩
  · rw [expireSession_members]
    exact ⟨id, id⟩
  · rw [setMember_members]
    split
    · subst_vars
      exact ⟨id, id⟩
    · exact ⟨id, id⟩

/-- No event removes a thread: a call that returned keeps its slot. -/
theorem threads_length_le_step {s s' : Sys} {e : Event} (hs : s.step e = some s') :
    s.threads.length ≤ s'.threads.length := by
  obtain ⟨i, ok, t, f, fs, r, rfl, -, -, -, he, rfl⟩ | ⟨m', entry, rfl, rfl⟩ | ⟨sid, rfl, rfl⟩ |
    ⟨m', p, l, rfl, rfl⟩ := step_cases hs
  · rcases he.threads with h | h <;> simp [h]
  · simp
  · exact le_rfl
  · exact le_rfl

end Sys

theorem Reachable.threads_length_le {allowed : Event → Prop} {s₀ s : Sys} (h : Reachable allowed s₀ s) :
    s₀.threads.length ≤ s.threads.length :=
  h.induct (fun s => s₀.threads.length ≤ s.threads.length) le_rfl fun _ hi _ hs =>
    hi.trans (Sys.threads_length_le_step hs)

end Pykafka
