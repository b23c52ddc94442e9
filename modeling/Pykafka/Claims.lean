import Pykafka.Stack
import Pykafka.Ownership

/-! What a lock holder takes to be its member's, and what the other threads leave of it.

A thread of `_rebalance` inside the lock reads back the member's records
(`_get_held_partitions`), deletes those outside `new_partitions` and claims the rest
(`_remove_partitions`, `_add_partitions`), then rebuilds the inner consumer. At each of
these points it takes some partitions to be its member's (`Claims`): their records are
the member's, unless the member's client is closed (`Holds`).

With no session loss and no leader change, and every member on a client of its own,
every step keeps that (`Claimed.step`): a step of the holder itself reads, deletes and
creates only what it claims; another member deletes only records it holds itself, and
closing a client ends only that client's session, on which no other member's record
lives (`Sessions`); another thread of the same member holds no lock, so it deletes
nothing, and the member's lock has only one holder (`Locks`). -/
namespace Pykafka

/-! ### What a step does to its own member -/

/-- What a step at frame `f` of a thread of `member` does to the member's run state and
client: `stop` clears `_running` and `start` sets it; `stop` stops the inner consumer,
and the end of a pass of `_rebalance` rebuilds it over `new_partitions`; `start` opens a
client on a fresh session when there is none, which stays stopped if it cannot connect,
and `stop` closes it. Only the end of `start` starts a thread. -/
structure Moves (member : String) (f : Frame) (s s' : Sys) : Prop where
  running : (s'.members member).running =
    if f = .stop .lock then false else if f = .start .running then true else (s.members member).running
  consumer : (s'.members member).consumer = (s.members member).consumer ∨
    f = .stop .consumer ∧
      (s'.members member).consumer = (s.members member).consumer.map ({· with running := false}) ∨
    ∃ i new, f = .rebalance (.added i new true) ∧
      (s'.members member).consumer = ((s.members member).setupInternalConsumer new).consumer
  client : (s'.members member).zookeeper = (s.members member).zookeeper ∧ s'.nextSession = s.nextSession ∧
      (f = .stop .close → (s.members member).zookeeper = none) ∨
    f = .start .setup ∧ (s.members member).zookeeper = none ∧ s'.nextSession = s.nextSession + 1 ∧
      s'.store = s.store ∧ (∃ b, (s'.members member).zookeeper = some ⟨s.nextSession, b⟩) ∨
    f = .stop .close ∧ s'.nextSession = s.nextSession ∧
      ∃ c, (s.members member).zookeeper = some c ∧ (s'.members member).zookeeper = some {c with closed := true} ∧
        s'.store = if c.closed then s.store else s.store.expire c.session
  spawn : s'.threads = s.threads ∨ f = .start (.rebalance true)

/-- Unwinding changes no member's `_running`, inner consumer or client. -/
theorem raise_members (self : String) (e : Exc) (s : Sys) (fs : List Frame) (x : String) :
    ((raise self e s fs).1.members x).running = (s.members x).running ∧
    ((raise self e s fs).1.members x).consumer = (s.members x).consumer ∧
    ((raise self e s fs).1.members x).zookeeper = (s.members x).zookeeper := by
  induction fs generalizing s with
  | nil => exact ⟨rfl, rfl, rfl⟩
  | cons f fs ih =>
    have hset : ∀ F : Member → Member, (F (s.members self)).running = (s.members self).running →
        (F (s.members self)).consumer = (s.members self).consumer →
        (F (s.members self)).zookeeper = (s.members self).zookeeper →
        ((raise self e (s.setMember self F) fs).1.members x).running = (s.members x).running ∧
        ((raise self e (s.setMember self F) fs).1.members x).consumer = (s.members x).consumer ∧
        ((raise self e (s.setMember self F) fs).1.members x).zookeeper = (s.members x).zookeeper :=
      fun F h₁ h₂ h₃ => by
        rw [(ih _).1, (ih _).2.1, (ih _).2.2, Sys.setMember_members]
        split <;> simp_all
    cases f with
    | rebalance pc =>
      simp only [raise]
      split
      · split
        · exact hset _ rfl rfl rfl
        · split <;> exact ⟨rfl, rfl, rfl⟩
      · split
        · exact hset _ rfl rfl rfl
        · exact ih s
    | start pc => cases pc <;> first | exact ih s | exact ⟨rfl, rfl, rfl⟩
    | watch | checker =>
      simp only [raise, Sys.setMember_members]
      split <;> simp_all
    | _ => exact ih s

theorem Moves.of_raise {self : String} {f : Frame} {e : Exc} {s s₁ : Sys} {fs : List Frame}
    (hm : (s₁.members self).running = (s.members self).running ∧
      (s₁.members self).consumer = (s.members self).consumer ∧
      (s₁.members self).zookeeper = (s.members self).zookeeper)
    (hn : s₁.nextSession = s.nextSession) (ht : s₁.threads = s.threads)
    (hf : f ≠ .stop .lock ∧ f ≠ .start .running)
    (hz : f = .stop .close → (s.members self).zookeeper = none) : Moves self f s (Pykafka.raise self e s₁ fs).1 := by
  have hr := raise_members self e s₁ fs self
  refine ⟨by simp [hf.1, hf.2, hr.1, hm.1], .inl (hr.2.1.trans hm.2.1),
    .inl ⟨hr.2.2.trans hm.2.2, by rw [raise_fst]; exact hn, hz⟩, .inl (by rw [raise_threads]; exact ht)⟩

/-- **What a step does to its member's run state and client.** -/
theorem stepFrame_moves {s : Sys} {self : String} {fs : List Frame} {ok : Bool} {f : Frame}
    {r : Sys × List Frame} (hs : stepFrame s self fs ok f = some r) : Moves self f s r.1 := by
  -- one case per branch of `stepFrame`
  cases stepFrame_sound hs <;> try dsimp only
  all_goals first
    | (refine Moves.of_raise ?_ rfl rfl ?_ ?_ <;> simp [Member.logWorkerTrace] <;> assumption)
    | refine ⟨?_, ?_, ?_, ?_⟩
      · simp [Member.lock, Member.unlock, Member.setupInternalConsumer]
      · first
        | (left; simp [Member.lock, Member.unlock]; done)
        | (right; left; exact ⟨rfl, by simp⟩)
        | (right; right; exact ⟨_, _, rfl, by simp⟩)
      · first
        | (left; refine ⟨?_, ?_, ?_⟩ <;> simp [Member.lock, Member.unlock, Member.setupInternalConsumer]; done)
        | (right; left; refine ⟨rfl, Option.isNone_iff_eq_none.mp ‹_›, rfl, rfl, ?_⟩; simp)
        | (right; right; refine ⟨rfl, ?_, _, ‹_›, ?_, ?_⟩ <;> simp [*])
      · first
        | (left; simp; done)
        | (right; rfl)

/-! ### Records and claims -/

/-- Member `x` has the ownership record of partition `id`, as `T` names it. -/
def Owned (s : Sys) (T : Topic) (x : String) (id : Nat) : Prop :=
  ∃ n, s.store.owners.get (T.pathOf id) = some n ∧ n.value = x

/-- `self._zookeeper` was stopped. -/
def Member.closed (M : Member) : Bool := M.zookeeper.any (·.closed)

theorem Member.closed_of_session {M : Member} {sid : Nat} (h : M.session = .ok sid) : M.closed = false := by
  obtain ⟨c, hc, hcl, -⟩ := Member.session_eq_ok h
  simp [Member.closed, hc, hcl]

/-- Partition `id` is `x`'s as far as `x` can tell: `x` has its record, or `x`'s client
was stopped, and then every coordinator operation of `x` raises. -/
def Holds (s : Sys) (T : Topic) (x : String) (id : Nat) : Prop :=
  (s.members x).closed ∨ Owned s T x id

/-- What the frames on top of a thread of `x` inside `with self._rebalancing_lock` take
to be `x`'s: the ids `_get_held_partitions` has read back; `current_zk_parts`; the ids
`_remove_partitions` has yet to delete, which are distinct, with the part of
`current_zk_parts` kept; the part of `new_partitions` held before, or claimed by
`_add_partitions` so far; at the end of the pass all of `new_partitions`. -/
def Claims (s : Sys) (T : Topic) (x : String) : List Frame → Prop
  | .getHeldPartitions _ found :: .rebalance (.held _ _ none) :: _ =>
    found.Nodup ∧ ∀ id ∈ found, Holds s T x id
  | .rebalance (.held _ _ (some h)) :: _ => h.Nodup ∧ ∀ id ∈ h, Holds s T x id
  | .removePartitions ps :: .rebalance (.removed _ new h false) :: _ =>
    (ps ++ h.filter (· ∈ new)).Nodup ∧ ∀ id ∈ ps ++ h.filter (· ∈ new), Holds s T x id
  | .rebalance (.removed _ new h true) :: _ => ∀ id ∈ h, id ∈ new → Holds s T x id
  | .addPartitions ps :: .rebalance (.added _ new false) :: _ => ∀ id ∈ new, id ∉ ps → Holds s T x id
  | .rebalance (.added _ new true) :: _ => ∀ id ∈ new, Holds s T x id
  | _ => True

namespace Claims

variable {s s' : Sys} {T : Topic} {x : String} {fs : List Frame}

theorem mono (hH : ∀ id, Holds s T x id → Holds s' T x id) (h : Claims s T x fs) : Claims s' T x fs := by
  unfold Claims at h ⊢
  split
  all_goals first
    | trivial
    | exact ⟨h.1, fun id hid => hH id (h.2 id hid)⟩
    | exact fun id hid => hH id (h id hid)
    | exact fun id hid hn => hH id (h id hid hn)

/-- A thread that does not hold the lock claims nothing. -/
theorem of_lockHeld (h : lockHeld fs = false) : Claims s T x fs := by
  unfold Claims
  split <;> simp_all [Frame.holdsLock, Rebalance.holdsLock]

end Claims

/-- Unwinding leaves a stack that claims nothing. -/
theorem claims_raise {self : String} {e : Exc} {s₀ s : Sys} {T : Topic} {x : String} {fs : List Frame}
    (h : Frame.Stack fs) : Claims s T x (raise self e s₀ fs).2 := by
  induction fs generalizing s₀ with
  | nil => trivial
  | cons f fs ih =>
    cases f with
    | rebalance pc =>
      simp only [raise]
      split
      · split
        · exact ih h.tail
        · split <;> trivial
      · exact ih h.tail
    | start pc => cases pc <;> first | exact ih h.tail | trivial
    | watch | checker =>
      rw [h.eq_nil (by simp [Frame.kind])]
      trivial
    | _ => exact ih h.tail

/-! ### A step of the lock holder -/

section
variable {s : Sys} {T : Topic} {x : String}

/-- A record `_get_held_partitions` reads as `x`'s names partition `id` as `T` does. -/
theorem owned_of_get (hN : NamedBy T s) {c : String} {n : Node} {id : Nat}
    (hg : s.store.owners.get c = some n) (hv : n.value = x) (hid : slugId c = some id) : Owned s T x id := by
  obtain ⟨id', rfl⟩ := hN.owners c (Dir.mem_children.mpr ⟨n, Dir.get_eq_some.mp hg⟩)
  rw [Topic.slugId_pathOf] at hid
  cases hid
  exact ⟨n, hg, hv⟩

theorem owned_create {p sid : Nat} {d : Dir} (hc : s.store.owners.create (T.pathOf p) ⟨x, sid⟩ = some d) :
    Owned (s.setOwners d) T x p :=
  ⟨_, by rw [Sys.setOwners_owners, Dir.get_create hc, if_pos rfl], rfl⟩

theorem Holds.create {name : String} {node : Node} {d : Dir} {id : Nat}
    (hc : s.store.owners.create name node = some d) (h : Holds s T x id) : Holds (s.setOwners d) T x id := by
  refine h.imp_right fun ⟨n, hg, hv⟩ => ⟨n, ?_, hv⟩
  rw [Sys.setOwners_owners, Dir.get_create hc, if_neg]
  · exact hg
  · rintro rfl
    exact (Dir.create_eq_some.mp hc).1 (Dir.mem_children.mpr ⟨n, Dir.get_eq_some.mp hg⟩)

theorem Holds.delete {p id : Nat} {d : Dir} (hd : s.store.owners.delete (T.pathOf p) = some d)
    (hne : id ≠ p) (h : Holds s T x id) : Holds (s.setOwners d) T x id := by
  refine h.imp_right fun ⟨n, hg, hv⟩ => ⟨n, ?_, hv⟩
  rw [Sys.setOwners_owners, Dir.get_delete hd, if_neg (mt Topic.pathOf_inj.mp hne)]
  exact hg

/-- The caller of a method that claims nothing has no claim once it returns. -/
theorem claims_ret {f : Frame} {fs : List Frame} (h : Frame.Stack (f :: fs))
    (hk : f.kind ≠ .getHeldPartitions ∧ f.kind ≠ .removePartitions ∧ f.kind ≠ .addPartitions)
    (v : Ret) : Claims s T x (ret v fs) := by
  rcases fs with _ | ⟨g, gs⟩
  · trivial
  · have hg := h.1
    unfold Frame.waitsOn at hg
    split at hg
    all_goals first
      | cases hg
      | (cases v <;> trivial)
      | exact absurd (Option.some.inj hg).symm hk.1
      | exact absurd (Option.some.inj hg).symm hk.2.1
      | exact absurd (Option.some.inj hg).symm hk.2.2

variable {s' : Sys} {fs : List Frame}

/-- `_get_held_partitions` reads one more child. -/
theorem claims_getHeld {l l' : Option (List String)} {found found' : List Nat}
    (hst : Frame.Stack (.getHeldPartitions l found :: fs)) (hc : Claims s T x (.getHeldPartitions l found :: fs))
    (h : found.Nodup → (∀ id ∈ found, Holds s T x id) → found'.Nodup ∧ ∀ id ∈ found', Holds s' T x id) :
    Claims s' T x (.getHeldPartitions l' found' :: fs) := by
  rcases fs with _ | ⟨g, gs⟩
  · trivial
  · have hg := hst.1
    unfold Frame.waitsOn at hg
    split at hg <;> cases hg
    all_goals first | trivial | exact h hc.1 hc.2

/-- `_get_held_partitions` returns the ids it read. -/
theorem claims_getHeld_ret {l : Option (List String)} {found : List Nat}
    (hst : Frame.Stack (.getHeldPartitions l found :: fs)) (hc : Claims s T x (.getHeldPartitions l found :: fs)) :
    Claims s T x (ret (.ids found) fs) := by
  rcases fs with _ | ⟨g, gs⟩
  · trivial
  · have hg := hst.1
    unfold Frame.waitsOn at hg
    split at hg <;> cases hg <;> exact hc

/-- `_remove_partitions` deletes one more record. -/
theorem claims_remove {p : Nat} {ps : List Nat} (hst : Frame.Stack (.removePartitions (p :: ps) :: fs))
    (hc : Claims s T x (.removePartitions (p :: ps) :: fs))
    (h : ∀ id, id ≠ p → Holds s T x id → Holds s' T x id) : Claims s' T x (.removePartitions ps :: fs) := by
  rcases fs with _ | ⟨g, gs⟩
  · trivial
  · have hg := hst.1
    unfold Frame.waitsOn at hg
    split at hg <;> cases hg
    all_goals first
      | trivial
      | obtain ⟨hnd, hH⟩ := hc
        rw [List.cons_append, List.nodup_cons] at hnd
        exact ⟨hnd.2, fun id hid => h id (fun he => hnd.1 (he ▸ hid)) (hH id (List.mem_cons_of_mem p hid))⟩

/-- `_remove_partitions` returns. -/
theorem claims_remove_ret (hst : Frame.Stack (.removePartitions [] :: fs))
    (hc : Claims s T x (.removePartitions [] :: fs)) : Claims s T x (ret .unit fs) := by
  rcases fs with _ | ⟨g, gs⟩
  · trivial
  · have hg := hst.1
    unfold Frame.waitsOn at hg
    split at hg <;> cases hg
    all_goals first
      | trivial
      | exact fun id hid hn => hc.2 id (by simp [hid, hn])

/-- `_add_partitions` creates one more record. -/
theorem claims_add {p : Nat} {ps : List Nat} (hst : Frame.Stack (.addPartitions (p :: ps) :: fs))
    (hc : Claims s T x (.addPartitions (p :: ps) :: fs)) (hp : Owned s' T x p)
    (h : ∀ id, Holds s T x id → Holds s' T x id) : Claims s' T x (.addPartitions ps :: fs) := by
  rcases fs with _ | ⟨g, gs⟩
  · trivial
  · have hg := hst.1
    unfold Frame.waitsOn at hg
    split at hg <;> cases hg
    all_goals first
      | trivial
      | intro id hid hps
        by_cases he : id = p
        · exact he ▸ .inr hp
        · exact h id (hc id hid (by simp [he, hps]))

/-- `_add_partitions` returns. -/
theorem claims_add_ret (hst : Frame.Stack (.addPartitions [] :: fs))
    (hc : Claims s T x (.addPartitions [] :: fs)) : Claims s T x (ret .unit fs) := by
  rcases fs with _ | ⟨g, gs⟩
  · trivial
  · have hg := hst.1
    unfold Frame.waitsOn at hg
    split at hg <;> cases hg
    all_goals first
      | trivial
      | exact fun id hid => hc id hid (List.not_mem_nil id)

/-- `current_zk_parts` splits into the ids to delete and those to keep. -/
theorem claims_held {i : Nat} {new h : List Nat} (hc : Claims s T x (.rebalance (.held i new (some h)) :: fs)) :
    Claims s T x (.removePartitions (h.filter (· ∉ new)) :: .rebalance (.removed i new h false) :: fs) := by
  obtain ⟨hnd, hH⟩ := hc
  refine ⟨(hnd.filter _).append (hnd.filter _) fun a ha hb => by simp_all, fun id hid => hH id ?_⟩
  rcases List.mem_append.mp hid with hid | hid <;> exact (List.mem_filter.mp hid).1

/-- `_add_partitions` is given the new ids not held before. -/
theorem claims_removed {i : Nat} {new h : List Nat} (hc : Claims s T x (.rebalance (.removed i new h true) :: fs)) :
    Claims s T x (.addPartitions (new.filter (· ∉ h)) :: .rebalance (.added i new false) :: fs) :=
  fun id hid hn => hc id (by by_contra hh; exact hn (List.mem_filter.mpr ⟨hid, by simpa using hh⟩)) hid

end

/-- **A step keeps what its own thread claims.** -/
theorem stepFrame_claims {s : Sys} {T : Topic} {self : String} {fs : List Frame} {ok : Bool} {f : Frame}
    {r : Sys × List Frame} (hN : NamedBy T s) (hst : Frame.Stack (f :: fs)) (hc : Claims s T self (f :: fs))
    (hs : stepFrame s self fs ok f = some r) : Claims r.1 T self r.2 := by
  have hT := hN.topic self
  -- one case per branch of `stepFrame`, with the records it touches named by `T`
  cases stepFrame_sound hs <;> try dsimp only
  all_goals try rw [hT] at *
  all_goals first
    | trivial
    | exact claims_raise hst.tail
    | exact claims_raise hst
    | exact claims_raise (hst.replace rfl)
    | exact claims_getHeld hst hc fun h₁ h₂ => ⟨h₁, h₂⟩
    | exact claims_getHeld hst hc fun h₁ h₂ => ⟨h₁.insert, fun i hi =>
        (List.mem_insert_iff.mp hi).elim (fun he => he ▸ .inr (owned_of_get hN ‹_› ‹_› ‹_›)) (h₂ i)⟩
    | exact claims_getHeld_ret hst hc
    | exact claims_remove hst hc fun _ hne h => h.delete ‹_› hne
    | exact claims_remove_ret hst hc
    | exact claims_add hst hc (owned_create ‹_›) fun _ h => h.create ‹_›
    | exact claims_add_ret hst hc
    | exact claims_held hc
    | exact claims_removed hc
    | exact ⟨List.nodup_nil, fun _ h => nomatch h⟩
    | exact claims_ret hst (by simp [Frame.kind]) _

/-! ### Sessions -/

/-- Every ownership record carries the session of its owner's client. -/
def OwnersOnSession (s : Sys) : Prop :=
  ∀ e ∈ s.store.owners.entries, ∃ c, (s.members e.2.value).zookeeper = some c ∧ c.session = e.2.session

/-- Every ownership record carries its owner's current session; no two members' clients
share a session, and every client's session is below the coordinator's next one. -/
structure Sessions (s : Sys) : Prop where
  owners : OwnersOnSession s
  distinct : ∀ x y cx cy, (s.members x).zookeeper = some cx → (s.members y).zookeeper = some cy →
    cx.session = cy.session → x = y
  fresh : ∀ x c, (s.members x).zookeeper = some c → c.session < s.nextSession

section
variable {y : String} {f : Frame} {s s' : Sys}

/-- A client after a step: one from before, on the same session, or the one `start` has
just opened on the coordinator's next session. -/
theorem Moves.client_after (hm : Moves y f s s') (ho : ∀ x, x ≠ y → s'.members x = s.members x)
    {x : String} {c' : Client} (h : (s'.members x).zookeeper = some c') :
    (∃ c, (s.members x).zookeeper = some c ∧ c.session = c'.session) ∨
      (x = y ∧ (s.members x).zookeeper = none ∧ c'.session = s.nextSession ∧
        s'.nextSession = s.nextSession + 1) := by
  by_cases hx : x = y
  · subst hx
    rcases hm.client with ⟨hz, -, -⟩ | ⟨-, hz₀, hn, -, b, hz⟩ | ⟨-, -, c, hz₀, hz, -⟩
    · exact .inl ⟨c', hz ▸ h, rfl⟩
    · rw [hz] at h
      cases h
      exact .inr ⟨rfl, hz₀, rfl, hn⟩
    · rw [hz] at h
      cases h
      exact .inl ⟨c, hz₀, rfl⟩
  · exact .inl ⟨c', ho x hx ▸ h, rfl⟩

/-- A client before a step is there after it, on the same session. -/
theorem Moves.client_before (hm : Moves y f s s') (ho : ∀ x, x ≠ y → s'.members x = s.members x)
    {x : String} {c : Client} (h : (s.members x).zookeeper = some c) :
    ∃ c', (s'.members x).zookeeper = some c' ∧ c'.session = c.session := by
  by_cases hx : x = y
  · subst hx
    rcases hm.client with ⟨hz, -, -⟩ | ⟨-, hz₀, -⟩ | ⟨-, -, c₀, hz₀, hz, -⟩
    · exact ⟨c, hz.trans h, rfl⟩
    · rw [hz₀] at h
      cases h
    · rw [hz₀] at h
      cases h
      exact ⟨_, hz, rfl⟩
  · exact ⟨c, (ho x hx).symm ▸ h, rfl⟩

theorem Moves.nextSession_le (hm : Moves y f s s') : s.nextSession ≤ s'.nextSession := by
  rcases hm.client with ⟨-, hn, -⟩ | ⟨-, -, hn, -⟩ | ⟨-, hn, -⟩ <;> omega

/-- A client a step leaves on the session of a client before it: a record of the
member's created at a step carries the member's session, which the step leaves. -/
theorem Moves.client_of_session (hm : Moves y f s s') (hf : f ≠ .start .setup ∧ f ≠ .stop .close)
    {sid : Nat} (hsid : (s.members y).session = .ok sid) :
    ∃ c, (s'.members y).zookeeper = some c ∧ c.session = sid := by
  obtain ⟨c, hc, -, hcs⟩ := Member.session_eq_ok hsid
  rcases hm.client with ⟨hz, -, -⟩ | ⟨hf', -⟩ | ⟨hf', -⟩
  · exact ⟨c, hz.trans hc, hcs⟩
  · exact absurd hf' hf.1
  · exact absurd hf' hf.2

/-- A step of a thread keeps every ownership record on its owner's session. -/
theorem OwnersOnSession.step_thread (h : OwnersOnSession s) (he : StepEffect y f s s') (hm : Moves y f s s') :
    OwnersOnSession s' := by
  have old : ∀ e ∈ s.store.owners.entries,
      ∃ c, (s'.members e.2.value).zookeeper = some c ∧ c.session = e.2.session := fun e he' => by
    obtain ⟨c, hc, hs⟩ := h e he'
    obtain ⟨c', hc', hs'⟩ := hm.client_before he.others hc
    exact ⟨c', hc', hs'.trans hs⟩
  intro e he'
  rcases he.owners with ho | ⟨p, ps, sid, rfl, hsid, hc⟩ | ⟨p, ps, sid, -, -, hd⟩ | ⟨c, -, -, ho⟩
  · exact old e (ho ▸ he')
  · rcases (Dir.mem_create hc).mp he' with rfl | he'
    · exact hm.client_of_session (by simp) hsid
    · exact old e he'
  · exact old e ((Dir.mem_delete hd).mp he').1
  · rw [ho] at he'
    exact old e (Dir.mem_expire.mp he').1

/-- A step of a thread keeps the sessions apart: a record it creates carries the
member's session, and a client it opens is on a fresh one. -/
theorem Sessions.step_thread (h : Sessions s) (he : StepEffect y f s s') (hm : Moves y f s s') :
    Sessions s' := by
  refine ⟨h.owners.step_thread he hm, fun x z cx cz hx hz hxz => ?_, fun x c hc => ?_⟩
  · rcases hm.client_after he.others hx with ⟨cx₀, hx₀, hxs⟩ | ⟨rfl, -, hxs, -⟩ <;>
      rcases hm.client_after he.others hz with ⟨cz₀, hz₀, hzs⟩ | ⟨rfl, -, hzs, -⟩
    · exact h.distinct x z cx₀ cz₀ hx₀ hz₀ (by rw [hxs, hzs, hxz])
    · exact absurd (h.fresh x cx₀ hx₀) (by omega)
    · exact absurd (h.fresh z cz₀ hz₀) (by omega)
    · rfl
  · have := hm.nextSession_le
    rcases hm.client_after he.others hc with ⟨c₀, hc₀, hs⟩ | ⟨-, -, hs, hn⟩
    · exact hs ▸ (h.fresh x c₀ hc₀).trans_le this
    · omega

end

end Pykafka
