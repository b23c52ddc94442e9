import Pykafka.Claims

/-! A failed `start`.

`start` runs its steps inside `try`, and `except Exception` calls `stop()` without
re-raising: whichever step raises (`ensure_path`, `_add_self`'s capacity check or create,
`_set_watches`, the initial `_rebalance`), the call unwinds to the handler, runs
`stop()`, and returns normally. `start_failure_stops` says what it leaves, for a member
with a client of its own whose `start` the application calls once: when `stop()` has
returned inside the handler, the member is stopped, its inner consumer stopped, its
client closed, and no record of it is left in the coordinator; the thread's next step
then ends `start` with nothing raised. `start_returns_after_failure` runs one failed
`start` to its end.

The records go with the client: every record carries the session of its member's
client, and closing the client ends that session (`Recorded`). Nothing undoes what
`stop()` did: only `start` sets `_running`, a thread that holds the lock past the
`_running` check runs only while the member runs (`Checked`), so no `_rebalance`
rebuilds the inner consumer, and a closed client stays closed. -/
namespace Pykafka

/-! ### Records live on their member's session -/

/-- Every participant record carries the session of its member's client. -/
def IdsOnSession (s : Sys) : Prop :=
  ∀ e ∈ s.store.ids.entries, ∃ c, (s.members e.1).zookeeper = some c ∧ c.session = e.2.session

/-- Every record carries the session of its member's client, and a member whose client
was stopped has none: no ownership record with its id and no participant record. -/
structure Recorded (s : Sys) : Prop where
  owners : OwnersOnSession s
  ids : IdsOnSession s
  closed : ∀ x, (s.members x).closed →
    (∀ e ∈ s.store.owners.entries, e.2.value ≠ x) ∧ ∀ e ∈ s.store.ids.entries, e.1 ≠ x

section
variable {y : String} {f : Frame} {s s' : Sys}

/-- A step of a thread keeps every participant record on its member's session. -/
theorem IdsOnSession.step_thread (h : IdsOnSession s) (he : StepEffect y f s s') (hm : Moves y f s s') :
    IdsOnSession s' := by
  have old : ∀ e ∈ s.store.ids.entries,
      ∃ c, (s'.members e.1).zookeeper = some c ∧ c.session = e.2.session := fun e he' => by
    obtain ⟨c, hc, hs⟩ := h e he'
    obtain ⟨c', hc', hs'⟩ := hm.client_before he.others hc
    exact ⟨c', hc', hs'.trans hs⟩
  intro e he'
  rcases he.ids with ho | ⟨ps, sid, rfl, hsid, hc⟩ | ⟨-, hd⟩ | ⟨c, -, -, ho⟩
  · exact old e (ho ▸ he')
  · rcases (Dir.mem_create hc).mp he' with rfl | he'
    · exact hm.client_of_session (by simp) hsid
    · exact old e he'
  · exact old e ((Dir.mem_delete hd).mp he').1
  · rw [ho] at he'
    exact old e (Dir.mem_expire.mp he').1

/-- A client that a step leaves stopped was stopped before; or the step is `stop`'s
`self._zookeeper.stop()` on an open client, which ends its session; or it is `start`'s
new client, which timed out, where there was none. -/
theorem Moves.closed_after (hm : Moves y f s s') (ho : ∀ x, x ≠ y → s'.members x = s.members x)
    {x : String} (hx : (s'.members x).closed) (hx₀ : (s.members x).closed = false) :
    x = y ∧ ((s.members x).zookeeper = none ∧ s'.store = s.store ∨
      ∃ c, (s.members x).zookeeper = some c ∧ s'.store = s.store.expire c.session) := by
  by_cases hxy : x = y
  · subst hxy
    rcases hm.client with ⟨hz, -, -⟩ | ⟨-, hz₀, -, hst, -⟩ | ⟨-, -, c, hz₀, -, hst⟩
    · simp only [Member.closed, hz] at hx hx₀
      rw [hx] at hx₀
      cases hx₀
    · exact ⟨rfl, .inl ⟨hz₀, hst⟩⟩
    · have hc : c.closed = false := by simpa [Member.closed, hz₀] using hx₀
      exact ⟨rfl, .inr ⟨c, hz₀, by rw [hst, hc]; rfl⟩⟩
  · rw [ho x hxy, hx₀] at hx
    cases hx

/-- A record a step creates is its member's, on the member's open session. -/
theorem Recorded.step_thread (h : Recorded s) (he : StepEffect y f s s') (hm : Moves y f s s') :
    Recorded s' := by
  refine ⟨h.owners.step_thread he hm, h.ids.step_thread he hm, fun x hx => ?_⟩
  cases hx₀ : (s.members x).closed
  · obtain ⟨rfl, ⟨hz, hst⟩ | ⟨c, hc, hst⟩⟩ := hm.closed_after he.others hx hx₀
    · -- `x` had no client, so no record
      rw [hst]
      refine ⟨fun e he' hv => ?_, fun e he' hv => ?_⟩
      · obtain ⟨c', hc', -⟩ := h.owners e he'
        rw [hv, hz] at hc'
        cases hc'
      · obtain ⟨c', hc', -⟩ := h.ids e he'
        rw [hv, hz] at hc'
        cases hc'
    -- the step closed `x`'s client: it ended the session every record of `x` is on
    rw [hst]
    refine ⟨fun e he' hv => ?_, fun e he' hv => ?_⟩
    · obtain ⟨he', hne⟩ := Dir.mem_expire.mp he'
      obtain ⟨c', hc', hs⟩ := h.owners e he'
      rw [hv, hc] at hc'
      cases hc'
      exact hne hs.symm
    · obtain ⟨he', hne⟩ := Dir.mem_expire.mp he'
      obtain ⟨c', hc', hs⟩ := h.ids e he'
      rw [hv, hc] at hc'
      cases hc'
      exact hne hs.symm
  · -- `x` had no record, and only `y`, on its open session, creates one
    obtain ⟨ho, hi⟩ := h.closed x hx₀
    refine ⟨fun e he' => ?_, fun e he' => ?_⟩
    · rcases he.owners with ho' | ⟨p, ps, sid, rfl, hsid, hc⟩ | ⟨p, ps, sid, -, -, hd⟩ | ⟨c, -, -, ho'⟩
      · exact ho e (ho' ▸ he')
      · rcases (Dir.mem_create hc).mp he' with rfl | he'
        · rintro rfl
          rw [Member.closed_of_session hsid] at hx₀
          cases hx₀
        · exact ho e he'
      · exact ho e ((Dir.mem_delete hd).mp he').1
      · rw [ho'] at he'
        exact ho e (Dir.mem_expire.mp he').1
    · rcases he.ids with hi' | ⟨ps, sid, rfl, hsid, hc⟩ | ⟨-, hd⟩ | ⟨c, -, -, hi'⟩
      · exact hi e (hi' ▸ he')
      · rcases (Dir.mem_create hc).mp he' with rfl | he'
        · rintro rfl
          rw [Member.closed_of_session hsid] at hx₀
          cases hx₀
        · exact hi e he'
      · exact hi e ((Dir.mem_delete hd).mp he').1
      · rw [hi'] at he'
        exact hi e (Dir.mem_expire.mp he').1

end

namespace Recorded

variable {s s' : Sys}

theorem init (config : String → Config) (topic : String → Topic) (brokers : Bool) (n : Nat) :
    Recorded (Sys.init config topic brokers n) :=
  ⟨fun _ h => (nomatch h), fun _ h => (nomatch h), fun x hx => by
    simp only [Sys.init, Member.init, Member.closed] at hx
    cases h : (config x).zookeeper <;> simp [h] at hx⟩

/-- An expiry removes the records on the ended session and moves the open clients on it
to a new one; stopped clients stay as they are. -/
theorem expire {sid : Nat} (h : Recorded s) : Recorded (s.expireSession sid) := by
  have moved : ∀ x c, (s.members x).zookeeper = some c → c.session ≠ sid →
      ((s.expireSession sid).members x).zookeeper = some c := fun x c hc hne => by
    simp [Sys.expireSession_members, hc, hne]
  refine ⟨fun e he => ?_, fun e he => ?_, fun x hx => ?_⟩
  · obtain ⟨he, hne⟩ := Dir.mem_expire.mp he
    obtain ⟨c, hc, hs⟩ := h.owners e he
    exact ⟨c, moved _ c hc (hs ▸ hne), hs⟩
  · obtain ⟨he, hne⟩ := Dir.mem_expire.mp he
    obtain ⟨c, hc, hs⟩ := h.ids e he
    exact ⟨c, moved _ c hc (hs ▸ hne), hs⟩
  · have hx₀ : (s.members x).closed := by
      rw [Sys.expireSession_members] at hx
      rcases hz : (s.members x).zookeeper with _ | c
      · simp [Member.closed, hz] at hx
      · simp only [Member.closed, hz, Option.map_some', Option.any_some] at hx
        split at hx <;> simpa [Member.closed, hz] using hx
    obtain ⟨ho, hi⟩ := h.closed x hx₀
    exact ⟨fun e he => ho e (Dir.mem_expire.mp he).1, fun e he => hi e (Dir.mem_expire.mp he).1⟩

/-- What the records are on is read off the coordinator and the members only. -/
theorem of_eq (h : Recorded s) (hs : s'.store = s.store) (hm : s'.members = s.members) : Recorded s' := by
  obtain ⟨ho, hi, hc⟩ := h
  exact ⟨by rw [OwnersOnSession, hs, hm]; exact ho, by rw [IdsOnSession, hs, hm]; exact hi, by rw [hs, hm]; exact hc⟩

theorem step {e : Event} (h : Recorded s) (hs : s.step e = some s') : Recorded s' := by
  obtain ⟨i, ok, t, f, fs, r, rfl, -, -, hf, he, rfl⟩ | ⟨m, entry, rfl, rfl⟩ | ⟨sid, rfl, rfl⟩ |
    ⟨m, id, l, rfl, rfl⟩ := Sys.step_cases hs
  · exact (h.step_thread he (stepFrame_moves hf)).of_eq rfl rfl
  · exact h.of_eq rfl rfl
  · exact h.expire
  · have hz : ∀ x, ((s.setMember m fun M => {M with topic := M.topic.setLeader id l}).members x).zookeeper =
        (s.members x).zookeeper := fun x => by
      rw [Sys.setMember_members]
      split <;> simp_all
    exact ⟨fun e he => by simpa only [hz] using h.owners e he, fun e he => by simpa only [hz] using h.ids e he,
      fun x hx => h.closed x (by simpa only [Member.closed, hz] using hx)⟩

/-- **Every record lives on its member's session, and a stopped client leaves none**,
along every run. -/
theorem reachable {allowed : Event → Prop} {config : String → Config} {topic : String → Topic} {brokers : Bool}
    {n : Nat} (h : Reachable allowed (Sys.init config topic brokers n) s) : Recorded s :=
  h.induct Recorded (init config topic brokers n) fun _ hi _ hs => hi.step hs

end Recorded

/-! ### The lock and the `_running` check -/

section
variable {s : Sys} {self : String} {fs : List Frame} {ok : Bool} {r : Sys × List Frame}

/-- Unwinding from a stack that holds no lock leaves one that holds none. -/
theorem lockHeld_raise_of {e : Exc} (h : Frame.Stack fs) (hb : lockHeld fs = false) :
    lockHeld (raise self e s fs).2 = false := by
  rcases @raise_lockStep self e s fs h with ⟨h₁, -⟩ | ⟨h₁, -⟩ <;> simp_all

/-- The caller of `stop` holds no lock. -/
theorem Frame.Stack.lockHeld_stop {pc : Stop} (h : Frame.Stack (.stop pc :: fs)) : lockHeld fs = false := by
  rcases fs with _ | ⟨g, gs⟩
  · rfl
  · have hg := h.1
    unfold Frame.waitsOn at hg
    split at hg <;> cases hg
    · simp [Frame.holdsLock, Rebalance.holdsLock, h.2.lockHeld_below]
    · simp [Frame.holdsLock, h.2.eq_nil (by simp [Frame.kind])]

/-- **A thread takes the lock only at `with self._rebalancing_lock:`**, which leaves it at
the `_running` check. -/
theorem stepFrame_takesLock {f : Frame} (h : Frame.Stack (f :: fs)) (hs : stepFrame s self fs ok f = some r)
    (hb : lockHeld (f :: fs) = false) (hb' : lockHeld r.2 = true) : r.2 = .rebalance .check :: fs := by
  have hfs : lockHeld fs = false := by simp_all
  -- one case per branch of `stepFrame`
  cases stepFrame_sound hs <;> try dsimp only
  all_goals first
    | rfl
    | (rw [lockHeld_raise_of h.tail hfs] at hb'; cases hb')
    | (rw [lockHeld_raise_of h hb] at hb'; cases hb')
    | simp_all [Frame.holdsLock, Rebalance.holdsLock]

/-- At the `_running` check of a member that is not running, `_rebalance` raises and lets
go of the lock. -/
theorem lockHeld_of_check (h : Frame.Stack (.rebalance .check :: fs))
    (hs : stepFrame s self fs ok (.rebalance .check) = some r) (hr : (s.members self).running = false) :
    lockHeld r.2 = false := by
  cases stepFrame_sound hs with
  | checkStopped =>
    simp only [raise, Rebalance.attempt]
    exact lockHeld_raise_of h.tail h.lockHeld_below
  | checkRetry h' | checkNoRetry h' => simp [hr] at h'

/-- `stop` clears `_running` only once the lock is free. -/
theorem locked_of_stopLock (hs : stepFrame s self fs ok (.stop .lock) = some r) :
    (s.members self).locked = false := by
  cases stepFrame_sound hs with
  | stopLock h => exact Bool.eq_false_iff.mpr h

end

/-- A thread that holds its member's lock is at the `_running` check, or its member runs:
inside `with self._rebalancing_lock`, only a `_running` that was set lets `_rebalance`
past the check, and `stop` clears it only once the lock is free. -/
def Checked (s : Sys) : Prop :=
  ∀ t ∈ s.threads, lockHeld t.stack → t.stack.head? = some (.rebalance .check) ∨ (s.members t.self).running

namespace Checked

variable {s s' : Sys}

theorem step {e : Event} (hL : Locks s) (h : Checked s) (hs : s.step e = some s') : Checked s' := by
  obtain ⟨i, ok, t, f, fs, r, rfl, ht, hst, hf, he, rfl⟩ | ⟨m, entry, rfl, rfl⟩ | ⟨sid, rfl, rfl⟩ |
    ⟨m, id, l, rfl, rfl⟩ := Sys.step_cases hs
  · have hok : StackOk (s.members t.self).config (f :: fs) := hst ▸ hL.stackOk t (List.getElem?_mem ht)
    have hmv := stepFrame_moves hf
    -- a running member whose lock a thread holds is still running after the step
    have keep : ∀ (j : Nat) (t' : Thread), s.threads[j]? = some t' → lockHeld t'.stack →
        (s.members t'.self).running → (r.1.members t'.self).running := fun j t' hj hl hr => by
      by_cases hx : t'.self = t.self
      · rw [hx, hmv.running]
        rw [hx] at hr
        by_cases h₁ : f = .stop .lock
        · subst h₁
          have := (hL.lock j t' hj hl).1
          rw [hx, locked_of_stopLock hf] at this
          cases this
        · by_cases h₂ : f = .start .running <;> simp [h₁, h₂, hr]
      · rwa [he.others _ hx]
    intro t' ht' hl
    rcases List.mem_or_eq_of_mem_set ht' with ht' | rfl
    · rcases he.threads with hth | hth <;> rw [hth] at ht'
      · obtain ⟨j, hj⟩ := List.mem_iff_getElem?.mp ht'
        exact (h t' ht' hl).imp_right (keep j t' hj hl)
      · rcases List.mem_append.mp ht' with ht' | ht'
        · obtain ⟨j, hj⟩ := List.mem_iff_getElem?.mp ht'
          exact (h t' ht' hl).imp_right (keep j t' hj hl)
        · rw [List.mem_singleton.mp ht'] at hl
          simp [Frame.holdsLock] at hl
    · cases hb : lockHeld (f :: fs)
      · exact .inl (by rw [stepFrame_takesLock hok.stack hf hb hl]; rfl)
      · rcases h t (List.getElem?_mem ht) (hst ▸ hb) with hc | hr
        · rw [hst] at hc
          cases hc
          cases hr : (s.members t.self).running
          · rw [lockHeld_of_check hok.stack hf hr] at hl
            cases hl
          · exact .inr (keep i t ht (hst ▸ hb) hr)
        · exact .inr (keep i t ht (hst ▸ hb) hr)
  · intro t' ht' hl
    rcases List.mem_append.mp ht' with ht' | ht'
    · exact h t' ht' hl
    · rw [List.mem_singleton.mp ht'] at hl
      cases entry <;> simp [Entry.frame, Frame.holdsLock] at hl
  · intro t' ht' hl
    rw [Sys.expireSession_members]
    exact h t' ht' hl
  · intro t' ht' hl
    rw [Sys.setMember_members]
    split
    · subst_vars
      exact h t' ht' hl
    · exact h t' ht' hl

/-- **A thread that holds the lock past the `_running` check runs only while its member
runs**, along every run. -/
theorem reachable {allowed : Event → Prop} {config : String → Config} {topic : String → Topic} {brokers : Bool}
    {n : Nat} (h : Reachable allowed (Sys.init config topic brokers n) s) : Checked s :=
  (h.induct (fun s => Locks s ∧ Checked s) ⟨Locks.init config topic brokers n, fun _ h => (nomatch h)⟩
    fun _ hi _ hs => ⟨hi.1.step hs, hi.2.step hi.1 hs⟩).2

end Checked

/-! ### `start` frames -/

/-- The stack holds no frame of `start`. -/
def startless (fs : List Frame) : Bool := fs.all (·.kind != .start)

section
variable {s : Sys} {self : String} {fs : List Frame} {ok : Bool} {r : Sys × List Frame}

@[simp] theorem startless_nil : startless [] = true := rfl

@[simp] theorem startless_cons (f : Frame) (fs : List Frame) :
    startless (f :: fs) = (f.kind != .start && startless fs) := rfl

@[simp] theorem startless_ret (v : Ret) (fs : List Frame) : startless (ret v fs) = startless fs := by
  cases fs <;> simp [ret]

theorem startless_raise {e : Exc} (h : startless fs) : startless (raise self e s fs).2 := by
  induction fs generalizing s with
  | nil => rfl
  | cons f fs ih =>
    simp only [startless_cons, Bool.and_eq_true] at h
    cases f with
    | rebalance pc =>
      simp only [raise]
      split
      · split
        · exact ih h.2
        · split <;> simp [Frame.kind, h.2]
      · exact ih h.2
    | start pc => simp [Frame.kind] at h
    | watch | checker => simpa [raise] using h.2
    | _ => exact ih h.2

/-- **Only `start` has frames of `start`**: a step of a thread with none leaves none. -/
theorem stepFrame_startless {f : Frame} (hs : stepFrame s self fs ok f = some r) (h : startless (f :: fs)) :
    startless r.2 := by
  have hfs : startless fs := by simp_all
  -- one case per branch of `stepFrame`
  cases stepFrame_sound hs <;> try dsimp only
  all_goals first
    | (simp only [startless_cons, startless_ret, Frame.kind, hfs]; rfl)
    | exact startless_raise hfs
    | exact startless_raise h
    | simp_all [Frame.kind]

end

/-! ### What `stop` has done -/

/-- `self._consumer.stop()` leaves the inner consumer, if any, stopped. -/
@[simp] theorem all_stopped (o : Option Consumer) : (o.map ({· with running := false})).all (!·.running) = true := by
  cases o <;> rfl

/-- What `stop` has done, read off the frame a thread of member `x` is at: `_running` is
cleared, then the inner consumer stopped; once `stop` has returned into `start`'s
handler, the client is stopped too. -/
def Halted (s : Sys) (x : String) : List Frame → Prop
  | .stop .consumer :: _ => (s.members x).running = false
  | .stop .close :: _ => (s.members x).running = false ∧ (s.members x).consumer.all (!·.running)
  | [.start (.failed true)] =>
    (s.members x).running = false ∧ (s.members x).consumer.all (!·.running) ∧ (s.members x).closed
  | _ => True

section
variable {s s' : Sys} {x : String}

theorem Halted.mono {fs : List Frame} (hr : (s.members x).running = false → (s'.members x).running = false)
    (hc : (s.members x).running = false → (s.members x).consumer.all (!·.running) →
      (s'.members x).consumer.all (!·.running))
    (hz : (s.members x).closed → (s'.members x).closed) (h : Halted s x fs) : Halted s' x fs := by
  unfold Halted at h ⊢
  split
  all_goals first
    | trivial
    | exact hr h
    | exact ⟨hr h.1, hc h.1 h.2⟩
    | exact ⟨hr h.1, hc h.1 h.2.1, hz h.2.2⟩

theorem Halted.of_fields {fs : List Frame} (hr : (s'.members x).running = (s.members x).running)
    (hc : (s'.members x).consumer = (s.members x).consumer) (hz : (s'.members x).closed = (s.members x).closed)
    (h : Halted s x fs) : Halted s' x fs :=
  h.mono (fun h => hr.trans h) (fun _ h => hc ▸ h) (fun h => hz.trans h)

/-- Unwinding leaves a stack at no point of `stop` past its lock. -/
theorem halted_raise {self : String} {e : Exc} {fs : List Frame} (h : Frame.Stack fs) :
    Halted s' x (raise self e s fs).2 := by
  induction fs generalizing s with
  | nil => trivial
  | cons f fs ih =>
    cases f with
    | rebalance pc =>
      simp only [raise]
      split
      · split
        · exact ih h.tail
        · split <;> trivial
      · exact ih h.tail
    | start pc => cases pc <;> first | exact ih h.tail | trivial
    | watch | checker =>
      rw [h.eq_nil (by simp [Frame.kind])]
      trivial
    | _ => exact ih h.tail

/-- A method other than `stop` returns to a caller at no point of `stop` past its lock. -/
theorem halted_ret {f : Frame} {fs : List Frame} (h : Frame.Stack (f :: fs)) (hk : f.kind ≠ .stop) (v : Ret) :
    Halted s x (ret v fs) := by
  rcases fs with _ | ⟨g, gs⟩
  · trivial
  · have hg := h.1
    unfold Frame.waitsOn at hg
    split at hg
    all_goals first
      | cases hg
      | (cases v <;> trivial)
      | exact absurd (Option.some.inj hg).symm hk

/-- `stop` returns to its caller; into `start`'s handler, with what it has done. -/
theorem halted_ret_stop {pc : Stop} {fs : List Frame} (h : Frame.Stack (.stop pc :: fs))
    (hr : (s.members x).running = false) (hc : (s.members x).consumer.all (!·.running))
    (hz : (s.members x).closed) : Halted s x (ret .unit fs) := by
  rcases fs with _ | ⟨g, gs⟩
  · trivial
  · have hg := h.1
    unfold Frame.waitsOn at hg
    split at hg <;> cases hg
    · trivial
    · rw [h.2.eq_nil (by simp [Frame.kind])]
      exact ⟨hr, hc, hz⟩

end

/-- **A step keeps what `stop` has done**, in a thread of a member with a client of its
own. -/
theorem stepFrame_halted {s : Sys} {self : String} {fs : List Frame} {ok : Bool} {f : Frame}
    {r : Sys × List Frame} (hown : (s.members self).config.ownsZookeeper = true)
    (hok : StackOk (s.members self).config (f :: fs)) (h : Halted s self (f :: fs))
    (hs : stepFrame s self fs ok f = some r) : Halted r.1 self r.2 := by
  have hf := hok.fits f (.head _)
  -- one case per branch of `stepFrame`
  cases stepFrame_sound hs <;> try dsimp only
  all_goals first
    | trivial
    | exact halted_raise hok.stack.tail
    | exact halted_raise hok.stack
    | exact halted_raise (hok.stack.replace rfl)
    | (refine halted_ret hok.stack ?_ _; simp [Frame.kind]; done)
    | (simp [Frame.fits, hown] at hf; done)
    | (refine halted_ret_stop hok.stack ?_ ?_ ?_ <;> simp_all [Halted, Member.closed])
    | simp_all [Halted]

/-- An expiry moves clients to new sessions and leaves stopped ones stopped. -/
theorem Sys.closed_expireSession (s : Sys) (sid : Nat) (x : String) :
    ((s.expireSession sid).members x).closed = (s.members x).closed := by
  rw [Sys.expireSession_members]
  rcases hz : (s.members x).zookeeper with _ | c
  · simp [Member.closed, hz]
  · simp only [Member.closed, hz, Option.map_some', Option.any_some]
    split <;> rfl

/-! ### A `start` called once -/

/-- No thread of member `m` is in `start`. -/
def Startless (m : String) (s : Sys) : Prop := ∀ t ∈ s.threads, t.self = m → startless t.stack

theorem Sys.step_config {s s' : Sys} {e : Event} (hs : s.step e = some s') (x : String) :
    (s'.members x).config = (s.members x).config := by
  obtain ⟨i, ok, t, f, fs, r, rfl, -, -, -, he, rfl⟩ | ⟨m, entry, rfl, rfl⟩ | ⟨sid, rfl, rfl⟩ |
    ⟨m, id, l, rfl, rfl⟩ := Sys.step_cases hs
  · by_cases hx : x = t.self
    · subst hx
      exact he.keeps.config
    · exact congrArg Member.config (he.others x hx)
  · rfl
  · rw [Sys.expireSession_members]
  · rw [Sys.setMember_members]
    split <;> simp_all

/-- Only a call of `start` makes a thread of `start`. -/
theorem Startless.step {m : String} {s s' : Sys} {e : Event} (h : Startless m s) (he : e ≠ .call m .start)
    (hs : s.step e = some s') : Startless m s' := by
  obtain ⟨i, ok, t, f, fs, r, rfl, ht, hst, hf, he', rfl⟩ | ⟨x, entry, rfl, rfl⟩ | ⟨sid, rfl, rfl⟩ |
    ⟨x, id, l, rfl, rfl⟩ := Sys.step_cases hs
  · intro t' ht' hm
    rcases List.mem_or_eq_of_mem_set ht' with ht' | rfl
    · rcases he'.threads with hth | hth <;> rw [hth] at ht'
      · exact h t' ht' hm
      · rcases List.mem_append.mp ht' with ht' | ht'
        · exact h t' ht' hm
        · rw [List.mem_singleton.mp ht']
          rfl
    · exact stepFrame_startless hf (hst ▸ h t (List.getElem?_mem ht) hm)
  · intro t' ht' hm
    rcases List.mem_append.mp ht' with ht' | ht'
    · exact h t' ht' hm
    · obtain rfl := List.mem_singleton.mp ht'
      obtain rfl : x = m := hm
      cases entry
      · exact absurd rfl he
      all_goals rfl
  · exact h
  · exact h

/-- What a run keeps while thread `i` is the only call of `start` of member `m`, whose
client is its own: the lock invariants, the records on their sessions, no other thread
of `m` in `start`, and what `stop` has done in thread `i`. -/
structure Handled (m : String) (i : Nat) (s : Sys) : Prop where
  locks : Locks s
  checked : Checked s
  recorded : Recorded s
  owns : (s.members m).config.ownsZookeeper = true
  thread : ∃ fs, s.threads[i]? = some ⟨m, fs⟩
  single : ∀ j t, s.threads[j]? = some t → t.self = m → j ≠ i → startless t.stack
  halted : ∀ fs, s.threads[i]? = some ⟨m, fs⟩ → Halted s m fs

namespace Handled

variable {m : String} {i : Nat} {s s' : Sys}

/-- A step of another thread of `m`, which is not in `start`, undoes nothing `stop` did:
only `start` sets `_running`, a `_rebalance` rebuilds the inner consumer only while `m`
runs, and a stopped client stays stopped. -/
theorem halted_other {f : Frame} {fs fs' : List Frame} {r : Sys × List Frame} (hc : Checked s)
    (ht : ∃ t ∈ s.threads, t.self = m ∧ t.stack = f :: fs) (hf : startless (f :: fs))
    (hm : Moves m f s r.1) (h : Halted s m fs') : Halted r.1 m fs' := by
  have hk : f.kind ≠ .start := by
    simp only [startless_cons, Bool.and_eq_true, bne_iff_ne] at hf
    exact hf.1
  refine h.mono (fun hr => ?_) (fun hr hc₀ => ?_) (fun hz => ?_)
  · rw [hm.running]
    split
    · rfl
    · split
      · subst_vars
        simp [Frame.kind] at hk
      · exact hr
  · rcases hm.consumer with h₁ | ⟨-, h₁⟩ | ⟨k, new, rfl, -⟩
    · rwa [h₁]
    · rw [h₁]
      exact all_stopped _
    · -- a thread past the `_running` check holds the lock, and `m` is not running
      obtain ⟨t, ht, rfl, hst⟩ := ht
      rcases hc t ht (by simp [hst, Frame.holdsLock, Rebalance.holdsLock]) with hh | hh
      · simp [hst] at hh
      · rw [hr] at hh
        cases hh
  · rcases hm.client with ⟨h₁, -⟩ | ⟨rfl, -⟩ | ⟨-, -, c, -, h₁, -⟩
    · simpa [Member.closed, h₁] using hz
    · simp [Frame.kind] at hk
    · simp [Member.closed, h₁]

theorem stack_of_getElem? {ts : List Thread} {i : Nat} {m m' : String} {a b : List Frame}
    (h₁ : ts[i]? = some ⟨m, a⟩) (h₂ : ts[i]? = some ⟨m', b⟩) : a = b := by
  rw [h₁] at h₂
  injection h₂ with h₂
  injection h₂

/-- The slots of the threads after thread `j` stepped: slot `j` holds its new stack, and
every other slot of a thread before is as it was. -/
theorem getElem?_stepped {ts ts' : List Thread} {j k : Nat} {t t' : Thread} (fs : List Frame)
    (ht : ts[j]? = some t) (hth : ts' = ts ∨ ts' = ts ++ [⟨t.self, [.checker .loop]⟩])
    (hk : ts[k]? = some t') : (ts'.set j ⟨t.self, fs⟩)[k]? = if k = j then some ⟨t.self, fs⟩ else some t' := by
  have hkl := (List.getElem?_eq_some_iff.mp hk).1
  have hk' : ts'[k]? = some t' := by
    rcases hth with rfl | rfl
    · exact hk
    · rwa [List.getElem?_append_left hkl]
  split
  · subst_vars
    rw [List.getElem?_set_self (List.getElem?_eq_some_iff.mp hk').1]
  · rw [List.getElem?_set_ne (Ne.symm ‹_›), hk']

theorem step {e : Event} (h : Handled m i s) (he : e ≠ .call m .start) (hs : s.step e = some s') :
    Handled m i s' := by
  have hL := h.locks.step hs
  have hC := h.checked.step h.locks hs
  have hR := h.recorded.step hs
  have hO : (s'.members m).config.ownsZookeeper = true := by rw [Sys.step_config hs]; exact h.owns
  obtain ⟨fsᵢ, hi⟩ := h.thread
  have hHᵢ := h.halted fsᵢ hi
  obtain ⟨j, ok, t, f, fs, r, rfl, ht, hst, hf, he', rfl⟩ | ⟨x, entry, rfl, rfl⟩ | ⟨sid, rfl, rfl⟩ |
    ⟨x, id, l, rfl, rfl⟩ := Sys.step_cases hs
  · have hsingle : ∀ k t', (r.1.threads.set j ⟨t.self, r.2⟩)[k]? = some t' → t'.self = m → k ≠ i →
        startless t'.stack := fun k t' hk hm hki => by
      rcases getElem?_after ht he'.threads hk with ⟨rfl, rfl⟩ | ⟨-, hk'⟩ | rfl
      · exact stepFrame_startless hf (hst ▸ h.single k t ht hm hki)
      · exact h.single k t' hk' hm hki
      · rfl
    by_cases hji : j = i
    · -- thread `i` steps
      subst hji
      rw [hi] at ht
      obtain rfl := Option.some.inj ht
      have hi' := getElem?_stepped r.2 hi he'.threads hi
      rw [if_pos rfl] at hi'
      have hok : StackOk (s.members m).config (f :: fs) := hst ▸ h.locks.stackOk _ (List.getElem?_mem hi)
      refine ⟨hL, hC, hR, hO, ⟨r.2, hi'⟩, fun k t' hk hm hki => hsingle k t' hk hm hki, fun fs' hfs' => ?_⟩
      obtain rfl := stack_of_getElem? hi' hfs'
      exact (stepFrame_halted h.owns hok (hst ▸ hHᵢ) hf).of_fields rfl rfl rfl
    · -- another thread steps; thread `i` keeps its stack
      have hi' := getElem?_stepped r.2 ht he'.threads hi
      rw [if_neg (Ne.symm hji)] at hi'
      refine ⟨hL, hC, hR, hO, ⟨fsᵢ, hi'⟩, fun k t' hk hm hki => hsingle k t' hk hm hki, fun fs' hfs' => ?_⟩
      obtain rfl := stack_of_getElem? hi' hfs'
      by_cases hx : t.self = m
      · exact (Handled.halted_other h.checked ⟨t, List.getElem?_mem ht, hx, hst⟩
          (hst ▸ h.single j t ht hx hji) (hx ▸ stepFrame_moves hf) hHᵢ).of_fields rfl rfl rfl
      · have hm := he'.others m (Ne.symm hx)
        exact hHᵢ.of_fields (by rw [← hm]) (by rw [← hm]) (by rw [← hm])
  · -- a call starts a thread, which is not `m`'s `start`
    have hlt := (List.getElem?_eq_some_iff.mp hi).1
    have hi' : (s.threads ++ [⟨x, [entry.frame]⟩])[i]? = some ⟨m, fsᵢ⟩ := by
      rwa [List.getElem?_append_left hlt]
    refine ⟨hL, hC, hR, hO, ⟨fsᵢ, hi'⟩, fun k t' hk hm hki => ?_, fun fs' hfs' => ?_⟩
    · by_cases hkl : k < s.threads.length
      · rw [List.getElem?_append_left hkl] at hk
        exact h.single k t' hk hm hki
      · rw [List.getElem?_append_right (by omega)] at hk
        obtain rfl := List.mem_singleton.mp (List.getElem?_mem hk)
        obtain rfl : x = m := hm
        cases entry
        · exact absurd rfl he
        all_goals rfl
    · obtain rfl := stack_of_getElem? hi' hfs'
      exact hHᵢ.of_fields rfl rfl rfl
  · refine ⟨hL, hC, hR, hO, ⟨fsᵢ, hi⟩, h.single, fun fs' hfs' => ?_⟩
    obtain rfl := stack_of_getElem? hi hfs'
    exact hHᵢ.of_fields (by rw [Sys.expireSession_members]) (by rw [Sys.expireSession_members])
      (Sys.closed_expireSession s sid m)
  · have hm : ∀ F : Member → Member, (F (s.members x)).running = (s.members x).running →
        (F (s.members x)).consumer = (s.members x).consumer → (F (s.members x)).zookeeper = (s.members x).zookeeper →
        Halted (s.setMember x F) m fsᵢ := fun F h₁ h₂ h₃ => by
      refine hHᵢ.of_fields ?_ ?_ ?_ <;> rw [Sys.setMember_members] <;> split <;> simp_all [Member.closed]
    refine ⟨hL, hC, hR, hO, ⟨fsᵢ, hi⟩, h.single, fun fs' hfs' => ?_⟩
    obtain rfl := stack_of_getElem? hi hfs'
    exact hm _ rfl rfl rfl

/-- The call of `start` begins the run that `Handled` follows. -/
theorem start {s₁ : Sys} (hL : Locks s₁) (hC : Checked s₁) (hR : Recorded s₁) (hS : Startless m s₁)
    (hown : (s₁.members m).config.ownsZookeeper = true) (hcall : s₁.step (.call m .start) = some s) :
    Handled m s₁.threads.length s := by
  obtain rfl : {s₁ with threads := s₁.threads ++ [⟨m, [.start .setup]⟩]} = s := Option.some.inj hcall
  have hi : (s₁.threads ++ [⟨m, [.start .setup]⟩])[s₁.threads.length]? = some ⟨m, [.start .setup]⟩ := by
    simp
  refine ⟨hL.step hcall, hC.step hL hcall, hR.step hcall, hown, ⟨_, hi⟩, fun k t hk hm hki => ?_,
    fun fs hfs => ?_⟩
  · have hk' : k < s₁.threads.length := by
      have := (List.getElem?_eq_some_iff.mp hk).1
      simp only [List.length_append, List.length_singleton] at this
      omega
    rw [List.getElem?_append_left hk'] at hk
    exact hS t (List.getElem?_mem hk) hm
  · obtain rfl := stack_of_getElem? hi hfs
    trivial

end Handled

theorem Reachable.config {allowed : Event → Prop} {s₀ s : Sys} (h : Reachable allowed s₀ s) (x : String) :
    (s.members x).config = (s₀.members x).config :=
  h.induct (fun s => (s.members x).config = (s₀.members x).config) rfl fun _ hi _ hs =>
    (Sys.step_config hs x).trans hi

/-- **A failed `start` leaves its member stopped, with no record.** Let member `m`, with
a client of its own, have `start` called once, as thread `i`, in a run of any other
events. When `stop()` has returned inside `start`'s handler, `m` is stopped, its inner
consumer, if any, stopped, its client closed, and the coordinator holds no ownership
record with `m`'s id and no participant record of `m`; `start` then returns normally,
and its return changes nothing else. -/
theorem start_failure_stops {config : String → Config} {topic : String → Topic} {brokers : Bool} {n : Nat} {m : String}
    (hown : (config m).ownsZookeeper = true) {s₁ s₂ s : Sys}
    (h₁ : Reachable (· ≠ .call m .start) (Sys.init config topic brokers n) s₁)
    (hcall : s₁.step (.call m .start) = some s₂) (h₂ : Reachable (· ≠ .call m .start) s₂ s)
    (hdone : s.threads[s₁.threads.length]? = some ⟨m, [.start (.failed true)]⟩) :
    (s.members m).running = false ∧ (s.members m).consumer.all (!·.running) ∧ (s.members m).closed ∧
      (∀ e ∈ s.store.owners.entries, e.2.value ≠ m) ∧ m ∉ s.store.ids.children ∧
      ∀ ok, s.step (.run s₁.threads.length ok) = some {s with threads := s.threads.set s₁.threads.length ⟨m, []⟩} := by
  have hS : Startless m s₁ :=
    h₁.induct (Startless m) (fun _ h => by simp [Sys.init] at h) fun _ hi he hs => hi.step he hs
  have hH₂ := Handled.start (Locks.reachable h₁) (Checked.reachable h₁) (Recorded.reachable h₁) hS
    (by rw [h₁.config]; exact hown) hcall
  have hH : Handled m s₁.threads.length s := h₂.induct _ hH₂ fun _ hi he hs => hi.step he hs
  obtain ⟨hr, hc, hz⟩ := hH.halted _ hdone
  obtain ⟨ho, hi⟩ := hH.recorded.closed m hz
  refine ⟨hr, hc, hz, ho, fun hm => ?_, fun ok => ?_⟩
  · obtain ⟨node, hn⟩ := Dir.mem_children.mp hm
    exact hi _ hn rfl
  · simp only [Sys.step, hdone]
    rfl

/-- The coordinator does not answer `a`'s new client, whose `start()` times out; `start`'s
handler calls `stop()`, which returns. -/
theorem start_failure_stops_timeout :
    ∃ s, Reachable (· ≠ .call "a" .start)
        {Sys.init (fun _ => {}) (fun _ => twoPartitions) true 0 with threads := [⟨"a", [Entry.start.frame]⟩]} s ∧
      s.threads[0]? = some ⟨"a", [.start (.failed true)]⟩ ∧ (s.members "a").running = false ∧
      (s.members "a").closed ∧ "a" ∉ s.store.ids.children := by
  obtain ⟨s, hr, hdone⟩ := @Reachable.exists_of_run (· ≠ .call "a" .start)
    {Sys.init (fun _ => {}) (fun _ => twoPartitions) true 0 with threads := [⟨"a", [Entry.start.frame]⟩]}
    (fun s => s.threads[0]? = some ⟨"a", [.start (.failed true)]⟩) _
    (.run 0 false :: List.replicate 3 (.run 0 true)) (by decide) (by decide)
  obtain ⟨hrun, -, hz, -, hids, -⟩ :=
    @start_failure_stops (fun _ => {}) (fun _ => twoPartitions) true 0 "a" rfl _ _ s .refl rfl hr hdone
  exact ⟨s, hr, hdone, hrun, hz, hids⟩

/-- The coordinator does not answer `a`'s new client: `KazooClient.start()` in
`_setup_zookeeper` times out, stops the client and raises. `start` catches the timeout
and calls `stop()`, which finds the client stopped and returns; then `start` returns
normally: its thread ends with an empty stack, not with the error, and `a` is stopped. -/
theorem start_returns_after_timeout :
    ∃ s, Reachable (fun _ => True) (Sys.init (fun _ => {}) (fun _ => twoPartitions) true 0) s ∧
      s.threads = [⟨"a", [.start .setup]⟩] ∧ (s.members "a").zookeeper = none ∧
      ∃ s₁, s.step (.run 0 false) = some s₁ ∧ (s₁.members "a").zookeeper = some ⟨0, true⟩ ∧
        ∃ s', Reachable (· = .run 0 true) s₁ s' ∧ s'.threads = [⟨"a", []⟩] ∧
          (s'.members "a").running = false ∧ (s'.members "a").closed := by
  obtain ⟨s, hr, ht, hz, hrest⟩ := @Reachable.exists_of_run (fun _ => True)
    (Sys.init (fun _ => {}) (fun _ => twoPartitions) true 0)
    (fun s => s.threads = [⟨"a", [.start .setup]⟩] ∧ (s.members "a").zookeeper = none ∧
      (s.step (.run 0 false)).map (fun s₁ => decide ((s₁.members "a").zookeeper = some ⟨0, true⟩ ∧
        (s₁.run (List.replicate 4 (.run 0 true))).map (fun s' => decide (s'.threads = [⟨"a", []⟩] ∧
          (s'.members "a").running = false ∧ (s'.members "a").closed)) = some true)) = some true) _
    [.call "a" .start] (fun _ _ => trivial) (by decide)
  obtain ⟨s₁, hs₁, hb⟩ := Option.map_eq_some'.mp hrest
  obtain ⟨hz₁, hrun⟩ := of_decide_eq_true hb
  exact ⟨s, hr, ht, hz, s₁, hs₁, hz₁, Reachable.exists_of_run _ _ (fun _ he => List.eq_of_mem_replicate he) hrun⟩

end Pykafka
