import Pykafka.Effect

/-! Call stacks and the rebalancing lock.

A thread's stack is built by calls: an entry point at the bottom (`start`, `stop`,
`consume`, a watch callback, the checker loop, or the exception that escaped one), and
above every other frame the method that frame waits on (`Frame.above`). Every frame of a member's
thread also fits the member's configuration: a retry counter of `_rebalance` stays
below `rebalance_max_retries`, and a member with a client of its own never takes the
borrowed-session branch of `stop` (`Frame.fits`). Every step keeps both
(`stepFrame_stackOk`).

A thread holds its member's `_rebalancing_lock` while its `_rebalance` frame is inside
the `with` block. A step takes the lock only when it is free, and a thread that lets go
of it clears it (`stepFrame_lockStep`). So along every run each member's lock is held
by at most one of its threads, and is set while one holds it (`Locks.reachable`). -/
namespace Pykafka

namespace Frame

/-- The method a frame belongs to. -/
inductive Kind where
  | getParticipants | getHeldPartitions | removePartitions | addPartitions | addSelf
  | rebalance | stop | start | watch | checker | consume | raised
deriving DecidableEq

def kind : Frame → Kind
  | getParticipants _ _ => .getParticipants
  | getHeldPartitions _ _ => .getHeldPartitions
  | removePartitions _ => .removePartitions
  | addPartitions _ => .addPartitions
  | addSelf _ => .addSelf
  | rebalance _ => .rebalance
  | stop _ => .stop
  | start _ => .start
  | watch _ => .watch
  | checker _ => .checker
  | consume _ _ _ => .consume
  | raised _ => .raised

/-- The frames a thread starts with, and the exception that escaped one. -/
def Kind.isEntry : Kind → Bool
  | .start | .stop | .watch | .checker | .consume | .raised => true
  | _ => false

/-- The method frame `g` called and waits on. -/
def waitsOn : Frame → Option Kind
  | rebalance (.participants _ none) | addSelf none => some .getParticipants
  | rebalance (.addSelf _ _ false) | start (.addSelf false) => some .addSelf
  | rebalance (.held _ _ none) | checker (.held none) | stop (.held none) => some .getHeldPartitions
  | rebalance (.removed _ _ _ false) | stop (.removed false) => some .removePartitions
  | rebalance (.added _ _ false) => some .addPartitions
  | start (.rebalance false) | watch (.rebalance false) | checker .rebalance => some .rebalance
  | rebalance (.stopping false) | start (.failed false) => some .stop
  | _ => none

/-- Frame `f` is one a member with configuration `c` builds: a retry counter of
`_rebalance` below `rebalance_max_retries`, and with a client of its own no frame of
the borrowed-session branch of `stop`. -/
def fits (c : Config) : Frame → Bool
  | rebalance pc => pc.attempt.all (· < c.rebalanceMaxRetries.toNat)
  | stop (.held _) | stop (.removed _) | stop .deleteSelf => !c.ownsZookeeper
  | _ => true

/-- A frame of `_rebalance` inside `with self._rebalancing_lock`. -/
def holdsLock : Frame → Bool
  | rebalance pc => pc.holdsLock
  | _ => false

/-- A stack the program builds: an entry point at the bottom, and above each frame a
method it waits on. -/
def Stack : List Frame → Prop
  | [] => True
  | [f] => f.kind.isEntry
  | f :: g :: gs => g.waitsOn = some f.kind ∧ Stack (g :: gs)

@[simp] theorem kind_deliver (g : Frame) (v : Ret) : (g.deliver v).kind = g.kind := by
  unfold deliver; split <;> rfl

@[simp] theorem fits_deliver (c : Config) (g : Frame) (v : Ret) : (g.deliver v).fits c = g.fits c := by
  unfold deliver; split <;> rfl

@[simp] theorem holdsLock_deliver (g : Frame) (v : Ret) : (g.deliver v).holdsLock = g.holdsLock := by
  unfold deliver; split <;> rfl

/-- Nothing waits on the entry of `start`, of a callback or of the checker. -/
theorem waitsOn_ne_entry {g : Frame} {k : Kind} (h : g.waitsOn = some k) :
    k ≠ .start ∧ k ≠ .watch ∧ k ≠ .checker ∧ k ≠ .consume ∧ k ≠ .raised := by
  unfold waitsOn at h; split at h <;> cases h <;> decide

theorem Stack.tail {f : Frame} {fs : List Frame} (h : Stack (f :: fs)) : Stack fs := by
  cases fs with
  | nil => trivial
  | cons g gs => exact h.2

/-- A frame moved to its next program point keeps its place on the stack. -/
theorem Stack.replace {f f' : Frame} {fs : List Frame} (h : Stack (f :: fs)) (hk : f'.kind = f.kind) :
    Stack (f' :: fs) := by
  cases fs with
  | nil => exact (congrArg Kind.isEntry hk).trans h
  | cons g gs => exact ⟨hk ▸ h.1, h.2⟩

theorem Stack.eq_nil {g : Frame} {gs : List Frame} (h : Stack (g :: gs))
    (hg : g.kind = .start ∨ g.kind = .watch ∨ g.kind = .checker) : gs = [] := by
  cases gs with
  | nil => rfl
  | cons f _ =>
    have := waitsOn_ne_entry h.1
    rcases hg with hg | hg | hg <;> simp_all

/-- Below a frame of `_rebalance` is the entry that called it, which holds no lock. -/
theorem Stack.holdsLock_below {pc : Rebalance} {fs : List Frame} (h : Stack (rebalance pc :: fs)) :
    fs.any holdsLock = false := by
  match fs, h with
  | [], _ => rfl
  | g :: gs, ⟨hg, h⟩ =>
    have hb : g.kind = .start ∨ g.kind = .watch ∨ g.kind = .checker := by
      unfold waitsOn at hg; split at hg <;> simp_all [kind]
    rw [h.eq_nil hb]
    rcases g with _ | _ | _ | _ | _ | _ | _ | _ | _ | _ | _ <;> simp_all [kind, holdsLock]

end Frame

/-! ### Stacks along a step -/

/-- The stacks of the threads of a member with configuration `c`. -/
structure StackOk (c : Config) (fs : List Frame) : Prop where
  stack : Frame.Stack fs
  fits : ∀ f ∈ fs, f.fits c = true

namespace StackOk

variable {c : Config} {f f' g : Frame} {fs : List Frame}

theorem tail (h : StackOk c (f :: fs)) : StackOk c fs :=
  ⟨h.stack.tail, fun g hg => h.fits g (List.mem_cons_of_mem f hg)⟩

theorem replace (h : StackOk c (f :: fs)) (hk : f'.kind = f.kind) (hf : f'.fits c = true) :
    StackOk c (f' :: fs) :=
  ⟨h.stack.replace hk, List.forall_mem_cons.mpr ⟨hf, h.tail.fits⟩⟩

theorem push (h : StackOk c (f :: fs)) (hw : f.waitsOn = some g.kind) (hg : g.fits c = true) :
    StackOk c (g :: f :: fs) :=
  ⟨⟨hw, h.stack⟩, List.forall_mem_cons.mpr ⟨hg, h.fits⟩⟩

theorem ret (v : Ret) (h : StackOk c fs) : StackOk c (Pykafka.ret v fs) := by
  cases fs with
  | nil => exact h
  | cons g gs => exact h.replace (Frame.kind_deliver g v) ((Frame.fits_deliver c g v).trans (h.fits g (.head _)))

/-- Unwinding an exception keeps a stack the program builds. -/
theorem raise {self : String} {e : Exc} {s : Sys} (hc : (s.members self).config = c) (h : StackOk c fs) :
    StackOk c (Pykafka.raise self e s fs).2 := by
  induction fs generalizing s with
  | nil => exact ⟨rfl, by simp [Pykafka.raise, Frame.fits]⟩
  | cons f fs ih =>
    have hc' : ∀ F : Member → Member, (F (s.members self)).config = (s.members self).config →
        ((s.setMember self F).members self).config = c := fun F hF => by simpa [hc] using hF
    cases f with
    | rebalance pc =>
      simp only [Pykafka.raise]
      split
      · split
        · exact ih (hc' _ rfl) h.tail
        · split
          · refine push (replace h rfl ?_) rfl rfl
            simp only [Frame.fits, Rebalance.attempt, Option.all_some, decide_eq_true_eq]
            rw [← hc]
            omega
          · exact h.replace rfl rfl
      · split <;> first | exact ih (hc' _ rfl) h.tail | exact ih hc h.tail
    | start pc => cases pc <;> simp only [Pykafka.raise] <;> first | exact ih hc h.tail | exact push (replace h rfl rfl) rfl rfl
    | watch | checker =>
      have := h.stack.eq_nil (by simp [Frame.kind])
      subst this
      exact ⟨trivial, fun _ h => nomatch h⟩
    | _ => exact ih hc h.tail

end StackOk

/-- **A step keeps a stack the program builds.** -/
theorem stepFrame_stackOk {s : Sys} {self : String} {fs : List Frame} {ok : Bool} {f : Frame}
    {r : Sys × List Frame} (h : StackOk (s.members self).config (f :: fs))
    (hs : stepFrame s self fs ok f = some r) : StackOk (s.members self).config r.2 := by
  have hf := h.fits f (.head _)
  -- one case per branch of `stepFrame`
  cases stepFrame_sound hs <;> try dsimp only
  all_goals first
    | exact h.tail.raise (by simp [Member.logWorkerTrace])
    | exact h.raise (by simp)
    | exact StackOk.raise (by simp) (h.replace rfl hf)
    | exact h.tail.ret _
    | exact h.replace rfl hf
    | exact h.replace rfl rfl
    | exact StackOk.push (h.replace rfl hf) rfl rfl
    | exact StackOk.push (StackOk.push (h.replace rfl hf) rfl rfl) rfl rfl
    | exact StackOk.push (h.replace rfl (by simp_all [Frame.fits, Rebalance.attempt])) rfl rfl

/-! ### The rebalancing lock -/

/-- The thread with stack `fs` holds its member's `_rebalancing_lock`. -/
def lockHeld (fs : List Frame) : Bool := fs.any Frame.holdsLock

@[simp] theorem lockHeld_nil : lockHeld [] = false := rfl

@[simp] theorem lockHeld_cons (f : Frame) (fs : List Frame) :
    lockHeld (f :: fs) = (f.holdsLock || lockHeld fs) := rfl

@[simp] theorem lockHeld_ret (v : Ret) (fs : List Frame) : lockHeld (ret v fs) = lockHeld fs := by
  cases fs <;> simp [ret]

theorem Frame.Stack.lockHeld_below {pc : Rebalance} {fs : List Frame} (h : Frame.Stack (.rebalance pc :: fs)) :
    lockHeld fs = false :=
  h.holdsLock_below

/-- What a step of a thread does to its member's lock, from whether the thread holds it
before (`b`) and after (`b'`): a thread that takes it found it free and sets it, one
that lets go of it clears it, and otherwise the lock stays as it was. -/
def LockStep (l l' b b' : Bool) : Prop :=
  (b' = b ∧ l' = l) ∨ (b = false ∧ b' = true ∧ l = false ∧ l' = true) ∨ (b = true ∧ b' = false ∧ l' = false)

/-- Unwinding keeps the lock, or lets go of it and clears it. -/
theorem raise_lockStep {self : String} {e : Exc} {s : Sys} {fs : List Frame} (h : Frame.Stack fs) :
    (lockHeld (raise self e s fs).2 = lockHeld fs ∧
      ((raise self e s fs).1.members self).locked = (s.members self).locked) ∨
    (lockHeld fs = true ∧ lockHeld (raise self e s fs).2 = false ∧
      ((raise self e s fs).1.members self).locked = false) := by
  induction fs generalizing s with
  | nil => exact .inl ⟨rfl, rfl⟩
  | cons f fs ih =>
    cases f with
    | rebalance pc =>
      have hb := h.lockHeld_below
      simp only [raise]
      split
      · rename_i i _ hi
        have hpc : lockHeld (.rebalance pc :: fs) = true := by
          have : pc.holdsLock = true := by cases pc <;> simp_all [Rebalance.attempt, Rebalance.holdsLock]
          simp only [lockHeld_cons, Frame.holdsLock, this, Bool.true_or]
        split
        · rcases ih h.tail with ⟨h1, h2⟩ | ⟨h1, -⟩
          · exact .inr ⟨hpc, by rw [h1, hb], by simpa [Member.unlock] using h2⟩
          · rw [hb] at h1; cases h1
        · split <;> exact .inl ⟨by rw [hpc]; rfl, rfl⟩
      · rcases ih h.tail with ⟨h1, h2⟩ | ⟨h1, -⟩
        · rw [h1, hb, h2]
          split
          · rename_i hpc
            exact .inr ⟨by simp [Frame.holdsLock, hpc], rfl, by simp [Member.unlock]⟩
          · rename_i hpc
            exact .inl ⟨by simp [Frame.holdsLock, hpc, hb], rfl⟩
        · rw [hb] at h1; cases h1
    | start pc =>
      cases pc
      case failed => simpa [raise, Frame.holdsLock] using ih h.tail
      all_goals simp [raise, Frame.holdsLock]
    | watch | checker =>
      rw [h.eq_nil (by simp [Frame.kind])]
      exact .inl ⟨rfl, by simp [raise]⟩
    | _ => simpa [raise, Frame.holdsLock] using ih h.tail

theorem LockStep.of_raise {l l₀ l' b b₀ b' : Bool} (hl : l₀ = l) (hb : b₀ = b)
    (h : (b' = b₀ ∧ l' = l₀) ∨ (b₀ = true ∧ b' = false ∧ l' = false)) : LockStep l l' b b' := by
  subst hl hb
  exact h.imp_right .inr

/-- **What a step does to the lock.** -/
theorem stepFrame_lockStep {s : Sys} {self : String} {fs : List Frame} {ok : Bool} {f : Frame}
    {r : Sys × List Frame} (h : Frame.Stack (f :: fs)) (hs : stepFrame s self fs ok f = some r) :
    LockStep (s.members self).locked (r.1.members self).locked (lockHeld (f :: fs)) (lockHeld r.2) := by
  have hb : ∀ pc, f = .rebalance pc → lockHeld fs = false := fun pc hf => (hf ▸ h).lockHeld_below
  -- one case per branch of `stepFrame`
  cases stepFrame_sound hs <;> try dsimp only
  all_goals first
    | (simp only [LockStep, lockHeld_cons, lockHeld_ret, Frame.holdsLock, Rebalance.holdsLock, Bool.false_or,
        true_and, and_self, true_or]; done)
    | exact LockStep.of_raise (by simp [Member.logWorkerTrace])
        (by simp [Frame.holdsLock, Rebalance.holdsLock]) (raise_lockStep h.tail)
    | (simp_all [LockStep, Frame.holdsLock, Rebalance.holdsLock, hb _ rfl, Member.lock, Member.unlock,
        Member.setupInternalConsumer]; done)
    | (simp_all [LockStep, Frame.holdsLock, Rebalance.holdsLock]; done)
    | exact LockStep.of_raise (by simp) rfl (raise_lockStep h)
    | exact LockStep.of_raise rfl rfl (raise_lockStep (h.replace rfl))

/-! ### Along every run -/

/-- After thread `i` of `ts` stepped to stack `fs`: slot `i` holds the new stack, every
other slot is as it was, and a new slot holds the checker the step may have started. -/
theorem getElem?_after {ts ts' : List Thread} {i j : Nat} {t t' : Thread} {fs : List Frame}
    (ht : ts[i]? = some t) (hth : ts' = ts ∨ ts' = ts ++ [⟨t.self, [.checker .loop]⟩])
    (h : (ts'.set i ⟨t.self, fs⟩)[j]? = some t') :
    (j = i ∧ t' = ⟨t.self, fs⟩) ∨ (j ≠ i ∧ ts[j]? = some t') ∨ t' = ⟨t.self, [.checker .loop]⟩ := by
  by_cases hj : j = i
  · subst hj
    obtain ⟨hi, -⟩ := List.getElem?_eq_some_iff.mp ht
    have hi' : j < ts'.length := by rcases hth with rfl | rfl <;> simp [hi]; omega
    rw [List.getElem?_set_self hi'] at h
    exact .inl ⟨rfl, (Option.some.inj h).symm⟩
  · rw [List.getElem?_set_ne (Ne.symm hj)] at h
    rcases hth with rfl | rfl
    · exact .inr (.inl ⟨hj, h⟩)
    · rw [List.getElem?_append] at h
      split at h
      · exact .inr (.inl ⟨hj, h⟩)
      · right; right
        rcases List.getElem?_eq_some_iff.mp h with ⟨hlt, hget⟩
        simpa using hget.symm

/-- Every thread's stack is one its member builds, and each member's lock is set while
one of its threads holds it, which is then the only one that does. -/
structure Locks (s : Sys) : Prop where
  stackOk : ∀ t ∈ s.threads, StackOk (s.members t.self).config t.stack
  lock : ∀ (i : Nat) (t : Thread), s.threads[i]? = some t → lockHeld t.stack →
    (s.members t.self).locked ∧
      ∀ (j : Nat) (t' : Thread), s.threads[j]? = some t' → t'.self = t.self → lockHeld t'.stack → j = i

namespace Locks

variable {s s' : Sys}

theorem init (config : String → Config) (topic : String → Topic) (brokers : Bool) (n : Nat) :
    Locks (Sys.init config topic brokers n) :=
  ⟨fun _ h => (nomatch h), fun _ _ h => (nomatch h)⟩

/-- The lock after thread `i` of member `t.self` stepped, as `LockStep` says. -/
theorem lock_after {i : Nat} {t : Thread} {f : Frame} {fs : List Frame} {r : Sys × List Frame}
    (h : Locks s) (ht : s.threads[i]? = some t) (hst : t.stack = f :: fs)
    (he : StepEffect t.self f s r.1)
    (hL : LockStep (s.members t.self).locked (r.1.members t.self).locked (lockHeld (f :: fs)) (lockHeld r.2))
    {j : Nat} {t' : Thread} (hj : (r.1.threads.set i ⟨t.self, r.2⟩)[j]? = some t') (hl : lockHeld t'.stack) :
    (r.1.members t'.self).locked ∧ ∀ (k : Nat) (t₂ : Thread), (r.1.threads.set i ⟨t.self, r.2⟩)[k]? = some t₂ →
      t₂.self = t'.self → lockHeld t₂.stack → k = j := by
  have hi := h.lock i t ht
  rw [hst] at hi
  -- the slots of the other threads, and the checker, which holds no lock
  have other : ∀ (k : Nat) (t₂ : Thread), (r.1.threads.set i ⟨t.self, r.2⟩)[k]? = some t₂ → lockHeld t₂.stack →
      (k = i ∧ t₂ = ⟨t.self, r.2⟩) ∨ (k ≠ i ∧ s.threads[k]? = some t₂) := fun k t₂ hk hl => by
    rcases getElem?_after ht he.threads hk with hk | hk | rfl
    · exact .inl hk
    · exact .inr hk
    · simp [Frame.holdsLock] at hl
  rcases other j t' hj hl with ⟨rfl, rfl⟩ | ⟨hji, hj'⟩
  · -- the stepping thread holds the lock after its step
    rcases hL with ⟨hb, hl'⟩ | ⟨hb, -, hl₀, hl'⟩ | ⟨-, hb', -⟩
    · rw [← hb] at hi
      refine ⟨hl'.trans (hi hl).1, fun k t₂ hk hs hl₂ => ?_⟩
      rcases other k t₂ hk hl₂ with ⟨rfl, -⟩ | ⟨-, hk'⟩
      · rfl
      · exact (hi hl).2 k t₂ hk' hs hl₂
    · refine ⟨hl', fun k t₂ hk hs hl₂ => ?_⟩
      rcases other k t₂ hk hl₂ with ⟨rfl, -⟩ | ⟨-, hk'⟩
      · rfl
      · have := (h.lock k t₂ hk' hl₂).1
        rw [hs] at this
        rw [this] at hl₀
        cases hl₀
    · rw [hb'] at hl
      cases hl
  · -- another thread holds it, as it did before
    have hj₀ := h.lock j t' hj' hl
    by_cases hx : t'.self = t.self
    · -- then the stepping thread, of the same member, held it neither before nor after
      have hb : lockHeld (f :: fs) = false := by
        cases hb : lockHeld (f :: fs)
        · rfl
        · exact absurd (hj₀.2 i t ht hx.symm (hst ▸ hb)) (Ne.symm hji)
      rw [hx] at hj₀ ⊢
      rcases hL with ⟨hb', hl'⟩ | ⟨-, -, hl₀, -⟩ | ⟨hb₁, -⟩
      · refine ⟨hl'.trans hj₀.1, fun k t₂ hk hs hl₂ => ?_⟩
        rcases other k t₂ hk hl₂ with ⟨rfl, rfl⟩ | ⟨-, hk'⟩
        · rw [hb', hb] at hl₂
          cases hl₂
        · exact hj₀.2 k t₂ hk' hs hl₂
      · rw [hj₀.1] at hl₀
        cases hl₀
      · rw [hb] at hb₁
        cases hb₁
    · refine ⟨(he.others _ hx).symm ▸ hj₀.1, fun k t₂ hk hs hl₂ => ?_⟩
      rcases other k t₂ hk hl₂ with ⟨rfl, rfl⟩ | ⟨-, hk'⟩
      · exact absurd hs.symm hx
      · exact hj₀.2 k t₂ hk' hs hl₂

theorem step {e : Event} (h : Locks s) (hs : s.step e = some s') : Locks s' := by
  obtain ⟨i, ok, t, f, fs, r, rfl, ht, hst, hr, he, rfl⟩ | ⟨m, entry, rfl, rfl⟩ | ⟨sid, rfl, rfl⟩ |
    ⟨m, id, l, rfl, rfl⟩ := Sys.step_cases hs
  · have hok : StackOk (s.members t.self).config (f :: fs) := hst ▸ h.stackOk t (List.getElem?_mem ht)
    have hcfg : ∀ x, (r.1.members x).config = (s.members x).config := fun x => by
      by_cases hx : x = t.self
      · rw [hx, he.keeps.config]
      · rw [he.others x hx]
    refine ⟨fun t' ht' => ?_, fun j t' hj hl => ?_⟩
    · dsimp only
      rw [hcfg]
      rcases List.mem_or_eq_of_mem_set ht' with ht' | rfl
      · rcases he.threads with hth | hth <;> rw [hth] at ht'
        · exact h.stackOk t' ht'
        · rcases List.mem_append.mp ht' with ht' | ht'
          · exact h.stackOk t' ht'
          · rw [List.mem_singleton.mp ht']
            exact ⟨rfl, by simp [Frame.fits]⟩
      · exact stepFrame_stackOk hok hr
    · exact h.lock_after ht hst he (stepFrame_lockStep hok.stack hr) hj hl
  · refine ⟨fun t' ht' => ?_, fun j t' hj hl => ?_⟩
    · rcases List.mem_append.mp ht' with ht' | ht'
      · exact h.stackOk t' ht'
      · rw [List.mem_singleton.mp ht']
        cases entry <;> exact ⟨rfl, by simp [Frame.fits, Entry.frame]⟩
    · have hnew : ∀ (k : Nat) (t₂ : Thread), (s.threads ++ [⟨m, [entry.frame]⟩])[k]? = some t₂ →
          lockHeld t₂.stack → s.threads[k]? = some t₂ := fun k t₂ hk hl₂ => by
        by_cases hk' : k < s.threads.length
        · rwa [List.getElem?_append_left hk'] at hk
        · rw [List.getElem?_append_right (by omega)] at hk
          obtain ⟨_, hget⟩ := List.getElem?_eq_some_iff.mp hk
          rw [← hget] at hl₂
          cases entry <;> simp [Entry.frame, Frame.holdsLock] at hl₂
      have hj' := hnew j t' hj hl
      exact ⟨(h.lock j t' hj' hl).1, fun k t₂ hk hs hl₂ => (h.lock j t' hj' hl).2 k t₂ (hnew k t₂ hk hl₂) hs hl₂⟩
  · refine ⟨fun t' ht' => ?_, fun j t' hj hl => ?_⟩
    · rw [Sys.expireSession_members]
      exact h.stackOk t' ht'
    · rw [Sys.expireSession_members]
      exact h.lock j t' hj hl
  · have hm : ∀ x, ((s.setMember m fun M => {M with topic := M.topic.setLeader id l}).members x).config =
        (s.members x).config ∧
        ((s.setMember m fun M => {M with topic := M.topic.setLeader id l}).members x).locked =
        (s.members x).locked := fun x => by
      rw [Sys.setMember_members]
      split <;> simp_all
    refine ⟨fun t' ht' => ?_, fun j t' hj hl => ?_⟩
    · rw [(hm _).1]
      exact h.stackOk t' ht'
    · rw [(hm _).2]
      exact h.lock j t' hj hl

/-- **At most one thread of a member holds its `_rebalancing_lock`**, and the lock is
set while one does, along every run. -/
theorem reachable {allowed : Event → Prop} {config : String → Config} {topic : String → Topic} {brokers : Bool}
    {n : Nat} (h : Reachable allowed (Sys.init config topic brokers n) s) : Locks s :=
  h.induct Locks (init config topic brokers n) fun _ hi _ hs => hi.step hs

end Locks

end Pykafka
