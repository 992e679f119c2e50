import SimpleOs.Threads.Mutex

/-!
# The mutex as a lock with an owner

What a mutex is for is a lock that at most one thread owns. As long as no thread sets
`flag` of a destroyed mutex or `destroyed` of a locked one, `flag` says exactly whether
there is an owner, so that no lock is left behind without one.
-/

namespace SimpleOs.Threads

variable {T : Type*}

/-- What happens to the owner of a lock. -/
inductive OwnerStep : Option T → LockEvent T → Option T → Prop
  /-- A thread takes the lock that nobody has. -/
  | acquire {t : T} : OwnerStep none (.step t) (some t)
  /-- The owner gives the lock back. -/
  | release {t : T} : OwnerStep (some t) (.unlock t) none
  /-- Nothing else changes the owner. -/
  | other {o : Option T} {e : LockEvent T} : (∀ t, e ≠ .unlock t) → OwnerStep o e o

/-- The mutex shows the owner. -/
structure LockRun.Owned (s : LockRun T) (o : Option T) : Prop where
  /-- The thread that is inside is the owner. -/
  inside : ∀ t, s.inside t ↔ o = some t
  /-- `flag` says whether there is one. -/
  flag : s.mutex.flag = if o.isSome then 1 else 0
  /-- A destroyed mutex has none. -/
  destroyed : s.mutex.destroyed = 1 → o = none

/-- No thread sets `flag` of a destroyed mutex, or `destroyed` of a locked one. -/
def LockRun.Undisturbed (s : LockRun T) : LockEvent T → Prop
  | .step t => MutexRun.Undisturbed ⟨s.mutex, s.pc⟩ (.step t)
  | _ => True

variable {s s' : LockRun T} {o : Option T} {e : LockEvent T} {t : T}

/-- `flag` is not set exactly if there is no owner. -/
theorem LockRun.Owned.free_iff (h : s.Owned o) : s.mutex.flag ≠ 1 ↔ o = none := by
  rw [h.flag]
  cases o <;> simp

variable [DecidableEq T]

/-- A test-and-set: it takes the lock exactly if nobody has it. -/
theorem LockRun.Owned.testAndSet (h : s.Owned o) (hpc : s.pc t = some .lockSet)
    (hstep : s.exec (.step t) = some s') :
    if o = none then s'.pc t = none ∧ s'.inside = Function.update s.inside t true ∧
        s'.mutex = { s.mutex with flag := 1 }
      else s'.pc t = some .lockYield ∧ s'.inside = s.inside ∧ s'.mutex = s.mutex := by
  simp only [LockRun.exec, hpc, Option.map_some, Option.some.injEq] at hstep
  subst hstep
  split
  · rename_i hfree
    have hflag := h.free_iff.mpr hfree
    simp [MutexPc.step, hflag, MutexNext.pc, MutexPc.lockResult, MutexPc.ofLock]
  · rename_i howned
    have hflag : s.mutex.flag = 1 := not_not.mp fun hflag => howned (h.free_iff.mp hflag)
    have hsame : { s.mutex with flag := 1 } = s.mutex := by rw [← hflag]
    simp [MutexPc.step, hflag, MutexNext.pc, MutexPc.lockResult, hsame]

/-- A step of a call does to the mutex what it does to the lock. -/
theorem LockRun.Owned.step (h : s.Owned o) (hs : s.Exclusive) (hok : s.Undisturbed (.step t))
    (hstep : s.exec (.step t) = some s') : ∃ o', OwnerStep o (.step t) o' ∧ s'.Owned o' := by
  have hsame (hmutex : s'.mutex.flag = s.mutex.flag)
      (hdestroyed : s'.mutex.destroyed = 1 → o = none) (hinside : s'.inside = s.inside) :
      ∃ o', OwnerStep o (.step t) o' ∧ s'.Owned o' :=
    ⟨o, .other (by simp), fun t' => hinside ▸ h.inside t', hmutex.trans h.flag, hdestroyed⟩
  have herror : EINVAL ≠ 0 := by decide
  obtain ⟨pc, hpc, heq⟩ := Option.map_eq_some_iff.mp hstep
  have hlocking := hs.calls t pc hpc
  cases pc with
  | initTest | initRevive | initClear | unlockTest | unlockClear =>
    exact absurd hlocking (by simp [MutexPc.Locking, MutexPc.ofLock])
  | lockSet =>
    have hset := h.testAndSet hpc hstep
    split at hset
    · -- The thread becomes the owner.
      rename_i hfree
      obtain ⟨_, hinside, hmutex⟩ := hset
      subst hfree
      refine ⟨some t, .acquire, fun t' => ?_, by simp [hmutex], fun hdestroyed => ?_⟩
      · rw [hinside, Function.update_apply]
        by_cases hne : t' = t
        · simp [hne]
        · rw [if_neg hne, h.inside, Option.some.injEq]
          exact iff_of_false (by simp) fun heq => hne heq.symm
      · rw [hmutex] at hdestroyed
        exact absurd hdestroyed (hok.1 hpc)
    · obtain ⟨_, hinside, hmutex⟩ := hset
      exact hsame (by rw [hmutex]) (fun hdestroyed => h.destroyed (hmutex ▸ hdestroyed)) hinside
  | lockTest =>
    subst heq
    by_cases hdestroyed : s.mutex.destroyed = 1
    · apply hsame <;>
        simp [MutexPc.step, hdestroyed, MutexPc.lockResult, MutexPc.ofLock, herror, h.destroyed]
    · apply hsame <;> simp [MutexPc.step, hdestroyed, MutexPc.lockResult]
  | lockYield =>
    subst heq
    exact hsame rfl h.destroyed (by simp [MutexPc.step, MutexPc.lockResult])
  | destroyTest =>
    subst heq
    by_cases hflag : s.mutex.flag = 0
    · apply hsame <;> simp [MutexPc.step, hflag, MutexPc.lockResult]
      exact h.destroyed
    · apply hsame <;> simp [MutexPc.step, hflag, MutexPc.lockResult, MutexPc.ofLock]
      exact h.destroyed
  | destroySet =>
    subst heq
    have hflag : s.mutex.flag = 0 := hok.2 hpc
    have hfree : o = none := h.free_iff.mp (by rw [hflag]; decide)
    exact hsame rfl (fun _ => hfree) (by simp [MutexPc.step, MutexPc.lockResult, MutexPc.ofLock])

/-- Every event does to the mutex what it does to the lock. -/
theorem LockRun.Owned.exec (h : s.Owned o) (hs : s.Exclusive) (hrules : s.Disciplined e)
    (hok : s.Undisturbed e) (hstep : s.exec e = some s') :
    ∃ o', OwnerStep o e o' ∧ s'.Owned o' := by
  cases e with
  | step t => exact h.step hs hok hstep
  | lock t | destroy t =>
    simp only [LockRun.exec] at hstep
    split at hstep
    · obtain rfl := Option.some.inj hstep
      exact ⟨o, .other (by simp), h.inside, h.flag, h.destroyed⟩
    · exact absurd hstep (by simp)
  | unlock t =>
    obtain rfl : o = some t := (h.inside t).mp (hs.owner t hrules)
    have halive : s.mutex.destroyed ≠ 1 := fun hdestroyed =>
      absurd (h.destroyed hdestroyed) (by simp)
    simp only [LockRun.exec, myPthreadMutexUnlock, if_neg halive] at hstep
    split at hstep
    · obtain rfl := Option.some.inj hstep
      refine ⟨none, .release, fun t' => ?_, rfl, fun _ => rfl⟩
      dsimp only
      rw [Function.update_apply]
      split
      · simp
      · rename_i hne
        rw [h.inside, Option.some.injEq]
        exact iff_of_false (fun heq => hne heq.symm) (by simp)
    · exact absurd hstep (by simp)
  | init t =>
    have hdestroyed : s.mutex.destroyed = 1 := hrules
    simp only [LockRun.exec, myPthreadMutexInit, if_pos hdestroyed] at hstep
    split at hstep
    · obtain rfl := Option.some.inj hstep
      exact ⟨o, .other (by simp), h.inside, h.flag, fun hzero => by simp at hzero⟩
    · exact absurd hstep (by simp)

/-- The mutex refines a lock with an owner. In every run of any number of threads that keep
to the rules, in which no thread sets `flag` of a destroyed mutex or `destroyed` of a locked
one, there is a run of the lock with the same events, after which the owner is the thread
that is inside. `flag` is 1 exactly if there is an owner, and the next test-and-set of any
thread takes the lock exactly if there is none. -/
theorem mutex_refines_lock (s s' : LockRun T) (l : List (Runs.Turn (LockRun T) (LockEvent T)))
    (hfresh : s.Fresh)
    (hrun : Runs.Path (fun s e s' => s.Disciplined e ∧ s.Undisturbed e ∧ s.exec e = some s')
      s l s') :
    ∃ (l' : List (Runs.Turn (Option T) (LockEvent T))) (o : Option T),
      Runs.Path OwnerStep none l' o ∧ l'.map Runs.Turn.event = l.map Runs.Turn.event ∧
        s'.Owned o ∧ ∀ t s₁, s'.pc t = some .lockSet → s'.exec (.step t) = some s₁ →
          if o = none then s₁.pc t = none ∧ s₁.inside t
          else s₁.pc t = some .lockYield ∧ s₁.inside = s'.inside := by
  obtain ⟨hflag, hdestroyed, hpc, hlast, hinside⟩ := hfresh
  have hexclusive : s.Exclusive := by
    constructor <;> simp [hpc, hlast, hinside]
  have howned : s.Owned none :=
    ⟨fun t => by simp [hinside], hflag, fun _ => rfl⟩
  have hfollows : ∀ (s : LockRun T) (e : LockEvent T) (s' : LockRun T) (o : Option T),
      (s.Exclusive ∧ s.Owned o) → (s.Disciplined e ∧ s.Undisturbed e ∧ s.exec e = some s') →
        ∃ o', OwnerStep o e o' ∧ s'.Exclusive ∧ s'.Owned o' := by
    rintro s e s' o ⟨hs, ho⟩ ⟨hrules, hok, hstep⟩
    obtain ⟨o', howner, ho'⟩ := ho.exec hs hrules hok hstep
    exact ⟨o', howner, hs.exec hrules hstep, ho'⟩
  obtain ⟨l', o, hpath, hevents, _, ho⟩ := hrun.simulates hfollows ⟨hexclusive, howned⟩
  refine ⟨l', o, hpath, hevents, ho, fun t s₁ hpc hstep => ?_⟩
  have hset := ho.testAndSet hpc hstep
  split at hset
  · rename_i hfree
    rw [if_pos hfree]
    exact ⟨hset.1, by simp [hset.2.1]⟩
  · rename_i howned
    rw [if_neg howned]
    exact ⟨hset.1, hset.2.1⟩

/-- Thread 1 has called `my_pthread_mutex_lock`. -/
def lockCalled : LockRun ℕ :=
  ⟨⟨0, 0, 0⟩, Function.update (fun _ => none) 1 (some .lockTest), fun _ => none, fun _ => false⟩

/-- The theorem when thread 1 is about to set `flag`: it becomes the owner. -/
theorem mutex_refines_lock_firstLock :
    ∃ (s s₁ : LockRun ℕ) (o : Option ℕ), s.pc 1 = some .lockSet ∧ s.Owned o ∧
      s.exec (.step 1) = some s₁ ∧ o = none ∧ s₁.inside 1 := by
  obtain ⟨s, hs, hpc, hflag⟩ : ∃ s, lockCalled.exec (.step 1) = some s ∧
      s.pc 1 = some .lockSet ∧ s.mutex.flag = 0 := ⟨_, rfl, rfl, rfl⟩
  have hcall : (LockRun.zero (T := ℕ)).Disciplined (.lock 1) ∧
      (LockRun.zero (T := ℕ)).Undisturbed (.lock 1) ∧
        (LockRun.zero (T := ℕ)).exec (.lock 1) = some lockCalled := ⟨trivial, trivial, rfl⟩
  have htest : lockCalled.Disciplined (.step 1) ∧ lockCalled.Undisturbed (.step 1) ∧
      lockCalled.exec (.step 1) = some s :=
    ⟨trivial, ⟨fun _ => by decide, fun hpc => absurd hpc (by decide)⟩, hs⟩
  obtain ⟨_, o, _, _, howned, hnext⟩ := mutex_refines_lock LockRun.zero s _
    ⟨rfl, rfl, fun _ => rfl, fun _ => rfl, fun _ => rfl⟩ (.cons hcall (.cons htest (.nil s)))
  obtain ⟨s₁, hs₁⟩ : ∃ s₁, s.exec (.step 1) = some s₁ := by
    rw [LockRun.exec, hpc]
    exact ⟨_, rfl⟩
  have hfree : o = none := by
    rw [← howned.free_iff, hflag]
    decide
  have hset := hnext 1 s₁ hpc hs₁
  rw [if_pos hfree] at hset
  exact ⟨s, s₁, o, hpc, howned, hs₁, hfree, hset.2⟩

end SimpleOs.Threads
