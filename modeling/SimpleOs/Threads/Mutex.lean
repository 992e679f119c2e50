import Mathlib.Data.Int.Notation
import Mathlib.Data.Nat.Notation
import Mathlib.Logic.Function.Basic
import SimpleOs.Library.Runs

/-!
# The mutex

`my_pthread_mutex_lock` tests `destroyed` and then sets `flag`, and
`my_pthread_mutex_destroy` tests `flag` and then sets `destroyed`. Other threads may run
between the two, so each call is a program with a counter, and a step makes one access
to the mutex.
-/

namespace SimpleOs.Threads

/-! ## The calls -/

/-- The error of `my_pthread_mutex_destroy` for a locked mutex. -/
def EBUSY : ℤ := 16

/-- The error for a mutex that has been destroyed. -/
def EINVAL : ℤ := 22

/-- A `my_pthread_mutex_t`, with the `errno` that its calls set. -/
structure Mutex where
  /-- 1 if the mutex is locked. -/
  flag : ℤ
  /-- 1 if the mutex has been destroyed. -/
  destroyed : ℤ
  /-- The number of the error that was stored last. -/
  errno : ℤ
  deriving DecidableEq

/-- The four calls of the library on a mutex. -/
inductive MutexCall where
  /-- `my_pthread_mutex_init`, which also revives a destroyed mutex. -/
  | init
  /-- `my_pthread_mutex_lock`, which yields until the flag was clear. -/
  | lock
  /-- `my_pthread_mutex_unlock`, by whichever thread makes the call. -/
  | unlock
  /-- `my_pthread_mutex_destroy`, which fails if the flag is set. -/
  | destroy
  deriving DecidableEq

/-- Where a call stands: its next access to the mutex. -/
inductive MutexPc where
  /-- `init`: the test of `destroyed`. -/
  | initTest
  /-- `init`: `destroyed = 0`, if the mutex was destroyed. -/
  | initRevive
  /-- `init`: `flag = 0`, if it was not. -/
  | initClear
  /-- `lock`: the test of `destroyed`. -/
  | lockTest
  /-- `lock`: `__sync_lock_test_and_set`, which sets the flag and returns the old one. -/
  | lockSet
  /-- `lock`: `my_pthread_yield`, after which the flag is tested again. -/
  | lockYield
  /-- `unlock`: the test of `destroyed`. -/
  | unlockTest
  /-- `unlock`: `flag = 0`, whether or not it was set. -/
  | unlockClear
  /-- `destroy`: the test of `flag`. -/
  | destroyTest
  /-- `destroy`: `destroyed = 1`, behind a test that found the flag clear. -/
  | destroySet
  deriving DecidableEq

/-- The first access of a call. -/
def MutexCall.first : MutexCall → MutexPc
  | .init => .initTest
  | .lock => .lockTest
  | .unlock => .unlockTest
  | .destroy => .destroyTest

/-- What follows a step of a call. -/
inductive MutexNext where
  /-- The call goes on with another step. -/
  | goto (pc : MutexPc)
  /-- The call returns with the given result. -/
  | return_ (result : ℤ)
  deriving DecidableEq

/-- One step of a call. An error is stored in `errno` and returned with the test. -/
def MutexPc.step (mutex : Mutex) : MutexPc → Mutex × MutexNext
  | .initTest => (mutex, .goto (if mutex.destroyed = 1 then .initRevive else .initClear))
  | .initRevive => ({ mutex with destroyed := 0 }, .return_ 0)
  | .initClear => ({ mutex with flag := 0 }, .return_ 0)
  | .lockTest =>
    if mutex.destroyed = 1 then ({ mutex with errno := EINVAL }, .return_ EINVAL)
    else (mutex, .goto .lockSet)
  | .lockSet =>
    ({ mutex with flag := 1 }, if mutex.flag = 1 then .goto .lockYield else .return_ 0)
  | .lockYield => (mutex, .goto .lockSet)
  | .unlockTest =>
    if mutex.destroyed = 1 then ({ mutex with errno := EINVAL }, .return_ EINVAL)
    else (mutex, .goto .unlockClear)
  | .unlockClear => ({ mutex with flag := 0 }, .return_ 0)
  | .destroyTest =>
    if mutex.flag = 0 then (mutex, .goto .destroySet)
    else ({ mutex with errno := EBUSY }, .return_ EBUSY)
  | .destroySet => ({ mutex with destroyed := 1 }, .return_ 0)

/-- The steps of a call up to its return, if no other thread runs. -/
def MutexPc.runAlone : ℕ → Mutex → MutexPc → Option (Mutex × ℤ)
  | 0, _, _ => none
  | fuel + 1, mutex, pc =>
    match pc.step mutex with
    | (mutex, .goto pc) => runAlone fuel mutex pc
    | (mutex, .return_ result) => some (mutex, result)

/-- `my_pthread_mutex_init`, when no other thread runs in between. -/
def myPthreadMutexInit (mutex : Mutex) : Mutex × ℤ :=
  if mutex.destroyed = 1 then ({ mutex with destroyed := 0 }, 0) else ({ mutex with flag := 0 }, 0)

/-- `my_pthread_mutex_unlock`, when no other thread runs in between. -/
def myPthreadMutexUnlock (mutex : Mutex) : Mutex × ℤ :=
  if mutex.destroyed = 1 then ({ mutex with errno := EINVAL }, EINVAL)
  else ({ mutex with flag := 0 }, 0)

/-- A call of `my_pthread_mutex_lock` returns 0 without a yield. -/
def Mutex.FreeToLock (mutex : Mutex) : Prop :=
  ∃ mutex', MutexPc.lockTest.runAlone 2 mutex = some (mutex', 0)

variable {mutex : Mutex}

/-- The steps of `my_pthread_mutex_init`, run alone, are the uninterrupted call. -/
theorem runAlone_init : MutexPc.initTest.runAlone 2 mutex = some (myPthreadMutexInit mutex) := by
  unfold myPthreadMutexInit
  split <;> rename_i hdestroyed <;> simp [MutexPc.runAlone, MutexPc.step, hdestroyed]

/-- The steps of `my_pthread_mutex_unlock`, run alone, are the uninterrupted call. -/
theorem runAlone_unlock :
    MutexPc.unlockTest.runAlone 2 mutex = some (myPthreadMutexUnlock mutex) := by
  unfold myPthreadMutexUnlock
  split <;> rename_i hdestroyed <;> simp [MutexPc.runAlone, MutexPc.step, hdestroyed]

/-- A mutex is free if it is neither destroyed nor locked. -/
theorem Mutex.freeToLock_iff : mutex.FreeToLock ↔ mutex.destroyed ≠ 1 ∧ mutex.flag ≠ 1 := by
  have herror : EINVAL ≠ 0 := by decide
  unfold FreeToLock
  by_cases hdestroyed : mutex.destroyed = 1 <;> by_cases hflag : mutex.flag = 1 <;>
    simp [MutexPc.runAlone, MutexPc.step, hdestroyed, hflag, herror]

/-! ## Calls of many threads -/

variable {T : Type*} [DecidableEq T]

/-- A mutex and the threads that use it. -/
structure MutexRun (T : Type*) where
  /-- The mutex that all the threads share. -/
  mutex : Mutex
  /-- The call in progress of a thread. -/
  pc : T → Option MutexPc

/-- What happens next: a thread begins a call or takes a step in one. -/
inductive MutexEvent (T : Type*) where
  /-- A thread that is in no call begins one. -/
  | call (t : T) (call : MutexCall)
  /-- A thread takes a step in its call. -/
  | step (t : T)

/-- The call after a step. -/
def MutexNext.pc : MutexNext → Option MutexPc
  | .goto pc => some pc
  | .return_ _ => none

/-- One event, `none` where the thread is not in a position for it. -/
def MutexRun.exec (s : MutexRun T) : MutexEvent T → Option (MutexRun T)
  | .call t call =>
    if s.pc t = none then some { s with pc := Function.update s.pc t (some call.first) } else none
  | .step t => (s.pc t).map fun pc =>
    let (mutex, next) := pc.step s.mutex
    { mutex := mutex, pc := Function.update s.pc t next.pc }

/-- An unlocked mutex that nobody uses. -/
def MutexRun.Fresh (s : MutexRun T) : Prop :=
  s.mutex.flag = 0 ∧ s.mutex.destroyed = 0 ∧ ∀ t, s.pc t = none

/-- The states reached by events that meet `ok`. -/
def MutexReach (ok : MutexRun T → MutexEvent T → Prop) : MutexRun T → Prop :=
  Runs.Reach MutexRun.Fresh (fun s e s' => s.exec e = some s') ok

/-- A destroyed mutex is unlocked. -/
def Mutex.DestroyedUnlocked (mutex : Mutex) : Prop := mutex.destroyed = 1 → mutex.flag = 0

/-- No thread sets `flag` of a destroyed mutex, or `destroyed` of a locked one. -/
def MutexRun.Undisturbed (s : MutexRun T) : MutexEvent T → Prop
  | .call _ _ => True
  | .step t => (s.pc t = some .lockSet → s.mutex.destroyed ≠ 1) ∧
      (s.pc t = some .destroySet → s.mutex.flag = 0)

instance (s : MutexRun T) : DecidablePred s.Undisturbed
  | .call _ _ => .isTrue trivial
  | .step t => inferInstanceAs (Decidable ((s.pc t = some .lockSet → s.mutex.destroyed ≠ 1) ∧
      (s.pc t = some .destroySet → s.mutex.flag = 0)))

/-- One event leaves a destroyed mutex unlocked exactly if it sets neither `flag` of a destroyed
mutex nor `destroyed` of a locked one. -/
theorem MutexRun.exec_destroyedUnlocked {s s' : MutexRun T} {e : MutexEvent T}
    (hs : s.mutex.DestroyedUnlocked) (h : s.exec e = some s') :
    s'.mutex.DestroyedUnlocked ↔ s.Undisturbed e := by
  unfold Mutex.DestroyedUnlocked at *
  cases e with
  | call t call =>
    simp only [exec] at h
    split at h
    · obtain rfl := Option.some.inj h
      exact iff_of_true hs trivial
    · exact absurd h (by simp)
  | step t =>
    obtain ⟨pc, hpc, rfl⟩ := Option.map_eq_some_iff.mp h
    simp only [Undisturbed, hpc, Option.some.injEq]
    cases pc with
    | initTest => exact iff_of_true hs (by simp)
    | initRevive => simp [MutexPc.step]
    | initClear => simp [MutexPc.step]
    | lockTest =>
      by_cases hdestroyed : s.mutex.destroyed = 1 <;> simp_all [MutexPc.step]
    | lockSet => simp [MutexPc.step]
    | lockYield => exact iff_of_true hs (by simp)
    | unlockTest =>
      by_cases hdestroyed : s.mutex.destroyed = 1 <;> simp_all [MutexPc.step]
    | unlockClear => simp [MutexPc.step]
    | destroyTest =>
      by_cases hflag : s.mutex.flag = 0 <;> simp_all [MutexPc.step]
    | destroySet => simp [MutexPc.step]

/-- A destroyed mutex is unlocked in every state that such events reach. -/
theorem mutexReach_destroyedUnlocked {s : MutexRun T} (h : MutexReach MutexRun.Undisturbed s) :
    s.mutex.DestroyedUnlocked := by
  refine Runs.Reach.invariant (P := fun s => s.mutex.DestroyedUnlocked) ?_ ?_ h
  · intro s hfresh _
    exact hfresh.1
  · intro s e s' hs hok hstep
    exact (s.exec_destroyedUnlocked hs hstep).mpr hok

/-- In every run in which no thread sets `flag` of a destroyed mutex or `destroyed` of a
locked one, a destroyed mutex is unlocked, and `my_pthread_mutex_init` makes it free to
lock. The next event keeps this exactly if it is not such a step. -/
theorem destroyed_mutex_unlocked :
    ∀ s : MutexRun T, MutexReach MutexRun.Undisturbed s →
      s.mutex.DestroyedUnlocked ∧
      (s.mutex.destroyed = 1 → (myPthreadMutexInit s.mutex).1.FreeToLock) ∧
      ∀ e s', s.exec e = some s' → (s'.mutex.DestroyedUnlocked ↔ s.Undisturbed e) := by
  intro s h
  have hs := mutexReach_destroyedUnlocked h
  refine ⟨hs, fun hdestroyed => ?_, fun e s' hstep => s.exec_destroyedUnlocked hs hstep⟩
  rw [Mutex.freeToLock_iff, myPthreadMutexInit, if_pos hdestroyed]
  simp [hs hdestroyed]

/-- A mutex with `flag` and `destroyed` 0. -/
def MutexRun.zero : MutexRun T := ⟨⟨0, 0, 0⟩, fun _ => none⟩

/-- Thread 2 waits for the lock of thread 1, gets it when thread 1 unlocks, and unlocks it. It
is about to take the lock again when thread 1 destroys the mutex, and thread 3 is about to
initialise it. -/
def destroyAfterUse : List (MutexEvent ℕ) :=
  [.call 1 .lock, .step 1, .step 1, .call 2 .lock, .step 2, .step 2,
    .call 1 .unlock, .step 1, .step 1, .step 2, .step 2,
    .call 2 .unlock, .step 2, .step 2, .call 2 .lock, .step 2,
    .call 1 .destroy, .step 1, .step 1, .call 3 .init, .step 3]

/-- After this run the mutex is destroyed and unlocked, and `my_pthread_mutex_init` makes it
free to lock. The next step of thread 3 keeps it so, and that of thread 2 does not. -/
theorem destroyed_mutex_unlocked_afterUse :
    ∃ s : MutexRun ℕ, MutexReach MutexRun.Undisturbed s ∧ s.mutex = ⟨0, 1, 0⟩ ∧
      (myPthreadMutexInit s.mutex).1.FreeToLock ∧
      (∀ s', s.exec (.step 3) = some s' → s'.mutex.DestroyedUnlocked) ∧
      ∀ s', s.exec (.step 2) = some s' → ¬ s'.mutex.DestroyedUnlocked := by
  have hrun : (Runs.execAll (fun s e => if s.Undisturbed e then s.exec e else none)
      destroyAfterUse MutexRun.zero).map (fun s => (s.mutex, s.pc 2, s.pc 3)) =
      some (⟨0, 1, 0⟩, some .lockSet, some .initRevive) := by decide
  obtain ⟨s, hs, heq⟩ := Option.map_eq_some_iff.mp hrun
  simp only [Prod.mk.injEq] at heq
  obtain ⟨hmutex, hset, hrevive⟩ := heq
  have hstart : MutexReach MutexRun.Undisturbed (MutexRun.zero (T := ℕ)) :=
    .start ⟨rfl, rfl, fun _ => rfl⟩
  have hreach : MutexReach MutexRun.Undisturbed s := hstart.execAll_guarded hs
  obtain ⟨_, hfree, hnext⟩ := destroyed_mutex_unlocked s hreach
  refine ⟨s, hreach, hmutex, hfree (by rw [hmutex]), fun s' h => (hnext _ s' h).mpr ?_,
    fun s' h hunlocked => ?_⟩
  · simp [MutexRun.Undisturbed, hrevive]
  · have hundisturbed := (hnext _ s' h).mp hunlocked
    exact hundisturbed.1 hset (by rw [hmutex])

/-- Thread 1 destroys the mutex between the test and the store of thread 2's lock. -/
def destroyWithinLock : List (MutexEvent ℕ) :=
  [.call 2 .lock, .step 2, .call 1 .destroy, .step 1, .step 1, .step 2]

/-- The mutex is destroyed and locked, and is not free after `my_pthread_mutex_init`. -/
theorem destroyed_mutex_locked :
    ∃ s : MutexRun ℕ, MutexReach (fun _ _ => True) s ∧ s.mutex.destroyed = 1 ∧
      s.mutex.flag = 1 ∧ ¬ (myPthreadMutexInit s.mutex).1.FreeToLock := by
  have hrun : (Runs.execAll MutexRun.exec destroyWithinLock MutexRun.zero).map (·.mutex) =
      some ⟨1, 1, 0⟩ := by decide
  obtain ⟨s, hs, hmutex⟩ := Option.map_eq_some_iff.mp hrun
  refine ⟨s, .execAll (fun _ _ _ _ h => ⟨trivial, h⟩) (.start ⟨rfl, rfl, fun _ => rfl⟩) hs, ?_⟩
  rw [hmutex, Mutex.freeToLock_iff]
  decide

/-! ## Mutual exclusion -/

/-- A mutex whose users keep to the rules, with what has happened so far. -/
structure LockRun (T : Type*) where
  /-- The mutex that all the threads share. -/
  mutex : Mutex
  /-- The call in progress of a thread. -/
  pc : T → Option MutexPc
  /-- What the last `my_pthread_mutex_lock` of a thread returned, unless the thread has
  called `my_pthread_mutex_unlock` since. -/
  lastLock : T → Option ℤ
  /-- The thread is between a `my_pthread_mutex_lock` that returned 0 and its following
  `my_pthread_mutex_unlock`. -/
  inside : T → Bool

/-- What happens next. A call of `my_pthread_mutex_init` or `my_pthread_mutex_unlock` is
not interrupted. -/
inductive LockEvent (T : Type*) where
  /-- A thread calls `my_pthread_mutex_lock`, and takes its steps later. -/
  | lock (t : T)
  /-- A thread calls `my_pthread_mutex_destroy`, and takes its steps later. -/
  | destroy (t : T)
  /-- A thread takes a step in its call. -/
  | step (t : T)
  /-- A thread calls `my_pthread_mutex_unlock`, which returns at once. -/
  | unlock (t : T)
  /-- A thread calls `my_pthread_mutex_init`, which returns at once. -/
  | init (t : T)

/-- The step is one of `my_pthread_mutex_lock`. -/
def MutexPc.ofLock : MutexPc → Bool
  | .lockTest | .lockSet | .lockYield => true
  | _ => false

/-- What a step returns from `my_pthread_mutex_lock`. -/
def MutexPc.lockResult (pc : MutexPc) : MutexNext → Option ℤ
  | .goto _ => none
  | .return_ result => if pc.ofLock then some result else none

/-- One event, `none` where the thread is not in a position for it. -/
def LockRun.exec (s : LockRun T) : LockEvent T → Option (LockRun T)
  | .lock t =>
    if s.pc t = none then some { s with pc := Function.update s.pc t (some .lockTest) } else none
  | .destroy t =>
    if s.pc t = none then some { s with pc := Function.update s.pc t (some .destroyTest) } else none
  | .step t => (s.pc t).map fun pc =>
    let (mutex, next) := pc.step s.mutex
    { mutex := mutex
      pc := Function.update s.pc t next.pc
      lastLock :=
        if (pc.lockResult next).isSome then Function.update s.lastLock t (pc.lockResult next)
        else s.lastLock
      inside := if pc.lockResult next = some 0 then Function.update s.inside t true else s.inside }
  | .unlock t =>
    if s.pc t = none then
      some
        { s with
          mutex := (myPthreadMutexUnlock s.mutex).1
          lastLock := Function.update s.lastLock t none
          inside := Function.update s.inside t false }
    else none
  | .init t =>
    if s.pc t = none then some { s with mutex := (myPthreadMutexInit s.mutex).1 } else none

/-- Only a thread whose last lock returned 0 and that has not called unlock since calls
unlock, and only a destroyed mutex is initialised. -/
def LockRun.Disciplined (s : LockRun T) : LockEvent T → Prop
  | .unlock t => s.lastLock t = some 0
  | .init _ => s.mutex.destroyed = 1
  | _ => True

/-- An unlocked mutex that nobody uses or has used. -/
def LockRun.Fresh (s : LockRun T) : Prop :=
  s.mutex.flag = 0 ∧ s.mutex.destroyed = 0 ∧ (∀ t, s.pc t = none) ∧
    (∀ t, s.lastLock t = none) ∧ ∀ t, s.inside t = false

/-- The states reached by events that meet `ok`. -/
def LockReach (ok : LockRun T → LockEvent T → Prop) : LockRun T → Prop :=
  Runs.Reach LockRun.Fresh (fun s e s' => s.exec e = some s') ok

/-- The step belongs to a call that does not clear `flag`. -/
def MutexPc.Locking (pc : MutexPc) : Prop := pc.ofLock ∨ pc = .destroyTest ∨ pc = .destroySet

/-- What the threads that keep to the rules preserve: the flag is set while a thread is inside, and
at most one is. -/
structure LockRun.Exclusive (s : LockRun T) : Prop where
  /-- While a thread is inside, `flag` is set. -/
  locked : ∀ t, s.inside t → s.mutex.flag = 1
  /-- At most one thread is inside. -/
  one : ∀ t t', s.inside t → s.inside t' → t = t'
  /-- A thread that may unlock is inside. -/
  owner : ∀ t, s.lastLock t = some 0 → s.inside t
  /-- The calls in progress do not clear `flag`. -/
  calls : ∀ t pc, s.pc t = some pc → pc.Locking

/-- A step of such a call. It returns 0 from `my_pthread_mutex_lock` only if it was the
one that set `flag`. -/
theorem MutexPc.Locking.step {pc : MutexPc} (h : pc.Locking) (mutex : Mutex) :
    (mutex.flag = 1 → (pc.step mutex).1.flag = 1) ∧
      (∀ pc', (pc.step mutex).2.pc = some pc' → pc'.Locking) ∧
      (pc.lockResult (pc.step mutex).2 = some 0 →
        mutex.flag ≠ 1 ∧ (pc.step mutex).1.flag = 1) := by
  have herror : EINVAL ≠ 0 := by decide
  cases pc with
  | initTest | initRevive | initClear | unlockTest | unlockClear =>
    exact absurd h (by simp [Locking, ofLock])
  | lockTest =>
    by_cases hdestroyed : mutex.destroyed = 1 <;>
      simp [MutexPc.step, hdestroyed, Locking, ofLock, lockResult, MutexNext.pc, herror]
  | lockSet =>
    by_cases hflag : mutex.flag = 1 <;>
      simp [MutexPc.step, hflag, Locking, ofLock, lockResult, MutexNext.pc]
  | lockYield => simp [MutexPc.step, Locking, ofLock, lockResult, MutexNext.pc]
  | destroyTest =>
    by_cases hflag : mutex.flag = 0 <;>
      simp [MutexPc.step, hflag, Locking, ofLock, lockResult, MutexNext.pc]
  | destroySet => simp [MutexPc.step, Locking, ofLock, lockResult, MutexNext.pc]

/-- The calls in progress after a thread begins one or takes a step. -/
theorem calls_update {pc : T → Option MutexPc} {t : T} {next : Option MutexPc}
    (hpc : ∀ t' pc', pc t' = some pc' → pc'.Locking)
    (hnext : ∀ pc', next = some pc' → pc'.Locking) :
    ∀ t' pc', Function.update pc t next t' = some pc' → pc'.Locking := by
  intro t' pc' h
  rw [Function.update_apply] at h
  split at h
  · exact hnext pc' h
  · exact hpc t' pc' h

/-- A step that returns 0 from `my_pthread_mutex_lock`: nobody was inside. -/
theorem LockRun.Exclusive.enter {s : LockRun T} {t t' : T} (hs : s.Exclusive)
    (hfree : s.mutex.flag ≠ 1) (h : Function.update s.inside t true t') : t' = t := by
  by_contra hne
  rw [Function.update_of_ne hne] at h
  exact hfree (hs.locked t' h)

/-- A step of a thread in its call preserves the invariant. -/
theorem LockRun.Exclusive.step {s s' : LockRun T} {t : T} (hs : s.Exclusive)
    (h : s.exec (.step t) = some s') : s'.Exclusive := by
  obtain ⟨pc, hpc, rfl⟩ := Option.map_eq_some_iff.mp h
  obtain ⟨hflag, hgoto, hreturn⟩ := (hs.calls t pc hpc).step s.mutex
  generalize hresult : pc.lockResult (pc.step s.mutex).2 = result at hreturn
  have hcalls := calls_update (t := t) hs.calls hgoto
  dsimp only
  rw [hresult]
  by_cases hzero : result = some 0
  · obtain ⟨hfree, hset⟩ := hreturn hzero
    simp only [hzero, if_true]
    constructor
    · exact fun _ _ => hset
    · intro t₁ t₂ h₁ h₂
      rw [hs.enter hfree h₁, hs.enter hfree h₂]
    · intro t' ht'
      by_cases heq : t' = t
      · simp [heq]
      · simp only [Option.isSome_some, if_true, Function.update_of_ne heq] at ht' ⊢
        exact hs.owner t' ht'
    · exact hcalls
  · simp only [hzero, if_false]
    constructor
    · exact fun t' ht' => hflag (hs.locked t' ht')
    · exact hs.one
    · intro t' ht'
      cases result with
      | none => exact hs.owner t' (by simpa using ht')
      | some r =>
        simp only [Option.isSome_some, if_true, Function.update_apply] at ht'
        split at ht'
        · exact absurd ht' hzero
        · exact hs.owner t' ht'
    · exact hcalls

/-- A thread that was inside unlocks, and nobody is inside any more. -/
theorem LockRun.Exclusive.unlock {s s' : LockRun T} {t : T} (hs : s.Exclusive)
    (hok : s.Disciplined (.unlock t)) (h : s.exec (.unlock t) = some s') : s'.Exclusive := by
  have howner := hs.owner t hok
  simp only [exec] at h
  split at h
  · obtain rfl := Option.some.inj h
    have hnobody (t' : T) : Function.update s.inside t false t' = false := by
      rw [Function.update_apply]
      split
      · rfl
      · rename_i hne
        by_contra hinside
        exact hne (hs.one t' t (by simpa using hinside) howner)
    constructor
    · intro t' ht'
      exact absurd ht' (by simp [hnobody])
    · intro t' _ ht'
      exact absurd ht' (by simp [hnobody])
    · intro t' ht'
      simp only [Function.update_apply] at ht' ⊢
      split at ht'
      · exact absurd ht' (by simp)
      · rename_i hne
        rw [if_neg hne]
        exact hs.owner t' ht'
    · exact hs.calls
  · exact absurd h (by simp)

/-- Every event of threads that keep to the rules preserves the invariant. -/
theorem LockRun.Exclusive.exec {s s' : LockRun T} {e : LockEvent T} (hs : s.Exclusive)
    (hok : s.Disciplined e) (h : s.exec e = some s') : s'.Exclusive := by
  cases e with
  | step t => exact hs.step h
  | unlock t => exact hs.unlock hok h
  | lock t | destroy t =>
    simp only [LockRun.exec] at h
    split at h
    · obtain rfl := Option.some.inj h
      refine ⟨hs.locked, hs.one, hs.owner, calls_update hs.calls ?_⟩
      intro pc' heq
      obtain rfl := Option.some.inj heq
      simp [MutexPc.Locking, MutexPc.ofLock]
    · exact absurd h (by simp)
  | init t =>
    have hdestroyed : s.mutex.destroyed = 1 := hok
    simp only [LockRun.exec, myPthreadMutexInit, hdestroyed, if_true] at h
    split at h
    · obtain rfl := Option.some.inj h
      exact ⟨hs.locked, hs.one, hs.owner, hs.calls⟩
    · exact absurd h (by simp)

/-- The invariant holds in every state that threads which keep to the rules reach. -/
theorem lockReach_exclusive {s : LockRun T} (h : LockReach LockRun.Disciplined s) :
    s.Exclusive := by
  refine Runs.Reach.invariant (P := LockRun.Exclusive) ?_ ?_ h
  · rintro s ⟨_, _, hpc, hlast, hinside⟩
    constructor <;> simp [hpc, hlast, hinside]
  · intro s e s' hs hok hstep
    exact hs.exec hok hstep

/-- In every run in which the threads keep to the rules, at most one thread at a time is
between a `my_pthread_mutex_lock` that returned 0 and its following
`my_pthread_mutex_unlock`. -/
theorem mutual_exclusion :
    ∀ s : LockRun T, LockReach LockRun.Disciplined s → ∀ t t', s.inside t → s.inside t' → t = t' :=
  fun _ h => (lockReach_exclusive h).one

/-- A mutex with `flag` and `destroyed` 0. -/
def LockRun.zero : LockRun T := ⟨⟨0, 0, 0⟩, fun _ => none, fun _ => none, fun _ => false⟩

/-- Thread 1 takes the lock, and thread 2 tries to. -/
def secondLock : List (LockEvent ℕ) :=
  [.lock 1, .step 1, .step 1, .lock 2, .step 2, .step 2, .step 2]

/-- The theorem after this run: only thread 1 is inside. -/
theorem mutual_exclusion_secondLock :
    ∃ s : LockRun ℕ, LockReach LockRun.Disciplined s ∧ s.pc 2 = some .lockSet ∧
      ∀ t, s.inside t ↔ t = 1 := by
  have hrun : (Runs.execAll LockRun.exec secondLock LockRun.zero).map (fun s =>
      (s.pc 2, s.inside 1)) = some (some .lockSet, true) := by decide
  obtain ⟨s, hs, heq⟩ := Option.map_eq_some_iff.mp hrun
  obtain ⟨hpc, hinside⟩ := Prod.mk.inj heq
  have hreach : LockReach LockRun.Disciplined s := by
    refine .execAll ?_ (.start ⟨rfl, rfl, fun _ => rfl, fun _ => rfl, fun _ => rfl⟩) hs
    intro e he s s' h
    refine ⟨?_, h⟩
    simp only [secondLock, List.mem_cons, List.not_mem_nil, or_false] at he
    rcases he with rfl | rfl | rfl | rfl | rfl | rfl | rfl <;> trivial
  refine ⟨s, hreach, hpc, fun t => ⟨fun ht => ?_, fun ht => ht ▸ hinside⟩⟩
  exact mutual_exclusion s hreach t 1 ht hinside

end SimpleOs.Threads
