import Footstone.Lib.Runs
import Footstone.TaskRunner
import Mathlib.Logic.Function.Basic

/-!
`WaitFor`, `Notify`, `TerminateWorker` and `Join` of a `ThreadWorker` (`thread_worker.cc`), one
access at a time. The thread of the worker may call `WaitFor` and `TerminateWorker`, any other
thread `TerminateWorker` and `Notify`, each whenever it likes. What these calls promise is that
no thread waits for a `Notify` that came before the wait.
-/

namespace Footstone

namespace ThreadWorker

/-- Where a thread is. -/
inductive Pc where
  | outside
  /-- In `WaitFor`, about to lock the mutex. -/
  | waitLock (delta : TimeDelta)
  | waitTest (delta : TimeDelta)
  /-- In the wait, which a time may end or not. -/
  | asleep (timed : Bool)
  /-- At the end of the wait, about to lock the mutex again. -/
  | waitRelock
  | waitUnlock
  | terminateLock
  | terminateTest
  /-- About to set `is_terminated_`. -/
  | terminateSet
  | terminateNotify
  /-- About to let go of the mutex, and then to join the thread or to return. -/
  | terminateUnlock (joins : Bool)
  | join
  /-- The function of the worker's thread has returned. -/
  | ended
  deriving DecidableEq

/-- The thread has the mutex. -/
def Pc.holds : Pc → Bool
  | .waitTest _ | .waitUnlock | .terminateTest | .terminateSet | .terminateNotify
  | .terminateUnlock _ => true
  | _ => false

/-- The thread is in the call of `TerminateWorker` that has set the flag. -/
def Pc.terminates : Pc → Bool
  | .terminateNotify | .terminateUnlock true | .join => true
  | _ => false

/-- Only the worker's own thread gets there. -/
def Pc.isOwn : Pc → Bool
  | .waitLock _ | .waitTest _ | .asleep _ | .waitRelock | .waitUnlock | .ended => true
  | _ => false

end ThreadWorker

/-- A worker and the threads that call it; `none` is its own thread. The last field is not in
the source. -/
structure ThreadWorker (τ : Type) where
  isTerminated : Bool := false
  /-- Who has `mutex_`. -/
  owner : Option (Option τ) := none
  pc : Option τ → ThreadWorker.Pc := fun _ => .outside
  /-- `thread_` is no longer joinable. -/
  joined : Bool := false
  /-- Whose calls of `TerminateWorker` have set the flag. -/
  setters : List (Option τ) := []

namespace ThreadWorker

inductive Op (τ : Type) where
  /-- The worker's thread calls `WaitFor`. -/
  | waitFor (delta : TimeDelta)
  | terminate (t : Option τ)
  /-- A `Notify` outside of `TerminateWorker`, which no mutex guards. -/
  | notify
  /-- A wait ends for no reason. -/
  | wake
  | timeout
  /-- The function of the worker's thread returns. -/
  | finish
  /-- The next access of a thread that is in a call. -/
  | go (t : Option τ)

/-- Why a step is none. -/
inductive Fault where
  /-- The thread is not there. -/
  | elsewhere
  /-- The mutex is taken, or the thread to be joined still runs. -/
  | blocked

variable {τ : Type} [DecidableEq τ]

def goTo (t : Option τ) (pc : Pc) (s : ThreadWorker τ) : ThreadWorker τ :=
  { s with pc := Function.update s.pc t pc }

def lock (t : Option τ) (pc : Pc) (s : ThreadWorker τ) : Except Fault (ThreadWorker τ) :=
  match s.owner with
  | none => .ok { s.goTo t pc with owner := some t }
  | some _ => .error .blocked

def unlock (t : Option τ) (pc : Pc) (s : ThreadWorker τ) : ThreadWorker τ :=
  { s.goTo t pc with owner := none }

/-- `cv_.notify_one`. Only the worker's own thread waits. -/
def notifyOne (s : ThreadWorker τ) : ThreadWorker τ :=
  match s.pc none with
  | .asleep _ => s.goTo none .waitRelock
  | _ => s

def step (s : ThreadWorker τ) : Op τ → Except Fault (ThreadWorker τ)
  | .waitFor delta =>
    match s.pc none with
    | .outside => .ok (s.goTo none (.waitLock delta))
    | _ => .error .elsewhere
  | .terminate t =>
    match s.pc t with
    | .outside => .ok (s.goTo t .terminateLock)
    | _ => .error .elsewhere
  | .notify => .ok s.notifyOne
  | .wake =>
    match s.pc none with
    | .asleep _ => .ok (s.goTo none .waitRelock)
    | _ => .error .elsewhere
  | .timeout =>
    match s.pc none with
    | .asleep true => .ok (s.goTo none .waitRelock)
    | _ => .error .elsewhere
  | .finish =>
    match s.pc none with
    | .outside => .ok (s.goTo none .ended)
    | _ => .error .elsewhere
  | .go t =>
    match s.pc t with
    | .outside | .asleep _ | .ended => .error .elsewhere
    | .waitLock delta => s.lock t (.waitTest delta)
    | .waitTest delta =>
      if s.isTerminated then .ok (s.goTo t .waitUnlock)
      -- `wait` and `wait_for` let go of the mutex.
      else .ok (s.unlock t (.asleep (delta ≠ TimeDelta.max ∧ delta ≠ 0)))
    | .waitRelock => s.lock t .waitUnlock
    | .waitUnlock => .ok (s.unlock t .outside)
    | .terminateLock => s.lock t .terminateTest
    | .terminateTest =>
      .ok (s.goTo t (if s.isTerminated then .terminateUnlock false else .terminateSet))
    | .terminateSet =>
      .ok { s.goTo t .terminateNotify with isTerminated := true, setters := t :: s.setters }
    | .terminateNotify => .ok (s.notifyOne.goTo t (.terminateUnlock true))
    | .terminateUnlock joins => .ok (s.unlock t (if joins then .join else .outside))
    | .join =>
      if t = none ∨ s.joined then .ok (s.goTo t .outside)
      else if s.pc none = .ended then .ok { s.goTo t .outside with joined := true }
      else .error .blocked

/-! ## The mutex -/

variable {s s' : ThreadWorker τ} {op : Op τ} {t : Option τ} {pc : Pc}

theorem notifyOne_cases (s : ThreadWorker τ) :
    (∃ timed, s.pc none = .asleep timed ∧ s.notifyOne = s.goTo none .waitRelock) ∨
      (∀ timed, s.pc none ≠ .asleep timed) ∧ s.notifyOne = s := by
  rw [notifyOne]
  split
  · rename_i timed heq
    exact Or.inl ⟨timed, heq, rfl⟩
  · rename_i hne
    exact Or.inr ⟨hne, rfl⟩

/-- `notify_one` moves nobody but a thread that waits. -/
theorem notifyOne_pc (ht : ∀ timed, s.pc t ≠ .asleep timed) : s.notifyOne.pc t = s.pc t := by
  rcases s.notifyOne_cases with ⟨timed, hpc, heq⟩ | ⟨-, heq⟩
  · rw [heq]
    apply Function.update_of_ne
    rintro rfl
    exact ht timed hpc
  · rw [heq]

/-- The mutex is with the thread that is between its lock and its unlock. -/
def Exclusive (s : ThreadWorker τ) : Prop := ∀ t, s.owner = some t ↔ (s.pc t).holds = true

theorem Exclusive.move (h : s.Exclusive) (hpc : pc.holds = (s.pc t).holds)
    (howner : s'.owner = s.owner) (hs : s'.pc = Function.update s.pc t pc) : s'.Exclusive := by
  intro u
  rw [howner, hs, h u]
  rcases eq_or_ne u t with rfl | hne
  · rw [Function.update_self, hpc]
  · rw [Function.update_of_ne hne]

theorem Exclusive.notifyOne (h : s.Exclusive) : s.notifyOne.Exclusive := by
  rcases s.notifyOne_cases with ⟨timed, hpc, heq⟩ | ⟨-, heq⟩
  · rw [heq]
    exact h.move (t := none) (by rw [hpc]; rfl) rfl rfl
  · rw [heq]
    exact h

theorem Exclusive.lock (h : s.Exclusive) (hpc : pc.holds = true) (hs : s.lock t pc = .ok s') :
    s'.Exclusive := by
  rw [ThreadWorker.lock] at hs
  split at hs
  · rename_i hfree
    cases hs
    intro u
    rcases eq_or_ne u t with rfl | hne
    · simp [goTo, hpc]
    · have hu := h u
      rw [hfree] at hu
      simp [goTo, hne, hne.symm, ← hu]
  · cases hs

theorem Exclusive.unlock (h : s.Exclusive) (ht : (s.pc t).holds = true) (hpc : pc.holds = false) :
    (s.unlock t pc).Exclusive := by
  intro u
  rcases eq_or_ne u t with rfl | hne
  · simp [ThreadWorker.unlock, goTo, hpc]
  · have hu := h u
    rw [(h t).mpr ht] at hu
    have hne' : (s.pc u).holds = false := by
      simpa [hne.symm] using hu
    simp [ThreadWorker.unlock, goTo, hne, hne']

theorem Exclusive.step (h : s.Exclusive) (hs : s.step op = .ok s') : s'.Exclusive := by
  cases op with
  | notify =>
    cases hs
    exact h.notifyOne
  | go t =>
    cases hpc : s.pc t <;> simp only [ThreadWorker.step, hpc] at hs
    case outside | asleep | ended => cases hs
    case waitLock | waitRelock | terminateLock => exact h.lock rfl hs
    case waitTest =>
      split at hs
      · cases hs
        exact h.move (t := t) (by rw [hpc]; rfl) rfl rfl
      · cases hs
        exact h.unlock (by rw [hpc]; rfl) rfl
    case waitUnlock =>
      cases hs
      exact h.unlock (by rw [hpc]; rfl) rfl
    case terminateUnlock joins =>
      cases hs
      exact h.unlock (by rw [hpc]; rfl) (by cases joins <;> rfl)
    case terminateTest =>
      cases hs
      exact h.move (t := t) (by rw [hpc]; cases s.isTerminated <;> rfl) rfl rfl
    case terminateSet =>
      cases hs
      exact h.move (t := t) (by rw [hpc]; rfl) rfl rfl
    case terminateNotify =>
      cases hs
      have hsame : s.notifyOne.pc t = s.pc t := notifyOne_pc (by simp [hpc])
      exact h.notifyOne.move (t := t) (by rw [hsame, hpc]; rfl) rfl rfl
    case join =>
      split at hs
      · cases hs
        exact h.move (t := t) (by rw [hpc]; rfl) rfl rfl
      · split at hs
        · cases hs
          exact h.move (t := t) (by rw [hpc]; rfl) rfl rfl
        · cases hs
  | _ =>
    simp only [ThreadWorker.step] at hs
    split at hs
    · rename_i hpc
      cases hs
      exact h.move (by rw [hpc]; rfl) rfl rfl
    · cases hs

/-! ## The flag -/

/-- What is known of the calls. -/
structure Orderly (s : ThreadWorker τ) : Prop where
  own : ∀ t, (s.pc (some t)).isOwn = false
  unset : s.isTerminated = false → s.setters = []
  set : s.isTerminated = true → ∃ t, s.setters = [t]
  setting : ∀ t, s.pc t = .terminateSet → s.isTerminated = false
  terminates : ∀ t, (s.pc t).terminates = true → s.setters = [t]
  /-- Nobody sleeps through the end: the `Notify` is still to come. -/
  asleep : ∀ timed, s.pc none = .asleep timed → s.isTerminated = true →
    ∃ t, s.pc t = .terminateNotify
  joined : s.joined = true → ∃ t, s.setters = [some t] ∧ s.pc none = .ended
  done : ∀ t, s.setters = [some t] → (s.pc (some t)).terminates = false → s.joined = true

omit [DecidableEq τ] in
theorem orderly_new : ({} : ThreadWorker τ).Orderly where
  own _ := rfl
  unset _ := rfl
  set := nofun
  setting := nofun
  terminates := nofun
  asleep := nofun
  joined := nofun
  done := nofun

/-- A thread goes from one place to another and the flag stays as it is. -/
theorem Orderly.move (h : s.Orderly) (hs : s'.pc = Function.update s.pc t pc)
    (hflag : s'.isTerminated = s.isTerminated) (hsetters : s'.setters = s.setters)
    (hjoined : s'.joined = s.joined) (hown : pc.isOwn = true → t = none)
    (hset : pc = .terminateSet → s.isTerminated = false)
    (hterminates : pc.terminates = true → (s.pc t).terminates = true)
    (hleft : (s.pc t).terminates = true → pc.terminates = false → t = none ∨ s.joined = true)
    (hasleep : ∀ timed, pc = .asleep timed → s.isTerminated = false)
    (hnotify : s.pc t = .terminateNotify → ∀ timed, s.pc none ≠ .asleep timed)
    (hended : s.pc t ≠ .ended) : s'.Orderly where
  own u := by
    rw [hs]
    rcases eq_or_ne (some u) t with rfl | hne
    · rw [Function.update_self]
      cases hpc : pc.isOwn with
      | false => rfl
      | true => cases hown hpc
    · rw [Function.update_of_ne hne]
      exact h.own u
  unset := by
    rw [hflag, hsetters]
    exact h.unset
  set := by
    rw [hflag, hsetters]
    exact h.set
  setting u hu := by
    rw [hflag]
    rw [hs] at hu
    rcases eq_or_ne u t with rfl | hne
    · rw [Function.update_self] at hu
      exact hset hu
    · rw [Function.update_of_ne hne] at hu
      exact h.setting u hu
  terminates u hu := by
    rw [hsetters]
    rw [hs] at hu
    rcases eq_or_ne u t with rfl | hne
    · rw [Function.update_self] at hu
      exact h.terminates u (hterminates hu)
    · rw [Function.update_of_ne hne] at hu
      exact h.terminates u hu
  asleep timed hu hset' := by
    rw [hflag] at hset'
    rw [hs] at hu ⊢
    rcases eq_or_ne none t with rfl | hne
    · rw [Function.update_self] at hu
      rw [hasleep timed hu] at hset'
      cases hset'
    · rw [Function.update_of_ne hne] at hu
      obtain ⟨v, hv⟩ := h.asleep timed hu hset'
      refine ⟨v, ?_⟩
      have hne' : v ≠ t := by
        rintro rfl
        exact hnotify hv timed hu
      rw [Function.update_of_ne hne']
      exact hv
  joined hj := by
    rw [hjoined] at hj
    obtain ⟨u, hu, hend⟩ := h.joined hj
    refine ⟨u, hsetters.trans hu, ?_⟩
    have hne : none ≠ t := by
      rintro rfl
      exact hended hend
    rw [hs, Function.update_of_ne hne]
    exact hend
  done u hu hpc := by
    rw [hjoined]
    rw [hsetters] at hu
    rw [hs] at hpc
    rcases eq_or_ne (some u) t with rfl | hne
    · rw [Function.update_self] at hpc
      cases hold : (s.pc (some u)).terminates with
      | false => exact h.done u hu hold
      | true => exact (hleft hold hpc).resolve_left nofun
    · rw [Function.update_of_ne hne] at hpc
      exact h.done u hu hpc

/-- A thread that is not about to do anything to the flag, nor to sleep. -/
def Pc.isQuiet : Pc → Bool
  | .asleep _ | .terminateSet | .terminateNotify | .terminateUnlock true | .join => false
  | _ => true

theorem Pc.terminates_of_quiet (h : pc.isQuiet = true) : pc.terminates = false := by
  cases pc with
  | terminateUnlock joins =>
    cases joins with
    | false => rfl
    | true => cases h
  | terminateNotify | join => cases h
  | _ => rfl

/-- A step between two such places. -/
theorem Orderly.pass (h : s.Orderly) (hs : s'.pc = Function.update s.pc t pc)
    (hflag : s'.isTerminated = s.isTerminated) (hsetters : s'.setters = s.setters)
    (hjoined : s'.joined = s.joined) (hown : pc.isOwn = true → t = none)
    (hold : (s.pc t).terminates = false) (hended : s.pc t ≠ .ended) (hpc : pc.isQuiet = true) :
    s'.Orderly := by
  apply h.move hs hflag hsetters hjoined hown
  · rintro rfl
    cases hpc
  · rw [Pc.terminates_of_quiet hpc]
    nofun
  · rw [hold]
    nofun
  · rintro timed rfl
    cases hpc
  · intro heq
    rw [heq] at hold
    cases hold
  · exact hended

omit [DecidableEq τ] in
/-- Only the worker's own thread is in `WaitFor`. -/
theorem Orderly.eq_none (h : s.Orderly) (ht : (s.pc t).isOwn = true) : t = none := by
  cases t with
  | none => rfl
  | some u =>
    rw [h.own u] at ht
    cases ht

theorem Orderly.notifyOne (h : s.Orderly) : s.notifyOne.Orderly := by
  rcases s.notifyOne_cases with ⟨timed, hpc, heq⟩ | ⟨-, heq⟩
  · rw [heq]
    exact h.pass (t := none) rfl rfl rfl rfl (fun _ => rfl) (by rw [hpc]; rfl) (by simp [hpc]) rfl
  · rw [heq]
    exact h

/-- After `notify_one` nobody sleeps. -/
theorem notifyOne_awake (s : ThreadWorker τ) (timed : Bool) :
    s.notifyOne.pc none ≠ .asleep timed := by
  rcases s.notifyOne_cases with ⟨timed', -, heq⟩ | ⟨hne, heq⟩
  · rw [heq]
    simp [goTo]
  · rw [heq]
    exact hne timed

theorem lock_eq_ok (hs : s.lock t pc = .ok s') :
    s.owner = none ∧ s' = { s.goTo t pc with owner := some t } := by
  rw [lock] at hs
  split at hs
  · rename_i hfree
    cases hs
    exact ⟨hfree, rfl⟩
  · cases hs

/-- The flag is set. Nobody else is about to set it, for this thread has the mutex. -/
theorem Orderly.setFlag (h : s.Orderly) (he : s.Exclusive) (hpc : s.pc t = .terminateSet) :
    ({ s.goTo t .terminateNotify with
      isTerminated := true, setters := t :: s.setters } : ThreadWorker τ).Orderly := by
  have hunset := h.setting t hpc
  have hnone := h.unset hunset
  have hjoined : s.joined = false := by
    cases hj : s.joined with
    | false => rfl
    | true =>
      obtain ⟨u, hu, -⟩ := h.joined hj
      rw [hnone] at hu
      cases hu
  have hnobody : ∀ u, (s.pc u).terminates = false := by
    intro u
    cases hu : (s.pc u).terminates with
    | false => rfl
    | true =>
      have := h.terminates u hu
      rw [hnone] at this
      cases this
  refine ⟨fun u => ?_, nofun, fun _ => ⟨t, by rw [hnone]⟩, fun u hu => ?_, fun u hu => ?_,
    fun timed _ _ => ⟨t, Function.update_self ..⟩, fun hj => ?_, fun u hu hterm => ?_⟩
  · rcases eq_or_ne (some u) t with rfl | hne
    · show (Function.update s.pc (some u) Pc.terminateNotify (some u)).isOwn = false
      rw [Function.update_self]
      rfl
    · simpa [goTo, hne] using h.own u
  · rcases eq_or_ne u t with rfl | hne
    · simp [goTo] at hu
    · simp only [goTo, Function.update_of_ne hne] at hu
      have howner := (he u).mpr (by rw [hu]; rfl)
      rw [(he t).mpr (by rw [hpc]; rfl)] at howner
      exact absurd (Option.some.inj howner).symm hne
  · rcases eq_or_ne u t with rfl | hne
    · rw [hnone]
    · simp only [goTo, Function.update_of_ne hne, hnobody u] at hu
      cases hu
  · cases hjoined.symm.trans hj
  · simp only [hnone, List.cons.injEq, and_true] at hu
    subst hu
    simp [goTo, Pc.terminates] at hterm

/-- The thread is joined. -/
theorem Orderly.joins (h : s.Orderly) (hpc : s.pc t = .join) (ht : t ≠ none)
    (hended : s.pc none = .ended) :
    ({ s.goTo t .outside with joined := true } : ThreadWorker τ).Orderly := by
  have hsetters := h.terminates t (by rw [hpc]; rfl)
  have hne : none ≠ t := ht.symm
  refine ⟨fun u => ?_, h.unset, h.set, fun u hu => ?_, fun u hu => ?_, fun timed hu _ => ?_,
    fun _ => ?_, fun _ _ _ => rfl⟩
  · rcases eq_or_ne (some u) t with rfl | hne
    · show (Function.update s.pc (some u) Pc.outside (some u)).isOwn = false
      rw [Function.update_self]
      rfl
    · simpa [goTo, hne] using h.own u
  · rcases eq_or_ne u t with rfl | hne
    · simp [goTo] at hu
    · simp only [goTo, Function.update_of_ne hne] at hu
      exact h.setting u hu
  · rcases eq_or_ne u t with rfl | hne
    · simp [goTo, Pc.terminates] at hu
    · simp only [goTo, Function.update_of_ne hne] at hu
      exact h.terminates u hu
  · simp [goTo, hne, hended] at hu
  · cases t with
    | none => exact absurd rfl ht
    | some u => exact ⟨u, hsetters, by simpa [goTo] using hended⟩

theorem Orderly.go (h : s.Orderly) (he : s.Exclusive) (hs : s.step (.go t) = .ok s') :
    s'.Orderly := by
  cases hpc : s.pc t <;> simp only [step, hpc] at hs
  case outside | asleep | ended => cases hs
  case waitLock | waitRelock =>
    obtain ⟨-, rfl⟩ := lock_eq_ok hs
    have ht := h.eq_none (t := t) (by rw [hpc]; rfl)
    exact h.pass (t := t) rfl rfl rfl rfl (fun _ => ht) (by rw [hpc]; rfl) (by simp [hpc]) rfl
  case terminateLock =>
    obtain ⟨-, rfl⟩ := lock_eq_ok hs
    exact h.pass (t := t) rfl rfl rfl rfl nofun (by rw [hpc]; rfl) (by simp [hpc]) rfl
  case waitTest delta =>
    have ht := h.eq_none (t := t) (by rw [hpc]; rfl)
    split at hs
    · cases hs
      exact h.pass (t := t) rfl rfl rfl rfl (fun _ => ht) (by rw [hpc]; rfl) (by simp [hpc]) rfl
    · rename_i hflag
      cases hs
      show (s.unlock t (.asleep _)).Orderly
      refine h.move (t := t) rfl rfl rfl rfl (fun _ => ht) ?_ ?_ ?_ ?_ ?_ ?_
      · nofun
      · nofun
      · simp [hpc, Pc.terminates]
      · exact fun _ _ => by simpa using hflag
      · simp [hpc]
      · simp [hpc]
  case waitUnlock =>
    cases hs
    exact h.pass (t := t) rfl rfl rfl rfl nofun (by rw [hpc]; rfl) (by simp [hpc]) rfl
  case terminateTest =>
    cases hflag : s.isTerminated with
    | true =>
      simp only [hflag, if_true] at hs
      cases hs
      show (s.goTo t (.terminateUnlock false)).Orderly
      exact h.pass (t := t) rfl rfl rfl rfl nofun (by rw [hpc]; rfl) (by simp [hpc]) rfl
    | false =>
      simp only [hflag, Bool.false_eq_true, if_false] at hs
      cases hs
      show (s.goTo t .terminateSet).Orderly
      refine h.move (t := t) rfl rfl rfl rfl nofun ?_ ?_ ?_ ?_ ?_ ?_
      · exact fun _ => hflag
      · nofun
      · simp [hpc, Pc.terminates]
      · nofun
      · simp [hpc]
      · simp [hpc]
  case terminateSet =>
    cases hs
    exact h.setFlag he hpc
  case terminateNotify =>
    cases hs
    have hsame : s.notifyOne.pc t = s.pc t := notifyOne_pc (by simp [hpc])
    show (s.notifyOne.goTo t (.terminateUnlock true)).Orderly
    refine h.notifyOne.move (t := t) rfl rfl rfl rfl nofun ?_ ?_ ?_ ?_ ?_ ?_
    · nofun
    · rw [hsame, hpc]
      exact fun _ => rfl
    · nofun
    · nofun
    · exact fun _ => s.notifyOne_awake
    · simp [hsame, hpc]
  case terminateUnlock joins =>
    cases hs
    cases joins with
    | false =>
      show (s.unlock t .outside).Orderly
      exact h.pass (t := t) rfl rfl rfl rfl nofun (by rw [hpc]; rfl) (by simp [hpc]) rfl
    | true =>
      show (s.unlock t .join).Orderly
      refine h.move (t := t) rfl rfl rfl rfl nofun ?_ ?_ ?_ ?_ ?_ ?_
      · nofun
      · rw [hpc]
        exact fun _ => rfl
      · nofun
      · nofun
      · simp [hpc]
      · simp [hpc]
  case join =>
    split at hs
    · rename_i hleft
      cases hs
      show (s.goTo t .outside).Orderly
      refine h.move (t := t) rfl rfl rfl rfl nofun ?_ ?_ ?_ ?_ ?_ ?_
      · nofun
      · nofun
      · exact fun _ _ => hleft
      · nofun
      · simp [hpc]
      · simp [hpc]
    · rename_i hleft
      split at hs
      · rename_i hended
        cases hs
        exact h.joins hpc (fun ht => hleft (Or.inl ht)) hended
      · cases hs

theorem Orderly.step (h : s.Orderly) (he : s.Exclusive) (hs : s.step op = .ok s') :
    s'.Orderly := by
  cases op with
  | go t => exact h.go he hs
  | notify =>
    cases hs
    exact h.notifyOne
  | waitFor | wake | timeout | finish =>
    simp only [ThreadWorker.step] at hs
    split at hs
    · rename_i hpc
      cases hs
      exact h.pass (t := none) rfl rfl rfl rfl (fun _ => rfl) (by rw [hpc]; rfl) (by simp [hpc]) rfl
    · cases hs
  | terminate t =>
    simp only [ThreadWorker.step] at hs
    split at hs
    · rename_i hpc
      cases hs
      exact h.pass (t := t) rfl rfl rfl rfl nofun (by rw [hpc]; rfl) (by simp [hpc]) rfl
    · cases hs

/-! ## In every run -/

/-- What is known of the threads. -/
structure Inv (s : ThreadWorker τ) : Prop where
  exclusive : s.Exclusive
  orderly : s.Orderly

omit [DecidableEq τ] in
theorem inv_new : ({} : ThreadWorker τ).Inv where
  exclusive _ := iff_of_false nofun nofun
  orderly := orderly_new

theorem Inv.step (h : s.Inv) (hs : s.step op = .ok s') : s'.Inv where
  exclusive := h.exclusive.step hs
  orderly := h.orderly.step h.exclusive hs

/-- One thread at a time has the mutex, and it can go on. When the flag is set and the call that
set it has notified, the worker's thread is not in a wait, and what it is in can go on or is
behind a thread that can. -/
structure NeverHangs (s : ThreadWorker τ) : Prop where
  exclusive : ∀ t u, (s.pc t).holds = true → (s.pc u).holds = true → t = u
  goesOn : ∀ t, (s.pc t).holds = true → (s.step (.go t)).isOk = true
  awake : s.isTerminated = true → (∀ t, s.pc t ≠ .terminateNotify) →
    ∀ timed, s.pc none ≠ .asleep timed
  free : ∀ t, (∀ timed, s.pc t ≠ .asleep timed) → s.pc t ≠ .outside → s.pc t ≠ .join →
    s.pc t ≠ .ended → (s.step (.go t)).isOk = true ∨
      ∃ u, (s.pc u).holds = true ∧ (s.step (.go u)).isOk = true

/-- One call of `TerminateWorker` sets the flag. When it has returned in another thread, the
worker's thread has ended and is joined; when it is one of the worker's own thread, nobody ever
joins that. -/
structure JoinsOnce (s : ThreadWorker τ) : Prop where
  once : s.setters.length = if s.isTerminated then 1 else 0
  other : ∀ t, some t ∈ s.setters → (s.pc (some t)).terminates = false →
    s.joined = true ∧ s.pc none = .ended
  own : none ∈ s.setters → s.joined = false
  joined : s.joined = true → s.isTerminated = true ∧ s.pc none = .ended

/-- The thread that has the mutex waits for nothing. -/
theorem goesOn (s : ThreadWorker τ) (ht : (s.pc t).holds = true) :
    (s.step (.go t)).isOk = true := by
  cases hpc : s.pc t with
  | waitTest delta =>
    simp only [step, hpc]
    split <;> rfl
  | waitUnlock | terminateTest | terminateSet | terminateNotify | terminateUnlock =>
    simp only [step, hpc]
    rfl
  | _ =>
    rw [hpc] at ht
    cases ht

theorem lock_isOk (hfree : s.owner = none) : (s.lock t pc).isOk = true := by
  rw [lock, hfree]
  rfl

theorem Inv.neverHangs (h : s.Inv) : s.NeverHangs where
  exclusive t u ht hu := by
    have howner := (h.exclusive t).mpr ht
    rw [(h.exclusive u).mpr hu] at howner
    exact (Option.some.inj howner).symm
  goesOn t ht := s.goesOn ht
  awake hflag hnotified timed hpc := by
    obtain ⟨t, ht⟩ := h.orderly.asleep timed hpc hflag
    exact hnotified t ht
  free t hasleep houtside hjoin hended := by
    -- A thread that is to lock the mutex can do so, or somebody has it.
    have hlock : ∀ pc', s.step (.go t) = s.lock t pc' → (s.step (.go t)).isOk = true ∨
        ∃ u, (s.pc u).holds = true ∧ (s.step (.go u)).isOk = true := by
      intro pc' heq
      cases howner : s.owner with
      | none =>
        rw [heq]
        exact Or.inl (lock_isOk howner)
      | some u =>
        have hu := (h.exclusive u).mp howner
        exact Or.inr ⟨u, hu, s.goesOn hu⟩
    cases hpc : s.pc t with
    | waitLock delta => exact hlock (.waitTest delta) (by simp only [ThreadWorker.step, hpc])
    | waitRelock => exact hlock .waitUnlock (by simp only [ThreadWorker.step, hpc])
    | terminateLock => exact hlock .terminateTest (by simp only [ThreadWorker.step, hpc])
    | asleep timed => exact absurd hpc (hasleep timed)
    | outside => exact absurd hpc houtside
    | join => exact absurd hpc hjoin
    | ended => exact absurd hpc hended
    | _ => exact Or.inl (s.goesOn (by rw [hpc]; rfl))

omit [DecidableEq τ] in
theorem Orderly.joinsOnce (h : s.Orderly) : s.JoinsOnce where
  once := by
    cases hflag : s.isTerminated with
    | false => simp [h.unset hflag]
    | true =>
      obtain ⟨t, ht⟩ := h.set hflag
      simp [ht]
  other t ht hterm := by
    have hsetters : s.setters = [some t] := by
      cases hflag : s.isTerminated with
      | false =>
        rw [h.unset hflag] at ht
        cases ht
      | true =>
        obtain ⟨u, hu⟩ := h.set hflag
        rw [hu] at ht ⊢
        rw [List.mem_singleton.mp ht]
    have hjoined := h.done t hsetters hterm
    obtain ⟨-, -, hended⟩ := h.joined hjoined
    exact ⟨hjoined, hended⟩
  own hnone := by
    cases hj : s.joined with
    | false => rfl
    | true =>
      obtain ⟨u, hu, -⟩ := h.joined hj
      rw [hu] at hnone
      cases List.mem_singleton.mp hnone
  joined hj := by
    obtain ⟨u, hu, hended⟩ := h.joined hj
    refine ⟨?_, hended⟩
    cases hflag : s.isTerminated with
    | true => rfl
    | false =>
      rw [h.unset hflag] at hu
      cases hu

/-- **No termination is lost**: however the accesses of the calls interleave, a worker that is
told to end does not sleep through it, and no thread hangs in these calls but one that waits for
the worker's thread to end. -/
theorem termination_not_lost (ops : List (Op τ)) :
    Runs.Always step NeverHangs ({} : ThreadWorker τ) ops :=
  Runs.always_of_invariant (fun _ _ _ => Inv.step) (fun _ => Inv.neverHangs) inv_new ops

/-- **The worker's thread is joined once**, by the call that has set the flag, unless that is its
own. -/
theorem joined_by_setter (ops : List (Op τ)) :
    Runs.Always step JoinsOnce ({} : ThreadWorker τ) ops :=
  Runs.always_of_invariant (fun _ _ _ => Inv.step) (fun _ h => h.orderly.joinsOnce) inv_new ops

end ThreadWorker

end Footstone
