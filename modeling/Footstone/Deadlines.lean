import Footstone.Queues
import Mathlib.Algebra.Group.Int.Defs

/-!
Deadlines as integers against the 64-bit sums that a `TaskRunner` stores. A sum
that does not fit turns negative, and its task is due at once. As long as every
pending sum fits, no delayed task is returned before the integer deadline and
`GetNextTimeDelta` reports no wait that ends before the earliest of them.
-/

namespace Footstone

namespace Call

/-- The delayed task that a call posts, with its deadline as an integer. -/
def deadline? : Call → Option (Task × Int)
  | postDelayedTask now t delay => some (t, now.toInt + delay.toInt)
  | _ => none

/-- The clock and the delay are not negative. -/
def NonNeg : Call → Prop
  | postTask _ => True
  | postDelayedTask now _ delay => 0 ≤ now.toInt ∧ 0 ≤ delay.toInt
  | getNext now => 0 ≤ now.toInt

instance : DecidablePred NonNeg
  | postTask _ => isTrue trivial
  | postDelayedTask .. => inferInstanceAs (Decidable (_ ∧ _))
  | getNext _ => inferInstanceAs (Decidable (_ ≤ _))

/-- The call reads no clock from `d` on. -/
def Before (d : Int) (c : Call) : Prop := ∀ now ∈ c.now?, now.toInt < d

end Call

/-- No task is posted twice: a `unique_ptr` owns it. -/
def PostedOnce (calls : List Call) : Prop := ((calls.filterMap Call.post?).map Post.task).Nodup

instance (calls : List Call) : Decidable (PostedOnce calls) :=
  inferInstanceAs (Decidable (List.Nodup _))

namespace Log

variable (E : Env)

/-- The delayed tasks that wait in the delayed queue after `calls`. -/
def pending (runner : TaskRunner) (calls : List Call) : List (Task × Int) :=
  (calls.filterMap Call.deadline?).filter fun p =>
    some p.1 ∈ (Log.of E runner calls).runner.delayedTaskQueue.map Prod.snd

/-- A pending task is returned by no calls that are made before its deadline. -/
def NotEarly (runner : TaskRunner) (calls : List Call) : Prop :=
  ∀ p ∈ pending E runner calls, ∀ later : List Call, PostedOnce (calls ++ later) →
    (∀ c ∈ later, c.NonNeg ∧ c.Before p.2) →
      ∀ x ∈ (Log.of E (Log.of E runner calls).runner later).returned, x.2 ≠ p.1

/-- The reported wait reaches to the earliest pending deadline. -/
def WaitsLongEnough (runner : TaskRunner) (calls : List Call) : Prop :=
  pending E runner calls ≠ [] → ∀ now : TimePoint, 0 ≤ now.toInt →
    ∃ p ∈ pending E runner calls,
      p.2 - now.toInt ≤ ((Log.of E runner calls).runner.getNextTimeDelta now).toInt

/-- What is promised of the delayed tasks that wait after `calls`. -/
def Punctual (runner : TaskRunner) (calls : List Call) : Prop :=
  NotEarly E runner calls ∧ WaitsLongEnough E runner calls

variable {E}

theorem of_append (runner : TaskRunner) (calls more : List Call) :
    Log.of E runner (calls ++ more) = more.foldl (play E) (Log.of E runner calls) :=
  List.foldl_append

/-! ## What the queues hold -/

/-- All tasks that were posted were returned or are in one of the queues, and the
delayed entries are the sums of the calls that posted them. -/
structure Accounts (E : Env) (calls : List Call) (log : Log) : Prop where
  isHeap : E.heap.IsHeap log.runner.delayedTaskQueue
  perm : (log.returned.map (some ·.2) ++ (log.runner.taskQueue ++
    log.runner.delayedTaskQueue.map Prod.snd)).Perm
      ((calls.filterMap Call.post?).map (some ·.task))
  entries : ∀ e ∈ log.runner.delayedTaskQueue, ∃ now t delay,
    .postDelayedTask now t delay ∈ calls ∧ e = (now + delay, some t)

namespace Accounts

variable {calls : List Call} {log : Log}

theorem nonnull (h : Accounts E calls log) : ∀ e ∈ log.runner.delayedTaskQueue, e.2 ≠ none := by
  intro e he
  obtain ⟨_, _, _, -, rfl⟩ := h.entries e he
  simp

theorem new {runner : TaskRunner} (htask : runner.taskQueue = [])
    (hdelayed : runner.delayedTaskQueue = []) : Accounts E [] { runner := runner } where
  isHeap := hdelayed ▸ E.heap.isHeap_nil
  perm := by simp [htask, hdelayed]
  entries := by simp [hdelayed]

theorem postTask (h : Accounts E calls log) (t : Task) :
    Accounts E (calls ++ [.postTask t]) (log.play E (.postTask t)) where
  isHeap := h.isHeap
  perm := by
    have hp := (h.perm.append_right [some t])
    simp only [List.filterMap_append, List.map_append]
    refine List.Perm.trans ?_ hp
    simp only [play, TaskRunner.postTask, List.append_assoc]
    exact (List.perm_append_comm.append_left _).append_left _
  entries e he := by
    obtain ⟨now, u, delay, hmem, rfl⟩ := h.entries e he
    exact ⟨now, u, delay, List.mem_append_left _ hmem, rfl⟩

theorem postDelayedTask (h : Accounts E calls log) (now : TimePoint) (t : Task) (delay : TimeDelta) :
    Accounts E (calls ++ [.postDelayedTask now t delay])
      (log.play E (.postDelayedTask now t delay)) where
  isHeap := E.heap.isHeap_push _ h.isHeap
  perm := by
    have hpush := (E.heap.push_perm (now + delay, some t) h.isHeap).map Prod.snd
    have hp := h.perm.append_right [some t]
    simp only [List.filterMap_append, List.map_append]
    refine List.Perm.trans ?_ hp
    simp only [play, TaskRunner.postDelayedTask, List.append_assoc]
    refine ((hpush.trans ?_).append_left _).append_left _
    exact (List.perm_append_singleton _ _).symm
  entries e he := by
    rcases List.mem_cons.mp ((E.heap.push_perm _ h.isHeap).subset he) with rfl | he
    · exact ⟨now, t, delay, by simp, rfl⟩
    · obtain ⟨now', u, delay', hmem, rfl⟩ := h.entries e he
      exact ⟨now', u, delay', List.mem_append_left _ hmem, rfl⟩

theorem getNext (h : Accounts E calls log) (now : TimePoint) :
    Accounts E (calls ++ [.getNext now]) (log.play E (.getNext now)) := by
  obtain ⟨moved, r', hd, htask, hqueue, hdelayed⟩ :=
    TaskRunner.getNext_drained now h.isHeap h.nonnull
  have hrunner : (log.play E (.getNext now)).runner = (log.runner.getNext E now).2 := rfl
  have hreturned : (log.play E (.getNext now)).returned =
      log.returned ++ (log.runner.getNext E now).1.toList.map (now, ·) := rfl
  have hall : (log.returned.map (some ·.2) ++ (r'.taskQueue ++
      r'.delayedTaskQueue.map Prod.snd)).Perm ((calls.filterMap Call.post?).map (some ·.task)) := by
    refine List.Perm.trans (List.Perm.append_left _ ?_) h.perm
    rw [hd.taskQueue, List.append_assoc, ← List.map_append]
    exact (hd.perm.map _).append_left _
  refine ⟨?_, ?_, fun e he => ?_⟩
  · rw [hrunner, hdelayed]
    exact hd.isHeap
  · have hposts : (calls ++ [Call.getNext now]).filterMap Call.post? = calls.filterMap Call.post? := by
      simp [Call.post?]
    rw [hposts]
    refine List.Perm.trans (List.Perm.of_eq ?_) hall
    rw [hrunner, hreturned, hqueue, hdelayed, htask]
    cases hq : r'.taskQueue with
    | nil => simp
    | cons x xs =>
      cases x with
      | some u => simp
      | none =>
        -- Every task that is somewhere was posted, so none of them is null.
        have hnone : none ∈ (calls.filterMap Call.post?).map (some ·.task) :=
          hall.subset (by simp [hq])
        simp at hnone
  · rw [hrunner, hdelayed] at he
    obtain ⟨now', u, delay', hmem, rfl⟩ := h.entries e (hd.perm.subset (List.mem_append_right _ he))
    exact ⟨now', u, delay', List.mem_append_left _ hmem, rfl⟩

theorem play (h : Accounts E calls log) (c : Call) : Accounts E (calls ++ [c]) (log.play E c) := by
  cases c with
  | postTask t => exact h.postTask t
  | postDelayedTask now t delay => exact h.postDelayedTask now t delay
  | getNext now => exact h.getNext now

end Accounts

/-- It holds after all calls on a new runner. -/
theorem accounts (runner : TaskRunner) (htask : runner.taskQueue = [])
    (hdelayed : runner.delayedTaskQueue = []) (calls : List Call) :
    Accounts E calls (Log.of E runner calls) := by
  induction calls using List.reverseRecOn with
  | nil => exact .new htask hdelayed
  | append_singleton calls c ih =>
    rw [of_append]
    exact ih.play c

/-! ## A pending task and its entry -/

theorem mem_pending {runner : TaskRunner} {calls : List Call} {p : Task × Int} :
    p ∈ pending E runner calls ↔
      (∃ now delay, .postDelayedTask now p.1 delay ∈ calls ∧ p.2 = now.toInt + delay.toInt) ∧
        ∃ e ∈ (Log.of E runner calls).runner.delayedTaskQueue, e.2 = some p.1 := by
  simp only [pending, List.mem_filter, List.mem_filterMap, decide_eq_true_eq, List.mem_map]
  refine and_congr_left fun _ => ⟨?_, ?_⟩
  · rintro ⟨c, hc, hd⟩
    cases c with
    | postDelayedTask now t delay => cases hd; exact ⟨now, delay, hc, rfl⟩
    | postTask t => cases hd
    | getNext now => cases hd
  · rintro ⟨now, delay, hc, hd⟩
    exact ⟨_, hc, by rw [Call.deadline?, ← hd]⟩

/-- `t` is queued for `d` only, and on no way out yet. -/
structure Guarded (E : Env) (t : Task) (d : TimePoint) (r : TaskRunner) : Prop where
  isHeap : E.heap.IsHeap r.delayedTaskQueue
  nonnull : ∀ e ∈ r.delayedTaskQueue, e.2 ≠ none
  notQueued : some t ∉ r.taskQueue
  deadline : ∀ e ∈ r.delayedTaskQueue, e.2 = some t → e.1 = d

/-- The entry of a pending task has the sum that was stored for it. -/
theorem Accounts.guarded {runner : TaskRunner} {calls : List Call}
    (h : Accounts E calls (Log.of E runner calls)) (hn : PostedOnce calls) {p : Task × Int}
    (hp : p ∈ pending E runner calls) :
    ∃ now delay, .postDelayedTask now p.1 delay ∈ calls ∧ p.2 = now.toInt + delay.toInt ∧
      (now + delay, some p.1) ∈ (Log.of E runner calls).runner.delayedTaskQueue ∧
      Guarded E p.1 (now + delay) (Log.of E runner calls).runner := by
  obtain ⟨⟨now, delay, hc, hd⟩, e, he, het⟩ := mem_pending.mp hp
  have hdeadline : ∀ e ∈ (Log.of E runner calls).runner.delayedTaskQueue, e.2 = some p.1 →
      e.1 = now + delay := by
    intro e he het
    obtain ⟨now', t, delay', hc', rfl⟩ := h.entries e he
    obtain rfl : t = p.1 := Option.some.inj het
    have hpost : Post.delayed (now + delay) p.1 ∈ calls.filterMap Call.post? :=
      List.mem_filterMap.mpr ⟨_, hc, rfl⟩
    have hpost' : Post.delayed (now' + delay') p.1 ∈ calls.filterMap Call.post? :=
      List.mem_filterMap.mpr ⟨_, hc', rfl⟩
    have heq := Tracks.post_unique hn hpost' hpost rfl
    exact (Post.delayed.inj heq).1
  have hnodup : ((Log.of E runner calls).runner.taskQueue ++
      (Log.of E runner calls).runner.delayedTaskQueue.map Prod.snd).Nodup := by
    have htasks : ((calls.filterMap Call.post?).map (some ·.task)).Nodup := by
      have hmap : (calls.filterMap Call.post?).map (some ·.task) =
          ((calls.filterMap Call.post?).map Post.task).map some := by
        rw [List.map_map]
        rfl
      rw [hmap]
      exact hn.map (Option.some_injective _)
    exact (h.perm.nodup_iff.mpr htasks).of_append_right
  refine ⟨now, delay, hc, hd, ?_, h.isHeap, h.nonnull, fun hm => ?_, hdeadline⟩
  · rw [← hdeadline e he het, ← het]
    exact he
  · exact (List.nodup_append'.mp hnodup).2.2 hm (List.mem_map.mpr ⟨e, he, het⟩)

/-! ## A sum that fits -/

theorem Guarded.getNext {t : Task} {d now : TimePoint} {r : TaskRunner} (h : Guarded E t d r)
    (hnow : now.toInt < d.toInt) :
    (r.getNext E now).1 ≠ some t ∧ Guarded E t d (r.getNext E now).2 := by
  obtain ⟨moved, r', hd, htask, hqueue, hdelayed⟩ :=
    TaskRunner.getNext_drained now h.isHeap h.nonnull
  have hsub : ∀ e ∈ r'.delayedTaskQueue, e ∈ r.delayedTaskQueue := fun e he =>
    hd.perm.subset (List.mem_append_right _ he)
  have hnot : some t ∉ r'.taskQueue := by
    rw [hd.taskQueue, List.mem_append, not_or]
    refine ⟨h.notQueued, fun hm => ?_⟩
    -- What was moved is due, and `t` is not.
    obtain ⟨e, he, het⟩ := List.mem_map.mp hm
    have hdue := Int64.le_iff_toInt_le.mp (hd.due e he)
    rw [h.deadline e (hd.perm.subset (List.mem_append_left _ he)) het] at hdue
    omega
  refine ⟨fun hhead => hnot ?_, ?_, ?_, ?_, ?_⟩
  · rw [htask, Option.join_eq_some_iff] at hhead
    exact List.mem_of_mem_head? hhead
  · exact hdelayed ▸ hd.isHeap
  · exact hdelayed ▸ fun e he => h.nonnull e (hsub e he)
  · rw [hqueue]
    exact fun hm => hnot (List.mem_of_mem_tail hm)
  · exact hdelayed ▸ fun e he => h.deadline e (hsub e he)

/-- No call before the deadline gives the task away. -/
theorem Guarded.play {t : Task} {d : TimePoint} {log : Log} (h : Guarded E t d log.runner)
    (hret : ∀ x ∈ log.returned, x.2 ≠ t) {c : Call} (hpost : ∀ p ∈ c.post?, p.task ≠ t)
    (hc : c.Before d.toInt) : Guarded E t d (log.play E c).runner ∧
      ∀ x ∈ (log.play E c).returned, x.2 ≠ t := by
  cases c with
  | postTask u =>
    refine ⟨⟨h.isHeap, h.nonnull, fun hm => ?_, h.deadline⟩, hret⟩
    rcases List.mem_append.mp hm with hm | hm
    · exact h.notQueued hm
    · have hu : t = u := by simpa using hm
      exact hpost _ rfl hu.symm
  | postDelayedTask now u delay =>
    have hpush := E.heap.push_perm (now + delay, some u) h.isHeap
    refine ⟨⟨E.heap.isHeap_push _ h.isHeap, fun e he => ?_, h.notQueued, fun e he het => ?_⟩, hret⟩
    · rcases List.mem_cons.mp (hpush.subset he) with rfl | he
      · simp
      · exact h.nonnull e he
    · rcases List.mem_cons.mp (hpush.subset he) with rfl | he
      · exact absurd (Option.some.inj het) (hpost _ rfl)
      · exact h.deadline e he het
  | getNext now =>
    obtain ⟨hne, hg⟩ := h.getNext (hc now rfl)
    refine ⟨hg, fun x hx => ?_⟩
    have hx' : x ∈ log.returned ++ (log.runner.getNext E now).1.toList.map (now, ·) := hx
    rcases List.mem_append.mp hx' with hx' | hx'
    · exact hret x hx'
    · obtain ⟨u, hu, rfl⟩ := List.mem_map.mp hx'
      rintro rfl
      exact hne (Option.mem_toList.mp hu)

theorem Guarded.run {t : Task} {d : TimePoint} {later : List Call}
    (hlater : ∀ c ∈ later, (∀ p ∈ c.post?, p.task ≠ t) ∧ c.Before d.toInt) (log : Log)
    (h : Guarded E t d log.runner) (hret : ∀ x ∈ log.returned, x.2 ≠ t) :
    ∀ x ∈ (later.foldl (Log.play E) log).returned, x.2 ≠ t := by
  induction later generalizing log with
  | nil => exact hret
  | cons c later ih =>
    rw [List.forall_mem_cons] at hlater
    obtain ⟨hg, hr⟩ := h.play hret hlater.1.1 hlater.1.2
    exact ih hlater.2 _ hg hr

/-! ## A sum that does not fit -/

/-- One more `GetNext` for every task in front returns `t`. -/
theorem returned_of_queued {t : Task} (now : TimePoint) {a b : List TaskPtr} (log : Log)
    (hh : E.heap.IsHeap log.runner.delayedTaskQueue)
    (hnull : ∀ e ∈ log.runner.delayedTaskQueue, e.2 ≠ none)
    (hq : log.runner.taskQueue = a ++ some t :: b) :
    ∃ x ∈ ((List.replicate (a.length + 1) (Call.getNext now)).foldl (Log.play E) log).returned,
      x.2 = t := by
  induction a generalizing b log with
  | nil =>
    obtain ⟨moved, r', hd, htask, -, -⟩ := TaskRunner.getNext_drained now hh hnull
    have hreturned : (log.play E (.getNext now)).returned =
        log.returned ++ (log.runner.getNext E now).1.toList.map (now, ·) := rfl
    refine ⟨(now, t), ?_, rfl⟩
    change (now, t) ∈ (log.play E (.getNext now)).returned
    rw [hreturned, htask, hd.taskQueue, hq]
    simp
  | cons y a ih =>
    obtain ⟨moved, r', hd, -, hqueue, hdelayed⟩ := TaskRunner.getNext_drained now hh hnull
    refine ih (b := b ++ moved.map Prod.snd) (log.play E (.getNext now)) ?_ ?_ ?_
    · exact hdelayed ▸ hd.isHeap
    · exact hdelayed ▸ fun e he => hnull e (hd.perm.subset (List.mem_append_right _ he))
    · change (log.runner.getNext E now).2.taskQueue = _
      rw [hqueue, hd.taskQueue, hq]
      simp

/-- A task that is due is returned after finitely many `GetNext` calls. -/
theorem returned_of_due {t : Task} {d now : TimePoint} (log : Log)
    (hh : E.heap.IsHeap log.runner.delayedTaskQueue)
    (hnull : ∀ e ∈ log.runner.delayedTaskQueue, e.2 ≠ none)
    (hd : (d, some t) ∈ log.runner.delayedTaskQueue) (hdue : d ≤ now) :
    ∃ n, ∃ x ∈ ((List.replicate n (Call.getNext now)).foldl (Log.play E) log).returned, x.2 = t := by
  obtain ⟨moved, r', hdrain, htask, hqueue, hdelayed⟩ := TaskRunner.getNext_drained now hh hnull
  have hmoved : (d, some t) ∈ moved := by
    rcases List.mem_append.mp (hdrain.perm.symm.subset hd) with hm | hm
    · exact hm
    · exact absurd hdue (Int64.not_le.mpr (hdrain.rest _ hm))
  have hmem : some t ∈ r'.taskQueue := by
    rw [hdrain.taskQueue]
    exact List.mem_append_right _ (List.mem_map.mpr ⟨_, hmoved, rfl⟩)
  have hreturned : (log.play E (.getNext now)).returned =
      log.returned ++ (log.runner.getNext E now).1.toList.map (now, ·) := rfl
  cases hq : r'.taskQueue with
  | nil => simp [hq] at hmem
  | cons y queue =>
    rw [hq] at hmem
    rcases List.mem_cons.mp hmem with rfl | hmem
    · refine ⟨1, (now, t), ?_, rfl⟩
      change (now, t) ∈ (log.play E (.getNext now)).returned
      rw [hreturned, htask, hq]
      simp
    · obtain ⟨a, b, rfl⟩ := List.append_of_mem hmem
      have hrest : (log.play E (.getNext now)).runner.taskQueue = a ++ some t :: b := by
        change (log.runner.getNext E now).2.taskQueue = _
        rw [hqueue, hq]
        rfl
      obtain ⟨x, hx, hxt⟩ := returned_of_queued (E := E) now
        (log.play E (.getNext now)) (hdelayed ▸ hdrain.isHeap)
        (hdelayed ▸ fun e he => hnull e (hdrain.perm.subset (List.mem_append_right _ he))) hrest
      exact ⟨a.length + 2, x, hx, hxt⟩

/-! ## The law of the deadlines -/

theorem toInt_add {now : TimePoint} {delay : TimeDelta} (hnow : 0 ≤ now.toInt)
    (hdelay : 0 ≤ delay.toInt) : (now + delay).toInt =
      if now.toInt + delay.toInt < 2 ^ 63 then now.toInt + delay.toInt
      else now.toInt + delay.toInt - 2 ^ 64 := by
  have h₁ := now.toInt_lt
  have h₂ := delay.toInt_lt
  rw [Int64.toInt_add, Int.bmod_def]
  omega

theorem notEarly_of_fits {runner : TaskRunner} {calls : List Call}
    (h : Accounts E calls (Log.of E runner calls)) (hnonneg : ∀ c ∈ calls, c.NonNeg)
    (hn : PostedOnce calls) (hfits : ∀ p ∈ pending E runner calls, p.2 < 2 ^ 63) :
    NotEarly E runner calls := by
  intro p hp later honce hlater
  obtain ⟨now, delay, hc, hd, hentry, hg⟩ := h.guarded hn hp
  obtain ⟨hnow, hdelay⟩ := hnonneg _ hc
  have hsum : (now + delay).toInt = p.2 := by
    rw [toInt_add hnow hdelay, if_pos (hd ▸ hfits p hp), hd]
  have hpost : Post.delayed (now + delay) p.1 ∈ calls.filterMap Call.post? :=
    List.mem_filterMap.mpr ⟨_, hc, rfl⟩
  refine Guarded.run (fun c hmem => ?_) { runner := (Log.of E runner calls).runner } hg
    (by simp)
  refine ⟨fun q hq hqt => ?_, hsum ▸ (hlater c hmem).2⟩
  -- A second post of the task would be a second name in the list.
  unfold PostedOnce at honce
  rw [List.filterMap_append, List.map_append] at honce
  refine (List.nodup_append'.mp honce).2.2 (List.mem_map.mpr ⟨_, hpost, rfl⟩)
    (List.mem_map.mpr ⟨q, List.mem_filterMap.mpr ⟨c, hmem, hq⟩, hqt⟩)

theorem waitsLongEnough_of_fits {runner : TaskRunner} {calls : List Call}
    (h : Accounts E calls (Log.of E runner calls)) (hnonneg : ∀ c ∈ calls, c.NonNeg)
    (hfits : ∀ p ∈ pending E runner calls, p.2 < 2 ^ 63) : WaitsLongEnough E runner calls := by
  intro hne now hnow
  obtain ⟨p, hp⟩ := List.exists_mem_of_ne_nil _ hne
  obtain ⟨-, e₀, he₀, -⟩ := mem_pending.mp hp
  cases hq : (Log.of E runner calls).runner.delayedTaskQueue with
  | nil => simp [hq] at he₀
  | cons e queue =>
    have he : e ∈ (Log.of E runner calls).runner.delayedTaskQueue := by simp [hq]
    obtain ⟨posted, t, delay, hc, rfl⟩ := h.entries e he
    have hmem : (t, posted.toInt + delay.toInt) ∈ pending E runner calls :=
      mem_pending.mpr ⟨⟨posted, delay, hc, rfl⟩, _, he, rfl⟩
    obtain ⟨hposted, hdelay⟩ := hnonneg _ hc
    have hfit := hfits _ hmem
    refine ⟨_, hmem, ?_⟩
    have hwait : (Log.of E runner calls).runner.getNextTimeDelta now = (posted + delay) - now := by
      rw [TaskRunner.getNextTimeDelta, hq]
    have hsum := toInt_add hposted hdelay
    rw [if_pos hfit] at hsum
    have hnowlt := now.toInt_lt
    rw [hwait, Int64.toInt_sub, Int.bmod_eq_of_le (by omega) (by omega), hsum]

theorem fits_of_notEarly {runner : TaskRunner} {calls : List Call}
    (h : Accounts E calls (Log.of E runner calls)) (hnonneg : ∀ c ∈ calls, c.NonNeg)
    (hn : PostedOnce calls) (hearly : NotEarly E runner calls) :
    ∀ p ∈ pending E runner calls, p.2 < 2 ^ 63 := by
  intro p hp
  by_contra hover
  obtain ⟨now, delay, hc, hd, hentry, hg⟩ := h.guarded hn hp
  obtain ⟨hnow, hdelay⟩ := hnonneg _ hc
  have hsum := toInt_add hnow hdelay
  rw [if_neg (hd ▸ hover)] at hsum
  have hnowlt := now.toInt_lt
  have hdelaylt := delay.toInt_lt
  -- The stored sum is negative, so the task is due at the reading it was posted at.
  have hdue : now + delay ≤ now := by
    rw [Int64.le_iff_toInt_le]
    omega
  obtain ⟨n, x, hx, hxt⟩ := returned_of_due (E := E)
    { runner := (Log.of E runner calls).runner } hg.isHeap hg.nonnull hentry hdue
  refine hearly p hp (List.replicate n (.getNext now)) ?_ ?_ x hx hxt
  · have hnone : (List.replicate n (Call.getNext now)).filterMap Call.post? = [] := by
      rw [List.filterMap_eq_nil_iff]
      intro c hc
      rw [List.eq_of_mem_replicate hc]
      rfl
    unfold PostedOnce
    rw [List.filterMap_append, hnone, List.append_nil]
    exact hn
  · intro c hc
    rw [List.eq_of_mem_replicate hc]
    refine ⟨hnow, fun r hr => ?_⟩
    obtain rfl := Option.some.inj hr
    omega

end Log

/-- **No delayed task runs early, and no wait is too short**, exactly while every
pending integer deadline fits 64 bits: after any calls on a new runner. -/
theorem punctual_iff {E : Env} (groupId priority : UInt32) (isSchedulable : Bool)
    {calls : List Call} (hnonneg : ∀ c ∈ calls, c.NonNeg) (hn : PostedOnce calls) :
    let runner : TaskRunner :=
      { groupId := groupId, priority := priority, isSchedulable := isSchedulable }
    Log.Punctual E runner calls ↔ ∀ p ∈ Log.pending E runner calls, p.2 < 2 ^ 63 := by
  intro runner
  have h := Log.accounts (E := E) runner rfl rfl calls
  constructor
  · exact fun hp => Log.fits_of_notEarly h hnonneg hn hp.1
  · exact fun hfits =>
      ⟨Log.notEarly_of_fits h hnonneg hn hfits, Log.waitsLongEnough_of_fits h hnonneg hfits⟩

/-- Two tasks wait for 6 and for 9. -/
theorem punctual_pair : Log.Punctual .debug
    { groupId := 0, priority := 1, isSchedulable := true }
    [.postDelayedTask 1 ⟨0⟩ 5, .postDelayedTask 2 ⟨1⟩ 7, .getNext 3] :=
  (punctual_iff 0 1 true (by decide) (by decide)).mpr (by decide)

/-- A delay that stands for "never" is due at once. -/
theorem never_is_now : ¬ Log.Punctual .debug
    { groupId := 0, priority := 1, isSchedulable := true }
    [.postDelayedTask 1 ⟨0⟩ TimeDelta.max] := by
  rintro ⟨hearly, -⟩
  refine hearly (⟨0⟩, 2 ^ 63) (by decide) [.getNext 1] (by decide) ?_ (1, ⟨0⟩) (by decide) rfl
  intro c hc
  obtain rfl := List.mem_singleton.mp hc
  refine ⟨by decide, fun now hnow => ?_⟩
  obtain rfl := Option.some.inj hnow
  decide

end Footstone
