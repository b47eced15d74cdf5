import Mathlib.Data.List.Nodup
import Mathlib.Data.List.Pairwise

/-!
Calls that overlap in time, and orders of them that a sequential object allows. A call
has the time it was made at and, once it is over, the time of that and its result. A
proof notes down every call at one point between the two; the points in their order
are then an order of the calls.
-/

namespace Linear

variable {ω ρ σ : Type*}

structure Call (ω ρ : Type*) where
  op : ω
  start : Nat
  finish : Option (Nat × ρ) := none
  deriving DecidableEq

/-- `c` was over before `d` was made. -/
def Call.Before (c d : Call ω ρ) : Prop := ∃ f ∈ c.finish, f.1 < d.start

instance (c d : Call ω ρ) : Decidable (c.Before d) :=
  inferInstanceAs (Decidable (∃ f ∈ c.finish, f.1 < d.start))

/-- A sequential object, given by what its operations may return and lead to, allows
these operations with these results, one after the other. -/
inductive Legal (R : σ → ω → ρ → σ → Prop) : σ → List (ω × ρ) → σ → Prop where
  | nil (s : σ) : Legal R s [] s
  | cons {s t u : σ} {op : ω} {ret : ρ} {ops : List (ω × ρ)} :
    R s op ret t → Legal R t ops u → Legal R s ((op, ret) :: ops) u

variable {R : σ → ω → ρ → σ → Prop} {s t u init : σ}

theorem legal_append {ops ops' : List (ω × ρ)} :
    Legal R s (ops ++ ops') u ↔ ∃ t, Legal R s ops t ∧ Legal R t ops' u := by
  induction ops generalizing s with
  | nil =>
    constructor
    · exact fun h => ⟨s, .nil s, h⟩
    · rintro ⟨_, ⟨⟩, h⟩
      exact h
  | cons o ops ih =>
    constructor
    · rintro (_ | ⟨hR, h⟩)
      obtain ⟨t, h₁, h₂⟩ := ih.mp h
      exact ⟨t, .cons hR h₁, h₂⟩
    · rintro ⟨t, _ | ⟨hR, h₁⟩, h₂⟩
      exact .cons hR (ih.mpr ⟨t, h₁, h₂⟩)

theorem Legal.concat {ops : List (ω × ρ)} {op : ω} {ret : ρ} (h : Legal R s ops t)
    (hR : R t op ret u) : Legal R s (ops ++ [(op, ret)]) u :=
  legal_append.mpr ⟨t, h, .cons hR (.nil u)⟩

/-- Another object allows what this one does. -/
theorem Legal.mono {R' : σ → ω → ρ → σ → Prop} (hR : ∀ s op ret t, R s op ret t → R' s op ret t)
    {ops : List (ω × ρ)} (h : Legal R s ops u) : Legal R' s ops u := by
  induction h with
  | nil s => exact .nil s
  | cons hstep _ ih => exact .cons (hR _ _ _ _ hstep) ih

/-- A call in an order, with the result it has there. -/
structure Entry (ω ρ : Type*) where
  id : Nat
  op : ω
  ret : ρ

/-- All calls that are over, and some that are not, each once and with its result, and
none behind a call that was only made when it was over. -/
structure Orders (calls : List (Call ω ρ)) (order : List (Entry ω ρ)) : Prop where
  nodup : (order.map Entry.id).Nodup
  call : ∀ e ∈ order, ∃ c, calls[e.id]? = some c ∧ c.op = e.op ∧ ∀ f ∈ c.finish, f.2 = e.ret
  complete : ∀ id c, calls[id]? = some c → c.finish ≠ none → ∃ e ∈ order, e.id = id
  realTime : order.Pairwise fun d e =>
    ∀ b ∈ calls[d.id]?, ∀ c ∈ calls[e.id]?, ¬ Call.Before c b

/-- The calls can be put in an order that the object allows. -/
def Linearizable (R : σ → ω → ρ → σ → Prop) (init : σ) (calls : List (Call ω ρ)) : Prop :=
  ∃ order, Orders calls order ∧ ∃ s, Legal R init (order.map fun e => (e.op, e.ret)) s

theorem Linearizable.mono {R' : σ → ω → ρ → σ → Prop}
    (hR : ∀ s op ret t, R s op ret t → R' s op ret t) {calls : List (Call ω ρ)}
    (h : Linearizable R init calls) : Linearizable R' init calls := by
  obtain ⟨order, horder, s, hlegal⟩ := h
  exact ⟨order, horder, s, hlegal.mono hR⟩

/-! ## Points -/

/-- A call that is noted down. -/
structure Point (ω ρ : Type*) extends Entry ω ρ where
  time : Nat

/-- What is noted down up to `now` leads to `s`. -/
structure Logged (R : σ → ω → ρ → σ → Prop) (init : σ) (calls : List (Call ω ρ)) (now : Nat)
    (log : List (Point ω ρ)) (s : σ) : Prop where
  nodup : (log.map (·.id)).Nodup
  call : ∀ p ∈ log, ∃ c, calls[p.id]? = some c ∧ c.op = p.op ∧ c.start ≤ p.time ∧ p.time ≤ now ∧
    ∀ f ∈ c.finish, f.2 = p.ret ∧ p.time ≤ f.1
  complete : ∀ id c, calls[id]? = some c → c.finish ≠ none → ∃ p ∈ log, p.id = id
  sorted : log.Pairwise (·.time ≤ ·.time)
  legal : Legal R init (log.map fun p => (p.op, p.ret)) s

namespace Logged

variable {calls : List (Call ω ρ)} {now : Nat} {log : List (Point ω ρ)}

/-- **Points in the calls** order the calls. -/
theorem linearizable (h : Logged R init calls now log s) : Linearizable R init calls := by
  refine ⟨log.map Point.toEntry, ⟨?_, ?_, ?_, ?_⟩, s, ?_⟩
  · simpa [List.map_map, Function.comp_def] using h.nodup
  · intro e he
    obtain ⟨p, hp, rfl⟩ := List.mem_map.mp he
    obtain ⟨c, hc, hop, -, -, hf⟩ := h.call p hp
    exact ⟨c, hc, hop, fun f hff => (hf f hff).1⟩
  · intro id c hc hf
    obtain ⟨p, hp, hid⟩ := h.complete id c hc hf
    exact ⟨p.toEntry, List.mem_map_of_mem hp, hid⟩
  · refine List.pairwise_map.mpr (h.sorted.imp_of_mem fun {p q} hp hq hle b hb c hc => ?_)
    rintro ⟨f, hf, hlt⟩
    obtain ⟨b', hb', -, hstart, -⟩ := h.call p hp
    obtain ⟨c', hc', -, -, -, hfinish⟩ := h.call q hq
    obtain rfl := Option.some.inj (hb'.symm.trans hb)
    obtain rfl := Option.some.inj (hc'.symm.trans hc)
    have := (hfinish f hf).2
    omega
  · simpa [List.map_map, Function.comp_def] using h.legal

theorem nil (init : σ) : Logged R init [] 0 [] init where
  nodup := List.nodup_nil
  call _ h := nomatch h
  complete _ _ h := nomatch h
  sorted := List.Pairwise.nil
  legal := .nil init

theorem later (h : Logged R init calls now log s) {now' : Nat} (hle : now ≤ now') :
    Logged R init calls now' log s where
  nodup := h.nodup
  call p hp := by
    obtain ⟨c, hc, hop, hstart, htime, hf⟩ := h.call p hp
    exact ⟨c, hc, hop, hstart, Nat.le_trans htime hle, hf⟩
  complete := h.complete
  sorted := h.sorted
  legal := h.legal

/-- A call is made. -/
theorem made (h : Logged R init calls now log s) (op : ω) (start : Nat) :
    Logged R init (calls ++ [{ op := op, start := start }]) now log s where
  nodup := h.nodup
  call p hp := by
    obtain ⟨c, hc, hrest⟩ := h.call p hp
    exact ⟨c, List.getElem?_append_left (List.getElem?_eq_some_iff.mp hc).1 ▸ hc, hrest⟩
  complete id c hc hf := by
    rcases Nat.lt_or_ge id calls.length with hlt | hge
    · rw [List.getElem?_append_left hlt] at hc
      exact h.complete id c hc hf
    · rw [List.getElem?_append_right hge] at hc
      obtain rfl := List.mem_singleton.mp (List.mem_of_getElem? hc)
      exact absurd rfl hf
  sorted := h.sorted
  legal := h.legal

/-- A call that goes on is noted down now. -/
theorem noted (h : Logged R init calls now log s) {id : Nat} {c : Call ω ρ}
    (hc : calls[id]? = some c) (hstart : c.start ≤ now) (hgoes : c.finish = none)
    (hnew : ∀ p ∈ log, p.id ≠ id) {ret : ρ} (hR : R s c.op ret t) :
    Logged R init calls now (log ++ [⟨⟨id, c.op, ret⟩, now⟩]) t where
  nodup := by
    rw [List.map_append]
    refine List.nodup_append.mpr ⟨h.nodup, List.nodup_singleton _, ?_⟩
    rintro a ha b hb rfl
    obtain ⟨p, hp, rfl⟩ := List.mem_map.mp ha
    exact hnew p hp (List.mem_singleton.mp hb)
  call p hp := by
    rcases List.mem_append.mp hp with hp | hp
    · exact h.call p hp
    · rw [List.mem_singleton.mp hp]
      exact ⟨c, hc, rfl, hstart, Nat.le_refl _, fun f hf => by rw [hgoes] at hf; cases hf⟩
  complete id' c' hc' hf := by
    obtain ⟨p, hp, hid⟩ := h.complete id' c' hc' hf
    exact ⟨p, List.mem_append_left _ hp, hid⟩
  sorted := by
    refine List.pairwise_append.mpr ⟨h.sorted, List.pairwise_singleton .., fun p hp q hq => ?_⟩
    rw [List.mem_singleton.mp hq]
    obtain ⟨-, -, -, -, htime, -⟩ := h.call p hp
    exact htime
  legal := by
    rw [List.map_append]
    exact h.legal.concat hR

/-- A call that was noted down returns what it was noted down with. -/
theorem returned (h : Logged R init calls now log s) {p : Point ω ρ} (hp : p ∈ log) :
    Logged R init (calls.modify p.id fun c => { c with finish := some (now, p.ret) }) now log s where
  nodup := h.nodup
  call q hq := by
    obtain ⟨d, hd, hop, hstart, htime, hf⟩ := h.call q hq
    by_cases hid : p.id = q.id
    · obtain rfl : p = q := List.inj_on_of_nodup_map h.nodup hp hq hid
      refine ⟨{ d with finish := some (now, p.ret) }, ?_, hop, hstart, htime, ?_⟩
      · rw [List.getElem?_modify_eq, hd]
        rfl
      · rintro _ ⟨⟩
        exact ⟨rfl, htime⟩
    · exact ⟨d, by rwa [List.getElem?_modify_ne _ _ hid], hop, hstart, htime, hf⟩
  complete id d hd hf := by
    by_cases hid : p.id = id
    · exact ⟨p, hp, hid⟩
    · rw [List.getElem?_modify_ne _ _ hid] at hd
      exact h.complete id d hd hf
  sorted := h.sorted
  legal := h.legal

/-- What leaves the object as it is can be left out. -/
theorem legal_filter {ops : List (Point ω ρ)} {keep : Point ω ρ → Bool}
    (hkeep : ∀ p ∈ ops, keep p = false → ∀ s t, R s p.op p.ret t → t = s)
    (h : Legal R s (ops.map fun p => (p.op, p.ret)) t) :
    Legal R s ((ops.filter keep).map fun p => (p.op, p.ret)) t := by
  induction ops generalizing s with
  | nil => exact h
  | cons p ops ih =>
    rcases h with _ | ⟨hR, h⟩
    have hrest := ih (fun q hq => hkeep q (List.mem_cons_of_mem _ hq)) h
    cases hp : keep p with
    | false =>
      rw [List.filter_cons_of_neg (by simp [hp])]
      rwa [← hkeep p List.mem_cons_self hp _ _ hR]
    | true =>
      rw [List.filter_cons_of_pos hp]
      exact .cons hR hrest

/-- A call that goes on is noted down no longer, if that was nothing to the object. -/
theorem dropped (h : Logged R init calls now log s) {id : Nat} {c : Call ω ρ}
    (hc : calls[id]? = some c) (hgoes : c.finish = none)
    (hid : ∀ p ∈ log, p.id = id → ∀ s t, R s p.op p.ret t → t = s) :
    Logged R init calls now (log.filter (·.id ≠ id)) s where
  nodup := h.nodup.sublist (List.filter_sublist.map _)
  call p hp := h.call p (List.mem_filter.mp hp).1
  complete id' c' hc' hf := by
    obtain ⟨p, hp, rfl⟩ := h.complete id' c' hc' hf
    refine ⟨p, List.mem_filter.mpr ⟨hp, ?_⟩, rfl⟩
    rw [decide_eq_true_eq]
    rintro rfl
    rw [hc] at hc'
    exact hf (Option.some.inj hc' ▸ hgoes)
  sorted := h.sorted.sublist List.filter_sublist
  legal := by
    refine legal_filter (fun p hp hkeep => hid p hp ?_) h.legal
    simpa using hkeep

end Logged

/-! ## FIFO queues -/

inductive FifoOp (α : Type*) where
  | push (val : α)
  | pop
  deriving DecidableEq

inductive FifoRet (α : Type*) where
  | pushed
  | popped (val : α)
  | empty
  deriving DecidableEq

variable {α : Type*}

inductive Fifo : List α → FifoOp α → FifoRet α → List α → Prop where
  | push (q : List α) (val : α) : Fifo q (.push val) .pushed (q ++ [val])
  | pop (val : α) (q : List α) : Fifo (val :: q) .pop (.popped val) q
  | empty : Fifo [] .pop .empty []

def FifoOp.val? : FifoOp α → Option α
  | push val => some val
  | pop => none

/-- It is a pop that has returned `val`, or one that may still do so. -/
def Call.Takes (val : α) (c : Call (FifoOp α) (FifoRet α)) : Prop :=
  c.op = .pop ∧ ∀ f ∈ c.finish, f.2 = .popped val

instance [DecidableEq α] (val : α) (c : Call (FifoOp α) (FifoRet α)) : Decidable (c.Takes val) :=
  inferInstanceAs (Decidable (_ ∧ ∀ f ∈ c.finish, _))

/-- A pop that was made when a push was over, and finds nothing, has another one beside
or before it that takes the value. -/
def NeverMissed (calls : List (Call (FifoOp α) (FifoRet α))) : Prop :=
  ∀ c ∈ calls, ∀ val ∈ c.op.val?, ∀ d ∈ calls, (∃ f ∈ d.finish, f.2 = .empty) → c.Before d →
    ∃ e ∈ calls, e.Takes val ∧ ¬ d.Before e

instance [DecidableEq α] (calls : List (Call (FifoOp α) (FifoRet α))) :
    Decidable (NeverMissed calls) :=
  inferInstanceAs (Decidable (∀ c ∈ calls, ∀ val ∈ c.op.val?, ∀ d ∈ calls,
    (∃ f ∈ d.finish, f.2 = .empty) → c.Before d → ∃ e ∈ calls, e.Takes val ∧ ¬ d.Before e))

/-- What was pushed was popped, or is still there. -/
theorem Legal.mem_of_push {q q' : List α} {ops : List (FifoOp α × FifoRet α)} {val : α}
    (h : Legal Fifo q ops q') (hval : val ∈ q ∨ ∃ ret, (.push val, ret) ∈ ops) :
    (.pop, .popped val) ∈ ops ∨ val ∈ q' := by
  induction h with
  | nil q =>
    rcases hval with hval | ⟨ret, hval⟩
    · exact Or.inr hval
    · cases hval
  | cons hR _ ih =>
    cases hR with
    | push q v =>
      refine (ih ?_).imp_left (List.mem_cons_of_mem _)
      rcases hval with hval | ⟨ret, hval⟩
      · exact Or.inl (List.mem_append_left _ hval)
      · rcases List.mem_cons.mp hval with heq | hmem
        · cases heq
          exact Or.inl (List.mem_append_right _ List.mem_cons_self)
        · exact Or.inr ⟨ret, hmem⟩
    | pop v q =>
      rcases hval with hval | ⟨ret, hval⟩
      · rcases List.mem_cons.mp hval with rfl | hmem
        · exact Or.inl List.mem_cons_self
        · exact (ih (Or.inl hmem)).imp_left (List.mem_cons_of_mem _)
      · refine (ih (Or.inr ⟨ret, ?_⟩)).imp_left (List.mem_cons_of_mem _)
        simpa using hval
    | empty =>
      refine (ih ?_).imp_left (List.mem_cons_of_mem _)
      rcases hval with hval | ⟨ret, hval⟩
      · exact Or.inl hval
      · exact Or.inr ⟨ret, by simpa using hval⟩

/-- **No pop misses** what was pushed before it, if the calls are those of a FIFO queue. -/
theorem Linearizable.neverMissed {calls : List (Call (FifoOp α) (FifoRet α))}
    (h : Linearizable Fifo [] calls) : NeverMissed calls := by
  obtain ⟨order, horder, s, hlegal⟩ := h
  rintro c hc val hval d hd ⟨⟨t, _⟩, hfd, rfl⟩ hbefore
  obtain ⟨i, hi⟩ := List.mem_iff_getElem?.mp hc
  obtain ⟨j, hj⟩ := List.mem_iff_getElem?.mp hd
  have hcover : c.finish ≠ none := by
    obtain ⟨f, hf, -⟩ := hbefore
    exact fun hnone => by rw [hnone] at hf; cases hf
  obtain ⟨push, hpush, rfl⟩ := horder.complete i c hi hcover
  obtain ⟨pop, hpop, rfl⟩ := horder.complete j d hj (fun hnone => by rw [hnone] at hfd; cases hfd)
  obtain ⟨c', hc', hpushop, -⟩ := horder.call push hpush
  obtain ⟨d', hd', -, hpopret⟩ := horder.call pop hpop
  obtain rfl := Option.some.inj (hi.symm.trans hc')
  obtain rfl := Option.some.inj (hj.symm.trans hd')
  have hret : pop.ret = .empty := (hpopret _ hfd).symm
  have hop : push.op = .push val := by
    rw [← hpushop]
    cases hcop : c.op with
    | push v =>
      rw [hcop] at hval
      cases hval
      rfl
    | pop =>
      rw [hcop] at hval
      cases hval
  -- The queue is empty where the pop stands, so what was pushed before has been popped.
  obtain ⟨older, newer, rfl⟩ := List.append_of_mem hpop
  rw [List.map_append, List.map_cons, hret] at hlegal
  obtain ⟨q, holder, hrest⟩ := legal_append.mp hlegal
  rcases hrest with _ | ⟨hR, -⟩
  have hempty : q = [] ∧ pop.op = .pop := by
    generalize pop.op = op at hR
    cases hR
    exact ⟨rfl, rfl⟩
  obtain ⟨-, hpairs, hacross⟩ := List.pairwise_append.mp horder.realTime
  have hpush' : push ∈ older := by
    rcases List.mem_append.mp hpush with hmem | hmem
    · exact hmem
    · rcases List.mem_cons.mp hmem with rfl | hmem
      · rw [hempty.2] at hop
        cases hop
      · exact absurd hbefore ((List.pairwise_cons.mp hpairs).1 push hmem d hj c hi)
  have hmem : (FifoOp.push val, push.ret) ∈ older.map fun e => (e.op, e.ret) :=
    List.mem_map.mpr ⟨push, hpush', by rw [hop]⟩
  rcases holder.mem_of_push (Or.inr ⟨_, hmem⟩) with htaken | hleft
  · obtain ⟨e, he, heq⟩ := List.mem_map.mp htaken
    obtain ⟨b, hb, hbop, hbret⟩ := horder.call e (List.mem_append_left _ he)
    obtain ⟨heop, heret⟩ := Prod.mk.inj heq
    refine ⟨b, List.mem_of_getElem? hb, ⟨hbop.trans heop, fun f hf => ?_⟩, ?_⟩
    · exact (hbret f hf).trans heret
    · exact hacross e he pop List.mem_cons_self b hb d hj
  · rw [hempty.1] at hleft
    cases hleft

end Linear
