import Footstone.Lib.Calls
import Footstone.Lib.Linearizable
import Footstone.Lib.Runs
import Mathlib.Logic.Function.Basic

/-!
An object behind a mutex. A call locks it, makes its accesses to the object and unlocks it
again; a call may also read the object once and without the mutex. However the accesses of any
number of threads interleave, the calls are those of the object that is used by one thread
alone, if what is read without the mutex cannot be told from what was there before or behind
the call that has it.
-/

namespace Locked

open Linear Calls

variable {τ ω ρ σ π : Type*}

/-- The calls of an object. One that starts nowhere does not lock the mutex. -/
structure Object (ω ρ σ π : Type*) where
  start : ω → Option π
  access : Access Unit σ π ρ
  peek : σ → ω → ρ

/-- Where a thread is in a call. -/
inductive Place (ω ρ π : Type*) where
  | locking (p : π)
  | inside (p : π)
  | unlocking (ret : ρ)
  | peeking (op : ω)
  | leaving (ret : ρ)

/-- The thread has the mutex. -/
def Place.holds : Place ω ρ π → Bool
  | .inside _ | .unlocking _ => true
  | _ => false

/-- The object and the threads that use it, with what they have called. `call` is the number of
a thread's latest call. -/
structure System (τ ω ρ σ π : Type*) where
  object : σ
  owner : Option τ := none
  place : τ → Option (Place ω ρ π) := fun _ => none
  call : τ → Nat := fun _ => 0
  calls : List (Call ω ρ) := []
  clock : Nat := 0

inductive Op (τ ω : Type*) where
  | make (t : τ) (op : ω)
  | go (t : τ)

/-- Why a step is none: the thread is in a call, it is in none, or it waits for the mutex. -/
inductive Fault where
  | busy
  | idle
  | blocked

namespace Object

variable (O : Object ω ρ σ π)

/-- A call that has the object for itself gets from one place to another. -/
inductive Along : σ → π → σ → π → Prop where
  | refl (s : σ) (p : π) : Along s p s p
  | step {s s' s'' : σ} {p p' p'' : π} (h : Along s p s' p')
      (ha : O.access () s' p' = (s'', .inl p'')) : Along s p s'' p''

/-- What a call does that has the object for itself. -/
def Does (s : σ) (op : ω) (ret : ρ) (s' : σ) : Prop :=
  match O.start op with
  | some p => ∃ t q, O.Along s p t q ∧ O.access () t q = (s', .inr ret)
  | none => ret = O.peek s op ∧ s' = s

/-- What is read without the mutex is as it was when that was locked. -/
def Peeks : Prop :=
  ∀ op p s t q op', O.start op = some p → O.Along s p t q → O.start op' = none →
    O.peek t op' = O.peek s op'

end Object

namespace System

variable [DecidableEq τ]

def goTo (t : τ) (place : Place ω ρ π) (s : System τ ω ρ σ π) : System τ ω ρ σ π :=
  { s with place := Function.update s.place t (some place), clock := s.clock + 1 }

/-- The thread's call returns. -/
def finish (t : τ) (ret : ρ) (s : System τ ω ρ σ π) : System τ ω ρ σ π :=
  { s with
    place := Function.update s.place t none
    calls := s.calls.modify (s.call t) fun c => { c with finish := some (s.clock, ret) }
    clock := s.clock + 1 }

def step (O : Object ω ρ σ π) (s : System τ ω ρ σ π) : Op τ ω → Except Fault (System τ ω ρ σ π)
  | .make t op =>
    match s.place t with
    | none => .ok { s.goTo t ((O.start op).elim (.peeking op) .locking) with
        call := Function.update s.call t s.calls.length
        calls := s.calls ++ [{ op := op, start := s.clock }] }
    | some _ => .error .busy
  | .go t =>
    match s.place t with
    | none => .error .idle
    | some (.locking p) =>
      match s.owner with
      | none => .ok { s.goTo t (.inside p) with owner := some t }
      | some _ => .error .blocked
    | some (.inside p) =>
      match O.access () s.object p with
      | (object, .inl p) => .ok { s.goTo t (.inside p) with object := object }
      | (object, .inr ret) => .ok { s.goTo t (.unlocking ret) with object := object }
    | some (.unlocking ret) => .ok { s.finish t ret with owner := none }
    | some (.peeking op) => .ok (s.goTo t (.leaving (O.peek s.object op)))
    | some (.leaving ret) => .ok (s.finish t ret)

end System

/-! ## The calls in their order -/

/-- What is known of a call at a place, when `a` is the object that the calls that are noted
down lead to. -/
def Fits (O : Object ω ρ σ π) (object a : σ) (log : List (Point ω ρ)) (id : Nat) (op : ω) :
    Place ω ρ π → Prop
  | .locking p => O.start op = some p ∧ ∀ e ∈ log, e.id ≠ id
  | .inside q => (∃ p, O.start op = some p ∧ O.Along a p object q) ∧ ∀ e ∈ log, e.id ≠ id
  | .peeking op' => op' = op ∧ O.start op = none ∧ ∀ e ∈ log, e.id ≠ id
  | .unlocking ret | .leaving ret => ∃ e ∈ log, e.id = id ∧ e.ret = ret

/-- The calls that have taken effect, in their order, and where the threads are. -/
structure Inv (O : Object ω ρ σ π) (init : σ) (s : System τ ω ρ σ π) (a : σ)
    (log : List (Point ω ρ)) : Prop where
  logged : Logged O.Does init s.calls s.clock log a
  owner : ∀ t, s.owner = some t ↔ ∃ place ∈ s.place t, place.holds = true
  free : (∀ t p, s.place t ≠ some (.inside p)) → s.object = a
  calls : ∀ t, ∀ place ∈ s.place t, ∃ c, s.calls[s.call t]? = some c ∧ c.start ≤ s.clock ∧
    c.finish = none ∧ Fits O s.object a log (s.call t) c.op place
  own : ∀ t t', s.place t ≠ none → s.place t' ≠ none → s.call t = s.call t' → t = t'

namespace Inv

variable {O : Object ω ρ σ π} {init : σ} {s s' : System τ ω ρ σ π} {a : σ}
  {log : List (Point ω ρ)} {t : τ}

/-- A call of another thread fits as before. -/
theorem fits_other {object' a' : σ} {log' : List (Point ω ρ)} {id id' : Nat} {op : ω}
    {place : Place ω ρ π} (h : Fits O s.object a log id op place) (hid : id ≠ id')
    (hlog : ∀ e, e.id ≠ id' → (e ∈ log' ↔ e ∈ log))
    (hinside : (object' = s.object ∧ a' = a) ∨ ∀ p, place ≠ .inside p) :
    Fits O object' a' log' id op place := by
  have hnew : (∀ e ∈ log, e.id ≠ id) → ∀ e ∈ log', e.id ≠ id := by
    intro hold e he heq
    exact hold e ((hlog e (heq ▸ hid)).mp he) heq
  cases place with
  | locking p => exact h.imp_right hnew
  | inside q =>
    obtain ⟨rfl, rfl⟩ := hinside.resolve_right fun hne => hne q rfl
    exact h.imp_right hnew
  | peeking op' => exact ⟨h.1, h.2.1, hnew h.2.2⟩
  | unlocking ret | leaving ret =>
    obtain ⟨e, he, heid, heret⟩ := h
    exact ⟨e, (hlog e (heid ▸ hid)).mpr he, heid, heret⟩

/-- Only the thread that has the mutex is inside. -/
theorem not_inside (h : Inv O init s a log) (hne : s.owner ≠ some t) (p : π) :
    s.place t ≠ some (.inside p) := by
  intro heq
  exact hne ((h.owner t).mpr ⟨_, heq, rfl⟩)

variable [DecidableEq τ]

/-- The thread `t`, which is in a call, gets to the place `place?`, or to none. -/
theorem moved {object' a' : σ} {owner' : Option τ} {log' : List (Point ω ρ)}
    {calls' : List (Call ω ρ)} {place? : Option (Place ω ρ π)} (h : Inv O init s a log)
    (hrun : s.place t ≠ none) (hlogged : Logged O.Does init calls' s.clock log' a')
    (hlog : ∀ e, e.id ≠ s.call t → (e ∈ log' ↔ e ∈ log))
    (hcalls : ∀ id, id ≠ s.call t → calls'[id]? = s.calls[id]?)
    (howner : ∀ u, owner' = some u ↔
      ∃ place ∈ Function.update s.place t place? u, place.holds = true)
    (hfree : (∀ u p, Function.update s.place t place? u ≠ some (.inside p)) → object' = a')
    (hinside : (object' = s.object ∧ a' = a) ∨ ∀ u, u ≠ t → ∀ p, s.place u ≠ some (.inside p))
    (hplace : ∀ place ∈ place?, ∃ c, calls'[s.call t]? = some c ∧ c.start ≤ s.clock ∧
      c.finish = none ∧ Fits O object' a' log' (s.call t) c.op place) :
    Inv O init { s with
      object := object', owner := owner', place := Function.update s.place t place?
      calls := calls', clock := s.clock + 1 } a' log' where
  logged := hlogged.later (Nat.le_succ _)
  owner := howner
  free := hfree
  calls u place hu := by
    change place ∈ Function.update s.place t place? u at hu
    rcases eq_or_ne u t with rfl | hne
    · rw [Function.update_self] at hu
      obtain ⟨c, hc, hstart, hgoes, hfits⟩ := hplace place hu
      exact ⟨c, hc, Nat.le_succ_of_le hstart, hgoes, hfits⟩
    · rw [Function.update_of_ne hne] at hu
      obtain ⟨c, hc, hstart, hgoes, hfits⟩ := h.calls u place hu
      have hid : s.call u ≠ s.call t := by
        intro heq
        refine hne (h.own u t ?_ hrun heq)
        rw [hu]
        nofun
      refine ⟨c, (hcalls _ hid).trans hc, Nat.le_succ_of_le hstart, hgoes,
        fits_other hfits hid hlog ?_⟩
      refine hinside.imp_right fun hnone p heq => hnone u hne p ?_
      rw [hu, heq]
  own u u' hu hu' heq := by
    have hsome : ∀ v, Function.update s.place t place? v ≠ none → s.place v ≠ none := by
      intro v hv
      rcases eq_or_ne v t with rfl | hne
      · exact hrun
      · rwa [Function.update_of_ne hne] at hv
    exact h.own u u' (hsome u hu) (hsome u' hu') heq

/-- Who has the mutex, when the thread `t` had it and goes to `place?`. -/
theorem owner_update (h : Inv O init s a log) {owner' : Option τ}
    {place? : Option (Place ω ρ π)} (howner : s.owner = none ∨ s.owner = some t)
    (hself : owner' = some t ↔ ∃ place ∈ place?, place.holds = true)
    (hothers : ∀ u, u ≠ t → owner' ≠ some u) (u : τ) : owner' = some u ↔
      ∃ place ∈ Function.update s.place t place? u, place.holds = true := by
  rcases eq_or_ne u t with rfl | hne
  · rw [Function.update_self]
    exact hself
  · rw [Function.update_of_ne hne, ← h.owner u]
    refine iff_of_false (hothers u hne) fun heq => ?_
    rcases howner with hnone | hsome
    · rw [hnone] at heq
      cases heq
    · rw [hsome] at heq
      exact hne (Option.some.inj heq).symm

/-- Nobody gives up the mutex or gets it. -/
theorem owner_keep (h : Inv O init s a log) {place : Place ω ρ π} {place? : Option (Place ω ρ π)}
    (hpc : s.place t = some place)
    (hholds : place.holds = true ↔ ∃ place' ∈ place?, place'.holds = true) (u : τ) :
    s.owner = some u ↔ ∃ place ∈ Function.update s.place t place? u, place.holds = true := by
  rw [h.owner u]
  rcases eq_or_ne u t with rfl | hne
  · rw [Function.update_self, hpc, ← hholds]
    simp
  · rw [Function.update_of_ne hne]

/-- The mutex is locked. -/
theorem lock (h : Inv O init s a log) {p : π} (hpc : s.place t = some (.locking p))
    (howner : s.owner = none) :
    Inv O init { s.goTo t (.inside p) with owner := some t } a log := by
  obtain ⟨c, hc, hstart, hgoes, hop, hnew⟩ := h.calls t _ hpc
  have hobject := h.free fun u q => h.not_inside (by simp [howner]) q
  refine h.moved (by simp [hpc]) h.logged (fun _ _ => Iff.rfl) (fun _ _ => rfl)
    (h.owner_update (Or.inl howner) (by simp [Place.holds]) fun u hne => by simp [hne.symm])
    (fun _ => hobject) (Or.inl ⟨rfl, rfl⟩) ?_
  rintro _ ⟨⟩
  exact ⟨c, hc, hstart, hgoes, ⟨p, hop, hobject ▸ .refl _ _⟩, hnew⟩

/-- The thread that has the mutex makes an access and stays inside. -/
theorem access (h : Inv O init s a log) {p p' : π} {object : σ}
    (hpc : s.place t = some (.inside p)) (ha : O.access () s.object p = (object, .inl p')) :
    Inv O init { s.goTo t (.inside p') with object := object } a log := by
  obtain ⟨c, hc, hstart, hgoes, ⟨p₀, hop, halong⟩, hnew⟩ := h.calls t _ hpc
  have howner : s.owner = some t := (h.owner t).mpr ⟨_, hpc, rfl⟩
  refine h.moved (by simp [hpc]) h.logged (fun _ _ => Iff.rfl) (fun _ _ => rfl)
    (h.owner_keep hpc (by simp [Place.holds])) (fun hnone => ?_)
    (Or.inr fun u hne q => h.not_inside (by simp [howner, hne.symm]) q) ?_
  · exact absurd (Function.update_self ..) (hnone t p')
  · rintro _ ⟨⟩
    exact ⟨c, hc, hstart, hgoes, ⟨p₀, hop, halong.step ha⟩, hnew⟩

/-- The last access of a call: there it takes effect. -/
theorem takeEffect (h : Inv O init s a log) {p : π} {ret : ρ} {object : σ}
    (hpc : s.place t = some (.inside p)) (ha : O.access () s.object p = (object, .inr ret)) :
    ∃ log', Inv O init { s.goTo t (.unlocking ret) with object := object } object log' := by
  obtain ⟨c, hc, hstart, hgoes, ⟨p₀, hop, halong⟩, hnew⟩ := h.calls t _ hpc
  have howner : s.owner = some t := (h.owner t).mpr ⟨_, hpc, rfl⟩
  have hdoes : O.Does a c.op ret object := by
    rw [Object.Does, hop]
    exact ⟨s.object, p, halong, ha⟩
  refine ⟨_, h.moved (by simp [hpc]) (h.logged.noted hc hstart hgoes hnew hdoes)
    (fun e he => ?_) (fun _ _ => rfl) (h.owner_keep hpc (by simp [Place.holds]))
    (fun _ => rfl) (Or.inr fun u hne q => h.not_inside (by simp [howner, hne.symm]) q) ?_⟩
  · rw [List.mem_append, List.mem_singleton, or_iff_left]
    rintro rfl
    exact he rfl
  · rintro _ ⟨⟩
    exact ⟨c, hc, hstart, hgoes, _, List.mem_append_right _ (List.mem_singleton_self _), rfl, rfl⟩

/-- A call that does not lock the mutex reads the object. -/
theorem peek (h : Inv O init s a log) (hpeeks : O.Peeks) {op : ω}
    (hpc : s.place t = some (.peeking op)) :
    ∃ log', Inv O init (s.goTo t (.leaving (O.peek s.object op))) a log' := by
  obtain ⟨c, hc, hstart, hgoes, rfl, hop, hnew⟩ := h.calls t _ hpc
  -- Nobody has the mutex, or the call that has it does not show.
  have hsame : O.peek s.object c.op = O.peek a c.op := by
    by_cases hinside : ∃ u q, s.place u = some (.inside q)
    · obtain ⟨u, q, hu⟩ := hinside
      obtain ⟨d, -, -, -, ⟨p₀, hdop, halong⟩, -⟩ := h.calls u _ hu
      exact hpeeks d.op p₀ a s.object q c.op hdop halong hop
    · rw [h.free fun u q hu => hinside ⟨u, q, hu⟩]
  have hdoes : O.Does a c.op (O.peek s.object c.op) a := by
    rw [Object.Does, hop]
    exact ⟨hsame, rfl⟩
  refine ⟨_, h.moved (by simp [hpc]) (h.logged.noted hc hstart hgoes hnew hdoes)
    (fun e he => ?_) (fun _ _ => rfl) (h.owner_keep hpc (by simp [Place.holds])) (fun hnone => ?_)
    (Or.inl ⟨rfl, rfl⟩) ?_⟩
  · rw [List.mem_append, List.mem_singleton, or_iff_left]
    rintro rfl
    exact he rfl
  · refine h.free fun u q hu => hnone u q ?_
    have hne : u ≠ t := by
      rintro rfl
      rw [hpc] at hu
      cases hu
    rw [Function.update_of_ne hne]
    exact hu
  · rintro _ ⟨⟩
    exact ⟨c, hc, hstart, hgoes, _, List.mem_append_right _ (List.mem_singleton_self _), rfl, rfl⟩

/-- A call that has taken effect returns. -/
theorem returns (h : Inv O init s a log) {place : Place ω ρ π} {ret : ρ} {owner' : Option τ}
    (hpc : s.place t = some place) (hplace : place = .unlocking ret ∨ place = .leaving ret)
    (howner : ∀ u, owner' = some u ↔
      ∃ place ∈ Function.update s.place t none u, place.holds = true) :
    Inv O init { s.finish t ret with owner := owner' } a log := by
  obtain ⟨c, -, -, -, hfits⟩ := h.calls t place hpc
  obtain ⟨e, he, hid, rfl⟩ : ∃ e ∈ log, e.id = s.call t ∧ e.ret = ret := by
    rcases hplace with rfl | rfl <;> exact hfits
  have hlogged := h.logged.returned he
  rw [hid] at hlogged
  refine h.moved (by simp [hpc]) hlogged (fun _ _ => Iff.rfl)
    (fun id hne => List.getElem?_modify_ne _ _ (Ne.symm hne)) howner (fun hnone => ?_)
    (Or.inl ⟨rfl, rfl⟩) nofun
  refine h.free fun u q hu => hnone u q ?_
  have hne : u ≠ t := by
    rintro rfl
    rw [hpc] at hu
    rcases hplace with rfl | rfl <;> cases hu
  rw [Function.update_of_ne hne]
  exact hu

/-- A call is made. -/
theorem make (h : Inv O init s a log) (op : ω) (hidle : s.place t = none) :
    Inv O init { s.goTo t ((O.start op).elim (.peeking op) .locking) with
      call := Function.update s.call t s.calls.length
      calls := s.calls ++ [{ op := op, start := s.clock }] } a log := by
  have hlt : ∀ u, s.place u ≠ none → s.call u < s.calls.length := by
    intro u hu
    obtain ⟨place, hplace⟩ := Option.ne_none_iff_exists'.mp hu
    obtain ⟨c, hc, -⟩ := h.calls u place hplace
    exact (List.getElem?_eq_some_iff.mp hc).1
  have hnew : ∀ e ∈ log, e.id ≠ s.calls.length := by
    intro e he heq
    obtain ⟨c, hc, -⟩ := h.logged.call e he
    rw [heq] at hc
    exact Nat.lt_irrefl _ (List.getElem?_eq_some_iff.mp hc).1
  have hholds : ((O.start op).elim (.peeking op) .locking : Place ω ρ π).holds = false := by
    cases O.start op <;> rfl
  refine ⟨(h.logged.made op s.clock).later (Nat.le_succ _), fun u => ?_, fun hnone => ?_,
    fun u place hu => ?_, fun u u' hu hu' heq => ?_⟩
  · refine (h.owner u).trans ?_
    rcases eq_or_ne u t with rfl | hne
    · simp [System.goTo, hidle, hholds]
    · simp [System.goTo, hne]
  · refine h.free fun u q hu => hnone u q ?_
    have hne : u ≠ t := by
      rintro rfl
      rw [hidle] at hu
      cases hu
    simpa [System.goTo, hne] using hu
  · rcases eq_or_ne u t with rfl | hne
    · simp only [System.goTo, Function.update_self, Option.mem_some_iff] at hu ⊢
      refine ⟨_, List.getElem?_concat_length, Nat.le_succ _, rfl, ?_⟩
      subst hu
      cases hstart : O.start op with
      | none => exact ⟨rfl, hstart, hnew⟩
      | some p => exact ⟨hstart, hnew⟩
    · simp only [System.goTo, Function.update_of_ne hne] at hu ⊢
      obtain ⟨c, hc, hstart, hgoes, hfits⟩ := h.calls u place hu
      refine ⟨c, ?_, Nat.le_succ_of_le hstart, hgoes, hfits⟩
      exact (List.getElem?_append_left (List.getElem?_eq_some_iff.mp hc).1).trans hc
  · rcases eq_or_ne u t with rfl | hne <;> rcases eq_or_ne u' u with rfl | hne'
    · rfl
    · simp only [System.goTo, Function.update_self, Function.update_of_ne hne'] at hu' heq
      exact absurd heq.symm (Nat.ne_of_lt (hlt u' hu'))
    · rfl
    · rcases eq_or_ne u' t with rfl | hne''
      · simp only [System.goTo, Function.update_self, Function.update_of_ne hne] at hu heq
        exact absurd heq (Nat.ne_of_lt (hlt u hu))
      · simp only [System.goTo, Function.update_of_ne hne, Function.update_of_ne hne''] at hu hu' heq
        exact h.own u u' hu hu' heq

/-- **Every step keeps the order of the calls.** -/
theorem step (h : Inv O init s a log) (hpeeks : O.Peeks) {op : Op τ ω}
    (hs : s.step O op = .ok s') : ∃ a' log', Inv O init s' a' log' := by
  cases op with
  | make t op =>
    simp only [System.step] at hs
    split at hs
    · rename_i hidle
      cases hs
      exact ⟨a, log, h.make op hidle⟩
    · cases hs
  | go t =>
    simp only [System.step] at hs
    split at hs
    · cases hs
    · rename_i p hpc
      split at hs
      · rename_i howner
        cases hs
        exact ⟨a, log, h.lock hpc howner⟩
      · cases hs
    · rename_i p hpc
      split at hs
      · rename_i object p' ha
        cases hs
        exact ⟨a, log, h.access hpc ha⟩
      · rename_i object ret ha
        cases hs
        exact ⟨object, h.takeEffect hpc ha⟩
    · rename_i ret hpc
      cases hs
      have howner : s.owner = some t := (h.owner t).mpr ⟨_, hpc, rfl⟩
      exact ⟨a, log, h.returns hpc (Or.inl rfl)
        (h.owner_update (Or.inr howner) (by simp) fun _ _ => nofun)⟩
    · rename_i op hpc
      cases hs
      exact ⟨a, h.peek hpeeks hpc⟩
    · rename_i ret hpc
      cases hs
      exact ⟨a, log, h.returns hpc (Or.inr rfl) (h.owner_keep hpc (by simp [Place.holds]))⟩

end Inv

/-- **An object behind a mutex is used as by one thread alone.** -/
theorem linearizable [DecidableEq τ] {O : Object ω ρ σ π} (hpeeks : O.Peeks) (init : σ)
    (ops : List (Op τ ω)) : Runs.Always (System.step O)
      (fun s => Linearizable O.Does init s.calls) { object := init } ops := by
  refine Runs.always_of_invariant (I := fun s => ∃ a log, Inv O init s a log) ?_ ?_ ?_ ops
  · rintro s op s' ⟨a, log, h⟩ hs
    exact h.step hpeeks hs
  · rintro s ⟨a, log, h⟩
    exact h.logged.linearizable
  · refine ⟨init, [], Logged.nil init, fun t => ?_, fun _ => rfl, nofun, fun _ _ hu => absurd rfl hu⟩
    simp

end Locked
