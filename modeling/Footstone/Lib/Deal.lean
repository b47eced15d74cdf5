import Mathlib.Data.List.Basic
import Mathlib.Data.List.Perm.Basic
import Mathlib.Data.List.Nodup
import Mathlib.Algebra.Order.Ring.Nat

/-!
Dealing a list of items out to places. A plan `target` names for the position of
each item the place that gets it, or none; `received` is what one place gets and
`unplaced` what nobody gets. `seat` is the plan of filling rooms one after the
other, where a room of negative size takes everything that is left.
-/

namespace Deal

variable {ω γ : Type*}

/-! ## What is left over -/

/-- The items that go nowhere. -/
def unplaced (target : Nat → Option ω) : List γ → List γ
  | [] => []
  | g :: gs => (if target 0 = none then [g] else []) ++ unplaced (fun k => target (k + 1)) gs

theorem mem_unplaced {target : Nat → Option ω} {gs : List γ} {g : γ} :
    g ∈ unplaced target gs ↔ ∃ k, gs[k]? = some g ∧ target k = none := by
  induction gs generalizing target with
  | nil => simp [unplaced]
  | cons x gs ih =>
    rw [unplaced, List.mem_append, ih]
    constructor
    · rintro (h | ⟨k, hk, ht⟩)
      · split at h
        · exact ⟨0, by simpa using (List.mem_singleton.mp h).symm, ‹_›⟩
        · cases h
      · exact ⟨k + 1, by simpa using hk, ht⟩
    · rintro ⟨k, hk, ht⟩
      cases k with
      | zero => exact Or.inl (by rw [if_pos ht]; simpa using hk.symm)
      | succ k => exact Or.inr ⟨k, by simpa using hk, ht⟩

theorem unplaced_eq_nil_iff {target : Nat → Option ω} {gs : List γ} :
    unplaced target gs = [] ↔ ∀ k, k < gs.length → target k ≠ none := by
  simp only [List.eq_nil_iff_forall_not_mem, mem_unplaced, not_exists, not_and]
  constructor
  · intro h k hk
    exact h gs[k] k (List.getElem?_eq_getElem hk)
  · intro h g k hk
    exact h k (List.getElem?_eq_some_iff.mp hk).1

/-! ## What goes where -/

/-- The items that go somewhere, in order, each with its place. -/
def dealt (target : Nat → Option ω) : List γ → List (γ × ω)
  | [] => []
  | g :: gs => (target 0).toList.map (g, ·) ++ dealt (fun k => target (k + 1)) gs

theorem mem_dealt {target : Nat → Option ω} {gs : List γ} {g : γ} {w : ω} :
    (g, w) ∈ dealt target gs ↔ ∃ k, gs[k]? = some g ∧ target k = some w := by
  induction gs generalizing target with
  | nil => simp [dealt]
  | cons x gs ih =>
    simp only [dealt, List.mem_append, List.mem_map, Option.mem_toList, Prod.mk.injEq, ih]
    constructor
    · rintro (⟨_, ht, rfl, rfl⟩ | ⟨k, hk, ht⟩)
      · exact ⟨0, rfl, ht⟩
      · exact ⟨k + 1, by simpa using hk, ht⟩
    · rintro ⟨k, hk, ht⟩
      cases k with
      | zero => exact Or.inl ⟨w, ht, by simpa using hk, rfl⟩
      | succ k => exact Or.inr ⟨k, by simpa using hk, ht⟩

theorem dealt_append (target : Nat → Option ω) (xs ys : List γ) :
    dealt target (xs ++ ys) = dealt target xs ++ dealt (fun k => target (k + xs.length)) ys := by
  induction xs generalizing target with
  | nil => rfl
  | cons x xs ih =>
    simp only [List.cons_append, dealt, ih, List.append_assoc, List.length_cons]
    have e : ∀ k, k + (xs.length + 1) = k + xs.length + 1 := fun k => by omega
    simp only [e]

/-- Only the plan for the positions that exist counts. -/
theorem dealt_congr {t u : Nat → Option ω} {gs : List γ} (h : ∀ k, k < gs.length → t k = u k) :
    dealt t gs = dealt u gs := by
  induction gs generalizing t u with
  | nil => rfl
  | cons g gs ih =>
    have h0 : t 0 = u 0 := h 0 (by simp)
    have hs : ∀ k, k < gs.length → t (k + 1) = u (k + 1) := fun k hk => h (k + 1) (by simpa using hk)
    simp only [dealt, h0, ih hs]

theorem dealt_const (x : ω) (gs : List γ) : dealt (fun _ => some x) gs = gs.map (·, x) := by
  induction gs with
  | nil => rfl
  | cons g gs ih => simp [dealt, ih]

theorem dealt_none (gs : List γ) : dealt (fun _ => (none : Option ω)) gs = [] := by
  induction gs with
  | nil => rfl
  | cons g gs ih => simp [dealt, ih]

section Received
variable [DecidableEq ω]

/-- What the place `w` gets, in order, when item `k` goes to `target k`. -/
def received (target : Nat → Option ω) (gs : List γ) (w : ω) : List γ :=
  ((dealt target gs).filter (·.2 = w)).map Prod.fst

@[simp] theorem received_nil (target : Nat → Option ω) (w : ω) :
    received target ([] : List γ) w = [] := rfl

theorem received_cons (target : Nat → Option ω) (g : γ) (gs : List γ) (w : ω) :
    received target (g :: gs) w =
      (if target 0 = some w then [g] else []) ++ received (fun k => target (k + 1)) gs w := by
  simp only [received, dealt, List.filter_append, List.map_append]
  congr 1
  cases target 0 with
  | none => simp
  | some x => by_cases h : x = w <;> simp [h]

theorem mem_received {target : Nat → Option ω} {gs : List γ} {w : ω} {g : γ} :
    g ∈ received target gs w ↔ ∃ k, gs[k]? = some g ∧ target k = some w := by
  simp only [received, List.mem_map, List.mem_filter, decide_eq_true_eq]
  constructor
  · rintro ⟨⟨_, _⟩, ⟨h, rfl⟩, rfl⟩
    exact mem_dealt.mp h
  · intro h
    exact ⟨(g, w), ⟨mem_dealt.mpr h, rfl⟩, rfl⟩

/-- One item put at one of several distinct places shows up there once. -/
theorem flatMap_single {ws : List ω} (hn : ws.Nodup) {x : ω} (hx : x ∈ ws) (g : γ) :
    (ws.flatMap fun w => if x = w then [g] else []) = [g] := by
  induction ws with
  | nil => simp at hx
  | cons w ws ih =>
    obtain ⟨hw, hn'⟩ := List.nodup_cons.mp hn
    rw [List.flatMap_cons]
    by_cases h : x = w
    · subst h
      have hz : (ws.flatMap fun w => if x = w then [g] else []) = [] := by
        rw [List.flatMap_eq_nil_iff]
        intro v hv
        rw [if_neg]
        rintro rfl
        exact hw hv
      simp [hz]
    · rcases List.mem_cons.mp hx with e | hx'
      · exact absurd e h
      · simp [h, ih hn' hx']

/-- **Dealing conserves.** What the places receive and what is left over make up
the items that were dealt. -/
theorem received_perm {ws : List ω} (hn : ws.Nodup) {target : Nat → Option ω} {gs : List γ}
    (ht : ∀ k, k < gs.length → ∀ w, target k = some w → w ∈ ws) :
    (ws.flatMap (received target gs) ++ unplaced target gs).Perm gs := by
  induction gs generalizing target with
  | nil => simp [unplaced]
  | cons g gs ih =>
    have hrest := @ih (fun k => target (k + 1))
      (fun k hk w hw => ht (k + 1) (by simpa using hk) w hw)
    have hsplit := (List.flatMap_append_perm ws (fun w => if target 0 = some w then [g] else [])
      (received (fun k => target (k + 1)) gs)).symm
    rw [show received target (g :: gs) = fun w => (if target 0 = some w then [g] else []) ++
      received (fun k => target (k + 1)) gs w from funext (received_cons target g gs)]
    cases h0 : target 0 with
    | none =>
      simp only [h0, reduceCtorEq, ↓reduceIte] at hsplit
      simp only [unplaced, h0, reduceCtorEq, ↓reduceIte, List.nil_append,
        List.singleton_append]
      exact List.perm_middle.trans (hrest.cons g)
    | some x =>
      have hx := ht 0 (by simp) x h0
      have e := flatMap_single hn hx g
      simp only [h0, Option.some.injEq, e] at hsplit
      simp only [unplaced, h0, reduceCtorEq, ↓reduceIte, List.nil_append,
        Option.some.injEq]
      exact (hsplit.append_right _).trans (by simpa using hrest.cons g)

end Received

/-! ## Rooms filled one after the other -/

/-- The place that item `k` falls to: rooms are filled in order, and one with a
negative number of seats takes all that is left. -/
def seat : List (ω × Int) → Nat → Option ω
  | [], _ => none
  | (w, c) :: rooms, k => if c < 0 ∨ (k : Int) < c then some w else seat rooms (k - c.toNat)

theorem seat_mem {rooms : List (ω × Int)} {k : Nat} {w : ω} (h : seat rooms k = some w) :
    w ∈ rooms.map Prod.fst := by
  induction rooms generalizing k with
  | nil => simp [seat] at h
  | cons r rooms ih =>
    obtain ⟨x, c⟩ := r
    simp only [seat] at h
    split at h
    · cases h; simp
    · exact List.mem_cons_of_mem _ (ih h)

theorem seat_ne_none {rooms : List (ω × Int)} (h : ∃ r ∈ rooms, r.2 < 0) (k : Nat) :
    seat rooms k ≠ none := by
  induction rooms generalizing k with
  | nil => simp at h
  | cons r rooms ih =>
    obtain ⟨x, c⟩ := r
    simp only [seat]
    split
    · simp
    · rename_i hc
      obtain ⟨r, hr, hneg⟩ := h
      rcases List.mem_cons.mp hr with rfl | hr'
      · exact absurd (Or.inl hneg) hc
      · exact ih ⟨r, hr', hneg⟩ _

theorem seat_eq_none {rooms : List (ω × Int)} (h : ∀ r ∈ rooms, r.2 = 0) (k : Nat) :
    seat rooms k = none := by
  induction rooms generalizing k with
  | nil => rfl
  | cons r rooms ih =>
    obtain ⟨x, c⟩ := r
    have hc : c = 0 := h (x, c) List.mem_cons_self
    simp only [seat, hc]
    rw [if_neg (by omega)]
    exact ih (fun r hr => h r (List.mem_cons_of_mem _ hr)) _

/-- What goes into a room of `c` seats, and what is left. -/
def fill (c : Int) (gs : List γ) : List γ × List γ :=
  if 0 ≤ c ∧ c < gs.length then gs.splitAt c.toNat else (gs, [])

theorem dealt_seat_cons (w : ω) (c : Int) (rooms : List (ω × Int)) (gs : List γ) :
    dealt (seat ((w, c) :: rooms)) gs =
      (fill c gs).1.map (·, w) ++ dealt (seat rooms) (fill c gs).2 := by
  unfold fill
  split
  · rename_i h
    have hlen : (gs.take c.toNat).length = c.toNat := by rw [List.length_take]; omega
    conv_lhs => rw [← List.take_append_drop c.toNat gs]
    rw [dealt_append, List.splitAt_eq, ← dealt_const]
    congr 1
    · refine dealt_congr fun k hk => ?_
      rw [hlen] at hk
      rw [seat, if_pos (by omega)]
    · refine dealt_congr fun k _ => ?_
      rw [hlen, seat, if_neg (by omega)]
      congr 1
      omega
  · rename_i h
    rw [← dealt_const]
    simp only [dealt, List.append_nil]
    refine dealt_congr fun k hk => ?_
    rw [seat, if_pos (by omega)]

theorem received_seat_cons [DecidableEq ω] (w : ω) (c : Int) (rooms : List (ω × Int)) (gs : List γ)
    (v : ω) : received (seat ((w, c) :: rooms)) gs v =
      (if w = v then (fill c gs).1 else []) ++ received (seat rooms) (fill c gs).2 v := by
  simp only [received, dealt_seat_cons, List.filter_append, List.map_append, List.filter_map]
  congr 1
  by_cases h : w = v
  · subst h
    rw [if_pos rfl, List.filter_eq_self.mpr (by simp)]
    simp [Function.comp_def]
  · rw [if_neg h, List.filter_eq_nil_iff.mpr (by simp [h]), List.map_nil, List.map_nil]

/-! ## Filling up to a quota -/

/-- Rooms that fill the places up to `quota`, when they have `base` items already. -/
def level (quota : Nat) (base : ω → Nat) (ws : List ω) : List (ω × Int) :=
  ws.map fun w => (w, (quota : Int) - base w)

theorem level_fst {quota : Nat} {base : ω → Nat} (ws : List ω) :
    (level quota base ws).map Prod.fst = ws := by
  simp [level, Function.comp_def]

theorem level_nonneg {quota : Nat} {base : ω → Nat} {ws : List ω} (h : ∀ w ∈ ws, base w ≤ quota) :
    ∀ room ∈ level quota base ws, 0 ≤ room.2 := by
  intro room hroom
  obtain ⟨w, hw, rfl⟩ := List.mem_map.mp hroom
  have := h w hw
  dsimp only
  omega

theorem level_seats {quota : Nat} {base : ω → Nat} {ws : List ω} (h : ∀ w ∈ ws, base w ≤ quota) :
    ((level quota base ws).map fun room => room.2.toNat).sum + (ws.map base).sum =
      ws.length * quota := by
  induction ws with
  | nil => simp [level]
  | cons w ws ih =>
    obtain ⟨hw, hws⟩ := List.forall_mem_cons.mp h
    have hrest := ih hws
    have hroom : ((quota : Int) - base w).toNat + base w = quota := by omega
    simp only [level, List.map_cons, List.sum_cons, List.length_cons, Nat.add_mul] at hrest ⊢
    omega

/-! ## How much each room gets -/

theorem fill_of_nonneg {c : Int} (h : 0 ≤ c) (gs : List γ) :
    fill c gs = (gs.take c.toNat, gs.drop c.toNat) := by
  unfold fill
  split
  · rw [List.splitAt_eq]
  · rw [List.take_of_length_le (by omega), List.drop_of_length_le (by omega)]

theorem fill_of_neg {c : Int} (h : c < 0) (gs : List γ) : fill c gs = (gs, []) := by
  rw [fill, if_neg (by omega)]

section Received
variable [DecidableEq ω]

theorem received_of_not_mem {rooms : List (ω × Int)} {v : ω} (h : v ∉ rooms.map Prod.fst)
    (gs : List γ) : received (seat rooms) gs v = [] := by
  refine List.eq_nil_iff_forall_not_mem.mpr fun g hg => ?_
  obtain ⟨k, -, hk⟩ := mem_received.mp hg
  exact h (seat_mem hk)

/-- A room of negative size takes everything. -/
theorem received_seat_neg {c : Int} (h : c < 0) (w : ω) (rooms : List (ω × Int)) (gs : List γ)
    (v : ω) : received (seat ((w, c) :: rooms)) gs v = if w = v then gs else [] := by
  rw [received_seat_cons, fill_of_neg h, received_nil, List.append_nil]

/-- Rooms that are not negative take what they have seats for, and pass on the rest. -/
theorem received_seat_append {rooms : List (ω × Int)} (h : ∀ room ∈ rooms, 0 ≤ room.2)
    (rest : List (ω × Int)) (gs : List γ) (v : ω) :
    received (seat (rooms ++ rest)) gs v = received (seat rooms) gs v ++
      received (seat rest) (gs.drop (rooms.map fun room => room.2.toNat).sum) v := by
  induction rooms generalizing gs with
  | nil =>
    have hnil : received (seat ([] : List (ω × Int))) gs v = [] := received_of_not_mem (by simp) gs
    simp [hnil]
  | cons room rooms ih =>
    obtain ⟨w, c⟩ := room
    obtain ⟨hc, hrooms⟩ := List.forall_mem_cons.mp h
    rw [List.cons_append, received_seat_cons, received_seat_cons, fill_of_nonneg hc, ih hrooms,
      List.drop_drop, List.append_assoc]
    simp only [List.map_cons, List.sum_cons]

/-- No room that is not negative gets more than it has seats for. -/
theorem received_length_le {rooms : List (ω × Int)} (hn : (rooms.map Prod.fst).Nodup)
    (h : ∀ room ∈ rooms, 0 ≤ room.2) {v : ω} {c : Int} (hv : (v, c) ∈ rooms) (gs : List γ) :
    (received (seat rooms) gs v).length ≤ c.toNat := by
  induction rooms generalizing gs with
  | nil => cases hv
  | cons room rooms ih =>
    obtain ⟨w, d⟩ := room
    obtain ⟨hd, hrooms⟩ := List.forall_mem_cons.mp h
    obtain ⟨hw, hn'⟩ := List.nodup_cons.mp hn
    rw [received_seat_cons, fill_of_nonneg hd]
    rcases List.mem_cons.mp hv with he | hv
    · cases he
      rw [received_of_not_mem hw, if_pos rfl, List.append_nil, List.length_take]
      exact Nat.min_le_left _ _
    · have hne : w ≠ v := fun e => hw (List.mem_map.mpr ⟨(v, c), hv, e.symm⟩)
      rw [if_neg hne, List.nil_append]
      exact ih hn' hrooms hv _

/-- Where nobody is above the quota, nobody gets above it. -/
theorem level_within {quota : Nat} {base : ω → Nat} {ws : List ω} (hn : ws.Nodup)
    (h : ∀ w ∈ ws, base w ≤ quota) {w : ω} (hw : w ∈ ws) (gs : List γ) :
    base w + (received (seat (level quota base ws)) gs w).length ≤ quota := by
  have hlen := received_length_le (by rwa [level_fst]) (level_nonneg h)
    (List.mem_map.mpr ⟨w, hw, rfl⟩) gs
  have := h w hw
  unfold level at hlen ⊢
  omega

/-- The first place above the quota gets what the places before it have no room for,
and those behind it get nothing. -/
theorem level_above {quota : Nat} {base : ω → Nat} {pre post : List ω} {w₀ : ω}
    (h : ∀ w ∈ pre, base w ≤ quota) (hw₀ : quota < base w₀) (gs : List γ) (v : ω) :
    received (seat (level quota base (pre ++ w₀ :: post))) gs v =
      received (seat (level quota base pre)) gs v ++
        if w₀ = v then
          gs.drop ((level quota base pre).map fun room => room.2.toNat).sum
        else [] := by
  have hneg : (quota : Int) - base w₀ < 0 := by omega
  have hsplit : level quota base (pre ++ w₀ :: post) =
      level quota base pre ++ (w₀, (quota : Int) - base w₀) :: level quota base post := by
    simp [level]
  rw [hsplit, received_seat_append (level_nonneg h), received_seat_neg hneg]

end Received

end Deal
