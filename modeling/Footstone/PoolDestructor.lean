import Footstone.Lib.While
import Footstone.MpmcListOrder
import Footstone.PoolOwners
import Mathlib.Data.List.NodupEquivFin
import Mathlib.Data.List.Perm.Subperm

/-!
`~pool` (`mpmc_list.h`), which deletes the nodes from `cursor_` on, and what becomes of the others:
the node in `el_`, those that were allocated and not freed, and with `mpmc_list` all that are still
in the list, which has no destructor of its own.
-/

namespace Footstone

namespace Pool

open While Linear

variable {α τ : Type} {L : Layout α} {p : Pool α} {pooled : Nat → Prop} {stack : List Nat}

/-- `curr`, and what was deleted. -/
structure Destructor where
  curr : Option Nat
  deleted : List Nat := []
  deriving DecidableEq

/-- The node was deleted before. -/
inductive Dangling where
  | node (a : Nat)
  deriving DecidableEq

/-- One round: `next_` is loaded from a node that is not deleted yet. -/
def deleteNext (L : Layout α) (p : Pool α) (d : Destructor) : Except Dangling Destructor :=
  match d.curr with
  | none => .ok d
  | some a =>
    if a ∈ d.deleted then .error (.node a)
    else .ok { curr := (p.link L a).ptr, deleted := d.deleted ++ [a] }

/-- `~pool`, with at most `rounds` rounds of its loop. -/
def destroy (L : Layout α) (rounds : Nat) (p : Pool α) : Option (Except Dangling Destructor) :=
  loop (fun d => d.curr.isSome) (deleteNext L p) rounds { curr := p.cursor.ptr }

/-- **The loop deletes what it meets**, each node once. -/
theorem loop_deletes {rest : List Nat} {d : Destructor} {rounds : Nat}
    (hpath : LinkedList.Path (fun a => (p.link L a).ptr) d.curr rest)
    (hnodup : (d.deleted ++ rest).Nodup) (hrounds : rest.length ≤ rounds) :
    loop (fun d => d.curr.isSome) (deleteNext L p) rounds d =
      some (.ok { curr := none, deleted := d.deleted ++ rest }) := by
  induction rest generalizing d rounds with
  | nil =>
    have hcurr : d.curr = none := hpath
    rw [loop_of_not (by rw [hcurr]; rfl), List.append_nil, ← hcurr]
  | cons a rest ih =>
    obtain ⟨hcurr, hrest⟩ := hpath
    cases rounds with
    | zero => cases hrounds
    | succ rounds =>
      have hnew : a ∉ d.deleted := fun ha =>
        (List.nodup_append.mp hnodup).2.2 a ha a List.mem_cons_self rfl
      have hround : deleteNext L p d =
          .ok { curr := (p.link L a).ptr, deleted := d.deleted ++ [a] } := by
        simp only [deleteNext, hcurr, if_neg hnew]
      have hsplit : d.deleted ++ a :: rest = d.deleted ++ [a] ++ rest := by simp
      rw [loop_round (by rw [hcurr]; rfl) hround, hsplit]
      rw [hsplit] at hnodup
      exact ih hrest hnodup (Nat.le_of_succ_le_succ hrounds)

theorem Wf.destroy (h : p.Wf L pooled stack) (hlt : ∀ a ∈ stack, a < p.size) :
    p.destroy L p.size = some (.ok { curr := none, deleted := stack }) := by
  have hsub : stack.Subperm (List.range p.size) :=
    h.path.nodup.subperm fun a ha => List.mem_range.mpr (hlt a ha)
  have hlen : stack.length ≤ p.size := by
    simpa only [List.length_range] using hsub.length_le
  exact loop_deletes h.path h.path.nodup hlen

namespace System

/-- What `~pool` deletes, if it is run now: what was freed and is not in `el_` or with a call that
is still to put it into the list. When no call is under way, it loses the other nodes. -/
structure Destroys (L : Layout α) (s : System τ α) (d : List Nat) : Prop where
  ends : s.pool.destroy L s.pool.size = some (.ok { curr := none, deleted := d })
  once : d.Nodup
  deleted : ∀ a, a ∈ d ↔ s.freed a = true ∧ s.pool.el ≠ some a ∧
    ∀ t pc, s.pc t = some (.free pc) → pc.node ≠ a
  lost : (∀ t, s.pc t = none) → ∀ a < s.pool.size,
    a ∉ d ↔ s.owner a ≠ none ∨ s.pool.el = some a

variable {s : System τ α} {place : Nat → Place τ}

theorem Inv.mem_stack (h : Inv L s place stack) (a : Nat) : a ∈ stack ↔
    s.freed a = true ∧ s.pool.el ≠ some a ∧ ∀ t pc, s.pc t = some (.free pc) → pc.node ≠ a := by
  constructor
  · intro ha
    have hplace := h.wf.stack_pooled a ha
    refine ⟨(h.freed a).mpr (Or.inl hplace), fun hel => (h.wf.el_pooled a hel).2 ha, ?_⟩
    rintro t pc hpc rfl
    have hhand := (h.held_iff hpc pc.node true).mpr rfl
    rw [hplace] at hhand
    cases hhand
  · rintro ⟨hfreed, hel, hhands⟩
    rcases (h.freed a).mp hfreed with hpool | ⟨t, hheld⟩
    · exact (h.wf.cover a hpool).resolve_left hel
    · obtain ⟨pc, hpc, hnode⟩ := h.hands_iff.mpr hheld
      exact absurd hnode (hhands t pc hpc)

theorem Inv.destroys (h : Inv L s place stack) : s.Destroys L stack where
  ends := by
    apply h.wf.destroy
    intro a ha
    apply Nat.not_le.mp
    intro hle
    have hplace := h.wf.stack_pooled a ha
    rw [(h.fresh a).mpr hle] at hplace
    cases hplace
  once := h.wf.path.nodup
  deleted := h.mem_stack
  lost hidle a ha := by
    obtain ⟨stack', -, -, -, hhome⟩ := h.oneOwner.acyclic
    rw [h.mem_stack a]
    constructor
    · intro hnot
      rcases h.oneOwner.made a ha with howner | hfreed | ⟨t, val, hpc⟩
      · exact Or.inl howner
      · right
        by_contra hel
        apply hnot
        refine ⟨hfreed, hel, fun t pc hpc => ?_⟩
        rw [hidle t] at hpc
        cases hpc
      · rw [hidle t] at hpc
        cases hpc
    · rintro (howner | hel) ⟨hfreed, hel', -⟩
      · obtain ⟨u, hu⟩ := Option.ne_none_iff_exists'.mp howner
        have hplace := (h.owned a u).mpr hu
        rcases (h.freed a).mp hfreed with hpool | ⟨t, hheld⟩
        · rw [hplace] at hpool
          cases hpool
        · rw [hplace] at hheld
          cases hheld
      · exact hel' hel

end System

/-- **`~pool` comes to an end and deletes each node of its list once**, in every state of every
run in which the tag of `cursor_` does not wrap during a call. It does not delete the node in
`el_`. -/
theorem pool_destructor [DecidableEq τ] (L : Layout α) {ops : List (Op τ α)}
    (hwrap : Runs.Meets (System.step L) System.NoWrap {} ops) :
    Runs.Always (System.step L) (fun s => ∃ d, s.Destroys L d) {} ops := by
  refine Runs.always_of_meets (A := fun _ => True)
    (I := fun s => ∃ place stack, System.Inv L s place stack) ?_ ?_ (fun _ _ => trivial)
    ⟨_, _, System.inv_new L⟩ hwrap
  · rintro s op s' - ⟨place, stack, h⟩ hc hs
    exact h.step hc hs
  · rintro s ⟨place, stack, h⟩
    exact ⟨stack, h.destroys⟩

/-- One node is in the list, one in `el_` and one with its owner. -/
theorem pool_destructor_reuse :
    Runs.Always (System.step links) (fun s => ∃ d, s.Destroys links d) {} (reuse ++
      .free true (some 0) :: goes true 5) :=
  pool_destructor links (by decide)

end Pool

namespace MpmcList

open Linear

variable {α τ : Type} {L : Layout α}

/-- What `~mpmc_list` leaves of the nodes that were made: those of the list, one of them without a
value, and the one in `el_`. -/
structure Leaks (L : Layout α) (q : Queue α) (items : List α) (d : List Nat) : Prop where
  ends : q.pool.destroy L q.pool.size = some (.ok { curr := none, deleted := d })
  once : d.Nodup
  count : q.pool.size = d.length + q.pool.el.toList.length + items.length + 1

variable {q : Queue α} {place : Nat → Place τ} {chain stack : List Nat} {items : List α}

theorem Shape.length_chain (h : Shape L q place chain stack items) :
    chain.length = items.length + 1 := by
  obtain ⟨a, rest, rfl, -, -⟩ := h.first
  have hlen := congrArg List.length h.data
  rw [List.length_map, List.length_map, List.tail_cons] at hlen
  rw [List.length_cons, hlen]

/-- Every node that was made is in one of the three places, if no call has one. -/
theorem Shape.perm_range (h : Shape L q place chain stack items) (hheld : ∀ t a, place a ≠ .held t) :
    (stack ++ q.pool.el.toList ++ chain).Perm (List.range q.pool.size) := by
  have hpool : ∀ a, place a = .pool ↔ a ∈ stack ++ q.pool.el.toList := by
    intro a
    rw [List.mem_append, Option.mem_toList]
    constructor
    · intro ha
      exact (h.pool.cover a ha).symm
    · rintro (ha | ha)
      · exact h.pool.stack_pooled a ha
      · exact (h.pool.el_pooled a ha).1
  have hel : q.pool.el.toList.Nodup := by
    cases q.pool.el <;> simp
  have hpooled : (stack ++ q.pool.el.toList).Nodup := by
    refine List.nodup_append.mpr ⟨h.pool.path.nodup, hel, ?_⟩
    rintro a ha b hb rfl
    exact (h.pool.el_pooled a (Option.mem_toList.mp hb)).2 ha
  have hall : (stack ++ q.pool.el.toList ++ chain).Nodup := by
    refine List.nodup_append.mpr ⟨hpooled, h.path.nodup, ?_⟩
    rintro a ha b hb rfl
    have hplace := (hpool a).mpr ha
    rw [(h.list a).mpr hb] at hplace
    cases hplace
  apply (List.perm_ext_iff_of_nodup hall List.nodup_range).mpr
  intro a
  rw [List.mem_append, ← hpool a, ← h.list a, List.mem_range, ← Nat.not_le, ← h.fresh a]
  cases hplace : place a with
  | held t => exact absurd hplace (hheld t a)
  | _ => simp

theorem Shape.leaks (h : Shape L q place chain stack items) (hheld : ∀ t a, place a ≠ .held t) :
    Leaks L q items stack where
  ends := h.pool.destroy fun a ha => h.lt_size (by rw [h.pool.stack_pooled a ha]; exact nofun)
  once := h.pool.path.nodup
  count := by
    have hlen := (h.perm_range hheld).length_eq
    rw [List.length_append, List.length_append, h.length_chain, List.length_range] at hlen
    omega

/-- **`~mpmc_list` leaks every value that was not popped**, and two more nodes at most: in every run
under the two conditions, whenever no call is under way. -/
theorem mpmcList_destructor [DecidableEq τ] [Inhabited α] (L : Layout α) {ops : List (Op τ α)}
    (hwrap : Runs.Meets (System.step L) System.NoWrap (System.new τ α) ops)
    (hlinked : Runs.Meets (System.step L) System.LinksLinked (System.new τ α) ops) :
    Runs.Always (System.step L) (fun s => (∀ t, s.pc t = none) →
        ∃ log items d, Logged Fifo [] s.calls s.clock log items ∧ Leaks L s.queue items d)
      (System.new τ α) ops := by
  refine (System.always_inv L hwrap hlinked).mono fun s hinv hidle => ?_
  obtain ⟨place, chain, stack, items, log, h⟩ := hinv
  refine ⟨log, items, stack, h.logged, h.shape.leaks fun t a ha => ?_⟩
  obtain ⟨pc, hpc, -⟩ := (h.held t a).mp ha
  rw [hidle t] at hpc
  cases hpc

/-- Of two values one is popped: its node, the first one, is in `el_`. -/
theorem mpmcList_destructor_popped :
    Runs.Always (System.step numbers) (fun s => (∀ t, s.pc t = none) →
        ∃ log items d, Logged Fifo [] s.calls s.clock log items ∧ Leaks numbers s.queue items d)
      (System.new Bool Nat)
      (.push false 10 :: goes false 10 ++ .push false 20 :: goes false 10 ++ .pop true :: goes true 7) :=
  mpmcList_destructor numbers (by decide) (by decide)

end MpmcList

end Footstone
