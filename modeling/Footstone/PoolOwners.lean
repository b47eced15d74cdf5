import Footstone.Lib.Runs
import Footstone.Pool

/-!
Who has the nodes of a `pool` that any number of threads use. A thread frees what it owns;
objects are written while somebody owns them, and those are the bytes that a stalled `alloc`
may read as a link. As long as the tag of `cursor_` does not wrap during a call, every node
that was freed is in one place until it is allocated again.
-/

namespace Footstone

namespace Pool

variable {α τ : Type}

/-! ## The threads -/

/-- The next access of a thread that is in a call. -/
inductive Pc (α : Type) where
  | alloc (val : α) (pc : AllocPc)
  /-- The object is constructed, and `alloc` returns it. -/
  | construct (val : α) (p : Nat)
  | free (pc : FreePc)

/-- The pool and its threads. The last two fields are not in the source. -/
structure System (τ α : Type) where
  pool : Pool α := {}
  pc : τ → Option (Pc α) := fun _ => none
  /-- Who was given a node, and has not freed it. -/
  owner : Nat → Option τ := fun _ => none
  /-- The nodes that were freed and not taken out of the pool since. -/
  freed : Nat → Bool := fun _ => false

inductive Op (τ α : Type) where
  | alloc (t : τ) (val : α)
  | free (t : τ) (p? : Option Nat)
  | access (t : τ) (ok : Bool)
  /-- A write to an object that somebody owns. -/
  | write (p : Nat) (val : α)
  /-- An object gets another owner. -/
  | give (p : Nat) (t : τ)

/-- Why a step is none: the thread is in a call, it is in none, or the node is not its own. -/
inductive Fault where
  | busy
  | idle
  | notOwned

namespace System

def step [DecidableEq τ] (L : Layout α) (s : System τ α) : Op τ α → Except Fault (System τ α)
  | .alloc t val =>
    match s.pc t with
    | none => .ok { s with pc := Function.update s.pc t (some (.alloc val .exchange)) }
    | some _ => .error .busy
  | .free t p? =>
    match s.pc t, p? with
    | none, none => .ok s
    | none, some p =>
      if s.owner p = some t then .ok { s with
        pc := Function.update s.pc t (some (.free (.exchange p)))
        owner := Function.update s.owner p none
        freed := Function.update s.freed p true }
      else .error .notOwned
    | some _, _ => .error .busy
  | .access t ok =>
    match s.pc t with
    | none => .error .idle
    | some (.alloc val pc) =>
      match s.pool.alloc L ok pc with
      | (pool, .inl pc) => .ok { s with
          pool := pool, pc := Function.update s.pc t (some (.alloc val pc)) }
      | (pool, .inr p) => .ok { s with
          pool := pool
          pc := Function.update s.pc t (some (.construct val p))
          freed := Function.update s.freed p false }
    | some (.construct val p) => .ok { s with
        pool := s.pool.setSlot p (.data val)
        pc := Function.update s.pc t none
        owner := Function.update s.owner p (some t) }
    | some (.free pc) =>
      let (pool, pc?) := s.pool.free L ok pc
      .ok { s with pool := pool, pc := Function.update s.pc t (pc?.map .free) }
  | .write p val =>
    if s.owner p ≠ none then .ok { s with pool := s.pool.setSlot p (.data val) }
    else .error .notOwned
  | .give p t =>
    if s.owner p ≠ none then .ok { s with owner := Function.update s.owner p (some t) }
    else .error .notOwned

end System

/-- The tagged pointer that a call has read from `cursor_` and still uses. -/
def Pc.seen? : Pc α → Option Tagged
  | .alloc _ pc => pc.seen?
  | .construct _ _ => none
  | .free pc => pc.seen?

namespace System

/-- The tag of `cursor_` has not wrapped while the call that takes the step holds a copy of it. -/
def NoWrap (s : System τ α) : Op τ α → Prop
  | .access t _ => ∀ pc ∈ s.pc t, ∀ old ∈ pc.seen?, s.pool.cursor.Near old
  | _ => True

instance (s : System τ α) : DecidablePred s.NoWrap
  | .access t _ => inferInstanceAs
      (Decidable (∀ pc ∈ s.pc t, ∀ old ∈ pc.seen?, s.pool.cursor.Near old))
  | .alloc .. | .free .. | .write .. | .give .. => isTrue trivial

end System

/-- Where a node can be that was freed and not allocated again. -/
inductive Home (τ : Type) where
  | el
  | list
  | hands (t : τ)

namespace System

/-- The node is there, if the list from `cursor_` is `stack`. -/
def At (s : System τ α) (stack : List Nat) (a : Nat) : Home τ → Prop
  | .el => s.pool.el = some a
  | .list => a ∈ stack
  | .hands t => ∃ pc, s.pc t = some (.free pc) ∧ pc.node = a

/-- Nodes have one owner, or are in one place. -/
structure OneOwner (L : Layout α) (s : System τ α) : Prop where
  /-- What `alloc` is about to return is nobody's, and no other call will return it. -/
  alone : ∀ t val a, s.pc t = some (.construct val a) → s.owner a = none ∧
    ∀ t' val', s.pc t' = some (.construct val' a) → t' = t
  /-- The list from `cursor_` comes to an end, and meets no node twice. -/
  acyclic : ∃ stack, LinkedList.Path (fun a => (s.pool.link L a).ptr) s.pool.cursor.ptr stack ∧
    stack.Nodup ∧ (∀ a, s.freed a = true → ∃! home, s.At stack a home) ∧
    ∀ a, s.owner a ≠ none → ∀ home, ¬ s.At stack a home
  /-- No node is lost. -/
  made : ∀ a < s.pool.size, s.owner a ≠ none ∨ s.freed a = true ∨
    ∃ t val, s.pc t = some (.construct val a)

end System

/-! ## Where the nodes are -/

/-- `held` is by a call, which is to put the node into the pool or has got it from there. -/
inductive Place (τ : Type) where
  | fresh
  | pool
  | held (t : τ) (freeing : Bool)
  | owned (t : τ)

/-- The node that a call has, and whether it is to put it into the pool. -/
def Pc.hand? : Pc α → Option (Nat × Bool)
  | .alloc _ _ => none
  | .construct _ p => some (p, false)
  | .free pc => some (pc.node, true)

/-- What a node's home says of its place. -/
def Home.place : Home τ → Place τ
  | .el | .list => .pool
  | .hands t => .held t true

/-- What a thread in a call knows. -/
def Fits (L : Layout α) (p : Pool α) : Pc α → Prop
  | .alloc _ pc => p.AllocFits L pc
  | .construct _ _ => True
  | .free pc => p.FreeFits L pc

namespace System

/-- Every node is in its place, with the list from `cursor_` in `stack`. -/
structure Inv (L : Layout α) (s : System τ α) (place : Nat → Place τ)
    (stack : List Nat) : Prop where
  wf : s.pool.Wf L (fun a => place a = .pool) stack
  fresh : ∀ a, place a = .fresh ↔ s.pool.size ≤ a
  owned : ∀ a t, place a = .owned t ↔ s.owner a = some t
  held : ∀ a t b, place a = .held t b ↔ ∃ pc ∈ s.pc t, pc.hand? = some (a, b)
  freed : ∀ a, s.freed a = true ↔ place a = .pool ∨ ∃ t, place a = .held t true
  fits : ∀ t, ∀ pc ∈ s.pc t, Fits L s.pool pc

variable {L : Layout α} {s s' : System τ α} {place place' : Nat → Place τ} {stack stack' : List Nat}
  {t : τ} {pool : Pool α}

theorem inv_new (L : Layout α) : Inv L ({} : System τ α) (fun _ => .fresh) [] where
  wf := ⟨rfl, nofun, nofun, nofun⟩
  fresh a := iff_of_true rfl (Nat.zero_le a)
  owned _ _ := iff_of_false nofun nofun
  held _ _ _ := iff_of_false nofun nofun
  freed _ := iff_of_false nofun nofun
  fits := nofun

/-- **What a thread knows, it knows after a step that writes to no node of the pool** and to
none that the thread is freeing. -/
theorem Inv.fits_frame (h : Inv L s place stack) (hs : s.pool.cursor.Steps pool.cursor)
    (hslot : ∀ a, place a = .pool ∨ place a = .held t true → pool.slot a = s.pool.slot a)
    {pc : Pc α} (hpc : s.pc t = some pc) : Fits L pool pc := by
  have hfits := h.fits t pc hpc
  cases pc with
  | alloc val pc =>
    apply Pool.AllocFits.frame hfits hs
    exact fun a ha => hslot a (Or.inl (h.wf.cursor_pooled ha))
  | construct val p => trivial
  | free pc =>
    apply Pool.FreeFits.frame hfits hs
    exact hslot _ (Or.inr ((h.held _ _ _).mpr ⟨_, hpc, rfl⟩))

/-- A step of the thread `t` that leaves the nodes of the pool and those of the other calls
alone. -/
theorem Inv.moved [DecidableEq τ] (h : Inv L s place stack) {pc? : Option (Pc α)}
    {owner : Nat → Option τ} {freed : Nat → Bool}
    (hwf : pool.Wf L (fun a => place' a = .pool) stack')
    (hsteps : s.pool.cursor.Steps pool.cursor)
    (hslot : ∀ a, (∀ b, place a ≠ .held t b) → (∀ t', place a ≠ .owned t') →
      pool.slot a = s.pool.slot a)
    (hfresh : ∀ a, place' a = .fresh ↔ pool.size ≤ a)
    (howned : ∀ a u, place' a = .owned u ↔ owner a = some u)
    (hother : ∀ a, ∀ t' ≠ t, ∀ b, place' a = .held t' b ↔ place a = .held t' b)
    (hheld : ∀ a b, place' a = .held t b ↔ ∃ pc ∈ pc?, pc.hand? = some (a, b))
    (hfreed : ∀ a, freed a = true ↔ place' a = .pool ∨ ∃ t, place' a = .held t true)
    (hfits : ∀ pc ∈ pc?, Fits L pool pc) :
    Inv L { pool := pool, pc := Function.update s.pc t pc?, owner := owner, freed := freed }
      place' stack' where
  wf := hwf
  fresh := hfresh
  owned := howned
  held a u b := by
    rcases eq_or_ne u t with rfl | hne
    · simpa only [Function.update_self] using hheld a b
    · simpa only [Function.update_of_ne hne] using (hother a u hne b).trans (h.held a u b)
  freed := hfreed
  fits u pc hpc := by
    rcases eq_or_ne u t with rfl | hne
    · simp only [Function.update_self] at hpc
      exact hfits pc hpc
    · simp only [Function.update_of_ne hne] at hpc
      apply h.fits_frame hsteps (fun a ha => ?_) hpc
      apply hslot a
      · rintro b hb
        rcases ha with ha | ha
        · rw [ha] at hb
          cases hb
        · rw [ha] at hb
          cases hb
          exact hne rfl
      · rintro t' ht'
        rcases ha with ha | ha <;> rw [ha] at ht' <;> cases ht'

theorem Inv.held_iff (h : Inv L s place stack) {pc : Pc α} (hpc : s.pc t = some pc) (a : Nat)
    (b : Bool) : place a = .held t b ↔ pc.hand? = some (a, b) := by
  rw [h.held a t b, hpc]
  simp

/-- A thread that is in no call, or in one without a node, holds none. -/
theorem Inv.held_none (h : Inv L s place stack) (ht : ∀ pc ∈ s.pc t, pc.hand? = none) (a : Nat)
    (b : Bool) : place a ≠ .held t b := by
  rintro ha
  obtain ⟨pc, hpc, hab⟩ := (h.held a t b).mp ha
  rw [ht pc hpc] at hab
  cases hab

theorem place_iff {p : Nat} {x y z : Place τ} (hp : place p = x) (hx : x ≠ z) (hy : y ≠ z)
    (a : Nat) : Function.update place p y a = z ↔ place a = z :=
  update_iff (hp ▸ hx) hy a

variable [DecidableEq τ]

/-- A call begins, or goes on without a node. -/
theorem Inv.goOn (h : Inv L s place stack) {pc : Pc α} (hnone : ∀ a b, place a ≠ .held t b)
    (hhand : pc.hand? = none) (hfits : Fits L s.pool pc) :
    Inv L { s with pc := Function.update s.pc t (some pc) } place stack := by
  refine h.moved h.wf (Tagged.steps_refl _) (fun _ _ _ => rfl) h.fresh h.owned
    (fun _ _ _ _ => Iff.rfl) (fun a b => iff_of_false (hnone a b) ?_) h.freed ?_
  · rintro ⟨_, ⟨⟩, hab⟩
    rw [hhand] at hab
    cases hab
  · rintro _ ⟨⟩
    exact hfits

/-- `free` is called. -/
theorem Inv.callFree (h : Inv L s place stack) {p : Nat} (ht : s.pc t = none)
    (hp : s.owner p = some t) : Inv L { s with
      pc := Function.update s.pc t (some (.free (.exchange p)))
      owner := Function.update s.owner p none
      freed := Function.update s.freed p true } (Function.update place p (.held t true)) stack := by
  have hplace := (h.owned p t).mpr hp
  have hnone := h.held_none (t := t) (by rw [ht]; exact nofun)
  refine h.moved (h.wf.congr fun a => (place_iff hplace (by simp) (by simp) a).symm)
    (Tagged.steps_refl _) (fun _ _ _ => rfl)
    (fun a => (place_iff hplace (by simp) (by simp) a).trans (h.fresh a)) (fun a u => ?_)
    (fun a t' hne b => place_iff hplace (by simp) (by simp [hne.symm]) a) (fun a b => ?_)
    (fun a => ?_) ?_
  · rcases eq_or_ne a p with rfl | ha
    · simp
    · simpa [ha] using h.owned a u
  · rcases eq_or_ne a p with rfl | ha
    · simp [Pc.hand?, FreePc.node]
    · simpa [ha, Pc.hand?, FreePc.node, ha.symm] using hnone a b
  · rcases eq_or_ne a p with rfl | ha
    · simp
    · simpa [ha] using h.freed a
  · rintro _ ⟨⟩
    trivial

/-- A node is taken out of the pool, or made, for a call of `alloc`. -/
theorem Inv.take (h : Inv L s place stack) {val : α} {a : Nat} (ht : ∀ b c, place b ≠ .held t c)
    (hwf : pool.Wf L (fun b => place b = .pool ∧ b ≠ a) stack')
    (hsteps : s.pool.cursor.Steps pool.cursor) (hslot : pool.slot = s.pool.slot)
    (ha : (place a = .pool ∧ pool.size = s.pool.size) ∨
      (a = s.pool.size ∧ pool.size = s.pool.size + 1)) : Inv L { s with
        pool := pool
        pc := Function.update s.pc t (some (.construct val a))
        freed := Function.update s.freed a false }
      (Function.update place a (.held t false)) stack' := by
  have hold : ∀ y : Place τ, .pool ≠ y → .fresh ≠ y → place a ≠ y := by
    rintro y hpool hfresh rfl
    rcases ha with ⟨ha, -⟩ | ⟨rfl, -⟩
    · exact hpool ha.symm
    · exact hfresh ((h.fresh _).mpr (Nat.le_refl _)).symm
  refine h.moved (hwf.congr fun b => ?_) hsteps (fun b _ _ => by rw [hslot]) (fun b => ?_)
    (fun b u => ?_) (fun b t' hne c => ?_) (fun b c => ?_) (fun b => ?_) ?_
  · rcases eq_or_ne b a with rfl | hb
    · simp
    · simp [hb]
  · rcases ha with ⟨hpool, hsize⟩ | ⟨rfl, hsize⟩
    · rw [hsize]
      exact (place_iff hpool (by simp) (by simp) b).trans (h.fresh b)
    · rw [hsize]
      rcases eq_or_ne b s.pool.size with rfl | hb
      · simp
      · rw [Function.update_of_ne hb, h.fresh b]
        omega
  · exact (update_iff (hold _ (by simp) (by simp)) (by simp) b).trans (h.owned b u)
  · exact update_iff (hold _ (by simp) (by simp)) (by simp [hne.symm]) b
  · rcases eq_or_ne b a with rfl | hb
    · simp [Pc.hand?]
    · simpa [hb, Pc.hand?, hb.symm] using ht b c
  · rcases eq_or_ne b a with rfl | hb
    · simp
    · simpa [hb] using h.freed b
  · rintro _ ⟨⟩
    trivial

/-- The object is constructed, and its node has an owner. -/
theorem Inv.construct (h : Inv L s place stack) {val : α} {p : Nat}
    (ht : s.pc t = some (.construct val p)) : Inv L { s with
      pool := s.pool.setSlot p (.data val)
      pc := Function.update s.pc t none
      owner := Function.update s.owner p (some t) } (Function.update place p (.owned t)) stack := by
  have hheld := h.held_iff ht
  have hplace := (hheld p false).mpr rfl
  refine h.moved ((h.wf.setSlot (by simp [hplace]) _).congr fun a =>
      (place_iff hplace (by simp) (by simp) a).symm) (Tagged.steps_refl _)
    (fun a ha _ => Function.update_of_ne ?_ _ _)
    (fun a => (place_iff hplace (by simp) (by simp) a).trans (h.fresh a)) (fun a u => ?_)
    (fun a t' hne b => place_iff hplace (by simp [hne.symm]) (by simp) a) (fun a b => ?_)
    (fun a => ?_) nofun
  · rintro rfl
    exact ha false hplace
  · rcases eq_or_ne a p with rfl | ha
    · simp
    · simpa [ha] using h.owned a u
  · rcases eq_or_ne a p with rfl | ha
    · simp
    · simpa [ha, ha.symm, Pc.hand?] using hheld a b
  · rw [h.freed a, place_iff hplace (by simp) (by simp)]
    apply or_congr_right
    apply exists_congr
    intro u
    exact (place_iff hplace (by simp) (by simp) a).symm

/-- A call of `free` has put its node into the pool and returns. -/
theorem Inv.endFree (h : Inv L s place stack) {pc : FreePc} (ht : s.pc t = some (.free pc))
    (hwf : pool.Wf L (fun b => place b = .pool ∨ b = pc.node) stack')
    (hsteps : s.pool.cursor.Steps pool.cursor)
    (hslot : ∀ b, b ≠ pc.node → pool.slot b = s.pool.slot b) (hsize : pool.size = s.pool.size) :
    Inv L { s with pool := pool, pc := Function.update s.pc t none }
      (Function.update place pc.node .pool) stack' := by
  have hheld := h.held_iff ht
  have hplace := (hheld pc.node true).mpr rfl
  refine h.moved (hwf.congr fun a => ?_) hsteps (fun a ha _ => hslot a ?_) (fun a => ?_)
    (fun a u => (place_iff hplace (by simp) (by simp) a).trans (h.owned a u))
    (fun a t' hne b => place_iff hplace (by simp [hne.symm]) (by simp) a) (fun a b => ?_)
    (fun a => ?_) nofun
  · rcases eq_or_ne a pc.node with rfl | ha
    · simp
    · simp [ha]
  · rintro rfl
    exact ha true hplace
  · rw [hsize]
    exact (place_iff hplace (by simp) (by simp) a).trans (h.fresh a)
  · rcases eq_or_ne a pc.node with rfl | ha
    · simp
    · simpa [ha, ha.symm, Pc.hand?] using hheld a b
  · rcases eq_or_ne a pc.node with rfl | ha
    · simpa using (h.freed _).mpr (Or.inr ⟨t, hplace⟩)
    · simpa [ha] using h.freed a

/-- Or it goes on, with its node or with the one that was in `el_`. -/
theorem Inv.goOnFree (h : Inv L s place stack) {pc pc' : FreePc} (ht : s.pc t = some (.free pc))
    (hwf : pool.Wf L (fun b => (place b = .pool ∨ b = pc.node) ∧ b ≠ pc'.node) stack')
    (hnode : pc'.node = pc.node ∨ place pc'.node = .pool) (hfits : pool.FreeFits L pc')
    (hsteps : s.pool.cursor.Steps pool.cursor)
    (hslot : ∀ b, b ≠ pc.node → pool.slot b = s.pool.slot b) (hsize : pool.size = s.pool.size) :
    Inv L { s with pool := pool, pc := Function.update s.pc t (some (.free pc')) }
      (Function.update (Function.update place pc.node .pool) pc'.node (.held t true)) stack' := by
  have hheld := h.held_iff ht
  have hplace := (hheld pc.node true).mpr rfl
  have hpool : Function.update place pc.node .pool pc'.node = .pool := by
    rcases eq_or_ne pc'.node pc.node with heq | hne
    · rw [heq, Function.update_self]
    · rw [Function.update_of_ne hne]
      exact hnode.resolve_left hne
  have hsame : ∀ a (x : Place τ), .pool ≠ x → .held t true ≠ x →
      (Function.update (Function.update place pc.node .pool) pc'.node (.held t true) a = x ↔
        place a = x) := fun a x hx hx' =>
    (place_iff hpool hx hx' a).trans (place_iff hplace hx' hx a)
  refine h.moved (hwf.congr fun a => ?_) hsteps (fun a ha _ => hslot a ?_) (fun a => ?_)
    (fun a u => (hsame a _ (by simp) (by simp)).trans (h.owned a u))
    (fun a t' hne b => hsame a _ (by simp) (by simp [hne.symm])) (fun a b => ?_) (fun a => ?_) ?_
  · rcases eq_or_ne a pc'.node with rfl | ha'
    · simp
    · rcases eq_or_ne a pc.node with rfl | ha
      · simp [ha']
      · simp [ha, ha']
  · rintro rfl
    exact ha true hplace
  · rw [hsize]
    exact (hsame a _ (by simp) (by simp)).trans (h.fresh a)
  · rcases eq_or_ne a pc'.node with rfl | ha'
    · simp [Pc.hand?]
    · rcases eq_or_ne a pc.node with rfl | ha
      · simp [ha', Pc.hand?, ha'.symm]
      · simpa [ha, ha', Pc.hand?, ha.symm, ha'.symm] using hheld a b
  · rcases eq_or_ne a pc'.node with rfl | ha'
    · have hfreed : s.freed pc'.node = true := by
        rw [h.freed]
        rcases hnode with heq | hp
        · exact Or.inr ⟨t, heq ▸ hplace⟩
        · exact Or.inl hp
      simpa using hfreed
    · rcases eq_or_ne a pc.node with rfl | ha
      · simpa [ha'] using (h.freed _).mpr (Or.inr ⟨t, hplace⟩)
      · simpa [ha, ha'] using h.freed a
  · rintro _ ⟨⟩
    exact hfits

omit [DecidableEq τ] in
/-- An object is written while somebody owns it. -/
theorem Inv.write (h : Inv L s place stack) {p : Nat} (hp : s.owner p ≠ none) (val : α) :
    Inv L { s with pool := s.pool.setSlot p (.data val) } place stack := by
  obtain ⟨u, hu⟩ := Option.ne_none_iff_exists'.mp hp
  have hplace := (h.owned p u).mpr hu
  refine { h with wf := h.wf.setSlot (by simp [hplace]) _, fits := fun t pc hpc => ?_ }
  have hsteps : s.pool.cursor.Steps (s.pool.setSlot p (.data val)).cursor := Tagged.steps_refl _
  apply h.fits_frame hsteps (fun a ha => ?_) hpc
  apply Function.update_of_ne
  rintro rfl
  rw [hplace] at ha
  rcases ha with ha | ha <;> cases ha

omit [DecidableEq τ] in
theorem Inv.give (h : Inv L s place stack) {p : Nat} (hp : s.owner p ≠ none) (t : τ) :
    Inv L { s with owner := Function.update s.owner p (some t) }
      (Function.update place p (.owned t)) stack := by
  obtain ⟨u, hu⟩ := Option.ne_none_iff_exists'.mp hp
  have hplace := (h.owned p u).mpr hu
  refine {
    wf := h.wf.congr fun a => (place_iff hplace (by simp) (by simp) a).symm
    fresh := fun a => (place_iff hplace (by simp) (by simp) a).trans (h.fresh a)
    owned := fun a v => ?_
    held := fun a v b => (place_iff hplace (by simp) (by simp) a).trans (h.held a v b)
    freed := fun a => ?_
    fits := h.fits }
  · rcases eq_or_ne a p with rfl | ha
    · simp
    · simpa [ha] using h.owned a v
  · rw [h.freed a, place_iff hplace (by simp) (by simp)]
    apply or_congr_right
    apply exists_congr
    intro v
    exact (place_iff hplace (by simp) (by simp) a).symm

/-- **An access** of a thread, under the condition. -/
theorem Inv.access (h : Inv L s place stack) {ok : Bool} (hwrap : s.NoWrap (.access t ok))
    (hs : s.step L (.access t ok) = .ok s') : ∃ place' stack', Inv L s' place' stack' := by
  have hsize : ∀ a, place a = .pool → a < s.pool.size := by
    intro a ha
    apply Nat.not_le.mp
    intro hle
    rw [(h.fresh a).mpr hle] at ha
    cases ha
  simp only [step] at hs
  split at hs
  · cases hs
  · rename_i val pc hpc
    have hnone := h.held_none (t := t) (by rw [hpc]; rintro _ ⟨⟩; rfl)
    have hfits := h.fits t _ hpc
    rcases h.wf.alloc hsize hfits (hwrap _ hpc) ok with
      ⟨pc', heq, hfits'⟩ | ⟨pool, a, stack', heq, hslot, hsteps, ha, hwf⟩
    · rw [heq] at hs
      cases hs
      exact ⟨place, stack, h.goOn hnone rfl hfits'⟩
    · rw [heq] at hs
      cases hs
      exact ⟨_, stack', h.take hnone hwf hsteps hslot ha⟩
  · rename_i val p hpc
    cases hs
    exact ⟨_, stack, h.construct hpc⟩
  · rename_i pc hpc
    have hplace := (h.held_iff hpc pc.node true).mpr rfl
    obtain ⟨pool, pc?, stack', heq, hwf, hfits', hsteps, hslot, hsize'⟩ :=
      h.wf.free (by rw [hplace]; exact nofun) (h.fits t _ hpc) (hwrap _ hpc) ok
    rw [heq] at hs
    cases hs
    cases pc? with
    | none =>
      exact ⟨_, stack', h.endFree hpc (hwf.congr fun b => by simp) hsteps hslot hsize'⟩
    | some pc' =>
      obtain ⟨hfits'', hnode⟩ := hfits' pc' rfl
      exact ⟨_, stack', h.goOnFree hpc (hwf.congr fun b => by simp) hnode hfits'' hsteps hslot
        hsize'⟩

/-- **Every step** that is taken under the condition keeps the nodes in their places. -/
theorem Inv.step {op : Op τ α} (h : Inv L s place stack) (hwrap : s.NoWrap op)
    (hs : s.step L op = .ok s') : ∃ place' stack', Inv L s' place' stack' := by
  cases op with
  | alloc t val =>
    simp only [System.step] at hs
    split at hs
    · rename_i hpc
      cases hs
      exact ⟨place, stack, h.goOn (h.held_none (by rw [hpc]; exact nofun)) rfl trivial⟩
    · cases hs
  | free t p? =>
    simp only [System.step] at hs
    split at hs
    · cases hs
      exact ⟨place, stack, h⟩
    · rename_i hpc
      split at hs
      · rename_i hp
        cases hs
        exact ⟨_, stack, h.callFree hpc hp⟩
      · cases hs
    · cases hs
  | access t ok => exact h.access hwrap hs
  | write p val =>
    simp only [System.step] at hs
    split at hs
    · rename_i hp
      cases hs
      exact ⟨place, stack, h.write hp val⟩
    · cases hs
  | give p t =>
    simp only [System.step] at hs
    split at hs
    · rename_i hp
      cases hs
      exact ⟨_, stack, h.give hp t⟩
    · cases hs

omit [DecidableEq τ] in
theorem Inv.hands_iff (h : Inv L s place stack) {a : Nat} :
    s.At stack a (.hands t) ↔ place a = .held t true := by
  rw [h.held a t true]
  constructor
  · rintro ⟨pc, hpc, rfl⟩
    exact ⟨_, hpc, rfl⟩
  · rintro ⟨pc, hpc, hhand⟩
    cases pc with
    | alloc val pc => cases hhand
    | construct val p => cases hhand
    | free pc =>
      cases hhand
      exact ⟨pc, hpc, rfl⟩

omit [DecidableEq τ] in
theorem Inv.at_place (h : Inv L s place stack) {a : Nat} {home : Home τ}
    (hat : s.At stack a home) : place a = home.place := by
  cases home with
  | el => exact (h.wf.el_pooled a hat).1
  | list => exact h.wf.stack_pooled a hat
  | hands t => exact h.hands_iff.mp hat

omit [DecidableEq τ] in
/-- A freed node is in one place. -/
theorem Inv.at_unique (h : Inv L s place stack) {a : Nat} (ha : s.freed a = true) :
    ∃! home, s.At stack a home := by
  rcases (h.freed a).mp ha with hpool | ⟨t, hheld⟩
  · rcases h.wf.cover a hpool with hel | hstack
    · refine ⟨.el, hel, fun home hat => ?_⟩
      have hplace := hpool.symm.trans (h.at_place hat)
      cases home with
      | el => rfl
      | list => exact absurd hat (h.wf.el_pooled a hel).2
      | hands t => cases hplace
    · refine ⟨.list, hstack, fun home hat => ?_⟩
      have hplace := hpool.symm.trans (h.at_place hat)
      cases home with
      | el => exact absurd hstack (h.wf.el_pooled a hat).2
      | list => rfl
      | hands t => cases hplace
  · refine ⟨.hands t, h.hands_iff.mpr hheld, fun home hat => ?_⟩
    have hplace := hheld.symm.trans (h.at_place hat)
    cases home with
    | el => cases hplace
    | list => cases hplace
    | hands u =>
      cases hplace
      rfl

omit [DecidableEq τ] in
theorem Inv.oneOwner (h : Inv L s place stack) : s.OneOwner L where
  alone t val a hpc := by
    have hplace := (h.held_iff hpc a false).mpr rfl
    refine ⟨Option.eq_none_iff_forall_ne_some.mpr fun u hu => ?_, fun t' val' hpc' => ?_⟩
    · rw [(h.owned a u).mpr hu] at hplace
      cases hplace
    · rw [(h.held_iff hpc' a false).mpr rfl] at hplace
      cases hplace
      rfl
  acyclic := by
    refine ⟨stack, h.wf.path, h.wf.path.nodup, fun a => h.at_unique, fun a ha home hat => ?_⟩
    obtain ⟨u, hu⟩ := Option.ne_none_iff_exists'.mp ha
    have hplace := ((h.owned a u).mpr hu).symm.trans (h.at_place hat)
    cases home <;> cases hplace
  made a ha := by
    rcases hplace : place a with _ | _ | ⟨t, _ | _⟩ | t
    · exact absurd ((h.fresh a).mp hplace) (Nat.not_le.mpr ha)
    · exact Or.inr (Or.inl ((h.freed a).mpr (Or.inl hplace)))
    · obtain ⟨pc, hpc, hhand⟩ := (h.held a t false).mp hplace
      cases pc with
      | alloc val pc => cases hhand
      | construct val p =>
        cases hhand
        exact Or.inr (Or.inr ⟨t, val, hpc⟩)
      | free pc => cases hhand
    · exact Or.inr (Or.inl ((h.freed a).mpr (Or.inr ⟨t, hplace⟩)))
    · refine Or.inl ?_
      rw [(h.owned a t).mp hplace]
      nofun

end System

/-- **A node has one owner**, in every run in which the tag of `cursor_` does not wrap during a
call. -/
theorem pool_one_owner [DecidableEq τ] (L : Layout α) {ops : List (Op τ α)}
    (hwrap : Runs.Meets (System.step L) System.NoWrap {} ops) :
    Runs.Always (System.step L) (System.OneOwner L) {} ops := by
  refine Runs.always_of_meets (A := fun _ => True)
    (I := fun s => ∃ place stack, System.Inv L s place stack) ?_ ?_ (fun _ _ => trivial)
    ⟨_, _, System.inv_new L⟩ hwrap
  · rintro s op s' - ⟨place, stack, h⟩ hc hs
    exact h.step hc hs
  · rintro s ⟨place, stack, h⟩
    exact h.oneOwner

/-- Objects whose bytes are those of a link. -/
def links : Layout Tagged where
  bits val := val
  value next := next

/-- The thread takes its next accesses, and no compare-exchange fails for no reason. -/
def goes (t : Bool) (n : Nat) : List (Op Bool Tagged) := List.replicate n (.access t true)

/-- A call of `alloc` stalls before its compare-exchange. The node that it wants is allocated,
written, freed and the first of the list again before it goes on. -/
def reuse : List (Op Bool Tagged) :=
  .alloc false {} :: goes false 4 ++ .alloc false {} :: goes false 4 ++
    .alloc false {} :: goes false 4 ++ .free false (some 0) :: goes false 1 ++
    .free false (some 1) :: goes false 5 ++ .alloc true {} :: goes true 2 ++
    .alloc true {} :: goes true 3 ++ .alloc false {} :: goes false 5 ++
    .write 0 ⟨some 1, 7⟩ :: .free false (some 0) :: goes false 1 ++
    .free false (some 2) :: goes false 5 ++ goes true 4

theorem pool_one_owner_reuse :
    Runs.Always (System.step links) (System.OneOwner links) {} reuse :=
  pool_one_owner links (by decide)

example : ((Runs.last (System.step links) {} reuse).owner 0,
    (Runs.last (System.step links) {} reuse).pool.el) = (some true, some 2) := by decide

end Pool

end Footstone
