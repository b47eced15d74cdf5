import Footstone.Lib.LinkedList
import Mathlib.Algebra.Group.Nat.Defs
import Mathlib.Logic.Function.Basic

/-!
`tagged` and `pool` (`mpmc_list.h`). A thread's place in a call of `alloc` or `free` is
the access it does next, with the local variables that are still needed; a step is one
such access. `compare_exchange_weak` may fail for no reason, which the step is told.
Nodes are numbered as they are made.
-/

namespace Footstone

/-- Neither the old nor the new value at `a` is `y`: the others that are stay. -/
theorem update_iff {γ : Type*} {f : Nat → γ} {a : Nat} {x y : γ} (hold : f a ≠ y) (hnew : x ≠ y)
    (b : Nat) : Function.update f a x b = y ↔ f b = y := by
  by_cases hb : b = a
  · subst hb
    rw [Function.update_self]
    exact iff_of_false hnew hold
  · rw [Function.update_of_ne hb]

/-- A pointer with a tag. The tag is kept in full; of it the code has the low 16 bits. -/
structure Tagged where
  ptr : Option Nat := none
  tag : Nat := 0
  deriving DecidableEq, Repr

namespace Tagged

/-- The 64 bits are equal. -/
def Same (a b : Tagged) : Prop := a.ptr = b.ptr ∧ a.tag % 2 ^ 16 = b.tag % 2 ^ 16

instance (a b : Tagged) : Decidable (a.Same b) := inferInstanceAs (Decidable (_ ∧ _))

/-- What a compare-exchange of `a` stores. -/
def swap (ptr : Option Nat) (a : Tagged) : Tagged := ⟨ptr, a.tag + 1⟩

/-- `old` was read from the variable that is now `a`. -/
def Past (a old : Tagged) : Prop := old = a ∨ old.tag < a.tag

/-- And the tag has not gone all the way round since. -/
def Near (a old : Tagged) : Prop := a.tag < old.tag + 2 ^ 16

instance (a old : Tagged) : Decidable (a.Near old) := inferInstanceAs (Decidable (_ < _))

/-- The variable was left alone, or was exchanged once. -/
def Steps (a a' : Tagged) : Prop := a' = a ∨ ∃ ptr, a' = a.swap ptr

variable {a a' old : Tagged}

theorem past_refl (a : Tagged) : a.Past a := Or.inl rfl

theorem steps_refl (a : Tagged) : a.Steps a := Or.inl rfl

theorem steps_swap (a : Tagged) (ptr : Option Nat) : a.Steps (a.swap ptr) := Or.inr ⟨ptr, rfl⟩

/-- **The tags tell what was read from what is there.** -/
theorem Past.same_iff (h : a.Past old) (hnear : a.Near old) : a.Same old ↔ a = old := by
  constructor
  · rintro ⟨-, htag⟩
    rcases h with rfl | hlt
    · rfl
    · unfold Near at hnear
      omega
  · rintro rfl
    exact ⟨rfl, rfl⟩

theorem Past.steps (h : a.Past old) (hs : a.Steps a') : a'.Past old := by
  rcases hs with rfl | ⟨ptr, rfl⟩
  · exact h
  · refine Or.inr ?_
    rcases h with rfl | hlt
    · exact Nat.lt_succ_self _
    · exact Nat.lt_succ_of_lt hlt

/-- A variable that is what it was once has not been exchanged. -/
theorem Past.eq_of_steps (h : a.Past old) (hs : a.Steps a') (heq : a' = old) : a = old := by
  rcases hs with rfl | ⟨ptr, rfl⟩
  · exact heq
  · rcases h with rfl | hlt
    · rfl
    · rw [← heq] at hlt
      exact absurd hlt (Nat.not_lt.mpr (Nat.le_succ _))

theorem Past.not_swap (h : a.Past old) (ptr : Option Nat) : a.swap ptr ≠ old := by
  rintro rfl
  rcases h with heq | hlt
  · exact absurd (congrArg Tagged.tag heq) (Nat.succ_ne_self _)
  · exact absurd hlt (Nat.not_lt.mpr (Nat.le_succ _))

end Tagged

/-- The union that a node of the pool is: an object, or the link to the next node. -/
inductive Slot (α : Type) where
  | data (val : α)
  | link (next : Tagged)

/-- What the bytes of an object are as a link, and those of a link as an object. -/
structure Layout (α : Type) where
  bits : α → Tagged
  value : Tagged → α

namespace Slot

variable {α : Type}

/-- `next_` -/
def next (L : Layout α) : Slot α → Tagged
  | data val => L.bits val
  | link next => next

/-- `data_` -/
def val (L : Layout α) : Slot α → α
  | data val => val
  | link next => L.value next

end Slot

structure Pool (α : Type) where
  cursor : Tagged := {}
  el : Option Nat := none
  /-- How many nodes were made. -/
  size : Nat := 0
  slot : Nat → Slot α := fun _ => .link {}

/-- The places in `alloc`. -/
inductive AllocPc where
  /-- `el_.exchange`. -/
  | exchange
  | load
  /-- The top of the loop: a new node, or `curr->next_.load`. -/
  | look (curr : Tagged)
  /-- `cursor_.compare_exchange_weak`, for the pointer `curr` with its tag. -/
  | take (curr tag : Nat) (next : Option Nat)
  deriving DecidableEq

/-- The places in `free`. -/
inductive FreePc where
  /-- `el_.exchange`. -/
  | exchange (p : Nat)
  | load (temp : Nat)
  /-- `temp->next_.store` loads what it exchanges. -/
  | read (temp : Nat) (curr : Tagged)
  /-- And exchanges it. -/
  | store (temp : Nat) (curr old : Tagged)
  /-- `cursor_.compare_exchange_weak`. -/
  | put (temp : Nat) (curr : Tagged)
  deriving DecidableEq

namespace Pool

variable {α : Type}

/-- `next_` of a node. -/
def link (L : Layout α) (a : Nat) (p : Pool α) : Tagged := (p.slot a).next L

def setSlot (a : Nat) (slot : Slot α) (p : Pool α) : Pool α :=
  { p with slot := Function.update p.slot a slot }

/-- `alloc` up to the construction of the object: it goes on, or has the node. -/
def alloc (L : Layout α) (ok : Bool) (p : Pool α) : AllocPc → Pool α × (AllocPc ⊕ Nat)
  | .exchange =>
    match p.el with
    | some curr => ({ p with el := none }, .inr curr)
    | none => (p, .inl .load)
  | .load => (p, .inl (.look p.cursor))
  | .look curr =>
    match curr.ptr with
    | none => ({ p with size := p.size + 1 }, .inr p.size)
    | some node => (p, .inl (.take node curr.tag (p.link L node).ptr))
  | .take curr tag next =>
    if ok ∧ p.cursor.Same ⟨some curr, tag⟩ then ({ p with cursor := p.cursor.swap next }, .inr curr)
    else (p, .inl (.look p.cursor))

/-- `free` of a pointer that is not null: it goes on, or has returned. -/
def free (L : Layout α) (ok : Bool) (p : Pool α) : FreePc → Pool α × Option FreePc
  | .exchange node => ({ p with el := some node }, p.el.map FreePc.load)
  | .load temp => (p, some (.read temp p.cursor))
  | .read temp curr => (p, some (.store temp curr (p.link L temp)))
  | .store temp curr old =>
    if ok ∧ (p.link L temp).Same old then
      (p.setSlot temp (.link (old.swap curr.ptr)), some (.put temp curr))
    else (p, some (.store temp curr (p.link L temp)))
  | .put temp curr =>
    if ok ∧ p.cursor.Same curr then ({ p with cursor := p.cursor.swap (some temp) }, none)
    else (p, some (.read temp p.cursor))

end Pool

/-- The tagged pointer that is still held, as it was read from `cursor_`. -/
def AllocPc.seen? : AllocPc → Option Tagged
  | exchange | load => none
  | look curr => some curr
  | take curr tag _ => some ⟨some curr, tag⟩

def FreePc.seen? : FreePc → Option Tagged
  | exchange _ | load _ => none
  | read _ curr | store _ curr _ | put _ curr => some curr

/-- The node that is being freed. -/
def FreePc.node : FreePc → Nat
  | exchange p => p
  | load temp | read temp _ | store temp _ _ | put temp _ => temp

namespace Pool

variable {α : Type} {L : Layout α}

/-! ## The nodes in the pool -/

/-- The pool has the nodes of which `pooled` says so: one in `el_`, the others in the
list from `cursor_`. -/
structure Wf (L : Layout α) (p : Pool α) (pooled : Nat → Prop) (stack : List Nat) : Prop where
  path : LinkedList.Path (fun a => (p.link L a).ptr) p.cursor.ptr stack
  stack_pooled : ∀ a ∈ stack, pooled a
  el_pooled : ∀ a ∈ p.el, pooled a ∧ a ∉ stack
  cover : ∀ a, pooled a → a ∈ p.el ∨ a ∈ stack

/-- What a thread in `alloc` knows. -/
def AllocFits (L : Layout α) (p : Pool α) : AllocPc → Prop
  | .exchange | .load => True
  | .look curr => p.cursor.Past curr
  | .take curr tag next => p.cursor.Past ⟨some curr, tag⟩ ∧
    (p.cursor = ⟨some curr, tag⟩ → (p.link L curr).ptr = next)

/-- What a thread in `free` knows. -/
def FreeFits (L : Layout α) (p : Pool α) : FreePc → Prop
  | .exchange _ | .load _ => True
  | .read _ curr | .store _ curr _ => p.cursor.Past curr
  | .put temp curr => p.cursor.Past curr ∧ (p.link L temp).ptr = curr.ptr

variable {p p' : Pool α} {pooled pooled' : Nat → Prop} {stack : List Nat}

theorem link_setSlot_of_ne {a b : Nat} (h : b ≠ a) (slot : Slot α) (p : Pool α) :
    (p.setSlot a slot).link L b = p.link L b := by
  unfold link setSlot
  simp only [Function.update_of_ne h]

theorem Wf.congr (h : p.Wf L pooled stack) (hp : ∀ a, pooled a ↔ pooled' a) :
    p.Wf L pooled' stack where
  path := h.path
  stack_pooled a ha := (hp a).mp (h.stack_pooled a ha)
  el_pooled a ha := (h.el_pooled a ha).imp_left (hp a).mp
  cover a ha := h.cover a ((hp a).mpr ha)

/-- The node that `cursor_` points to is in the pool. -/
theorem Wf.cursor_pooled (h : p.Wf L pooled stack) {a : Nat} (ha : p.cursor.ptr = some a) :
    pooled a := by
  have hpath := h.path
  rw [ha] at hpath
  obtain ⟨stack, rfl, -⟩ := hpath.eq_cons
  exact h.stack_pooled a List.mem_cons_self

/-- A node that is not in the pool may be written. -/
theorem Wf.setSlot (h : p.Wf L pooled stack) {a : Nat} (ha : ¬ pooled a) (slot : Slot α) :
    (p.setSlot a slot).Wf L pooled stack where
  path := h.path.congr fun b hb => by
    have hba : b ≠ a := by
      rintro rfl
      exact ha (h.stack_pooled b hb)
    simp only [link_setSlot_of_ne hba]
  stack_pooled := h.stack_pooled
  el_pooled := h.el_pooled
  cover := h.cover

theorem AllocFits.frame {pc : AllocPc} (h : p.AllocFits L pc) (hs : p.cursor.Steps p'.cursor)
    (hslot : ∀ a, p.cursor.ptr = some a → p'.slot a = p.slot a) : p'.AllocFits L pc := by
  cases pc with
  | exchange => trivial
  | load => trivial
  | look curr => exact Tagged.Past.steps h hs
  | take curr tag next =>
    refine ⟨h.1.steps hs, fun heq => ?_⟩
    have hcursor := h.1.eq_of_steps hs heq
    rw [link, hslot curr (by rw [hcursor])]
    exact h.2 hcursor

theorem FreeFits.frame {pc : FreePc} (h : p.FreeFits L pc) (hs : p.cursor.Steps p'.cursor)
    (hslot : p'.slot pc.node = p.slot pc.node) : p'.FreeFits L pc := by
  cases pc with
  | exchange node => trivial
  | load temp => trivial
  | read temp curr => exact Tagged.Past.steps h hs
  | store temp curr old => exact Tagged.Past.steps h hs
  | put temp curr =>
    refine ⟨h.1.steps hs, ?_⟩
    rw [link, show p'.slot temp = p.slot temp from hslot]
    exact h.2

/-- The node in `el_` is taken out. -/
theorem Wf.takeEl (h : p.Wf L pooled stack) {a : Nat} (hel : p.el = some a) :
    Wf L { p with el := none } (fun b => pooled b ∧ b ≠ a) stack := by
  obtain ⟨-, hstack⟩ := h.el_pooled a hel
  refine ⟨h.path, fun b hb => ⟨h.stack_pooled b hb, ?_⟩, nofun, fun b hb => Or.inr ?_⟩
  · rintro rfl
    exact hstack hb
  · refine (h.cover b hb.1).resolve_left fun hb' => hb.2 ?_
    rw [hel] at hb'
    exact (Option.some.inj hb').symm

/-- A node is put into `el_`. -/
theorem Wf.putEl (h : p.Wf L pooled stack) {a : Nat} (hown : ¬ pooled a) (hel : p.el = none) :
    Wf L { p with el := some a } (fun b => pooled b ∨ b = a) stack := by
  refine ⟨h.path, fun b hb => Or.inl (h.stack_pooled b hb), ?_, ?_⟩
  · rintro _ ⟨⟩
    exact ⟨Or.inr rfl, fun hm => hown (h.stack_pooled _ hm)⟩
  · rintro b (hb | rfl)
    · refine Or.inr ((h.cover b hb).resolve_left ?_)
      rw [hel]
      exact nofun
    · exact Or.inl rfl

/-- The first node of the list from `cursor_` is taken out. -/
theorem Wf.takeFirst (h : p.Wf L pooled stack) {a : Nat} {next : Option Nat}
    (ha : p.cursor.ptr = some a) (hnext : (p.link L a).ptr = next) : pooled a ∧ ∃ stack',
      Wf L { p with cursor := p.cursor.swap next } (fun b => pooled b ∧ b ≠ a) stack' := by
  have hpath := h.path
  rw [ha] at hpath
  obtain ⟨stack, rfl, hrest⟩ := hpath.eq_cons
  have hnodup := List.nodup_cons.mp h.path.nodup
  refine ⟨h.stack_pooled a List.mem_cons_self, stack, hnext ▸ hrest, fun b hb => ?_, fun b hb => ?_, ?_⟩
  · refine ⟨h.stack_pooled b (List.mem_cons_of_mem _ hb), ?_⟩
    rintro rfl
    exact hnodup.1 hb
  · obtain ⟨hpooled, hstack⟩ := h.el_pooled b hb
    exact ⟨⟨hpooled, fun hba => hstack (hba ▸ List.mem_cons_self)⟩,
      fun hm => hstack (List.mem_cons_of_mem _ hm)⟩
  · rintro b ⟨hb, hba⟩
    exact (h.cover b hb).imp_right fun hm => (List.mem_cons.mp hm).resolve_left hba

/-- A node that leads to the first one is put before it. -/
theorem Wf.putFirst (h : p.Wf L pooled stack) {a : Nat} (hown : ¬ pooled a)
    (hlink : (p.link L a).ptr = p.cursor.ptr) :
    Wf L { p with cursor := p.cursor.swap (some a) } (fun b => pooled b ∨ b = a) (a :: stack) := by
  refine ⟨⟨rfl, ?_⟩, fun b hb => ?_, fun b hb => ?_, ?_⟩
  · have hpath := h.path
    rw [← hlink] at hpath
    exact hpath
  · rcases List.mem_cons.mp hb with rfl | hb
    · exact Or.inr rfl
    · exact Or.inl (h.stack_pooled b hb)
  · obtain ⟨hpooled, hstack⟩ := h.el_pooled b hb
    refine ⟨Or.inl hpooled, fun hm => ?_⟩
    rcases List.mem_cons.mp hm with rfl | hm
    · exact hown hpooled
    · exact hstack hm
  · rintro b (hb | rfl)
    · exact (h.cover b hb).imp_right (List.mem_cons_of_mem _)
    · exact Or.inr List.mem_cons_self

/-- **One step of `alloc`** goes on, or takes a node out of the pool or makes one. -/
theorem Wf.alloc (h : p.Wf L pooled stack) (hsize : ∀ a, pooled a → a < p.size) {pc : AllocPc}
    (hfits : p.AllocFits L pc) (hnear : ∀ old ∈ pc.seen?, p.cursor.Near old) (ok : Bool) :
    (∃ pc', p.alloc L ok pc = (p, .inl pc') ∧ p.AllocFits L pc') ∨
    (∃ p' a stack', p.alloc L ok pc = (p', .inr a) ∧ p'.slot = p.slot ∧
      p.cursor.Steps p'.cursor ∧
      ((pooled a ∧ p'.size = p.size) ∨ (a = p.size ∧ p'.size = p.size + 1)) ∧
      p'.Wf L (fun b => pooled b ∧ b ≠ a) stack') := by
  cases pc with
  | exchange =>
    cases hel : p.el with
    | none =>
      exact Or.inl ⟨.load, by simp [Pool.alloc, hel], trivial⟩
    | some a =>
      exact Or.inr ⟨{ p with el := none }, a, stack, by simp [Pool.alloc, hel], rfl,
        Tagged.steps_refl _, Or.inl ⟨(h.el_pooled a hel).1, rfl⟩, h.takeEl hel⟩
  | load =>
    exact Or.inl ⟨.look p.cursor, rfl, Tagged.past_refl _⟩
  | look curr =>
    obtain ⟨ptr, tag⟩ := curr
    cases ptr with
    | none =>
      refine Or.inr ⟨_, p.size, stack, rfl, rfl, Tagged.steps_refl _, Or.inr ⟨rfl, rfl⟩, ?_⟩
      exact Wf.congr (p := { p with size := p.size + 1 })
        ⟨h.path, h.stack_pooled, h.el_pooled, h.cover⟩
        fun b => ⟨fun hb => ⟨hb, (hsize b hb).ne⟩, And.left⟩
    | some a =>
      exact Or.inl ⟨.take a tag (p.link L a).ptr, rfl, hfits, fun _ => rfl⟩
  | take a tag next =>
    by_cases hok : ok = true ∧ p.cursor.Same ⟨some a, tag⟩
    · have hcursor := (hfits.1.same_iff (hnear _ rfl)).mp hok.2
      obtain ⟨hpooled, stack', hwf⟩ := h.takeFirst (by rw [hcursor]) (hfits.2 hcursor)
      exact Or.inr ⟨{ p with cursor := p.cursor.swap next }, a, stack', by simp [Pool.alloc, hok],
        rfl, Tagged.steps_swap _ _, Or.inl ⟨hpooled, rfl⟩, hwf⟩
    · exact Or.inl ⟨.look p.cursor, by simp only [Pool.alloc, if_neg hok], Tagged.past_refl _⟩

/-- The pool has what it had, as long as the thread keeps its node. -/
theorem Wf.kept (h : p.Wf L pooled stack) {pc pc' : FreePc} (hown : ¬ pooled pc.node)
    (hnode : pc'.node = pc.node) :
    p.Wf L (fun b => (pooled b ∨ b = pc.node) ∧ ∀ x ∈ some pc', b ≠ x.node) stack := by
  refine h.congr fun b => ⟨fun hb => ⟨Or.inl hb, ?_⟩,
    fun hb => hb.1.resolve_right (hnode ▸ hb.2 pc' rfl)⟩
  rintro _ ⟨⟩ rfl
  exact hown (hnode ▸ hb)

/-- **One step of `free`**: the pool gets the node, but for the one that the thread still
has to put into it. -/
theorem Wf.free (h : p.Wf L pooled stack) {pc : FreePc} (hown : ¬ pooled pc.node)
    (hfits : p.FreeFits L pc) (hnear : ∀ old ∈ pc.seen?, p.cursor.Near old) (ok : Bool) :
    ∃ p' pc?' stack', p.free L ok pc = (p', pc?') ∧
      p'.Wf L (fun b => (pooled b ∨ b = pc.node) ∧ ∀ pc' ∈ pc?', b ≠ pc'.node) stack' ∧
      (∀ pc' ∈ pc?', p'.FreeFits L pc' ∧ (pc'.node = pc.node ∨ pooled pc'.node)) ∧
      p.cursor.Steps p'.cursor ∧ (∀ b, b ≠ pc.node → p'.slot b = p.slot b) ∧
      p'.size = p.size := by
  cases pc with
  | exchange node =>
    cases hel : p.el with
    | none =>
      exact ⟨{ p with el := some node }, none, stack, by simp [Pool.free, hel],
        (h.putEl hown hel).congr fun b => ⟨fun hb => ⟨hb, nofun⟩, And.left⟩,
        nofun, Tagged.steps_refl _, fun _ _ => rfl, rfl⟩
    | some temp =>
      have htemp := (h.el_pooled temp hel).1
      have hne : node ≠ temp := fun hne => hown (hne ▸ htemp)
      have hwf := (h.takeEl hel).putEl (a := node) (fun hn => hown hn.1) rfl
      refine ⟨{ p with el := some node }, some (.load temp), stack, by simp [Pool.free, hel],
        hwf.congr fun b => ?_, ?_, Tagged.steps_refl _, fun _ _ => rfl, rfl⟩
      · constructor
        · rintro (⟨hb, hbt⟩ | rfl)
          · exact ⟨Or.inl hb, fun _ hpc' => Option.some.inj hpc' ▸ hbt⟩
          · exact ⟨Or.inr rfl, fun _ hpc' => Option.some.inj hpc' ▸ hne⟩
        · rintro ⟨hb, hbt⟩
          exact hb.imp_left fun hb => ⟨hb, hbt _ rfl⟩
      · rintro _ ⟨⟩
        exact ⟨trivial, Or.inr htemp⟩
  | load temp =>
    refine ⟨p, some (.read temp p.cursor), stack, rfl, h.kept hown rfl, ?_, Tagged.steps_refl _,
      fun _ _ => rfl, rfl⟩
    rintro _ ⟨⟩
    exact ⟨Tagged.past_refl _, Or.inl rfl⟩
  | read temp curr =>
    refine ⟨p, some (.store temp curr (p.link L temp)), stack, rfl, h.kept hown rfl, ?_,
      Tagged.steps_refl _, fun _ _ => rfl, rfl⟩
    rintro _ ⟨⟩
    exact ⟨hfits, Or.inl rfl⟩
  | store temp curr old =>
    by_cases hok : ok = true ∧ (p.link L temp).Same old
    · refine ⟨p.setSlot temp (.link (old.swap curr.ptr)), some (.put temp curr), stack,
        by simp only [Pool.free, if_pos hok], (h.setSlot hown _).kept hown rfl, ?_, Tagged.steps_refl _,
        fun b hb => Function.update_of_ne hb _ _, rfl⟩
      rintro _ ⟨⟩
      refine ⟨⟨hfits, ?_⟩, Or.inl rfl⟩
      simp [link, Pool.setSlot, Slot.next, Tagged.swap]
    · refine ⟨p, some (.store temp curr (p.link L temp)), stack,
        by simp only [Pool.free, if_neg hok], h.kept hown rfl, ?_, Tagged.steps_refl _,
        fun _ _ => rfl, rfl⟩
      rintro _ ⟨⟩
      exact ⟨hfits, Or.inl rfl⟩
  | put temp curr =>
    by_cases hok : ok = true ∧ p.cursor.Same curr
    · have hcursor := (hfits.1.same_iff (hnear _ rfl)).mp hok.2
      exact ⟨{ p with cursor := p.cursor.swap (some temp) }, none, temp :: stack,
        by simp only [Pool.free, if_pos hok],
        (h.putFirst hown (hcursor ▸ hfits.2)).congr fun b => ⟨fun hb => ⟨hb, nofun⟩, And.left⟩,
        nofun, Tagged.steps_swap _ _, fun _ _ => rfl, rfl⟩
    · refine ⟨p, some (.read temp p.cursor), stack, by simp only [Pool.free, if_neg hok],
        h.kept hown rfl, ?_, Tagged.steps_refl _, fun _ _ => rfl, rfl⟩
      rintro _ ⟨⟩
      exact ⟨Tagged.past_refl _, Or.inl rfl⟩

end Pool

end Footstone
