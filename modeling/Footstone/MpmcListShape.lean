import Footstone.MpmcList

/-!
Where the nodes of an `mpmc_list` are, and what the threads know of them. A node is in
the list, in the pool or with the one thread that has allocated it and not linked it, or
has unlinked it and not freed it. `head_` and `tail_` point into the list. What a thread
has read of them is out of date, or everything that followed from it still does.
-/

namespace Footstone

namespace MpmcList

open Linear

variable {α τ : Type} {L : Layout α}

/-- Where a node is. -/
inductive Place (τ : Type) where
  | fresh
  | pool
  | list
  | held (t : τ)

namespace PushPc

/-- The node that is not linked yet. -/
def node? : PushPc → Option Nat
  | alloc _ | swing _ _ => none
  | data p | next p | tail p | load p _ | check p _ _ | link p _ _ | help p _ _ => some p

/-- The compare-exchange of `next_`: the node it is about, and what is expected. -/
def links? : PushPc → Option (Tagged × Tagged)
  | link _ old exp => some (old, exp)
  | _ => none

/-- The copy of `tail_`. -/
def tail? : PushPc → Option Tagged
  | load _ old | check _ old _ | link _ old _ | help _ old _ | swing _ old => some old
  | _ => none

def cursor? : PushPc → Option Tagged
  | alloc pc => pc.seen?
  | _ => none

end PushPc

namespace PopPc

def node? : PopPc α → Option Nat
  | free _ pc => some pc.node
  | _ => none

def head? : PopPc α → Option Tagged
  | tail old | load old _ | check old _ _ | data old _ | take old _ _ => some old
  | _ => none

def tail? : PopPc α → Option Tagged
  | load _ old | check _ old _ | help old _ => some old
  | _ => none

def cursor? : PopPc α → Option Tagged
  | free _ pc => pc.seen?
  | _ => none

end PopPc

namespace Pc

/-- The node the thread has. -/
def node? : Pc α → Option Nat
  | push _ pc => pc.node?
  | pop pc => pc.node?

def head? : Pc α → Option Tagged
  | push _ _ => none
  | pop pc => pc.head?

def tail? : Pc α → Option Tagged
  | push _ pc => pc.tail?
  | pop pc => pc.tail?

def cursor? : Pc α → Option Tagged
  | push _ pc => pc.cursor?
  | pop pc => pc.cursor?

def links? : Pc α → Option (Tagged × Tagged)
  | push _ pc => pc.links?
  | pop _ => none

/-- The node that the thread has allocated and not linked. -/
def unlinked? : Pc α → Option Nat
  | push _ pc => pc.node?
  | pop _ => none

end Pc

/-- The nodes of the list are `chain`, with `items` behind the first one. -/
structure Shape (L : Layout α) (q : Queue α) (place : Nat → Place τ) (chain stack : List Nat)
    (items : List α) : Prop where
  pool : q.pool.Wf L (fun a => place a = .pool) stack
  fresh : ∀ a, place a = .fresh ↔ q.pool.size ≤ a
  path : LinkedList.Path (fun a => (q.next a).ptr) q.head.ptr chain
  list : ∀ a, place a = .list ↔ a ∈ chain
  tail : ∃ a ∈ chain, q.tail.ptr = some a
  data : chain.tail.map q.pool.slot = items.map .data
  /-- Nodes that have been in the list keep what `next_` was then. -/
  pooled : ∀ a, place a = .pool → (q.next a).ptr ≠ none

/-- `n` comes after the node that `x` points to. -/
def Queue.Follows (q : Queue α) (x : Tagged) (n : Nat) : Prop :=
  ∃ a, x.ptr = some a ∧ (q.next a).ptr = some n

/-- `x` points to a node. -/
def Queue.Made (q : Queue α) (x : Tagged) : Prop := ∃ a, x.ptr = some a ∧ a < q.pool.size

/-- The node is constructed. -/
def Queue.Ready (q : Queue α) (val : α) (p : Nat) : Prop :=
  q.pool.slot p = .data val ∧ (q.next p).ptr = none

/-- What a thread in `push` knows. -/
def PushFits (L : Layout α) (q : Queue α) (val : α) : PushPc → Prop
  | .alloc pc => q.pool.AllocFits L pc
  | .data _ => True
  | .next p => q.pool.slot p = .data val
  | .tail p => q.Ready val p
  | .load p tail => q.Ready val p ∧ q.tail.Past tail ∧ q.Made tail
  | .check p tail next => q.Ready val p ∧ q.tail.Past tail ∧ q.Made tail ∧
    ∀ n ∈ next.ptr, q.tail = tail → q.Follows tail n
  | .link p tail next => q.Ready val p ∧ q.tail.Past tail ∧ q.Made tail ∧ next.ptr = none
  | .swing p tail => q.tail.Past tail ∧ (q.tail = tail → q.Follows tail p)
  | .help p tail next => q.Ready val p ∧ q.tail.Past tail ∧ (q.tail = tail → q.Follows tail next)

/-- What a thread in `pop` knows. -/
def PopFits (L : Layout α) (q : Queue α) : PopPc α → Prop
  | .head => True
  | .tail head => q.head.Past head ∧ q.Made head
  | .load head tail => q.head.Past head ∧ q.Made head ∧ q.tail.Past tail ∧
    (q.head = head → head.ptr ≠ tail.ptr → q.tail.ptr ≠ head.ptr)
  | .check head tail next => q.head.Past head ∧ q.tail.Past tail ∧
    (∀ n ∈ next, head.ptr = tail.ptr → q.tail = tail → q.Follows tail n) ∧
    (q.head = head → head.ptr ≠ tail.ptr → q.tail.ptr ≠ head.ptr ∧ ∃ n, next = some n ∧ q.Follows head n)
  | .help tail next => q.tail.Past tail ∧ (q.tail = tail → q.Follows tail next)
  | .data head next => q.head.Past head ∧ next ≠ none ∧
    (q.head = head → q.tail.ptr ≠ head.ptr ∧ ∃ n, next = some n ∧ q.Follows head n)
  | .take head next val => q.head.Past head ∧
    (q.head = head → q.tail.ptr ≠ head.ptr ∧ q.Follows head next ∧ q.pool.slot next = .data val)
  | .free _ pc => q.pool.FreeFits L pc ∧ (q.next pc.node).ptr ≠ none

def Fits (L : Layout α) (q : Queue α) : Pc α → Prop
  | .push val pc => PushFits L q val pc
  | .pop pc => PopFits L q pc

/-! ## What the others do -/

/-- A step of the thread `t` from `q` to `q'`, as the others see it. -/
structure Frame (place : Nat → Place τ) (t : τ) (q q' : Queue α) : Prop where
  head : q.head.Steps q'.head
  tail : q.tail.Steps q'.tail
  cursor : q.pool.cursor.Steps q'.pool.cursor
  size : q.pool.size ≤ q'.pool.size
  slot : ∀ a, place a ≠ .held t → q'.pool.slot a = q.pool.slot a
  /-- Only the last node of the list gets a successor. -/
  next : ∀ a, place a ≠ .held t → q'.next a = q.next a ∨ (place a = .list ∧ (q.next a).ptr = none)
  /-- `tail_` does not come back to the first node. -/
  behind : q'.head = q.head → q.tail.ptr ≠ q.head.ptr → q'.tail.ptr ≠ q.head.ptr

variable {q q' : Queue α} {place place' : Nat → Place τ} {chain stack : List Nat} {items : List α}
  {t t' : τ}

theorem Frame.refl (place : Nat → Place τ) (t : τ) (q : Queue α) : Frame place t q q where
  head := Tagged.steps_refl _
  tail := Tagged.steps_refl _
  cursor := Tagged.steps_refl _
  size := Nat.le_refl _
  slot _ _ := rfl
  next _ _ := Or.inl rfl
  behind _ h := h

/-- Nodes of others are left as they are. -/
theorem Frame.ready (h : Frame place t q q') {val : α} {p : Nat} (hp : place p = .held t')
    (ht : t' ≠ t) (hr : q.Ready val p) : q'.Ready val p := by
  have hne : place p ≠ .held t := by
    rw [hp]
    rintro ⟨⟩
    exact ht rfl
  refine ⟨(h.slot p hne).trans hr.1, ?_⟩
  rcases h.next p hne with heq | ⟨hlist, -⟩
  · rw [heq]
    exact hr.2
  · rw [hp] at hlist
    cases hlist

/-- In the list, who has a successor keeps it. -/
theorem Frame.follows (h : Frame place t q q') {x : Tagged} {n : Nat}
    (hx : ∀ a, x.ptr = some a → place a = .list) (hf : q.Follows x n) : q'.Follows x n := by
  obtain ⟨a, ha, hn⟩ := hf
  refine ⟨a, ha, ?_⟩
  rcases h.next a (by rw [hx a ha]; exact nofun) with heq | ⟨-, hnone⟩
  · rw [heq]
    exact hn
  · rw [hnone] at hn
    cases hn

theorem Frame.made (h : Frame place t q q') {x : Tagged} (hx : q.Made x) : q'.Made x :=
  let ⟨a, ha, hlt⟩ := hx
  ⟨a, ha, Nat.lt_of_lt_of_le hlt h.size⟩

/-- The list has a first node, as `tail_` points into it. -/
theorem Shape.first (h : Shape L q place chain stack items) : ∃ a rest, chain = a :: rest ∧
    q.head.ptr = some a ∧ LinkedList.Path (fun b => (q.next b).ptr) (q.next a).ptr rest := by
  obtain ⟨b, hb, -⟩ := h.tail
  have hpath := h.path
  cases chain with
  | nil => cases hb
  | cons a rest => exact ⟨a, rest, rfl, hpath.1, hpath.2⟩

/-- And `head_` points to it. -/
theorem Shape.eq_cons (h : Shape L q place chain stack items) {a : Nat} (ha : q.head.ptr = some a) :
    ∃ rest, chain = a :: rest ∧
      LinkedList.Path (fun b => (q.next b).ptr) (q.next a).ptr rest := by
  have hpath := h.path
  rw [ha] at hpath
  exact hpath.eq_cons

theorem Shape.head_list (h : Shape L q place chain stack items) {a : Nat} (ha : q.head.ptr = some a) :
    place a = .list := by
  obtain ⟨rest, rfl, -⟩ := h.eq_cons ha
  exact (h.list a).mpr List.mem_cons_self

theorem Shape.tail_list (h : Shape L q place chain stack items) {a : Nat} (ha : q.tail.ptr = some a) :
    place a = .list := by
  obtain ⟨b, hb, hptr⟩ := h.tail
  rw [ha] at hptr
  cases hptr
  exact (h.list a).mpr hb

/-- What comes after a node of the list is in the list. -/
theorem Shape.next_list (h : Shape L q place chain stack items) {n : Nat}
    (hf : q.Follows q.head n) : place n = .list := by
  obtain ⟨a, ha, hn⟩ := hf
  obtain ⟨rest, rfl, -⟩ := h.eq_cons ha
  exact (h.list n).mpr (List.mem_cons_of_mem _ (h.path.next_mem List.mem_cons_self hn))

theorem Shape.cursor_pool (h : Shape L q place chain stack items) {a : Nat}
    (ha : q.pool.cursor.ptr = some a) : place a = .pool :=
  h.pool.cursor_pooled ha

/-- **What a thread knows, it knows after a step of another one.** -/
theorem Shape.fits_frame (h : Shape L q place chain stack items) (hf : Frame place t q q')
    (ht : t' ≠ t) {pc : Pc α} (hheld : ∀ p ∈ pc.node?, place p = .held t') (hfits : Fits L q pc) :
    Fits L q' pc := by
  have hother : ∀ p, place p = .held t' → place p ≠ .held t := by
    rintro p hp hp'
    rw [hp] at hp'
    cases hp'
    exact ht rfl
  have htail : ∀ {tail : Tagged} {n : Nat}, q.tail.Past tail → (q.tail = tail → q.Follows tail n) →
      q'.tail = tail → q'.Follows tail n := by
    intro tail n hpast hn heq
    have htail := hpast.eq_of_steps hf.tail heq
    exact hf.follows (fun a ha => h.tail_list (htail ▸ ha)) (hn htail)
  have hhead : ∀ {head : Tagged} {n : Nat}, q.head = head → q.Follows head n →
      q'.Follows head n := by
    rintro _ n rfl hn
    exact hf.follows (fun a ha => h.head_list ha) hn
  have hbehind : ∀ {head : Tagged}, q.head = head → q'.head = head → q.tail.ptr ≠ head.ptr →
      q'.tail.ptr ≠ head.ptr := by
    rintro _ rfl heq hne
    exact hf.behind heq hne
  cases pc with
  | push val pc =>
    cases pc with
    | alloc pc =>
      refine Pool.AllocFits.frame hfits hf.cursor fun a ha => hf.slot a ?_
      rw [h.cursor_pool ha]
      exact nofun
    | data p => trivial
    | next p => exact (hf.slot p (hother p (hheld p rfl))).trans hfits
    | tail p => exact hf.ready (hheld p rfl) ht hfits
    | load p tail =>
      exact ⟨hf.ready (hheld p rfl) ht hfits.1, hfits.2.1.steps hf.tail, hf.made hfits.2.2⟩
    | check p tail next =>
      obtain ⟨hready, hpast, hmade, hnext⟩ := hfits
      exact ⟨hf.ready (hheld p rfl) ht hready, hpast.steps hf.tail, hf.made hmade,
        fun n hn => htail hpast (hnext n hn)⟩
    | link p tail next =>
      obtain ⟨hready, hpast, hmade, hnone⟩ := hfits
      exact ⟨hf.ready (hheld p rfl) ht hready, hpast.steps hf.tail, hf.made hmade, hnone⟩
    | swing p tail => exact ⟨hfits.1.steps hf.tail, htail hfits.1 hfits.2⟩
    | help p tail next =>
      obtain ⟨hready, hpast, hnext⟩ := hfits
      exact ⟨hf.ready (hheld p rfl) ht hready, hpast.steps hf.tail, htail hpast hnext⟩
  | pop pc =>
    cases pc with
    | head => trivial
    | tail head => exact ⟨hfits.1.steps hf.head, hf.made hfits.2⟩
    | load head tail =>
      obtain ⟨hpast, hmade, hpast', hne⟩ := hfits
      refine ⟨hpast.steps hf.head, hf.made hmade, hpast'.steps hf.tail, fun heq hptr => ?_⟩
      have heq' := hpast.eq_of_steps hf.head heq
      exact hbehind heq' heq (hne heq' hptr)
    | check head tail next =>
      obtain ⟨hpast, hpast', hnext, hne⟩ := hfits
      refine ⟨hpast.steps hf.head, hpast'.steps hf.tail,
        fun n hn hptr => htail hpast' (hnext n hn hptr), fun heq hptr => ?_⟩
      have heq' := hpast.eq_of_steps hf.head heq
      obtain ⟨hbeh, n, hn, hfol⟩ := hne heq' hptr
      exact ⟨hbehind heq' heq hbeh, n, hn, hhead heq' hfol⟩
    | help tail next => exact ⟨hfits.1.steps hf.tail, htail hfits.1 hfits.2⟩
    | data head next =>
      obtain ⟨hpast, hnone, hnext⟩ := hfits
      refine ⟨hpast.steps hf.head, hnone, fun heq => ?_⟩
      have heq' := hpast.eq_of_steps hf.head heq
      obtain ⟨hbeh, n, hn, hfol⟩ := hnext heq'
      exact ⟨hbehind heq' heq hbeh, n, hn, hhead heq' hfol⟩
    | take head next val =>
      refine ⟨hfits.1.steps hf.head, fun heq => ?_⟩
      have heq' := hfits.1.eq_of_steps hf.head heq
      obtain ⟨hbeh, hfol, hslot⟩ := hfits.2 heq'
      refine ⟨hbehind heq' heq hbeh, hhead heq' hfol, (hf.slot next ?_).trans hslot⟩
      rw [h.next_list (heq' ▸ hfol)]
      exact nofun
    | free val pc =>
      have hheld' := hheld pc.node rfl
      refine ⟨hfits.1.frame hf.cursor (hf.slot _ (hother _ hheld')), ?_⟩
      rcases hf.next pc.node (hother _ hheld') with heq | ⟨hlist, -⟩
      · rw [heq]
        exact hfits.2
      · rw [hheld'] at hlist
        cases hlist

end MpmcList

end Footstone
