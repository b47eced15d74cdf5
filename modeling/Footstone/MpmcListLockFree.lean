import Footstone.Lib.LockFree
import Footstone.MpmcListOrder

/-!
`mpmc_list` is lock-free as well, its pool of nodes included. What makes others start again is that
`head_`, `tail_`, `cursor_` or a `next_` changes. A push is good for four such events: its node is
taken from the pool, gets its `next_`, is linked, and `tail_` comes to it. A pop is good for two:
it takes `head_`, and its node goes back to the pool.
-/

namespace Footstone

open Runs Linear

@[simp] theorem Tagged.same_refl (a : Tagged) : a.Same a := ⟨rfl, rfl⟩

namespace MpmcList

variable {α τ : Type} {L : Layout α}

/-! ## How far a call has come -/

/-- The events that are still to come of this push, other than that `tail_` comes to the node it has
linked. -/
def PushPc.owes : PushPc → Nat
  | alloc _ => 4
  | data _ | next _ => 3
  | tail _ | load .. | check .. | link .. | help .. => 2
  | swing .. => 0

def PopPc.owes : PopPc α → Nat
  | free .. => 1
  | _ => 2

def Pc.owes : Pc α → Nat
  | push _ pc => pc.owes
  | pop pc => pc.owes

/-- The accesses to the next event or to the node, when the others do nothing. -/
def allocAhead (p : Pool α) : AllocPc → Nat
  | .exchange => 5
  | .load => 4
  | .look curr => if p.cursor.Same curr then 3 else 5
  | .take curr tag _ => if p.cursor.Same ⟨some curr, tag⟩ then 1 else 4

def freeAhead (L : Layout α) (p : Pool α) : FreePc → Nat
  | .exchange _ => 5
  | .load _ => 4
  | .read _ curr => if p.cursor.Same curr then 3 else 6
  | .store temp curr old =>
    (if p.cursor.Same curr then 2 else 5) + if (p.link L temp).Same old then 0 else 1
  | .put _ curr => if p.cursor.Same curr then 1 else 4

namespace Queue

/-- A compare-exchange of `next_` finds what it expects. -/
def links (q : Queue α) (tail next : Tagged) : Bool :=
  tail.ptr.any fun a => decide ((q.next a).Same next)

def linkAhead (q : Queue α) (tail next : Tagged) : Nat := if q.links tail next then 1 else 5

def pushAhead (q : Queue α) : PushPc → Nat
  | .alloc pc => allocAhead q.pool pc
  | .data _ => 2
  | .next _ => 1
  | .tail _ => 4
  | .load _ tail => if q.tail.Same tail then 3 else 6
  | .check _ tail next =>
    if q.tail.Same tail then
      match next.ptr with
      | none => q.linkAhead tail next + 1
      | some _ => 2
    else 5
  | .link _ tail next => q.linkAhead tail next
  | .swing .. => 1
  | .help _ tail _ => if q.tail.Same tail then 1 else 4

def popAhead (L : Layout α) (q : Queue α) : PopPc α → Nat
  | .head => 6
  | .tail head => if q.head.Same head then 5 else 9
  | .load head tail => if q.head.Same head then if q.tail.Same tail then 4 else 9 else 8
  | .check head tail _ => if q.head.Same head then if q.tail.Same tail then 3 else 8 else 7
  | .help tail _ => if q.tail.Same tail then 1 else 7
  | .data head _ => if q.head.Same head then 2 else 7
  | .take head _ _ => if q.head.Same head then 1 else 6
  | .free _ pc => freeAhead L q.pool pc

/-- The accesses a thread has to its next event or to the end of its call, when the others do
nothing. -/
def ahead (L : Layout α) (q : Queue α) : Pc α → Nat
  | .push _ pc => q.pushAhead pc
  | .pop pc => q.popAhead L pc

/-- The compare-exchange that comes next, one of those that may fail for no reason, finds what it
expects. -/
def expected (L : Layout α) (q : Queue α) : Pc α → Bool
  | .push _ (.alloc (.take curr tag _)) => decide (q.pool.cursor.Same ⟨some curr, tag⟩)
  | .push _ (.link _ tail next) => q.links tail next
  | .push _ (.help _ tail _) | .pop (.help tail _) => decide (q.tail.Same tail)
  | .pop (.take head _ _) => decide (q.head.Same head)
  | .pop (.free _ (.store temp _ old)) => decide ((q.pool.link L temp).Same old)
  | .pop (.free _ (.put _ curr)) => decide (q.pool.cursor.Same curr)
  | _ => false

/-- An access that fails for no reason. -/
def spurious (L : Layout α) (q : Queue α) (ok : Bool) (pc : Pc α) : Bool := !ok && q.expected L pc

theorem linkAhead_le (q : Queue α) (tail next : Tagged) : q.linkAhead tail next ≤ 5 := by
  rw [linkAhead]
  split <;> omega

theorem ahead_le (L : Layout α) (q : Queue α) (pc : Pc α) : q.ahead L pc ≤ 9 := by
  cases pc with
  | push val pc =>
    cases pc with
    | alloc pc =>
      cases pc <;> simp only [ahead, pushAhead, allocAhead] <;> (try split) <;> omega
    | check p tail next =>
      have hle := q.linkAhead_le tail next
      simp only [ahead, pushAhead]
      split
      · split <;> omega
      · omega
    | link p tail next =>
      have hle := q.linkAhead_le tail next
      simp only [ahead, pushAhead]
      omega
    | _ =>
      simp only [ahead, pushAhead]
      first | omega | split <;> omega
  | pop pc =>
    cases pc with
    | free val pc =>
      cases pc <;> simp only [ahead, popAhead, freeAhead] <;> (repeat' split) <;> omega
    | _ =>
      simp only [ahead, popAhead]
      repeat' split
      all_goals omega

/-! ## What an access is good for -/

/-- The nodes from `tail_` on. -/
def Behind (q : Queue α) (l : List Nat) : Prop :=
  LinkedList.Path (fun a => (q.next a).ptr) q.tail.ptr l

/-- The others have not seen an access of a thread at `pc`. -/
structure Unseen (pc : Pc α) (q q' : Queue α) : Prop where
  head : q'.head = q.head
  tail : q'.tail = q.tail
  cursor : q'.pool.cursor = q.pool.cursor
  next : q'.next = q.next
  slot : ∀ a, pc.node? ≠ some a → q'.pool.slot a = q.pool.slot a

theorem Unseen.refl (pc : Pc α) (q : Queue α) : Unseen pc q q := ⟨rfl, rfl, rfl, rfl, fun _ _ => rfl⟩

/-- Not by a thread that has another node. -/
theorem Unseen.ahead {q q' : Queue α} {pc pc' : Pc α} (h : Unseen pc q q')
    (hne : ∀ a, pc'.node? = some a → pc.node? ≠ some a) : q'.ahead L pc' = q.ahead L pc' := by
  cases pc' with
  | push val pc' =>
    have hlinks : ∀ tail next, q'.linkAhead tail next = q.linkAhead tail next := by
      intro tail next
      rw [linkAhead, linkAhead, links, links, h.next]
    cases pc' with
    | alloc pc' => cases pc' <;> simp only [Queue.ahead, pushAhead, allocAhead, h.cursor]
    | _ => simp only [Queue.ahead, pushAhead, h.tail, hlinks]
  | pop pc' =>
    cases pc' with
    | free val pc' =>
      have hslot := h.slot pc'.node (hne pc'.node rfl)
      cases pc' with
      | store temp curr old =>
        have hlink : q'.pool.link L temp = q.pool.link L temp := congrArg (Slot.next L) hslot
        simp only [Queue.ahead, popAhead, freeAhead, h.cursor, hlink]
      | _ => simp only [Queue.ahead, popAhead, freeAhead, h.cursor]
    | _ => simp only [Queue.ahead, popAhead, h.head, h.tail]

/-- What an access does. An event makes what is owed for less by one: a node that `tail_` has not
come to stands for one event more. -/
inductive Gain (L : Layout α) (q : Queue α) (l : List Nat) (pc : Pc α) (q' : Queue α)
    (pc? : Option (Pc α)) (failed : Bool) : Prop
  | event (l' : List Nat) (behind : q'.Behind l')
      (lt : pc?.elim 0 Pc.owes + l'.length < pc.owes + l.length)
  | quiet (unseen : Unseen pc q q') (owes : pc?.elim 0 Pc.owes ≤ pc.owes)
      (ahead : pc?.elim 0 (q'.ahead L) + 1 ≤ q.ahead L pc + if failed then 6 else 0)

variable {q : Queue α} {l : List Nat} {pc : Pc α} {pc? : Option (Pc α)}

theorem Gain.look {failed : Bool} (howes : pc?.elim 0 Pc.owes ≤ pc.owes)
    (hahead : pc?.elim 0 (q.ahead L) < q.ahead L pc) : Gain L q l pc q pc? failed :=
  .quiet (.refl pc q) howes (Nat.le_add_right_of_le hahead)

/-- A compare-exchange that fails, which costs a turn of the loop unless that was certain. -/
theorem Gain.retry {P : Prop} [Decidable P] {ok : Bool} (h : ¬ (ok = true ∧ P))
    (howes : pc?.elim 0 Pc.owes ≤ pc.owes) (hle : pc?.elim 0 (q.ahead L) < q.ahead L pc + 6)
    (hlt : ¬ P → pc?.elim 0 (q.ahead L) < q.ahead L pc)
    (hexp : q.expected L pc = decide P := by rfl) :
    Gain L q l pc q pc? (q.spurious L ok pc) := by
  refine .quiet (.refl pc q) howes ?_
  by_cases hP : P
  · have hok : ok = false := by simpa [hP] using h
    simp only [spurious, hok, hexp, hP]
    exact hle
  · exact Nat.le_add_right_of_le (hlt hP)

/-- `head_` or `cursor_` changes. -/
theorem Gain.apart {q' : Queue α} {failed : Bool} (hl : q.Behind l) (htail : q'.tail = q.tail)
    (hnext : q'.next = q.next) (hlt : pc?.elim 0 Pc.owes < pc.owes) :
    Gain L q l pc q' pc? failed := by
  refine .event l ?_ (Nat.add_lt_add_right hlt _)
  rw [Behind, htail, hnext]
  exact hl

/-- `alloc`. -/
theorem gain_alloc (hl : q.Behind l) (ok : Bool) (val : α) (pc : AllocPc) {q' : Queue α}
    {pc? : Option PushPc} (hacc : q.push L ok val (.alloc pc) = some (q', pc?)) :
    Gain L q l (.push val (.alloc pc)) q' (pc?.map (.push val))
      (q.spurious L ok (.push val (.alloc pc))) := by
  cases pc with
  | exchange =>
    cases hel : q.pool.el with
    | some curr =>
      simp only [push, Pool.alloc, hel] at hacc
      cases hacc
      exact .quiet ⟨rfl, rfl, rfl, rfl, fun _ _ => rfl⟩ (Nat.le_succ 3)
        (Nat.le_add_right_of_le (Nat.le_add_right 3 2))
    | none =>
      simp only [push, Pool.alloc, hel] at hacc
      cases hacc
      exact .look (Nat.le_refl 4) (Nat.lt_succ_self 4)
  | load =>
    cases hacc
    refine .look (Nat.le_refl 4) ?_
    simp [ahead, pushAhead, allocAhead]
  | look curr =>
    cases hptr : curr.ptr with
    | none =>
      simp only [push, Pool.alloc, hptr] at hacc
      cases hacc
      refine .quiet ⟨rfl, rfl, rfl, rfl, fun _ _ => rfl⟩ (Nat.le_succ 3) (Nat.le_add_right_of_le ?_)
      simp only [Option.map_some, Option.elim_some, ahead, pushAhead, allocAhead]
      split <;> omega
    | some node =>
      simp only [push, Pool.alloc, hptr] at hacc
      cases hacc
      refine .look (Nat.le_refl 4) ?_
      simp only [Option.map_some, Option.elim_some, ahead, pushAhead, allocAhead, ← hptr]
      split <;> omega
  | take curr tag next =>
    simp only [push, Pool.alloc] at hacc
    by_cases hsame : ok = true ∧ q.pool.cursor.Same ⟨some curr, tag⟩
    · rw [if_pos hsame] at hacc
      cases hacc
      exact .apart hl rfl rfl (Nat.lt_succ_self 3)
    · rw [if_neg hsame] at hacc
      cases hacc
      have hlook : allocAhead q.pool (.look q.pool.cursor) = 3 := if_pos (Tagged.same_refl _)
      refine .retry hsame (Nat.le_refl 4) (hlook.trans_lt (by omega)) fun hne => hlook.trans_lt ?_
      simp [ahead, pushAhead, allocAhead, hne]

/-- `tail_` goes on by one node. -/
theorem Behind.advance (h : q.Behind l) {n : Nat} (hn : q.Follows q.tail n) :
    ∃ l', ({ q with tail := q.tail.swap (some n) } : Queue α).Behind l' ∧ l'.length + 1 = l.length := by
  obtain ⟨a, ha, hnext⟩ := hn
  rw [Behind, ha] at h
  obtain ⟨l', rfl, hl'⟩ := h.eq_cons
  exact ⟨l', hnext ▸ hl', rfl⟩

variable {place : Nat → Place τ} {chain stack : List Nat} {items : List α} {t : τ}

/-- What is behind `tail_` is the end of the list. -/
theorem Behind.suffix (hl : q.Behind l) (h : Shape L q place chain stack items) :
    l ≠ [] ∧ ∃ l₀, chain = l₀ ++ l := by
  obtain ⟨a, ha, htail⟩ := h.tail
  obtain ⟨l₁, l₂, rfl⟩ := List.append_of_mem ha
  rw [Behind, htail] at hl
  obtain rfl := hl.unique h.path.suffix
  exact ⟨nofun, l₁, rfl⟩

/-- A node that is not in the list gets its `next_`. -/
theorem Behind.setNext (hl : q.Behind l) (h : Shape L q place chain stack items) {p : Nat}
    (hp : place p = .held t) (next : Tagged) : (q.setNext p next).Behind l := by
  obtain ⟨-, l₀, rfl⟩ := hl.suffix h
  refine LinkedList.Path.congr hl fun a ha => ?_
  have hne : a ≠ p := by
    rintro rfl
    rw [(h.list a).mpr (List.mem_append_right _ ha)] at hp
    cases hp
  show (Function.update q.next p next a).ptr = (q.next a).ptr
  rw [Function.update_of_ne hne]

/-- A node is linked behind the last one. -/
theorem Behind.link (hl : q.Behind l) (h : Shape L q place chain stack items) {a p : Nat} {val : α}
    (ha : place a = .list) (hlast : (q.next a).ptr = none) (hp : place p = .held t)
    (hready : q.Ready val p) :
    ∃ l', (q.setNext a ((q.next a).swap (some p))).Behind l' ∧ l'.length = l.length + 1 := by
  obtain ⟨hne, l₀, rfl⟩ := hl.suffix h
  obtain ⟨l₁, hl₁⟩ := h.path.eq_concat ((h.list a).mp ha) hlast
  have hmem : a ∈ l := by
    have hend : (l₀ ++ l).getLast? = some a := by rw [hl₁, List.getLast?_concat]
    rw [List.getLast?_append_of_ne_nil _ hne] at hend
    exact List.mem_of_getLast? hend
  obtain ⟨l₂, rfl⟩ := LinkedList.Path.eq_concat hl hmem hlast
  have hnew : p ∉ l₂ ++ [a] := by
    intro hm
    rw [(h.list p).mpr (List.mem_append_right _ hm)] at hp
    cases hp
  refine ⟨l₂ ++ [a, p], (LinkedList.Path.concat hl hready.2 hnew).congr fun b _ => ?_, by simp⟩
  show (Function.update q.next a ((q.next a).swap (some p)) b).ptr =
    Function.update (fun c => (q.next c).ptr) a (some p) b
  by_cases hb : b = a
  · subst hb
    rw [Function.update_self, Function.update_self]
    rfl
  · rw [Function.update_of_ne hb, Function.update_of_ne hb]

/-- `tail_` is moved on by a thread that has seen it where it is. -/
theorem Gain.advances (hl : q.Behind l) {tail : Tagged} (hpast : q.tail.Past tail)
    (hnear : q.tail.Near tail) (hsame : q.tail.Same tail) {n : Nat}
    (hnext : q.tail = tail → q.Follows tail n) {failed : Bool}
    (howes : pc?.elim 0 Pc.owes ≤ pc.owes) :
    Gain L q l pc { q with tail := q.tail.swap (some n) } pc? failed := by
  have htail := (hpast.same_iff hnear).mp hsame
  obtain ⟨l', hl', hlen⟩ := hl.advance (htail ▸ hnext htail)
  exact .event l' hl' (by omega)

/-- **One access of a push.** -/
theorem gain_push (h : Shape L q place chain stack items) (hl : q.Behind l) {val : α} {pc : PushPc}
    {pc? : Option PushPc} {ok : Bool} {q' : Queue α}
    (hheld : ∀ a, place a = .held t ↔ pc.node? = some a) (hfits : PushFits L q val pc)
    (hneart : ∀ old ∈ pc.tail?, q.tail.Near old)
    (hlinks : ∀ x ∈ pc.links?, ok = true → ∀ a ∈ x.1.ptr, (q.next a).Same x.2 → place a = .list)
    (hacc : q.push L ok val pc = some (q', pc?)) :
    Gain L q l (.push val pc) q' (pc?.map (.push val)) (q.spurious L ok (.push val pc)) := by
  cases pc with
  | alloc pc => exact gain_alloc hl ok val pc hacc
  | data p =>
    cases hacc
    refine .quiet ⟨rfl, rfl, rfl, rfl, fun a ha => ?_⟩ (Nat.le_refl 3)
      (Nat.le_add_right_of_le (Nat.le_refl 2))
    exact Function.update_of_ne (fun hap => ha (congrArg some hap.symm)) _ _
  | next p =>
    cases hacc
    exact .event l (hl.setNext h ((hheld p).mpr rfl) {}) (Nat.add_lt_add_right (Nat.lt_succ_self 2) _)
  | tail p =>
    cases hacc
    exact .look (Nat.le_refl 2) (by simp [ahead, pushAhead])
  | load p tail =>
    obtain ⟨-, -, a, hptr, -⟩ := hfits
    simp only [push, hptr, Option.map_some] at hacc
    cases hacc
    refine .look (Nat.le_refl 2) ?_
    have hlink : q.linkAhead tail (q.next a) = 1 := by simp [linkAhead, links, hptr]
    simp only [Option.map_some, Option.elim_some, ahead, pushAhead, hlink]
    split
    · split <;> omega
    · omega
  | check p tail next =>
    simp only [push] at hacc
    by_cases hsame : q.tail.Same tail
    · rw [if_pos hsame] at hacc
      cases hptr : next.ptr with
      | none =>
        simp only [hptr] at hacc
        cases hacc
        exact .look (Nat.le_refl 2) (by simp [ahead, pushAhead, hsame, hptr])
      | some n =>
        simp only [hptr] at hacc
        cases hacc
        exact .look (Nat.le_refl 2) (by simp [ahead, pushAhead, hsame, hptr])
    · rw [if_neg hsame] at hacc
      cases hacc
      exact .look (Nat.le_refl 2) (by simp [ahead, pushAhead, hsame])
  | link p tail next =>
    obtain ⟨hready, hpast, ⟨a, hptr, hlt⟩, hnone⟩ := hfits
    simp only [push, hptr, Option.map_some] at hacc
    by_cases hsame : ok = true ∧ (q.next a).Same next
    · rw [if_pos hsame] at hacc
      cases hacc
      have hlast : (q.next a).ptr = none := hsame.2.1.trans hnone
      have hlist := hlinks _ rfl hsame.1 a hptr hsame.2
      obtain ⟨l', hl', hlen⟩ := hl.link h hlist hlast ((hheld p).mpr rfl) hready
      refine .event l' hl' ?_
      simp only [Option.map_some, Option.elim_some, Pc.owes, PushPc.owes]
      omega
    · rw [if_neg hsame] at hacc
      cases hacc
      refine .retry hsame (Nat.le_refl 2) (by simp [ahead, pushAhead]) (fun hne => ?_)
        (by simp [expected, links, hptr])
      simp [ahead, pushAhead, linkAhead, links, hptr, hne]
  | swing p tail =>
    obtain ⟨hpast, hnext⟩ := hfits
    simp only [push] at hacc
    by_cases hsame : q.tail.Same tail
    · rw [if_pos hsame] at hacc
      cases hacc
      exact .advances hl hpast (hneart _ rfl) hsame hnext (Nat.zero_le _)
    · rw [if_neg hsame] at hacc
      cases hacc
      exact .look (Nat.zero_le _) Nat.one_pos
  | help p tail next =>
    obtain ⟨-, hpast, hnext⟩ := hfits
    simp only [push] at hacc
    by_cases hsame : ok = true ∧ q.tail.Same tail
    · rw [if_pos hsame] at hacc
      cases hacc
      exact .advances hl hpast (hneart _ rfl) hsame.2 hnext (Nat.le_refl 2)
    · rw [if_neg hsame] at hacc
      cases hacc
      have hload : q.pushAhead (.load p q.tail) = 3 := if_pos (Tagged.same_refl _)
      refine .retry hsame (Nat.le_refl 2) (hload.trans_lt (by omega)) fun hne => hload.trans_lt ?_
      simp [ahead, pushAhead, hne]

/-- `free`. -/
theorem gain_free (hl : q.Behind l) {ok : Bool} {val : α} {pc : FreePc} {q' : Queue α}
    {next : PopPc α ⊕ FifoRet α} (hacc : q.pop L ok (.free val pc) = some (q', next)) :
    Gain L q l (.pop (.free val pc)) q' (next.getLeft?.map .pop)
      (q.spurious L ok (.pop (.free val pc))) := by
  cases pc with
  | exchange p =>
    cases hel : q.pool.el with
    | some temp =>
      simp only [pop, Pool.free, hel, Option.map_some] at hacc
      cases hacc
      exact .quiet ⟨rfl, rfl, rfl, rfl, fun _ _ => rfl⟩ (Nat.le_refl 1)
        (Nat.le_add_right_of_le (Nat.le_refl 5))
    | none =>
      simp only [pop, Pool.free, hel, Option.map_none] at hacc
      cases hacc
      exact .quiet ⟨rfl, rfl, rfl, rfl, fun _ _ => rfl⟩ (Nat.zero_le _)
        (Nat.le_add_right_of_le (Nat.le_add_left 1 4))
  | load temp =>
    cases hacc
    exact .look (Nat.le_refl 1) (by simp [ahead, popAhead, freeAhead])
  | read temp curr =>
    cases hacc
    refine .look (Nat.le_refl 1) ?_
    simp only [Sum.getLeft?_inl, Option.map_some, Option.elim_some, ahead, popAhead, freeAhead,
      Tagged.same_refl, if_true]
    split <;> omega
  | store temp curr old =>
    simp only [pop, Pool.free] at hacc
    by_cases hsame : ok = true ∧ (q.pool.link L temp).Same old
    · rw [if_pos hsame] at hacc
      cases hacc
      refine .quiet ⟨rfl, rfl, rfl, rfl, fun a ha => ?_⟩ (Nat.le_refl 1) (Nat.le_add_right_of_le ?_)
      · exact Function.update_of_ne (fun hap => ha (congrArg some hap.symm)) _ _
      · simp only [Sum.getLeft?_inl, Option.map_some, Option.elim_some, ahead, popAhead, freeAhead,
          Pool.setSlot]
        split <;> omega
    · rw [if_neg hsame] at hacc
      cases hacc
      refine .retry hsame (Nat.le_refl 1) ?_ fun hne => ?_
      · simp only [Sum.getLeft?_inl, Option.map_some, Option.elim_some, ahead, popAhead, freeAhead,
          Tagged.same_refl, if_true]
        omega
      · simp [ahead, popAhead, freeAhead, hne]
  | put temp curr =>
    simp only [pop, Pool.free] at hacc
    by_cases hsame : ok = true ∧ q.pool.cursor.Same curr
    · rw [if_pos hsame] at hacc
      cases hacc
      exact .apart hl rfl rfl Nat.one_pos
    · rw [if_neg hsame] at hacc
      cases hacc
      have hread : freeAhead L q.pool (.read temp q.pool.cursor) = 3 := if_pos (Tagged.same_refl _)
      refine .retry hsame (Nat.le_refl 1) (hread.trans_lt (by omega)) fun hne => hread.trans_lt ?_
      simp [ahead, popAhead, freeAhead, hne]

/-- **One access of a pop.** -/
theorem gain_pop (hl : q.Behind l) {pc : PopPc α} {next : PopPc α ⊕ FifoRet α} {ok : Bool}
    {q' : Queue α} (hfits : PopFits L q pc) (hneart : ∀ old ∈ pc.tail?, q.tail.Near old)
    (hacc : q.pop L ok pc = some (q', next)) :
    Gain L q l (.pop pc) q' (next.getLeft?.map .pop) (q.spurious L ok (.pop pc)) := by
  cases pc with
  | head =>
    cases hacc
    exact .look (Nat.le_refl 2) (by simp [ahead, popAhead])
  | tail head =>
    cases hacc
    refine .look (Nat.le_refl 2) ?_
    simp only [Sum.getLeft?_inl, Option.map_some, Option.elim_some, ahead, popAhead,
      Tagged.same_refl, if_true]
    split <;> omega
  | load head tail =>
    obtain ⟨-, ⟨a, hptr, -⟩, -⟩ := hfits
    simp only [pop, hptr, Option.map_some] at hacc
    cases hacc
    refine .look (Nat.le_refl 2) ?_
    simp only [Sum.getLeft?_inl, Option.map_some, Option.elim_some, ahead, popAhead]
    repeat' split
    all_goals omega
  | check head tail next =>
    simp only [pop] at hacc
    by_cases hsame : q.head.Same head
    · have hahead : 2 < q.ahead L (.pop (.check head tail next)) := by
        simp only [ahead, popAhead, if_pos hsame]
        split <;> omega
      rw [if_pos hsame] at hacc
      by_cases hptr : head.ptr = tail.ptr
      · rw [if_pos hptr] at hacc
        cases next with
        | none =>
          cases hacc
          exact .look (Nat.zero_le _) (Nat.zero_lt_of_lt hahead)
        | some n =>
          cases hacc
          refine .look (Nat.le_refl 2) ?_
          simp only [Sum.getLeft?_inl, Option.map_some, Option.elim_some, ahead, popAhead,
            if_pos hsame]
          split <;> omega
      · rw [if_neg hptr] at hacc
        cases hacc
        exact .look (Nat.le_refl 2) (by simpa [ahead, popAhead, hsame] using hahead)
    · rw [if_neg hsame] at hacc
      cases hacc
      exact .look (Nat.le_refl 2) (by simp [ahead, popAhead, hsame])
  | help tail next =>
    obtain ⟨hpast, hnext⟩ := hfits
    simp only [pop] at hacc
    by_cases hsame : ok = true ∧ q.tail.Same tail
    · rw [if_pos hsame] at hacc
      cases hacc
      exact .advances hl hpast (hneart _ rfl) hsame.2 hnext (Nat.le_refl 2)
    · rw [if_neg hsame] at hacc
      cases hacc
      refine .retry hsame (Nat.le_refl 2) ?_ fun hne => ?_
      · show 6 < _ + 6
        simp only [ahead, popAhead]
        split <;> omega
      · simp [ahead, popAhead, hne]
  | data head next =>
    cases next with
    | none => cases hacc
    | some n =>
      cases hacc
      refine .look (Nat.le_refl 2) ?_
      simp only [Sum.getLeft?_inl, Option.map_some, Option.elim_some, ahead, popAhead]
      split <;> omega
  | take head next val =>
    simp only [pop] at hacc
    by_cases hsame : ok = true ∧ q.head.Same head
    · rw [if_pos hsame] at hacc
      cases hptr : head.ptr with
      | none =>
        simp only [hptr] at hacc
        cases hacc
        exact .apart hl rfl rfl Nat.two_pos
      | some p =>
        simp only [hptr] at hacc
        cases hacc
        exact .apart hl rfl rfl (Nat.lt_succ_self 1)
    · rw [if_neg hsame] at hacc
      cases hacc
      have htail : q.popAhead L (.tail q.head) = 5 := if_pos (Tagged.same_refl _)
      refine .retry hsame (Nat.le_refl 2) (htail.trans_lt (by omega)) fun hne => htail.trans_lt ?_
      simp [ahead, popAhead, hne]
  | free val pc => exact gain_free hl hacc

/-- **What one access is good for**: its thread comes nearer to the end of the call, or an event
happens. -/
theorem gain_access (h : Shape L q place chain stack items) (hl : q.Behind l) {pc : Pc α}
    {next : Pc α ⊕ FifoRet α} {ok : Bool} {q' : Queue α}
    (hheld : ∀ a, place a = .held t ↔ pc.node? = some a) (hfits : Fits L q pc) (hnear : q.Near pc)
    (hlinks : ∀ x ∈ pc.links?, ok = true → ∀ a ∈ x.1.ptr, (q.next a).Same x.2 → place a = .list)
    (hacc : q.access L ok pc = some (q', next)) :
    Gain L q l pc q' next.getLeft? (q.spurious L ok pc) := by
  obtain ⟨-, hneart, -⟩ := hnear
  cases pc with
  | push val pc =>
    obtain ⟨⟨q'', pc?⟩, hpush, heq⟩ := Option.map_eq_some_iff.mp hacc
    cases heq
    have hgain := gain_push h hl hheld hfits hneart hlinks hpush
    cases pc? with
    | none => exact hgain
    | some pc' => exact hgain
  | pop pc =>
    obtain ⟨⟨q'', next'⟩, hpop, heq⟩ := Option.map_eq_some_iff.mp hacc
    cases heq
    have hgain := gain_pop hl hfits hneart hpop
    cases next' with
    | inl pc' => exact hgain
    | inr ret => exact hgain

end Queue

/-! ## In every run -/

def Op.isPush : Op τ α → Bool
  | .push .. => true
  | _ => false

def Op.isPop : Op τ α → Bool
  | .pop _ => true
  | _ => false

def Op.isAccess : Op τ α → Bool
  | .access .. => true
  | _ => false

namespace System

/-- The step is a compare-exchange that fails for no reason. -/
def spurious (L : Layout α) (s : System τ α) : Op τ α → Bool
  | .access t ok => (s.pc t).elim false (s.queue.spurious L ok)
  | _ => false

/-- What a call pays for, and how far its own accesses go. -/
def lockFree (L : Layout α) (τ : Type) : LockFree (System τ α) τ (Op τ α) where
  ahead s t := (s.pc t).elim 0 (s.queue.ahead L)
  most := 9
  events
    | .push .. => 4
    | .pop _ => 2
    | .access .. => 0
  more s
    | .push .. => 5
    | .pop _ => 6
    | .access t ok => if s.spurious L (.access t ok) then 6 else 0

section

variable [Fintype τ] {s s' : System τ α} {place : Nat → Place τ} {chain stack : List Nat}
  {items : List α} {log : List (Point (FifoOp α) (FifoRet α))} {t : τ}

/-- The events that are paid for: what the calls owe, and one for each node that `tail_` has not
come to. -/
def Paid (s : System τ α) (c : Nat) : Prop :=
  ∃ l, s.queue.Behind l ∧ c + 1 = ∑ t, (s.pc t).elim 0 Pc.owes + l.length

theorem Inv.paid (h : Inv L s place chain stack items log) : ∃ c, s.Paid c := by
  obtain ⟨a, ha, htail⟩ := h.shape.tail
  obtain ⟨l₁, l₂, rfl⟩ := List.append_of_mem ha
  refine ⟨∑ t, (s.pc t).elim 0 Pc.owes + l₂.length, a :: l₂, ?_, rfl⟩
  rw [Queue.Behind, htail]
  exact h.shape.path.suffix

variable [DecidableEq τ]

/-- What a step of one thread does to what is paid for. -/
theorem Paid.goOn {c : Nat} (hpaid : s.Paid c) (hinv : Inv L s' place chain stack items log)
    {pc? : Option (Pc α)} (hpc : s'.pc = Function.update s.pc t pc?) {l l' : List Nat}
    (hl : s.queue.Behind l) (hl' : s'.queue.Behind l') (less more : Nat)
    (h : pc?.elim 0 Pc.owes + l'.length + less ≤ (s.pc t).elim 0 Pc.owes + l.length + more) :
    ∃ c', s'.Paid c' ∧ c' + less ≤ c + more := by
  obtain ⟨c', l₁, hl₁, hc'⟩ := hinv.paid
  obtain ⟨l₂, hl₂, hc⟩ := hpaid
  obtain rfl := hl'.unique hl₁
  obtain rfl := hl.unique hl₂
  refine ⟨c', ⟨l', hl', hc'⟩, ?_⟩
  have hsum := Variant.sum_update (fun pc? : Option (Pc α) => pc?.elim 0 Pc.owes) s.pc t pc?
  rw [hpc] at hc'
  omega

omit [Fintype τ] in
/-- A step of one thread that the others do not see. -/
theorem quiet {op : Op τ α} {pc? : Option (Pc α)} (hpc : s'.pc = Function.update s.pc t pc?)
    (hothers : ∀ u, u ≠ t → ∀ pc ∈ s.pc u, s'.queue.ahead L pc = s.queue.ahead L pc)
    (hown : pc?.elim 0 (s'.queue.ahead L) + (if op.isAccess then 1 else 0) ≤
      (s.pc t).elim 0 (s.queue.ahead L) + (lockFree L τ).more s op) :
    (lockFree L τ).Quiet Op.isAccess s s' op t where
  others u hu := by
    show (s'.pc u).elim 0 (s'.queue.ahead L) = (s.pc u).elim 0 (s.queue.ahead L)
    rw [hpc, Function.update_of_ne hu]
    cases hpcu : s.pc u with
    | none => rfl
    | some pc => exact hothers u hu pc hpcu
  own := by
    show (s'.pc t).elim 0 (s'.queue.ahead L) + _ ≤ _
    rw [hpc, Function.update_self]
    exact hown

theorem kept (L : Layout α) : (lockFree L τ).Kept (step L) (fun s op => s.NoWrap op ∧ s.LinksLinked op)
    Op.isAccess (fun s c => (∃ place chain stack items log, s.Inv L place chain stack items log) ∧
      s.Paid c) where
  ahead_le s t := by
    show (s.pc t).elim 0 (s.queue.ahead L) ≤ 9
    cases s.pc t with
    | none => exact Nat.zero_le 9
    | some pc => exact s.queue.ahead_le L pc
  step {s op s' c} hs hc h := by
    obtain ⟨⟨place, chain, stack, items, log, hinv⟩, hpaid⟩ := hs
    obtain ⟨place', chain', stack', items', log', hinv'⟩ := hinv.step hc.1 hc.2 h
    obtain ⟨l, hl, -⟩ := id hpaid
    cases op with
    | push t val =>
      obtain ⟨hidle, rfl⟩ := step_push_eq_ok.mp h
      obtain ⟨c', hpaid', hle⟩ := hpaid.goOn hinv' rfl hl hl 0 4 (by
        rw [hidle]
        simp [Pc.owes, PushPc.owes]
        omega)
      refine ⟨c', ⟨⟨_, _, _, _, _, hinv'⟩, hpaid'⟩, Or.inr ⟨hle, t, quiet rfl (fun _ _ _ _ => rfl) ?_⟩⟩
      rw [hidle]
      exact Nat.le_refl 5
    | pop t =>
      obtain ⟨hidle, rfl⟩ := step_pop_eq_ok.mp h
      obtain ⟨c', hpaid', hle⟩ := hpaid.goOn hinv' rfl hl hl 0 2 (by
        rw [hidle]
        simp [Pc.owes, PopPc.owes]
        omega)
      refine ⟨c', ⟨⟨_, _, _, _, _, hinv'⟩, hpaid'⟩, Or.inr ⟨hle, t, quiet rfl (fun _ _ _ _ => rfl) ?_⟩⟩
      rw [hidle]
      exact Nat.le_refl 6
    | access t ok =>
      obtain ⟨pc, q, next, hpc, hacc, hnext⟩ := step_access h
      have hheld : ∀ a, place a = .held t ↔ pc.node? = some a := by
        intro a
        rw [hinv.held t a, hpc]
        simp
      have hgoes : s'.queue = q ∧ s'.pc = Function.update s.pc t next.getLeft? := by
        rcases hnext with ⟨pc', rfl, rfl⟩ | ⟨ret, rfl, rfl⟩ <;> exact ⟨rfl, rfl⟩
      obtain ⟨rfl, hpc'⟩ := hgoes
      cases Queue.gain_access hinv.shape hl hheld (hinv.fits t pc hpc) (hc.1 pc hpc)
        (fun x hx hok a ha hsame => hinv.links_list hc.2 hpc hx hok ha hsame) hacc with
      | event l' hl' hlt =>
        obtain ⟨c', hpaid', hlt'⟩ := hpaid.goOn hinv' hpc' hl hl' 1 0 (by
          rw [hpc]
          exact hlt)
        exact ⟨c', ⟨⟨_, _, _, _, _, hinv'⟩, hpaid'⟩, Or.inl hlt'⟩
      | quiet hunseen howes hahead =>
        have hl' : s'.queue.Behind l := by
          rw [Queue.Behind, hunseen.tail, hunseen.next]
          exact hl
        obtain ⟨c', hpaid', hle⟩ := hpaid.goOn hinv' hpc' hl hl' 0 0 (by
          rw [hpc]
          exact Nat.add_le_add_right howes _)
        refine ⟨c', ⟨⟨_, _, _, _, _, hinv'⟩, hpaid'⟩, Or.inr ⟨hle, t, quiet hpc' ?_ ?_⟩⟩
        · intro u hu pc' hpcu
          refine hunseen.ahead fun a ha hown => hu ?_
          have hplace := (hinv.held u a).mpr ⟨pc', hpcu, ha⟩
          rw [(hheld a).mpr hown] at hplace
          cases hplace
          rfl
        · rw [hpc]
          simpa [lockFree, spurious, Op.isAccess, hpc] using hahead

omit [DecidableEq τ] in
/-- What the calls pay. -/
theorem pay_le (s : System τ α) (op : Op τ α) :
    (lockFree L τ).price * (lockFree L τ).events op + (lockFree L τ).more s op ≤
      (if op.isPush then 36 * Fintype.card τ + 9 else 0) +
      (if op.isPop then 18 * Fintype.card τ + 8 else 0) + if s.spurious L op then 6 else 0 := by
  have hprice : (lockFree L τ).price = Fintype.card τ * 9 + 1 := rfl
  cases op with
  | push t val =>
    rw [hprice]
    simp [lockFree, Op.isPush, Op.isPop, spurious]
    omega
  | pop t =>
    rw [hprice]
    simp [lockFree, Op.isPush, Op.isPop, spurious]
    omega
  | access t ok =>
    show _ * 0 + (if s.spurious L (.access t ok) then 6 else 0) ≤
      0 + 0 + if s.spurious L (.access t ok) then 6 else 0
    simp only [Nat.mul_zero, Nat.zero_add, Nat.le_refl]

end

end System

/-- **`mpmc_list` is lock-free.** -/
theorem mpmcList_lock_free [Fintype τ] [DecidableEq τ] [Inhabited α] (L : Layout α)
    {ops : List (Op τ α)} (hwrap : Meets (System.step L) System.NoWrap (System.new τ α) ops)
    (hlinked : Meets (System.step L) System.LinksLinked (System.new τ α) ops) :
    count (System.step L) (fun _ op => op.isAccess) (System.new τ α) ops ≤
      (36 * Fintype.card τ + 9) * count (System.step L) (fun _ op => op.isPush) (System.new τ α) ops +
      (18 * Fintype.card τ + 8) * count (System.step L) (fun _ op => op.isPop) (System.new τ α) ops +
      6 * count (System.step L) (System.spurious L) (System.new τ α) ops := by
  have hpaid : (System.new τ α).Paid 0 := ⟨[0], ⟨rfl, rfl⟩, by simp [System.new]⟩
  exact (System.kept L).lock_free ⟨⟨_, _, _, _, _, System.inv_new L⟩, hpaid⟩ (fun _ => rfl)
    (meets_and hwrap hlinked) System.pay_le

/-- Two pushes want to link their nodes behind the same one. The one that comes first fails for no
reason, and then for good. -/
def contended : List (Op Bool Nat) :=
  .push false 10 :: goes false 8 ++ .access false false :: goes false 3 ++ .push true 20 ::
    goes true 10 ++ goes false 6 ++ .pop true :: goes true 7

theorem mpmcList_lock_free_contended :
    count (System.step numbers) (fun _ op => op.isAccess) (System.new Bool Nat) contended ≤
      81 * count (System.step numbers) (fun _ op => op.isPush) (System.new Bool Nat) contended +
      44 * count (System.step numbers) (fun _ op => op.isPop) (System.new Bool Nat) contended +
      6 * count (System.step numbers) (System.spurious numbers) (System.new Bool Nat) contended :=
  mpmcList_lock_free numbers (by decide) (by decide)

end MpmcList

end Footstone
