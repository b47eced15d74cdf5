import Footstone.MpmcListShape

/-!
What one access of a thread makes of an `mpmc_list`: the nodes after it, what the others
see of it, and what the thread knows then. A push takes effect when it links its node, a
pop when it takes `head_`; a pop that finds nothing has read a null pointer from the
first node while it was the first.
-/

namespace Footstone

namespace MpmcList

open Linear

variable {α τ : Type} {L : Layout α} {q q' : Queue α} {place place' : Nat → Place τ}
  {chain stack : List Nat} {items items' : List α} {t t' : τ}

/-- A step of the thread `t` from `q` to `q'`, with the nodes of the others as they were. -/
structure Leads (L : Layout α) (t : τ) (place : Nat → Place τ) (q q' : Queue α)
    (place' : Nat → Place τ) (items' : List α) : Prop where
  shape : ∃ chain stack, Shape L q' place' chain stack items'
  frame : Frame place t q q'
  others : ∀ t' ≠ t, ∀ a, place' a = .held t' ↔ place a = .held t'

theorem Shape.leads (h : Shape L q place chain stack items) (t : τ) :
    Leads L t place q q place items where
  shape := ⟨chain, stack, h⟩
  frame := Frame.refl place t q
  others _ _ _ := Iff.rfl

/-- A thread that has no node gets one. -/
theorem update_held {p : Nat} (hnone : ∀ a, place a ≠ .held t) (a : Nat) :
    Function.update place p (.held t) a = .held t ↔ some p = some a := by
  by_cases ha : a = p
  · simp [ha]
  · rw [Function.update_of_ne ha]
    exact iff_of_false (hnone a) (by simpa using Ne.symm ha)

theorem held_ne {p : Nat} (hp : place p = .held t) : ∀ t' ≠ t, place p ≠ .held t' := by
  rintro t' ht hp'
  rw [hp] at hp'
  cases hp'
  exact ht rfl

@[simp] theorem next_setNext (a : Nat) (next : Tagged) (q : Queue α) :
    (q.setNext a next).next a = next :=
  Function.update_self ..

theorem Shape.lt_size (h : Shape L q place chain stack items) {a : Nat} (ha : place a ≠ .fresh) :
    a < q.pool.size :=
  Nat.not_le.mp fun hle => ha ((h.fresh a).mpr hle)

theorem Shape.tail_made (h : Shape L q place chain stack items) : q.Made q.tail := by
  obtain ⟨a, ha, htail⟩ := h.tail
  exact ⟨a, htail, h.lt_size (by rw [(h.list a).mpr ha]; exact nofun)⟩

theorem Shape.head_made (h : Shape L q place chain stack items) : q.Made q.head := by
  obtain ⟨a, rest, rfl, ha, -⟩ := h.first
  exact ⟨a, ha, h.lt_size (by rw [(h.list a).mpr List.mem_cons_self]; exact nofun)⟩

/-! ## The changes -/

/-- `tail_` moves on to the next node. -/
theorem Shape.advance (h : Shape L q place chain stack items) (t : τ) {n : Nat}
    (hn : q.Follows q.tail n) :
    Leads L t place q { q with tail := q.tail.swap (some n) } place items := by
  obtain ⟨a, ha, hnext⟩ := hn
  obtain ⟨b, hb, hb'⟩ := h.tail
  rw [ha] at hb'
  cases hb'
  obtain ⟨c, rest, rfl, hc, -⟩ := h.first
  have hmem : n ∈ rest := h.path.next_mem hb hnext
  refine ⟨⟨c :: rest, stack, h.pool, h.fresh, h.path, h.list,
    ⟨n, List.mem_cons_of_mem _ hmem, rfl⟩, h.data, h.pooled⟩, ?_, fun _ _ _ => Iff.rfl⟩
  refine ⟨Tagged.steps_refl _, Tagged.steps_swap _ _, Tagged.steps_refl _, Nat.le_refl _,
    fun _ _ => rfl, fun _ _ => Or.inl rfl, fun _ _ heq => ?_⟩
  rw [hc] at heq
  cases heq
  exact (List.nodup_cons.mp h.path.nodup).1 hmem

/-- The slots of the list are what they were. -/
theorem Shape.map_slot (h : Shape L q place chain stack items) {slot : Nat → Slot α}
    (hslot : ∀ a, place a = .list → slot a = q.pool.slot a) :
    chain.tail.map slot = items.map .data := by
  rw [← h.data]
  exact List.map_congr_left fun a ha => hslot a ((h.list a).mpr (List.mem_of_mem_tail ha))

/-- The thread constructs `data_` of its node. -/
theorem Shape.setData (h : Shape L q place chain stack items) {p : Nat} (hp : place p = .held t)
    (val : α) :
    Leads L t place q { q with pool := q.pool.setSlot p (.data val) } place items := by
  have hslot : ∀ a, place a ≠ .held t → (q.pool.setSlot p (.data val)).slot a = q.pool.slot a := by
    intro a ha
    refine Function.update_of_ne ?_ _ _
    rintro rfl
    exact ha hp
  refine ⟨⟨chain, stack, h.pool.setSlot (by rw [hp]; exact nofun) _, h.fresh, h.path, h.list, h.tail,
    h.map_slot fun a ha => hslot a (by rw [ha]; exact nofun), h.pooled⟩, ?_, fun _ _ _ => Iff.rfl⟩
  exact ⟨Tagged.steps_refl _, Tagged.steps_refl _, Tagged.steps_refl _, Nat.le_refl _, hslot,
    fun _ _ => Or.inl rfl, fun _ hb => hb⟩

/-- And `next_`. -/
theorem Shape.setNext (h : Shape L q place chain stack items) {p : Nat} (hp : place p = .held t)
    (next : Tagged) : Leads L t place q (q.setNext p next) place items := by
  have hnext : ∀ a, place a ≠ .held t → (q.setNext p next).next a = q.next a := by
    intro a ha
    refine Function.update_of_ne ?_ _ _
    rintro rfl
    exact ha hp
  refine ⟨⟨chain, stack, h.pool, h.fresh, h.path.congr fun a ha => ?_, h.list, h.tail, h.data,
    fun a ha => ?_⟩, ?_, fun _ _ _ => Iff.rfl⟩
  · rw [hnext a (by rw [(h.list a).mpr ha]; exact nofun)]
  · rw [hnext a (by rw [ha]; exact nofun)]
    exact h.pooled a ha
  · exact ⟨Tagged.steps_refl _, Tagged.steps_refl _, Tagged.steps_refl _, Nat.le_refl _,
      fun _ _ => rfl, fun a ha => Or.inl (hnext a ha), fun _ hb => hb⟩

/-- The thread links its node behind the last one. -/
theorem Shape.link (h : Shape L q place chain stack items) {a p : Nat} {val : α}
    (ha : place a = .list) (hlast : (q.next a).ptr = none) (hp : place p = .held t)
    (hready : q.Ready val p) :
    Leads L t place q (q.setNext a ((q.next a).swap (some p))) (Function.update place p .list)
      (items ++ [val]) := by
  obtain ⟨l, rfl⟩ := h.path.eq_concat ((h.list a).mp ha) hlast
  have hnew : p ∉ l ++ [a] := by
    intro hm
    rw [(h.list p).mpr hm] at hp
    cases hp
  have hnext : ∀ b, b ≠ a → (q.setNext a ((q.next a).swap (some p))).next b = q.next b :=
    fun b hb => Function.update_of_ne hb _ _
  have hpath : LinkedList.Path
      (fun b => ((q.setNext a ((q.next a).swap (some p))).next b).ptr) q.head.ptr (l ++ [a, p]) := by
    refine (h.path.concat hready.2 hnew).congr fun b _ => ?_
    by_cases hb : b = a
    · subst hb
      simp [Queue.setNext, Tagged.swap]
    · simp [hnext b hb, hb]
  have hpool : ∀ b, Function.update place p .list b = .pool ↔ place b = .pool :=
    update_iff (by simp [hp]) (by simp)
  have hfresh : ∀ b, Function.update place p .list b = .fresh ↔ place b = .fresh :=
    update_iff (by simp [hp]) (by simp)
  refine ⟨⟨l ++ [a, p], stack, h.pool.congr fun b => (hpool b).symm,
    fun b => (hfresh b).trans (h.fresh b), hpath, fun b => ?_, ?_, ?_,
    fun b hb => ?_⟩, ⟨Tagged.steps_refl _, Tagged.steps_refl _, Tagged.steps_refl _, Nat.le_refl _,
      fun _ _ => rfl, fun b hb => ?_, fun _ hb => hb⟩,
    fun t' ht => update_iff (held_ne hp t' ht) (by simp)⟩
  · by_cases hb : b = p
    · subst hb
      rw [Function.update_self]
      exact iff_of_true rfl (by simp)
    · rw [Function.update_of_ne hb, h.list b]
      simp [hb]
  · obtain ⟨b, hb, htail⟩ := h.tail
    refine ⟨b, ?_, htail⟩
    simp only [List.mem_append, List.mem_cons, List.not_mem_nil, or_false] at hb ⊢
    exact hb.imp_right Or.inl
  · have hsplit : l ++ [a, p] = (l ++ [a]) ++ [p] := by simp
    rw [hsplit, List.tail_append_of_ne_nil (by simp), List.map_append, List.map_append]
    refine congrArg₂ (· ++ ·) h.data ?_
    exact congrArg (fun slot => [slot]) hready.1
  · have hb' := (hpool b).mp hb
    rw [hnext b (by rintro rfl; rw [ha] at hb'; cases hb')]
    exact h.pooled b hb'
  · by_cases hba : b = a
    · exact Or.inr ⟨hba ▸ ha, hba ▸ hlast⟩
    · exact Or.inl (hnext b hba)

/-- The thread unlinks the first node and keeps it. -/
theorem Shape.unlink (h : Shape L q place chain stack items) {a n : Nat} {val : α}
    (ha : q.head.ptr = some a) (hn : (q.next a).ptr = some n) (hval : q.pool.slot n = .data val)
    (htail : q.tail.ptr ≠ q.head.ptr) :
    ∃ items', items = val :: items' ∧
      Leads L t place q { q with head := q.head.swap (some n) } (Function.update place a (.held t))
        items' := by
  obtain ⟨rest, rfl, hrest⟩ := h.eq_cons ha
  rw [hn] at hrest
  obtain ⟨rest', rfl, -⟩ := hrest.eq_cons
  have hdata := h.data
  obtain ⟨v, items', rfl⟩ : ∃ v items', items = v :: items' := by
    cases items with
    | nil => cases hdata
    | cons v items' => exact ⟨v, items', rfl⟩
  simp only [List.tail_cons, List.map_cons, List.cons.injEq, hval] at hdata
  obtain ⟨hv, hdata⟩ := hdata
  cases hv
  have hlist : place a = .list := (h.list a).mpr List.mem_cons_self
  have hnodup := List.nodup_cons.mp h.path.nodup
  have hpool : ∀ b, Function.update place a (.held t) b = .pool ↔ place b = .pool :=
    update_iff (by rw [hlist]; exact nofun) nofun
  have hfresh : ∀ b, Function.update place a (.held t) b = .fresh ↔ place b = .fresh :=
    update_iff (by rw [hlist]; exact nofun) nofun
  refine ⟨items', rfl, ⟨n :: rest', stack, h.pool.congr fun b => (hpool b).symm,
    fun b => (hfresh b).trans (h.fresh b), hrest, fun b => ?_, ?_,
    hdata, fun b hb => ?_⟩, ⟨Tagged.steps_swap _ _, Tagged.steps_refl _, Tagged.steps_refl _,
      Nat.le_refl _, fun _ _ => rfl, fun _ _ => Or.inl rfl, fun heq _ => ?_⟩, fun t' ht b => ?_⟩
  · by_cases hb : b = a
    · subst hb
      rw [Function.update_self]
      exact iff_of_false nofun hnodup.1
    · rw [Function.update_of_ne hb, h.list b]
      simp [hb]
  · obtain ⟨b, hb, hbtail⟩ := h.tail
    refine ⟨b, (List.mem_cons.mp hb).resolve_left ?_, hbtail⟩
    rintro rfl
    exact htail (hbtail.trans ha.symm)
  · exact h.pooled b ((hpool b).mp hb)
  · exact absurd heq (Tagged.Past.not_swap (Tagged.past_refl _) _)
  · exact update_iff (by rw [hlist]; exact nofun) (by rintro ⟨⟩; exact ht rfl) b

/-- The thread gets a node from the pool, or a new one. -/
theorem Shape.allocated (h : Shape L q place chain stack items) {pool : Pool α} {a : Nat}
    {stack' : List Nat} (hslot : pool.slot = q.pool.slot) (hsteps : q.pool.cursor.Steps pool.cursor)
    (hsize : (place a = .pool ∧ pool.size = q.pool.size) ∨
      (a = q.pool.size ∧ pool.size = q.pool.size + 1))
    (hwf : pool.Wf L (fun b => place b = .pool ∧ b ≠ a) stack') :
    Leads L t place q { q with pool := pool } (Function.update place a (.held t)) items := by
  have ha : place a = .pool ∨ place a = .fresh := by
    rcases hsize with ⟨ha, -⟩ | ⟨rfl, -⟩
    · exact Or.inl ha
    · exact Or.inr ((h.fresh _).mpr (Nat.le_refl _))
  have hlist : ∀ b, Function.update place a (.held t) b = .list ↔ place b = .list :=
    update_iff (by rcases ha with ha | ha <;> rw [ha] <;> exact nofun) nofun
  refine ⟨⟨chain, stack', hwf.congr fun b => ?_, fun b => ?_, h.path,
    fun b => (hlist b).trans (h.list b), h.tail, ?_, fun b hb => ?_⟩,
    ⟨Tagged.steps_refl _, Tagged.steps_refl _, hsteps, ?_, fun b _ => congrFun hslot b,
      fun _ _ => Or.inl rfl, fun _ hb => hb⟩, fun t' ht => update_iff ?_ ?_⟩
  · by_cases hb : b = a
    · subst hb
      rw [Function.update_self]
      exact iff_of_false (fun h => h.2 rfl) nofun
    · rw [Function.update_of_ne hb]
      exact and_iff_left hb
  · by_cases hb : b = a
    · subst hb
      rw [Function.update_self]
      refine iff_of_false nofun ?_
      rcases hsize with ⟨hb, hsize⟩ | ⟨rfl, hsize⟩
      · show ¬ pool.size ≤ b
        rw [hsize, ← h.fresh b, hb]
        exact nofun
      · show ¬ pool.size ≤ q.pool.size
        omega
    · rw [Function.update_of_ne hb, h.fresh b]
      show q.pool.size ≤ b ↔ pool.size ≤ b
      omega
  · exact h.map_slot fun b _ => congrFun hslot b
  · by_cases hba : b = a
    · subst hba
      rw [Function.update_self] at hb
      cases hb
    · rw [Function.update_of_ne hba] at hb
      exact h.pooled b hb
  · show q.pool.size ≤ pool.size
    omega
  · rcases ha with ha | ha <;> rw [ha] <;> exact nofun
  · rintro ⟨⟩
    exact ht rfl

/-- Where the nodes are when the thread `t` has given its node `a` to the pool, and still
has the one of `pc?`. -/
def freed (place : Nat → Place τ) (t : τ) (a : Nat) (pc? : Option FreePc) : Nat → Place τ :=
  pc?.elim (Function.update place a .pool) fun pc =>
    Function.update (Function.update place a .pool) pc.node (.held t)

theorem freed_iff {a : Nat} {pc? : Option FreePc} {x : Place τ} (hx : x ≠ .pool)
    (hx' : x ≠ .held t) (ha : place a = .held t)
    (hnode : ∀ pc ∈ pc?, pc.node = a ∨ place pc.node = .pool) (b : Nat) :
    freed place t a pc? b = x ↔ place b = x := by
  have hfirst : ∀ b, Function.update place a .pool b = x ↔ place b = x :=
    update_iff (by rw [ha]; exact hx'.symm) hx.symm
  cases pc? with
  | none => exact hfirst b
  | some pc =>
    refine (update_iff ?_ hx'.symm b).trans (hfirst b)
    rw [Ne, hfirst]
    rcases hnode pc rfl with hn | hn
    · rw [hn, ha]
      exact hx'.symm
    · rw [hn]
      exact hx.symm

theorem freed_held {a : Nat} (hheld : ∀ b, place b = .held t ↔ some a = some b)
    (pc? : Option FreePc) (b : Nat) :
    freed place t a pc? b = .held t ↔ pc?.map FreePc.node = some b := by
  have hfirst : Function.update place a .pool b ≠ .held t := by
    by_cases hb : b = a
    · rw [hb, Function.update_self]
      exact nofun
    · rw [Function.update_of_ne hb, Ne, hheld b]
      simpa using Ne.symm hb
  cases pc? with
  | none => exact iff_of_false hfirst nofun
  | some pc =>
    rw [Option.map_some, Option.some.injEq]
    by_cases hb : b = pc.node
    · simp [freed, hb]
    · simp [freed, hb, hfirst, Ne.symm hb]

/-- One step of `free`. -/
theorem Shape.freed (h : Shape L q place chain stack items) {pool : Pool α} {pc : FreePc}
    {pc? : Option FreePc} {stack' : List Nat} (hnode : place pc.node = .held t)
    (hnext : (q.next pc.node).ptr ≠ none)
    (hwf : pool.Wf L (fun b => (place b = .pool ∨ b = pc.node) ∧ ∀ pc' ∈ pc?, b ≠ pc'.node) stack')
    (hnodes : ∀ pc' ∈ pc?, pc'.node = pc.node ∨ place pc'.node = .pool)
    (hsteps : q.pool.cursor.Steps pool.cursor)
    (hslot : ∀ b, b ≠ pc.node → pool.slot b = q.pool.slot b) (hsize : pool.size = q.pool.size) :
    Leads L t place q { q with pool := pool } (freed place t pc.node pc?) items := by
  have hslot' : ∀ b, place b ≠ .held t → pool.slot b = q.pool.slot b := by
    intro b hb
    refine hslot b ?_
    rintro rfl
    exact hb hnode
  have hpool : ∀ b, (place b = .pool ∨ b = pc.node) ∧ (∀ pc' ∈ pc?, b ≠ pc'.node) ↔
      MpmcList.freed place t pc.node pc? b = .pool := by
    intro b
    have hfirst : Function.update place pc.node .pool b = .pool ↔
        place b = .pool ∨ b = pc.node := by
      by_cases hb : b = pc.node
      · rw [hb, Function.update_self]
        simp
      · rw [Function.update_of_ne hb]
        simp [hb]
    cases pc? with
    | none => simpa [MpmcList.freed] using hfirst.symm
    | some pc' =>
      by_cases hb : b = pc'.node
      · simp [MpmcList.freed, hb]
      · simp [MpmcList.freed, hb, hfirst]
  have hfresh := freed_iff (t := t) (x := .fresh) nofun nofun hnode hnodes
  have hlist := freed_iff (t := t) (x := .list) nofun nofun hnode hnodes
  refine ⟨⟨chain, stack', hwf.congr hpool, fun b => ?_, h.path,
    fun b => (hlist b).trans (h.list b), h.tail,
    h.map_slot fun b hb => hslot' b (by rw [hb]; exact nofun), fun b hb => ?_⟩,
    ⟨Tagged.steps_refl _, Tagged.steps_refl _, hsteps, Nat.le_of_eq hsize.symm, hslot',
      fun _ _ => Or.inl rfl, fun _ hb => hb⟩,
    fun t' ht => freed_iff nofun (by rintro ⟨⟩; exact ht rfl) hnode hnodes⟩
  · rw [hfresh, h.fresh b]
    show q.pool.size ≤ b ↔ pool.size ≤ b
    rw [hsize]
  · rcases ((hpool b).mpr hb).1 with hb | rfl
    · exact h.pooled b hb
    · exact hnext

/-! ## The accesses -/

/-- The call that the thread is in. -/
def Pc.op : Pc α → FifoOp α
  | push val _ => .push val
  | pop _ => .pop

def PushPc.ret? : PushPc → Option (FifoRet α)
  | swing _ _ => some .pushed
  | _ => none

def PopPc.ret? : PopPc α → Option (FifoRet α)
  | free val _ => some (.popped val)
  | _ => none

/-- What the call will return, once it has taken effect. -/
def Pc.ret? : Pc α → Option (FifoRet α)
  | push _ pc => pc.ret?
  | pop pc => pc.ret?

/-- The thread has found the list empty, and nothing was taken from it since. -/
def Pc.FindsEmpty (q : Queue α) (pc : Pc α) : Prop :=
  ∃ tail, pc = .pop (.check q.head tail none)

/-- What an access does to the queue of values. -/
inductive Effect (q q' : Queue α) (items : List α) :
    Pc α → Pc α ⊕ FifoRet α → List α → Prop where
  | quiet {pc pc' : Pc α} : pc'.op = pc.op → pc'.ret? = pc.ret? → ¬ pc'.FindsEmpty q' →
    Effect q q' items pc (.inl pc') items
  | takes {pc pc' : Pc α} {ret : FifoRet α} {items' : List α} : pc'.op = pc.op → pc.ret? = none →
    pc'.ret? = some ret → Fifo items pc.op ret items' → Effect q q' items pc (.inl pc') items'
  | finds {pc pc' : Pc α} : pc.op = .pop → pc.ret? = none → pc'.FindsEmpty q' → items = [] →
    Effect q q' items pc (.inl pc') items
  | returns {pc : Pc α} {ret : FifoRet α} : pc.ret? = some ret → Effect q q' items pc (.inr ret) items
  | empty {pc : Pc α} : pc.FindsEmpty q → Effect q q' items pc (.inr .empty) items

def node? : Pc α ⊕ FifoRet α → Option Nat := Sum.elim Pc.node? fun _ => none

/-- What there is to say of an access of the thread `t`. -/
structure Accessed (L : Layout α) (t : τ) (place : Nat → Place τ) (items : List α) (q : Queue α)
    (pc : Pc α) (q' : Queue α) (next : Pc α ⊕ FifoRet α) (place' : Nat → Place τ)
    (items' : List α) : Prop where
  leads : Leads L t place q q' place' items'
  held : ∀ a, place' a = .held t ↔ node? next = some a
  fits : ∀ pc', next = .inl pc' → Fits L q' pc'
  effect : Effect q q' items pc next items'

/-- An access that changes nothing that is shared. -/
theorem Shape.reads {pc pc' : Pc α} (h : Shape L q place chain stack items)
    (hheld : ∀ a, place a = .held t ↔ pc.node? = some a) (hnode : pc'.node? = pc.node?)
    (hfits : Fits L q pc') (hop : pc'.op = pc.op) (hret : pc'.ret? = pc.ret?)
    (hempty : ¬ pc'.FindsEmpty q) :
    ∃ place' items', Accessed L t place items q pc q (.inl pc') place' items' := by
  refine ⟨place, items, h.leads t, fun a => ?_, ?_, .quiet hop hret hempty⟩
  · rw [hheld a, ← hnode]
    rfl
  · rintro _ ⟨⟩
    exact hfits

theorem not_findsEmpty_push (val : α) (pc : PushPc) : ¬ (Pc.push val pc).FindsEmpty q :=
  fun ⟨_, h⟩ => nomatch h

/-- **One access of a push.** -/
theorem Shape.push {val : α} {pc : PushPc} {pc? : Option PushPc} {ok : Bool}
    (h : Shape L q place chain stack items)
    (hheld : ∀ a, place a = .held t ↔ pc.node? = some a) (hfits : PushFits L q val pc)
    (hneart : ∀ old ∈ pc.tail?, q.tail.Near old)
    (hnearc : ∀ old ∈ pc.cursor?, q.pool.cursor.Near old)
    (hlinks : ∀ x ∈ pc.links?, ok = true → ∀ a ∈ x.1.ptr, (q.next a).Same x.2 → place a = .list)
    (hacc : q.push L ok val pc = some (q', pc?)) :
    ∃ place' items', Accessed L t place items q (.push val pc) q'
      (pc?.elim (.inr .pushed) fun pc => .inl (.push val pc)) place' items' := by
  cases pc with
  | alloc pc =>
    have hsize : ∀ a, place a = .pool → a < q.pool.size :=
      fun a ha => h.lt_size (by rw [ha]; exact nofun)
    rcases h.pool.alloc hsize hfits hnearc ok with ⟨pc', heq, hfits'⟩ |
      ⟨pool, a, stack', heq, hslot, hsteps, hsize', hwf⟩
    · simp only [Queue.push, heq] at hacc
      cases hacc
      exact h.reads hheld rfl hfits' rfl rfl (not_findsEmpty_push _ _)
    · simp only [Queue.push, heq] at hacc
      cases hacc
      refine ⟨_, _, h.allocated hslot hsteps hsize' hwf,
        update_held fun b hb => (nomatch (hheld b).mp hb), ?_,
        .quiet rfl rfl (not_findsEmpty_push _ _)⟩
      rintro _ ⟨⟩
      trivial
  | data p =>
    cases hacc
    refine ⟨_, _, h.setData ((hheld p).mpr rfl) val, hheld, ?_,
      .quiet rfl rfl (not_findsEmpty_push _ _)⟩
    rintro _ ⟨⟩
    exact Function.update_self ..
  | next p =>
    cases hacc
    refine ⟨_, _, h.setNext ((hheld p).mpr rfl) {}, hheld, ?_,
      .quiet rfl rfl (not_findsEmpty_push _ _)⟩
    rintro _ ⟨⟩
    exact ⟨hfits, by rw [next_setNext]⟩
  | tail p =>
    cases hacc
    exact h.reads hheld rfl ⟨hfits, Tagged.past_refl _, h.tail_made⟩ rfl rfl
      (not_findsEmpty_push _ _)
  | load p tail =>
    obtain ⟨hready, hpast, a, hptr, hlt⟩ := hfits
    simp only [Queue.push, hptr, Option.map_some] at hacc
    cases hacc
    refine h.reads hheld rfl ⟨hready, hpast, ⟨a, hptr, hlt⟩, fun n hn _ => ⟨a, hptr, hn⟩⟩ rfl rfl
      (not_findsEmpty_push _ _)
  | check p tail next =>
    obtain ⟨hready, hpast, hmade, hnext⟩ := hfits
    simp only [Queue.push] at hacc
    by_cases hsame : q.tail.Same tail
    · have htail := (hpast.same_iff (hneart _ rfl)).mp hsame
      rw [if_pos hsame] at hacc
      cases hptr : next.ptr with
      | none =>
        simp only [hptr] at hacc
        cases hacc
        exact h.reads hheld rfl ⟨hready, hpast, hmade, hptr⟩ rfl rfl (not_findsEmpty_push _ _)
      | some n =>
        simp only [hptr] at hacc
        cases hacc
        exact h.reads hheld rfl ⟨hready, hpast, hnext n hptr⟩ rfl rfl (not_findsEmpty_push _ _)
    · rw [if_neg hsame] at hacc
      cases hacc
      exact h.reads hheld rfl hready rfl rfl (not_findsEmpty_push _ _)
  | link p tail next =>
    obtain ⟨hready, hpast, ⟨a, hptr, hlt⟩, hnone⟩ := hfits
    simp only [Queue.push, hptr, Option.map_some] at hacc
    by_cases hsame : ok = true ∧ (q.next a).Same next
    · rw [if_pos hsame] at hacc
      cases hacc
      have hlast : (q.next a).ptr = none := hsame.2.1.trans hnone
      have hlist := hlinks _ rfl hsame.1 a hptr hsame.2
      have hp := (hheld p).mpr rfl
      refine ⟨_, _, h.link hlist hlast hp hready, fun b => ?_, ?_, .takes rfl rfl rfl (.push _ _)⟩
      · refine iff_of_false (fun hb => ?_) nofun
        by_cases hbp : b = p
        · rw [hbp, Function.update_self] at hb
          cases hb
        · rw [Function.update_of_ne hbp, hheld b] at hb
          exact hbp (Option.some.inj hb).symm
      · rintro _ ⟨⟩
        exact ⟨hpast, fun _ => ⟨a, hptr, by rw [next_setNext]; rfl⟩⟩
    · rw [if_neg hsame] at hacc
      cases hacc
      exact h.reads hheld rfl hready rfl rfl (not_findsEmpty_push _ _)
  | swing p tail =>
    obtain ⟨hpast, hnext⟩ := hfits
    simp only [Queue.push] at hacc
    by_cases hsame : q.tail.Same tail
    · have htail := (hpast.same_iff (hneart _ rfl)).mp hsame
      rw [if_pos hsame] at hacc
      cases hacc
      exact ⟨_, _, h.advance t (htail ▸ hnext htail), hheld, nofun, .returns rfl⟩
    · rw [if_neg hsame] at hacc
      cases hacc
      exact ⟨_, _, h.leads t, hheld, nofun, .returns rfl⟩
  | help p tail next =>
    obtain ⟨hready, hpast, hnext⟩ := hfits
    simp only [Queue.push] at hacc
    by_cases hsame : ok = true ∧ q.tail.Same tail
    · have htail := (hpast.same_iff (hneart _ rfl)).mp hsame.2
      rw [if_pos hsame] at hacc
      cases hacc
      refine ⟨_, _, h.advance t (htail ▸ hnext htail), hheld, ?_,
        .quiet rfl rfl (not_findsEmpty_push _ _)⟩
      rintro _ ⟨⟩
      exact hready
    · rw [if_neg hsame] at hacc
      cases hacc
      exact h.reads hheld rfl ⟨hready, Tagged.past_refl _, h.tail_made⟩ rfl rfl
        (not_findsEmpty_push _ _)

/-- Behind the first node comes another one, if `tail_` is not on the first. -/
theorem Shape.head_follows (h : Shape L q place chain stack items)
    (htail : q.tail.ptr ≠ q.head.ptr) : ∃ n, q.Follows q.head n := by
  obtain ⟨b, hb, hbtail⟩ := h.tail
  obtain ⟨a, rest, rfl, ha, hrest⟩ := h.first
  cases rest with
  | nil =>
    rw [List.mem_singleton.mp hb] at hbtail
    exact absurd (hbtail.trans ha.symm) htail
  | cons n rest => exact ⟨n, a, ha, hrest.1⟩

/-- A list without a second node has no values. -/
theorem Shape.items_nil (h : Shape L q place chain stack items) {a : Nat} (ha : q.head.ptr = some a)
    (hnone : (q.next a).ptr = none) : items = [] := by
  obtain ⟨rest, rfl, hrest⟩ := h.eq_cons ha
  rw [hnone] at hrest
  obtain rfl := hrest.eq_nil
  simpa using h.data

/-- Where the first node's successor is, its slot has a value. -/
theorem Shape.slot_head (h : Shape L q place chain stack items) {n : Nat}
    (hn : q.Follows q.head n) : ∃ val, q.pool.slot n = .data val := by
  obtain ⟨a, ha, hnext⟩ := hn
  obtain ⟨rest, rfl, hrest⟩ := h.eq_cons ha
  rw [hnext] at hrest
  obtain ⟨rest, rfl, -⟩ := hrest.eq_cons
  have hdata := h.data
  cases items with
  | nil => cases hdata
  | cons val items => exact ⟨val, (List.cons.inj hdata).1⟩

/-- **One access of a pop.** -/
theorem Shape.pop {pc : PopPc α} {next : PopPc α ⊕ FifoRet α} {ok : Bool}
    (h : Shape L q place chain stack items)
    (hheld : ∀ a, place a = .held t ↔ pc.node? = some a) (hfits : PopFits L q pc)
    (hnearh : ∀ old ∈ pc.head?, q.head.Near old) (hneart : ∀ old ∈ pc.tail?, q.tail.Near old)
    (hnearc : ∀ old ∈ pc.cursor?, q.pool.cursor.Near old) (hacc : q.pop L ok pc = some (q', next)) :
    ∃ place' items', Accessed L t place items q (.pop pc) q' (next.map .pop id) place' items' := by
  cases pc with
  | head =>
    cases hacc
    exact h.reads hheld rfl ⟨Tagged.past_refl _, h.head_made⟩ rfl rfl nofun
  | tail head =>
    cases hacc
    refine h.reads hheld rfl ⟨hfits.1, hfits.2, Tagged.past_refl _, fun _ hne => hne.symm⟩ rfl rfl nofun
  | load head tail =>
    obtain ⟨hpast, ⟨a, hptr, hlt⟩, hpast', hbehind⟩ := hfits
    simp only [Queue.pop, hptr, Option.map_some] at hacc
    cases hacc
    have hfits' : PopFits L q (.check head tail (q.next a).ptr) := by
      refine ⟨hpast, hpast', fun n hn heq _ => ⟨a, heq ▸ hptr, hn⟩, fun heq hne => ?_⟩
      have hbeh := hbehind heq hne
      obtain ⟨n, b, hb, hn⟩ := h.head_follows (heq ▸ hbeh)
      rw [heq, hptr] at hb
      cases hb
      exact ⟨hbeh, n, hn, a, hptr, hn⟩
    by_cases hempty : Pc.FindsEmpty q (.pop (.check head tail (q.next a).ptr))
    · obtain ⟨tail', heq⟩ := id hempty
      injection heq with heq
      injection heq with hhead _ hnone
      refine ⟨_, _, h.leads t, hheld, ?_, .finds rfl rfl hempty (h.items_nil (hhead ▸ hptr) hnone)⟩
      rintro _ ⟨⟩
      exact hfits'
    · exact h.reads hheld rfl hfits' rfl rfl hempty
  | check head tail next =>
    obtain ⟨hpast, hpast', hnext, hbehind⟩ := hfits
    simp only [Queue.pop] at hacc
    by_cases hsame : q.head.Same head
    · have hhead := (hpast.same_iff (hnearh _ rfl)).mp hsame
      rw [if_pos hsame] at hacc
      by_cases hptr : head.ptr = tail.ptr
      · rw [if_pos hptr] at hacc
        cases next with
        | none =>
          cases hacc
          exact ⟨_, _, h.leads t, hheld, nofun, .empty ⟨tail, by rw [hhead]⟩⟩
        | some n =>
          cases hacc
          exact h.reads hheld rfl ⟨hpast', hnext n rfl hptr⟩ rfl rfl nofun
      · rw [if_neg hptr] at hacc
        cases hacc
        obtain ⟨-, n, hn, -⟩ := hbehind hhead hptr
        exact h.reads hheld rfl ⟨hpast, by rw [hn]; exact nofun, fun heq => hbehind heq hptr⟩ rfl rfl
          nofun
    · rw [if_neg hsame] at hacc
      cases hacc
      exact h.reads hheld rfl trivial rfl rfl nofun
  | help tail next =>
    obtain ⟨hpast, hnext⟩ := hfits
    simp only [Queue.pop] at hacc
    by_cases hsame : ok = true ∧ q.tail.Same tail
    · have htail := (hpast.same_iff (hneart _ rfl)).mp hsame.2
      rw [if_pos hsame] at hacc
      cases hacc
      refine ⟨_, _, h.advance t (htail ▸ hnext htail), hheld, ?_, .quiet rfl rfl nofun⟩
      rintro _ ⟨⟩
      trivial
    · rw [if_neg hsame] at hacc
      cases hacc
      exact h.reads hheld rfl trivial rfl rfl nofun
  | data head next =>
    obtain ⟨hpast, hne, hnext⟩ := hfits
    cases next with
    | none => exact absurd rfl hne
    | some n =>
      cases hacc
      refine h.reads hheld rfl ⟨hpast, fun heq => ?_⟩ rfl rfl nofun
      obtain ⟨hbeh, m, hm, hfol⟩ := hnext heq
      cases hm
      obtain ⟨val, hval⟩ := h.slot_head (heq ▸ hfol)
      refine ⟨hbeh, hfol, ?_⟩
      rw [hval]
      rfl
  | take head next val =>
    obtain ⟨hpast, hnext⟩ := hfits
    simp only [Queue.pop] at hacc
    by_cases hsame : ok = true ∧ q.head.Same head
    · have hhead := (hpast.same_iff (hnearh _ rfl)).mp hsame.2
      rw [if_pos hsame] at hacc
      obtain ⟨hbeh, ⟨a, hptr, hn⟩, hval⟩ := hnext hhead
      simp only [hptr] at hacc
      cases hacc
      obtain ⟨items', rfl, hleads⟩ := h.unlink (t := t) (hhead ▸ hptr) hn hval (hhead ▸ hbeh)
      refine ⟨_, _, hleads, update_held fun b hb => (nomatch (hheld b).mp hb), ?_,
        .takes rfl rfl rfl (.pop _ _)⟩
      rintro _ ⟨⟩
      refine ⟨trivial, ?_⟩
      show (q.next a).ptr ≠ none
      rw [hn]
      exact nofun
    · rw [if_neg hsame] at hacc
      cases hacc
      exact h.reads hheld rfl ⟨Tagged.past_refl _, h.head_made⟩ rfl rfl nofun
  | free val pc =>
    have hnode := (hheld pc.node).mpr rfl
    obtain ⟨pool, pc?, stack', heq, hwf, hfits', hsteps, hslot, hsize⟩ :=
      h.pool.free (by rw [hnode]; exact nofun) hfits.1 hnearc ok
    have hleads := h.freed hnode hfits.2 hwf (fun pc' hpc' => (hfits' pc' hpc').2) hsteps hslot hsize
    simp only [Queue.pop, heq] at hacc
    cases pc? with
    | none =>
      cases hacc
      exact ⟨_, _, hleads, freed_held hheld none, nofun, .returns rfl⟩
    | some pc' =>
      cases hacc
      refine ⟨_, _, hleads, freed_held hheld (some pc'), ?_, .quiet rfl rfl nofun⟩
      rintro _ ⟨⟩
      refine ⟨(hfits' pc' rfl).1, ?_⟩
      rcases (hfits' pc' rfl).2 with hn | hn
      · rw [hn]
        exact hfits.2
      · exact h.pooled _ hn

/-- No tag has gone all the way round since the thread read it. -/
def Queue.Near (q : Queue α) (pc : Pc α) : Prop :=
  (∀ old ∈ pc.head?, q.head.Near old) ∧ (∀ old ∈ pc.tail?, q.tail.Near old) ∧
    (∀ old ∈ pc.cursor?, q.pool.cursor.Near old)

/-- **One access.** -/
theorem Shape.access {pc : Pc α} {next : Pc α ⊕ FifoRet α} {ok : Bool}
    (h : Shape L q place chain stack items)
    (hheld : ∀ a, place a = .held t ↔ pc.node? = some a) (hfits : Fits L q pc) (hnear : q.Near pc)
    (hlinks : ∀ x ∈ pc.links?, ok = true → ∀ a ∈ x.1.ptr, (q.next a).Same x.2 → place a = .list)
    (hacc : q.access L ok pc = some (q', next)) :
    ∃ place' items', Accessed L t place items q pc q' next place' items' := by
  obtain ⟨hnearh, hneart, hnearc⟩ := hnear
  cases pc with
  | push val pc =>
    obtain ⟨⟨q'', pc?⟩, hpush, heq⟩ := Option.map_eq_some_iff.mp hacc
    cases heq
    exact h.push hheld hfits hneart hnearc hlinks hpush
  | pop pc =>
    obtain ⟨⟨q'', next'⟩, hpop, heq⟩ := Option.map_eq_some_iff.mp hacc
    cases heq
    exact h.pop hheld hfits hnearh hneart hnearc hpop

/-- No access goes through a null pointer. -/
theorem Fits.access_ne_none {pc : Pc α} (h : Fits L q pc) (ok : Bool) : q.access L ok pc ≠ none := by
  cases pc with
  | push val pc =>
    rw [Queue.access, Ne, Option.map_eq_none_iff]
    cases pc with
    | alloc pc =>
      simp only [Queue.push]
      split <;> exact nofun
    | load p tail =>
      obtain ⟨-, -, a, hptr, -⟩ := h
      simp [Queue.push, hptr]
    | link p tail next =>
      obtain ⟨-, -, ⟨a, hptr, -⟩, -⟩ := h
      simp [Queue.push, hptr]
    | check p tail next =>
      simp only [Queue.push]
      split
      · split <;> exact nofun
      · exact nofun
    | data p => exact nofun
    | next p => exact nofun
    | tail p => exact nofun
    | swing p tail =>
      simp only [Queue.push]
      split <;> exact nofun
    | help p tail next =>
      simp only [Queue.push]
      split <;> exact nofun
  | pop pc =>
    rw [Queue.access, Ne, Option.map_eq_none_iff]
    cases pc with
    | head => exact nofun
    | tail head => exact nofun
    | load head tail =>
      obtain ⟨-, ⟨a, hptr, -⟩, -⟩ := h
      simp [Queue.pop, hptr]
    | check head tail next =>
      simp only [Queue.pop]
      split
      · split
        · split <;> exact nofun
        · exact nofun
      · exact nofun
    | help tail next =>
      simp only [Queue.pop]
      split <;> exact nofun
    | data head next =>
      cases next with
      | none => exact absurd rfl h.2.1
      | some n => exact nofun
    | take head next val =>
      simp only [Queue.pop]
      split
      · split <;> exact nofun
      · exact nofun
    | free val pc =>
      simp only [Queue.pop]
      split <;> exact nofun

end MpmcList

end Footstone
