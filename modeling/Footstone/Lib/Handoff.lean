import Mathlib.Logic.Function.Basic

/-!
Moving an item between places in two hops. Every place has a store and a queue
of messages that it works off in order. `take` empties the store of its source
and sends what was there; `install` puts what it carries into its destination.
With one home that all moves start from, and no move ordered while another has
not been taken, the item arrives: `Phase` lists where it can be on the way.
-/

namespace Handoff

variable {ω α β : Type*} [DecidableEq ω]

inductive Msg (ω β : Type*) where
  | take (src dst : ω)
  | install (dst : ω) (x : β)

/-- The place a message is for in the end. -/
def Msg.dst : Msg ω β → ω
  | .take _ dst => dst
  | .install dst _ => dst

@[ext] structure Net (ω α β : Type*) where
  store : ω → α
  queue : ω → List (Msg ω β)

/-- The value `x` at `w`, and `rest` everywhere else. -/
def lone {γ : Type*} (w : ω) (x rest : γ) : ω → γ := Function.update (fun _ => rest) w x

@[simp] theorem update_const {γ : Type*} (w : ω) (x rest : γ) :
    Function.update (fun _ => rest) w x = lone w x rest := rfl

@[simp] theorem lone_self {γ : Type*} (w : ω) (x rest : γ) : lone w x rest w = x :=
  Function.update_self ..

theorem lone_of_ne {γ : Type*} {v w : ω} (h : v ≠ w) (x rest : γ) : lone w x rest v = rest :=
  Function.update_of_ne h ..

@[simp] theorem update_lone {γ : Type*} (w : ω) (x y rest : γ) :
    Function.update (lone w x rest) w y = lone w y rest := Function.update_idem ..

@[simp] theorem lone_const {γ : Type*} (w : ω) (rest : γ) : lone w rest rest = fun _ => rest :=
  Function.update_eq_self w fun _ => rest

/-- `vacant` is the empty store; an item is packed for the way. -/
structure Wrapping (α β : Type*) where
  vacant : α
  pack : α → β
  unpack : β → α
  pack_unpack : ∀ x, pack (unpack x) = x

variable (W : Wrapping α β)

namespace Net

def send (w : ω) (m : Msg ω β) (net : Net ω α β) : Net ω α β :=
  { net with queue := Function.update net.queue w (net.queue w ++ [m]) }

def handle (m : Msg ω β) (net : Net ω α β) : Net ω α β :=
  match m with
  | .take src dst =>
    send dst (.install dst (W.pack (net.store src)))
      { net with store := Function.update net.store src W.vacant }
  | .install dst x => { net with store := Function.update net.store dst (W.unpack x) }

/-- Drop the front of the queue of `w`. -/
def pop (w : ω) (net : Net ω α β) : Net ω α β :=
  { net with queue := Function.update net.queue w (net.queue w).tail }

end Net

/-- Where the item `x` can be on its way from `home` to `dst`. -/
inductive Phase (home : ω) (x : β) (dst : ω) : Net ω α β → Prop where
  | stored : Phase home x dst ⟨lone dst (W.unpack x) W.vacant, fun _ => []⟩
  | ordered : Phase home x dst ⟨lone home (W.unpack x) W.vacant, lone home [.take home dst] []⟩
  | sent : Phase home x dst ⟨fun _ => W.vacant, lone dst [.install dst x] []⟩
  | returning : Phase home x dst
      ⟨fun _ => W.vacant, lone home [.install home x, .take home dst] []⟩

variable {W} {home dst : ω} {x : β} {net : Net ω α β}

/-- Only the two ends of the way are ever addressed. -/
theorem Phase.dst_mem (h : Phase W home x dst net) {w : ω} {m : Msg ω β} (hm : m ∈ net.queue w) :
    m.dst = home ∨ m.dst = dst := by
  have hlone : ∀ {v : ω} {ms : List (Msg ω β)}, m ∈ lone v ms [] w → m ∈ ms := by
    intro v ms hm
    by_cases hw : w = v
    · subst hw
      simpa using hm
    · rw [lone_of_ne hw] at hm
      cases hm
  cases h with
  | stored => cases hm
  | ordered => cases hlone hm with
    | head => exact Or.inr rfl
    | tail _ h => cases h
  | sent => cases hlone hm with
    | head => exact Or.inr rfl
    | tail _ h => cases h
  | returning => cases hlone hm with
    | head => exact Or.inl rfl
    | tail _ h => cases h with
      | head => exact Or.inr rfl
      | tail _ h => cases h

/-- Working off the front of a queue keeps the item on its way. -/
theorem Phase.deliver (h : Phase W home x dst net) {w : ω} {m : Msg ω β} {ms : List (Msg ω β)}
    (hw : net.queue w = m :: ms) : Phase W home x dst ((net.pop w).handle W m) := by
  have hlone : ∀ {v : ω} {ns : List (Msg ω β)}, lone v ns [] w = m :: ms → w = v ∧ ns = m :: ms := by
    intro v ns hq
    by_cases hv : w = v
    · subst hv
      exact ⟨rfl, by simpa using hq⟩
    · rw [lone_of_ne hv] at hq
      cases hq
  cases h with
  | stored => cases hw
  | ordered =>
    obtain ⟨rfl, hms⟩ := hlone hw
    cases hms
    simpa [Net.pop, Net.handle, Net.send, W.pack_unpack] using Phase.sent
  | sent =>
    obtain ⟨rfl, hms⟩ := hlone hw
    cases hms
    simpa [Net.pop, Net.handle] using Phase.stored
  | returning =>
    obtain ⟨rfl, hms⟩ := hlone hw
    cases hms
    simpa [Net.pop, Net.handle] using Phase.ordered

/-- A new move is ordered when the item was on its way home, and is not waiting
there to be taken. -/
theorem Phase.order (h : Phase W home x home net)
    (hfree : ∀ src d, Msg.take src d ∉ net.queue home) (d : ω) :
    Phase W home x d (net.send home (.take home d)) := by
  cases h with
  | stored => exact Phase.ordered
  | ordered => exact absurd (by simp) (hfree home home)
  | sent => simpa [Net.send] using Phase.returning
  | returning => exact absurd (by simp) (hfree home home)

/-- When all queues are empty, the item has arrived. -/
theorem Phase.arrived (h : Phase W home x dst net) (hq : ∀ w, net.queue w = []) :
    net.store = lone dst (W.unpack x) W.vacant := by
  cases h with
  | stored => rfl
  | ordered => simpa using hq home
  | sent => simpa using hq dst
  | returning => simpa using hq home

end Handoff
