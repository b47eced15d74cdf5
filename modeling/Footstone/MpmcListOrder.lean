import Footstone.MpmcListSteps
import Mathlib.Data.Fintype.Basic

/-!
The calls of an `mpmc_list` in the order in which they take effect. A push whose
compare-exchange of `next_` finds the node that it read is sound as long as that node
is not on its way into the list a second time: `alloc` sets the tag of `next_` back to
zero, and the compare-exchange cannot tell.
-/

namespace Footstone

namespace MpmcList

open Linear

variable {α τ : Type} {L : Layout α} {q q' : Queue α} {items items' : List α}

/-- What is noted down of a call that is not over: its effect, once it has taken effect,
else at most that it has found nothing. -/
structure Noted (q : Queue α) (log : List (Point (FifoOp α) (FifoRet α))) (id : Nat) (pc : Pc α) :
    Prop where
  some : ∀ ret, pc.ret? = some ret → ∃ p ∈ log, p.id = id ∧ p.ret = ret
  none : pc.ret? = none → ∀ p ∈ log, p.id = id → p.op = .pop ∧ p.ret = .empty
  empty : pc.FindsEmpty q → ∃ p ∈ log, p.id = id ∧ p.ret = .empty

theorem Pc.FindsEmpty.ret? {pc : Pc α} (h : pc.FindsEmpty q) : pc.ret? = none := by
  obtain ⟨tail, rfl⟩ := h
  rfl

/-- A thread stays in its call until that returns. -/
theorem Effect.op {pc pc' : Pc α} (h : Effect q q' items pc (.inl pc') items') : pc'.op = pc.op := by
  cases h with
  | quiet hop => exact hop
  | takes hop => exact hop
  | finds hop _ hempty =>
    obtain ⟨tail, rfl⟩ := hempty
    exact hop.symm

/-- What is noted down of another call, and an access of this one. -/
theorem Noted.other {log log' : List (Point (FifoOp α) (FifoRet α))} {id id' : Nat} {pc : Pc α}
    (h : Noted q log id' pc) (hlog : ∀ p, p.id ≠ id → (p ∈ log' ↔ p ∈ log)) (hid : id' ≠ id)
    (hfits : Fits L q pc) (hsteps : q.head.Steps q'.head) : Noted q' log' id' pc where
  some ret hret := by
    obtain ⟨p, hp, hpid, hpret⟩ := h.some ret hret
    exact ⟨p, (hlog p (hpid ▸ hid)).mpr hp, hpid, hpret⟩
  none hret p hp hpid := h.none hret p ((hlog p (hpid ▸ hid)).mp hp) hpid
  empty hempty := by
    obtain ⟨tail, rfl⟩ := hempty
    -- `head_` has come to be what the thread has read, so it has been that all along.
    have hhead : q.head = q'.head := hfits.1.eq_of_steps hsteps rfl
    obtain ⟨p, hp, hpid, hpret⟩ := h.empty ⟨tail, by rw [hhead]⟩
    exact ⟨p, (hlog p (hpid ▸ hid)).mpr hp, hpid, hpret⟩

/-- A point that says that nothing was found can be left out. -/
theorem fifo_empty {ops ops' : List α} (h : Fifo ops .pop .empty ops') : ops' = ops := by
  cases h
  rfl

section

variable {calls : List (Call (FifoOp α) (FifoRet α))} {now : Nat}
  {log : List (Point (FifoOp α) (FifoRet α))} {id : Nat} {c : Call (FifoOp α) (FifoRet α)}

/-- The call takes effect now, or finds nothing now. -/
theorem note (hlog : Logged Fifo [] calls now log items) (hc : calls[id]? = some c)
    (hstart : c.start ≤ now) (hgoes : c.finish = none)
    (hdrop : ∀ p ∈ log, p.id = id → p.op = .pop ∧ p.ret = .empty) {ret : FifoRet α}
    (hR : Fifo items c.op ret items') :
    ∃ log', Logged Fifo [] calls now log' items' ∧ (∀ p, p.id ≠ id → (p ∈ log' ↔ p ∈ log)) ∧
      ∀ p, p.id = id → (p ∈ log' ↔ p = ⟨⟨id, c.op, ret⟩, now⟩) := by
  have hneutral : ∀ p ∈ log, p.id = id → ∀ s t, Fifo s p.op p.ret t → t = s := by
    intro p hp hid s t hst
    obtain ⟨hop, hret⟩ := hdrop p hp hid
    rw [hop, hret] at hst
    exact fifo_empty hst
  have hnew : ∀ p ∈ log.filter (·.id ≠ id), p.id ≠ id := by
    intro p hp
    simpa using (List.mem_filter.mp hp).2
  refine ⟨_, (hlog.dropped hc hgoes hneutral).noted hc hstart hgoes hnew hR, ?_, ?_⟩
  · rintro p hid
    simp only [List.mem_append, List.mem_filter, List.mem_singleton, ne_eq, hid, not_false_eq_true,
      decide_true, and_true, or_iff_left_iff_imp]
    rintro rfl
    exact absurd rfl hid
  · rintro p hid
    simp [hid]

/-- **An access keeps the order of the calls.** -/
theorem Effect.logged {pc : Pc α} {next : Pc α ⊕ FifoRet α} (he : Effect q q' items pc next items')
    (hlog : Logged Fifo [] calls now log items) (hc : calls[id]? = some c) (hop : c.op = pc.op)
    (hstart : c.start ≤ now) (hgoes : c.finish = none) (hnoted : Noted q log id pc) :
    ∃ log', Logged Fifo [] calls now log' items' ∧ (∀ p, p.id ≠ id → (p ∈ log' ↔ p ∈ log)) ∧
      (∀ pc', next = .inl pc' → Noted q' log' id pc') ∧
      ∀ ret, next = .inr ret → ∃ p ∈ log', p.id = id ∧ p.ret = ret := by
  cases he with
  | quiet _ hret hempty =>
    refine ⟨log, hlog, fun _ _ => Iff.rfl, ?_, nofun⟩
    rintro _ ⟨⟩
    exact ⟨fun ret h => hnoted.some ret (hret ▸ h), fun h => hnoted.none (hret ▸ h),
      fun h => absurd h hempty⟩
  | takes _ hret hret' hR =>
    obtain ⟨log', hlog', hothers, hown⟩ :=
      note hlog hc hstart hgoes (hnoted.none hret) (hop ▸ hR)
    refine ⟨log', hlog', hothers, ?_, nofun⟩
    rintro _ ⟨⟩
    refine ⟨fun ret h => ⟨_, (hown _ rfl).mpr rfl, rfl, ?_⟩, fun h => ?_, fun h => ?_⟩
    · exact Option.some.inj (hret'.symm.trans h)
    · rw [hret'] at h
      cases h
    · rw [h.ret?] at hret'
      cases hret'
  | finds hpop hret hempty hitems =>
    have hR : Fifo items c.op .empty [] := by
      rw [hop, hpop, hitems]
      exact .empty
    obtain ⟨log', hlog', hothers, hown⟩ := note hlog hc hstart hgoes (hnoted.none hret) hR
    refine ⟨log', hitems ▸ hlog', hothers, ?_, nofun⟩
    rintro _ ⟨⟩
    refine ⟨fun ret h => ?_, fun _ p hp hid => ?_, fun _ => ⟨_, (hown _ rfl).mpr rfl, rfl, rfl⟩⟩
    · rw [hempty.ret?] at h
      cases h
    · rw [(hown p hid).mp hp]
      exact ⟨hop.trans hpop, rfl⟩
  | returns hret =>
    refine ⟨log, hlog, fun _ _ => Iff.rfl, nofun, ?_⟩
    rintro _ ⟨⟩
    exact hnoted.some _ hret
  | empty hempty =>
    refine ⟨log, hlog, fun _ _ => Iff.rfl, nofun, ?_⟩
    rintro _ ⟨⟩
    exact hnoted.empty hempty

end

namespace System

variable [DecidableEq τ]

/-- No 16-bit tag has wrapped while the call that takes the step holds a copy of it. -/
def NoWrap (s : System τ α) : Op τ α → Prop
  | .access t _ => ∀ pc ∈ s.pc t, s.queue.Near pc
  | _ => True

/-- The condition on a step. A compare-exchange of `next_` that succeeds is not one of a
node that another push has got from the pool and not linked yet. -/
def LinksLinked (s : System τ α) : Op τ α → Prop
  | .access t ok => ∀ pc ∈ s.pc t, ∀ x ∈ pc.links?, ok = true → ∀ a ∈ x.1.ptr,
    (s.queue.next a).Same x.2 → ∀ t', ∀ pc' ∈ s.pc t', pc'.unlinked? ≠ some a
  | _ => True

instance (q : Queue α) (pc : Pc α) : Decidable (q.Near pc) :=
  inferInstanceAs (Decidable (_ ∧ _ ∧ _))

instance (s : System τ α) : DecidablePred s.NoWrap
  | .access t _ => inferInstanceAs (Decidable (∀ pc ∈ s.pc t, s.queue.Near pc))
  | .push .. => isTrue trivial
  | .pop _ => isTrue trivial

instance [Fintype τ] (s : System τ α) : DecidablePred s.LinksLinked
  | .access t ok => inferInstanceAs (Decidable (∀ pc ∈ s.pc t, ∀ x ∈ pc.links?, ok = true →
    ∀ a ∈ x.1.ptr, (s.queue.next a).Same x.2 → ∀ t', ∀ pc' ∈ s.pc t', pc'.unlinked? ≠ some a))
  | .push .. => isTrue trivial
  | .pop _ => isTrue trivial

/-- The nodes, what the threads know of them, and the calls in the order of their
effects. -/
structure Inv (L : Layout α) (s : System τ α) (place : Nat → Place τ) (chain stack : List Nat)
    (items : List α) (log : List (Point (FifoOp α) (FifoRet α))) : Prop where
  shape : Shape L s.queue place chain stack items
  held : ∀ t a, place a = .held t ↔ ∃ pc ∈ s.pc t, pc.node? = some a
  fits : ∀ t, ∀ pc ∈ s.pc t, Fits L s.queue pc
  logged : Logged Fifo [] s.calls s.clock log items
  calls : ∀ t, ∀ pc ∈ s.pc t, ∃ c, s.calls[s.call t]? = some c ∧ c.op = pc.op ∧
    c.start ≤ s.clock ∧ c.finish = none
  own : ∀ t t', s.pc t ≠ none → s.pc t' ≠ none → s.call t = s.call t' → t = t'
  noted : ∀ t, ∀ pc ∈ s.pc t, Noted s.queue log (s.call t) pc

variable {s s' : System τ α} {place : Nat → Place τ} {chain stack : List Nat}
  {log : List (Point (FifoOp α) (FifoRet α))} {t : τ}

/-- What holds of the thread at its new place, and of the others where they are. -/
theorem forall_mem_update {β : Type} {f : τ → Option β} {x : Option β} {P : τ → β → Prop}
    (hself : ∀ b ∈ x, P t b) (hother : ∀ t' ≠ t, ∀ b ∈ f t', P t' b) :
    ∀ t', ∀ b ∈ Function.update f t x t', P t' b := by
  intro t' b hb
  by_cases ht : t' = t
  · subst ht
    rw [Function.update_self] at hb
    exact hself b hb
  · rw [Function.update_of_ne ht] at hb
    exact hother t' ht b hb

/-- A call is made. -/
theorem Inv.make (h : Inv L s place chain stack items log) (hidle : s.pc t = none) {op : FifoOp α}
    {pc : Pc α} (hop : op = pc.op) (hnode : pc.node? = none) (hret : pc.ret? = none)
    (hempty : ¬ pc.FindsEmpty s.queue) (hfits : Fits L s.queue pc) :
    Inv L (s.make t op pc) place chain stack items log := by
  have hlt : ∀ t', s.pc t' ≠ none → s.call t' < s.calls.length := by
    intro t' hpc
    obtain ⟨pc', hpc'⟩ := Option.ne_none_iff_exists'.mp hpc
    obtain ⟨c, hc, -⟩ := h.calls t' pc' hpc'
    exact (List.getElem?_eq_some_iff.mp hc).1
  have hpc : ∀ t', t' ≠ t → (s.make t op pc).pc t' = s.pc t' := fun t' ht => Function.update_of_ne ht _ _
  have hcall : ∀ t', t' ≠ t → (s.make t op pc).call t' = s.call t' :=
    fun t' ht => Function.update_of_ne ht _ _
  have hpcself : (s.make t op pc).pc t = some pc := Function.update_self ..
  have hcallself : (s.make t op pc).call t = s.calls.length := Function.update_self ..
  refine ⟨h.shape, fun t' a => ?_, forall_mem_update ?_ fun t' _ => h.fits t',
    (h.logged.made op s.clock).later (Nat.le_succ _), forall_mem_update ?_ fun t' ht pc' hpc' => ?_,
    fun t₁ t₂ h₁ h₂ heq => ?_, forall_mem_update ?_ fun t' ht pc' hpc' => ?_⟩
  · rw [h.held t' a]
    by_cases ht : t' = t
    · subst ht
      rw [hpcself, hidle]
      simp [hnode]
    · rw [hpc t' ht]
  · rintro _ ⟨⟩
    exact hfits
  · rintro _ ⟨⟩
    exact ⟨_, by rw [hcallself]; exact List.getElem?_concat_length, hop, Nat.le_succ _, rfl⟩
  · obtain ⟨c, hc, hcop, hstart, hgoes⟩ := h.calls t' pc' hpc'
    refine ⟨c, ?_, hcop, Nat.le_succ_of_le hstart, hgoes⟩
    rw [hcall t' ht]
    exact (List.getElem?_append_left (List.getElem?_eq_some_iff.mp hc).1).trans hc
  · by_cases ht₁ : t₁ = t <;> by_cases ht₂ : t₂ = t
    · exact ht₁.trans ht₂.symm
    · subst ht₁
      rw [hpc t₂ ht₂] at h₂
      rw [hcallself, hcall t₂ ht₂] at heq
      exact absurd heq (Nat.ne_of_gt (hlt t₂ h₂))
    · subst ht₂
      rw [hpc t₁ ht₁] at h₁
      rw [hcallself, hcall t₁ ht₁] at heq
      exact absurd heq (Nat.ne_of_lt (hlt t₁ h₁))
    · rw [hpc t₁ ht₁] at h₁
      rw [hpc t₂ ht₂] at h₂
      rw [hcall t₁ ht₁, hcall t₂ ht₂] at heq
      exact h.own t₁ t₂ h₁ h₂ heq
  · rintro _ ⟨⟩
    rw [hcallself]
    refine ⟨fun ret hr => ?_, fun _ p hp hid => ?_, fun he => absurd he hempty⟩
    · rw [hret] at hr
      cases hr
    · obtain ⟨c, hc, -⟩ := h.logged.call p hp
      rw [hid] at hc
      exact absurd (List.getElem?_eq_some_iff.mp hc).1 (Nat.lt_irrefl _)
  · rw [hcall t' ht]
    exact h.noted t' pc' hpc'

/-- The thread `t`, which is in a call, gets to the place `pc?`, or to none. -/
theorem Inv.moved {place' : Nat → Place τ} {chain' stack' : List Nat} {items' : List α}
    {log' : List (Point (FifoOp α) (FifoRet α))} {calls' : List (Call (FifoOp α) (FifoRet α))}
    {pc? : Option (Pc α)} (h : Inv L s place chain stack items log) (hrun : s.pc t ≠ none)
    (hleads : Leads L t place s.queue q place' items') (hshape : Shape L q place' chain' stack' items')
    (hlogged : Logged Fifo [] calls' s.clock log' items')
    (hlog : ∀ p, p.id ≠ s.call t → (p ∈ log' ↔ p ∈ log))
    (hcalls : ∀ id, id ≠ s.call t → calls'[id]? = s.calls[id]?)
    (hheld : ∀ a, place' a = .held t ↔ ∃ pc ∈ pc?, pc.node? = some a)
    (hpc : ∀ pc ∈ pc?, Fits L q pc ∧ Noted q log' (s.call t) pc ∧
      ∃ c, calls'[s.call t]? = some c ∧ c.op = pc.op ∧ c.start ≤ s.clock ∧ c.finish = none) :
    Inv L { s with
      queue := q, pc := Function.update s.pc t pc?, calls := calls', clock := s.clock + 1 }
      place' chain' stack' items' log' := by
  have hself : Function.update s.pc t pc? t = pc? := Function.update_self ..
  have hother : ∀ t', t' ≠ t → Function.update s.pc t pc? t' = s.pc t' :=
    fun t' ht => Function.update_of_ne ht _ _
  have hid : ∀ t', t' ≠ t → s.pc t' ≠ none → s.call t' ≠ s.call t :=
    fun t' ht hpc' heq => ht (h.own t' t hpc' hrun heq)
  have hne : ∀ t', Function.update s.pc t pc? t' ≠ none → s.pc t' ≠ none := by
    intro t' ht
    by_cases htt : t' = t
    · exact htt ▸ hrun
    · rwa [hother t' htt] at ht
  refine ⟨hshape, fun t' a => ?_,
    forall_mem_update (fun pc hmem => (hpc pc hmem).1) fun t' ht pc hpc' => ?_,
    hlogged.later (Nat.le_succ _), forall_mem_update (fun pc hmem => ?_) fun t' ht pc hpc' => ?_,
    fun t₁ t₂ h₁ h₂ heq => h.own t₁ t₂ (hne t₁ h₁) (hne t₂ h₂) heq,
    forall_mem_update (fun pc hmem => (hpc pc hmem).2.1) fun t' ht pc hpc' => ?_⟩
  · by_cases ht : t' = t
    · subst ht
      simp only [hself]
      exact hheld a
    · simp only [hother t' ht]
      exact (hleads.others t' ht a).trans (h.held t' a)
  · exact h.shape.fits_frame hleads.frame ht (fun p hp => (h.held t' p).mpr ⟨pc, hpc', hp⟩)
      (h.fits t' pc hpc')
  · obtain ⟨c, hc, hop, hstart, hgoes⟩ := (hpc pc hmem).2.2
    exact ⟨c, hc, hop, Nat.le_succ_of_le hstart, hgoes⟩
  · obtain ⟨c, hc, hop, hstart, hgoes⟩ := h.calls t' pc hpc'
    refine ⟨c, (hcalls _ (hid t' ht ?_)).trans hc, hop, Nat.le_succ_of_le hstart, hgoes⟩
    rw [hpc']
    exact nofun
  · exact (h.noted t' pc hpc').other hlog (hid t' ht (by rw [hpc']; exact nofun))
      (h.fits t' pc hpc') hleads.frame.head

omit [DecidableEq τ] in
/-- What a push is about to link its node to is in the list. -/
theorem Inv.links_list (h : Inv L s place chain stack items log) {ok : Bool}
    (hlinked : s.LinksLinked (.access t ok)) {pc : Pc α} (hpc : s.pc t = some pc)
    {x : Tagged × Tagged} (hx : x ∈ pc.links?) (hok : ok = true) {a : Nat} (ha : a ∈ x.1.ptr)
    (hsame : (s.queue.next a).Same x.2) : place a = .list := by
  have hfits := h.fits t pc hpc
  cases pc with
  | pop pc => cases hx
  | push val pc =>
    cases pc with
    | link p tail next =>
      cases hx
      obtain ⟨-, -, ⟨b, hptr, hlt⟩, hnone⟩ := hfits
      rw [show tail.ptr = some a from ha] at hptr
      cases hptr
      have hnext : (s.queue.next a).ptr = none := hsame.1.trans hnone
      cases hplace : place a with
      | fresh => exact absurd hlt (Nat.not_lt.mpr ((h.shape.fresh a).mp hplace))
      | pool => exact absurd hnext (h.shape.pooled a hplace)
      | list => rfl
      | held t' =>
        obtain ⟨pc', hpc', hnode⟩ := (h.held t' a).mp hplace
        have hunlinked := hlinked _ hpc _ rfl hok a ha hsame t' pc' hpc'
        cases pc' with
        | push val' pc' => exact absurd hnode hunlinked
        | pop pc' =>
          cases pc' with
          | free val' pc' =>
            cases hnode
            exact absurd hnext (h.fits t' _ hpc').2
          | _ => cases hnode
    | _ => cases hx

/-- **An access** of a thread. -/
theorem Inv.access (h : Inv L s place chain stack items log) {ok : Bool}
    (hwrap : s.NoWrap (.access t ok)) (hlinked : s.LinksLinked (.access t ok))
    (hs : s.step L (.access t ok) = .ok s') :
    ∃ place' chain' stack' items' log', Inv L s' place' chain' stack' items' log' := by
  obtain ⟨pc, q, next, hpc, hacc, hnext⟩ := step_access hs
  have hheld : ∀ a, place a = .held t ↔ pc.node? = some a := by
    intro a
    rw [h.held t a, hpc]
    simp
  obtain ⟨place', items', hleads, hheld', hfits, heffect⟩ := h.shape.access hheld
    (h.fits t pc hpc) (hwrap pc hpc)
    (fun x hx hok a ha hsame => h.links_list hlinked hpc hx hok ha hsame) hacc
  obtain ⟨chain', stack', hshape⟩ := hleads.shape
  obtain ⟨c, hc, hop, hstart, hgoes⟩ := h.calls t pc hpc
  obtain ⟨log', hlogged, hlog, hnoted, hreturns⟩ :=
    heffect.logged h.logged hc hop hstart hgoes (h.noted t pc hpc)
  have hrun : s.pc t ≠ none := by
    rw [hpc]
    exact nofun
  refine ⟨place', chain', stack', items', log', ?_⟩
  rcases hnext with ⟨pc', rfl, rfl⟩ | ⟨ret, rfl, rfl⟩
  · refine h.moved hrun hleads hshape hlogged hlog (fun _ _ => rfl) (fun a => ?_) ?_
    · rw [hheld' a]
      simp [node?]
    · rintro _ ⟨⟩
      exact ⟨hfits pc' rfl, hnoted pc' rfl, c, hc, hop.trans heffect.op.symm, hstart, hgoes⟩
  · obtain ⟨p, hp, hid, rfl⟩ := hreturns ret rfl
    refine h.moved hrun hleads hshape (hid ▸ hlogged.returned hp) hlog (fun id hne => ?_)
      (fun a => ?_) nofun
    · rw [List.getElem?_modify_ne _ _ (Ne.symm hne)]
    · rw [hheld' a]
      simp [node?]

/-- **Every step** that is taken under the two conditions keeps it all together. -/
theorem Inv.step {op : Op τ α} (h : Inv L s place chain stack items log) (hwrap : s.NoWrap op)
    (hlinked : s.LinksLinked op) (hs : s.step L op = .ok s') :
    ∃ place' chain' stack' items' log', Inv L s' place' chain' stack' items' log' := by
  cases op with
  | push t val =>
    obtain ⟨hidle, rfl⟩ := step_push_eq_ok.mp hs
    exact ⟨_, _, _, _, _, h.make hidle rfl rfl rfl (not_findsEmpty_push _ _) trivial⟩
  | pop t =>
    obtain ⟨hidle, rfl⟩ := step_pop_eq_ok.mp hs
    exact ⟨_, _, _, _, _, h.make hidle rfl rfl rfl nofun trivial⟩
  | access t ok => exact h.access hwrap hlinked hs

omit [DecidableEq τ] in
theorem inv_new [Inhabited α] (L : Layout α) : Inv L (new τ α)
    (fun a => if a = 0 then .list else .fresh) [0] [] [] [] where
  shape := {
    pool := ⟨rfl, nofun, nofun, fun a ha => by split at ha <;> cases ha⟩
    fresh a := by
      show (if a = 0 then Place.list else Place.fresh) = .fresh ↔ 1 ≤ a
      split
      · rename_i ha
        exact iff_of_false nofun (by omega)
      · rename_i ha
        exact iff_of_true rfl (by omega)
    path := ⟨rfl, rfl⟩
    list a := by simp
    tail := ⟨0, List.mem_cons_self, rfl⟩
    data := rfl
    pooled a ha := by split at ha <;> cases ha }
  held t a := by
    constructor
    · intro ha
      split at ha <;> cases ha
    · rintro ⟨pc, hpc, -⟩
      cases hpc
  fits _ _ h := nomatch h
  logged := Logged.nil []
  calls _ _ h := nomatch h
  own _ _ h := absurd rfl h
  noted _ _ h := nomatch h

/-- **Every run** under the two conditions. -/
theorem always_inv [Inhabited α] (L : Layout α) {ops : List (Op τ α)}
    (hwrap : Runs.Meets (step L) NoWrap (new τ α) ops)
    (hlinked : Runs.Meets (step L) LinksLinked (new τ α) ops) :
    Runs.Always (step L) (fun s => ∃ place chain stack items log,
      s.Inv L place chain stack items log) (new τ α) ops := by
  refine Runs.always_of_meets (A := fun _ => True) ?_ (fun _ h => h) (fun _ _ => trivial)
    ⟨_, _, _, _, _, inv_new L⟩ (Runs.meets_and hwrap hlinked)
  rintro s op s' - ⟨place, chain, stack, items, log, h⟩ hc hs
  exact h.step hc.1 hc.2 hs

/-- The calls are those of a FIFO queue. -/
def IsFifo (s : System τ α) : Prop := Linearizable Fifo [] s.calls ∧ NeverMissed s.calls

end System

/-- **The list is a linearizable FIFO queue** in every run in which no tag wraps during a
call and no push links its node behind one that another push has not linked yet. -/
theorem mpmcList_isFifo [DecidableEq τ] [Inhabited α] (L : Layout α) {ops : List (Op τ α)}
    (hwrap : Runs.Meets (System.step L) System.NoWrap (System.new τ α) ops)
    (hlinked : Runs.Meets (System.step L) System.LinksLinked (System.new τ α) ops) :
    Runs.Always (System.step L) System.IsFifo (System.new τ α) ops := by
  refine (System.always_inv L hwrap hlinked).mono fun s hinv => ?_
  obtain ⟨place, chain, stack, items, log, h⟩ := hinv
  exact ⟨h.logged.linearizable, h.logged.linearizable.neverMissed⟩

/-- And in these runs no access goes through a null pointer. -/
theorem mpmcList_not_null [DecidableEq τ] [Inhabited α] (L : Layout α) {ops : List (Op τ α)}
    (hwrap : Runs.Meets (System.step L) System.NoWrap (System.new τ α) ops)
    (hlinked : Runs.Meets (System.step L) System.LinksLinked (System.new τ α) ops) :
    Runs.Always (System.step L) (fun s => ∀ t ok, s.step L (.access t ok) ≠ .error .null)
      (System.new τ α) ops := by
  refine (System.always_inv L hwrap hlinked).mono fun s hinv t ok hnull => ?_
  obtain ⟨place, chain, stack, items, log, h⟩ := hinv
  obtain ⟨pc, hpc, hacc⟩ := System.step_access_eq_null hnull
  exact (h.fits t pc hpc).access_ne_none ok hacc

/-- Numbers, whose bytes are those of a pointer. -/
def numbers : Layout Nat where
  bits val := ⟨some val, 0⟩
  value next := next.tag

/-- The thread takes its next steps, and no compare-exchange fails for no reason. -/
def goes (t : Bool) (n : Nat) : List (Op Bool Nat) := List.replicate n (.access t true)

/-- Two pushes that want to link their nodes behind the same one, and a pop. -/
theorem mpmcList_isFifo_two_pushes : Runs.Always (System.step numbers) System.IsFifo
    (System.new Bool Nat)
    (.push false 10 :: goes false 8 ++ .push true 20 :: goes true 10 ++ goes false 6 ++
      .pop true :: goes true 7) :=
  mpmcList_isFifo numbers (by decide) (by decide)

/-- A push stalls before its compare-exchange of `next_`; another thread pushes, pops, and
begins a push with the node it has freed. The stalled push now links its node to that
one, returns true, and the pop that comes after it returns false. -/
theorem push_missed : Runs.Meets (System.step numbers) System.NoWrap (System.new Bool Nat)
      (.push false 10 :: goes false 8 ++ .push true 20 :: goes true 10 ++ .pop true :: goes true 7 ++
        .push true 30 :: goes true 3 ++ goes false 2 ++ .pop false :: goes false 4) ∧
    ¬ Runs.Always (System.step numbers) System.IsFifo (System.new Bool Nat)
      (.push false 10 :: goes false 8 ++ .push true 20 :: goes true 10 ++ .pop true :: goes true 7 ++
        .push true 30 :: goes true 3 ++ goes false 2 ++ .pop false :: goes false 4) := by
  refine ⟨by decide, fun h => ?_⟩
  have hlast := Runs.always_iff_run.mp h _ List.prefix_rfl _ (Runs.run_last (by decide))
  exact absurd hlast.2 (by decide)

end MpmcList

end Footstone

