import Cxp.Scheduler

/-!
# Who has the processor, and who is queued for it

A process has a *seat* for being current on its processor, and one for being
queued: in the ready queue or in the interprocessor queue.  What the scheduling
functions do to the seats is all that they do (`Same`): a dispatch or a
preemption moves a process from one seat to another, `schedule0` gives one, and
who waits or terminates loses one.  They do it under the condition that nobody
is put into a queue who is in one already.
-/

namespace Cxp

open Queues

namespace Sched

variable {N U : Nat}

/-- How many seats a process has. -/
def seats (sys : Procs N U) (s : Sched N U) (p : Fin N) : Nat :=
  (if s.current (sys.pun p) = p then 1 else 0) + if Queued sys s.queues p then 1 else 0

/-- The queues are in order, each processor has a process of its own, and what
is saved in the record of a process that is not running is where it stands in
its code. -/
structure Sound (sys : Procs N U) (s : Sched N U) : Prop where
  lined : Lined sys s.queues
  kept : s.queues.kept = true
  pun : ∀ π, sys.pun (s.current π) = π
  saved : ∀ p, s.current (sys.pun p) ≠ p ∨ (s.live p).inside ≠ none →
    (s.stackptr p).code = (s.live p).code ∧ (s.stackptr p).op = (s.live p).op

/-- Nothing but the seats has changed. -/
structure Same (s t : Sched N U) : Prop where
  code : ∀ p, (t.live p).code = (s.live p).code
  op : ∀ p, (t.live p).op = (s.live p).op
  sched_state : t.sched_state = s.sched_state
  alt_state : t.alt_state = s.alt_state
  children : t.children = s.children
  parent : t.parent = s.parent

/-- Other queues, and another process on a processor. -/
def handover (s : Sched N U) (queues : Queues N U) (π : Fin U) (new : Fin N) : Sched N U :=
  { s with queues := queues, current := Function.update s.current π new }

variable {sys : Procs N U} {s t : Sched N U} {π : Fin U} {p old new proc : Fin N}
  {q q' : Queues N U} {r : List (Fin N)}

theorem Same.refl (s : Sched N U) : Same s s :=
  ⟨fun _ => rfl, fun _ => rfl, rfl, rfl, rfl, rfl⟩

theorem Same.trans {u : Sched N U} (h : Same s t) (h' : Same t u) : Same s u where
  code p := (h'.code p).trans (h.code p)
  op p := (h'.op p).trans (h.op p)
  sched_state := h'.sched_state.trans h.sched_state
  alt_state := h'.alt_state.trans h.alt_state
  children := h'.children.trans h.children
  parent := h'.parent.trans h.parent

theorem Same.queues (s : Sched N U) (q : Queues N U) : Same s { s with queues := q } :=
  ⟨fun _ => rfl, fun _ => rfl, rfl, rfl, rfl, rfl⟩

theorem current_pun (h : ∀ π, sys.pun (s.current π) = π) (hcur : s.current π = old) :
    s.current (sys.pun old) = old := by
  have hpun := h π
  rw [hcur] at hpun
  rw [hpun, hcur]

section Seats

theorem seats_adds (ha : Adds sys s.queues q' proc) (hp : ¬Queued sys s.queues proc)
    (x : Fin N) :
    seats sys { s with queues := q' } x = seats sys s x + if x = proc then 1 else 0 := by
  unfold seats
  simp only [ha.queued]
  by_cases hx : x = proc
  · subst hx
    simp [hp]
  · simp [hx]

theorem seats_removes (hr : Removes sys s.queues q' proc) (x : Fin N) :
    seats sys { s with queues := q' } x + (if x = proc then 1 else 0) = seats sys s x := by
  unfold seats
  simp only [hr.queued]
  by_cases hx : x = proc
  · subst hx
    simp [hr.was]
  · simp [hx]

/-- The process that is dispatched gives up its seat in the queue for the
processor, and the one that had the processor loses a seat. -/
theorem seats_handover (hpun : ∀ π, sys.pun (s.current π) = π) (hcur : s.current π = old)
    (hr : Removes sys s.queues q' new) (hnew : sys.pun new = π) (x : Fin N) :
    seats sys (s.handover q' π new) x + (if x = old then 1 else 0) = seats sys s x := by
  have hold : sys.pun old = π := hcur ▸ hpun π
  unfold seats handover
  simp only [hr.queued]
  by_cases hx : sys.pun x = π
  · rw [hx]
    simp only [Function.update_self, hcur]
    by_cases hxn : x = new
    · subst hxn
      by_cases hxo : x = old
      · simp [hxo, hxo ▸ hr.was]
      · simp [hxo, Ne.symm hxo, hr.was]
    · by_cases hxo : x = old
      · subst hxo
        simp [hxn, Ne.symm hxn, Nat.add_comm]
      · simp [hxo, hxn, Ne.symm hxo, Ne.symm hxn]
  · have hxn : x ≠ new := fun h => hx (h ▸ hnew)
    have hxo : x ≠ old := fun h => hx (h ▸ hold)
    simp [Function.update_of_ne hx, hxn, hxo]

/-- A process that takes the processor without having been queued gains a seat,
and the one that it preempts is queued. -/
theorem seats_preempt (hpun : ∀ π, sys.pun (s.current π) = π) (hcur : s.current π = old)
    (ha : Adds sys s.queues q' old) (hold : ¬Queued sys s.queues old)
    (hp : ¬Queued sys s.queues new) (hne : new ≠ old) (hnew : sys.pun new = π) (x : Fin N) :
    seats sys (s.handover q' π new) x = seats sys s x + if x = new then 1 else 0 := by
  have holdpun : sys.pun old = π := hcur ▸ hpun π
  unfold seats handover
  simp only [ha.queued]
  by_cases hx : sys.pun x = π
  · rw [hx]
    simp only [Function.update_self, hcur]
    by_cases hxn : x = new
    · subst hxn
      simp [hp, hne, hne.symm]
    · by_cases hxo : x = old
      · subst hxo
        simp [hold, hxn, Ne.symm hxn]
      · simp [hxo, hxn, Ne.symm hxo, Ne.symm hxn]
  · have hxn : x ≠ new := fun h => hx (h ▸ hnew)
    have hxo : x ≠ old := fun h => hx (h ▸ holdpun)
    simp [Function.update_of_ne hx, hxn, hxo]

/-- A process without two seats that has the processor is not queued. -/
theorem not_queued (hcur : s.current (sys.pun p) = p) (h : seats sys s p ≤ 1) :
    ¬Queued sys s.queues p := by
  intro hq
  simp [seats, hcur, hq] at h

end Seats

section Contexts

/-- **A dispatch.**  When what is saved for the process that loses the processor
is where it stands, too, then to restore the context of another one, or its own,
changes nothing about where anyone stands. -/
theorem restore_context_sound (hl : Lined sys q') (hk : q'.kept = true)
    (hpun : ∀ π, sys.pun (s.current π) = π) (hcur : s.current π = old)
    (hnew : sys.pun new = π)
    (hsaved : ∀ p, p = old ∨ s.current (sys.pun p) ≠ p ∨ (s.live p).inside ≠ none →
      (s.stackptr p).code = (s.live p).code ∧ (s.stackptr p).op = (s.live p).op) :
    Sound sys ((s.handover q' π new).restore_context new) ∧
      Same s ((s.handover q' π new).restore_context new) := by
  have hrest : (s.stackptr new).code = (s.live new).code ∧
      (s.stackptr new).op = (s.live new).op := by
    apply hsaved
    by_cases hno : new = old
    · exact Or.inl hno
    · refine Or.inr (Or.inl ?_)
      rw [hnew, hcur]
      exact Ne.symm hno
  have hlive : ∀ p, (((s.handover q' π new).restore_context new).live p).code =
        (s.live p).code ∧
      (((s.handover q' π new).restore_context new).live p).op = (s.live p).op := by
    intro p
    simp only [restore_context, handover]
    by_cases hp : p = new
    · subst hp
      rw [Function.update_self]
      exact hrest
    · rw [Function.update_of_ne hp]
      exact ⟨rfl, rfl⟩
  refine ⟨⟨hl, hk, ?_, ?_⟩, fun p => (hlive p).1, fun p => (hlive p).2, rfl, rfl, rfl, rfl⟩
  · intro σ
    by_cases hσ : σ = π
    · subst hσ
      simpa [restore_context, handover] using hnew
    · simpa [restore_context, handover, hσ] using hpun σ
  · intro p hp
    simp only [restore_context, handover] at hp ⊢
    by_cases hpn : p = new
    · subst hpn
      rw [Function.update_self]
      exact ⟨rfl, rfl⟩
    · rw [Function.update_of_ne hpn] at hp ⊢
      apply hsaved
      by_cases hpo : p = old
      · exact Or.inl hpo
      · refine Or.inr (hp.imp_left fun hc => ?_)
        by_cases hpπ : sys.pun p = π
        · rw [hpπ, hcur]
          exact Ne.symm hpo
        · rwa [Function.update_of_ne hpπ] at hc

/-- The process that loses the processor is saved where it stands. -/
theorem Sound.switch_context (h : Sound sys s) (hl : Lined sys q') (hk : q'.kept = true)
    (hcur : s.current π = old) (hnew : sys.pun new = π) :
    Sound sys ((s.handover q' π new).switch_context old new) ∧
      Same s ((s.handover q' π new).switch_context old new) := by
  set s₁ : Sched N U :=
    { s with
      stackptr := Function.update s.stackptr old (s.live old)
      lost := Function.update s.lost old (s.live old)
      swapped := Function.update s.swapped old (s.live old).inside.isSome }
  have hsaved : ∀ p, p = old ∨ s.current (sys.pun p) ≠ p ∨ (s.live p).inside ≠ none →
      (s₁.stackptr p).code = (s.live p).code ∧ (s₁.stackptr p).op = (s.live p).op := by
    intro p hp
    by_cases hpo : p = old
    · simp [s₁, hpo]
    · simpa [s₁, hpo] using h.saved p (hp.resolve_left hpo)
  obtain ⟨hsound, hsame⟩ := restore_context_sound (s := s₁) hl hk h.pun hcur hnew hsaved
  exact ⟨hsound, hsame.code, hsame.op, rfl, rfl, rfl, rfl⟩

/-- The process that loses the processor in a handler was saved on entry. -/
theorem Sound.switch_interrupt_context (h : Sound sys s) (hl : Lined sys q')
    (hk : q'.kept = true) (hcur : s.current π = old) (hnew : sys.pun new = π)
    (hin : (s.live old).inside ≠ none) :
    Sound sys ((s.handover q' π new).switch_interrupt_context old new) ∧
      Same s ((s.handover q' π new).switch_interrupt_context old new) := by
  set s₁ : Sched N U :=
    { s with lost := Function.update s.lost old { s.live old with inside := none } }
  have hsaved : ∀ p, p = old ∨ s.current (sys.pun p) ≠ p ∨ (s.live p).inside ≠ none →
      (s₁.stackptr p).code = (s.live p).code ∧ (s₁.stackptr p).op = (s.live p).op := by
    intro p hp
    rcases hp with rfl | hp
    · exact h.saved p (Or.inr hin)
    · exact h.saved p hp
  obtain ⟨hsound, hsame⟩ := restore_context_sound (s := s₁) hl hk h.pun hcur hnew hsaved
  exact ⟨hsound, hsame.code, hsame.op, rfl, rfl, rfl, rfl⟩

/-- What a process does to itself while it has the processor and no interrupt
is being handled. -/
theorem Sound.of_live (h : Sound sys s) (hlined : t.queues = s.queues)
    (hcur : t.current = s.current) (hp : s.Runs sys p)
    (hin : (t.live p).inside = none)
    (hlive : ∀ x, x ≠ p → t.live x = s.live x)
    (hstack : ∀ x, x ≠ p → t.stackptr x = s.stackptr x) : Sound sys t := by
  refine ⟨hlined ▸ h.lined, hlined ▸ h.kept, hcur ▸ h.pun, fun x hx => ?_⟩
  have hxp : x ≠ p := by
    intro hxp
    rw [hxp, hcur, hin] at hx
    exact hx.elim (fun hne => hne hp.1) fun hne => hne rfl
  rw [hlive x hxp, hcur] at hx
  rw [hlive x hxp, hstack x hxp]
  exact h.saved x hx

end Contexts

section Functions

theorem Sound.enqueue0 (h : Sound sys s) (hp : ¬Queued sys s.queues proc) :
    ∃ t, s.enqueue0 sys proc = some t ∧ Sound sys t ∧ Same s t ∧ t.current = s.current ∧
      t.live = s.live ∧ Adds sys s.queues t.queues proc ∧
      ∀ x, seats sys t x = seats sys s x + if x = proc then 1 else 0 := by
  obtain ⟨q', hq', -, ha⟩ := h.lined.enqueue0 hp
  refine ⟨{ s with queues := q' }, ?_, ⟨ha.lined, ha.kept.trans h.kept, h.pun, h.saved⟩,
    Same.queues s q', rfl, rfl, ha, seats_adds ha hp⟩
  simp [Sched.enqueue0, hq']

/-- `schedule0` gives a process that is not queued a seat. -/
theorem Sound.schedule0 (h : Sound sys s) (hp : ¬Queued sys s.queues proc)
    (hcurr : pri_le (sys.pri proc) (sys.pri (s.current π)) = false →
      sys.pun proc = π → ¬Queued sys s.queues (s.current π))
    (hstep : s.schedule0 sys π proc = some t) :
    Sound sys t ∧ Same s t ∧
      ∀ x, seats sys t x = seats sys s x + if x = proc then 1 else 0 := by
  unfold Sched.schedule0 at hstep
  dsimp only at hstep
  split at hstep
  next hpun =>
    split at hstep
    next =>
      obtain ⟨t', ht', hsound, hsame, -, -, -, hseats⟩ := h.enqueue0 hp
      obtain rfl := Option.some.inj (ht'.symm.trans hstep)
      exact ⟨hsound, hsame, hseats⟩
    next hle =>
      -- the process preempts the current one
      have hle' := eq_false_of_ne_true hle
      have hold := hcurr hle' hpun
      have hne : proc ≠ s.current π := by
        intro heq
        rw [← heq] at hle'
        simp [pri_le] at hle'
      obtain ⟨q', hq', -, ha⟩ := h.lined.enqueue0 hold
      simp only [set_current, hpun, if_true, Sched.enqueue0, hq', Option.map_some,
        Option.bind_eq_bind, Option.bind_some, Option.pure_def, Option.some.injEq] at hstep
      subst hstep
      obtain ⟨hsound, hsame⟩ := h.switch_context ha.lined (ha.kept.trans h.kept) rfl hpun
      exact ⟨hsound, hsame, seats_preempt h.pun rfl ha hold hp hne hpun⟩
  next =>
    obtain ⟨q', hq', rfl⟩ := Option.map_eq_some_iff.mp hstep
    have ha := h.lined.ipq_add hp hq'
    exact ⟨⟨ha.lined, ha.kept.trans h.kept, h.pun, h.saved⟩, Same.queues s q',
      seats_adds ha hp⟩

/-- A preemption changes no seats. -/
theorem Sound.schedule_from_interrupt (h : Sound sys s)
    (hin : (s.live (s.current π)).inside ≠ none)
    (hcurr : s.outranked sys π → ¬Queued sys s.queues (s.current π))
    (hstep : s.schedule_from_interrupt sys π = some t) :
    Sound sys t ∧ Same s t ∧ ∀ x, seats sys t x = seats sys s x := by
  unfold Sched.schedule_from_interrupt at hstep
  split at hstep
  next hout =>
    obtain ⟨⟨new, q₁⟩, htake, hstep⟩ := Option.bind_eq_some_iff.mp hstep
    obtain ⟨hr, hnew⟩ := h.lined.take htake
    have hold : ¬Queued sys q₁ (s.current π) := fun hq => hcurr hout ((hr.queued _).mp hq).1
    obtain ⟨q₂, hq₂, -, ha⟩ := hr.lined.enqueue0 hold
    simp only [set_current, hnew, if_true, Sched.enqueue0, hq₂, Option.map_some,
      Option.bind_eq_bind, Option.bind_some, Option.pure_def, Option.some.injEq] at hstep
    subst hstep
    have hkept : q₂.kept = true := ha.kept.trans (hr.kept.trans h.kept)
    obtain ⟨hsound, hsame⟩ := h.switch_interrupt_context ha.lined hkept rfl hnew hin
    refine ⟨hsound, hsame, fun x => ?_⟩
    have hseats := seats_handover h.pun rfl hr hnew x
    exact (seats_adds (s := s.handover q₁ π new) ha hold x).trans hseats
  next =>
    obtain rfl := Option.some.inj hstep
    exact ⟨h, Same.refl _, fun _ => rfl⟩

/-- Who waits loses its seat on the processor. -/
theorem Sound.relinquish {w : Wait} (h : Sound sys s) (hp : s.Runs sys p)
    (hstep : s.relinquish_unconditional sys p w = some t) :
    Sound sys t ∧ Same (s.goto p (.switched w)) t ∧
      ∀ x, seats sys t x + (if x = p then 1 else 0) = seats sys s x := by
  unfold Sched.relinquish_unconditional at hstep
  obtain ⟨⟨new, q₁⟩, htake, hstep⟩ := Option.bind_eq_some_iff.mp hstep
  obtain ⟨hr, hnew⟩ := h.lined.take htake
  simp only [set_current, hnew, if_true, Option.bind_eq_bind, Option.bind_some,
    Option.pure_def, Option.some.injEq] at hstep
  subst hstep
  have hgoto : Sound sys (s.goto p (.switched w)) := by
    refine h.of_live rfl rfl hp ?_ (fun x hx => Function.update_of_ne hx _ _)
      fun _ _ => rfl
    simpa [goto] using hp.2
  obtain ⟨hsound, hsame⟩ := hgoto.switch_context hr.lined (hr.kept.trans h.kept) hp.1 hnew
  exact ⟨hsound, hsame, seats_handover h.pun hp.1 hr hnew⟩

/-- So does who terminates. -/
theorem Sound.finish_termination (h : Sound sys s) (hp : s.Runs sys p)
    (hstep : s.finish_termination sys p = some t) :
    Sound sys t ∧ Same (s.vanish p) t ∧
      ∀ x, seats sys t x + (if x = p then 1 else 0) = seats sys s x := by
  unfold Sched.finish_termination at hstep
  obtain ⟨⟨new, q₁⟩, htake, hstep⟩ := Option.bind_eq_some_iff.mp hstep
  obtain ⟨hr, hnew⟩ := h.lined.take htake
  simp only [set_current, hnew, if_true, Option.bind_eq_bind, Option.bind_some,
    Option.pure_def, Option.some.injEq] at hstep
  subst hstep
  have hsaved : ∀ x, x = p ∨ s.current (sys.pun x) ≠ x ∨ ((s.vanish p).live x).inside ≠ none →
      ((s.vanish p).stackptr x).code = ((s.vanish p).live x).code ∧
        ((s.vanish p).stackptr x).op = ((s.vanish p).live x).op := by
    intro x hx
    by_cases hxp : x = p
    · simp [vanish, hxp]
    · simp only [vanish, Function.update_of_ne hxp] at hx ⊢
      exact h.saved x (hx.resolve_left hxp)
  obtain ⟨hsound, hsame⟩ := restore_context_sound (s := s.vanish p) hr.lined
    (hr.kept.trans h.kept) h.pun hp.1 hnew hsaved
  exact ⟨hsound, hsame, seats_handover h.pun hp.1 hr hnew⟩

/-- Who yields keeps its seat, and enables interrupts next if it has lost the
processor. -/
theorem Sound.yield (h : Sound sys s) (hp : s.Runs sys p) (hq : ¬Queued sys s.queues p)
    (hstep : s.yield sys p = some t) :
    Sound sys t ∧ (Same s t ∨ Same (s.doing p .enable) t) ∧
      ∀ x, seats sys t x = seats sys s x := by
  unfold Sched.yield at hstep
  obtain ⟨⟨new, q₁⟩, htake, hstep⟩ := Option.bind_eq_some_iff.mp hstep
  have hspec := h.lined.take1 htake
  cases new with
  | none =>
      obtain ⟨hl, hk, hiff⟩ := hspec
      obtain rfl := Option.some.inj hstep
      refine ⟨⟨hl, hk.trans h.kept, h.pun, h.saved⟩, Or.inl (Same.queues s q₁), fun x => ?_⟩
      simp [seats, hiff]
  | some new =>
      obtain ⟨hr, hnew⟩ := hspec
      have hold : ¬Queued sys q₁ p := fun hq' => hq ((hr.queued p).mp hq').1
      obtain ⟨q₂, hq₂, -, ha⟩ := hr.lined.enqueue0 hold
      simp only [set_current, hnew, if_true, Sched.enqueue0, hq₂, Option.map_some,
        Option.bind_eq_bind, Option.bind_some, Option.pure_def, Option.some.injEq] at hstep
      subst hstep
      have hdoing : Sound sys (s.doing p .enable) := by
        refine h.of_live rfl rfl hp ?_ (fun x hx => Function.update_of_ne hx _ _)
          fun _ _ => rfl
        simpa [doing] using hp.2
      obtain ⟨hsound, hsame⟩ := hdoing.switch_context ha.lined
        (ha.kept.trans (hr.kept.trans h.kept)) hp.1 hnew
      refine ⟨hsound, Or.inr hsame, fun x => ?_⟩
      have hseats := seats_handover h.pun hp.1 hr hnew x
      exact (seats_adds (s := s.handover q₁ (sys.pun p) new) ha hold x).trans hseats

end Functions

end Sched

end Cxp
