import Cxp.NestedPriorities
import Cxp.ProcessorTurns

/-!
# Who exists, and what a step does to a processor

Whatever runs, is queued, is about to be freed or scheduled, is in a select or
waits for children has been built (`Populated`).  Nothing is assumed about
preemptions and wakeups here.  A step is one turn of the processor that takes
it, and leaves the contexts of the others alone (`Stepped`); that every step is
one, is `Populated.step`.
-/

namespace Cxp

open Queues

variable {N U : Nat}

/-- The processor that takes the step. -/
def SchedAct.site (sys : Procs N U) : SchedAct N U → Fin U
  | .prepare p | .select p | .found p | .par p _ _ | .build p _ | .wake p _ | .free p _
  | .yield p | .sync p | .run p => sys.pun p
  | .interrupt π _ | .freeProcess π _ | .freeAlting π _ | .handle π => π

/-- The step is a yield. -/
def SchedAct.Yields (act : SchedAct N U) : Prop := ∃ p, act = .yield p

/-- The handler readies processes and is still to call `schedule_from_interrupt`. -/
def Handler.readies : Handler N → Bool
  | .timeout | .freeWaiting _ | .preempt _ => true
  | _ => false

/-- In this context a process is about to be freed or scheduled. -/
def Context.Names (c : Context N) (q : Fin N) : Prop :=
  c.op = .freeWaiting q ∨ c.op = .schedule q ∨ c.inside = some (.freeWaiting q)

/-- What holds of a context of process `p`, `B` being those that exist. -/
structure Context.Fine (sys : Procs N U) (B : Fin N → Prop) (p : Fin N) (c : Context N) :
    Prop where
  names : ∀ q, c.Names q → B q
  near : ∀ q, c.inside = some (.freeWaiting q) → sys.pun q = sys.pun p
  accepted : ∀ kind nc left, c.code = .par kind nc left →
    kind.accepts (sys.pri p) nc ∧ left ≤ nc
  idles : sys.idler (sys.pun p) = p → c.code = .own ∧ c.op = .none

namespace Sched

/-- The process has been built. -/
def Born (s : Sched N U) (p : Fin N) : Prop := (s.live p).code ≠ .unborn

/-- The handler that the processor is in is still to look who is first. -/
def Readying (s : Sched N U) (π : Fin U) : Prop :=
  ∃ h, s.Inside π h ∧ h.readies

/-- Everyone that the scheduler may come upon has been built. -/
structure Populated (sys : Procs N U) (s : Sched N U) : Prop where
  chained : Chained sys s.queues
  pun : ∀ π, sys.pun (s.current π) = π
  current : ∀ π, s.Born (s.current π)
  queued : ∀ π x, s.queues.At π x → s.Born x
  saved : ∀ p, (s.stackptr p).code ≠ .unborn ↔ s.Born p
  live : ∀ p, (s.live p).Fine sys s.Born p
  stackptr : ∀ p, (s.stackptr p).Fine sys s.Born p
  alting : ∀ p, s.alt_state p ≠ .none → s.Born p
  parent : ∀ p q, s.parent p = some q → s.Born q
  fits : ∀ p, s.Born p → sys.idler (sys.pun p) = p ∨ Fits (sys.pri p)

/-- What a step does. -/
structure Stepped (sys : Procs N U) (act : SchedAct N U) (s t : Sched N U) : Prop where
  populated : Populated sys t
  turn : ∃ c, t.current = Function.update s.current (act.site sys) c ∧
    Turn sys t.Born (s.Readying (act.site sys)) (t.Readying (act.site sys)) act.Yields
      (act.site sys) (s.current (act.site sys)) s.queues c t.queues
  newborn : ∀ p, t.Born p → s.Born p ∨ ∃ parent, act = .build parent p
  frame : ∀ σ, σ ≠ act.site sys →
    (t.live (t.current σ)).inside = (s.live (s.current σ)).inside

variable {sys : Procs N U} {s t u : Sched N U} {act : SchedAct N U} {π : Fin U}
  {p q proc new : Fin N} {c d : Context N}


/-- Only the context of `new` is restored, and contexts are saved. -/
structure Moved (s t : Sched N U) (new : Fin N) : Prop where
  live : ∀ p, t.live p = s.live p ∨ p = new ∧ t.live p = s.stackptr p
  stackptr : ∀ p, t.stackptr p = s.stackptr p ∨ t.stackptr p = s.live p
  alt_state : t.alt_state = s.alt_state
  parent : t.parent = s.parent

section Contexts

theorem fine_mono {B B' : Fin N → Prop} (h : c.Fine sys B p) (hB : ∀ q, B q → B' q) :
    c.Fine sys B' p :=
  ⟨fun q hq => hB q (h.names q hq), h.near, h.accepted, h.idles⟩

theorem born_sets (hlive : t.live = Function.update s.live p c) (hc : c.code ≠ .unborn)
    (x : Fin N) : t.Born x ↔ s.Born x ∨ x = p := by
  unfold Born
  rw [hlive]
  by_cases hx : x = p
  · subst hx
    simp [hc]
  · simp [hx]

/-- One process gets a new context, and another one saved. -/
theorem Populated.sets (h : Populated sys s) (hq : t.queues = s.queues)
    (hcur : t.current = s.current) (hlive : t.live = Function.update s.live p c)
    (hstack : t.stackptr = Function.update s.stackptr p d) (hc : c.code ≠ .unborn)
    (hd : d.code ≠ .unborn) (hfc : c.Fine sys s.Born p) (hfd : d.Fine sys s.Born p)
    (hfits : s.Born p ∨ Fits (sys.pri p))
    (halt : ∀ x, t.alt_state x ≠ .none → s.Born x ∨ x = p)
    (hpar : ∀ x q, t.parent x = some q → s.Born q) : Populated sys t := by
  have hborn : ∀ x, t.Born x ↔ s.Born x ∨ x = p := born_sets hlive hc
  have hgrow : ∀ x, s.Born x → t.Born x := fun x hx => (hborn x).mpr (Or.inl hx)
  constructor
  case chained => exact hq ▸ h.chained
  case pun => exact hcur ▸ h.pun
  case current => exact fun π => hcur ▸ hgrow _ (h.current π)
  case queued => exact fun π x hx => hgrow x (h.queued π x (hq ▸ hx))
  case saved =>
    intro x
    rw [hborn, hstack]
    by_cases hx : x = p
    · subst hx
      simp [hd]
    · rw [Function.update_of_ne hx, h.saved]
      simp [hx]
  case live =>
    intro x
    rw [hlive]
    by_cases hx : x = p
    · subst hx
      rw [Function.update_self]
      exact fine_mono hfc hgrow
    · rw [Function.update_of_ne hx]
      exact fine_mono (h.live x) hgrow
  case stackptr =>
    intro x
    rw [hstack]
    by_cases hx : x = p
    · subst hx
      rw [Function.update_self]
      exact fine_mono hfd hgrow
    · rw [Function.update_of_ne hx]
      exact fine_mono (h.stackptr x) hgrow
  case alting => exact fun x hx => (hborn x).mpr (halt x hx)
  case parent => exact fun x q hx => hgrow q (hpar x q hx)
  case fits =>
    intro x hx
    rcases (hborn x).mp hx with hx | rfl
    · exact h.fits x hx
    · exact hfits.elim (h.fits x) Or.inr

theorem Moved.born (hm : Moved s t new) (h : Populated sys s) (x : Fin N) :
    t.Born x ↔ s.Born x := by
  unfold Born
  rcases hm.live x with hx | ⟨-, hx⟩
  · rw [hx]
  · rw [hx]
    exact h.saved x

/-- The processor is handed over in a turn. -/
theorem Populated.moves {R R' Y : Prop} (h : Populated sys s) (hm : Moved s t new)
    (hcur : t.current = Function.update s.current π new)
    (hturn : Turn sys s.Born R R' Y π (s.current π) s.queues new t.queues) :
    Populated sys t := by
  obtain ⟨hnew, hat⟩ := hturn.known h.chained (h.current π) h.queued
  have hborn : ∀ x, t.Born x ↔ s.Born x := hm.born h
  have hgrow : ∀ x, s.Born x → t.Born x := fun x => (hborn x).mpr
  constructor
  case chained => exact hturn.chained h.chained
  case pun =>
    intro σ
    rw [hcur]
    by_cases hσ : σ = π
    · subst hσ
      rw [Function.update_self]
      exact hturn.pun_current h.chained (h.pun σ)
    · rw [Function.update_of_ne hσ]
      exact h.pun σ
  case current =>
    intro σ
    rw [hcur]
    apply hgrow
    by_cases hσ : σ = π
    · subst hσ
      rwa [Function.update_self]
    · rw [Function.update_of_ne hσ]
      exact h.current σ
  case queued => exact fun σ x hx => hgrow x (hat σ x hx)
  case saved =>
    intro x
    rw [hborn]
    rcases hm.stackptr x with hx | hx
    · rw [hx]
      exact h.saved x
    · rw [hx]
      exact Iff.rfl
  case live =>
    intro x
    rcases hm.live x with hx | ⟨-, hx⟩
    · exact hx ▸ fine_mono (h.live x) hgrow
    · exact hx ▸ fine_mono (h.stackptr x) hgrow
  case stackptr =>
    intro x
    rcases hm.stackptr x with hx | hx
    · exact hx ▸ fine_mono (h.stackptr x) hgrow
    · exact hx ▸ fine_mono (h.live x) hgrow
  case alting => exact fun x hx => hgrow x (h.alting x (hm.alt_state ▸ hx))
  case parent => exact fun x q hx => hgrow q (h.parent x q (hm.parent ▸ hx))
  case fits => exact fun x hx => h.fits x ((hborn x).mp hx)

/-- The other processors keep their current processes and the handlers they are in. -/
theorem Moved.frame (hm : Moved s t new) (h : Populated sys s)
    (hcur : t.current = Function.update s.current π new) (hnew : sys.pun new = π)
    {σ : Fin U} (hσ : σ ≠ π) :
    (t.live (t.current σ)).inside = (s.live (s.current σ)).inside := by
  rw [hcur, Function.update_of_ne hσ]
  rcases hm.live (s.current σ) with hx | ⟨hx, -⟩
  · rw [hx]
  · exact absurd (h.pun σ) (hx ▸ hnew ▸ Ne.symm hσ)

end Contexts

section Functions

variable {B : Fin N → Prop} {R Q Y : Prop} {w : Wait}

theorem Moved.refl (s : Sched N U) (q : Queues N U) (new : Fin N) :
    Moved s { s with queues := q } new :=
  ⟨fun _ => Or.inl rfl, fun _ => Or.inl rfl, rfl, rfl⟩

theorem restore_moved (old new : Fin N) (queues : Queues N U) (current : Fin U → Fin N) :
    Moved s ({ s with queues := queues, current := current }.switch_context old new) new := by
  refine ⟨fun p => ?_, fun p => ?_, rfl, rfl⟩
  · by_cases hp : p = new
    · subst hp
      by_cases ho : p = old
      · subst ho
        left
        simp [switch_context, restore_context]
      · right
        simp [switch_context, restore_context, ho]
    · left
      simp [switch_context, restore_context, hp]
  · by_cases ho : p = old
    · subst ho
      right
      simp [switch_context, restore_context]
    · left
      simp [switch_context, restore_context, ho]

theorem interrupt_moved (old new : Fin N) (queues : Queues N U) (current : Fin U → Fin N) :
    Moved s ({ s with queues := queues, current := current }.switch_interrupt_context old new)
      new := by
  refine ⟨fun p => ?_, fun p => Or.inl rfl, rfl, rfl⟩
  by_cases hp : p = new
  · subst hp
    right
    simp [switch_interrupt_context, restore_context]
  · left
    simp [switch_interrupt_context, restore_context, hp]

/-- **`schedule0`** is a turn. -/
theorem schedule0_turn (hb : B proc) (hR : ¬R) (hstep : s.schedule0 sys π proc = some t) :
    ∃ c, t.current = Function.update s.current π c ∧ Moved s t c ∧
      Turn sys B R Q Y π (s.current π) s.queues c t.queues := by
  unfold schedule0 at hstep
  dsimp only at hstep
  split at hstep
  next hpun =>
    split at hstep
    next hle =>
      obtain ⟨q', hq', rfl⟩ := Option.map_eq_some_iff.mp hstep
      exact ⟨s.current π, (Function.update_eq_self ..).symm, Moved.refl s q' _,
        .joins hb hpun hq' (Or.inr ⟨hR, hle⟩)⟩
    next hle =>
      simp only [set_current, hpun, if_true, Sched.enqueue0, Option.bind_eq_bind,
        Option.bind_some, Option.pure_def] at hstep
      obtain ⟨s₁, hs₁, hstep⟩ := Option.bind_eq_some_iff.mp hstep
      obtain ⟨q', hq', rfl⟩ := Option.map_eq_some_iff.mp hs₁
      obtain rfl := Option.some.inj hstep
      exact ⟨proc, rfl, restore_moved _ proc q' _,
        .preempts hb hpun (eq_false_of_ne_true hle) hq' hR⟩
  next hpun =>
    obtain ⟨q', hq', rfl⟩ := Option.map_eq_some_iff.mp hstep
    exact ⟨s.current π, (Function.update_eq_self ..).symm, Moved.refl s q' _,
      .tells hb hpun hq' hR⟩

/-- A processor whose current process is not outranked by the head of its queue. -/
theorem outranks_of_not_outranked (h : Chained sys s.queues)
    (hout : s.outranked sys π = false) : Outranks sys s.queues π (s.current π) := by
  intro x hx
  unfold outranked at hout
  rw [h.head_eq π] at hout
  cases hlinks : s.queues.links π with
  | nil =>
      rw [hlinks] at hx
      cases hx
  | cons y ys =>
      rw [hlinks, List.head?_cons] at hout
      have hsorted := h.sorted π
      rw [hlinks, List.pairwise_cons] at hsorted
      have hy : pri_le (sys.pri y) (sys.pri (s.current π)) = true := by
        by_contra hne
        rw [Bool.not_eq_true, ← pri_gt_iff_not_le] at hne
        simp [hne] at hout
      rw [hlinks] at hx
      rcases List.mem_cons.mp hx with rfl | hx
      · exact hy
      · exact pri_le_trans (hsorted.1 x hx) hy

theorem outranked_iff (h : Chained sys s.queues) :
    s.outranked sys π = true ↔
      ∃ x ∈ s.queues.links π, pri_gt (sys.pri x) (sys.pri (s.current π)) = true := by
  constructor
  · intro hout
    unfold outranked at hout
    rw [h.head_eq π] at hout
    cases hlinks : s.queues.links π with
    | nil => simp [hlinks] at hout
    | cons y ys =>
        rw [hlinks, List.head?_cons] at hout
        exact ⟨y, List.mem_cons_self, hout⟩
  · rintro ⟨x, hx, hgt⟩
    by_contra hne
    have hle := outranks_of_not_outranked h (Bool.not_eq_true _ ▸ hne) x hx
    rw [pri_gt_iff_not_le, hle] at hgt
    cases hgt

/-- **`schedule_from_interrupt`** is a turn, whatever was readied before. -/
theorem schedule_from_interrupt_turn (h : Chained sys s.queues)
    (hstep : s.schedule_from_interrupt sys π = some t) :
    ∃ c, t.current = Function.update s.current π c ∧ Moved s t c ∧
      Turn sys B R Q Y π (s.current π) s.queues c t.queues := by
  unfold schedule_from_interrupt at hstep
  split at hstep
  next hout =>
    obtain ⟨⟨new, q₁⟩, htake, hstep⟩ := Option.bind_eq_some_iff.mp hstep
    obtain ⟨s₁, hs₁, hstep⟩ := Option.bind_eq_some_iff.mp hstep
    obtain ⟨q', hq', rfl⟩ := Option.map_eq_some_iff.mp hs₁
    have hpun := (h.take htake).pun
    simp only [set_current, hpun, if_true, Option.bind_eq_bind, Option.bind_some,
      Option.pure_def, Option.some.injEq] at hstep
    subst hstep
    exact ⟨new, rfl, interrupt_moved _ new q' _,
      .rotates ((outranked_iff h).mp hout) htake hq'⟩
  next hout =>
    obtain rfl := Option.some.inj hstep
    exact ⟨s.current π, (Function.update_eq_self ..).symm, Moved.refl s _ _,
      .stays fun _ => Or.inr (outranks_of_not_outranked h (eq_false_of_ne_true hout))⟩

/-- **`relinquish_unconditional`** is a turn. -/
theorem relinquish_turn (h : Chained sys s.queues) (hp : s.current (sys.pun p) = p)
    (hidle : sys.idler (sys.pun p) ≠ p)
    (hstep : s.relinquish_unconditional sys p w = some t) :
    ∃ c, t.current = Function.update s.current (sys.pun p) c ∧
      Moved (s.goto p (.switched w)) t c ∧
      Turn sys B R Q Y (sys.pun p) (s.current (sys.pun p)) s.queues c t.queues := by
  unfold relinquish_unconditional at hstep
  obtain ⟨⟨new, q₁⟩, htake, hstep⟩ := Option.bind_eq_some_iff.mp hstep
  have hpun := (h.take htake).pun
  simp only [set_current, hpun, if_true, Option.bind_eq_bind, Option.bind_some,
    Option.pure_def, Option.some.injEq] at hstep
  subst hstep
  exact ⟨new, rfl, restore_moved (s := s.goto p (.switched w)) p new q₁ _,
    .dispatches (fun heq => hidle (heq.trans hp)) htake⟩

/-- **`finish_termination`** is a turn. -/
theorem finish_termination_turn (h : Chained sys s.queues) (hp : s.current (sys.pun p) = p)
    (hidle : sys.idler (sys.pun p) ≠ p) (hstep : s.finish_termination sys p = some t) :
    ∃ c, t.current = Function.update s.current (sys.pun p) c ∧ Moved (s.vanish p) t c ∧
      Turn sys B R Q Y (sys.pun p) (s.current (sys.pun p)) s.queues c t.queues := by
  unfold finish_termination at hstep
  obtain ⟨⟨new, q₁⟩, htake, hstep⟩ := Option.bind_eq_some_iff.mp hstep
  have hpun := (h.take htake).pun
  simp only [set_current, hpun, if_true, Option.bind_eq_bind, Option.bind_some,
    Option.pure_def, Option.some.injEq] at hstep
  subst hstep
  refine ⟨new, rfl, ⟨fun x => ?_, fun _ => Or.inl rfl, rfl, rfl⟩,
    .dispatches (fun heq => hidle (heq.trans hp)) htake⟩
  by_cases hx : x = new
  · subst hx
    right
    simp [restore_context, vanish]
  · left
    simp [restore_context, vanish, hx]

/-- **`yield`** is a turn. -/
theorem yield_turn (h : Chained sys s.queues) (hp : s.current (sys.pun p) = p) (hY : Y)
    (hstep : s.yield sys p = some t) :
    ∃ c, t.current = Function.update s.current (sys.pun p) c ∧
      (Moved s t c ∨ Moved (s.doing p .enable) t c) ∧
      Turn sys B R Q Y (sys.pun p) (s.current (sys.pun p)) s.queues c t.queues := by
  unfold Sched.yield at hstep
  obtain ⟨⟨new, q₁⟩, htake, hstep⟩ := Option.bind_eq_some_iff.mp hstep
  cases new with
  | none =>
      obtain rfl := Option.some.inj hstep
      exact ⟨_, (Function.update_eq_self ..).symm, Or.inl (Moved.refl s q₁ _),
        .remains hY htake⟩
  | some new =>
      have hpun := (h.take1_some htake).1.pun
      simp only [set_current, hpun, if_true, Option.bind_eq_bind, Option.bind_some,
        Option.pure_def] at hstep
      obtain ⟨s₁, hs₁, hstep⟩ := Option.bind_eq_some_iff.mp hstep
      obtain ⟨q', hq', rfl⟩ := Option.map_eq_some_iff.mp hs₁
      obtain rfl := Option.some.inj hstep
      exact ⟨new, rfl, Or.inr (restore_moved (s := s.doing p .enable) p new q' _),
        .yields hY htake (hp.symm ▸ hq')⟩

end Functions

section Steps

variable {e : Code} {o : Op N} {i : Option (Handler N)}

theorem fine_goes {B : Fin N → Prop} (h : c.Fine sys B p) (hidle : sys.idler (sys.pun p) ≠ p)
    (hacc : ∀ kind nc left, e = .par kind nc left →
      kind.accepts (sys.pri p) nc ∧ left ≤ nc)
    (hop : ∀ q, o = .freeWaiting q ∨ o = .schedule q → B q) :
    Context.Fine sys B p { c with code := e, op := o } := by
  refine ⟨fun q hq => ?_, h.near, hacc, fun heq => absurd heq hidle⟩
  rcases hq with hq | hq | hq
  · exact hop q (Or.inl hq)
  · exact hop q (Or.inr hq)
  · exact h.names q (Or.inr (Or.inr hq))

theorem fine_handling {B : Fin N → Prop} (h : c.Fine sys B p)
    (hin : ∀ q, i = some (.freeWaiting q) → B q ∧ sys.pun q = sys.pun p) :
    Context.Fine sys B p { c with inside := i } := by
  refine ⟨fun q hq => ?_, fun q hq => (hin q hq).2, h.accepted, h.idles⟩
  rcases hq with hq | hq | hq
  · exact h.names q (Or.inl hq)
  · exact h.names q (Or.inr (Or.inl hq))
  · exact (hin q hq).1

theorem not_readying (hrun : s.Runs sys p) : ¬s.Readying (sys.pun p) := by
  rintro ⟨h, hin, -⟩
  unfold Inside at hin
  rw [hrun.1, hrun.2] at hin
  cases hin

theorem readying_iff {h : Handler N} (hin : s.Inside π h) : s.Readying π ↔ h.readies := by
  constructor
  · rintro ⟨h', hin', hr⟩
    obtain rfl := Option.some.inj (hin.symm.trans hin')
    exact hr
  · exact fun hr => ⟨h, hin, hr⟩

theorem Populated.not_idler (h : Populated sys s)
    (hne : ¬((s.live p).code = .own ∧ (s.live p).op = .none)) : sys.idler (sys.pun p) ≠ p :=
  fun heq => hne ((h.live p).idles heq)

theorem Populated.born_current (h : Populated sys s) (hp : s.current (sys.pun p) = p) :
    s.Born p :=
  hp ▸ h.current (sys.pun p)

/-- A step in which only the current process gets a new context. -/
theorem Populated.steps (h : Populated sys s) (hp : s.current (act.site sys) = p)
    (hq : t.queues = s.queues) (hcur : t.current = s.current)
    (hlive : t.live = Function.update s.live p c)
    (hstack : t.stackptr = Function.update s.stackptr p d) (hc : c.code ≠ .unborn)
    (hd : d.code ≠ .unborn) (hfc : c.Fine sys s.Born p) (hfd : d.Fine sys s.Born p)
    (halt : ∀ x, t.alt_state x ≠ .none → s.Born x) (hpar : t.parent = s.parent)
    (hr : s.Readying (act.site sys) → t.Readying (act.site sys)) : Stepped sys act s t := by
  have hb : s.Born p := hp ▸ h.current _
  refine ⟨h.sets hq hcur hlive hstack hc hd hfc hfd (Or.inl hb)
      (fun x hx => Or.inl (halt x hx)) fun x q hx => h.parent x q (hpar ▸ hx), ?_,
    fun x hx => ?_, fun σ hσ => ?_⟩
  · refine ⟨s.current (act.site sys), ?_, ?_⟩
    · rw [hcur, Function.update_eq_self]
    · rw [hq]
      exact .stays fun hR => Or.inl (hr hR)
  · rcases (born_sets hlive hc x).mp hx with hx | rfl
    · exact Or.inl hx
    · exact Or.inl hb
  · have hne : s.current σ ≠ p := by
      intro heq
      have hpun := h.pun σ
      rw [heq, ← hp, h.pun] at hpun
      exact hσ hpun.symm
    rw [hcur, hlive, Function.update_of_ne hne]

/-- A step of a process to another point of its e. -/
theorem Populated.goes (h : Populated sys s) (hsite : act.site sys = sys.pun p)
    (hrun : s.Runs sys p) (hidle : sys.idler (sys.pun p) ≠ p) (hq : t.queues = s.queues)
    (hcur : t.current = s.current)
    (hlive : t.live = Function.update s.live p { s.live p with code := e, op := o })
    (hstack : t.stackptr = s.stackptr) (hcode : e ≠ .unborn)
    (hacc : ∀ kind nc left, e = .par kind nc left →
      kind.accepts (sys.pri p) nc ∧ left ≤ nc)
    (hop : ∀ q, o = .freeWaiting q ∨ o = .schedule q → s.Born q)
    (halt : ∀ x, t.alt_state x ≠ .none → s.Born x) (hpar : t.parent = s.parent) :
    Stepped sys act s t := by
  have hp : s.current (act.site sys) = p := hsite ▸ hrun.1
  have hb : s.Born p := h.born_current hrun.1
  refine h.steps hp hq hcur hlive (d := s.stackptr p) ?_ hcode ((h.saved p).mpr hb)
    (fine_goes (h.live p) hidle hacc hop) (h.stackptr p) halt hpar fun hR => ?_
  · rw [hstack, Function.update_eq_self]
  · rw [hsite] at hR
    exact absurd hR (not_readying hrun)

/-- A step of the handler that the processor is in. -/
theorem Populated.handles (h : Populated sys s) (hsite : act.site sys = π)
    (hq : t.queues = s.queues) (hcur : t.current = s.current)
    (hlive : t.live = Function.update s.live (s.current π)
      { s.live (s.current π) with inside := i })
    (hstack : t.stackptr = s.stackptr)
    (hin : ∀ q, i = some (.freeWaiting q) → s.Born q ∧ sys.pun q = π)
    (halt : ∀ x, t.alt_state x ≠ .none → s.Born x) (hpar : t.parent = s.parent)
    (hr : s.Readying π → ∃ h', i = some h' ∧ h'.readies) : Stepped sys act s t := by
  refine h.steps (by rw [hsite]) hq hcur hlive (d := s.stackptr (s.current π)) ?_
    (h.current π) ((h.saved _).mpr (h.current π)) (fine_handling (h.live _) fun q hx => ?_)
    (h.stackptr _) halt hpar fun hR => ?_
  · rw [hstack, Function.update_eq_self]
  · rw [h.pun]
    exact hin q hx
  · rw [hsite] at hR ⊢
    obtain ⟨h', hin', hr'⟩ := hr hR
    refine ⟨h', ?_, hr'⟩
    unfold Inside
    rw [hcur, hlive, Function.update_self, ← hin']

/-- A step that ends in a turn. -/
theorem Populated.hands (hu : Populated sys u) (hsite : act.site sys = π)
    (hq : u.queues = s.queues) (hc : u.current = s.current)
    (hframe : ∀ σ, σ ≠ π → (u.live (u.current σ)).inside = (s.live (s.current σ)).inside)
    (hborn : ∀ x, u.Born x → s.Born x ∨ ∃ parent, act = .build parent x)
    (hcur : t.current = Function.update s.current π new) (hm : Moved u t new)
    (hturn : Turn sys u.Born (s.Readying π) (t.Readying π) act.Yields π (s.current π)
      s.queues new t.queues) : Stepped sys act s t := by
  have hcur' : t.current = Function.update u.current π new := by rw [hcur, hc]
  have hturn' : Turn sys u.Born (s.Readying π) (t.Readying π) act.Yields π (u.current π)
      u.queues new t.queues := by
    rw [hq, hc]
    exact hturn
  refine ⟨hu.moves hm hcur' hturn', ?_, fun x hx => hborn x ((hm.born hu x).mp hx),
    fun σ hσ => ?_⟩
  · rw [hsite]
    exact ⟨new, hcur, hturn.mono fun x => (hm.born hu x).mpr⟩
  · rw [hsite] at hσ
    rw [hm.frame hu hcur' (hturn'.pun_current hu.chained (hu.pun π)) hσ, hframe σ hσ]

theorem Stepped.hands (h : Stepped sys act s u) (hsite : act.site sys = π)
    (hq : u.queues = s.queues) (hc : u.current = s.current)
    (hcur : t.current = Function.update s.current π new) (hm : Moved u t new)
    (hturn : Turn sys u.Born (s.Readying π) (t.Readying π) act.Yields π (s.current π)
      s.queues new t.queues) : Stepped sys act s t :=
  h.populated.hands hsite hq hc (fun σ hσ => h.frame σ (hsite ▸ hσ)) h.newborn hcur hm hturn

end Steps

end Sched

end Cxp
