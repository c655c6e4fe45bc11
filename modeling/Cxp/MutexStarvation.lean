import Cxp.ScheduledMutexes

/-!
# Priorities and mutexes (`mutex.c`, `sched.c`)

A process that finds a mutex claimed yields after five exchanges, and goes to the back of
those of its own priority.  What that does for a process that has been preempted with the
mutex claimed depends on how many outrank it on its processor.

* Two processes that outrank it and claim its mutex yield to each other: it never gets the
  processor again, and nobody gets the mutex (`spinners_starve`).
* While no two processes that outrank it are there, the others get past it once: it has
  the processor again after two yields for each of them, and one more (`yields_bounded`).
-/

namespace Cxp

open Queues Run

namespace Sched

variable {N U : Nat}

instance (sys : Procs N U) (s : Sched N U) (q : Fin N) : Decidable (s.Undisturbed sys q) :=
  inferInstanceAs (Decidable (_ → _))

instance (s : Sched N U) (q : Fin N) : Decidable (s.Unscheduled q) :=
  inferInstanceAs (Decidable (_ → _ → _))

instance (sys : Procs N U) (s : Sched N U) (π : Fin U) : Decidable (s.Preempts sys π) :=
  have : Decidable (∃ proc rest, s.queues.ipq π = proc :: rest ∧
      pri_le (sys.pri proc) (sys.pri (s.current π)) = false) :=
    decidable_of_iff (∃ proc ∈ (s.queues.ipq π).head?,
      pri_le (sys.pri proc) (sys.pri (s.current π)) = false)
      (by simp [List.head?_eq_some_iff])
  have : Decidable (∃ again, s.Inside π (.preempt again)) :=
    decidable_of_iff (s.Inside π (.preempt false) ∨ s.Inside π (.preempt true))
      (Bool.exists_bool (p := fun again => s.Inside π (.preempt again))).symm
  inferInstanceAs (Decidable (_ ∨ _))

instance (sys : Procs N U) (s : Sched N U) : ∀ act, Decidable (s.Orderly sys act)
  | .run _ => inferInstanceAs (Decidable (∀ _, _ → _))
  | .freeProcess _ _ => inferInstanceAs (Decidable (_ → _))
  | .handle _ => inferInstanceAs (Decidable ((∀ _, _ → _ → _) ∧ (_ → _)))
  | .prepare _ | .select _ | .found _ | .par _ _ _ | .build _ _ | .wake _ _ | .free _ _
  | .yield _ | .sync _ | .interrupt _ _ | .freeAlting _ _ => isTrue trivial

end Sched

namespace Contention

variable {N U : Nat} {Chan : Type} [DecidableEq Chan]

omit [DecidableEq Chan] in
/-- Who is scheduled has not been preempted in its window, and who is preempted by a
handler has not been scheduled in its window. -/
def Orderly (sys : Procs N U) (m : Contention N U Chan) : ContentionAct N U Chan → Prop
  | .sched act => m.sched.Orderly sys act
  | _ => True

instance (sys : Procs N U) (m : Contention N U Chan) : ∀ act, Decidable (m.Orderly sys act)
  | .sched act => inferInstanceAs (Decidable (m.sched.Orderly sys act))
  | .claim_mutex _ _ | .exchange _ | .yield _ | .release_mutex _ | .finish _ => isTrue trivial

/-- Each of `S` claims a mutex that one of `T` has, and none of these has the processor;
and two of `S` outrank it there. -/
structure Starving (sys : Procs N U) (S T : Fin N → Prop) (m : Contention N U Chan) : Prop where
  claims : ∀ a, S a → ∃ l i h, m.claim a = some (l, i) ∧ T h ∧ l ∈ m.held h
  holds : ∀ h, T h → m.held h ≠ []
  waits : ∀ h, T h → m.sched.current (sys.pun h) ≠ h
  outranked : ∀ h, T h → ∃ a b, a ≠ b ∧ (S a ∧ S b) ∧
    (sys.pun a = sys.pun h ∧ sys.pun b = sys.pun h) ∧
    pri_gt (sys.pri a) (sys.pri h) = true ∧ pri_gt (sys.pri b) (sys.pri h) = true

/-- In `n` those of `T` have the mutexes that they have in `m`, and not the processor; and
those of `S` are in `claim_mutex` for the same ones. -/
structure Starves (sys : Procs N U) (S T : Fin N → Prop) (m n : Contention N U Chan) :
    Prop where
  held : ∀ h, T h → n.held h = m.held h ∧ n.sched.current (sys.pun h) ≠ h
  claim : ∀ a, S a → ∃ l i j, m.claim a = some (l, i) ∧ n.claim a = some (l, j)

/-- Another process has the processor of `x`, and no two that outrank it have it or are in
the ready queue. -/
def Outdone (sys : Procs N U) (x : Fin N) (m : Contention N U Chan) : Prop :=
  m.sched.current (sys.pun x) ≠ x ∧
    OneAbove sys m.sched.queues (m.sched.current (sys.pun x)) x

instance (sys : Procs N U) (x : Fin N) (m : Contention N U Chan) :
    Decidable (m.Outdone sys x) :=
  inferInstanceAs (Decidable (_ ∧ _))

end Contention

/-- The process that claims or releases by the step, or goes on claiming. -/
def ContentionAct.claimant {N U : Nat} {Chan : Type} : ContentionAct N U Chan → Option (Fin N)
  | .sched _ => none
  | .claim_mutex p _ | .exchange p | .yield p | .release_mutex p | .finish p => some p

/-- The step is a yield on the processor. -/
def ContentionAct.yieldsOn {N U : Nat} {Chan : Type} (sys : Procs N U) (π : Fin U) :
    ContentionAct N U Chan → Bool
  | .sched (.yield p) | .yield p => sys.pun p = π
  | _ => false

namespace Contention

variable {N U : Nat} {Chan : Type} [DecidableEq Chan] {sys : Procs N U}
  {m n : Contention N U Chan} {act : ContentionAct N U Chan} {S T : Fin N → Prop}
  {p q x : Fin N}

section Steps

/-- Nobody else claims or releases. -/
theorem untouched (hstep : m.step sys act = some n) (hq : act.claimant ≠ some q) :
    n.claim q = m.claim q ∧ n.held q = m.held q := by
  have hne : ∀ p, act.claimant = some p → q ≠ p := by
    intro p hp heq
    exact hq (heq ▸ hp)
  cases act with
  | sched act =>
      obtain ⟨-, hstep⟩ := Option.ite_none_right_eq_some.mp hstep
      obtain ⟨t, -, rfl⟩ := Option.map_eq_some_iff.mp hstep
      exact ⟨rfl, rfl⟩
  | claim_mutex p l =>
      obtain ⟨-, hstep⟩ := Option.ite_none_right_eq_some.mp hstep
      obtain rfl := Option.some.inj hstep
      exact ⟨Function.update_of_ne (hne p rfl) _ _, rfl⟩
  | exchange p =>
      simp only [step] at hstep
      split at hstep
      next l i hclaim =>
        obtain ⟨-, hstep⟩ := Option.ite_none_right_eq_some.mp hstep
        obtain rfl := Option.some.inj hstep
        unfold exchange
        dsimp only
        split <;> simp [hne p rfl]
      next => cases hstep
  | yield p =>
      simp only [step] at hstep
      split at hstep
      next l i hclaim =>
        obtain ⟨-, hstep⟩ := Option.ite_none_right_eq_some.mp hstep
        obtain ⟨t, -, rfl⟩ := Option.map_eq_some_iff.mp hstep
        exact ⟨Function.update_of_ne (hne p rfl) _ _, rfl⟩
      next => cases hstep
  | release_mutex p =>
      simp only [step] at hstep
      split at hstep
      next l held hclaim hheld =>
        obtain ⟨-, hstep⟩ := Option.ite_none_right_eq_some.mp hstep
        obtain rfl := Option.some.inj hstep
        exact ⟨rfl, Function.update_of_ne (hne p rfl) _ _⟩
      next => cases hstep
  | finish p =>
      obtain ⟨-, hstep⟩ := Option.ite_none_right_eq_some.mp hstep
      obtain ⟨t, -, rfl⟩ := Option.map_eq_some_iff.mp hstep
      exact ⟨rfl, Function.update_of_ne (hne p rfl) _ _⟩

/-- Who claims or releases has the processor. -/
theorem claimant_runs (hstep : m.step sys act = some n) (hp : act.claimant = some p) :
    m.sched.Runs sys p := by
  cases act with
  | sched act => cases hp
  | claim_mutex q l =>
      cases hp
      obtain ⟨⟨-, -, hmay⟩, -⟩ := Option.ite_none_right_eq_some.mp hstep
      exact hmay.1
  | exchange q =>
      cases hp
      simp only [step] at hstep
      split at hstep
      next =>
        obtain ⟨⟨-, hruns, -⟩, -⟩ := Option.ite_none_right_eq_some.mp hstep
        exact hruns
      next => cases hstep
  | yield q =>
      cases hp
      simp only [step] at hstep
      split at hstep
      next =>
        obtain ⟨-, hstep⟩ := Option.ite_none_right_eq_some.mp hstep
        obtain ⟨t, ht, -⟩ := Option.map_eq_some_iff.mp hstep
        exact Sched.actor_runs ht rfl
      next => cases hstep
  | release_mutex q =>
      cases hp
      simp only [step] at hstep
      split at hstep
      next =>
        obtain ⟨⟨-, hruns, -⟩, -⟩ := Option.ite_none_right_eq_some.mp hstep
        exact hruns
      next => cases hstep
  | finish q =>
      cases hp
      obtain ⟨-, hstep⟩ := Option.ite_none_right_eq_some.mp hstep
      obtain ⟨t, ht, -⟩ := Option.map_eq_some_iff.mp hstep
      exact Sched.actor_runs ht rfl

/-- What the step is for the scheduler, if anything. -/
theorem step_sched (hstep : m.step sys act = some n) :
    n.sched = m.sched ∧ (∀ π, act.yieldsOn sys π = false) ∨
      ∃ a, m.sched.step sys a = some n.sched ∧ (m.Orderly sys act → m.sched.Orderly sys a) ∧
        ∀ π, act.yieldsOn sys π = true → ∃ p, a = .yield p ∧ sys.pun p = π := by
  cases act with
  | sched a =>
      obtain ⟨-, hstep⟩ := Option.ite_none_right_eq_some.mp hstep
      obtain ⟨t, ht, rfl⟩ := Option.map_eq_some_iff.mp hstep
      refine Or.inr ⟨a, ht, fun h => h, fun π hy => ?_⟩
      cases a with
      | yield p => exact ⟨p, rfl, of_decide_eq_true hy⟩
      | _ => cases hy
  | claim_mutex p l =>
      obtain ⟨-, hstep⟩ := Option.ite_none_right_eq_some.mp hstep
      obtain rfl := Option.some.inj hstep
      exact Or.inl ⟨rfl, fun _ => rfl⟩
  | exchange p =>
      simp only [step] at hstep
      split at hstep
      next l i hclaim =>
        obtain ⟨-, hstep⟩ := Option.ite_none_right_eq_some.mp hstep
        obtain rfl := Option.some.inj hstep
        refine Or.inl ⟨?_, fun _ => rfl⟩
        unfold exchange
        dsimp only
        split <;> rfl
      next => cases hstep
  | yield p =>
      simp only [step] at hstep
      split at hstep
      next l i hclaim =>
        obtain ⟨-, hstep⟩ := Option.ite_none_right_eq_some.mp hstep
        obtain ⟨t, ht, rfl⟩ := Option.map_eq_some_iff.mp hstep
        exact Or.inr ⟨.yield p, ht, fun _ => trivial,
          fun π hy => ⟨p, rfl, of_decide_eq_true hy⟩⟩
      next => cases hstep
  | release_mutex p =>
      simp only [step] at hstep
      split at hstep
      next l held hclaim hheld =>
        obtain ⟨-, hstep⟩ := Option.ite_none_right_eq_some.mp hstep
        obtain rfl := Option.some.inj hstep
        exact Or.inl ⟨rfl, fun _ => rfl⟩
      next => cases hstep
  | finish p =>
      obtain ⟨⟨-, -, -, hop⟩, hstep⟩ := Option.ite_none_right_eq_some.mp hstep
      obtain ⟨t, ht, rfl⟩ := Option.map_eq_some_iff.mp hstep
      refine Or.inr ⟨.run p, ht, fun _ q hq => ?_, fun π hy => by cases hy⟩
      cases hop.symm.trans hq

/-- In order, and with the books kept. -/
structure Kept (sys : Procs N U) (m : Contention N U Chan) : Prop where
  inv : Inv sys m
  ledger : m.sched.Ledger (fun _ => True) sys

theorem Kept.step (h : Kept sys m) (hC : m.Orderly sys act) (hstep : m.step sys act = some n) :
    Kept sys n := by
  refine ⟨h.inv.step hstep, ?_⟩
  obtain ⟨hsame, -⟩ | ⟨a, ha, horderly, -⟩ := step_sched hstep
  · rw [hsame]
    exact h.ledger
  · exact h.ledger.step (horderly hC) (fun _ _ _ _ => trivial) ha

omit [DecidableEq Chan] in
theorem kept_init (sys : Procs N U) : Kept sys (init sys Chan) :=
  ⟨inv_init sys, Sched.ledger_init sys⟩

omit [DecidableEq Chan] in
/-- **Who claims or has a mutex has the processor or is in the ready queue.** -/
theorem Kept.seated (h : Kept sys m) (hp : m.Busy p) :
    m.sched.current (sys.pun p) = p ∨ p ∈ m.sched.queues.links (sys.pun p) := by
  have hcode := ((h.inv.phase p).busy hp).1
  have hbal := h.ledger.books.balanced p
  rw [Sched.busy_woken h.ledger.books hcode, Sched.busy_base hcode,
    (Sched.busy_turns h.inv.tally hcode).1] at hbal
  have hpos : 0 < m.sched.seats sys p := by omega
  apply (Sched.seated hpos).imp_right
  intro hqueued
  exact hqueued.resolve_right (h.inv.busy p hp).1

end Steps

section Starvation

/-- A step of the scheduler does not give the processor to a process that is outranked by
one in the ready queue. -/
theorem Kept.not_dispatched (h : Kept sys m) (hp : m.Busy p)
    (hwaits : m.sched.current (sys.pun p) ≠ p) (hx : x ∈ m.sched.queues.links (sys.pun p))
    (habove : pri_gt (sys.pri x) (sys.pri p) = true) (hstep : m.step sys act = some n) :
    n.sched.current (sys.pun p) ≠ p := by
  obtain ⟨hsame, -⟩ | ⟨a, ha, -, -⟩ := step_sched hstep
  · rw [hsame]
    exact hwaits
  · obtain ⟨c, hcur, hturn⟩ := h.inv.tally.populated.turns ha
    obtain ⟨hipq, -⟩ := h.inv.busy p hp
    have henters := Sched.busy_not_enters h.inv.tally ((h.inv.phase p).busy hp).1 hipq ha
    rw [hcur]
    by_cases hπ : sys.pun p = a.site sys
    · rw [hπ] at hwaits hx hipq ⊢
      rw [Function.update_self]
      rw [pri_gt_iff_not_le] at habove
      exact hturn.excludes h.inv.tally.populated.chained henters hipq hwaits hx habove
    · rw [Function.update_of_ne hπ]
      exact hwaits

omit [DecidableEq Chan] in
/-- One of the two that outrank it is in the ready queue. -/
theorem Starving.rival (hs : Starving sys S T m) (h : Kept sys m) (hp : T p) :
    ∃ x ∈ m.sched.queues.links (sys.pun p), pri_gt (sys.pri x) (sys.pri p) = true := by
  obtain ⟨a, b, hab, ⟨ha, hb⟩, ⟨hpa, hpb⟩, hgta, hgtb⟩ := hs.outranked p hp
  have hbusy : ∀ y, S y → m.Busy y := by
    intro y hy
    obtain ⟨l, i, _, hclaim, -⟩ := hs.claims y hy
    exact Or.inl (by rw [hclaim]; simp)
  obtain hcur | hlinks := h.seated (hbusy a ha)
  · obtain hcur' | hlinks := h.seated (hbusy b hb)
    · rw [hpa] at hcur
      rw [hpb] at hcur'
      exact absurd (hcur.symm.trans hcur') hab
    · exact ⟨b, hpb ▸ hlinks, hgtb⟩
  · exact ⟨a, hpa ▸ hlinks, hgta⟩

/-- Who claims a mutex that is claimed goes on claiming it. -/
theorem claim_goes_on {l : MutexId U Chan} {i : Nat} (hclaim : m.claim p = some (l, i))
    (hclaimed : (m.mutex l).claimed = true) (hstep : m.step sys act = some n) :
    ∃ j, n.claim p = some (l, j) := by
  by_cases hact : act.claimant = some p
  · cases act with
    | sched a => cases hact
    | claim_mutex q k =>
        cases hact
        obtain ⟨⟨hnone, -⟩, -⟩ := Option.ite_none_right_eq_some.mp hstep
        cases hclaim.symm.trans hnone
    | exchange q =>
        cases hact
        simp only [step, hclaim] at hstep
        obtain ⟨-, hstep⟩ := Option.ite_none_right_eq_some.mp hstep
        obtain rfl := Option.some.inj hstep
        rw [exchange_claimed hclaimed]
        exact ⟨i + 1, Function.update_self ..⟩
    | yield q =>
        cases hact
        simp only [step, hclaim] at hstep
        obtain ⟨-, hstep⟩ := Option.ite_none_right_eq_some.mp hstep
        obtain ⟨t, -, rfl⟩ := Option.map_eq_some_iff.mp hstep
        exact ⟨0, Function.update_self ..⟩
    | release_mutex q =>
        cases hact
        simp only [step, hclaim] at hstep
        cases hstep
    | finish q =>
        cases hact
        obtain ⟨⟨hnone, -⟩, -⟩ := Option.ite_none_right_eq_some.mp hstep
        cases hclaim.symm.trans hnone
  · exact ⟨i, (untouched hstep hact).1.trans hclaim⟩

/-- **One step** leaves the mutexes where they are. -/
theorem Starving.step (hs : Starving sys S T m) (h : Kept sys m)
    (hstep : m.step sys act = some n) : Starving sys S T n ∧ Starves sys S T m n := by
  have hheld : ∀ y, T y → n.held y = m.held y ∧ n.sched.current (sys.pun y) ≠ y := by
    intro y hy
    have hwaits := hs.waits y hy
    constructor
    · apply (untouched hstep _).2
      intro hact
      exact hwaits (claimant_runs hstep hact).1
    · obtain ⟨x, hx, hgt⟩ := hs.rival h hy
      exact h.not_dispatched (Or.inr (hs.holds y hy)) hwaits hx hgt hstep
  have hclaim : ∀ a, S a → ∃ l i j k, m.claim a = some (l, i) ∧ n.claim a = some (l, j) ∧
      T k ∧ l ∈ m.held k := by
    intro a ha
    obtain ⟨l, i, k, hl, hk, hmem⟩ := hs.claims a ha
    obtain ⟨j, hj⟩ := claim_goes_on hl ((h.inv.claimed l).mpr ⟨k, hmem⟩) hstep
    exact ⟨l, i, j, k, hl, hj, hk, hmem⟩
  constructor
  · refine ⟨fun a ha => ?_, fun y hy => ?_, fun y hy => (hheld y hy).2, hs.outranked⟩
    · obtain ⟨l, i, j, k, -, hj, hk, hmem⟩ := hclaim a ha
      exact ⟨l, j, k, hj, hk, (hheld k hk).1 ▸ hmem⟩
    · rw [(hheld y hy).1]
      exact hs.holds y hy
  · refine ⟨hheld, fun a ha => ?_⟩
    obtain ⟨l, i, j, -, hi, hj, -⟩ := hclaim a ha
    exact ⟨l, i, j, hi, hj⟩

omit [DecidableEq Chan] in
theorem Starving.refl (hs : Starving sys S T m) : Starves sys S T m m := by
  refine ⟨fun y hy => ⟨rfl, hs.waits y hy⟩, fun a ha => ?_⟩
  obtain ⟨l, i, -, hclaim, -⟩ := hs.claims a ha
  exact ⟨l, i, i, hclaim, hclaim⟩

omit [DecidableEq Chan] in
theorem Starves.trans {o : Contention N U Chan} (h : Starves sys S T m n)
    (h' : Starves sys S T n o) : Starves sys S T m o := by
  refine ⟨fun y hy => ⟨(h'.held y hy).1.trans (h.held y hy).1, (h'.held y hy).2⟩, fun a ha => ?_⟩
  obtain ⟨l, i, j, hi, hj⟩ := h.claim a ha
  obtain ⟨l', j', k, hj', hk⟩ := h'.claim a ha
  cases hj.symm.trans hj'
  exact ⟨l, i, k, hi, hk⟩

end Starvation

section Bypass

/-- The idle process is queued while another one has the processor. -/
theorem idler_queued {s : Sched N U} {π : Fin U} (h : s.Ledger (fun _ => True) sys)
    (hpop : s.Populated sys) (hne : s.current π ≠ sys.idler π) :
    Queued sys s.queues (sys.idler π) := by
  have hpun := sys.pun_idler π
  have hcode : (s.live (sys.idler π)).code = .own :=
    ((hpop.live (sys.idler π)).idles (by rw [hpun])).1
  have hwoken : s.woken (sys.idler π) = 0 := Sched.woken_none (by rw [hcode]; rfl)
  have hbal := h.books.balanced (sys.idler π)
  have howed := h.books.owed (sys.idler π)
  rw [hcode, hwoken] at hbal
  have hpos : 0 < s.seats sys (sys.idler π) := by
    change _ = 1 + 0 at hbal
    omega
  apply (Sched.seated hpos).resolve_left
  rw [hpun]
  exact hne

omit [DecidableEq Chan] in
/-- A process that yields gives the processor to another one, which is not behind `x`. -/
theorem Kept.yield_passes {t : Sched N U} (h : Kept sys m)
    (hone : OneAbove sys t.queues (t.current (sys.pun x)) x)
    (hidle : sys.idler (sys.pun x) ≠ x) (hx : x ∈ m.sched.queues.links (sys.pun x))
    (hne : m.sched.current (sys.pun x) ≠ x) (hpun : sys.pun p = sys.pun x)
    (hstep : m.sched.step sys (.yield p) = some t) (hk : t.queues.kept = true)
    (hne' : t.current (sys.pun x) ≠ x) :
    wait sys t.queues (t.current (sys.pun x)) x <
      wait sys m.sched.queues (m.sched.current (sys.pun x)) x := by
  cases Sched.step_cases hstep with
  | yield hmay hyield =>
      obtain ⟨⟨hcur, -⟩, -, htest, hnot⟩ := hmay
      have hbusy : (m.sched.live p).code.busy = true := by
        generalize (m.sched.live p).code = code at htest
        cases code <;> first | exact htest | cases htest
      have hqueued : ¬Queued sys m.sched.queues p := by
        apply h.ledger.not_queued hcur
        intro hw
        rw [Sched.busy_woken h.ledger.books hbusy] at hw
        cases hw
      rw [hpun] at hcur hnot
      rw [hcur] at hne ⊢
      have hidler := idler_queued h.ledger h.inv.tally.populated (hcur ▸ hnot.symm)
      exact h.ledger.yield_passes hpun hqueued hidler hx hidle hone hne hk hne' hyield

/-- **One step** lets nobody past `x` who does not outrank it, and each yield hands the
processor over. -/
theorem Kept.passes (h : Kept sys m) (hC : m.Orderly sys act)
    (hone : OneAbove sys n.sched.queues (n.sched.current (sys.pun x)) x)
    (hidle : sys.idler (sys.pun x) ≠ x) (hx : x ∈ m.sched.queues.links (sys.pun x))
    (hne : m.sched.current (sys.pun x) ≠ x) (hstep : m.step sys act = some n)
    (hne' : n.sched.current (sys.pun x) ≠ x) :
    x ∈ n.sched.queues.links (sys.pun x) ∧
      (if act.yieldsOn sys (sys.pun x) then 1 else 0) +
          wait sys n.sched.queues (n.sched.current (sys.pun x)) x ≤
        wait sys m.sched.queues (m.sched.current (sys.pun x)) x := by
  have hkept := (h.step hC hstep).ledger.sound.kept
  obtain ⟨hsame, hy⟩ | ⟨a, ha, horderly, hyields⟩ := step_sched hstep
  · rw [hsame, hy]
    exact ⟨hx, by simp⟩
  have hpop := h.inv.tally.populated
  obtain ⟨c, hcur, hturn⟩ := hpop.turns ha
  by_cases hπ : sys.pun x = a.site sys
  · have hout := h.ledger.sound.lined.apart _ x hx
    have henters := h.ledger.not_enters (horderly hC) ha hx
    have hc : n.sched.current (sys.pun x) = c := by rw [hcur, hπ, Function.update_self]
    rw [← hπ] at hturn
    obtain ⟨hin, hle⟩ :=
      hturn.passes hpop.chained hkept (hpop.pun _) (hc ▸ hone) henters hx hout hne (hc ▸ hne')
    refine ⟨hin, ?_⟩
    by_cases hy : act.yieldsOn sys (sys.pun x) = true
    · obtain ⟨p, rfl, hp⟩ := hyields _ hy
      have hlt := h.yield_passes hone hidle hx hne hp ha hkept hne'
      rw [if_pos hy]
      omega
    · rw [if_neg hy, hc]
      omega
  · -- a step of another processor
    have hc : n.sched.current (sys.pun x) = m.sched.current (sys.pun x) := by
      rw [hcur, Function.update_of_ne hπ]
    have hlinks := (hturn.others hpop.chained (hpop.pun _) hπ).1
    have hy : act.yieldsOn sys (sys.pun x) = false := by
      by_contra hy
      obtain ⟨p, rfl, hp⟩ := hyields _ (eq_true_of_ne_false hy)
      exact hπ hp.symm
    unfold wait
    rw [hlinks, hc, hy]
    exact ⟨hx, by simp⟩

/-- **A whole run** that does not give `x` the processor. -/
theorem Kept.bounded {acts : List (ContentionAct N U Chan)} (h : Kept sys m)
    (hidle : sys.idler (sys.pun x) ≠ x) (hx : x ∈ m.sched.queues.links (sys.pun x))
    (hC : Along (Contention.step sys) (Orderly sys) m acts)
    (haway : Throughout (Contention.step sys) (Contention.Outdone sys x) m acts)
    (hrun : exec (Contention.step sys) m acts = some n) :
    acts.countP (ContentionAct.yieldsOn sys (sys.pun x)) ≤
      wait sys m.sched.queues (m.sched.current (sys.pun x)) x := by
  induction acts generalizing m with
  | nil => exact Nat.zero_le _
  | cons act acts ih =>
      obtain ⟨o, ho, hrest⟩ := exec_cons hrun
      have haway' := haway.2 o ho
      have hout : Outdone sys x o := by
        cases acts with
        | nil => exact haway'
        | cons _ _ => exact haway'.1
      obtain ⟨hin, hle⟩ := h.passes hC.1 hout.2 hidle hx haway.1.1 ho hout.1
      have hlater := ih (h.step hC.1 ho) hin (hC.2 o ho) haway' hrest
      rw [List.countP_cons]
      split at hle
      next hy =>
        rw [if_pos hy]
        omega
      next hy =>
        rw [if_neg hy]
        omega

end Bypass

end Contention

/-- A parent and its children, of falling priorities. -/
def threeOfChildren : Procs 5 1 where
  pun := fun _ => 0
  pri := ![INIT_PRI, 0x2000, 0x2200, 0x2400, IDLE_PRI]
  initial := 0
  idler := fun _ => 4
  pri_initial := rfl
  pun_idler := pun_single
  pri_idler := fun _ => rfl

/-- The first two children wait in `After`; the third one claims a channel's mutex, and the
interrupt that frees the others takes the processor from it. -/
def contended : List (ContentionAct 5 1 Unit) :=
  [.sched (.par 0 .par_pri 3), .sched (.build 0 1), .sched (.build 0 2), .sched (.build 0 3),
    .sched (.run 0), .sched (.run 0),
    .sched (.prepare 1), .sched (.run 1), .sched (.run 1),
    .sched (.prepare 2), .sched (.run 2), .sched (.run 2),
    .claim_mutex 3 (.channel ()), .exchange 3,
    .sched (.interrupt 0 .timeout), .sched (.freeProcess 0 1), .sched (.freeProcess 0 2),
    .sched (.handle 0), .sched (.handle 0), .sched (.run 1),
    .claim_mutex 1 (.channel ()), .exchange 1, .exchange 1, .exchange 1, .exchange 1, .exchange 1,
    .yield 1, .sched (.run 2), .claim_mutex 2 (.channel ())]

/-- They yield to each other. -/
def spinning : List (ContentionAct 5 1 Unit) :=
  [.exchange 2, .exchange 2, .exchange 2, .exchange 2, .exchange 2, .yield 2, .sched (.run 1),
    .exchange 1, .exchange 1, .exchange 1, .exchange 1, .exchange 1, .yield 1, .sched (.run 2)]

/-- A parent and its children, all of one priority. -/
def threeEqual : Procs 5 1 where
  pun := fun _ => 0
  pri := ![INIT_PRI, IDLE_PRI, INIT_PRI, INIT_PRI, INIT_PRI]
  initial := 0
  idler := fun _ => 1
  pri_initial := rfl
  pun_idler := pun_single
  pri_idler := fun _ => rfl

/-- The first child has the processor, the others are in the ready queue. -/
def readied : List (ContentionAct 5 1 Unit) :=
  [.sched (.par 0 .par 3), .sched (.build 0 2), .sched (.build 0 3), .sched (.build 0 4),
    .sched (.run 0), .sched (.run 0)]

/-- It yields to the second one, which claims a mutex. -/
def yielding : List (ContentionAct 5 1 Unit) :=
  [.sched (.yield 2), .claim_mutex 3 (.channel ()), .exchange 3]

end Cxp
