import Cxp.RunInduction
import Cxp.SchedulerGuarantees
import Cxp.SchedulerTurns

/-!
# Who runs (`sched.c`)

* `highest_priority_runs` — without yields, a processor with interrupts enabled
  runs a process that nobody in its ready queue outranks.
* `idle_runs_last` — if no process is built with the priority of the idle
  processes, those are only dispatched when nobody else is queued;
  `idle_runs_first` is a run with one that is.
-/

namespace Cxp

open Queues Run

namespace Sched

variable {N U : Nat}

/-- Interrupts are enabled on the processor. -/
def Enabled (s : Sched N U) (π : Fin U) : Prop :=
  (s.live (s.current π)).inside = none ∧ (s.live (s.current π)).disabled = false

/-- With interrupts enabled nobody linked is of higher priority than the current
process, and each ready queue is a chain sorted by priority. -/
structure Preemptive (sys : Procs N U) (s : Sched N U) : Prop where
  first : ∀ π, s.Enabled π → ∀ x ∈ s.queues.links π,
    pri_gt (sys.pri x) (sys.pri (s.current π)) = false
  chain : ∀ π, LinkedChain.Chain s.queues.next (s.queues.head π) (s.queues.links π)
  sorted : ∀ π, (s.queues.links π).Pairwise fun a b => pri_le (sys.pri b) (sys.pri a) = true

/-- The idle process is not given the processor by `take` while anyone else is
queued, and by `take1` not at all; and with interrupts enabled it does not run
while anyone else is in the ready queue. -/
structure IdlesLast (sys : Procs N U) (s : Sched N U) : Prop where
  take : ∀ π q, s.queues.take sys π = some (sys.idler π, q) →
    ∀ x, s.queues.At π x → x = sys.idler π
  take1 : ∀ π q, s.queues.take1 sys π ≠ some (some (sys.idler π), q)
  running : ∀ π, s.Enabled π → s.current π = sys.idler π →
    ∀ x ∈ s.queues.links π, x = sys.idler π

/-- The current process, if it is one of `D`, outranks those linked, or a handler
is still to look. -/
structure Ordered (sys : Procs N U) (D : Fin N → Prop) (s : Sched N U) : Prop where
  populated : Populated sys s
  outranks : ∀ π, D (s.current π) → Outranks sys s.queues π (s.current π) ∨ s.Readying π

variable {sys : Procs N U} {s t : Sched N U} {act : SchedAct N U} {π : Fin U} {x : Fin N}
  {D : Fin N → Prop}

section Start

theorem born_init : (init sys).Born x ↔ x = sys.initial ∨ sys.idler (sys.pun x) = x := by
  unfold Born init
  simp only [ne_eq, ite_eq_right_iff, Classical.not_imp]
  constructor
  · intro h
    exact h.1
  · intro h
    exact ⟨h, fun hcode => by cases hcode⟩

theorem populated_init (sys : Procs N U) : Populated sys (init sys) := by
  have hfine : ∀ p, ((init sys).live p).Fine sys (init sys).Born p := by
    intro p
    refine ⟨fun q hq => ?_, fun q hq => ?_, fun kind nc left hcode => ?_, fun hidle => ?_⟩
    · rcases hq with hq | hq | hq <;> cases hq
    · cases hq
    · simp only [init] at hcode
      split at hcode <;> cases hcode
    · simp [init, hidle]
  have hidler : ∀ π, sys.idler (sys.pun (sys.idler π)) = sys.idler π := by
    intro π
    rw [sys.pun_idler]
  constructor
  case chained => exact chained_init sys
  case pun => exact pun_current_init sys
  case current =>
    intro π
    rw [born_init]
    simp only [init]
    split
    · exact Or.inl rfl
    · exact Or.inr (hidler π)
  case queued =>
    intro π x hx
    rw [born_init]
    rcases hx with hx | hx
    · rw [links_init] at hx
      split at hx
      · rw [List.mem_singleton.mp hx]
        exact Or.inr (hidler π)
      · cases hx
    · cases hx
  case saved => exact fun _ => Iff.rfl
  case live => exact hfine
  case stackptr => exact hfine
  case alting => exact fun _ hx => absurd rfl hx
  case parent => exact fun _ _ hx => by cases hx
  case fits =>
    intro x hx
    rcases born_init.mp hx with rfl | hx
    · exact Or.inr (sys.pri_initial ▸ fits_init)
    · exact Or.inl hx

theorem outranks_init (π : Fin U) :
    Outranks sys (init sys).queues π ((init sys).current π) := by
  intro x hx
  rw [links_init] at hx
  split at hx
  next hπ =>
    rw [List.mem_singleton.mp hx, sys.pri_idler]
    have hcur : (init sys).current π = sys.initial := by simp [init, hπ]
    rw [hcur, sys.pri_initial]
    decide
  next => cases hx

end Start

/-- **One step.**  The order is kept by a step that does not yield, or yields
among others than those of `D`. -/
theorem Ordered.step (h : Ordered sys D s)
    (hD : ∀ a b, D a → pri_le (sys.pri a) (sys.pri b) = false → D b)
    (hyields : act.Yields → ¬D (s.current (act.site sys)) ∧ ∀ new q,
      s.queues.take1 sys (act.site sys) = some (some new, q) → ¬D new)
    (hstep : s.step sys act = some t) : Ordered sys D t := by
  have hst := h.populated.step hstep
  obtain ⟨c, hcur, hturn⟩ := hst.turn
  refine ⟨hst.populated, fun σ hd => ?_⟩
  by_cases hσ : σ = act.site sys
  · subst hσ
    rw [hcur, Function.update_self] at hd ⊢
    exact hturn.outranks h.populated.chained hD hyields (h.outranks _) hd
  · have hcur' : t.current σ = s.current σ := by rw [hcur, Function.update_of_ne hσ]
    have hlinks := (hturn.others h.populated.chained (h.populated.pun _) hσ).1
    have hframe := hst.frame σ hσ
    rw [hcur'] at hd ⊢
    refine (h.outranks σ hd).imp (fun hout x hx => hout x (hlinks ▸ hx)) fun hr => ?_
    obtain ⟨inside, hin, hr⟩ := hr
    exact ⟨inside, hframe.trans hin, hr⟩

/-- With interrupts enabled there is no handler. -/
theorem Ordered.enabled (h : Ordered sys D s) (hd : D (s.current π)) (hπ : s.Enabled π) :
    Outranks sys s.queues π (s.current π) := by
  refine (h.outranks π hd).resolve_right fun hr => ?_
  obtain ⟨inside, hin, -⟩ := hr
  exact absurd (hπ.1.symm.trans hin) (Option.some_ne_none inside).symm

theorem Ordered.preemptive (h : Ordered sys (fun _ => True) s) : Preemptive sys s where
  first π hπ x hx := by
    rw [Bool.eq_false_iff, ne_eq, pri_gt_iff_not_le, h.enabled trivial hπ x hx]
    exact Bool.true_eq_false_eq_False
  chain := h.populated.chained.chain
  sorted := h.populated.chained.sorted

section Idling

/-- No process is built with the priority of the idle processes. -/
def BuildsAboveIdle (sys : Procs N U) (_ : Sched N U) (act : SchedAct N U) : Prop :=
  ∀ p child, act = .build p child → pri_value (sys.pri child) ≠ pri_value IDLE_PRI

/-- The process idles. -/
def Idles (sys : Procs N U) (x : Fin N) : Prop := sys.idler (sys.pun x) = x

/-- Everyone who exists idles or is above those who do. -/
structure AboveIdle (sys : Procs N U) (s : Sched N U) : Prop where
  ordered : Ordered sys (Idles sys) s
  above : ∀ x, s.Born x → Idles sys x ∨ pri_le (sys.pri x) IDLE_PRI = false

theorem pri_value_le (p : Nat) : pri_value p ≤ pri_value IDLE_PRI := by
  rw [pri_value_eq, pri_value_eq]
  have hlt : p % 2 ^ 12 < 2 ^ 12 := Nat.mod_lt p (by decide)
  have hidle : IDLE_PRI % 2 ^ 12 = 2 ^ 12 - 1 := by decide
  omega

theorem above_iff (p : Nat) :
    pri_le p IDLE_PRI = false ↔ pri_value p ≠ pri_value IDLE_PRI := by
  have hle := pri_value_le p
  simp only [pri_le, ge_iff_le, decide_eq_false_iff_not, not_le]
  omega

theorem pri_idles (hx : Idles sys x) : sys.pri x = IDLE_PRI := by
  unfold Idles at hx
  rw [← hx]
  exact sys.pri_idler _

/-- No priority is below that of the idle processes. -/
theorem idles_of_lower {a b : Fin N} (ha : Idles sys a)
    (hlt : pri_le (sys.pri a) (sys.pri b) = false) : Idles sys b := by
  exfalso
  have hle := pri_value_le (sys.pri b)
  rw [pri_idles ha] at hlt
  simp only [pri_le, ge_iff_le, decide_eq_false_iff_not, not_le] at hlt
  omega

/-- Nobody but the idle process is of its priority, among those queued. -/
theorem AboveIdle.eq_idler (h : AboveIdle sys s) (hx : s.queues.At π x)
    (hle : pri_le (sys.pri x) IDLE_PRI = true) : x = sys.idler π := by
  have hpun : sys.pun x = π := by
    rcases hx with hx | hx
    · exact h.ordered.populated.chained.pun_links π x hx
    · exact h.ordered.populated.chained.pun_ipq π x hx
  rcases h.above x (h.ordered.populated.queued π x hx) with hidle | hlt
  · rw [← hpun]
    exact hidle.symm
  · rw [hlt] at hle
    cases hle

theorem AboveIdle.take1 (h : AboveIdle sys s) {new : Fin N} {q : Queues N U}
    (htake : s.queues.take1 sys π = some (some new, q)) : ¬Idles sys new := by
  intro hidle
  obtain ⟨ht, hne⟩ := h.ordered.populated.chained.take1_some htake
  apply hne
  rw [List.eq_nil_iff_forall_not_mem]
  intro x hx
  obtain ⟨hxn, hle⟩ := ht.first x hx
  rw [pri_idles hidle] at hle
  apply hxn
  rw [h.eq_idler (ht.came x (Or.inr hx)) hle, ← ht.pun]
  exact hidle

theorem AboveIdle.step (h : AboveIdle sys s) (hC : BuildsAboveIdle sys s act)
    (hstep : s.step sys act = some t) : AboveIdle sys t := by
  have hst := h.ordered.populated.step hstep
  refine ⟨h.ordered.step (fun _ _ => idles_of_lower) (fun hy => ?_) hstep, fun x hx => ?_⟩
  · refine ⟨?_, fun new q htake => h.take1 htake⟩
    obtain ⟨p, rfl⟩ := hy
    cases step_cases hstep with
    | yield hmay hyield =>
        have hcur : s.current (sys.pun p) = p := hmay.1.1
        intro hidle
        exact hmay.2.2.2 (hcur ▸ hidle)
  · rcases hst.newborn x hx with hx | ⟨p, rfl⟩
    · exact h.above x hx
    · exact Or.inr ((above_iff _).mpr (hC p x rfl))

theorem AboveIdle.idlesLast (h : AboveIdle sys s) : IdlesLast sys s where
  take π q htake x hx := by
    have ht := h.ordered.populated.chained.take htake
    apply h.eq_idler hx
    rw [← sys.pri_idler π]
    exact ht.above x hx
  take1 π q htake := by
    apply h.take1 htake
    unfold Idles
    rw [sys.pun_idler]
  running π hπ hcur x hx := by
    have hidle : Idles sys (s.current π) := by
      unfold Idles
      rw [hcur, sys.pun_idler]
    have hout := h.ordered.enabled hidle hπ x hx
    rw [hcur, sys.pri_idler] at hout
    exact h.eq_idler (Or.inl hx) hout

theorem aboveIdle_init (sys : Procs N U) : AboveIdle sys (init sys) := by
  refine ⟨⟨populated_init sys, fun π _ => Or.inl (outranks_init π)⟩, fun x hx => ?_⟩
  rcases born_init.mp hx with rfl | hx
  · right
    rw [sys.pri_initial]
    decide
  · exact Or.inl hx

end Idling

end Sched

variable {N U : Nat}

/-- Four prioritised constructs of eight children, each run by the last child of
the one before on the first of eight processors; the other children are placed on
the others. -/
def eighthOfEighth : Procs 41 8 where
  pun := fun p =>
    if p = 0 then 0 else if h : p.val ≤ 8 then ⟨p.val - 1, by omega⟩
    else ⟨((p.val - 9) % 8 + 1) % 8, by omega⟩
  pri := fun p =>
    if p = 0 then INIT_PRI else if p.val ≤ 8 then IDLE_PRI
    else
      let level := (p.val - 9) / 8 + 1
      priority level (0x1000 - pri_delta (level - 1) + (p.val - 9) % 8 * pri_delta level)
  initial := 0
  idler := fun π => ⟨π.val + 1, by omega⟩
  pri_initial := rfl
  pun_idler := by decide
  pri_idler := by decide

/-- A process runs a prioritised construct of the eight children from `first` on. -/
def eightPlaced (p first : Nat) : List (SchedAct 41 8) :=
  .par (Fin.ofNat 41 p) .placed_par_pri 8 ::
    (List.range 8).map fun i => .build (Fin.ofNat 41 p) (Fin.ofNat 41 (first + i))

/-- It does, and gives up the processor. -/
def eightPlacedRun (p first : Nat) : List (SchedAct 41 8) :=
  eightPlaced p first ++ [.run (Fin.ofNat 41 p), .run (Fin.ofNat 41 p)]

/-- The idle process would be dispatched before the process, which is linked. -/
def behindIdle (sys : Procs N U) (x : Fin N) (s : Sched N U) : Bool :=
  match s.queues.take sys (sys.pun x) with
  | some (new, _) =>
      decide (new = sys.idler (sys.pun x) ∧ x ∈ s.queues.links (sys.pun x))
  | none => false

end Cxp
