import Cxp.ContextSwitch
import Cxp.PriorityGuarantees
import Cxp.ProcessorSwitch

/-!
# Signal masks (`hardware.c`)

A processor is a thread, and an interrupt of it a signal that only its own mask
lets through.  `disable` blocks all signals, `enable` installs `sigmask[π]` of
the processor that executes it, `getcontext` records the mask of the thread in
a context, and `setcontext` and `swapcontext` install the one recorded.

What the masks do is laid over the scheduler: each step does to them what its
code does.  `Right` says that the mask of a thread, and that in a saved context,
is the one that belongs to the place in the code.  Every step keeps it but one:
`build_context` records the mask of the processor that builds the child, so a
child placed on another processor begins with the mask of its parent's.
-/

namespace Cxp

open Queues Run

/-- A signal: an interrupt of a processor, or one that is none. -/
inductive Signal (U : Nat)
  | interrupt (π : Fin U) (i : Interrupt)
  | other

/-- A signal mask, by the signals that it blocks. -/
abbrev SignalMask (U : Nat) := Signal U → Bool

/-- All signals are blocked. -/
def sigfillset {U : Nat} : SignalMask U := fun _ => true

/-- The element of `sigmask` of processor `π`: of the interrupts, its own are
not blocked. -/
def sigmask {U : Nat} (π : Fin U) : SignalMask U
  | .interrupt ρ _ => ρ ≠ π
  | .other => false

/-- The scheduler with the signal mask of each thread, and those in the context
of each process that its record holds, and in the one that the system holds
while a handler interrupts it. -/
structure Masks (N U : Nat) where
  sched : Sched N U
  mask : Fin U → SignalMask U
  saved : Fin N → SignalMask U
  frame : Fin N → SignalMask U

/-- What happens next. -/
inductive MaskAct (N U : Nat)
  /-- a step of the scheduler that is no interrupt -/
  | sched (act : SchedAct N U)
  /-- the thread of `π` takes the signal of interrupt `i` of `ρ` -/
  | signal (π ρ : Fin U) (i : Interrupt)
  /-- the current process comes to the end of a section with interrupts
  disabled, or is the idle process at its beginning -/
  | enable (π : Fin U)

namespace Masks

variable {N U : Nat}

section Primitives

def disable (m : Masks N U) (π : Fin U) : Masks N U :=
  { m with mask := Function.update m.mask π sigfillset }

def enable (m : Masks N U) (π : Fin U) : Masks N U :=
  { m with mask := Function.update m.mask π (sigmask π) }

/-- The context of `p` is recorded on processor `π`. -/
def getcontext (m : Masks N U) (π : Fin U) (p : Fin N) : Masks N U :=
  { m with saved := Function.update m.saved p (m.mask π) }

def setcontext (m : Masks N U) (π : Fin U) (p : Fin N) : Masks N U :=
  { m with mask := Function.update m.mask π (m.saved p) }

def swapcontext (m : Masks N U) (π : Fin U) (old new : Fin N) : Masks N U :=
  (m.getcontext π old).setcontext π new

end Primitives

/-- `schedule0(proc)` preempts the current process of its processor. -/
def overrides (sys : Procs N U) (s : Sched N U) (π : Fin U) (proc : Fin N) : Bool :=
  sys.pun proc = π && !pri_le (sys.pri proc) (sys.pri (s.current π))

/-- The masks in `schedule0`. -/
def schedule0 (sys : Procs N U) (s : Sched N U) (m : Masks N U) (π : Fin U) (proc : Fin N) :
    Masks N U :=
  if overrides sys s π proc then m.swapcontext π (s.current π) proc else m

/-- The masks when a process takes the next step of what it is in, from `s`. -/
def run (sys : Procs N U) (s : Sched N U) (m : Masks N U) (p : Fin N) : Masks N U :=
  let π := sys.pun p
  let new := m.sched.current π
  match (s.live p).op with
  | .freeWaiting _ => m
  | .schedule q => (m.disable π).schedule0 sys s π q
  | .enable => m.enable π
  | .none =>
      match (s.live p).code with
      | .relinquish _ => (m.disable π).swapcontext π p new
      | .switched _ => m.enable π
      | .ending => (m.getcontext π p).setcontext π p
      | .finishing => (m.disable π).setcontext π new
      | _ => m

/-- The masks in `yield`. -/
def yield (sys : Procs N U) (s : Sched N U) (m : Masks N U) (p : Fin N) : Masks N U :=
  let π := sys.pun p
  match s.queues.take1 sys π with
  | some (some new, _) => (m.disable π).swapcontext π p new
  | _ => (m.disable π).enable π

/-- The masks when the handler takes its next step.  When it returns, the system
restores the mask of the interrupted context. -/
def handle (sys : Procs N U) (s : Sched N U) (m : Masks N U) (π : Fin U) : Masks N U :=
  match (s.live (s.current π)).inside with
  | some .interproc =>
      match s.queues.ipq_remove π with
      | some (proc, _) => m.schedule0 sys s π proc
      | none => m
  | some (.preempt _) =>
      if s.outranked sys π then m.setcontext π (m.sched.current π) else m
  | some .exit =>
      let e := m.enable π
      { e with mask := Function.update e.mask π (e.frame (s.current π)) }
  | _ => m

/-- The masks with a step of the scheduler from `s`. -/
def follow (sys : Procs N U) (s : Sched N U) (m : Masks N U) : SchedAct N U → Masks N U
  | .build p child =>
      -- `build_context`, then `enqueue` or `schedule`
      ((m.getcontext (sys.pun p) child).disable (sys.pun p)).enable (sys.pun p)
  | .yield p => m.yield sys s p
  | .run p => m.run sys s p
  | .handle π => m.handle sys s π
  | _ => m

/-- After `initialize`.  The contexts have been built with interrupts disabled;
the threads of the other processors have not come to the `enable` of `idle`. -/
def init (sys : Procs N U) : Masks N U where
  sched := Sched.init sys
  mask := fun π => if π = sys.pun sys.initial then sigmask π else sigfillset
  saved := fun _ => sigfillset
  frame := fun _ => sigfillset

/-- One step. -/
def step (sys : Procs N U) (m : Masks N U) : MaskAct N U → Option (Masks N U)
  | .sched (.interrupt _ _) => none
  | .sched act =>
      (m.sched.step sys act).map fun t => { m with sched := t }.follow sys m.sched act
  | .signal π ρ i =>
      let curr := m.sched.current π
      if m.mask π (.interrupt ρ i) then none
      else (m.sched.step sys (.interrupt π i)).map fun t =>
        -- `handle_signal` saves the interrupted context
        { m with
          sched := t
          saved := Function.update m.saved curr (m.mask π)
          frame := Function.update m.frame curr (m.mask π) }.disable π
  | .enable π =>
      let c := m.sched.live (m.sched.current π)
      if c.inside = none ∧ c.disabled = false then some (m.enable π) else none

/-- Application code executes on the processor, outside the sections in which
interrupts are disabled and outside the handlers. -/
def Executes (sys : Procs N U) (m : Masks N U) (π : Fin U) : Prop :=
  let c := m.sched.live (m.sched.current π)
  m.sched.current π ≠ sys.idler π ∧ c.code.exists = true ∧ c.inside = none ∧
    c.disabled = false

/-- Wherever application code executes, the processor's own interrupts are
enabled, and no others. -/
def Enabled (sys : Procs N U) (m : Masks N U) : Prop :=
  ∀ π, m.Executes sys π → m.mask π = sigmask π ∧
    ∀ ρ i, m.mask π (.interrupt ρ i) = false ↔ ρ = π

/-- A child that is built is placed on the processor of its parent. -/
def AtHome (sys : Procs N U) (_ : Masks N U) : MaskAct N U → Prop
  | .sched (.build p child) => sys.pun child = sys.pun p
  | _ => True

/-- The mask that belongs to a context of process `p`, and that of the context
interrupted if it is inside a handler.  The idle process begins with all signals
blocked. -/
structure Fit (sys : Procs N U) (p : Fin N) (frame mask : SignalMask U) (c : Context N) :
    Prop where
  inside : c.inside ≠ none → mask = sigfillset ∧ frame = sigmask (sys.pun p)
  enabled : c.inside = none → c.disabled = false →
    mask = sigmask (sys.pun p) ∨ sys.idler (sys.pun p) = p ∧ mask = sigfillset

/-- Every mask is the one that belongs there. -/
structure Right (sys : Procs N U) (m : Masks N U) : Prop where
  sched : m.sched.Populated sys
  current : ∀ π, (m.sched.live (m.sched.current π)).code ≠ .dead →
    Fit sys (m.sched.current π) (m.frame (m.sched.current π)) (m.mask π)
      (m.sched.live (m.sched.current π))
  saved : ∀ p, m.sched.Born p → (m.sched.stackptr p).code ≠ .dead →
    m.sched.current (sys.pun p) ≠ p ∨ (m.sched.live p).inside ≠ none →
    Fit sys p (m.frame p) (m.saved p) (m.sched.stackptr p)

variable {sys : Procs N U} {m n : Masks N U} {s t : Sched N U} {π : Fin U} {p q new : Fin N}
  {fr v : SignalMask U} {c d : Context N} {act : SchedAct N U}

section Fits

theorem disabled_of_op (h : c.op = .enable) : c.disabled = true := by
  unfold Context.disabled
  rw [h]
  cases c.code <;> rfl

/-- Blocked, in a context that is not inside a handler. -/
theorem fit_disabled (hin : c.inside = none) (hdis : c.disabled = true) :
    Fit sys p fr sigfillset c := by
  refine ⟨fun h => absurd hin h, fun _ h => ?_⟩
  rw [hdis] at h
  cases h

/-- The mask of an executing process. -/
theorem fit_enabled (hin : c.inside = none) : Fit sys p fr (sigmask (sys.pun p)) c :=
  ⟨fun h => absurd hin h, fun _ _ => Or.inl rfl⟩

/-- Elsewhere in its code with interrupts neither disabled nor enabled on the way. -/
theorem Fit.congr (h : Fit sys p fr v c) (hin : d.inside.isSome = c.inside.isSome)
    (hdis : d.disabled = c.disabled) : Fit sys p fr v d := by
  have hnone : d.inside = none ↔ c.inside = none := by
    rw [← Option.not_isSome_iff_eq_none, ← Option.not_isSome_iff_eq_none, hin]
  refine ⟨fun hd => h.inside fun hc => hd (hnone.mpr hc), fun hd hno => ?_⟩
  rw [hdis] at hno
  exact h.enabled (hnone.mp hd) hno

/-- Who runs and is no idle process has its own mask. -/
theorem Fit.eq_sigmask (h : Fit sys p fr v c) (hin : c.inside = none)
    (hdis : c.disabled = false) (hidle : sys.idler (sys.pun p) ≠ p) :
    v = sigmask (sys.pun p) :=
  (h.enabled hin hdis).resolve_right fun heq => hidle heq.1

end Fits

section Steps

theorem Right.cur_ne (h : Right sys m) {σ : Fin U} (hσ : σ ≠ π) :
    m.sched.current σ ≠ m.sched.current π := by
  intro heq
  have hpun := h.sched.pun σ
  rw [heq, h.sched.pun π] at hpun
  exact hσ hpun.symm

/-- A step in which only the context of the current process changes. -/
theorem Right.goes (h : Right sys m) (hpop : t.Populated sys) (hcur : t.current = m.sched.current)
    (hstack : t.stackptr = m.sched.stackptr)
    (hlive : ∀ x, x ≠ m.sched.current π → t.live x = m.sched.live x)
    (hin : (t.live (m.sched.current π)).inside ≠ none →
      (m.sched.live (m.sched.current π)).inside ≠ none)
    (hsched : n.sched = t) (hmask : n.mask = Function.update m.mask π v)
    (hsaved : n.saved = m.saved) (hframe : n.frame = m.frame)
    (hfit : (t.live (m.sched.current π)).code ≠ .dead →
      Fit sys (m.sched.current π) (m.frame (m.sched.current π)) v
        (t.live (m.sched.current π))) : Right sys n := by
  constructor
  · rw [hsched]
    exact hpop
  · intro σ
    rw [hsched, hcur, hmask, hframe]
    by_cases hσ : σ = π
    · rw [hσ, Function.update_self]
      exact hfit
    · rw [Function.update_of_ne hσ, hlive _ (h.cur_ne hσ)]
      exact h.current σ
  · intro x hx
    rw [hsched] at hx
    rw [hsched, hcur, hstack, hsaved, hframe]
    have hborn : m.sched.Born x := by
      rw [← h.sched.saved, ← hstack]
      exact (hpop.saved x).mpr hx
    intro hdead hcond
    apply h.saved x hborn hdead
    obtain hne | hins := hcond
    · exact Or.inl hne
    · right
      by_cases hxc : x = m.sched.current π
      · rw [hxc] at hins ⊢
        exact hin hins
      · rw [← hlive x hxc]
        exact hins

/-- **A context switch**: the context of `new` is restored on processor `π`, and
that of the process that had the processor may be saved before. -/
theorem Right.moves (h : Right sys m) (hpop : t.Populated sys)
    (hcur : t.current = Function.update m.sched.current π new) (hnew : sys.pun new = π)
    (hlive : ∀ x, x ≠ new → x ≠ m.sched.current π → t.live x = m.sched.live x)
    (hrestored : t.live new = t.stackptr new)
    (hother : ∀ x, x ≠ m.sched.current π →
      t.stackptr x = m.sched.stackptr x ∧ n.saved x = m.saved x)
    (hold : (t.stackptr (m.sched.current π)).code ≠ .dead →
      Fit sys (m.sched.current π) (m.frame (m.sched.current π))
        (n.saved (m.sched.current π)) (t.stackptr (m.sched.current π)))
    (hsched : n.sched = t) (hmask : n.mask = Function.update m.mask π (n.saved new))
    (hframe : n.frame = m.frame) : Right sys n := by
  have hborn : ∀ x, x ≠ m.sched.current π → t.Born x → m.sched.Born x := by
    intro x hx hb
    rw [← h.sched.saved, ← (hother x hx).1]
    exact (hpop.saved x).mpr hb
  have hthere : ∀ σ, σ ≠ π → m.sched.current σ ≠ new := by
    intro σ hσ heq
    rw [← heq, h.sched.pun] at hnew
    exact hσ hnew
  constructor
  · rw [hsched]
    exact hpop
  · intro σ
    rw [hsched, hcur, hmask, hframe]
    by_cases hσ : σ = π
    · rw [hσ, Function.update_self, Function.update_self, hrestored]
      by_cases hno : new = m.sched.current π
      · rw [hno]
        exact hold
      · rw [(hother new hno).1, (hother new hno).2]
        intro hdead
        have hcurrent : t.current π = new := by rw [hcur, Function.update_self]
        apply h.saved new (hborn new hno (hcurrent ▸ hpop.current π)) hdead
        left
        rw [hnew]
        exact Ne.symm hno
    · rw [Function.update_of_ne hσ, Function.update_of_ne hσ, hlive _ (hthere σ hσ) (h.cur_ne hσ)]
      exact h.current σ
  · intro x hx hdead hcond
    rw [hsched] at hx hdead hcond
    rw [hsched, hframe]
    by_cases hxo : x = m.sched.current π
    · rw [hxo] at hdead ⊢
      exact hold hdead
    · obtain ⟨hsame, hsaved⟩ := hother x hxo
      rw [hsame] at hdead
      rw [hsame, hsaved]
      apply h.saved x (hborn x hxo hx) hdead
      by_cases hxπ : sys.pun x = π
      · left
        rw [hxπ]
        exact Ne.symm hxo
      · rw [hcur, Function.update_of_ne hxπ] at hcond
        have hxn : x ≠ new := by
          intro heq
          exact hxπ (heq ▸ hnew)
        rw [hlive x hxn hxo] at hcond
        exact hcond

end Steps

section Switches

variable {u : Sched N U} {w : Wait}

theorem overrides_iff : overrides sys u π q = true ↔ u.Overrides sys π q := by
  simp [overrides, Sched.Overrides]

/-- The same of a switch from a state `u` in which only the process that had the
processor has gone on. -/
theorem Right.hands {saves : Bool} (h : Right sys m) (hpop : t.Populated sys)
    (hh : Sched.Hands sys π new saves u t) (hcur : u.current = m.sched.current)
    (hlive : ∀ x, x ≠ m.sched.current π → u.live x = m.sched.live x)
    (hstack : ∀ x, x ≠ m.sched.current π → u.stackptr x = m.sched.stackptr x)
    (hsaved : ∀ x, x ≠ m.sched.current π → n.saved x = m.saved x)
    (hold : (t.stackptr (m.sched.current π)).code ≠ .dead →
      Fit sys (m.sched.current π) (m.frame (m.sched.current π))
        (n.saved (m.sched.current π)) (t.stackptr (m.sched.current π)))
    (hsched : n.sched = t) (hmask : n.mask = Function.update m.mask π (n.saved new))
    (hframe : n.frame = m.frame) : Right sys n := by
  refine h.moves hpop (hcur ▸ hh.current) hh.pun ?_ hh.live_eq ?_ hold hsched hmask hframe
  · intro x hxn hxc
    rw [hh.live_of_ne hxn, hlive x hxc]
  · intro x hxc
    refine ⟨?_, hsaved x hxc⟩
    rw [hh.stackptr_of_ne (hcur ▸ hxc), hstack x hxc]

/-- A call of `schedule0`, when the mask of the thread is `v`. -/
theorem Right.schedule0 (h : Right sys m) (hpop : t.Populated sys)
    (hcur : u.current = m.sched.current) (hstack : u.stackptr = m.sched.stackptr)
    (hlive : ∀ x, x ≠ m.sched.current π → u.live x = m.sched.live x)
    (hin : (u.live (m.sched.current π)).inside ≠ none →
      (m.sched.live (m.sched.current π)).inside ≠ none)
    (hstep : u.schedule0 sys π q = some t) (hsched : n.sched = t)
    (hmask : n.mask = Function.update m.mask π v) (hsaved : n.saved = m.saved)
    (hframe : n.frame = m.frame)
    (hfit : (u.live (m.sched.current π)).code ≠ .dead →
      Fit sys (m.sched.current π) (m.frame (m.sched.current π)) v
        (u.live (m.sched.current π))) : Right sys (n.schedule0 sys m.sched π q) := by
  have hover : overrides sys m.sched π q = overrides sys u π q := by
    unfold overrides
    rw [hcur]
  unfold Masks.schedule0
  rw [hover]
  obtain ⟨hno, hrests⟩ | ⟨hyes, hhands⟩ := Sched.schedule0_switch hstep
  · rw [if_neg (overrides_iff.not.mpr hno)]
    apply h.goes hpop (hrests.current.trans hcur) (hrests.stackptr.trans hstack) _ _ hsched
      hmask hsaved hframe
    · rw [hrests.live]
      exact hfit
    · rw [hrests.live]
      exact hlive
    · rw [hrests.live]
      exact hin
  · rw [if_pos (overrides_iff.mpr hyes)]
    have hnmask : n.mask π = v := by rw [hmask, Function.update_self]
    apply h.hands (n := n.swapcontext π (m.sched.current π) q) hpop hhands hcur hlive
      (fun _ _ => by rw [hstack]) _ _ hsched _ hframe
    · intro x hxc
      change Function.update n.saved _ _ x = _
      rw [Function.update_of_ne hxc, hsaved]
    · rw [hhands.stackptr, if_pos rfl, hcur, Function.update_self]
      change _ → Fit sys _ _ (Function.update n.saved _ _ _) _
      rw [Function.update_self, hnmask]
      exact hfit
    · change Function.update n.mask π _ = _
      rw [hmask, Function.update_idem]
      rfl

/-- The second part of `relinquish`. -/
theorem Right.relinquish (h : Right sys m) (hpop : t.Populated sys)
    (hruns : m.sched.Runs sys p) (hstep : m.sched.relinquish_unconditional sys p w = some t) :
    Right sys (({ m with sched := t }.disable (sys.pun p)).swapcontext (sys.pun p) p
      (t.current (sys.pun p))) := by
  obtain ⟨new, hhands⟩ := Sched.relinquish_switch hruns.1 hstep
  have hp := hruns.1
  rw [hhands.current_eq]
  refine h.hands (n := (Masks.disable { m with sched := t } (sys.pun p)).swapcontext (sys.pun p)
    p new) hpop hhands rfl ?_ (fun _ _ => rfl) ?_ ?_ rfl ?_ rfl
  · intro x hxc
    rw [hp] at hxc
    exact Function.update_of_ne hxc _ _
  · intro x hxc
    rw [hp] at hxc
    exact Function.update_of_ne hxc _ _
  · intro _
    have hsaved : t.stackptr p = { m.sched.live p with code := .switched w } := by
      have hcur : (m.sched.goto p (.switched w)).current (sys.pun p) = p := hp
      rw [hhands.stackptr, if_pos rfl, hcur, Function.update_self]
      exact Function.update_self ..
    rw [hp, hsaved]
    change Fit sys p _ (Function.update m.saved p
      (Function.update m.mask (sys.pun p) sigfillset (sys.pun p)) p) _
    rw [Function.update_self, Function.update_self]
    exact fit_disabled hruns.2 rfl
  · exact Function.update_idem ..

/-- The last step of a termination. -/
theorem Right.finish_termination (h : Right sys m) (hpop : t.Populated sys)
    (hruns : m.sched.Runs sys p) (hstep : m.sched.finish_termination sys p = some t) :
    Right sys (({ m with sched := t }.disable (sys.pun p)).setcontext (sys.pun p)
      (t.current (sys.pun p))) := by
  obtain ⟨new, hhands⟩ := Sched.finish_termination_switch hstep
  have hp := hruns.1
  rw [hhands.current_eq]
  refine h.hands (n := (Masks.disable { m with sched := t } (sys.pun p)).setcontext (sys.pun p)
    new) hpop hhands rfl ?_ ?_ (fun _ _ => rfl) ?_ rfl ?_ rfl
  · intro x hxc
    rw [hp] at hxc
    exact Function.update_of_ne hxc _ _
  · intro x hxc
    rw [hp] at hxc
    exact Function.update_of_ne hxc _ _
  · intro hdead
    have hself : (m.sched.vanish p).stackptr p = ⟨.dead, .none, none⟩ :=
      Function.update_self ..
    rw [hp, hhands.stackptr, if_neg Bool.false_ne_true, hself] at hdead
    exact absurd rfl hdead
  · exact Function.update_idem ..

/-- `yield`. -/
theorem Right.yield (h : Right sys m) (hpop : t.Populated sys) (hruns : m.sched.Runs sys p)
    (hstep : m.sched.yield sys p = some t) :
    Right sys ({ m with sched := t }.yield sys m.sched p) := by
  have hp := hruns.1
  unfold Masks.yield
  obtain ⟨queues, htake, rfl⟩ | ⟨new, queues, htake, hhands⟩ := Sched.yield_switch hp hstep
  · simp only [htake]
    refine h.goes (v := sigmask (sys.pun p)) hpop rfl rfl (fun _ _ => rfl) id rfl
      (Function.update_idem ..) rfl rfl fun _ => ?_
    change Fit sys (m.sched.current (sys.pun p)) _ _ (m.sched.live (m.sched.current (sys.pun p)))
    rw [hp]
    exact fit_enabled hruns.2
  · simp only [htake]
    refine h.hands (n := (Masks.disable { m with sched := t } (sys.pun p)).swapcontext
      (sys.pun p) p new) hpop hhands rfl ?_ (fun _ _ => rfl) ?_ ?_ rfl ?_ rfl
    · intro x hxc
      rw [hp] at hxc
      exact Function.update_of_ne hxc _ _
    · intro x hxc
      rw [hp] at hxc
      exact Function.update_of_ne hxc _ _
    · intro _
      have hsaved : t.stackptr p = { m.sched.live p with op := .enable } := by
        have hcur : (m.sched.doing p .enable).current (sys.pun p) = p := hp
        rw [hhands.stackptr, if_pos rfl, hcur, Function.update_self]
        exact Function.update_self ..
      rw [hp, hsaved]
      change Fit sys p _ (Function.update m.saved p
        (Function.update m.mask (sys.pun p) sigfillset (sys.pun p)) p) _
      rw [Function.update_self, Function.update_self]
      exact fit_disabled hruns.2 (disabled_of_op rfl)
    · exact Function.update_idem ..

end Switches

section Acts

/-- A step after which the current process is inside a handler, or in a section
with interrupts disabled, as it was. -/
theorem Right.stays (h : Right sys m) (hpop : t.Populated sys)
    (hcur : t.current = m.sched.current) (hstack : t.stackptr = m.sched.stackptr)
    (hlive : t.live = Function.update m.sched.live (m.sched.current π) c)
    (hdead : c.code ≠ .dead → (m.sched.live (m.sched.current π)).code ≠ .dead)
    (hin : c.inside.isSome = (m.sched.live (m.sched.current π)).inside.isSome)
    (hdis : c.disabled = (m.sched.live (m.sched.current π)).disabled) :
    Right sys { m with sched := t } := by
  have hself : t.live (m.sched.current π) = c := by rw [hlive, Function.update_self]
  refine h.goes hpop hcur hstack (fun x hx => ?_) (fun hc => ?_) rfl
    (Function.update_eq_self π m.mask).symm rfl rfl fun hd => ?_
  · rw [hlive, Function.update_of_ne hx]
  · rw [hself, ← Option.isSome_iff_ne_none, hin, Option.isSome_iff_ne_none] at hc
    exact hc
  · rw [hself] at hd ⊢
    exact (h.current π (hdead hd)).congr hin hdis

/-- The current process does something in its own code, or takes its next step,
interrupts being enabled before and after. -/
theorem Right.acts (h : Right sys m) (hpop : t.Populated sys) (hruns : m.sched.Runs sys p)
    (hdead : (m.sched.live p).code ≠ .dead) (hdis : (m.sched.live p).disabled = false)
    (hcur : t.current = m.sched.current) (hstack : t.stackptr = m.sched.stackptr)
    (hlive : t.live = Function.update m.sched.live p c) (hin : c.inside = none)
    (hno : c.disabled = false) : Right sys { m with sched := t } := by
  obtain ⟨hp, hins⟩ := hruns
  rw [← hp] at hlive hdead hins hdis
  apply h.stays hpop hcur hstack hlive fun _ => hdead
  · rw [hin, hins]
  · rw [hno, hdis]

/-- The mask of a process that runs and does not idle. -/
theorem Right.runs (h : Right sys m) (hruns : m.sched.Runs sys p)
    (hdead : (m.sched.live p).code ≠ .dead) (hdis : (m.sched.live p).disabled = false)
    (hidle : sys.idler (sys.pun p) ≠ p) : m.mask (sys.pun p) = sigmask (sys.pun p) := by
  obtain ⟨hp, hins⟩ := hruns
  have hfit := h.current (sys.pun p)
  rw [hp] at hfit
  exact (hfit hdead).eq_sigmask hins hdis hidle

theorem not_disabled (hop : c.op ≠ .enable) (hcode : ∀ w, c.code ≠ .switched w) :
    c.disabled = false := by
  unfold Context.disabled
  split
  next w hc => exact absurd hc (hcode w)
  next hc _ => exact absurd hc hop
  next => rfl

/-- A process that stands in its own code does something. -/
theorem Right.may (h : Right sys m) (hpop : t.Populated sys) {test : Code → Bool}
    (hmay : m.sched.May sys p test)
    (hcode : (m.sched.live p).code = .own ∨ (m.sched.live p).code = .enabling)
    (hcur : t.current = m.sched.current) (hstack : t.stackptr = m.sched.stackptr)
    {e : Code} {o : Op N}
    (hlive : t.live = Function.update m.sched.live p { m.sched.live p with code := e, op := o })
    (hop : o ≠ .enable) (he : ∀ w, e ≠ .switched w) : Right sys { m with sched := t } := by
  obtain ⟨hruns, hnone, -, -⟩ := hmay
  have hno : (m.sched.live p).op ≠ .enable := by simp [hnone]
  obtain hcode | hcode := hcode
  · exact h.acts hpop hruns (by simp [hcode]) (not_disabled hno (by simp [hcode])) hcur hstack
      hlive hruns.2 (not_disabled hop he)
  · exact h.acts hpop hruns (by simp [hcode]) (not_disabled hno (by simp [hcode])) hcur hstack
      hlive hruns.2 (not_disabled hop he)

/-- A child is built: a context for it is recorded. -/
theorem Right.gains (h : Right sys m) (hpop : t.Populated sys) {child : Fin N}
    (hunborn : (m.sched.live child).code = .unborn) (hcur : t.current = m.sched.current)
    (hstack : t.stackptr = Function.update m.sched.stackptr child d)
    (hlive : ∀ x, x ≠ child → (t.live x).inside = (m.sched.live x).inside ∧
      (t.live x).disabled = (m.sched.live x).disabled ∧
      ((t.live x).code ≠ .dead → (m.sched.live x).code ≠ .dead))
    (hsched : n.sched = t) (hmask : n.mask = m.mask)
    (hsaved : n.saved = Function.update m.saved child v) (hframe : n.frame = m.frame)
    (hfit : Fit sys child (m.frame child) v d) : Right sys n := by
  constructor
  · rw [hsched]
    exact hpop
  · intro σ
    rw [hsched, hcur, hmask, hframe]
    have hne : m.sched.current σ ≠ child := by
      intro heq
      have hborn := h.sched.current σ
      rw [heq] at hborn
      exact hborn hunborn
    obtain ⟨hin, hdis, hdead⟩ := hlive _ hne
    intro hd
    exact (h.current σ (hdead hd)).congr (congrArg Option.isSome hin) hdis
  · intro x hx
    rw [hsched] at hx
    rw [hsched, hcur, hstack, hsaved, hframe]
    by_cases hxc : x = child
    · rw [hxc, Function.update_self, Function.update_self]
      exact fun _ _ => hfit
    · rw [Function.update_of_ne hxc, Function.update_of_ne hxc, (hlive x hxc).1]
      apply h.saved x
      rw [← h.sched.saved]
      have hxs := (hpop.saved x).mpr hx
      rw [hstack, Function.update_of_ne hxc] at hxs
      exact hxs

/-- `par` builds a child of the same processor. -/
theorem Right.build (h : Right sys m) {child : Fin N} (hpop : t.Populated sys)
    (hpun : sys.pun child = sys.pun p)
    (hstep : m.sched.step sys (.build p child) = some t) :
    Right sys ({ m with sched := t }.follow sys m.sched (.build p child)) := by
  cases Sched.step_cases hstep with
  | @build _ _ kind nc left _ hcode hmay hunborn _ _ henqueue =>
      obtain ⟨hruns, hop, -, hidle⟩ := hmay
      unfold Sched.enqueue at henqueue
      rw [if_pos hpun] at henqueue
      obtain ⟨queues, _, rfl⟩ := Option.map_eq_some_iff.mp henqueue
      have hmask : m.mask (sys.pun p) = sigmask (sys.pun p) :=
        h.runs hruns (by simp [hcode]) (not_disabled (by simp [hop]) (by simp [hcode])) hidle
      have hne : p ≠ child := by
        intro heq
        rw [heq, hunborn] at hcode
        cases hcode
      refine h.gains hpop hunborn rfl rfl (fun x hxc => ?_) rfl ?_ rfl rfl ?_
      · by_cases hxp : x = p
        · have hmade : (m.sched.make_process p child).live p = m.sched.live p :=
            Function.update_of_ne hne _ _
          have hself : ((m.sched.make_process p child).goto p (.par kind nc left)).live p =
              { m.sched.live p with code := .par kind nc left } := by
            rw [← hmade]
            exact Function.update_self ..
          rw [hxp]
          have hin := congrArg Context.inside hself
          have hdis := congrArg Context.disabled hself
          refine ⟨hin, hdis.trans ?_, fun _ => by simp [hcode]⟩
          rw [not_disabled (c := m.sched.live p) (by simp [hop]) (by simp [hcode])]
          refine not_disabled (fun hop' => ?_) fun w hw => ?_
          · cases hop.symm.trans hop'
          · cases hw
        · have hsame : ((m.sched.make_process p child).goto p (.par kind nc left)).live x =
              m.sched.live x :=
            (Function.update_of_ne hxp _ _).trans (Function.update_of_ne hxc _ _)
          refine ⟨congrArg Context.inside hsame, congrArg Context.disabled hsame, fun hd => ?_⟩
          rw [← hsame]
          exact hd
      · change Function.update (Function.update m.mask _ _) _ _ = _
        rw [Function.update_idem, ← hmask, Function.update_eq_self]
      · change Fit sys child _ (m.mask (sys.pun p)) _
        rw [hmask, ← hpun]
        exact fit_enabled rfl

/-- `wake`. -/
theorem Right.wake (h : Right sys m) (hpop : (m.sched.wake p q).Populated sys)
    (hmay : m.sched.May sys p (· = .own)) : Right sys { m with sched := m.sched.wake p q } := by
  have hcode := hmay.code_eq
  have he : ∀ w, (m.sched.live p).code ≠ .switched w := by simp [hcode]
  have hop : (m.sched.live p).op ≠ .enable := by simp [hmay.2.1]
  unfold Sched.wake at hpop ⊢
  split at hpop
  next hst =>
    rw [if_pos hst]
    exact h.may hpop hmay (.inl hcode) rfl rfl (o := .schedule q) rfl nofun he
  next hst =>
    rw [if_neg hst]
    exact h.may hpop hmay (.inl hcode) rfl rfl (Function.update_eq_self p _).symm hop he

/-- `free`. -/
theorem Right.free (h : Right sys m) (hpop : (m.sched.free p q).Populated sys)
    (hmay : m.sched.May sys p (· = .own)) : Right sys { m with sched := m.sched.free p q } := by
  have hcode := hmay.code_eq
  have he : ∀ w, (m.sched.live p).code ≠ .switched w := by simp [hcode]
  have hop : (m.sched.live p).op ≠ .enable := by simp [hmay.2.1]
  unfold Sched.free at hpop ⊢
  cases hst : m.sched.alt_state q with
  | waiting =>
      simp only [hst] at hpop ⊢
      exact h.may hpop hmay (.inl hcode) rfl rfl (o := .freeWaiting q) rfl nofun he
  | _ =>
      simp only [hst] at hpop ⊢
      exact h.may hpop hmay (.inl hcode) rfl rfl (Function.update_eq_self p _).symm hop he

/-- `sync`. -/
theorem Right.sync (h : Right sys m) {parent : Fin N}
    (hpop : (m.sched.par_barr_sync p parent).Populated sys)
    (hmay : m.sched.May sys p (· = .own)) :
    Right sys { m with sched := m.sched.par_barr_sync p parent } := by
  have hcode := hmay.code_eq
  have hop : (m.sched.live p).op ≠ .enable := by simp [hmay.2.1]
  unfold Sched.par_barr_sync at hpop ⊢
  dsimp only at hpop ⊢
  split at hpop
  next hlast =>
    rw [if_pos hlast]
    refine h.may hpop hmay (.inl hcode) rfl rfl (e := .ending) (o := .schedule parent) ?_ nofun
      nofun
    simp [Sched.doing, Sched.goto]
  next hlast =>
    rw [if_neg hlast]
    exact h.may hpop hmay (.inl hcode) rfl rfl (e := .ending) rfl hop nofun

/-- Only the context of the current process changes, and interrupts are enabled
after the step. -/
theorem Right.enables (h : Right sys m) (hpop : t.Populated sys) (hruns : m.sched.Runs sys p)
    (hcur : t.current = m.sched.current) (hstack : t.stackptr = m.sched.stackptr)
    (hlive : t.live = Function.update m.sched.live p c) (hin : c.inside = none) :
    Right sys (Masks.enable { m with sched := t } (sys.pun p)) := by
  have hself : t.live p = c := by rw [hlive, Function.update_self]
  obtain ⟨hp, -⟩ := hruns
  refine h.goes (π := sys.pun p) hpop hcur hstack (fun x hx => ?_) (fun hc => ?_) rfl rfl rfl
    rfl fun _ => ?_
  · rw [hp] at hx
    rw [hlive, Function.update_of_ne hx]
  · rw [hp, hself] at hc
    exact absurd hin hc
  · rw [hp, hself]
    exact fit_enabled hin

/-- A process that stands at a place in its code where interrupts are enabled
goes on. -/
theorem Right.on (h : Right sys m) (hpop : t.Populated sys) (hruns : m.sched.Runs sys p)
    (hop : (m.sched.live p).op ≠ .enable) {e e' : Code} {o : Op N}
    (hcode : (m.sched.live p).code = e) (hdead : e ≠ .dead) (hsw : ∀ w, e ≠ .switched w)
    (hcur : t.current = m.sched.current) (hstack : t.stackptr = m.sched.stackptr)
    (hlive : t.live = Function.update m.sched.live p { m.sched.live p with code := e', op := o })
    (hop' : o ≠ .enable) (hsw' : ∀ w, e' ≠ .switched w) : Right sys { m with sched := t } := by
  rw [← hcode] at hdead hsw
  exact h.acts hpop hruns hdead (not_disabled hop hsw) hcur hstack hlive hruns.2
    (not_disabled hop' hsw')

/-- A process that readies another one has nothing more to do, or is to schedule
it. -/
theorem Right.waits (h : Right sys m) (hpop : t.Populated sys) (hruns : m.sched.Runs sys p)
    (hcur : t.current = m.sched.current) (hstack : t.stackptr = m.sched.stackptr) {o : Op N}
    (hlive : t.live = Function.update m.sched.live p { m.sched.live p with op := o })
    (hop : (m.sched.live p).op ≠ .enable) (hop' : o ≠ .enable) :
    Right sys { m with sched := t } := by
  rw [← hruns.1] at hlive hop
  refine h.stays hpop hcur hstack hlive id rfl ?_
  unfold Context.disabled
  grind

/-- `set_stack`: the context of a process that terminates is recorded anew. -/
theorem Right.set_stack (h : Right sys m) (hpop : t.Populated sys) (hruns : m.sched.Runs sys p)
    (hdead : (m.sched.live p).code ≠ .dead) (hdis : (m.sched.live p).disabled = false)
    (hidle : sys.idler (sys.pun p) ≠ p) (hin : c.inside = none)
    (hcur : t.current = m.sched.current)
    (hstack : t.stackptr = Function.update m.sched.stackptr p c)
    (hlive : t.live = Function.update m.sched.live p c) :
    Right sys ((Masks.getcontext { m with sched := t } (sys.pun p) p).setcontext (sys.pun p)
      p) := by
  have hmask := h.runs hruns hdead hdis hidle
  obtain ⟨hp, -⟩ := hruns
  have hsame : t.current = Function.update m.sched.current (sys.pun p) p := by
    rw [hcur, Function.eq_update_iff]
    exact ⟨hp, fun _ _ => rfl⟩
  refine h.moves (n := (Masks.getcontext { m with sched := t } (sys.pun p) p).setcontext
    (sys.pun p) p) hpop hsame rfl (fun x hx _ => ?_) ?_ (fun x hx => ?_) (fun _ => ?_) rfl rfl rfl
  · rw [hlive, Function.update_of_ne hx]
  · rw [hlive, hstack, Function.update_self, Function.update_self]
  · rw [hp] at hx
    rw [hstack, Function.update_of_ne hx]
    exact ⟨rfl, Function.update_of_ne hx _ _⟩
  · rw [hp, hstack, Function.update_self]
    change Fit sys p _ (Function.update m.saved p (m.mask (sys.pun p)) p) _
    rw [Function.update_self, hmask]
    exact fit_enabled hin

/-- A process takes the next step of what it is in. -/
theorem Right.run (h : Right sys m) (hpop : t.Populated sys) (hruns : m.sched.Runs sys p)
    (hstep : m.sched.run sys p = some t) :
    Right sys (Masks.run sys m.sched { m with sched := t } p) := by
  have hidle : ¬((m.sched.live p).code = .own ∧ (m.sched.live p).op = .none) →
      sys.idler (sys.pun p) ≠ p := fun hne => h.sched.not_idler hne
  unfold Masks.run
  cases Sched.run_cases hstep with
  | @frees q hop halt =>
      simp only [hop]
      exact h.waits hpop hruns rfl rfl (o := .schedule q) rfl (by simp [hop]) nofun
  | freed hop halt =>
      simp only [hop]
      exact h.waits hpop hruns rfl rfl (o := .none) rfl (by simp [hop]) nofun
  | @schedule q t hop hschedule =>
      simp only [hop]
      have hself : (m.sched.doing p .enable).live p = { m.sched.live p with op := .enable } :=
        Function.update_self ..
      refine h.schedule0 (u := m.sched.doing p .enable) (v := sigfillset)
        (n := Masks.disable { m with sched := t } (sys.pun p)) hpop rfl rfl (fun x hx => ?_)
        (fun hc => ?_) hschedule rfl rfl rfl rfl fun _ => ?_
      · rw [hruns.1] at hx
        exact Function.update_of_ne hx _ _
      · rw [hruns.1, hself] at hc
        rw [hruns.1]
        exact hc
      · rw [hruns.1, hself]
        exact fit_disabled hruns.2 (disabled_of_op rfl)
  | enable hop =>
      simp only [hop]
      exact h.enables hpop hruns rfl rfl rfl hruns.2
  | waits hop hcode _ | woken hop hcode _ | altWaits hop hcode _ | altReady hop hcode _
  | disabling hop hcode | parWaits hop hcode _ | parWoken hop hcode _ =>
      have hno : (m.sched.live p).op ≠ .enable := by simp [hop]
      simp only [hop, hcode]
      exact h.on hpop hruns hno hcode nofun nofun rfl rfl rfl hno nofun
  | relinquish hop hcode hrelinquish =>
      simp only [hop, hcode]
      exact h.relinquish hpop hruns hrelinquish
  | switched hop hcode =>
      simp only [hop, hcode]
      exact h.enables hpop hruns rfl rfl rfl hruns.2
  | ending hop hcode =>
      simp only [hop, hcode]
      have hdis : (m.sched.live p).disabled = false :=
        not_disabled (by simp [hop]) (by simp [hcode])
      exact h.set_stack hpop hruns (by simp [hcode]) hdis (hidle (by simp [hcode])) rfl rfl rfl
        rfl
  | finishing hop hcode hfinish =>
      simp only [hop, hcode]
      exact h.finish_termination hpop hruns hfinish

/-- The handler that a processor is in goes on. -/
theorem Right.handling (h : Right sys m) (hpop : t.Populated sys)
    (hcur : t.current = m.sched.current) (hstack : t.stackptr = m.sched.stackptr)
    (hins : (m.sched.live (m.sched.current π)).inside.isSome) {inside : Handler N}
    (hlive : t.live = Function.update m.sched.live (m.sched.current π)
      { m.sched.live (m.sched.current π) with inside := some inside }) :
    Right sys { m with sched := t } :=
  h.stays hpop hcur hstack hlive id hins.symm rfl

/-- The thread takes a signal. -/
theorem Right.signal (h : Right sys m) {ρ : Fin U} {i : Interrupt} (hpop : t.Populated sys)
    (hopen : m.mask π (.interrupt ρ i) = false)
    (hin : (m.sched.live (m.sched.current π)).inside = none)
    (hdis : (m.sched.live (m.sched.current π)).disabled = false)
    (hcur : t.current = m.sched.current)
    (hstack : t.stackptr = Function.update m.sched.stackptr (m.sched.current π)
      (m.sched.live (m.sched.current π)))
    (hlive : t.live = Function.update m.sched.live (m.sched.current π)
      { m.sched.live (m.sched.current π) with inside := some i.handler })
    (hsched : n.sched = t) (hmask : n.mask = Function.update m.mask π sigfillset)
    (hsaved : n.saved = Function.update m.saved (m.sched.current π) (m.mask π))
    (hframe : n.frame = Function.update m.frame (m.sched.current π) (m.mask π)) :
    Right sys n := by
  have hown : (m.sched.live (m.sched.current π)).code ≠ .dead →
      m.mask π = sigmask (sys.pun (m.sched.current π)) := by
    intro hdead
    obtain heq | ⟨-, hall⟩ := (h.current π hdead).enabled hin hdis
    · exact heq
    · rw [hall] at hopen
      cases hopen
  constructor
  · rw [hsched]
    exact hpop
  · intro σ
    rw [hsched, hcur, hmask, hframe, hlive]
    by_cases hσ : σ = π
    · rw [hσ, Function.update_self, Function.update_self, Function.update_self]
      intro hdead
      exact ⟨fun _ => ⟨rfl, hown hdead⟩, nofun⟩
    · rw [Function.update_of_ne hσ, Function.update_of_ne (h.cur_ne hσ),
        Function.update_of_ne (h.cur_ne hσ)]
      exact h.current σ
  · intro x hx hdead hcond
    rw [hsched] at hx hdead hcond
    rw [hsched, hsaved, hframe]
    rw [hstack] at hdead ⊢
    by_cases hxc : x = m.sched.current π
    · rw [hxc, Function.update_self] at hdead
      rw [hxc, Function.update_self, Function.update_self, Function.update_self, hown hdead]
      exact fit_enabled hin
    · rw [Function.update_of_ne hxc] at hdead
      rw [Function.update_of_ne hxc, Function.update_of_ne hxc, Function.update_of_ne hxc]
      rw [hcur, hlive, Function.update_of_ne hxc] at hcond
      apply h.saved x _ hdead hcond
      rw [← h.sched.saved]
      have hxs := (hpop.saved x).mpr hx
      rw [hstack, Function.update_of_ne hxc] at hxs
      exact hxs

/-- The handler returns: the mask of the interrupted context is restored. -/
theorem Right.exits (h : Right sys m) (hpop : t.Populated sys)
    (hcur : t.current = m.sched.current) (hstack : t.stackptr = m.sched.stackptr)
    (hins : (m.sched.live (m.sched.current π)).inside ≠ none)
    (hlive : t.live = Function.update m.sched.live (m.sched.current π)
      { m.sched.live (m.sched.current π) with inside := none })
    (hsched : n.sched = t)
    (hmask : n.mask = Function.update m.mask π (m.frame (m.sched.current π)))
    (hsaved : n.saved = m.saved) (hframe : n.frame = m.frame) : Right sys n := by
  refine h.goes hpop hcur hstack (fun x hx => ?_) (fun _ => hins) hsched hmask hsaved hframe
    fun hd => ?_
  · rw [hlive, Function.update_of_ne hx]
  · rw [hlive, Function.update_self] at hd ⊢
    obtain ⟨-, hown⟩ := (h.current π hd).inside hins
    rw [hown]
    exact fit_enabled rfl

/-- The handler looks whether the head of the ready queue is of higher priority. -/
theorem Right.preempt (h : Right sys m) (hpop : t.Populated sys) {u : Sched N U}
    {inside : Handler N} (hins : (m.sched.live (m.sched.current π)).inside.isSome)
    (hu : u = m.sched.handling (m.sched.current π) (some inside))
    (hstep : u.schedule_from_interrupt sys π = some t) :
    Right sys (if m.sched.outranked sys π then
      Masks.setcontext { m with sched := t } π (t.current π) else { m with sched := t }) := by
  have hout : u.outranked sys π = m.sched.outranked sys π := by rw [hu]; rfl
  rw [← hout]
  obtain ⟨hno, rfl⟩ | ⟨hyes, new, hhands⟩ := Sched.schedule_from_interrupt_switch hstep
  · rw [hno, if_neg Bool.false_ne_true]
    rw [hu] at hpop ⊢
    exact h.handling hpop rfl rfl hins rfl
  · rw [hyes, if_pos rfl, hhands.current_eq]
    rw [hu] at hhands
    refine h.hands (n := Masks.setcontext { m with sched := t } π new) hpop hhands rfl
      (fun x hxc => Function.update_of_ne hxc _ _) (fun _ _ => rfl) (fun _ _ => rfl)
      (fun hd => ?_) rfl rfl rfl
    · rw [hhands.stackptr, if_neg Bool.false_ne_true] at hd ⊢
      apply h.saved _ (h.sched.current π) hd
      right
      rw [← Option.isSome_iff_ne_none]
      exact hins

/-- The handler takes its next step. -/
theorem Right.handle (h : Right sys m) (hpop : t.Populated sys) {inside : Handler N}
    (hins : m.sched.Inside π inside)
    (hstep : m.sched.handle sys π (m.sched.current π) inside = some t) :
    Right sys (Masks.handle sys m.sched { m with sched := t } π) := by
  have hsome : (m.sched.live (m.sched.current π)).inside.isSome := by rw [hins]; rfl
  unfold Sched.handle at hstep
  unfold Masks.handle
  rw [hins]
  split at hstep
  next =>
    obtain rfl := Option.some.inj hstep
    exact h.handling hpop rfl rfl hsome rfl
  next q =>
    dsimp only at hstep
    split at hstep
    · obtain ⟨_, _, rfl⟩ := Option.map_eq_some_iff.mp hstep
      exact h.handling hpop rfl rfl hsome rfl
    · obtain rfl := Option.some.inj hstep
      exact h.handling hpop rfl rfl hsome rfl
  next =>
    cases hrem : m.sched.queues.ipq_remove π with
    | none =>
        rw [hrem] at hstep
        obtain rfl := Option.some.inj hstep
        exact h.handling hpop rfl rfl hsome rfl
    | some found =>
        rw [hrem] at hstep
        obtain ⟨proc, queues⟩ := found
        exact h.schedule0 (u := { m.sched with queues := queues }) (n := { m with sched := t }) hpop
          rfl rfl (fun _ _ => rfl) id hstep rfl (Function.update_eq_self π m.mask).symm rfl rfl
          (h.current π)
  next =>
    obtain rfl := Option.some.inj hstep
    exact h.handling hpop rfl rfl hsome rfl
  next again => exact h.preempt hpop hsome rfl hstep
  next =>
    obtain rfl := Option.some.inj hstep
    exact h.exits hpop rfl rfl (Option.isSome_iff_ne_none.mp hsome) rfl rfl (Function.update_idem ..) rfl rfl

/-- A handler frees a process that waits. -/
theorem Right.freeProcess (h : Right sys m) (hpop : t.Populated sys) {u : Sched N U}
    (hcur : u.current = m.sched.current) (hstack : u.stackptr = m.sched.stackptr)
    (hins : (m.sched.live (m.sched.current π)).inside.isSome) {inside : Handler N}
    (hlive : u.live = Function.update m.sched.live (m.sched.current π)
      { m.sched.live (m.sched.current π) with inside := some inside })
    (hstep : u.freeProcess sys q = some t) : Right sys { m with sched := t } := by
  unfold Sched.freeProcess at hstep
  split at hstep
  · obtain ⟨_, _, rfl⟩ := Option.map_eq_some_iff.mp hstep
    exact h.handling hpop hcur hstack hins hlive
  · obtain rfl := Option.some.inj hstep
    exact h.handling hpop hcur hstack hins hlive

/-- A handler frees a process that is in a select. -/
theorem Right.freeAlting (h : Right sys m)
    (hpop : (m.sched.freeAlting (m.sched.current π) q).Populated sys)
    (hins : m.sched.Inside π .timeout) :
    Right sys { m with sched := m.sched.freeAlting (m.sched.current π) q } := by
  have hsome : (m.sched.live (m.sched.current π)).inside.isSome := by rw [hins]; rfl
  have hkept : m.sched.live = Function.update m.sched.live (m.sched.current π)
      { m.sched.live (m.sched.current π) with inside := some .timeout } := by
    rw [← show _ = some Handler.timeout from hins]
    exact (Function.update_eq_self ..).symm
  unfold Sched.freeAlting at hpop ⊢
  cases hst : m.sched.alt_state q with
  | waiting =>
      simp only [hst] at hpop ⊢
      exact h.handling hpop rfl rfl hsome rfl
  | _ =>
      simp only [hst] at hpop ⊢
      exact h.handling hpop rfl rfl hsome hkept

/-- Every step of the scheduler but the building of a child elsewhere. -/
theorem Right.follow (h : Right sys m) (hno : ∀ π i, act ≠ .interrupt π i)
    (hhome : AtHome sys m (.sched act)) (hstep : m.sched.step sys act = some t) :
    Right sys ({ m with sched := t }.follow sys m.sched act) := by
  have hpop := (h.sched.step hstep).populated
  cases Sched.step_cases hstep with
  | @interrupt π i hinside henabled => exact absurd rfl (hno π i)
  | prepare hmay =>
      exact h.may hpop hmay (.inl hmay.code_eq) rfl rfl (e := .prepared) rfl
        (by simp [hmay.2.1]) (by simp)
  | select hmay =>
      exact h.may hpop hmay (.inl hmay.code_eq) rfl rfl (e := .enabling) rfl
        (by simp [hmay.2.1]) (by simp)
  | found hmay =>
      exact h.may hpop hmay (.inr hmay.code_eq) rfl rfl (e := .disabling) rfl
        (by simp [hmay.2.1]) (by simp)
  | @par p kind nc hmay haccepts =>
      exact h.may hpop hmay (.inl hmay.code_eq) rfl rfl (e := .par kind nc nc) rfl
        (by simp [hmay.2.1]) (by simp)
  | build hcode hmay hunborn hpri hpun henqueue => exact h.build hpop hhome hstep
  | wake hmay hwaits => exact h.wake hpop hmay
  | free hmay => exact h.free hpop hmay
  | yield hmay hyield => exact h.yield hpop hmay.1 hyield
  | sync hmay hparent => exact h.sync hpop hmay
  | run hruns hrun => exact h.run hpop hruns hrun
  | @timeout π q t hpun hwaits hinside hfree =>
      have hkept : m.sched.live = Function.update m.sched.live (m.sched.current π)
          { m.sched.live (m.sched.current π) with inside := some .timeout } := by
        rw [← show _ = some Handler.timeout from hinside]
        exact (Function.update_eq_self ..).symm
      exact h.freeProcess hpop rfl rfl (Option.isSome_iff_ne_none.mpr hinside.ne_none) hkept hfree
  | @transmit π q t hpun hwaits hinside hfree =>
      exact h.freeProcess (u := m.sched.handling (m.sched.current π)
        (some (.preempt (m.sched.sched_state q = .waiting)))) hpop rfl rfl
        (Option.isSome_iff_ne_none.mpr hinside.ne_none) rfl hfree
  | freeAlting hpun hinside => exact h.freeAlting hpop hinside
  | handle hinside hhandle => exact h.handle hpop hinside hhandle

theorem step_sched (hstep : m.step sys (.sched act) = some n) :
    (∀ π i, act ≠ .interrupt π i) ∧ ∃ t, m.sched.step sys act = some t ∧
      n = { m with sched := t }.follow sys m.sched act := by
  cases act with
  | interrupt => cases hstep
  | _ =>
    obtain ⟨t, ht, heq⟩ := Option.map_eq_some_iff.mp hstep
    exact ⟨nofun, t, ht, heq.symm⟩

/-- **One step**, but the building of a child elsewhere. -/
theorem Right.step (h : Right sys m) {a : MaskAct N U} (hhome : AtHome sys m a)
    (hstep : m.step sys a = some n) : Right sys n := by
  cases a with
  | sched act =>
      obtain ⟨hno, t, ht, rfl⟩ := step_sched hstep
      exact h.follow hno hhome ht
  | signal π ρ i =>
      simp only [Masks.step] at hstep
      split at hstep
      next => cases hstep
      next hopen =>
        obtain ⟨t, ht, rfl⟩ := Option.map_eq_some_iff.mp hstep
        have hpop := (h.sched.step ht).populated
        cases Sched.step_cases ht with
        | interrupt hinside henabled =>
            exact h.signal hpop (eq_false_of_ne_true hopen) hinside henabled rfl rfl rfl rfl rfl
              rfl rfl
  | enable π =>
      obtain ⟨hin, hstep⟩ := Option.ite_none_right_eq_some.mp hstep
      obtain rfl := Option.some.inj hstep
      refine h.goes (π := π) h.sched rfl rfl (fun _ _ => rfl) id rfl rfl rfl rfl fun _ => ?_
      have hfit : Fit sys (m.sched.current π) (m.frame (m.sched.current π))
          (sigmask (sys.pun (m.sched.current π))) (m.sched.live (m.sched.current π)) :=
        fit_enabled hin.1
      rw [h.sched.pun π] at hfit
      exact hfit

end Acts

section Start

theorem right_init (sys : Procs N U) : Right sys (init sys) := by
  refine ⟨Sched.populated_init sys, fun π _ => ?_, fun p hp _ hcond => ?_⟩
  · by_cases hπ : π = sys.pun sys.initial
    · have hcur : (init sys).sched.current π = sys.initial := if_pos hπ
      have hmask : (init sys).mask π = sigmask (sys.pun sys.initial) :=
        (if_pos hπ).trans (congrArg _ hπ)
      rw [hcur, hmask]
      exact fit_enabled rfl
    · have hcur : (init sys).sched.current π = sys.idler π := if_neg hπ
      have hmask : (init sys).mask π = sigfillset := if_neg hπ
      rw [hcur, hmask]
      refine ⟨fun hin => absurd rfl hin, fun _ _ => Or.inr ⟨?_, rfl⟩⟩
      rw [sys.pun_idler]
  · have hidle : sys.idler (sys.pun p) = p := by
      by_contra hne
      have hinit : p = sys.initial := by
        by_contra hno
        apply hp
        exact if_neg (not_or.mpr ⟨hno, hne⟩)
      obtain hcur | hin := hcond
      · apply hcur
        rw [hinit]
        exact if_pos rfl
      · exact hin rfl
    exact ⟨fun hin => absurd rfl hin, fun _ _ => Or.inr ⟨hidle, rfl⟩⟩

end Start

section Results

theorem sigmask_eq_false {σ ρ : Fin U} {i : Interrupt} :
    sigmask σ (.interrupt ρ i) = false ↔ ρ = σ := by
  simp [sigmask]

theorem sigmask_injective : Function.Injective (sigmask (U := U)) := by
  intro σ ρ heq
  have hsame : sigmask ρ (.interrupt σ .timeout) = false := by
    rw [← heq]
    exact sigmask_eq_false.mpr rfl
  exact sigmask_eq_false.mp hsame

/-- Application code executes with the mask of its processor. -/
theorem Right.masks (h : Right sys m) : m.Enabled sys := by
  intro π hexec
  obtain ⟨hne, hexists, hin, hdis⟩ := hexec
  have hdead : (m.sched.live (m.sched.current π)).code ≠ .dead := by
    intro hd
    rw [hd] at hexists
    cases hexists
  have hidle : sys.idler (sys.pun (m.sched.current π)) ≠ m.sched.current π := by
    rw [h.sched.pun π]
    exact Ne.symm hne
  have hmask := (h.current π hdead).eq_sigmask hin hdis hidle
  rw [h.sched.pun π] at hmask
  rw [hmask]
  exact ⟨rfl, fun _ _ => sigmask_eq_false⟩

/-- A child begins with the mask of the processor that built it. -/
theorem Right.child_mask (h : Right sys m) {child : Fin N}
    (hstep : m.step sys (.sched (.build p child)) = some n) :
    n.saved child = sigmask (sys.pun p) := by
  obtain ⟨-, t, ht, rfl⟩ := step_sched hstep
  cases Sched.step_cases ht with
  | build hcode hmay hunborn hpri hpun henqueue =>
      have hdis : (m.sched.live p).disabled = false :=
        not_disabled (by simp [hmay.2.1]) (by simp [hcode])
      rw [← h.runs hmay.1 (by simp [hcode]) hdis hmay.2.2.2]
      exact Function.update_self ..

end Results

end Masks

/-- **Every process executes with its own processor's interrupts enabled, and no
others**, in every run in which the children are placed on the processors of their
parents; and no other child is built with the right mask after such a run. -/
theorem own_interrupts_enabled {N U : Nat} (sys : Procs N U) (acts : List (MaskAct N U))
    (hhome : Along (Masks.step sys) (Masks.AtHome sys) (Masks.init sys) acts) :
    Throughout (Masks.step sys) (Masks.Enabled sys) (Masks.init sys) acts ∧
      ∀ m, exec (Masks.step sys) (Masks.init sys) acts = some m →
        ∀ p child n, m.step sys (.sched (.build p child)) = some n →
          (n.saved child = sigmask (sys.pun child) ↔ sys.pun child = sys.pun p) := by
  have hkeeps : ∀ m a n, Masks.Right sys m → Masks.AtHome sys m a → m.step sys a = some n →
      Masks.Right sys n := fun _ _ _ h hhome hstep => h.step hhome hstep
  constructor
  · exact throughout_of_along hkeeps (fun _ h => h.masks) hhome (Masks.right_init sys)
  · intro m hrun p child n hstep
    have hright := exec_invariant hkeeps hrun hhome (Masks.right_init sys)
    rw [hright.child_mask hstep]
    constructor
    · intro heq
      exact (Masks.sigmask_injective heq).symm
    · intro heq
      rw [heq]

/-- Two processors, the initial process and two idle ones; a child on each
processor. -/
def childOnEach : Procs 5 2 where
  pun := ![0, 0, 1, 0, 1]
  pri := ![INIT_PRI, IDLE_PRI, IDLE_PRI, INIT_PRI, INIT_PRI]
  initial := 0
  idler := ![1, 2]
  pri_initial := rfl
  pun_idler := by decide
  pri_idler := by decide

/-- The child takes the processor of its parent, and is interrupted. -/
theorem own_interrupts_enabled_par :
    let acts : List (MaskAct 5 2) := [.sched (.par 0 .par 1), .sched (.build 0 3),
      .sched (.run 0), .sched (.run 0), .signal 0 0 .timeout, .sched (.handle 0),
      .sched (.handle 0), .sched (.handle 0)]
    (exec (Masks.step childOnEach) (Masks.init childOnEach) acts).any
        (fun m => m.sched.current 0 = 3 ∧ m.mask 0 (.interrupt 0 .timeout) = false) = true ∧
      Throughout (Masks.step childOnEach) (Masks.Enabled childOnEach) (Masks.init childOnEach)
        acts := by
  refine ⟨by decide +kernel, (own_interrupts_enabled childOnEach _ ?_).1⟩
  refine ⟨trivial, fun _ h => ?_⟩
  cases h
  refine ⟨rfl, fun _ h => ?_⟩
  cases h
  refine ⟨trivial, fun _ h => ?_⟩
  cases h
  refine ⟨trivial, fun _ h => ?_⟩
  cases h
  refine ⟨trivial, fun _ h => ?_⟩
  cases h
  refine ⟨trivial, fun _ h => ?_⟩
  cases h
  refine ⟨trivial, fun _ h => ?_⟩
  cases h
  exact ⟨trivial, fun _ _ => trivial⟩

/-- The child on the second processor begins with the mask of the first. -/
theorem placed_child_masked :
    ¬ ∀ acts, Throughout (Masks.step childOnEach) (Masks.Enabled childOnEach)
      (Masks.init childOnEach) acts := by
  intro hall
  have hlast := (hall [.sched (.par 0 .placed_par 1), .sched (.build 0 4), .enable 1,
    .signal 1 1 .interproc, .sched (.handle 1)]).last rfl
  obtain ⟨-, hown⟩ := hlast 1 ⟨by decide, by decide, by decide, by decide⟩
  exact absurd ((hown 0 .timeout).mp (by decide)) (by decide)

end Cxp
