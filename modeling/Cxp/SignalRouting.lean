import Cxp.BootInvariant
import Mathlib.Order.Interval.Finset.Nat

/-!
# Signals reach the processor they are meant for (`hardware.c`)

`NPUN` processors take `4 * NPUN + 1` signal numbers.  As many signals for
applications must there be, and are enough: otherwise a timer cannot be created,
or an interrupt cannot be sent (`boot_survives_iff`).

A signal is taken by the thread of the processor whose interrupt it is, with the
number that the interrupt has there, and only when all processors are
initialised (`signals_routed`), as long as nobody builds a process for another
processor with signals enabled.  The masks are those of `SignalMasks`.
-/

namespace Cxp

open Run Hardware

/-- The handler that `define_interrupt_handlers` defines for the interrupt. -/
def Intr.handler : Intr → IntrHandler
  | .elapsed => .handle_elapsed_time_interrupt
  | .timeout => .handle_timeout_interrupt
  | .interproc => .handle_interprocessor_interrupt
  | .user0 => .handle_user_interrupt 0
  | .user1 => .handle_user_interrupt 1

theorem handle_interrupt_eq (i : Intr) : handle_interrupt i = i.handler := by
  cases i <;> rfl

theorem BootStmt.card_defines {U : Nat} (hU : 0 < U) :
    (Finset.univ.filter fun x : Fin U × Intr => BootStmt.Defines x.1 x.2).card = 4 * U + 1 := by
  have hsplit : (Finset.univ.filter fun x : Fin U × Intr => BootStmt.Defines x.1 x.2) =
      insert (⟨0, hU⟩, .elapsed)
        (Finset.univ ×ˢ ({.timeout, .interproc, .user0, .user1} : Finset Intr)) := by
    ext ⟨π, i⟩
    simp only [Finset.mem_filter, Finset.mem_univ, true_and]
    cases i <;> simp [BootStmt.Defines, Fin.ext_iff]
  have hfour : ({.timeout, .interproc, .user0, .user1} : Finset Intr).card = 4 := rfl
  rw [hsplit, Finset.card_insert_of_notMem (by simp), Finset.card_product, hfour]
  simp [mul_comm]

namespace ProcessorBoot

variable {U : Nat} {rt : RtSignals} {reach : Fin U → Fin U → Prop} {m n : ProcessorBoot U}
  {π ρ : Fin U} {i : Intr}

/-- The program has not come to its end, unless a process sends what is no interrupt
for users. -/
def Survives (m : ProcessorBoot U) : Prop :=
  m.shared.killed = false ∧
    ∀ what, m.shared.plotz = some what → what = "send_interrupt not user interrupt"

/-- A process is built for another processor only while all signals are blocked. -/
def AtHome (m : ProcessorBoot U) : BootAct U → Prop
  | .build_context π ρ => ρ = π ∨ m.shared.mask π = Hardware.blocked
  | _ => True

/-- What the signals that have been taken, and the tables, are. -/
structure Routed (rt : RtSignals) (m : ProcessorBoot U) : Prop where
  /-- taken on the processor they are meant for, and handled as what they are meant to be -/
  handled : ∀ x ∈ m.shared.handled, x.on = x.sent.pun ∧ x.called = x.sent.intr.handler
  /-- and only when all processors are initialised -/
  ready : m.shared.handled ≠ [] → ∀ π, .fetch_sub ∉ m.code π
  /-- where a process runs, all processors have entered all their interrupts -/
  entries : ∀ π, m.Up π → ∀ ρ i, BootStmt.Defines ρ i →
    m.shared.thread_id ρ = some ρ ∧
    m.shared.index (m.shared.signal_no ρ i) < U * Intr.count ∧
    (m.shared.interrupt (m.shared.index (m.shared.signal_no ρ i))).pun = ρ.val ∧
    (m.shared.interrupt (m.shared.index (m.shared.signal_no ρ i))).intr = i
  /-- and its mask blocks those of the others -/
  masks : ∀ π, m.Up π → ∀ ρ i, BootStmt.Defines ρ i →
    rt.Valid (m.shared.signal_no ρ i) = true →
    m.shared.sigmask π (m.shared.signal_no ρ i) = sigmask π (.interrupt ρ i.kind)

section Counting

theorem Inv.numbers (h : Inv rt reach m) (π : Fin U) :
    m.shared.next_signo ≤ rt.SIGRTMIN + (4 * U + 1) := by
  have hU : 0 < U := Nat.zero_lt_of_lt π.isLt
  rw [h.numbered.count, ← BootStmt.card_defines hU]
  apply Nat.add_le_add_left
  apply Finset.card_le_card
  intro x hx
  simp only [Finset.mem_filter, Finset.mem_univ, true_and] at hx ⊢
  obtain ⟨k, hk⟩ := Option.isSome_iff_exists.mp hx
  exact h.numbered.defines _ _ k hk

/-- With enough signals, all numbers given out are those of one. -/
theorem Inv.valid (h : Inv rt reach m) (hsize : 4 * U + 1 ≤ rt.size) {k : Nat}
    (hk : m.shared.signo π i = some k) : rt.Valid k = true := by
  obtain ⟨hlo, hhi⟩ := h.numbered.given π i k hk
  have hnumbers := h.numbers π
  have hpos := rt.positive
  unfold RtSignals.size at hsize
  simp only [RtSignals.Valid, Bool.and_eq_true, decide_eq_true_eq]
  omega

theorem Inv.survives (h : Inv rt reach m) (hsize : 4 * U + 1 ≤ rt.size) : m.Survives := by
  refine ⟨h.killed, fun what hwhat => (h.plotz what hwhat).resolve_right ?_⟩
  intro ⟨π, i, k, hk, hvalid⟩
  rw [h.valid hsize hk] at hvalid
  cases hvalid

/-- If the numbers of all interrupts are those of signals, there are enough. -/
theorem Inv.enough (h : Inv rt reach m) (hU : 0 < U)
    (hall : ∀ π i, BootStmt.Defines π i → ∃ k, m.shared.signo π i = some k ∧ rt.Valid k = true) :
    4 * U + 1 ≤ rt.size := by
  rw [← BootStmt.card_defines hU, RtSignals.size, ← Nat.card_Icc]
  refine Finset.card_le_card_of_injOn (fun x => (m.shared.signo x.1 x.2).getD 0) ?_ ?_
  · intro x hx
    simp only [Finset.coe_filter, Finset.mem_univ, true_and, Set.mem_ofPred_eq] at hx
    obtain ⟨k, hk, hvalid⟩ := hall x.1 x.2 hx
    simp only [RtSignals.Valid, Bool.and_eq_true, decide_eq_true_eq] at hvalid
    have hgiven := h.numbered.given _ _ k hk
    simp only [hk, Option.getD_some, Finset.coe_Icc, Set.mem_Icc]
    exact ⟨hgiven.1, hvalid.2⟩
  · intro x hx y hy heq
    simp only [Finset.coe_filter, Finset.mem_univ, true_and, Set.mem_ofPred_eq] at hx hy
    obtain ⟨k, hk, -⟩ := hall x.1 x.2 hx
    obtain ⟨k', hk', -⟩ := hall y.1 y.2 hy
    simp only [hk, hk', Option.getD_some] at heq
    subst heq
    obtain ⟨hπ, hi⟩ := h.numbered.distinct _ _ _ _ _ hk hk'
    exact Prod.ext hπ hi

end Counting

section Progress

/-- Where it need not wait, a thread executes its statement. -/
theorem executes_some (rt : RtSignals) (π : Fin U) (s : BootStmt U) {hw : Hardware U}
    (hended : hw.ended = false)
    (hbegin : s = .begin → hw.created π = true) (hspin : s = .spin → hw.barrier ≤ 0) :
    ∃ t, execute rt π s hw = some t := by
  cases s with
  | begin => exact ⟨hw, by simp [execute, hended, hbegin rfl]⟩
  | spin => exact ⟨hw, by simp [execute, hended, not_lt.mpr (hspin rfl)]⟩
  | _ =>
      simp only [execute, hended, Bool.false_eq_true, if_false, Option.some.injEq, exists_eq']

/-- Where processor 0 has created the threads, somebody goes on. -/
theorem Inv.live_created (h : Inv rt reach m) (hended : m.shared.ended = false)
    (hcreated : ∀ π, m.shared.created π = true) (hleft : m.code π ≠ []) :
    ∃ ρ n, Threads.run (Hardware.execute rt) m ρ = some n := by
  by_cases hall : ∀ ρ, .fetch_sub ∉ m.code ρ
  · obtain ⟨s, rest, hcode⟩ := List.exists_cons_of_ne_nil hleft
    have hbarrier : m.shared.barrier = 0 := by
      have hawaited : m.awaited .fetch_sub = 0 := by simp [Threads.awaited, hall]
      rw [h.barrier, hawaited]
      rfl
    obtain ⟨t, ht⟩ := executes_some rt _ s hended (fun _ => hcreated π)
      (fun _ => hbarrier.le)
    exact ⟨π, _, Threads.run_eq hcode ht⟩
  · obtain ⟨ρ, hρ⟩ := not_forall_not.mp hall
    obtain ⟨s, rest, hcode⟩ := List.exists_cons_of_ne_nil (List.ne_nil_of_mem hρ)
    have hspin : s ≠ .spin := by
      intro hs
      subst hs
      exact h.executed_head (r := .fetch_sub) hcode trivial (by simp [BootStmt.rank]) hρ
    obtain ⟨t, ht⟩ := executes_some rt _ s hended (fun _ => hcreated ρ)
      (fun hs => absurd hs hspin)
    exact ⟨ρ, _, Threads.run_eq hcode ht⟩

/-- **Nobody waits for ever**: as long as one processor is not initialised, there is one
that goes on. -/
theorem Inv.live (h : Inv rt reach m) (hended : m.shared.ended = false) (hleft : m.code π ≠ []) :
    ∃ ρ n, Threads.run (Hardware.execute rt) m ρ = some n := by
  have hlt := π.isLt
  have hzero : 0 < U := by omega
  have hcreated (hpost : ∀ ρ : Fin U, ρ.val ≠ 0 →
      Post rt ⟨0, hzero⟩ (.pthread_create ρ) m.shared) (ρ : Fin U) :
      m.shared.created ρ = true := by
    by_cases hρ : ρ.val = 0
    · exact h.first ρ hρ
    · exact hpost ρ hρ
  cases hcode : m.code ⟨0, hzero⟩ with
  | nil =>
      refine h.live_created hended (hcreated fun ρ hρ => ?_) hleft
      have hρlt := ρ.isLt
      exact h.post (s := .enable) (by simp [hcode]) ⟨rfl, hρ⟩ trivial
        (by simp only [BootStmt.rank]; omega)
  | cons s rest =>
      by_cases hspin : s = .spin
      · subst hspin
        refine h.live_created hended (hcreated fun ρ hρ => ?_) hleft
        have hρlt := ρ.isLt
        exact h.post_head hcode ⟨rfl, hρ⟩ (by simp only [BootStmt.rank]; omega)
      · obtain ⟨t, ht⟩ := executes_some rt _ s hended (fun _ => h.first ⟨0, hzero⟩ rfl)
          (fun hs => absurd hs hspin)
        exact ⟨_, _, Threads.run_eq hcode ht⟩

/-- A statement ends the program only where a timer cannot be created. -/
theorem Inv.plotz_run (h : Inv rt reach m) (hrun : Threads.run (Hardware.execute rt) m π = some n) :
    m.shared.plotz = none ∧
      (n.shared.plotz = none ∨ n.shared.plotz = some "init_timer timer_create") := by
  obtain ⟨s, rest, t, hcode, hexec, rfl⟩ := Threads.run_cases hrun
  obtain ⟨hended, hexec⟩ := h.execute hcode hexec
  have hplotz : m.shared.plotz = none := by simp_all [ended]
  refine ⟨hplotz, ?_⟩
  cases hexec with
  | init_timer_fails => exact Or.inr rfl
  | _ => exact Or.inl hplotz

theorem ended_of (hkilled : m.shared.killed = false) (hplotz : m.shared.plotz = none) :
    m.shared.ended = false := by
  simp [ended, hkilled, hplotz]

/-- **The initialisation comes to its end** where none of its statements ends the program. -/
theorem completes {P : ProcessorBoot U → Prop} (hreach : ∀ π, reach π π)
    (hsurvives : ∀ m, P m → m.Survives)
    (hP : ∀ m π n, P m → Threads.run (Hardware.execute rt) m π = some n → P n)
    (h : Inv rt reach m) (hm : P m) (hplotz : m.shared.plotz = none) :
    ∃ πs, ∃ n : ProcessorBoot U, exec (Threads.run (Hardware.execute rt)) m πs = some n ∧
      (Inv rt reach n ∧ P n ∧ n.shared.plotz = none) ∧ ∀ π, n.Up π := by
  refine Threads.completes (I := fun m => Inv rt reach m ∧ P m ∧ m.shared.plotz = none) ?_
    ⟨h, hm, hplotz⟩
  intro m ⟨h, hm, hplotz⟩ ⟨π, hleft⟩
  obtain ⟨ρ, n, hrun⟩ := h.live (ended_of h.killed hplotz) hleft
  obtain ⟨s, rest, t, hcode, hexec, rfl⟩ := Threads.run_cases hrun
  refine ⟨ρ, _, hrun, h.statement (hreach ρ) hcode hexec, hP m ρ _ hm hrun, ?_⟩
  obtain ⟨-, hnone | hsome⟩ := h.plotz_run hrun
  · exact hnone
  · have hwhat := (hsurvives _ (hP m ρ _ hm hrun)).2 _ hsome
    exact absurd hwhat (by decide)

theorem exec_run (m : ProcessorBoot U) (πs : List (Fin U)) :
    exec (ProcessorBoot.step rt) m (πs.map .run) =
      exec (Threads.run (Hardware.execute rt)) m πs := by
  induction πs generalizing m with
  | nil => rfl
  | cons π πs ih => simp [exec, ProcessorBoot.step, ih]

end Progress

section Results

theorem Inv.steps (h : Inv rt (fun _ _ => True) m) {act : BootAct U}
    (hstep : ProcessorBoot.step rt m act = some n) : Inv rt (fun _ _ => True) n := by
  refine h.step (fun _ => trivial) ?_ hstep
  cases act with
  | build_context π ρ => exact Or.inl fun _ _ => trivial
  | _ => trivial

/-- Where nothing ends the program, the numbers of all interrupts are those of signals. -/
theorem valid_of_survives
    (hsurvives : ∀ acts, Throughout (ProcessorBoot.step rt) Survives m acts)
    (h : Inv rt reach m) (hplotz : m.shared.plotz = none) (hup : ∀ π, m.Up π)
    (hi : BootStmt.Defines π i) : ∃ k, m.shared.signo π i = some k ∧ rt.Valid k = true := by
  have hended := ended_of h.killed hplotz
  have hdefined := h.defined (hup π).enabled hi
  refine ⟨_, hdefined.1, ?_⟩
  have htimer (t : TimerType) (ht : t.intr = i) : rt.Valid (m.shared.signal_no π i) = true := by
    subst ht
    have hpost := h.established (r := .init_timer t) (hup π).enabled hi
      (by cases t <;> simp only [BootStmt.rank, TimerType.intr, Intr.number] <;> omega)
    obtain ⟨k, hk⟩ := Option.isSome_iff_exists.mp (hpost.resolve_left fun hne => hne hplotz)
    obtain ⟨hsigno, hvalid⟩ := h.timer π t k hk
    rw [hdefined.1] at hsigno
    rwa [Option.some.inj hsigno]
  have hkill (act : BootAct U) (e : Sent U) (what : String)
      (hwhat : what ≠ "send_interrupt not user interrupt")
      (hact : ProcessorBoot.step rt m act = some (m.withShared (m.shared.pthread_kill rt e what))) :
      rt.Valid e.signo = true := by
    by_contra hvalid
    have hn := (hsurvives [act]).2 _ hact
    have hplotz' := hn.2 what (by simp [Hardware.pthread_kill, hvalid, withShared, plotzWith])
    exact hwhat hplotz'
  cases i with
  | elapsed => exact htimer .elapsed rfl
  | timeout => exact htimer .timeout rfl
  | interproc =>
      have hthread : m.shared.thread_id π = some π :=
        h.established (r := .thread_id) (hup π).enabled trivial (by simp [BootStmt.rank])
      apply hkill (.send_interprocessor_interrupt π π) ⟨some π, _, π, .interproc⟩
        "send_interprocessor_interrupt pthread_kill" (by decide)
      simp [ProcessorBoot.step, process, hup π, hended, Hardware.send_interprocessor_interrupt,
        hthread]
  | user0 =>
      apply hkill (.send_interrupt π .user0) ⟨some π, _, π, .user0⟩
        "send interrupt pthread_kill" (by decide)
      simp [ProcessorBoot.step, process, hup π, hended, Hardware.send_interrupt,
        h.getcpu_eq (hup π).enabled]
  | user1 =>
      apply hkill (.send_interrupt π .user1) ⟨some π, _, π, .user1⟩
        "send interrupt pthread_kill" (by decide)
      simp [ProcessorBoot.step, process, hup π, hended, Hardware.send_interrupt,
        h.getcpu_eq (hup π).enabled, Intr.number]

/-- With masks that pass no signals but the processor's own, all is routed. -/
theorem Inv.routed (h : Inv rt (fun π ρ => ρ = π) m) : m.Routed rt where
  handled x hx := by
    obtain ⟨hcalled, hon⟩ := h.handled x hx
    exact ⟨hon.symm, hcalled.trans (handle_interrupt_eq _)⟩
  ready := h.ready
  entries π hup ρ i hi := by
    obtain ⟨hsigno, hintr, hpun, -⟩ := h.defined hup.enabled hi
    refine ⟨h.established (r := .thread_id) hup.enabled trivial (by simp [BootStmt.rank]), ?_, hpun,
      hintr⟩
    have hgiven := h.numbered.given ρ i _ hsigno
    have hnumbers := h.numbers π
    have hlt := π.isLt
    simp only [index, h.numbered.base, Intr.count]
    omega
  masks π hup ρ i hi hvalid := by
    obtain ⟨hsigno, -⟩ := h.defined hup.enabled hi
    by_cases hρ : ρ = π
    · subst hρ
      simpa [sigmask] using ((h.defined hup.enabled hi).2.2.2 hvalid).2
    · have hgiven := h.numbered.given ρ i _ hsigno
      have hblocked : m.shared.sigmask π (m.shared.signal_no ρ i) = true := by
        by_contra hpass
        simp only [RtSignals.Valid, Bool.and_eq_true, decide_eq_true_eq] at hvalid
        obtain ⟨j, hj⟩ := h.established (r := .sigaddset) hup.enabled trivial
          (by simp [BootStmt.rank]) _ hgiven.1 hvalid.2 (by simpa using hpass)
        exact hρ (h.numbered.distinct _ _ _ _ _ hsigno hj).1
      simp [hblocked, sigmask, hρ]

end Results

end ProcessorBoot

open ProcessorBoot

/-- The signals that there usually are. -/
def usualSignals : RtSignals := ⟨34, 64, by decide⟩

/-- **Every signal is taken where, when and as what it should be**, in every order of the
statements of the processors, if processes are built at home. -/
theorem signals_routed (rt : RtSignals) {U : Nat} (acts : List (BootAct U))
    (hC : Along (ProcessorBoot.step rt) AtHome (ProcessorBoot.init rt U) acts) :
    Throughout (ProcessorBoot.step rt) (Routed rt) (ProcessorBoot.init rt U) acts := by
  refine throughout_of_along (I := Inv rt fun π ρ => ρ = π) ?_ (fun _ h => h.routed) hC
    (inv_init rt _)
  intro m act n h hC hstep
  refine h.step (fun _ => rfl) ?_ hstep
  cases act with
  | build_context π ρ => exact hC.imp_left fun hρ τ hτ => hτ.trans hρ.symm
  | _ => trivial

/-- Processor 1 is the first to run a process, which sends an interrupt to processor 0. -/
def interruptAtOnce : List (BootAct 2) :=
  List.replicate 42 (.run 0) ++ List.replicate 34 (.run 1) ++
    [.send_interprocessor_interrupt 1 0, .run 0, .run 0, .deliver 0 ⟨some 0, 36, 0, .interproc⟩]

theorem signals_routed_pair :
    ∃ m : ProcessorBoot 2, m.Routed usualSignals ∧
      decide (m.shared.handled.map (fun x => (x.on, x.called)) =
        [(0, IntrHandler.handle_interprocessor_interrupt)]) = true := by
  have hhome : Along (ProcessorBoot.step usualSignals) AtHome
      (ProcessorBoot.init usualSignals 2) interruptAtOnce := by
    refine along_of_forall fun m act hact => ?_
    simp only [interruptAtOnce, List.mem_append, List.mem_replicate, List.mem_cons,
      List.not_mem_nil, or_false] at hact
    obtain (⟨-, rfl⟩ | ⟨-, rfl⟩) | rfl | rfl | rfl | rfl := hact <;> trivial
  exact (signals_routed usualSignals interruptAtOnce hhome).last_any (by decide +kernel)

end Cxp
