import Cxp.PriorityGuarantees
import Cxp.ProcessStanding
import Cxp.SchedulerGuarantees

/-!
# Nobody is dispatched who has not been woken

A process that is both preempted and scheduled in its window may be queued where
it is queued already, and then has fewer turns than it ought to have: it may
lose its wakeup.  It never has more.  The `Tally` says that there are seats for
all turns that a process has, on its processor and in the queues; every step
keeps it, whatever has happened before (`Tally.step`).  So whoever goes on where
it has given up the processor has been woken (`Tally.resumed`).
-/

namespace Cxp

open Queues

namespace Queues

variable {N U : Nat} {sys : Procs N U} {q q' : Queues N U} {π : Fin U} {proc new x : Fin N}

/-- How often a process is queued. -/
def load (sys : Procs N U) (q : Queues N U) (x : Fin N) : Nat :=
  (if (q.links (sys.pun x)).elem x then 1 else 0) + (q.ipq (sys.pun x)).count x

theorem load_eq (sys : Procs N U) (q : Queues N U) (x : Fin N) :
    load sys q x = (if x ∈ q.links (sys.pun x) then 1 else 0) + (q.ipq (sys.pun x)).count x := by
  simp only [load, List.elem_eq_mem, decide_eq_true_eq]

theorem Chained.load_enqueued (h : Chained sys q) (hq : q.enqueue0 sys proc = some q')
    (x : Fin N) : load sys q' x ≤ load sys q x + if x = proc then 1 else 0 := by
  simp only [load_eq]
  rw [(h.enqueued hq).2.1]
  by_cases hx : x ∈ q'.links (sys.pun x)
  · obtain hmem | ⟨heq, -⟩ := h.mem_enqueued hq hx
    · rw [if_pos hx, if_pos hmem]
      omega
    · rw [if_pos hx, if_pos heq]
      omega
  · rw [if_neg hx]
    omega

theorem Chained.load_added (h : Chained sys q) (hq : q.ipq_add (sys.pun proc) proc = some q')
    (x : Fin N) : load sys q' x = load sys q x + if x = proc then 1 else 0 := by
  obtain ⟨-, -, hlinks, hipq⟩ := h.ipq_add hq
  simp only [load_eq]
  rw [hlinks, hipq]
  by_cases hx : x = proc
  · rw [hx, Function.update_self, List.count_append, if_pos rfl, List.count_singleton_self]
    omega
  · rw [if_neg hx]
    by_cases hπ : sys.pun x = sys.pun proc
    · rw [hπ, Function.update_self, List.count_append,
        List.count_eq_zero_of_not_mem (l := [proc]) (by simpa using hx)]
      omega
    · rw [Function.update_of_ne hπ]
      omega

theorem Chained.load_removed (h : Chained sys q) (hq : q.ipq_remove π = some (proc, q'))
    (x : Fin N) : load sys q' x + (if x = proc then 1 else 0) = load sys q x := by
  obtain ⟨-, -, hlinks, hpun, rest, hipq, hipq'⟩ := h.ipq_remove hq
  simp only [load_eq]
  rw [hlinks, hipq']
  by_cases hπ : sys.pun x = π
  · rw [hπ, Function.update_self, hipq, List.count_cons]
    by_cases hx : x = proc
    · simp [hx, Nat.add_assoc]
    · simp [hx, Ne.symm hx]
  · have hx : x ≠ proc := by
      intro heq
      exact hπ (heq ▸ hpun)
    rw [Function.update_of_ne hπ, if_neg hx]
    omega

/-- Whoever was queued at the processor was so at least once. -/
theorem one_le_load (hx : q.At (sys.pun x) x) : 1 ≤ load sys q x := by
  simp only [load_eq]
  obtain hx | hx := hx
  · rw [if_pos hx]
    omega
  · have hpos := List.count_pos_iff.mpr hx
    omega

theorem Merged.load (h : Merged sys π q q') (x : Fin N) :
    Queues.load sys q' x ≤ Queues.load sys q x := by
  by_cases hπ : sys.pun x = π
  · by_cases hx : x ∈ q'.links (sys.pun x)
    · have hone : 1 ≤ Queues.load sys q x := one_le_load (h.at (Or.inl hx))
      have hemp : (q'.ipq (sys.pun x)).count x = 0 := by
        rw [hπ, h.ipq]
        rfl
      simp only [load_eq] at hone ⊢
      rw [if_pos hx, hemp]
      exact hone
    · simp only [load_eq]
      rw [if_neg hx, hπ, h.ipq]
      exact Nat.zero_le _
  · simp only [load_eq]
    rw [(h.others _ hπ).1, (h.others _ hπ).2]

/-- Who is taken is not queued any more. -/
theorem Taken.load (h : Taken sys π q new q') (x : Fin N) :
    Queues.load sys q' x + (if x = new then 1 else 0) ≤ Queues.load sys q x := by
  by_cases hπ : sys.pun x = π
  · have hemp : (q'.ipq (sys.pun x)).count x = 0 := by
      rw [hπ, h.ipq]
      rfl
    by_cases hx : x = new
    · have hout : x ∉ q'.links (sys.pun x) := by
        intro hmem
        rw [hπ] at hmem
        exact (h.first x hmem).1 hx
      have hone : 1 ≤ Queues.load sys q x :=
        one_le_load (h.at (σ := sys.pun x) (Or.inl ⟨hx, hπ⟩))
      simp only [load_eq] at hone ⊢
      rw [if_neg hout, hemp, if_pos hx]
      exact hone
    · rw [if_neg hx]
      by_cases hmem : x ∈ q'.links (sys.pun x)
      · have hone : 1 ≤ Queues.load sys q x := one_le_load (h.at (Or.inr (Or.inl hmem)))
        simp only [load_eq] at hone ⊢
        rw [if_pos hmem, hemp]
        exact hone
      · simp only [load_eq]
        rw [if_neg hmem, hemp]
        exact Nat.zero_le _
  · have hx : x ≠ new := by
      intro heq
      exact hπ (heq ▸ h.pun)
    simp only [load_eq]
    rw [(h.others _ hπ).1, (h.others _ hπ).2, if_neg hx]
    omega

end Queues

namespace Sched

variable {N U : Nat} {sys : Procs N U} {s t : Sched N U} {π : Fin U} {p proc new x : Fin N}
  {q : Queues N U}

/-- How many turns on its processor a process is in for, a present one included. -/
def turns (sys : Procs N U) (s : Sched N U) (x : Fin N) : Nat :=
  (if s.current (sys.pun x) = x then 1 else 0) + Queues.load sys s.queues x

section Turns

/-- Who is given the processor gains a turn, who had it loses one. -/
theorem turns_handed (hpun : ∀ π, sys.pun (s.current π) = π) (hnew : sys.pun new = π)
    (hcur : t.current = Function.update s.current π new) (x : Fin N) :
    t.turns sys x + (if x = s.current π then 1 else 0) + Queues.load sys s.queues x =
      s.turns sys x + (if x = new then 1 else 0) + Queues.load sys t.queues x := by
  unfold turns
  rw [hcur]
  by_cases hπ : sys.pun x = π
  · rw [hπ, Function.update_self]
    simp only [eq_comm (b := x)]
    omega
  · have hxn : x ≠ new := by
      intro heq
      exact hπ (heq ▸ hnew)
    have hxc : x ≠ s.current π := by
      intro heq
      rw [heq] at hπ
      exact hπ (hpun π)
    rw [Function.update_of_ne hπ, if_neg hxn, if_neg hxc]
    omega

theorem enqueue0_turns (hc : Chained sys s.queues) (hstep : s.enqueue0 sys proc = some t)
    (x : Fin N) : t.turns sys x ≤ s.turns sys x + if x = proc then 1 else 0 := by
  obtain ⟨q', hq, rfl⟩ := Option.map_eq_some_iff.mp hstep
  have hload := hc.load_enqueued hq x
  unfold turns
  dsimp only
  omega

/-- `schedule0` gives a process one turn at most, and nobody else any. -/
theorem schedule0_turns (hc : Chained sys s.queues) (hpun : ∀ π, sys.pun (s.current π) = π)
    (hstep : s.schedule0 sys π proc = some t) (x : Fin N) :
    t.turns sys x ≤ s.turns sys x + if x = proc then 1 else 0 := by
  unfold Sched.schedule0 at hstep
  dsimp only at hstep
  split at hstep
  next hproc =>
    split at hstep
    next => exact enqueue0_turns hc hstep x
    next =>
      simp only [set_current, hproc, if_true, Option.bind_eq_bind, Option.bind_some,
        Option.pure_def] at hstep
      obtain ⟨s₁, hs₁, hstep⟩ := Option.bind_eq_some_iff.mp hstep
      obtain ⟨q', hq, rfl⟩ := Option.map_eq_some_iff.mp hs₁
      obtain rfl := Option.some.inj hstep
      have hload := hc.load_enqueued hq x
      have hhand := turns_handed (t := ({ s with
        current := Function.update s.current π proc, queues := q' } : Sched N U)) hpun hproc rfl x
      change turns sys ({ s with
        current := Function.update s.current π proc, queues := q' } : Sched N U) x ≤ _
      dsimp only at hhand
      omega
  next =>
    obtain ⟨q', hq, rfl⟩ := Option.map_eq_some_iff.mp hstep
    have hload := hc.load_added hq x
    unfold turns
    dsimp only
    omega

/-- A switch to the process taken from the queues. -/
theorem taken_turns (hpun : ∀ π, sys.pun (s.current π) = π) (htaken : Taken sys π s.queues new q)
    (hcur : t.current = Function.update s.current π new) (hq : t.queues = q) (x : Fin N) :
    t.turns sys x + (if x = s.current π then 1 else 0) ≤ s.turns sys x := by
  have hload := htaken.load x
  have hhand := turns_handed hpun htaken.pun hcur x
  rw [hq] at hhand
  omega

theorem schedule_from_interrupt_turns (hc : Chained sys s.queues)
    (hpun : ∀ π, sys.pun (s.current π) = π) (hstep : s.schedule_from_interrupt sys π = some t)
    (x : Fin N) : t.turns sys x ≤ s.turns sys x := by
  unfold Sched.schedule_from_interrupt at hstep
  split at hstep
  next =>
    obtain ⟨⟨new, q₁⟩, htake, hstep⟩ := Option.bind_eq_some_iff.mp hstep
    have htaken := hc.take htake
    simp only [set_current, Sched.enqueue0, Option.bind_eq_bind] at hstep
    obtain ⟨s₁, hs₁, hstep⟩ := Option.bind_eq_some_iff.mp hstep
    obtain ⟨q₂, hq₂, rfl⟩ := Option.map_eq_some_iff.mp hs₁
    rw [if_pos htaken.pun, Option.bind_some] at hstep
    obtain rfl := Option.some.inj hstep
    have hload := htaken.load x
    have hload' := htaken.chained.load_enqueued hq₂ x
    have hhand := turns_handed (t := s.handover q₂ π new) hpun htaken.pun rfl x
    change turns sys (s.handover q₂ π new) x ≤ _
    dsimp only [handover] at hhand ⊢
    omega
  next =>
    obtain rfl := Option.some.inj hstep
    exact le_rfl

theorem relinquish_turns {w : Wait} (hc : Chained sys s.queues)
    (hpun : ∀ π, sys.pun (s.current π) = π) (hp : s.current (sys.pun p) = p)
    (hstep : s.relinquish_unconditional sys p w = some t) (x : Fin N) :
    t.turns sys x + (if x = p then 1 else 0) ≤ s.turns sys x := by
  unfold Sched.relinquish_unconditional at hstep
  obtain ⟨⟨new, q₁⟩, htake, hstep⟩ := Option.bind_eq_some_iff.mp hstep
  have htaken := hc.take htake
  simp only [set_current, Option.bind_eq_bind] at hstep
  rw [if_pos htaken.pun, Option.bind_some] at hstep
  obtain rfl := Option.some.inj hstep
  have hturns := taken_turns hpun htaken (t := s.handover q₁ (sys.pun p) new) rfl rfl x
  rw [hp] at hturns
  exact hturns

theorem finish_termination_turns (hc : Chained sys s.queues)
    (hpun : ∀ π, sys.pun (s.current π) = π) (hp : s.current (sys.pun p) = p)
    (hstep : s.finish_termination sys p = some t) (x : Fin N) :
    t.turns sys x + (if x = p then 1 else 0) ≤ s.turns sys x := by
  unfold Sched.finish_termination at hstep
  obtain ⟨⟨new, q₁⟩, htake, hstep⟩ := Option.bind_eq_some_iff.mp hstep
  have htaken := hc.take htake
  simp only [set_current, Option.bind_eq_bind] at hstep
  rw [if_pos htaken.pun, Option.bind_some] at hstep
  obtain rfl := Option.some.inj hstep
  have hturns := taken_turns hpun htaken (t := s.handover q₁ (sys.pun p) new) rfl rfl x
  rw [hp] at hturns
  exact hturns

theorem yield_turns (hc : Chained sys s.queues) (hpun : ∀ π, sys.pun (s.current π) = π)
    (hp : s.current (sys.pun p) = p) (hstep : s.yield sys p = some t) (x : Fin N) :
    t.turns sys x ≤ s.turns sys x := by
  unfold Sched.yield at hstep
  obtain ⟨⟨new, q₁⟩, htake, hstep⟩ := Option.bind_eq_some_iff.mp hstep
  cases new with
  | none =>
      obtain rfl := Option.some.inj hstep
      have hload := (hc.take1_none htake).1.load x
      unfold turns
      dsimp only
      omega
  | some new =>
      have htaken := (hc.take1_some htake).1
      simp only [set_current, Sched.enqueue0, Option.bind_eq_bind] at hstep
      rw [if_pos htaken.pun, Option.bind_some] at hstep
      obtain ⟨s₁, hs₁, hstep⟩ := Option.bind_eq_some_iff.mp hstep
      obtain ⟨q₂, hq₂, rfl⟩ := Option.map_eq_some_iff.mp hs₁
      obtain rfl := Option.some.inj hstep
      have hload := htaken.load x
      have hload' := htaken.chained.load_enqueued hq₂ x
      have hhand := turns_handed (t := s.handover q₂ (sys.pun p) new) hpun htaken.pun rfl x
      change turns sys (s.handover q₂ (sys.pun p) new) x ≤ _
      rw [hp] at hhand
      dsimp only [handover] at hhand ⊢
      omega

end Turns

/-- There are seats for all turns, and the books are kept. -/
structure Tally (sys : Procs N U) (s : Sched N U) : Prop where
  populated : s.Populated sys
  settled : s.Settled sys
  books : ∃ seat, Books (fun _ => True) seat s ∧ ∀ x, s.turns sys x ≤ seat x

section Moves

theorem turns_congr (hq : t.queues = s.queues) (hc : t.current = s.current) (x : Fin N) :
    t.turns sys x = s.turns sys x := by
  unfold turns
  rw [hq, hc]

/-- Whoever has a processor has a seat. -/
theorem seat_pos {seat : Fin N → Nat} (hbound : ∀ x, s.turns sys x ≤ seat x)
    (hp : s.current (sys.pun p) = p) : 0 < seat p := by
  have hle := hbound p
  unfold turns at hle
  rw [if_pos hp] at hle
  omega

/-- What a process does to itself. -/
theorem Tally.acts (h : Tally sys s) (hpop : t.Populated sys) (hruns : s.Runs sys p)
    (hq : t.queues = s.queues) (hcur : t.current = s.current) (hin : (t.live p).inside = none)
    (hlive : ∀ x, x ≠ p → t.live x = s.live x)
    (hstack : ∀ x, x ≠ p → t.stackptr x = s.stackptr x)
    (hbooks : ∀ seat, Books (fun _ => True) seat s → 0 < seat p →
      Books (fun _ => True) seat t) : Tally sys t := by
  obtain ⟨seat, hb, hbound⟩ := h.books
  refine ⟨hpop, h.settled.of_live hruns hcur hin hlive hstack, seat,
    hbooks seat hb (seat_pos hbound hruns.1), fun x => ?_⟩
  rw [turns_congr hq hcur]
  exact hbound x

/-- A process goes on elsewhere in its code, with other states. -/
theorem Tally.goes {f : Fin N → SchedState} {g : Fin N → AltState} {ch : Fin N → Int}
    {code : Code} (h : Tally sys s) (hruns : s.Runs sys p)
    (hpop : ({ s with sched_state := f, alt_state := g, children := ch }.goto p
      code).Populated sys)
    (hbooks : ∀ seat, Books (fun _ => True) seat s → 0 < seat p → Books (fun _ => True) seat
      ({ s with sched_state := f, alt_state := g, children := ch }.goto p code)) :
    Tally sys ({ s with sched_state := f, alt_state := g, children := ch }.goto p code) :=
  h.acts hpop hruns rfl rfl (inside_goto.trans hruns.2) (fun _ => live_goto_ne)
    (fun _ _ => rfl) hbooks

/-- Nobody moves in its code, and nobody gains a turn. -/
theorem Tally.same (h : Tally sys s) (hpop : t.Populated sys) (hset : t.Settled sys)
    (hsame : Same s t) (hturns : ∀ x, t.turns sys x ≤ s.turns sys x) : Tally sys t := by
  obtain ⟨seat, hb, hbound⟩ := h.books
  exact ⟨hpop, hset, seat, hb.same hsame, fun x => (hturns x).trans (hbound x)⟩

/-- The progress of a handler. -/
theorem Tally.handling (h : Tally sys s) (hin : (s.live p).inside ≠ none)
    (i : Option (Handler N)) (hpop : (s.handling p i).Populated sys) :
    Tally sys (s.handling p i) :=
  h.same hpop (h.settled.handling hin i) (handling_same s p i) fun _ => le_rfl

/-- One more seat for a process. -/
def oneMore (seat : Fin N → Nat) (q : Fin N) : Fin N → Nat :=
  fun x => seat x + if x = q then 1 else 0

/-- One seat less. -/
def oneLess (seat : Fin N → Nat) (q : Fin N) : Fin N → Nat :=
  fun x => seat x - if x = q then 1 else 0

theorem oneLess_add {seat : Fin N → Nat} (hpos : 0 < seat p) (x : Fin N) :
    oneLess seat p x + (if x = p then 1 else 0) = seat x := by
  unfold oneLess
  by_cases hx : x = p
  · rw [if_pos hx, hx]
    omega
  · rw [if_neg hx]
    omega

/-- A process gives up the processor, to wait or for good. -/
theorem Tally.leaves {u : Sched N U} (h : Tally sys s) (hpop : t.Populated sys)
    (hp : s.current (sys.pun p) = p) (hset : t.Settled sys) (hsame : Same u t)
    (hturns : ∀ x, t.turns sys x + (if x = p then 1 else 0) ≤ s.turns sys x)
    (hbooks : ∀ seat seat', Books (fun _ => True) seat s →
      (∀ x, seat' x + (if x = p then 1 else 0) = seat x) → Books (fun _ => True) seat' u) :
    Tally sys t := by
  obtain ⟨seat, hb, hbound⟩ := h.books
  have hadd := oneLess_add (seat_pos hbound hp)
  refine ⟨hpop, hset, oneLess seat p, (hbooks seat _ hb hadd).same hsame, fun x => ?_⟩
  have hx := hturns x
  have hx' := hbound x
  have hx'' := hadd x
  omega

/-- A process gets another turn, and there is a seat for it. -/
theorem Tally.gains {u : Sched N U} {q : Fin N} (h : Tally sys s) (hpop : t.Populated sys)
    (hset : t.Settled sys) (hsame : Same u t)
    (hturns : ∀ x, t.turns sys x ≤ s.turns sys x + if x = q then 1 else 0)
    (hbooks : ∀ seat seat', Books (fun _ => True) seat s →
      (∀ x, seat' x = seat x + if x = q then 1 else 0) → Books (fun _ => True) seat' u) :
    Tally sys t := by
  obtain ⟨seat, hb, hbound⟩ := h.books
  refine ⟨hpop, hset, oneMore seat q, (hbooks seat _ hb fun _ => rfl).same hsame, fun x => ?_⟩
  have hx := hturns x
  have hx' := hbound x
  unfold oneMore
  omega

end Moves

section Steps

/-- A call of `schedule0` is done. -/
theorem Tally.schedules {q : Fin N} (h : Tally sys s) (hpop : t.Populated sys)
    (hruns : s.Runs sys p) (hop : (s.live p).op = .schedule q)
    (hstep : (s.doing p .enable).schedule0 sys (sys.pun p) q = some t) : Tally sys t := by
  obtain ⟨hsame, hset⟩ := (h.settled.doing hruns .enable).schedule0_same hstep
  have hborn := h.populated.born_current hruns.1
  exact h.gains hpop hset hsame
    (schedule0_turns (s := s.doing p .enable) h.populated.chained h.populated.pun hstep)
    fun _ _ hb hseats => hb.schedules hborn hop hseats

theorem Tally.relinquish {w : Wait} (h : Tally sys s) (hpop : t.Populated sys)
    (hruns : s.Runs sys p) (hop : (s.live p).op = .none)
    (hcode : (s.live p).code = .relinquish w)
    (hstep : s.relinquish_unconditional sys p w = some t) : Tally sys t := by
  obtain ⟨new, hhands⟩ := relinquish_switch hruns.1 hstep
  have hset := h.settled.goes_to hruns (.switched w)
  exact h.leaves hpop hruns.1 (hhands.settled hset nofun) (hhands.same hset nofun)
    (relinquish_turns h.populated.chained h.populated.pun hruns.1 hstep)
    fun _ _ hb hseats => hb.relinquish hseats hop hcode

theorem Tally.terminates (h : Tally sys s) (hpop : t.Populated sys) (hruns : s.Runs sys p)
    (hop : (s.live p).op = .none) (hcode : (s.live p).code = .finishing)
    (hstep : s.finish_termination sys p = some t) : Tally sys t := by
  obtain ⟨new, hhands⟩ := finish_termination_switch hstep
  have hset := h.settled.vanishes hruns
  have hold := vanish_saved hruns
  exact h.leaves hpop hruns.1 (hhands.settled hset fun _ => hold)
    (hhands.same hset fun _ => hold)
    (finish_termination_turns h.populated.chained h.populated.pun hruns.1 hstep)
    fun _ _ hb hseats => hb.terminates hseats hop hcode

theorem Tally.yield {test : Code → Bool} (h : Tally sys s) (hpop : t.Populated sys)
    (hmay : s.May sys p test) (hstep : s.yield sys p = some t) : Tally sys t := by
  obtain ⟨hruns, hop, -, -⟩ := hmay
  have hturns := yield_turns h.populated.chained h.populated.pun hruns.1 hstep
  obtain ⟨queues, -, rfl⟩ | ⟨new, queues, -, hhands⟩ := yield_switch hruns.1 hstep
  · exact h.same hpop h.settled (Same.queues s queues) hturns
  · have hset := h.settled.doing hruns .enable
    obtain ⟨seat, hb, hbound⟩ := h.books
    have hd : Books (fun _ => True) seat (s.doing p .enable) :=
      hb.does (by simp) (by simp [hop]) (by simp) (h.populated.born_current hruns.1)
    exact ⟨hpop, hhands.settled hset nofun, seat, hd.same (hhands.same hset nofun),
      fun x => (hturns x).trans (hbound x)⟩

/-- The next step of a process in what it is in. -/
theorem Tally.run (h : Tally sys s) (hpop : t.Populated sys) (hruns : s.Runs sys p)
    (hstep : s.run sys p = some t) : Tally sys t := by
  have hborn : (s.live p).code ≠ .unborn := h.populated.born_current hruns.1
  have hother : ∀ {α : Type} (f : Fin N → α) (a : α) (x : Fin N), x ≠ p →
      Function.update f p a x = f x := fun f a x hx => Function.update_of_ne hx _ _
  have hdoes : ∀ {u : Sched N U} {op : Op N}, u = s.doing p op → u.Populated sys →
      (∀ q, op ≠ .schedule q) → (∀ q, op ≠ .freeWaiting q) →
      (∀ q, (s.live p).op ≠ .schedule q) → Tally sys u := by
    intro u op hu hpop hne hfree hne'
    rw [hu] at hpop ⊢
    exact h.acts hpop hruns rfl rfl (inside_doing.trans hruns.2) (fun _ => live_doing_ne)
      (fun _ _ => rfl) fun seat hb _ => hb.does hne hne' (fun q hq => absurd hq (hfree q)) hborn
  cases run_cases hstep with
  | frees hop halt =>
      exact h.acts hpop hruns rfl rfl (inside_doing.trans hruns.2) (fun _ => live_doing_ne)
        (fun _ _ => rfl) fun seat hb _ => hb.freeWaiting hborn hop halt
  | freed hop halt => exact hdoes rfl hpop (by simp) (by simp) (by simp [hop])
  | schedule hop hschedule => exact h.schedules hpop hruns hop hschedule
  | enable hop => exact hdoes rfl hpop (by simp) (by simp) (by simp [hop])
  | waits hop hcode hstate =>
      refine h.goes hruns hpop fun seat hb _ => ?_
      have hok := hb.state p
      rw [hcode] at hok
      refine hb.goes (g := s.alt_state) hop (hcode ▸ plain_prepared) rfl rfl rfl (by simp)
        (hother _ _) (fun _ _ => rfl) (fun w hw => ?_) ?_
      · cases hw
        simp [met]
      · simpa [StateOk] using hok.2
  | woken hop hcode hstate =>
      refine h.goes hruns hpop fun seat hb _ => ?_
      have hok := hb.state p
      rw [hcode] at hok
      exact hb.goes (f := s.sched_state) (g := s.alt_state) hop (hcode ▸ plain_prepared)
        rfl rfl rfl (by simp) (fun _ _ => rfl) (fun _ _ => rfl) (by simp [Code.awaits]) hok.2
  | altWaits hop hcode halt =>
      refine h.goes hruns hpop fun seat hb _ => ?_
      refine hb.goes (f := s.sched_state) hop (hcode ▸ plain_enabling) rfl rfl rfl (by simp)
        (fun _ _ => rfl) (hother _ _) (fun w hw => ?_) ?_
      · cases hw
        simp [met]
      · simp [StateOk]
  | altReady hop hcode halt =>
      refine h.goes hruns hpop fun seat hb _ => ?_
      have hok := hb.state p
      rw [hcode] at hok
      exact hb.goes (f := s.sched_state) (g := s.alt_state) hop (hcode ▸ plain_enabling)
        rfl rfl rfl (by simp) (fun _ _ => rfl) (fun _ _ => rfl) (by simp [Code.awaits]) hok
  | disabling hop hcode =>
      refine h.goes hruns hpop fun seat hb _ => ?_
      exact hb.goes (f := s.sched_state) hop (hcode ▸ plain_disabling) rfl rfl rfl (by simp)
        (fun _ _ => rfl) (hother _ _) (by simp [Code.awaits]) (by simp [StateOk])
  | parWaits hop hcode hstate =>
      exact h.goes hruns hpop fun seat hb _ => hb.par_waits hop hcode
  | parWoken hop hcode hstate =>
      -- only the parent itself ends its preparation
      obtain ⟨seat, hb, -⟩ := h.books
      have hok := hb.state p
      rw [hcode] at hok
      exact absurd hok.1 hstate
  | relinquish hop hcode hrelinquish => exact h.relinquish hpop hruns hop hcode hrelinquish
  | switched hop hcode =>
      exact h.goes hruns hpop fun seat hb hseat => hb.resumes hseat hop hcode
  | ending hop hcode =>
      apply h.acts hpop hruns rfl rfl (by simp)
      · intro x hx
        exact Function.update_of_ne hx _ _
      · intro x hx
        exact Function.update_of_ne hx _ _
      · intro seat hb _
        exact hb.ends hop hcode
  | finishing hop hcode hfinish => exact h.terminates hpop hruns hop hcode hfinish

/-- A handler frees a process that waits in `After` or `receive`. -/
theorem Tally.freeProcess {q : Fin N} (h : Tally sys s) (hpop : t.Populated sys)
    (hwaits : (s.live q).code.waits = true) (hstep : s.freeProcess sys q = some t) :
    Tally sys t := by
  have hother : ∀ x, x ≠ q → Function.update s.sched_state q .ready x = s.sched_state x :=
    fun x hx => Function.update_of_ne hx _ _
  obtain ⟨seat, hb, hbound⟩ := h.books
  unfold Sched.freeProcess at hstep
  split at hstep
  next hsched =>
    have hrests := enqueue0_rests hstep
    obtain ⟨hw, hw', hok⟩ := sched_wakes (hb.state q) hwaits hsched
    refine h.gains hpop (hrests.settled h.settled) hrests.same
      (enqueue0_turns (s := s.ready q) h.populated.chained hstep) fun _ _ hb hseats => ?_
    refine hb.frees (g := s.alt_state) hother (fun _ _ => rfl) hw hw' ?_ hseats
    rw [Function.update_self]
    exact hok
  next hsched =>
    obtain rfl := Option.some.inj hstep
    obtain ⟨hw, hok⟩ := sched_spares (hb.state q) hwaits hsched
    refine ⟨hpop, h.settled, seat, ?_, hbound⟩
    refine hb.spares (g := s.alt_state) hother (fun _ _ => rfl) hw ?_
    rw [Function.update_self]
    exact hok

/-- A step of a handler. -/
theorem Tally.handle {inside : Handler N} (h : Tally sys s) (hpop : t.Populated sys)
    (hin : s.Inside π inside) (hstep : s.handle sys π (s.current π) inside = some t) :
    Tally sys t := by
  have hin' := hin.ne_none
  cases inside with
  | timeout | user | exit =>
      obtain rfl := Option.some.inj hstep
      exact h.handling hin' _ hpop
  | freeWaiting q =>
      simp only [Sched.handle] at hstep
      split at hstep
      next halt =>
        have hrests := enqueue0_rests hstep
        have hset := h.settled.handling hin' (some .timeout)
        have hsame := handling_same s (s.current π) (some .timeout)
        refine h.gains hpop (hrests.settled hset) hrests.same
          (enqueue0_turns (s := (s.handling (s.current π) (some .timeout)).altReady q)
            h.populated.chained hstep) fun _ _ hb hseats => ?_
        have hb' := hb.same hsame
        obtain ⟨hw, hw', hok⟩ := alt_wakes (hb'.state q) halt
        refine hb'.frees (f := s.sched_state) (fun _ _ => rfl)
          (fun x hx => Function.update_of_ne hx _ _) hw hw' ?_ hseats
        rw [Function.update_self]
        exact hok
      next =>
        obtain rfl := Option.some.inj hstep
        exact h.handling hin' _ hpop
  | interproc =>
      simp only [Sched.handle] at hstep
      split at hstep
      next =>
        obtain rfl := Option.some.inj hstep
        exact h.handling hin' _ hpop
      next proc queues hrem =>
        have hchained : Chained sys queues := (h.populated.chained.ipq_remove hrem).1
        obtain ⟨hsame, hset⟩ :=
          Settled.schedule0_same (s := { s with queues := queues }) h.settled hstep
        refine h.same hpop hset ⟨hsame.code, hsame.op, hsame.sched_state, hsame.alt_state,
          hsame.children, hsame.parent⟩ fun x => ?_
        have hload := h.populated.chained.load_removed hrem x
        have hturns := schedule0_turns (s := { s with queues := queues }) hchained
          h.populated.pun hstep x
        unfold turns at hturns ⊢
        dsimp only at hturns
        omega
  | preempt again =>
      simp only [Sched.handle] at hstep
      have hturns := schedule_from_interrupt_turns (s := s.handling _ _) h.populated.chained
        h.populated.pun hstep
      have hset := h.settled.handling hin' (some (if again then .preempt false else .exit))
      have hsame := handling_same s (s.current π) (some (if again then .preempt false else .exit))
      obtain ⟨-, rfl⟩ | ⟨-, new, hhands⟩ := schedule_from_interrupt_switch hstep
      · exact h.same hpop hset hsame hturns
      · have hold := hset (s.current π) (Or.inr (by simp [Sched.handling]))
        exact h.same hpop (hhands.settled hset fun _ => hold)
          (hsame.trans (hhands.same hset fun _ => hold)) hturns

/-- A child is built and readied. -/
theorem Tally.build {c : Fin N} {kind : ParKind} {nc left : Nat} (h : Tally sys s)
    (hpop : t.Populated sys) (hruns : s.Runs sys p) (hop : (s.live p).op = .none)
    (hcode : (s.live p).code = .par kind nc (left + 1)) (hc : (s.live c).code = .unborn)
    (hstep : ((s.make_process p c).goto p (.par kind nc left)).enqueue sys p c = some t) :
    Tally sys t := by
  have hcp : c ≠ p := by
    intro hcp
    rw [hcp, hcode] at hc
    cases hc
  set u := (s.make_process p c).goto p (.par kind nc left) with hu
  have hset : u.Settled sys := by
    intro x hx
    by_cases hxc : x = c
    · simp [hu, goto, make_process, hxc, hcp]
    · have hxp : x ≠ p := by
        intro hxp
        rw [hxp] at hx
        obtain hx | hx := hx
        · exact hx hruns.1
        · simp [hu, goto, make_process, hcp.symm, hruns.2] at hx
      have hsaved := h.settled x (by simpa [hu, goto, make_process, hxc, hxp] using hx)
      simpa [hu, goto, make_process, hxc, hxp] using hsaved
  have hspec : Rests u t ∧ ∀ x, t.turns sys x ≤ u.turns sys x + if x = c then 1 else 0 := by
    unfold Sched.enqueue at hstep
    split at hstep
    next => exact ⟨enqueue0_rests hstep, enqueue0_turns h.populated.chained hstep⟩
    next hpun =>
      obtain ⟨-, hrests⟩ | ⟨hov, -⟩ := schedule0_switch hstep
      · exact ⟨hrests, schedule0_turns (s := u) h.populated.chained h.populated.pun hstep⟩
      · exact absurd hov.1 hpun
  exact h.gains hpop (hspec.1.settled hset) hspec.1.same hspec.2
    fun _ _ hb hseats => hb.build hcode hop hc hseats

/-- **Every step keeps the tally.** -/
theorem Tally.step {act : SchedAct N U} (h : Tally sys s) (hstep : s.step sys act = some t) :
    Tally sys t := by
  have hpop := (h.populated.step hstep).populated
  have hother : ∀ {α : Type} (f : Fin N → α) (p : Fin N) (a : α) (x : Fin N), x ≠ p →
      Function.update f p a x = f x := fun f p a x hx => Function.update_of_ne hx _ _
  cases step_cases hstep with
  | @prepare p hmay =>
      have hcode := hmay.code_eq
      refine h.goes hmay.1 hpop ?_
      intro seat hb _
      have hstate := hb.state p
      rw [hcode] at hstate
      exact hb.goes (g := s.alt_state) hmay.2.1 (hcode ▸ plain_own) rfl rfl rfl (by simp)
        (hother _ _ _) (fun _ _ => rfl) (by simp [Code.awaits]) ⟨by simp, hstate⟩
  | select hmay =>
      refine h.goes hmay.1 hpop ?_
      intro seat hb _
      exact hb.goes (f := s.sched_state) hmay.2.1 (hmay.code_eq ▸ plain_own) rfl rfl rfl
        (by simp) (fun _ _ => rfl) (hother _ _ _) (by simp [Code.awaits]) (by simp [StateOk])
  | @found p hmay =>
      have hcode := hmay.code_eq
      refine h.goes hmay.1 hpop ?_
      intro seat hb _
      have hstate := hb.state p
      rw [hcode] at hstate
      exact hb.goes (f := s.sched_state) (g := s.alt_state) hmay.2.1 (hcode ▸ plain_enabling)
        rfl rfl rfl (by simp) (fun _ _ => rfl) (fun _ _ => rfl) (by simp [Code.awaits]) hstate
  | par hmay haccepts =>
      exact h.goes hmay.1 hpop fun seat hb _ => Books.par trivial hb hmay.2.1 hmay.code_eq
  | build hcode hmay hunborn hpri hpun henqueue =>
      exact h.build hpop hmay.1 hmay.2.1 hcode hunborn henqueue
  | @wake p q hmay hwaits =>
      obtain ⟨seat, hb, hbound⟩ := h.books
      have hfields : (s.wake p q).queues = s.queues ∧ (s.wake p q).current = s.current := by
        unfold Sched.wake
        split <;> exact ⟨rfl, rfl⟩
      refine ⟨hpop, ?_, seat, hb.wake hmay.2.1 hmay.code_eq hwaits, ?_⟩
      · unfold Sched.wake
        split
        · exact Settled.doing (s := s.ready q) h.settled hmay.1 _
        · exact h.settled
      · intro x
        rw [turns_congr hfields.1 hfields.2]
        exact hbound x
  | @free p q hmay =>
      obtain ⟨seat, hb, hbound⟩ := h.books
      have hfields : (s.free p q).queues = s.queues ∧ (s.free p q).current = s.current := by
        unfold Sched.free
        split <;> exact ⟨rfl, rfl⟩
      refine ⟨hpop, ?_, seat, hb.free hmay.2.1 hmay.code_eq, ?_⟩
      · unfold Sched.free
        split
        · exact h.settled
        · exact h.settled.doing hmay.1 _
        · exact h.settled
      · intro x
        rw [turns_congr hfields.1 hfields.2]
        exact hbound x
  | yield hmay hyield => exact h.yield hpop hmay hyield
  | @sync p r hmay hparent =>
      obtain ⟨hlive, hp, -⟩ := par_barr_sync_fields s p r
      have hfields : (s.par_barr_sync p r).queues = s.queues ∧
          (s.par_barr_sync p r).current = s.current ∧
          (s.par_barr_sync p r).stackptr = s.stackptr := by
        unfold par_barr_sync
        dsimp only
        split <;> exact ⟨rfl, rfl, rfl⟩
      apply h.acts hpop hmay.1 hfields.1 hfields.2.1 _ hlive
      · intro x _
        rw [hfields.2.2]
      · intro seat hb _
        exact hb.sync hmay.code_eq hmay.2.1 hparent
      · rw [hp]
        exact hmay.1.2
  | run hruns hrun => exact h.run hpop hruns hrun
  | @interrupt π i hinside henabled =>
      have hs := handling_same s (s.current π) (some i.handler)
      refine h.same hpop ?_ ⟨hs.code, hs.op, rfl, rfl, rfl, rfl⟩ fun _ => le_rfl
      intro x hx
      by_cases hxc : x = s.current π
      · simp [Sched.handling, hxc]
      · simp only [Sched.handling, Function.update_of_ne hxc] at hx ⊢
        exact h.settled x hx
  | timeout hpun hwaits hinside hfree => exact h.freeProcess hpop hwaits hfree
  | @transmit π q t hpun hwaits hinside hfree =>
      have hpop' : Stepped sys (.freeProcess π q) s (s.handling (s.current π)
          (some (.preempt (s.sched_state q = .waiting)))) :=
        h.populated.handling rfl (by simp) fun _ => ⟨_, rfl, rfl⟩
      refine (h.handling hinside.ne_none _ hpop'.populated).freeProcess hpop ?_ hfree
      rw [(handling_same _ _ _).code]
      exact hwaits
  | @freeAlting π q hpun hinside =>
      obtain ⟨seat, hb, hbound⟩ := h.books
      unfold Sched.freeAlting at hpop ⊢
      cases halt : s.alt_state q with
      | enabling =>
          simp only [halt] at hpop ⊢
          exact ⟨hpop, h.settled, seat, hb.altReady halt, hbound⟩
      | waiting =>
          simp only [halt] at hpop ⊢
          exact h.handling hinside.ne_none _ hpop
      | _ =>
          simp only [halt] at hpop ⊢
          exact h
  | handle hinside hhandle => exact h.handle hpop hinside hhandle

end Steps

section Results

theorem tally_init (sys : Procs N U) : Tally sys (init sys) := by
  refine ⟨populated_init sys, fun _ _ => ⟨rfl, rfl⟩, (init sys).seats sys,
    (ledger_init sys).books, fun x => ?_⟩
  have hcount : ((init sys).queues.ipq (sys.pun x)).count x = 0 := rfl
  unfold turns seats
  simp only [load_eq]
  rw [hcount]
  by_cases hx : x ∈ (init sys).queues.links (sys.pun x)
  · rw [if_pos hx, if_pos (show Queued sys (init sys).queues x from Or.inl hx)]
  · rw [if_neg hx]
    omega

/-- The states that a process has where it stands. -/
theorem Tally.state (h : Tally sys s) (p : Fin N) :
    StateOk (s.live p).code (s.sched_state p) (s.alt_state p) := by
  obtain ⟨seat, hb, -⟩ := h.books
  exact hb.state p

/-- **Whoever goes on where it has given up the processor has been woken**,
however often it has been preempted before. -/
theorem Tally.resumed {w : Wait} (h : Tally sys s) (hp : s.current (sys.pun p) = p)
    (hcode : (s.live p).code = .switched w) : s.met p w = true := by
  obtain ⟨seat, hb, hbound⟩ := h.books
  exact (hb.dispatched (seat_pos hbound hp) hcode).2.2

/-- **A process that waits** in `in`, `out`, `After` or `receive` goes on waiting, and
is woken or not as before; or it has been woken, and has done with it. -/
theorem Tally.run_waits (h : Tally sys s) (hop : (s.live p).op = .none)
    (hwaits : (s.live p).code.waits = true) (hstep : s.step sys (.run p) = some t) :
    (t.live p).op = .none ∧
      ((t.live p).code.waits = true ∧ (t.sched_state p = .ready ↔ s.sched_state p = .ready) ∨
        (t.live p).code = .own ∧ s.sched_state p = .ready) := by
  obtain ⟨hruns, hstep⟩ := Option.ite_none_right_eq_some.mp hstep
  have hok := h.state p
  cases run_cases hstep with
  | waits _ hcode hprep => simp [goto, hop, Code.waits, hprep]
  | woken _ hcode hprep =>
      rw [hcode] at hok
      have hready : s.sched_state p = .ready := by
        cases heq : s.sched_state p with
        | ready => rfl
        | waiting => exact absurd heq hok.1
        | preparingToWait => exact absurd heq hprep
      simp [goto, hop, hready]
  | @relinquish w t _ hcode hrelinquish =>
      rw [hcode] at hwaits
      cases w with
      | sched =>
          obtain ⟨new, hhands⟩ := relinquish_switch hruns.1 hrelinquish
          have hsame := hhands.same (h.settled.goes_to hruns _) (by simp)
          rw [hsame.code, hsame.op, hsame.sched_state]
          simp [goto, hop, Code.waits]
      | alt | par => cases hwaits
  | @switched w _ hcode =>
      rw [hcode] at hwaits
      cases w with
      | sched =>
          have hmet := h.resumed hruns.1 hcode
          refine ⟨by simp [goto, hop], Or.inr ⟨by simp [goto, Wait.after], ?_⟩⟩
          exact of_decide_eq_true hmet
      | alt | par => cases hwaits
  | frees hop' _ | freed hop' _ | schedule hop' _ | enable hop' =>
      rw [hop] at hop'
      cases hop'
  | altWaits _ hcode _ | altReady _ hcode _ | disabling _ hcode | parWaits _ hcode _
  | parWoken _ hcode _ | ending _ hcode | finishing _ hcode _ =>
      rw [hcode] at hwaits
      cases hwaits

end Results

end Sched

end Cxp
