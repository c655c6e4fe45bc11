import Cxp.SchedulerLedger

/-!
# The books are kept

A process is in its *window* from when it has marked itself as waiting (a
parent: from when it prepares to wait) until it disables interrupts to give up
the processor.  In the window it can be preempted, which queues it, and it can
be scheduled, which queues it as well.  As long as nobody in its window has both
done to it (`Orderly`), every step keeps the books (`Ledger.step`).
-/

namespace Cxp

open Queues

/-- Marked as waiting, interrupts still enabled. -/
def Code.window : Code → Bool
  | .par _ _ _ | .relinquish _ => true
  | _ => false

namespace Sched

variable {N U : Nat}

/-- The next step of the handler gives the processor to another process. -/
def Preempts (sys : Procs N U) (s : Sched N U) (π : Fin U) : Prop :=
  ((∃ again, s.Inside π (.preempt again)) ∧ s.outranked sys π = true) ∨
    (s.Inside π .interproc ∧ ∃ proc rest, s.queues.ipq π = proc :: rest ∧
      pri_le (sys.pri proc) (sys.pri (s.current π)) = false)

/-- The process, if it is in its window, has not been preempted there. -/
def Undisturbed (sys : Procs N U) (s : Sched N U) (q : Fin N) : Prop :=
  (s.live q).code.window = true → s.current (sys.pun q) = q

/-- The process, if it is in its window, has not been scheduled there: what it
waits for has not come about, or whoever is to schedule it has not yet. -/
def Unscheduled (s : Sched N U) (q : Fin N) : Prop :=
  (s.live q).code.window = true → s.woken q = 1 → 0 < s.calls q

/-- Who is scheduled has not been preempted in its window, and who is preempted
by a handler has not been scheduled in its window. -/
def Orderly (sys : Procs N U) (s : Sched N U) : SchedAct N U → Prop
  | .run p => ∀ q, (s.live p).op = .schedule q → s.Undisturbed sys q
  | .freeProcess _ q => s.sched_state q = .waiting → s.Undisturbed sys q
  | .handle π =>
      (∀ q, s.Inside π (.freeWaiting q) → s.alt_state q = .waiting → s.Undisturbed sys q) ∧
        (s.Preempts sys π → s.Unscheduled (s.current π))
  | _ => True

/-- The scheduler is in order, and the seats are those that the books say. -/
structure Ledger (size : Nat → Prop) (sys : Procs N U) (s : Sched N U) : Prop where
  sound : Sound sys s
  books : Books size (s.seats sys) s

variable {sys : Procs N U} {s t : Sched N U} {p q u : Fin N} {π : Fin U}
  {size : Nat → Prop} {seat seat' : Fin N → Nat}

theorem live_goto_ne {x : Fin N} {code : Code} (hx : x ≠ p) :
    (s.goto p code).live x = s.live x :=
  Function.update_of_ne hx _ _

theorem inside_goto {code : Code} : ((s.goto p code).live p).inside = (s.live p).inside := by
  simp [goto]

theorem live_goto {code : Code} :
    (s.goto p code).live p = ⟨code, (s.live p).op, (s.live p).inside⟩ :=
  Function.update_self ..

theorem live_doing_ne {x : Fin N} {op : Op N} (hx : x ≠ p) :
    (s.doing p op).live x = s.live x :=
  Function.update_of_ne hx _ _

theorem inside_doing {op : Op N} : ((s.doing p op).live p).inside = (s.live p).inside := by
  simp [doing]

theorem base_le (code : Code) : code.base ≤ 1 := by
  unfold Code.base
  split <;> omega

theorem awaits_of_woken (h : s.woken p = 1) : (s.live p).code.awaits ≠ none := by
  intro hnone
  simp [woken, hnone] at h

/-- Where a process waits, it is in its window or has given up the processor. -/
theorem window_of_awaits {code : Code} (h : code.awaits ≠ none) (hb : code.base ≠ 0) :
    code.window = true := by
  cases code <;> simp_all [Code.awaits, Code.base, Code.window]

/-- Who has the processor and is owed nothing is not queued. -/
theorem Ledger.not_queued (h : Ledger size sys s) (hcur : s.current (sys.pun p) = p)
    (hw : s.woken p = 1 → 0 < s.calls p) : ¬Queued sys s.queues p := by
  apply Sched.not_queued hcur
  have hbal := h.books.balanced p
  have hbase := base_le (s.live p).code
  have hle := woken_le s p
  by_cases hone : s.woken p = 1
  · have hpos := hw hone
    omega
  · omega

theorem Ledger.not_queued_of_awaits (h : Ledger size sys s) (hcur : s.current (sys.pun p) = p)
    (hw : (s.live p).code.awaits = none) : ¬Queued sys s.queues p :=
  h.not_queued hcur fun hone => absurd hw (awaits_of_woken hone)

/-- A process that is owed no seat beside the one it may have on its processor is
not queued. -/
theorem not_queued_of_undisturbed (hq : s.Undisturbed sys q) (hwait : (s.live q).code.awaits ≠ none)
    (hbal : s.seats sys q = (s.live q).code.base) : ¬Queued sys s.queues q := by
  by_cases hb : (s.live q).code.base = 0
  · intro hqueued
    simp [seats, hqueued] at hbal
    omega
  · apply Sched.not_queued (hq (window_of_awaits hwait hb))
    have hbase := base_le (s.live q).code
    omega

/-- Who is preempted by a handler is not queued. -/
theorem Ledger.not_queued_of_unscheduled (h : Ledger size sys s)
    (hcur : s.current (sys.pun p) = p) (hp : s.Unscheduled p) : ¬Queued sys s.queues p := by
  by_cases hwait : (s.live p).code.awaits = none
  · exact h.not_queued_of_awaits hcur hwait
  by_cases hb : (s.live p).code.base = 0
  · apply Sched.not_queued hcur
    have hbal := h.books.balanced p
    have hle := woken_le s p
    omega
  · exact h.not_queued hcur (hp (window_of_awaits hwait hb))

/-- Who is about to be scheduled is owed a seat. -/
theorem Ledger.called (h : Ledger size sys s) (hop : (s.live u).op = .schedule q) :
    s.woken q = 1 ∧ s.calls q = 1 ∧ s.seats sys q = (s.live q).code.base := by
  have hpos : 0 < s.calls q := Finset.card_pos.mpr ⟨u, by simp [hop]⟩
  have howed := h.books.owed q
  have hle := woken_le s q
  have hbal := h.books.balanced q
  omega

section Moves

/-- Other functions of the state, and the same queues. -/
theorem seats_congr (hq : t.queues = s.queues) (hc : t.current = s.current) :
    t.seats sys = s.seats sys := by
  funext x
  simp only [seats, hq, hc]

/-- A code position of a process that neither waits nor has a family, and has
not come to its end. -/
structure Plain (code : Code) : Prop where
  awaits : code.awaits = none
  base : code.base = 1
  family : code.family = none
  synced : code.synced = false

theorem plain_own : Plain .own := ⟨rfl, rfl, rfl, rfl⟩
theorem plain_prepared : Plain .prepared := ⟨rfl, rfl, rfl, rfl⟩
theorem plain_enabling : Plain .enabling := ⟨rfl, rfl, rfl, rfl⟩
theorem plain_disabling : Plain .disabling := ⟨rfl, rfl, rfl, rfl⟩

/-- The context of a process changes, and its states. -/
theorem acts_of_live {c : Context N} (hlive : t.live = Function.update s.live p c)
    (hf : ∀ x, x ≠ p → t.sched_state x = s.sched_state x)
    (hg : ∀ x, x ≠ p → t.alt_state x = s.alt_state x)
    (hch : ∀ x, x ≠ p → t.children x = s.children x) (hparent : t.parent = s.parent)
    (hop : ∀ q, c.op ≠ .schedule q) (hop' : ∀ q, (s.live p).op ≠ .schedule q)
    (hsync : c.code.synced = (s.live p).code.synced) (hborn : c.code ≠ .unborn)
    (hwait : ∀ q, c.op = .freeWaiting q → c.code.awaits = none) : Acts s t p := by
  have hp : t.live p = c := by rw [hlive, Function.update_self]
  refine ⟨?_, hf, hg, hch, hparent, ?_, hop', ?_, ?_, ?_⟩
  · intro x hx
    rw [hlive, Function.update_of_ne hx]
  · rw [hp]
    exact hop
  · rw [hp]
    exact hsync
  · rw [hp]
    exact hborn
  · rw [hp]
    exact hwait

/-- A process that does nothing about another one goes on elsewhere in its code. -/
theorem acts_goto {f : Fin N → SchedState} {g : Fin N → AltState} {ch : Fin N → Int}
    {code' : Code} (hop : (s.live p).op = .none)
    (hf : ∀ x, x ≠ p → f x = s.sched_state x) (hg : ∀ x, x ≠ p → g x = s.alt_state x)
    (hch : ∀ x, x ≠ p → ch x = s.children x)
    (hsync : code'.synced = (s.live p).code.synced) (hborn : code' ≠ .unborn) :
    Acts s ({ s with sched_state := f, alt_state := g, children := ch }.goto p code') p :=
  acts_of_live rfl hf hg hch rfl (by simp [hop]) (by simp [hop]) hsync hborn (by simp [hop])

theorem Ledger.moves {f : Fin N → SchedState} {g : Fin N → AltState} {ch : Fin N → Int}
    {code' : Code} (h : Ledger size sys s) (hruns : s.Runs sys p)
    (hbooks : Books size (s.seats sys)
      ({ s with sched_state := f, alt_state := g, children := ch }.goto p code')) :
    Ledger size sys ({ s with sched_state := f, alt_state := g, children := ch }.goto p code') :=
  ⟨h.sound.of_live rfl rfl hruns (inside_goto.trans hruns.2) (fun _ => live_goto_ne)
    fun _ _ => rfl, hbooks⟩

/-- A process goes on in its code, with another state. -/
theorem Books.goes {code' : Code} {f : Fin N → SchedState} {g : Fin N → AltState}
    (h : Books size seat s) (hop : (s.live p).op = .none)
    (hplain : Plain (s.live p).code) (hbase : code'.base = 1) (hfam : code'.family = none)
    (hsync : code'.synced = false) (hborn : code' ≠ .unborn)
    (hf : ∀ x, x ≠ p → f x = s.sched_state x) (hg : ∀ x, x ≠ p → g x = s.alt_state x)
    (hw : ∀ w, code'.awaits = some w →
      ({ s with sched_state := f, alt_state := g }.met p w) = false)
    (hstate : StateOk code' (f p) (g p)) :
    Books size seat ({ s with sched_state := f, alt_state := g }.goto p code') := by
  set t := { s with sched_state := f, alt_state := g }.goto p code' with ht
  have hp : t.live p = ⟨code', (s.live p).op, (s.live p).inside⟩ := live_goto
  have ha : Acts s t p :=
    acts_goto hop hf hg (fun _ _ => rfl) (hsync.trans hplain.synced.symm) hborn
  have hws : s.woken p = 0 := woken_none hplain.awaits
  have hwt : t.woken p = 0 := by
    unfold woken
    rw [hp]
    cases haw : code'.awaits with
    | none => rfl
    | some w =>
        have hnot := hw w haw
        change (if met t p w = true then 1 else 0) = 0
        rw [if_neg]
        rw [← Bool.not_eq_true] at hnot
        cases w <;> exact hnot
  refine h.acts ha (fun _ _ => rfl) ?_ ?_ ?_ ?_
  · rw [hws, hwt, hp, hplain.base]
    rw [hbase]
  · have howed := h.owed p
    omega
  · rw [hp]
    exact hstate
  · intro hs hu
    unfold FamilyOk at hs ⊢
    rw [hplain.family] at hs
    rw [hp, hfam, hu]
    exact hs

theorem Ledger.goes {code' : Code} {f : Fin N → SchedState} {g : Fin N → AltState}
    (h : Ledger size sys s) (hruns : s.Runs sys p) (hop : (s.live p).op = .none)
    (hplain : Plain (s.live p).code) (hbase : code'.base = 1) (hfam : code'.family = none)
    (hsync : code'.synced = false) (hborn : code' ≠ .unborn)
    (hf : ∀ x, x ≠ p → f x = s.sched_state x) (hg : ∀ x, x ≠ p → g x = s.alt_state x)
    (hw : ∀ w, code'.awaits = some w →
      ({ s with sched_state := f, alt_state := g }.met p w) = false)
    (hstate : StateOk code' (f p) (g p)) :
    Ledger size sys ({ s with sched_state := f, alt_state := g }.goto p code') :=
  h.moves hruns (h.books.goes hop hplain hbase hfam hsync hborn hf hg hw hstate)

/-- A process that goes on with another process does not change itself. -/
theorem Books.does {op : Op N} (h : Books size seat s) (hop : ∀ q, op ≠ .schedule q)
    (hop' : ∀ q, (s.live p).op ≠ .schedule q)
    (hwait : ∀ q, op = .freeWaiting q → (s.live p).code.awaits = none)
    (hborn : (s.live p).code ≠ .unborn) : Books size seat (s.doing p op) := by
  have hp : (s.doing p op).live p = ⟨(s.live p).code, op, (s.live p).inside⟩ := by
    simp [doing]
  have ha : Acts s (s.doing p op) p :=
    acts_of_live rfl (fun _ _ => rfl) (fun _ _ => rfl) (fun _ _ => rfl) rfl hop hop' rfl hborn
      hwait
  have hw : (s.doing p op).woken p = s.woken p := woken_congr (by rw [hp]) rfl rfl rfl
  refine h.acts ha (fun _ _ => rfl) ?_ ?_ ?_ ?_
  · rw [hw, hp]
  · rw [hw]
    exact h.owed p
  · rw [hp]
    exact h.state p
  · intro hs hu
    exact hs.congr (by rw [hp]) rfl hu

theorem Ledger.does {op : Op N} (h : Ledger size sys s) (hruns : s.Runs sys p)
    (hop : ∀ q, op ≠ .schedule q) (hop' : ∀ q, (s.live p).op ≠ .schedule q)
    (hwait : ∀ q, op = .freeWaiting q → (s.live p).code.awaits = none)
    (hborn : (s.live p).code ≠ .unborn) : Ledger size sys (s.doing p op) :=
  ⟨h.sound.of_live rfl rfl hruns (inside_doing.trans hruns.2) (fun _ => live_doing_ne)
      fun _ _ => rfl,
    h.books.does hop hop' hwait hborn⟩

theorem seats_pos (hcur : s.current (sys.pun p) = p) : 0 < s.seats sys p := by
  unfold seats
  rw [if_pos hcur]
  omega

/-- Nobody who runs is unborn or dead. -/
theorem Ledger.alive (h : Ledger size sys s) (hcur : s.current (sys.pun p) = p) :
    0 < (s.live p).code.base + s.woken p := by
  have hbal := h.books.balanced p
  have hpos := seats_pos hcur
  omega

theorem Ledger.born (h : Ledger size sys s) (hcur : s.current (sys.pun p) = p) :
    (s.live p).code ≠ .unborn := by
  intro hcode
  have hpos := h.alive hcur
  rw [woken_none (by rw [hcode]; rfl), hcode] at hpos
  exact absurd hpos (by decide)

end Moves

section Steps

/-- The construct begins: as many children are to be built as are to sync. -/
theorem Books.par {kind : ParKind} {nc : Nat} (hsize : size nc) (h : Books size seat s)
    (hop : (s.live p).op = .none) (hcode : (s.live p).code = .own) :
    Books size seat (s.par p kind nc) := by
  have hp : (s.par p kind nc).live p = ⟨.par kind nc nc, (s.live p).op, (s.live p).inside⟩ :=
    live_goto
  have hch : (s.par p kind nc).children p = nc := by simp [Sched.par, Sched.goto]
  have ha : Acts s (s.par p kind nc) p :=
    acts_goto hop (fun _ hx => Function.update_of_ne hx _ _) (fun _ _ => rfl)
      (fun _ hx => Function.update_of_ne hx _ _) (by rw [hcode]; rfl) (by simp)
  have hws : s.woken p = 0 := woken_none (by rw [hcode]; rfl)
  have hwt : (s.par p kind nc).woken p = 0 := by
    rw [woken_par nc (by rw [hp]; rfl), hch, if_neg]
    omega
  refine h.acts ha (fun _ _ => rfl) ?_ ?_ ?_ ?_
  · rw [hws, hwt, hp, hcode]
    rfl
  · have howed := h.owed p
    omega
  · have hstate := h.state p
    rw [hcode] at hstate
    rw [hp]
    exact ⟨by simp [Sched.par, Sched.goto], hstate⟩
  · intro hs hu
    unfold FamilyOk at hs ⊢
    rw [hcode] at hs
    rw [hp, hu, hch]
    simp only [Code.family] at hs ⊢
    refine ⟨hsize, ?_, ?_⟩ <;> omega

theorem Ledger.par {kind : ParKind} {nc : Nat} (hsize : size nc) (h : Ledger size sys s)
    (hruns : s.Runs sys p) (hop : (s.live p).op = .none) (hcode : (s.live p).code = .own) :
    Ledger size sys (s.par p kind nc) :=
  h.moves hruns (Books.par hsize h.books hop hcode)

/-- All children built, the parent marks itself as waiting. -/
theorem Books.par_waits {kind : ParKind} {nc : Nat} (h : Books size seat s)
    (hop : (s.live p).op = .none)
    (hcode : (s.live p).code = .par kind nc 0) :
    Books size seat ({ s with sched_state := Function.update s.sched_state p .waiting }.goto p
      (.relinquish (.par nc))) := by
  set t := { s with sched_state := Function.update s.sched_state p .waiting }.goto p
    (.relinquish (.par nc)) with ht
  have hp : t.live p = ⟨.relinquish (.par nc), (s.live p).op, (s.live p).inside⟩ := live_goto
  have ha : Acts s t p :=
    acts_goto hop (fun _ hx => Function.update_of_ne hx _ _) (fun _ _ => rfl) (fun _ _ => rfl)
      (by rw [hcode]; rfl) (by simp)
  have hw : t.woken p = s.woken p := by
    rw [woken_par nc (by rw [hp]; rfl), woken_par nc (by rw [hcode]; rfl)]
    rfl
  have hstate := h.state p
  rw [hcode] at hstate
  refine h.acts ha (fun _ _ => rfl) ?_ ?_ ?_ ?_
  · rw [hw, hp, hcode]
    rfl
  · rw [hw]
    exact h.owed p
  · rw [hp]
    exact hstate.2
  · intro hs hu
    exact hs.congr (by rw [hp, hcode]; rfl) rfl hu

theorem Ledger.par_waits {kind : ParKind} {nc : Nat} (h : Ledger size sys s)
    (hruns : s.Runs sys p) (hop : (s.live p).op = .none)
    (hcode : (s.live p).code = .par kind nc 0) :
    Ledger size sys ({ s with sched_state := Function.update s.sched_state p .waiting }.goto p
      (.relinquish (.par nc))) :=
  h.moves hruns (h.books.par_waits hop hcode)

/-- Whoever has a seat where it has given up the processor has been woken, and
the seat is the one that it is owed. -/
theorem Books.dispatched {w : Wait} (h : Books size seat s) (hseat : 0 < seat p)
    (hcode : (s.live p).code = .switched w) :
    s.woken p = 1 ∧ s.calls p = 0 ∧ s.met p w = true := by
  have hbal := h.balanced p
  have hle := woken_le s p
  rw [hcode] at hbal
  simp only [Code.base] at hbal
  have hwoken : s.woken p = 1 := by omega
  refine ⟨hwoken, by omega, ?_⟩
  by_contra hmet
  simp [woken, hcode, Code.awaits, hmet] at hwoken

/-- A process that has been dispatched where it gave up the processor has been
woken, and goes on. -/
theorem Books.resumes {w : Wait} (h : Books size seat s) (hseat : 0 < seat p)
    (hop : (s.live p).op = .none) (hcode : (s.live p).code = .switched w) :
    Books size seat (s.goto p w.after) := by
  have hp : (s.goto p w.after).live p = ⟨w.after, (s.live p).op, (s.live p).inside⟩ := live_goto
  have hafter : Plain w.after := by cases w <;> exact ⟨rfl, rfl, rfl, rfl⟩
  have ha : Acts s (s.goto p w.after) p := by
    refine acts_goto hop (fun _ _ => rfl) (fun _ _ => rfl) (fun _ _ => rfl) ?_ ?_
    · rw [hcode, hafter.synced]
      rfl
    · cases w <;> simp [Wait.after]
  obtain ⟨hwoken, hcalls, hmet⟩ := h.dispatched hseat hcode
  have hwt : (s.goto p w.after).woken p = 0 := woken_none (by rw [hp]; exact hafter.awaits)
  have hstate := h.state p
  rw [hcode] at hstate
  refine h.acts ha (fun _ _ => rfl) ?_ ?_ ?_ ?_
  · rw [hwoken, hwt, hp, hcode, hafter.base]
    rfl
  · omega
  · rw [hp]
    cases w with
    | sched => exact hstate.2
    | par nc => exact hstate
    | alt =>
        have hready : s.alt_state p = .ready := by simpa [met] using hmet
        simp [Wait.after, StateOk, Sched.goto, hready]
  · intro hs hu
    unfold FamilyOk at hs ⊢
    rw [hcode] at hs
    rw [hp, hafter.family, hu]
    cases w with
    | sched => exact hs
    | alt => exact hs
    | par nc =>
        have hdone : s.children p = 0 := by
          simp only [met, ne_eq, decide_eq_true_eq] at hmet
          exact hmet.2
        simp only [Code.family] at hs
        omega

theorem Ledger.resumes {w : Wait} (h : Ledger size sys s) (hruns : s.Runs sys p)
    (hop : (s.live p).op = .none) (hcode : (s.live p).code = .switched w) :
    Ledger size sys (s.goto p w.after) :=
  h.moves hruns (h.books.resumes (seats_pos hruns.1) hop hcode)

/-- The process takes the termination stack. -/
theorem Books.ends (h : Books size seat s) (hop : (s.live p).op = .none)
    (hcode : (s.live p).code = .ending) :
    Books size seat { s with
      stackptr := Function.update s.stackptr p ⟨.finishing, .none, none⟩
      live := Function.update s.live p ⟨.finishing, .none, none⟩ } := by
  set t : Sched N U := { s with
    stackptr := Function.update s.stackptr p ⟨.finishing, .none, none⟩
    live := Function.update s.live p ⟨.finishing, .none, none⟩ } with ht
  have hp : t.live p = ⟨.finishing, .none, none⟩ := by simp [ht]
  have ha : Acts s t p :=
    acts_of_live rfl (fun _ _ => rfl) (fun _ _ => rfl) (fun _ _ => rfl) rfl (by simp)
      (by simp [hop]) (by rw [hcode]; rfl) (by simp) (by simp)
  have hws : s.woken p = 0 := woken_none (by rw [hcode]; rfl)
  have hwt : t.woken p = 0 := woken_none (by rw [hp]; rfl)
  have hstate := h.state p
  rw [hcode] at hstate
  refine h.acts ha (fun _ _ => rfl) ?_ ?_ ?_ ?_
  · rw [hws, hwt, hp, hcode]
    rfl
  · have howed := h.owed p
    omega
  · rw [hp]
    exact hstate
  · intro hs hu
    exact hs.congr (by rw [hp, hcode]; rfl) rfl hu

theorem Ledger.ends (h : Ledger size sys s) (hruns : s.Runs sys p) (hop : (s.live p).op = .none)
    (hcode : (s.live p).code = .ending) :
    Ledger size sys { s with
      stackptr := Function.update s.stackptr p ⟨.finishing, .none, none⟩
      live := Function.update s.live p ⟨.finishing, .none, none⟩ } := by
  refine ⟨h.sound.of_live rfl rfl hruns (by simp) (fun x hx => ?_) (fun x hx => ?_),
    h.books.ends hop hcode⟩
  · exact Function.update_of_ne hx _ _
  · exact Function.update_of_ne hx _ _

/-- A process gives up the processor to wait, or for good. -/
theorem Books.leaves (h : Books size seat s) (ha : Acts s t p)
    (hseats : ∀ x, seat' x + (if x = p then 1 else 0) = seat x)
    (hbase : (s.live p).code.base = 1) (hbase' : (t.live p).code.base = 0)
    (hw : t.woken p = s.woken p)
    (hstate : StateOk (t.live p).code (t.sched_state p) (t.alt_state p))
    (hfam : (t.live p).code.family = (s.live p).code.family)
    (hch : t.children p = s.children p) : Books size seat' t := by
  refine h.acts ha ?_ ?_ ?_ hstate ?_
  · intro x hx
    have hsx := hseats x
    rwa [if_neg hx, Nat.add_zero] at hsx
  · have hsp := hseats p
    rw [if_pos rfl] at hsp
    omega
  · rw [hw]
    exact h.owed p
  · intro hs hu
    exact hs.congr hfam hch hu

theorem Books.relinquish {w : Wait} (h : Books size seat s)
    (hseats : ∀ x, seat' x + (if x = p then 1 else 0) = seat x)
    (hop : (s.live p).op = .none) (hcode : (s.live p).code = .relinquish w) :
    Books size seat' (s.goto p (.switched w)) := by
  have hp : (s.goto p (.switched w)).live p =
      ⟨.switched w, (s.live p).op, (s.live p).inside⟩ := live_goto
  have ha : Acts s (s.goto p (.switched w)) p :=
    acts_goto hop (fun _ _ => rfl) (fun _ _ => rfl) (fun _ _ => rfl) (by rw [hcode]; rfl)
      (by simp)
  have hw : (s.goto p (.switched w)).woken p = s.woken p := by
    unfold woken
    rw [hp, hcode]
    simp only [Code.awaits]
    rw [met_congr] <;> rfl
  have hstate := h.state p
  rw [hcode] at hstate
  refine h.leaves ha hseats (by rw [hcode]; rfl) (by rw [hp]; rfl) hw ?_ ?_ rfl
  · rw [hp]
    cases w <;> exact hstate
  · rw [hp, hcode]
    cases w <;> rfl

theorem Ledger.relinquish {w : Wait} (h : Ledger size sys s) (hruns : s.Runs sys p)
    (hop : (s.live p).op = .none) (hcode : (s.live p).code = .relinquish w)
    (hstep : s.relinquish_unconditional sys p w = some t) : Ledger size sys t := by
  obtain ⟨hsound, hsame, hseats⟩ := h.sound.relinquish hruns hstep
  exact ⟨hsound, (h.books.relinquish hseats hop hcode).same hsame⟩

theorem Books.terminates (h : Books size seat s)
    (hseats : ∀ x, seat' x + (if x = p then 1 else 0) = seat x)
    (hop : (s.live p).op = .none) (hcode : (s.live p).code = .finishing) :
    Books size seat' (s.vanish p) := by
  have hp : (s.vanish p).live p = ⟨.dead, .none, none⟩ := by simp [vanish]
  have ha : Acts s (s.vanish p) p :=
    acts_of_live rfl (fun _ _ => rfl) (fun _ _ => rfl) (fun _ _ => rfl) rfl (by simp)
      (by simp [hop]) (by rw [hcode]; rfl) (by simp) (by simp)
  have hstate := h.state p
  rw [hcode] at hstate
  refine h.leaves ha hseats (by rw [hcode]; rfl) (by rw [hp]; rfl) ?_ ?_ ?_ rfl
  · rw [woken_none (s := s) (by rw [hcode]; rfl), woken_none (by rw [hp]; rfl)]
  · rw [hp]
    exact hstate
  · rw [hp, hcode]
    rfl

theorem Ledger.terminates (h : Ledger size sys s) (hruns : s.Runs sys p)
    (hop : (s.live p).op = .none) (hcode : (s.live p).code = .finishing)
    (hstep : s.finish_termination sys p = some t) : Ledger size sys t := by
  obtain ⟨hsound, hsame, hseats⟩ := h.sound.finish_termination hruns hstep
  exact ⟨hsound, (h.books.terminates hseats hop hcode).same hsame⟩

/-- What a change of seats that moves nobody leaves as it was. -/
theorem Ledger.same (h : Ledger size sys s) (hsound : Sound sys t) (hsame : Same s t)
    (hseats : ∀ x, t.seats sys x = s.seats sys x) : Ledger size sys t where
  sound := hsound
  books := by
    have hfun : t.seats sys = s.seats sys := funext hseats
    rw [hfun]
    exact h.books.same hsame

theorem Ledger.yield (h : Ledger size sys s) (hruns : s.Runs sys p)
    (hop : (s.live p).op = .none) (hcode : (s.live p).code.yields = true)
    (hstep : s.yield sys p = some t) : Ledger size sys t := by
  have hw : s.woken p = 1 → 0 < s.calls p := by
    intro hone
    have hawaits := awaits_of_woken hone
    have hfam := h.books.family p
    unfold FamilyOk at hfam
    cases hc : (s.live p).code with
    | par kind nc left =>
        cases left with
        | zero => simp [hc, Code.yields] at hcode
        | succ left =>
            rw [woken_par nc (by rw [hc]; rfl)] at hone
            rw [hc] at hfam
            simp only [Code.family] at hfam
            by_cases hmet : nc ≠ 0 ∧ s.children p = 0
            · omega
            · simp [hmet] at hone
    | _ => simp_all [Code.yields, Code.awaits]
  obtain ⟨hsound, hsame, hseats⟩ :=
    h.sound.yield hruns (h.not_queued hruns.1 hw) hstep
  have hborn := h.born hruns.1
  rcases hsame with hsame | hsame
  · exact h.same hsound hsame hseats
  · have hd : Ledger size sys (s.doing p .enable) :=
      h.does hruns (by simp) (by simp [hop]) (by simp) hborn
    exact hd.same hsound hsame hseats

/-- A call of `schedule0` is done: whoever was to be scheduled has a seat for
it. -/
theorem Books.schedules (h : Books size seat s) (hborn : (s.live u).code ≠ .unborn)
    (hop : (s.live u).op = .schedule q)
    (hseats : ∀ x, seat' x = seat x + if x = q then 1 else 0) :
    Books size seat' (s.doing u .enable) := by
  have hu : (s.doing u .enable).live u = ⟨(s.live u).code, .enable, (s.live u).inside⟩ := by
    simp [doing]
  have hcode : ∀ x, ((s.doing u .enable).live x).code = (s.live x).code := by
    intro x
    by_cases hx : x = u
    · rw [hx, hu]
    · rw [live_doing_ne hx]
  have hchange : ∀ x, (s.doing u .enable).calls x + (if x = q then 1 else 0) = s.calls x := by
    intro x
    have hc := calls_change (s := s) (t := s.doing u .enable) (u := u)
      (fun y hy => by rw [live_doing_ne hy]) x
    rw [hop, hu] at hc
    simpa [eq_comm (a := q) (b := x)] using hc
  have hwok : ∀ x, (s.doing u .enable).woken x = s.woken x :=
    fun x => woken_congr (hcode x) rfl rfl rfl
  refine h.tells (q := q) ⟨hcode, ?_, ?_, fun _ _ => rfl, fun _ _ => rfl, rfl, rfl⟩
    ?_ ?_ ?_
  · intro x hx
    by_cases hxu : x = u
    · rw [hxu] at hx
      exact absurd hx hborn
    · rw [live_doing_ne hxu]
  · intro x y hx
    by_cases hxu : x = u
    · rw [hxu, hu] at hx
      rcases hx with hx | hx <;> cases hx
    · rw [live_doing_ne hxu] at hx
      exact h.waking x y hx
  · intro x
    have hc := hchange x
    have hs := hseats x
    rw [hwok, hs]
    omega
  · intro x
    have howed := h.owed x
    have hc := hchange x
    rw [hwok]
    omega
  · rw [hcode]
    exact h.state q

theorem Ledger.schedules (h : Ledger size sys s) (hruns : s.Runs sys u)
    (hop : (s.live u).op = .schedule q) (hq : s.Undisturbed sys q)
    (hstep : (s.doing u .enable).schedule0 sys (sys.pun u) q = some t) : Ledger size sys t := by
  obtain ⟨hwoken, hcalls, hseat⟩ := h.called hop
  have hout : ¬Queued sys s.queues q :=
    not_queued_of_undisturbed hq (awaits_of_woken hwoken) hseat
  have hdoing : Sound sys (s.doing u .enable) :=
    h.sound.of_live rfl rfl hruns (inside_doing.trans hruns.2) (fun _ => live_doing_ne)
      fun _ _ => rfl
  have hcurr : ¬Queued sys s.queues (s.current (sys.pun u)) := by
    rw [hruns.1]
    exact h.not_queued_of_awaits hruns.1 (h.books.waking u q (Or.inr hop))
  obtain ⟨hsound, hsame, hseats⟩ := hdoing.schedule0 hout (fun _ _ => hcurr) hstep
  exact ⟨hsound, (h.books.schedules (h.born hruns.1) hop hseats).same hsame⟩

/-- A wakeup begins: the states of `q` say that it is woken, and the process
that has told it so goes on to schedule it. -/
theorem Books.begins {f : Fin N → SchedState} {g : Fin N → AltState} (h : Books size seat s)
    (hborn : (s.live u).code ≠ .unborn) (hop : ∀ y, (s.live u).op ≠ .schedule y)
    (hwait : (s.live u).code.awaits = none)
    (hf : ∀ x, x ≠ q → f x = s.sched_state x) (hg : ∀ x, x ≠ q → g x = s.alt_state x)
    (hw : s.woken q = 0)
    (hw' : ({ s with sched_state := f, alt_state := g } : Sched N U).woken q = 1)
    (hstate : StateOk (s.live q).code (f q) (g q)) :
    Books size seat ({ s with sched_state := f, alt_state := g }.doing u (.schedule q)) := by
  set t := { s with sched_state := f, alt_state := g }.doing u (.schedule q) with ht
  have hu : t.live u = ⟨(s.live u).code, .schedule q, (s.live u).inside⟩ := by
    simp [ht, doing]
  have hother : ∀ x, x ≠ u → t.live x = s.live x := by
    intro x hx
    simp [ht, doing, hx]
  have hcode : ∀ x, (t.live x).code = (s.live x).code := by
    intro x
    by_cases hx : x = u
    · rw [hx, hu]
    · rw [hother x hx]
  have hchange : ∀ x, t.calls x = s.calls x + if x = q then 1 else 0 := by
    intro x
    have hc := calls_change (s := s) (t := t) (u := u) (fun y hy => by rw [hother y hy]) x
    rw [if_neg (hop x), hu] at hc
    simpa [eq_comm (a := q) (b := x)] using hc
  have htells : Tells s t q := by
    refine ⟨hcode, ?_, ?_, hf, hg, rfl, rfl⟩
    · intro x hx
      by_cases hxu : x = u
      · rw [hxu] at hx
        exact absurd hx hborn
      · rw [hother x hxu]
    · intro x y hx
      by_cases hxu : x = u
      · rw [hxu]
        exact hwait
      · rw [hother x hxu] at hx
        exact h.waking x y hx
  have hwq : t.woken q = 1 :=
    (woken_congr (s := { s with sched_state := f, alt_state := g }) (hcode q) rfl rfl rfl).trans
      hw'
  refine h.tells htells ?_ ?_ ?_
  · intro x
    rw [hchange]
    by_cases hx : x = q
    · rw [if_pos hx, hx, hw, hwq]
      omega
    · rw [if_neg hx, htells.woken x hx]
      omega
  · intro x
    have howed := h.owed x
    rw [hchange]
    by_cases hx : x = q
    · rw [hx] at howed ⊢
      rw [hw] at howed
      rw [if_pos rfl, hwq]
      omega
    · rw [if_neg hx, htells.woken x hx]
      exact howed
  · rw [hcode]
    exact hstate

/-- A process is told that it need not wait. -/
theorem Books.spares {f : Fin N → SchedState} {g : Fin N → AltState} (h : Books size seat s)
    (hf : ∀ x, x ≠ q → f x = s.sched_state x) (hg : ∀ x, x ≠ q → g x = s.alt_state x)
    (hw : ({ s with sched_state := f, alt_state := g } : Sched N U).woken q = s.woken q)
    (hstate : StateOk (s.live q).code (f q) (g q)) :
    Books size seat { s with sched_state := f, alt_state := g } := by
  have htells : Tells s { s with sched_state := f, alt_state := g } q :=
    ⟨fun _ => rfl, fun _ _ => rfl, h.waking, hf, hg, rfl, rfl⟩
  refine h.tells htells ?_ ?_ hstate
  · intro x
    by_cases hx : x = q
    · rw [hx, hw]
      rfl
    · rw [htells.woken x hx]
      rfl
  · intro x
    have howed := h.owed x
    by_cases hx : x = q
    · rw [hx, hw]
      exact hx ▸ howed
    · rw [htells.woken x hx]
      exact howed

theorem Ledger.spares {f : Fin N → SchedState} {g : Fin N → AltState} (h : Ledger size sys s)
    (hf : ∀ x, x ≠ q → f x = s.sched_state x) (hg : ∀ x, x ≠ q → g x = s.alt_state x)
    (hw : ({ s with sched_state := f, alt_state := g } : Sched N U).woken q = s.woken q)
    (hstate : StateOk (s.live q).code (f q) (g q)) :
    Ledger size sys { s with sched_state := f, alt_state := g } :=
  ⟨⟨h.sound.lined, h.sound.kept, h.sound.pun, h.sound.saved⟩,
    h.books.spares hf hg hw hstate⟩

/-- A handler wakes a waiting process, for which it is to have a seat. -/
theorem Books.frees {f : Fin N → SchedState} {g : Fin N → AltState} (h : Books size seat s)
    (hf : ∀ x, x ≠ q → f x = s.sched_state x) (hg : ∀ x, x ≠ q → g x = s.alt_state x)
    (hw : s.woken q = 0)
    (hw' : ({ s with sched_state := f, alt_state := g } : Sched N U).woken q = 1)
    (hstate : StateOk (s.live q).code (f q) (g q))
    (hseats : ∀ x, seat' x = seat x + if x = q then 1 else 0) :
    Books size seat' { s with sched_state := f, alt_state := g } := by
  have htells : Tells s { s with sched_state := f, alt_state := g } q :=
    ⟨fun _ => rfl, fun _ _ => rfl, h.waking, hf, hg, rfl, rfl⟩
  have hcalls : ∀ x, ({ s with sched_state := f, alt_state := g } : Sched N U).calls x =
      s.calls x := fun _ => rfl
  refine h.tells htells ?_ ?_ hstate
  · intro x
    rw [hseats, hcalls]
    by_cases hx : x = q
    · rw [if_pos hx, hx, hw, hw']
      omega
    · rw [if_neg hx, htells.woken x hx]
      omega
  · intro x
    have howed := h.owed x
    rw [hcalls]
    by_cases hx : x = q
    · rw [hx] at howed ⊢
      omega
    · rw [htells.woken x hx]
      exact howed

theorem Ledger.frees {f : Fin N → SchedState} {g : Fin N → AltState} (h : Ledger size sys s)
    (hf : ∀ x, x ≠ q → f x = s.sched_state x) (hg : ∀ x, x ≠ q → g x = s.alt_state x)
    (hw : s.woken q = 0)
    (hw' : ({ s with sched_state := f, alt_state := g } : Sched N U).woken q = 1)
    (hstate : StateOk (s.live q).code (f q) (g q)) (hq : s.Undisturbed sys q)
    (hstep : ({ s with sched_state := f, alt_state := g } : Sched N U).enqueue0 sys q = some t) :
    Ledger size sys t := by
  have hwait : (s.live q).code.awaits ≠ none := by
    intro hnone
    have hzero : ({ s with sched_state := f, alt_state := g } : Sched N U).woken q = 0 :=
      woken_none hnone
    omega
  have hcalls : s.calls q = 0 := by
    have howed := h.books.owed q
    omega
  have hout : ¬Queued sys s.queues q := by
    refine not_queued_of_undisturbed hq hwait ?_
    have hbal := h.books.balanced q
    omega
  have hs : Sound sys { s with sched_state := f, alt_state := g } :=
    ⟨h.sound.lined, h.sound.kept, h.sound.pun, h.sound.saved⟩
  obtain ⟨t', ht', hsound, hsame, -, -, -, hseats⟩ := hs.enqueue0 hout
  obtain rfl := Option.some.inj (ht'.symm.trans hstep)
  exact ⟨hsound, (h.books.frees hf hg hw hw' hstate hseats).same hsame⟩

end Steps

end Sched

end Cxp
