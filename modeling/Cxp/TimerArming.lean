import Cxp.TimeoutOwnership

/-!
# The timer of the first entry (`timer.c`, `hardware.c`)

The timeout timer is set when an insertion changes the head of the queue and
at the end of the interrupt handler, never when an entry is removed: the new
head is later, and the timer fires early at worst.

`insertInQueue` sets the timer to the entry's time less a reading of the
clock.  When that time has come in the meantime, the interval is not positive,
and `set_timer_single` disarms the timer (`set_timer_single_eq`).  And the
interval is counted from the moment of setting, which is later than the reading.
-/

namespace Cxp

open LinkedChain Run Timers

variable {N U : Nat} {pun : Fin N → Fin U}

/-- The first entry of queue `π`, if any, has an interrupt pending or a timer
which fires no later than `late` after the entry's time. -/
def HeadArmed (late : Int) (s : TimerState N U) (π : Fin U) : Prop :=
  ∀ d, s.tm.head π = some d →
    s.pending π = true ∨ ∃ at', s.armed π = some at' ∧ at' ≤ s.tm.time d + late

/-- Whenever interrupts are enabled on a processor, its first entry has a
timer or an interrupt to come. -/
def TimersArmed (pun : Fin N → Fin U) (late : Int) (s : TimerState N U) : Prop :=
  ∀ π, s.enabled pun π = true → HeadArmed late s π

/-- A timer set for entry `d` from the reading `now`: the entry's time is
still to come at the reading, and the clock has gone on by `late` at most
since then, unless an interrupt is pending anyway. -/
def SetInTime (late : Int) (s : TimerState N U) (π : Fin U) (d : DescRef N)
    (now : Int) : Prop :=
  s.pending π = true ∨ (now < s.tm.time d ∧ s.clock - now ≤ late)

/-- The condition on a step: every search of `disable_timeout` finds its
entry, and every timer is set in time. -/
def ArmsInTime (pun : Fin N → Fin U) (late : Int) (s : TimerState N U)
    (act : TimerAct N U) : Prop :=
  DisableFinds pun s act ∧
    match act with
    | .run p => ∀ d type now, s.pc p = .arm d type now →
        SetInTime late s (pun p) d now
    | .handle π => ∀ now d, s.handler π = some now → s.tm.head π = some d →
        now < s.tm.time d → SetInTime late s π d now
    | _ => True

section Arming

variable {late : Int} {s t : TimerState N U}

/-- The timer is set in time for the head. -/
theorem SetInTime.armed {π : Fin U} {d : DescRef N} {now : Int}
    (h : SetInTime late s π d now) (hpending : t.pending = s.pending)
    (harmed : t.armed π = set_timer_single s.clock (s.tm.time d - now))
    (htime : t.tm.time d = s.tm.time d) (hhead : t.tm.head π = some d) :
    HeadArmed late t π := by
  intro d' hd'
  obtain rfl : d = d' := Option.some.inj (hhead.symm.trans hd')
  rcases h with hp | ⟨hlt, hle⟩
  · exact Or.inl (hpending ▸ hp)
  · refine Or.inr ⟨s.clock + (s.tm.time d - now), ?_, by omega⟩
    rw [harmed, set_timer_single_eq, if_pos (by omega)]

/-- A timer that is early enough for the old head is early enough for a later
one. -/
theorem HeadArmed.later {π : Fin U} (h : HeadArmed late s π)
    (hpending : t.pending π = s.pending π) (harmed : t.armed π = s.armed π)
    (hhead : ∀ d', t.tm.head π = some d' →
      ∃ d, s.tm.head π = some d ∧ s.tm.time d ≤ t.tm.time d') :
    HeadArmed late t π := by
  intro d' hd'
  obtain ⟨d, hd, hle⟩ := hhead d' hd'
  rcases h d hd with hp | ⟨when, ha, hw⟩
  · exact Or.inl (hpending ▸ hp)
  · exact Or.inr ⟨when, harmed ▸ ha, by omega⟩

/-- Interrupts are enabled where they were, when no process came to hold them
off. -/
theorem TimerState.enabled_of_update {p : Fin N} {π : Fin U}
    (hpc : ∀ r, r ≠ p → t.pc r = s.pc r) (hhandler : t.handler = s.handler)
    (hunlocked : (s.pc p).locks = false ∨ π ≠ pun p)
    (ht : t.enabled pun π = true) : s.enabled pun π = true := by
  simp only [TimerState.enabled, Bool.and_eq_true, decide_eq_true_eq] at ht ⊢
  refine ⟨hhandler ▸ ht.1, fun r hr => ?_⟩
  by_cases hrp : r = p
  · subst hrp
    exact hunlocked.resolve_right (by simp [hr])
  · exact hpc r hrp ▸ ht.2 r hr

/-- A process that holds interrupts off. -/
theorem TimerState.not_enabled_of_locks {p : Fin N}
    (hlocks : (t.pc p).locks = true) : ¬ t.enabled pun (pun p) = true := by
  intro h
  simp only [TimerState.enabled, Bool.and_eq_true, decide_eq_true_eq] at h
  have := h.2 p rfl
  simp [hlocks] at this

variable {q : Fin U → List (DescRef N)} {free : List (DescRef N)}

/-- The head of a queue is in it. -/
theorem TimersOk.head_mem {tm : Timers N U} (h : TimersOk pun tm q free)
    {π : Fin U} {d : DescRef N} (hd : tm.head π = some d) : d ∈ q π := by
  have hc := h.chain π
  cases hq : q π with
  | nil =>
      rw [hq] at hc
      rw [chain_nil.mp hc] at hd
      cases hd
  | cons x xs =>
      rw [hq] at hc
      obtain rfl : d = x := Option.some.inj (hd.symm.trans hc.1)
      exact List.mem_cons_self

/-- The head is the earliest entry. -/
theorem TimersOk.head_le {tm : Timers N U} (h : TimersOk pun tm q free)
    {π : Fin U} {x : DescRef N} (hx : x ∈ q π) :
    ∃ d, tm.head π = some d ∧ tm.time d ≤ tm.time x := by
  have hc := h.chain π
  have ho := h.ordered π
  cases hq : q π with
  | nil => simp [hq] at hx
  | cons d rest =>
      rw [hq] at hc hx ho
      refine ⟨d, hc.1, ?_⟩
      rcases List.mem_cons.mp hx with rfl | hx
      · exact Int.le_refl _
      · exact (List.pairwise_cons.mp ho).1 x hx

/-- What a change of one queue leaves at the heads: an entry that was queued
before is no earlier than the head was. -/
theorem TimersOk.heads_le {tm tm' : Timers N U} (h : TimersOk pun tm q free)
    {ρ : Fin U} {l : List (DescRef N)} (hreq : Requeued tm tm' ρ (q ρ) l)
    (hsub : ∀ x, l.head? = some x → x ∈ q ρ) (π : Fin U) (d' : DescRef N)
    (hd' : tm'.head π = some d') :
    ∃ d, tm.head π = some d ∧ tm.time d ≤ tm'.time d' := by
  rw [hreq.time_eq]
  by_cases hπ : π = ρ
  · subst hπ
    refine h.head_le (hsub d' ?_)
    have hc := hreq.chain
    cases l with
    | nil =>
        rw [chain_nil.mp hc] at hd'
        cases hd'
    | cons x xs => exact hc.1.symm.trans hd'
  · rw [hreq.heads π hπ] at hd'
    exact ⟨d', hd', Int.le_refl _⟩

/-- The entry for which a process is about to set the timer. -/
def TimerPc.setting : TimerPc N → Option (DescRef N)
  | .read desc _ => some desc
  | .arm desc _ _ => some desc
  | _ => none

theorem TimerPc.locks_iff_setting (pc : TimerPc N) :
    pc.locks = true ↔ ∃ d, pc.setting = some d := by
  cases pc <;> simp [TimerPc.locks, TimerPc.setting]

/-- The invariant of runs in which timers are set in time: besides the claim,
a process that is about to set the timer does so for the head of the queue,
and no interrupt handler is running beside it. -/
structure Arming (pun : Fin N → Fin U) (late : Int) (s : TimerState N U) :
    Prop where
  armed : TimersArmed pun late s
  head : ∀ p d, (s.pc p).setting = some d → s.tm.head (pun p) = some d
  alone : ∀ p, (s.pc p).locks = true → s.handler (pun p) = none

theorem arming_init (proc : Fin N) :
    Arming pun late (TimerState.init N U proc) := by
  constructor <;>
    simp [TimersArmed, HeadArmed, TimerState.init, timer_init, TimerPc.setting, TimerPc.locks]

/-- Where interrupts are enabled, nobody is about to set the timer. -/
theorem TimerState.setting_of_enabled {p : Fin N} {π : Fin U}
    (hπ : s.enabled pun π = true) (hp : pun p = π) : (s.pc p).setting = none := by
  simp only [TimerState.enabled, Bool.and_eq_true, decide_eq_true_eq] at hπ
  have hlocks := hπ.2 p hp
  cases hpc : s.pc p <;> simp [hpc, TimerPc.locks, TimerPc.setting] at hlocks ⊢

/-- A step of process `p`, taken with interrupts enabled on its processor,
which sets no timer. -/
theorem Arming.acts (h : Arming pun late s) {p : Fin N} {pc : TimerPc N}
    (hen : s.enabled pun (pun p) = true)
    (hpc : t.pc = Function.update s.pc p pc) (hhandler : t.handler = s.handler)
    (hpending : t.pending = s.pending) (harmed : t.armed = s.armed)
    (hheads : ∀ π, pc.locks = false ∨ π ≠ pun p → ∀ d', t.tm.head π = some d' →
      ∃ d, s.tm.head π = some d ∧ s.tm.time d ≤ t.tm.time d')
    (hother : ∀ π, π ≠ pun p → t.tm.head π = s.tm.head π)
    (hset : ∀ d, pc.setting = some d → t.tm.head (pun p) = some d) :
    Arming pun late t := by
  have hfree : (s.pc p).locks = false := by
    have := TimerState.setting_of_enabled hen (p := p) rfl
    cases hsp : s.pc p <;> simp [hsp, TimerPc.locks, TimerPc.setting] at this ⊢
  refine ⟨fun π hπ => ?_, fun r d hr => ?_, fun r hr => ?_⟩
  · refine (h.armed π ?_).later (congrFun hpending π) (congrFun harmed π) (hheads π ?_)
    · refine TimerState.enabled_of_update (fun r hr => ?_) hhandler (Or.inl hfree) hπ
      simp [hpc, hr]
    · by_cases hπp : π = pun p
      · subst hπp
        refine Or.inl ?_
        by_contra hlocks
        refine TimerState.not_enabled_of_locks (p := p) ?_ hπ
        simpa [hpc] using hlocks
      · exact Or.inr hπp
  · by_cases hrp : r = p
    · subst hrp
      exact hset d (by simpa [hpc] using hr)
    · have hr' : (s.pc r).setting = some d := by simpa [hpc, hrp] using hr
      have hne : pun r ≠ pun p := by
        intro heq
        rw [TimerState.setting_of_enabled hen heq] at hr'
        cases hr'
      rw [hother _ hne]
      exact h.head r d hr'
  · rw [hhandler]
    by_cases hrp : r = p
    · subst hrp
      simp only [TimerState.enabled, Bool.and_eq_true, Option.isNone_iff_eq_none] at hen
      exact hen.1
    · exact h.alone r (by simpa [hpc, hrp] using hr)

/-- A step that leaves the timers alone. -/
theorem Arming.moves (h : Arming pun late s) {p : Fin N} {pc : TimerPc N}
    (hen : s.enabled pun (pun p) = true)
    (hpc : t.pc = Function.update s.pc p pc) (hhandler : t.handler = s.handler)
    (hpending : t.pending = s.pending) (harmed : t.armed = s.armed)
    (htm : t.tm = s.tm) (hset : pc.setting = none) : Arming pun late t := by
  refine h.acts hen hpc hhandler hpending harmed ?_ ?_ (by simp [hset])
  · intro π _ d' hd'
    exact ⟨d', htm ▸ hd', by rw [htm]⟩
  · intro π _
    rw [htm]

/-- A step that fills in, frees or takes a descriptor that is not queued. -/
theorem Arming.outside (h : Arming pun late s) (hO : Owned pun s q free)
    {p : Fin N} {pc : TimerPc N} (hen : s.enabled pun (pun p) = true)
    (hpc : t.pc = Function.update s.pc p pc) (hhandler : t.handler = s.handler)
    (hpending : t.pending = s.pending) (harmed : t.armed = s.armed)
    (hhead : t.tm.head = s.tm.head)
    (htime : ∀ π, ∀ d ∈ q π, t.tm.time d = s.tm.time d)
    (hset : pc.setting = none) : Arming pun late t := by
  refine h.acts hen hpc hhandler hpending harmed ?_ ?_ (by simp [hset])
  · intro π _ d' hd'
    rw [hhead] at hd'
    refine ⟨d', hd', ?_⟩
    rw [htime π d' (hO.timers.head_mem hd')]
  · intro π _
    rw [hhead]

/-- `insertInQueue` links in a descriptor: the head is the same as before, or
it is the new one, and then the timer is about to be set for it. -/
theorem Arming.link (h : Arming pun late s) (hO : Owned pun s q free)
    {p : Fin N} (hen : s.enabled pun (pun p) = true) {desc : DescRef N}
    {type : TimeoutType} (hpc : s.pc p = .link desc type)
    {tm' : Timers N U} {first : Bool}
    (hins : s.tm.insertInQueue (pun p) desc = some (tm', first)) :
    Arming pun late
      { s with
        tm := tm'
        pc := Function.update s.pc p
          (if first then .read desc type else afterInsert type) } := by
  obtain ⟨_, hnot, _⟩ := (hO.processes p).held desc (by simp [hpc, TimerPc.holds])
  obtain ⟨hreq, hfirst⟩ := insertInQueue_spec (hO.timers.chain (pun p))
    (hO.timers.fuel (pun p)) (hnot (pun p)) hins
  refine h.acts hen rfl rfl rfl rfl ?_ (fun π hπ => hreq.heads π hπ) ?_
  · intro π hπ d' hd'
    cases first with
    | true =>
        have hπ' : π ≠ pun p := hπ.resolve_left (by simp [TimerPc.locks])
        rw [hreq.heads π hπ'] at hd'
        exact ⟨d', hd', by rw [hreq.time_eq]⟩
    | false =>
        refine hO.timers.heads_le hreq ?_ π d' hd'
        intro x hx
        have hsplit := s.tm.upTo_append_later (s.tm.time desc) (q (pun p))
        cases hup : s.tm.upTo (s.tm.time desc) (q (pun p)) with
        | nil => simp [hup] at hfirst
        | cons y ys =>
            rw [hup] at hx hsplit
            obtain rfl : y = x := by simpa using hx
            exact hsplit ▸ List.mem_append_left _ List.mem_cons_self
  · intro d hd
    cases first with
    | true =>
        obtain rfl : desc = d := by simpa [TimerPc.setting] using hd
        have hup := List.isEmpty_iff.mp hfirst.symm
        have hc := hreq.chain
        rw [hup] at hc
        exact hc.1
    | false => cases type <;> simp [TimerPc.setting, afterInsert] at hd

/-- The next step of a call, when the timers are set in time. -/
theorem Arming.run (h : Arming pun late s) (hO : Owned pun s q free) {p : Fin N}
    (hgate : (s.pc p).locks = true ∨ s.enabled pun (pun p) = true)
    (hC : ArmsInTime pun late s (.run p)) (hstep : s.run pun p = some t) :
    Arming pun late t := by
  have hen : (s.pc p).locks = false → s.enabled pun (pun p) = true := by
    intro hfree
    simpa [hfree] using hgate
  unfold TimerState.run at hstep
  cases hpc : s.pc p with
  | run =>
      rw [hpc] at hstep
      cases hstep
  | link desc type =>
      rw [hpc] at hstep hen
      obtain ⟨⟨tm', first⟩, hins, rfl⟩ := Option.map_eq_some_iff.mp hstep
      exact h.link hO (hen rfl) hpc hins
  | read desc type =>
      rw [hpc] at hstep
      obtain rfl := Option.some.inj hstep
      have hlocks : (s.pc p).locks = true := by simp [hpc, TimerPc.locks]
      refine ⟨fun π hπ => ?_, fun r d hr => ?_, fun r hr => ?_⟩
      · have hne : π ≠ pun p := by
          rintro rfl
          refine TimerState.not_enabled_of_locks (p := p) ?_ hπ
          simp [TimerPc.locks]
        refine h.armed π (TimerState.enabled_of_update (fun r hr => ?_) ?_ (Or.inr hne) hπ)
        · simp [hr]
        · rfl
      · by_cases hrp : r = p
        · subst hrp
          exact h.head r d (by simpa [hpc, TimerPc.setting] using hr)
        · exact h.head r d (by simpa [hrp] using hr)
      · by_cases hrp : r = p
        · subst hrp
          exact h.alone r hlocks
        · exact h.alone r (by simpa [hrp] using hr)
  | arm desc type now =>
      rw [hpc] at hstep
      obtain rfl := Option.some.inj hstep
      have hhead := h.head p desc (by simp [hpc, TimerPc.setting])
      have hafter : (afterInsert type : TimerPc N).setting = none ∧
          (afterInsert type : TimerPc N).locks = false := by
        cases type <;> simp [afterInsert, TimerPc.setting, TimerPc.locks]
      refine ⟨fun π hπ => ?_, fun r d hr => ?_, fun r hr => ?_⟩
      · by_cases hπp : π = pun p
        · subst hπp
          exact (hC.2 desc type now hpc).armed rfl (by simp) rfl hhead
        · refine (h.armed π ?_).later rfl (by simp [hπp]) ?_
          · refine TimerState.enabled_of_update (fun r hr => ?_) ?_ (Or.inr hπp) hπ
            · simp [hr]
            · rfl
          · exact fun d' hd' => ⟨d', hd', Int.le_refl _⟩
      · have hrp : r ≠ p := by
          rintro rfl
          simp [hafter.1] at hr
        exact h.head r d (by simpa [hrp] using hr)
      · have hrp : r ≠ p := by
          rintro rfl
          simp [hafter.2] at hr
        exact h.alone r (by simpa [hrp] using hr)
  | relinquish =>
      rw [hpc] at hstep hen
      by_cases hprep : s.sched_state p = .preparingToWait
      · obtain rfl : _ = t := by simpa [hprep] using hstep
        exact h.moves (hen rfl) rfl rfl rfl rfl rfl rfl
      · obtain rfl : _ = t := by simpa [hprep] using hstep
        exact h.moves (hen rfl) rfl rfl rfl rfl rfl rfl
  | wait =>
      rw [hpc] at hstep hen
      by_cases hready : s.sched_state p = .ready
      · obtain rfl : _ = t := by simpa [hready] using hstep
        exact h.moves (hen rfl) rfl rfl rfl rfl rfl rfl
      · simp [hready] at hstep
  | fill time =>
      rw [hpc] at hstep hen
      obtain rfl := Option.some.inj hstep
      obtain ⟨_, _, _, _, hnq, _⟩ := hO.timers.allocate
      have hsame : s.tm.allocate_mem.2.time = s.tm.time ∧
          s.tm.allocate_mem.2.head = s.tm.head := by
        unfold Timers.allocate_mem
        split <;> simp
      refine h.outside hO (hen rfl) rfl rfl rfl rfl hsame.2 (fun π d hd => ?_) rfl
      have hne : d ≠ s.tm.allocate_mem.1 := fun heq => hnq π (heq ▸ hd)
      simp [Timers.fill, hne, hsame.1]
  | remove time =>
      rw [hpc] at hstep hen
      obtain ⟨r, hr, rfl⟩ := Option.map_eq_some_iff.mp hstep
      rcases hO.removes hr with ⟨_, rfl⟩ | ⟨c, rest, _, hrem, hc, _, hreq⟩ | ⟨c, hnot, _⟩
      · exact h.moves (hen rfl) rfl rfl rfl rfl rfl rfl
      · have hsub : ∀ x, (s.tm.passed time p (q (pun p)) ++ rest).head? = some x →
            x ∈ q (pun p) := by
          intro x hx
          have hq := s.tm.passed_append_remaining time p (q (pun p))
          rw [hrem] at hq
          rw [← hq]
          have := List.mem_of_mem_head? (Option.mem_def.mpr hx)
          simp only [List.mem_append, List.mem_cons] at this ⊢
          exact this.imp_right Or.inr
        refine h.acts (hen rfl) rfl rfl rfl rfl ?_ (fun π hπ => hreq.heads π hπ) ?_
        · exact fun π _ d' hd' => hO.timers.heads_le hreq hsub π d' hd'
        · simp [hc, TimerPc.setting]
      · obtain ⟨l, hl, hfinds⟩ := hC.1 time hpc
        rw [hl.unique (hO.timers.chain (pun p))] at hfinds
        exact absurd hfinds hnot
  | release time desc =>
      rw [hpc] at hstep hen
      obtain rfl := Option.some.inj hstep
      exact h.outside hO (hen rfl) rfl rfl rfl rfl rfl (fun _ _ _ => rfl) rfl

/-- A step of the interrupt handler. -/
theorem Arming.handle (h : Arming pun late s) {π : Fin U} {now : Int} (hnow : s.handler π = some now)
    (hC : ArmsInTime pun late s (.handle π)) :
    Arming pun late (s.handle π now) := by
  have hlocks : ∀ r, pun r = π → (s.pc r).locks = false := by
    intro r hr
    by_contra hl
    have := h.alone r (by simpa using hl)
    rw [hr, hnow] at this
    cases this
  -- the other processors go on as before, and nobody here sets the timer
  have hothers : ∀ t : TimerState N U, t.pc = s.pc → t.pending = s.pending →
      (∀ ρ, ρ ≠ π → t.handler ρ = s.handler ρ ∧ t.armed ρ = s.armed ρ ∧
        t.tm.head ρ = s.tm.head ρ) →
      t.tm.time = s.tm.time →
      (t.enabled pun π = true → HeadArmed late t π) → Arming pun late t := by
    intro t htpc htpend hsame htime hπ
    refine ⟨fun ρ hρ => ?_, fun r d hr => ?_, fun r hr => ?_⟩
    · by_cases hρπ : ρ = π
      · subst hρπ
        exact hπ hρ
      · obtain ⟨hh, ha, hhd⟩ := hsame ρ hρπ
        refine (h.armed ρ ?_).later (by rw [htpend]) ha ?_
        · simpa [TimerState.enabled, htpc, hh] using hρ
        · exact fun d' hd' => ⟨d', hhd ▸ hd', by rw [htime]⟩
    · have hr' : (s.pc r).setting = some d := by simpa [htpc] using hr
      have hrπ : pun r ≠ π := by
        intro heq
        have := hlocks r heq
        have hset := (TimerPc.locks_iff_setting (s.pc r)).mpr ⟨d, hr'⟩
        simp [this] at hset
      rw [(hsame _ hrπ).2.2]
      exact h.head r d hr'
    · have hr' : (s.pc r).locks = true := by simpa [htpc] using hr
      have hrπ : pun r ≠ π := by
        intro heq
        simp [hlocks r heq] at hr'
      rw [(hsame _ hrπ).1]
      exact h.alone r hr'
  unfold TimerState.handle
  cases hhead : s.tm.head π with
  | none =>
      refine hothers _ rfl rfl (fun ρ hρ => by simp [hρ]) rfl ?_
      intro _ d hd
      rw [hhead] at hd
      cases hd
  | some head =>
      simp only
      split
      · refine hothers _ rfl rfl (fun ρ hρ => ?_) rfl ?_
        · simp [Timers.removeHead, hρ]
        · intro hen
          simp [TimerState.enabled, hnow] at hen
      next hlater =>
        refine hothers _ rfl rfl (fun ρ hρ => by simp [hρ]) rfl ?_
        intro _
        have hset := hC.2 now head hnow hhead (by omega)
        exact hset.armed rfl (by simp) rfl hhead

/-- Every step that sets its timer in time keeps the heads armed. -/
theorem Arming.step (h : Arming pun late s) (hO : Owned pun s q free)
    {act : TimerAct N U} (hC : ArmsInTime pun late s act)
    (hstep : s.step pun act = some t) : Arming pun late t := by
  cases TimerState.step_cases hstep with
  | @After p when hpc henabled =>
      unfold TimerState.After
      split
      · refine h.outside hO henabled rfl rfl rfl rfl rfl ?_ rfl
        intro π d hd
        have hne : d ≠ .stack p := by
          intro heq
          rw [heq] at hd
          refine hO.not_queued (p := p) ?_ π hd
          simp [hpc, TimerPc.inAfter]
        simp [Timers.fill, hne]
      · exact h
  | enable_timeout hpc henabled =>
      unfold TimerState.enable_timeout
      split
      · exact h
      · exact h.moves henabled rfl rfl rfl rfl rfl rfl
  | disable_timeout hpc henabled => exact h.moves henabled rfl rfl rfl rfl rfl rfl
  | run hmay hrun => exact h.run hO hmay hC hrun
  | @tick δ =>
      refine ⟨?_, h.head, h.alone⟩
      intro π hπ d hd
      obtain hp | ⟨when, ha, hw⟩ := h.armed π hπ d hd
      · exact Or.inl (by simp [hp])
      · by_cases hf : s.fires (s.clock + δ) π = true
        · exact Or.inl (by simp [hf])
        · exact Or.inr ⟨when, by simpa [hf] using ha, hw⟩
  | @interrupt π henabled hpending =>
      refine ⟨?_, h.head, ?_⟩
      · intro ρ hρ d hd
        have hne : ρ ≠ π := by
          intro heq
          rw [heq] at hρ
          simp [TimerState.enabled] at hρ
        have hρ' : s.enabled pun ρ = true := by
          simpa [TimerState.enabled, hne] using hρ
        simpa [hne] using h.armed ρ hρ' d hd
      · intro r hr
        have hne : pun r ≠ π := by
          intro heq
          rw [← heq] at henabled
          exact absurd henabled (TimerState.not_enabled_of_locks (t := s) hr)
        simpa [hne] using h.alone r hr
  | handle hnow => exact h.handle hnow hC

end Arming

/-- The guard's time comes between the readiness check of `enable_timeout` and
the reading of the clock in `insertInQueue`. -/
def clockPassesEntry : List (TimerAct 1 1) :=
  [.enable_timeout 0 10, .tick 15, .run 0, .run 0, .run 0, .run 0]

end Cxp
