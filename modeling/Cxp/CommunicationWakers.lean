import Cxp.CommunicationInvariant

/-!
# Telling an alternation

A writer that has taken an alternation's place at a channel, and the timeout
interrupt handler, do the same: they try to change the process's `alt_state`
from Enabling to Ready, and if they found Waiting, from Waiting to Ready, and
who succeeds in that schedules the process.  Between winning the second
exchange and scheduling, the winner is `Pending`.
-/

namespace Cxp

open Meeting Timers

variable {N U : Nat} {Chan Msg : Type} [DecidableEq Chan]

omit [DecidableEq Chan] in
/-- Only a process that is blocked in a select has `alt_state` Waiting. -/
theorem Stage.blocked_of_waiting {g : Stage} (h : g.allows .waiting) : g = .blocked := by
  cases g <;> simp [Stage.allows] at h ⊢

/-- What a process that has given up the processor in a select shows does not
depend on whether it is runnable. -/
theorem Pc.party_blocked {pc : Pc N Chan} (h : pc.stage = .blocked) (c : Chan)
    (buf : Msg) (st : SchedState) (run run' : Bool) :
    pc.party c buf st run = pc.party c buf st run' := by
  cases pc <;> first | rfl | simp [Pc.stage] at h

namespace Comm

variable {net : Net N Chan} {s t : Comm N U Chan Msg} {p : Fin N} {pc' : Pc N Chan}

/-- What the steps of the wakers have in common. -/
structure Telling (s t : Comm N U Chan Msg) : Prop where
  stage : ∀ q, (t.pc q).stage = (s.pc q).stage
  selects : t.selects = s.selects
  waited : t.waited = s.waited
  stale : ∀ π x now, t.handler π = .freeWaiting x now →
    s.handler π = .freeWaiting x now ∨ s.alt_state x.proc ≠ .enabling
  taken : ∀ π x now, t.handler π = .free x now ∨ t.handler π = .freeWaiting x now →
    (s.handler π = .free x now ∨ s.handler π = .freeWaiting x now) ∨
      x.select ≤ s.selects x.proc

omit [DecidableEq Chan] in
/-- The handshake of one process when a waker takes a step. -/
theorem Handshake.told {r : Fin N} (h : s.Handshake r) (ht : Telling s t)
    (halt : t.alt_state r = s.alt_state r ∨
      (t.alt_state r = .ready ∧ (s.alt_state r = .enabling ∨ s.alt_state r = .waiting)))
    (hsched : (t.runnable r = s.runnable r ∧ t.scheds r = s.scheds r) ∨
      ((s.pc r).stage = .blocked ∧ s.alt_state r = .ready ∧ s.scheds r = 0 ∧
        t.runnable r = true ∧ t.scheds r = 1))
    (hwoken : (s.pc r).stage = .blocked → t.alt_state r = .ready →
      t.runnable r = true ∨ ∃ a, t.Pending r a)
    (hfired : t.fired r = true →
      s.fired r = true ∨ t.alt_state r = .ready ∨ t.alt_state r = .none) :
    t.Handshake r := by
  constructor
  · rw [ht.stage r]
    rcases halt with heq | ⟨heq, hold⟩
    · rw [heq]
      exact h.alt
    · have hallows := h.alt
      rw [heq]
      cases hs : (s.pc r).stage <;> rcases hold with hold | hold <;>
        simp [hs, hold, Stage.allows] at hallows ⊢
  · intro hw
    rcases halt with heq | ⟨heq, _⟩
    · rw [heq] at hw
      rcases hsched with ⟨h1, h2⟩ | ⟨_, hready, _⟩
      · rw [h1, h2]
        exact h.resting hw
      · rw [hready] at hw
        cases hw
    · rw [heq] at hw
      cases hw
  · intro hs ha
    rw [ht.stage r] at hs
    exact hwoken hs ha
  · intro hs
    rw [ht.stage r] at hs
    rcases hsched with ⟨_, h2⟩ | ⟨hb, _⟩
    · rw [h2]
      exact h.fresh hs
    · rw [hb] at hs
      cases hs
  · rw [ht.waited]
    rcases hsched with ⟨_, h2⟩ | ⟨hb, _, _, _, h5⟩
    · rw [h2]
      exact h.count
    · rw [h5, h.waited hb]
      simp
  · rw [ht.stage r, ht.waited]
    exact h.waited
  · intro hf
    rcases hfired hf with hold | hnew
    · rcases halt with heq | ⟨heq, _⟩
      · rw [heq]
        exact h.fired hold
      · exact Or.inl heq
    · exact hnew
  · intro π x now hx hp hsel
    rw [ht.selects] at hsel
    have hne : s.alt_state r ≠ .enabling := by
      rcases ht.stale π x now hx with hold | hne
      · exact h.stale π x now hold hp hsel
      · exact hp ▸ hne
    rcases halt with heq | ⟨heq, _⟩
    · rw [heq]
      exact hne
    · rw [heq]
      simp
  · intro π x now hx hp
    rw [ht.selects]
    rcases ht.taken π x now hx with hold | hle
    · exact h.taken π x now hold hp
    · exact hp ▸ hle

omit [DecidableEq Chan] in
/-- A waker tries Enabling to Ready, or finds that it need not schedule. -/
theorem Wakes.tells (h : s.Wakes) (ht : Telling s t)
    (hpend : ∀ r a, t.Pending r a ↔ s.Pending r a)
    (halt : ∀ r, t.alt_state r = s.alt_state r ∨
      (t.alt_state r = .ready ∧ s.alt_state r = .enabling))
    (hrun : t.runnable = s.runnable) (hscheds : t.scheds = s.scheds)
    (hfired : ∀ r, t.fired r = true →
      s.fired r = true ∨ t.alt_state r = .ready ∨ t.alt_state r = .none) : t.Wakes := by
  refine ⟨fun r => ?_, fun r a ha => ?_, fun r a b ha hb => ?_⟩
  · have hr := h.each r
    apply hr.told ht
    · exact (halt r).imp_right fun h => ⟨h.1, Or.inl h.2⟩
    · exact Or.inl ⟨by rw [hrun], by rw [hscheds]⟩
    · intro hs ha
      have hready : s.alt_state r = .ready := by
        rcases halt r with heq | ⟨_, he⟩
        · rw [← heq]
          exact ha
        · have := hr.alt
          simp [hs, he, Stage.allows] at this
      rw [hrun]
      obtain hrunnable | ⟨a, ha⟩ := hr.woken hs hready
      · exact Or.inl hrunnable
      · exact Or.inr ⟨a, (hpend r a).mpr ha⟩
    · exact hfired r
  · obtain ⟨h1, h2, h3, h4⟩ := h.pend r a ((hpend r a).mp ha)
    rw [ht.stage, hrun, hscheds]
    refine ⟨h1, ?_, h3, h4⟩
    rcases halt r with heq | ⟨heq, _⟩
    · rw [heq]
      exact h2
    · exact heq
  · exact h.unique r a b ((hpend r a).mp ha) ((hpend r b).mp hb)

omit [DecidableEq Chan] in
/-- A waker wins the exchange from Waiting to Ready. -/
theorem Wakes.wins (h : s.Wakes) (ht : Telling s t) {r : Fin N} {a : Agent N U}
    (hr : s.alt_state r = .waiting)
    (hpend : ∀ q b, t.Pending q b ↔ s.Pending q b ∨ (q = r ∧ b = a))
    (halt : t.alt_state = Function.update s.alt_state r .ready)
    (hrun : t.runnable = s.runnable) (hscheds : t.scheds = s.scheds)
    (hfired : ∀ q, t.fired q = true → s.fired q = true ∨ q = r) : t.Wakes := by
  have hnone : ∀ b, ¬ s.Pending r b := by
    intro b hb
    have hready := (h.pend r b hb).2.1
    rw [hr] at hready
    cases hready
  have hready : t.alt_state r = .ready := by rw [halt, Function.update_self]
  refine ⟨fun q => ?_, fun q b hb => ?_, fun q b b' hb hb' => ?_⟩
  · apply (h.each q).told ht
    · by_cases hq : q = r
      · exact hq ▸ Or.inr ⟨hready, Or.inr hr⟩
      · exact Or.inl (by rw [halt, Function.update_of_ne hq])
    · exact Or.inl ⟨by rw [hrun], by rw [hscheds]⟩
    · intro hs ha
      by_cases hq : q = r
      · exact Or.inr ⟨a, (hpend q a).mpr (Or.inr ⟨hq, rfl⟩)⟩
      · rw [halt, Function.update_of_ne hq] at ha
        rw [hrun]
        exact ((h.each q).woken hs ha).imp_right fun ⟨b, hb⟩ =>
          ⟨b, (hpend q b).mpr (Or.inl hb)⟩
    · intro hf
      refine (hfired q hf).imp_right ?_
      intro hq
      exact Or.inl (hq.symm ▸ hready)
  · rw [ht.stage, hrun, hscheds]
    rcases (hpend q b).mp hb with hold | ⟨rfl, _⟩
    · obtain ⟨h1, h2, h3, h4⟩ := h.pend q b hold
      have hq : q ≠ r := fun heq => hnone b (heq ▸ hold)
      refine ⟨h1, ?_, h3, h4⟩
      rw [halt, Function.update_of_ne hq]
      exact h2
    · have hallows := (h.each q).alt
      rw [hr] at hallows
      obtain ⟨h3, h4⟩ := (h.each q).resting hr
      exact ⟨Stage.blocked_of_waiting hallows, hready, h3, h4⟩
  · rcases (hpend q b).mp hb with hold | ⟨rfl, rfl⟩
    · rcases (hpend q b').mp hb' with hold' | ⟨rfl, _⟩
      · exact h.unique q b b' hold hold'
      · exact absurd hold (hnone b)
    · rcases (hpend q b').mp hb' with hold' | ⟨_, rfl⟩
      · exact absurd hold' (hnone b')
      · rfl

omit [DecidableEq Chan] in
/-- A waker that has won schedules the process. -/
theorem Wakes.schedules (h : s.Wakes) (ht : Telling s t) {r : Fin N} {a : Agent N U}
    (ha : s.Pending r a)
    (hpend : ∀ q b, t.Pending q b ↔ s.Pending q b ∧ b ≠ a)
    (halt : t.alt_state = s.alt_state)
    (hrun : t.runnable = Function.update s.runnable r true)
    (hscheds : t.scheds = Function.update s.scheds r (s.scheds r + 1))
    (hfired : t.fired = s.fired)
    (honly : ∀ q, s.Pending q a → q = r) : t.Wakes := by
  obtain ⟨hblocked, hready, _, hzero⟩ := h.pend r a ha
  have hother : ∀ q b, s.Pending q b → q ≠ r → b ≠ a := by
    rintro q b hb hq rfl
    exact hq (honly q hb)
  refine ⟨fun q => ?_, fun q b hb => ?_, fun q b b' hb hb' => ?_⟩
  · apply (h.each q).told ht
    · exact Or.inl (by rw [halt])
    · by_cases hq : q = r
      · subst hq
        refine Or.inr ⟨hblocked, hready, hzero, ?_, ?_⟩
        · rw [hrun, Function.update_self]
        · rw [hscheds, Function.update_self, hzero]
      · rw [hrun, hscheds, Function.update_of_ne hq, Function.update_of_ne hq]
        exact Or.inl ⟨rfl, rfl⟩
    · intro hs hal
      by_cases hq : q = r
      · exact Or.inl (by rw [hrun, hq, Function.update_self])
      · rw [hrun, Function.update_of_ne hq]
        refine ((h.each q).woken hs (halt ▸ hal)).imp_right ?_
        intro ⟨b, hb⟩
        exact ⟨b, (hpend q b).mpr ⟨hb, hother q b hb hq⟩⟩
    · exact fun hf => Or.inl (hfired ▸ hf)
  · obtain ⟨hold, hne⟩ := (hpend q b).mp hb
    have hq : q ≠ r := fun heq => hne (h.unique r b a (heq ▸ hold) ha)
    rw [ht.stage, halt, hrun, hscheds, Function.update_of_ne hq, Function.update_of_ne hq]
    exact h.pend q b hold
  · exact h.unique q b b' ((hpend q b).mp hb).1 ((hpend q b').mp hb').1

/-- A step of a waker, seen from the channels. -/
theorem Inv.tells (h : Inv net s) (hwakes : t.Wakes) (hroles : ∀ q, RoleOk net q (t.pc q))
    (hpc : ∀ q, (t.pc q).guards = (s.pc q).guards ∧ (t.pc q).stage = (s.pc q).stage ∧
      (t.pc q).blocked = (s.pc q).blocked ∧ ∀ (c : Chan) (buf : Msg) st run,
        (t.pc q).party c buf st run = (s.pc q).party c buf st run)
    (hsame : (∀ c, t.own c = s.own c) ∧ t.src = s.src ∧ t.dest = s.dest ∧
      t.sched_state = s.sched_state)
    (hrun : ∀ q, t.runnable q = s.runnable q ∨
      (t.runnable q = true ∧ (s.pc q).stage = .blocked))
    (hvisit : ∀ c, (s.pc (net.role c .input)).stage = .enabling ∨
        (s.pc (net.role c .input)).stage = .blocked →
      s.Visit net (net.role c .input) c → t.Visit net (net.role c .input) c)
    (htype : ∀ d, t.tm.type d = .alting) : Inv net t := by
  obtain ⟨hown, hsrc, hdest, hst⟩ := hsame
  have hparty : ∀ c e, t.party net c e = s.party net c e := by
    intro c e
    have hbuf : t.buf e = s.buf e := by
      cases e
      · exact hdest
      · exact hsrc
    obtain ⟨_, _, _, hshow⟩ := hpc (net.role c e)
    rw [party, party, hshow, hbuf, hst]
    rcases hrun (net.role c e) with heq | ⟨_, hb⟩
    · rw [heq]
    · exact Pc.party_blocked hb ..
  refine ⟨hroles, fun q hq => ?_, fun c => ?_, hwakes, fun r f k hr hs c hc => ?_, htype⟩
  · rw [(hpc q).2.2.1] at hq
    rcases hrun q with heq | ⟨htrue, _⟩
    · rw [heq]
      exact h.runs q hq
    · exact htrue
  · rw [view_eq (hparty c .input) (hparty c .output) (hown c)]
    exact h.meets c
  · obtain ⟨hguards, hstage, _⟩ := hpc r
    rw [hguards] at hr
    rw [hstage] at hs
    have hv := h.visited r f k hr hs c hc
    have hin : (s.pc r).stage = .enabling ∨ (s.pc r).stage = .blocked := by
      cases hp : s.pc r <;> simp [hp, Pc.guards, Pc.stage] at hr hs ⊢
    obtain rfl := (h.roles r).guards f k c hr hc
    exact hvisit c hin hv

omit [DecidableEq Chan] in
/-- An enabled channel while its writer or another waker goes on. -/
theorem Visit.told {r : Fin N} {c : Chan} (h : s.Visit net r c)
    (hwaiting : t.waiting c = s.waiting c)
    (halt : t.alt_state r = s.alt_state r ∨ t.alt_state r = .ready)
    (hpc : s.pc (net.role c .output) = .free c r ∨
        (s.pc (net.role c .output) = .freeWaiting c r ∧ s.alt_state r ≠ .enabling) →
      t.pc (net.role c .output) = s.pc (net.role c .output) ∨ t.alt_state r = .ready ∨
        (t.pc (net.role c .output) = .freeWaiting c r ∧ t.alt_state r ≠ .enabling)) :
    t.Visit net r c := by
  rcases h with hw | ⟨hw, hcase⟩
  · exact Or.inl (hwaiting.trans hw)
  refine Or.inr ⟨hwaiting.trans hw, ?_⟩
  rcases hcase with hf | ⟨hf, ha⟩ | ha
  · rcases hpc (Or.inl hf) with heq | hready | hnew
    · exact Or.inl (heq.trans hf)
    · exact Or.inr (Or.inr hready)
    · exact Or.inr (Or.inl hnew)
  · rcases hpc (Or.inr ⟨hf, ha⟩) with heq | hready | hnew
    · refine Or.inr (Or.inl ⟨heq.trans hf, ?_⟩)
      rcases halt with ha' | ha'
      · exact ha' ▸ ha
      · rw [ha']
        simp
    · exact Or.inr (Or.inr hready)
    · exact Or.inr (Or.inl hnew)
  · refine Or.inr (Or.inr ?_)
    rcases halt with ha' | ha'
    · exact ha'.trans ha
    · exact ha'

section Writers

/-- A writer that has registered itself, and may still be in
`freeProcessMaybe`. -/
def Registered (net : Net N Chan) (c : Chan) (pc : Pc N Chan) : Prop :=
  pc = .relinquish .output c ∨ pc = .free c (net.role c .input) ∨
    pc = .freeWaiting c (net.role c .input) ∨ pc = .freeSchedule c (net.role c .input)

omit [DecidableEq Chan] in
theorem Registered.channel {pc : Pc N Chan} {c : Chan} (h : Registered net c pc) :
    pc.channel = some (.output, c) := by
  rcases h with rfl | rfl | rfl | rfl <;> rfl

omit [DecidableEq Chan] in
theorem Registered.place {pc : Pc N Chan} {c : Chan} (h : Registered net c pc) :
    pc.guards = none ∧ pc.stage = .away ∧ pc.blocked = false ∧
    RoleOk net (net.role c .output) pc := by
  rcases h with rfl | rfl | rfl | rfl
  all_goals
    refine ⟨rfl, rfl, rfl, ?_⟩
    constructor <;> simp [Pc.channel, Pc.guards]

theorem Registered.shows {pc : Pc N Chan} {c : Chan} (h : Registered net c pc) (d : Chan)
    (buf : Msg) (st : SchedState) (run : Bool) :
    pc.party d buf st run = if c = d then .wait buf false st run else .away := by
  rcases h with rfl | rfl | rfl | rfl <;> rfl

omit [DecidableEq Chan] in
/-- The process that a writer in `freeProcessMaybe` is to tell reads the
channel. -/
theorem registered_of_role {c : Chan} {r : Fin N} (h : RoleOk net p (s.pc p))
    (hpc : s.pc p = .free c r ∨ s.pc p = .freeWaiting c r ∨ s.pc p = .freeSchedule c r) :
    p = net.role c .output ∧ r = net.role c .input ∧ Registered net c (s.pc p) := by
  have hr := h.free c r hpc
  have hp : p = net.role c .output := by
    rcases hpc with hpc | hpc | hpc <;> exact h.channel .output c (by simp [hpc, Pc.channel])
  refine ⟨hp, hr, ?_⟩
  subst hr
  exact Or.inr hpc

/-- A step of a writer in `freeProcessMaybe`. -/
theorem Inv.writer_tells (h : Inv net s) {c : Chan} (hold : Registered net c (s.pc p))
    (hp : p = net.role c .output) (hnew : Registered net c pc')
    (hpc : t.pc = Function.update s.pc p pc') (hwakes : t.Wakes)
    (hsame : (∀ c, t.own c = s.own c) ∧ t.src = s.src ∧ t.dest = s.dest ∧
      t.sched_state = s.sched_state ∧ t.tm = s.tm)
    (hrun : ∀ q, t.runnable q = s.runnable q ∨
      (t.runnable q = true ∧ (s.pc q).stage = .blocked))
    (hkeep : ∀ q, t.alt_state q = s.alt_state q ∨ t.alt_state q = .ready)
    (htold : (s.pc (net.role c .input)).stage = .enabling ∨
        (s.pc (net.role c .input)).stage = .blocked →
      s.pc p = .free c (net.role c .input) ∨ s.alt_state (net.role c .input) ≠ .enabling →
      t.alt_state (net.role c .input) = .ready ∨
        (pc' = .freeWaiting c (net.role c .input) ∧
          t.alt_state (net.role c .input) ≠ .enabling)) : Inv net t := by
  obtain ⟨hg, hs, hb, _⟩ := hold.place
  obtain ⟨hg', hs', hb', hrole'⟩ := hnew.place
  refine h.tells hwakes (roles_update h.roles hpc (hp ▸ hrole')) ?_
    ⟨hsame.1, hsame.2.1, hsame.2.2.1, hsame.2.2.2.1⟩ hrun ?_ (hsame.2.2.2.2 ▸ h.alting)
  · intro q
    by_cases hq : q = p
    · subst hq
      simp only [hpc, Function.update_self, hg, hs, hb, hg', hs', hb', hold.shows, hnew.shows]
      simp
    · simp [hpc, hq]
  · intro d hd hv
    have hw : t.waiting d = s.waiting d := by
      have := hsame.1 d
      simp only [own, Prod.mk.injEq] at this
      exact this.1
    refine hv.told hw (hkeep _) ?_
    intro hf
    have hne := hf.imp_right And.right
    replace hf := hf.imp_right And.left
    by_cases hdp : net.role d .output = p
    · have hdc : d = c := by
        have hch : (s.pc p).channel = some (.output, d) := by
          rw [hdp] at hf
          rcases hf with hf | hf <;> simp [hf, Pc.channel]
        simpa using hch.symm.trans hold.channel
      subst hdc
      rw [hdp, hpc, Function.update_self]
      exact Or.inr (htold hd (hdp ▸ hne))
    · exact Or.inl (by rw [hpc, Function.update_of_ne hdp])

omit [DecidableEq Chan] in
/-- A step of a writer that is not about to schedule, nor going to be. -/
theorem pending_writer (hpc : t.pc = Function.update s.pc p pc')
    (hhandler : t.handler = s.handler) (r : Fin N) (a : Agent N U) :
    t.Pending r a ↔ (a ≠ .inl p ∧ s.Pending r a) ∨
      (a = .inl p ∧ ∃ c, pc' = .freeSchedule c r) := by
  cases a with
  | inl u =>
      by_cases hu : u = p
      · subst hu
        simp [Pending, hpc]
      · simp [Pending, hpc, hu]
  | inr π => simp [Pending, hhandler]

omit [DecidableEq Chan] in
/-- A writer leaves the handshake alone but for `alt_state`. -/
theorem writer_telling {c : Chan} (hold : Registered net c (s.pc p))
    (hnew : Registered net c pc') (hpc : t.pc = Function.update s.pc p pc')
    (hsame : t.selects = s.selects ∧ t.waited = s.waited ∧ t.handler = s.handler) :
    Telling s t := by
  obtain ⟨hselects, hwaited, hhandler⟩ := hsame
  refine ⟨fun q => ?_, hselects, hwaited, fun π x now hx => ?_, fun π x now hx => ?_⟩
  · by_cases hq : q = p
    · rw [hpc, hq, Function.update_self, hold.place.2.1, hnew.place.2.1]
    · rw [hpc, Function.update_of_ne hq]
  · exact Or.inl (hhandler ▸ hx)
  · exact Or.inl (hhandler ▸ hx)

/-- A writer tries Enabling to Ready, or finds that it has nothing to do. -/
theorem Inv.writer_marks (h : Inv net s) {c : Chan} (hold : Registered net c (s.pc p))
    (hp : p = net.role c .output) (hbefore : ∀ d q, s.pc p ≠ .freeSchedule d q)
    (hafter : pc' = .relinquish .output c ∨ pc' = .freeWaiting c (net.role c .input))
    {alt : Fin N → AltState}
    (halt : ∀ q, alt q = s.alt_state q ∨ (alt q = .ready ∧ s.alt_state q = .enabling))
    (htold : (s.pc (net.role c .input)).stage = .enabling ∨
        (s.pc (net.role c .input)).stage = .blocked →
      s.pc p = .free c (net.role c .input) ∨ s.alt_state (net.role c .input) ≠ .enabling →
      alt (net.role c .input) = .ready ∨
        (pc' = .freeWaiting c (net.role c .input) ∧
          alt (net.role c .input) ≠ .enabling)) :
    Inv net ({ s with alt_state := alt }.goto p pc') := by
  have hnew : Registered net c pc' := by
    rcases hafter with rfl | rfl
    · exact Or.inl rfl
    · exact Or.inr (Or.inr (Or.inl rfl))
  refine h.writer_tells hold hp hnew rfl ?_ ⟨fun _ => rfl, rfl, rfl, rfl, rfl⟩
    (fun _ => Or.inl rfl) (fun q => (halt q).imp_right And.left) htold
  apply h.wakes.tells
  · exact writer_telling hold hnew rfl ⟨rfl, rfl, rfl⟩
  · intro q a
    refine pending_update (by rfl) (by rfl) hbefore (fun d r => ?_) q a
    rcases hafter with rfl | rfl <;> simp
  · exact halt
  · rfl
  · rfl
  · exact fun q hf => Or.inl hf

/-- In `freeProcessMaybe`, the exchange from Enabling to Ready. -/
theorem Inv.free (h : Inv net s) {c : Chan} {r : Fin N} (hpc : s.pc p = .free c r) :
    (s.alt_state r = .enabling →
      Inv net ({ s with alt_state := Function.update s.alt_state r .ready }.goto p
        (.relinquish .output c))) ∧
    (s.alt_state r = .waiting → Inv net (s.goto p (.freeWaiting c r))) ∧
    (s.alt_state r ≠ .enabling → s.alt_state r ≠ .waiting →
      Inv net (s.goto p (.relinquish .output c))) := by
  obtain ⟨hp, rfl, hold⟩ := registered_of_role (h.roles p) (Or.inl hpc)
  have hbefore : ∀ d q, s.pc p ≠ .freeSchedule d q := by simp [hpc]
  have halt := (h.wakes.each (net.role c .input)).alt
  refine ⟨fun he => ?_, fun hw => ?_, fun he hw => ?_⟩
  · refine h.writer_marks hold hp hbefore (Or.inl rfl) (fun q => ?_)
      (fun _ _ => Or.inl (Function.update_self ..))
    by_cases hq : q = net.role c .input
    · subst hq
      exact Or.inr ⟨Function.update_self .., he⟩
    · exact Or.inl (Function.update_of_ne hq _ _)
  · refine h.writer_marks hold hp hbefore (Or.inr rfl) (fun _ => Or.inl rfl)
      (fun _ _ => Or.inr ⟨rfl, ?_⟩)
    simp [hw]
  · refine h.writer_marks hold hp hbefore (Or.inl rfl) (fun _ => Or.inl rfl) ?_
    intro hin _
    refine Or.inl ?_
    rcases hin with hs | hs <;> rw [hs] at halt <;> rcases halt with ha | ha
    · exact absurd ha he
    · exact ha
    · exact absurd ha hw
    · exact ha

/-- In `freeProcessMaybe`, the exchange from Waiting to Ready.  While the
process is in the select, it is not Enabling: the writer found it Waiting. -/
theorem Inv.freeWaiting (h : Inv net s) {c : Chan} {r : Fin N}
    (hpc : s.pc p = .freeWaiting c r) :
    (s.alt_state r = .waiting →
      Inv net ({ s with alt_state := Function.update s.alt_state r .ready }.goto p
        (.freeSchedule c r))) ∧
    (s.alt_state r ≠ .waiting → Inv net (s.goto p (.relinquish .output c))) := by
  obtain ⟨hp, rfl, hold⟩ := registered_of_role (h.roles p) (Or.inr (Or.inl hpc))
  have hbefore : ∀ d q, s.pc p ≠ .freeSchedule d q := by simp [hpc]
  have halt := (h.wakes.each (net.role c .input)).alt
  refine ⟨fun hw => ?_, fun hw => ?_⟩
  · have hnew : Registered net c (.freeSchedule c (net.role c .input) : Pc N Chan) :=
      Or.inr (Or.inr (Or.inr rfl))
    have hkeep : ∀ q, Function.update s.alt_state (net.role c .input) .ready q =
        s.alt_state q ∨
        Function.update s.alt_state (net.role c .input) .ready q = .ready := by
      intro q
      by_cases hq : q = net.role c .input
      · exact Or.inr (hq ▸ Function.update_self ..)
      · exact Or.inl (Function.update_of_ne hq _ _)
    refine h.writer_tells hold hp hnew rfl ?_ ⟨fun _ => rfl, rfl, rfl, rfl, rfl⟩
      (fun _ => Or.inl rfl) hkeep (fun _ _ => Or.inl (Function.update_self ..))
    refine h.wakes.wins (a := .inl p) (writer_telling hold hnew rfl ⟨rfl, rfl, rfl⟩) hw ?_
      rfl rfl rfl (fun q hf => Or.inl hf)
    intro q b
    refine (pending_writer (s := s) (by rfl) (by rfl) q b).trans ?_
    have hno : ¬ s.Pending q (.inl p) := by simp [Pending, hpc]
    constructor
    · rintro (⟨_, hb⟩ | ⟨rfl, d, hd⟩)
      · exact Or.inl hb
      · cases hd
        exact Or.inr ⟨rfl, rfl⟩
    · rintro (hb | ⟨rfl, rfl⟩)
      · refine Or.inl ⟨?_, hb⟩
        rintro rfl
        exact hno hb
      · exact Or.inr ⟨rfl, c, rfl⟩
  · refine h.writer_marks hold hp hbefore (Or.inl rfl) (fun _ => Or.inl rfl) ?_
    intro hin hne
    have hne' : s.alt_state (net.role c .input) ≠ .enabling := by simpa [hpc] using hne
    refine Or.inl ?_
    rcases hin with hs | hs <;> rw [hs] at halt <;> rcases halt with ha | ha
    · exact absurd ha hne'
    · exact ha
    · exact absurd ha hw
    · exact ha

/-- In `freeProcessMaybe`, scheduling. -/
theorem Inv.freeSchedule (h : Inv net s) {c : Chan} {r : Fin N}
    (hpc : s.pc p = .freeSchedule c r) :
    Inv net ({ s with
        runnable := Function.update s.runnable r true
        scheds := Function.update s.scheds r (s.scheds r + 1) }.goto p
      (.relinquish .output c)) := by
  obtain ⟨hp, hr, hold⟩ := registered_of_role (h.roles p) (Or.inr (Or.inr hpc))
  have hnew : Registered net c (.relinquish .output c : Pc N Chan) := Or.inl rfl
  have ha : s.Pending r (.inl p) := ⟨c, hpc⟩
  obtain ⟨hblocked, hready, _⟩ := h.wakes.pend r _ ha
  refine h.writer_tells hold hp hnew rfl ?_ ⟨fun _ => rfl, rfl, rfl, rfl, rfl⟩ ?_
    (fun _ => Or.inl rfl) (fun _ _ => Or.inl (hr ▸ hready))
  · refine h.wakes.schedules (writer_telling hold hnew rfl ⟨rfl, rfl, rfl⟩) ha ?_
      rfl rfl rfl rfl ?_
    · intro q b
      refine (pending_writer (s := s) (by rfl) (by rfl) q b).trans ?_
      simp [and_comm]
    · rintro q ⟨d, hd⟩
      rw [hpc] at hd
      cases hd
      rfl
  · intro q
    by_cases hq : q = r
    · subst hq
      exact Or.inr ⟨Function.update_self .., hblocked⟩
    · exact Or.inl (Function.update_of_ne hq _ _)

end Writers

section Handlers

variable {π : Fin U} {place : HandlerPc N}

omit [DecidableEq Chan] in
/-- A step of a handler. -/
theorem pending_handler (hpc : t.pc = s.pc)
    (hhandler : t.handler = Function.update s.handler π place) (r : Fin N)
    (a : Agent N U) :
    t.Pending r a ↔ (a ≠ .inr π ∧ s.Pending r a) ∨
      (a = .inr π ∧ ∃ now, place = .enqueue r now) := by
  cases a with
  | inl u => simp [Pending, hpc]
  | inr ρ =>
      by_cases hρ : ρ = π
      · subst hρ
        simp [Pending, hhandler]
      · simp [Pending, hhandler, hρ]

omit [DecidableEq Chan] in
/-- A handler leaves the handshake alone but for `alt_state`. -/
theorem handler_telling (hpc : t.pc = s.pc)
    (hhandler : t.handler = Function.update s.handler π place)
    (hsame : t.selects = s.selects ∧ t.waited = s.waited)
    (hstale : ∀ x now, place = .freeWaiting x now → s.alt_state x.proc ≠ .enabling)
    (htaken : ∀ x now, place = .free x now ∨ place = .freeWaiting x now →
      s.handler π = .free x now ∨ x.select = s.selects x.proc) : Telling s t := by
  refine ⟨fun q => by rw [hpc], hsame.1, hsame.2, fun ρ x now hx => ?_,
    fun ρ x now hx => ?_⟩
  · rw [hhandler] at hx
    by_cases hρ : ρ = π
    · subst hρ
      rw [Function.update_self] at hx
      exact Or.inr (hstale x now hx)
    · rw [Function.update_of_ne hρ] at hx
      exact Or.inl hx
  · rw [hhandler] at hx
    by_cases hρ : ρ = π
    · subst hρ
      rw [Function.update_self] at hx
      rcases htaken x now hx with hold | heq
      · exact Or.inl (Or.inl hold)
      · exact Or.inr (Nat.le_of_eq heq)
    · rw [Function.update_of_ne hρ] at hx
      exact Or.inl hx

/-- A step of a handler, seen from the channels. -/
theorem Inv.handler_tells (h : Inv net s) (hwakes : t.Wakes) (hpc : t.pc = s.pc)
    (hsame : (∀ c, t.own c = s.own c) ∧ t.src = s.src ∧ t.dest = s.dest ∧
      t.sched_state = s.sched_state)
    (hrun : ∀ q, t.runnable q = s.runnable q ∨
      (t.runnable q = true ∧ (s.pc q).stage = .blocked))
    (hkeep : ∀ q, t.alt_state q = s.alt_state q ∨ t.alt_state q = .ready)
    (htype : ∀ d, t.tm.type d = .alting) : Inv net t := by
  refine h.tells hwakes (fun q => by rw [hpc]; exact h.roles q) (fun q => by simp [hpc])
    hsame hrun (fun c _ hv => hv.told ?_ (hkeep _) fun _ => Or.inl (by rw [hpc])) htype
  have := hsame.1 c
  simp only [own, Prod.mk.injEq] at this
  exact this.1

/-- A handler tries Enabling to Ready, or has nothing to do, or looks at its
queue. -/
theorem Inv.handler_marks (h : Inv net s)
    (hbefore : ∀ r now, s.handler π ≠ .enqueue r now)
    (hafter : ∀ r now, place ≠ .enqueue r now)
    (hpc : t.pc = s.pc) (hhandler : t.handler = Function.update s.handler π place)
    (htelling : Telling s t)
    (hsame : (∀ c, t.own c = s.own c) ∧ t.src = s.src ∧ t.dest = s.dest ∧
      t.sched_state = s.sched_state)
    (hrun : t.runnable = s.runnable ∧ t.scheds = s.scheds)
    (halt : ∀ q, t.alt_state q = s.alt_state q ∨
      (t.alt_state q = .ready ∧ s.alt_state q = .enabling))
    (hfired : ∀ r, t.fired r = true →
      s.fired r = true ∨ t.alt_state r = .ready ∨ t.alt_state r = .none)
    (htype : ∀ d, t.tm.type d = .alting) : Inv net t := by
  refine h.handler_tells ?_ hpc hsame (fun _ => Or.inl (by rw [hrun.1]))
    (fun q => (halt q).imp_right And.left) htype
  refine h.wakes.tells htelling (fun r a => ?_) halt hrun.1 hrun.2 hfired
  rw [pending_handler hpc hhandler]
  constructor
  · rintro (⟨_, ha⟩ | ⟨_, now, hn⟩)
    · exact ha
    · exact absurd hn (hafter r now)
  · intro ha
    refine Or.inl ⟨?_, ha⟩
    rintro rfl
    obtain ⟨now, hn⟩ := ha
    exact hbefore r now hn

omit [DecidableEq Chan] in
/-- The alternation's process at the end of `maybeFreeAltingProcess`. -/
theorem processed_fired {x : Expired N}
    (hx : x.select = s.selects x.proc → s.alt_state x.proc = .ready ∨
      s.alt_state x.proc = .none) (r : Fin N)
    (hr : (s.processed x).fired r = true) :
    s.fired r = true ∨ s.alt_state r = .ready ∨ s.alt_state r = .none := by
  simp only [processed] at hr
  split at hr
  next hsel =>
    by_cases hp : r = x.proc
    · exact Or.inr (hp ▸ hx hsel)
    · rw [Function.update_of_ne hp] at hr
      exact Or.inl hr
  next => exact Or.inl hr

/-- In `maybeFreeAltingProcess`, the exchange from Enabling to Ready. -/
theorem Inv.handle_free (h : Inv net s) {x : Expired N} {now : Int}
    (hpc : s.handler π = .free x now) :
    (s.alt_state x.proc = .enabling →
      Inv net (({ s with
          alt_state := Function.update s.alt_state x.proc .ready }.processed x).handlerGoto
        π (.loop now))) ∧
    (s.alt_state x.proc = .waiting → Inv net (s.handlerGoto π (.freeWaiting x now))) ∧
    (s.alt_state x.proc ≠ .enabling → s.alt_state x.proc ≠ .waiting →
      Inv net ((s.processed x).handlerGoto π (.loop now))) := by
  have hbefore : ∀ r now, s.handler π ≠ .enqueue r now := by simp [hpc]
  refine ⟨fun he => ?_, fun hw => ?_, fun he hw => ?_⟩
  · refine h.handler_marks hbefore (by simp) rfl rfl ?_ ⟨fun _ => rfl, rfl, rfl, rfl⟩
      ⟨rfl, rfl⟩ ?_ ?_ h.alting
    · exact handler_telling rfl rfl ⟨rfl, rfl⟩ (by simp) (by simp)
    · intro q
      by_cases hq : q = x.proc
      · subst hq
        exact Or.inr ⟨Function.update_self .., he⟩
      · exact Or.inl (Function.update_of_ne hq _ _)
    · exact processed_fired fun _ => Or.inl (Function.update_self ..)
  · refine h.handler_marks hbefore (by simp) rfl rfl ?_ ⟨fun _ => rfl, rfl, rfl, rfl⟩
      ⟨rfl, rfl⟩ (fun _ => Or.inl rfl) (fun _ hf => Or.inl hf) h.alting
    refine handler_telling rfl rfl ⟨rfl, rfl⟩ ?_ ?_
    · intro y n hy
      cases hy
      simp [hw]
    · intro y n hy
      obtain ⟨rfl, rfl⟩ : x = y ∧ now = n := by simpa using hy
      exact Or.inl hpc
  · refine h.handler_marks hbefore (by simp) rfl rfl ?_ ⟨fun _ => rfl, rfl, rfl, rfl⟩
      ⟨rfl, rfl⟩ (fun _ => Or.inl rfl) ?_ h.alting
    · exact handler_telling rfl rfl ⟨rfl, rfl⟩ (by simp) (by simp)
    · refine processed_fired fun _ => ?_
      cases ha : s.alt_state x.proc <;> simp [ha] at he hw ⊢

/-- In `maybeFreeAltingProcess`, the exchange from Waiting to Ready. -/
theorem Inv.handle_freeWaiting (h : Inv net s) {x : Expired N} {now : Int}
    (hpc : s.handler π = .freeWaiting x now) :
    (s.alt_state x.proc = .waiting →
      Inv net (({ s with
          alt_state := Function.update s.alt_state x.proc .ready }.processed x).handlerGoto
        π (.enqueue x.proc now))) ∧
    (s.alt_state x.proc ≠ .waiting →
      Inv net ((s.processed x).handlerGoto π (.loop now))) := by
  refine ⟨fun hw => ?_, fun hw => ?_⟩
  · refine h.handler_tells ?_ rfl ⟨fun _ => rfl, rfl, rfl, rfl⟩ (fun _ => Or.inl rfl) ?_
      h.alting
    · refine h.wakes.wins (a := .inr π) ?_ hw ?_ rfl rfl rfl ?_
      · exact handler_telling rfl rfl ⟨rfl, rfl⟩ (by simp) (by simp)
      · intro q b
        refine (pending_handler (s := s) (by rfl) (by rfl) q b).trans ?_
        have hno : ¬ s.Pending q (.inr π) := by simp [Pending, hpc]
        constructor
        · rintro (⟨_, hb⟩ | ⟨rfl, n, hn⟩)
          · exact Or.inl hb
          · cases hn
            exact Or.inr ⟨rfl, rfl⟩
        · rintro (hb | ⟨rfl, rfl⟩)
          · refine Or.inl ⟨?_, hb⟩
            rintro rfl
            exact hno hb
          · exact Or.inr ⟨rfl, now, rfl⟩
      · intro q hf
        simp only [handlerGoto, processed] at hf
        split at hf
        next =>
          by_cases hq : q = x.proc
          · exact Or.inr hq
          · rw [Function.update_of_ne hq] at hf
            exact Or.inl hf
        next => exact Or.inl hf
    · intro q
      by_cases hq : q = x.proc
      · subst hq
        exact Or.inr (Function.update_self ..)
      · exact Or.inl (Function.update_of_ne hq _ _)
  · refine h.handler_marks (by simp [hpc]) (by simp) rfl rfl ?_
      ⟨fun _ => rfl, rfl, rfl, rfl⟩ ⟨rfl, rfl⟩ (fun _ => Or.inl rfl) ?_ h.alting
    · exact handler_telling rfl rfl ⟨rfl, rfl⟩ (by simp) (by simp)
    · refine processed_fired fun hsel => ?_
      have hne := (h.wakes.each x.proc).stale π x now hpc rfl hsel
      cases ha : s.alt_state x.proc <;> simp [ha] at hne hw ⊢

/-- A handler enqueues the process it has made Ready. -/
theorem Inv.handle_enqueue (h : Inv net s) {r : Fin N} {now : Int}
    (hpc : s.handler π = .enqueue r now) :
    Inv net ({ s with
        runnable := Function.update s.runnable r true
        scheds := Function.update s.scheds r (s.scheds r + 1) }.handlerGoto π
      (.loop now)) := by
  have ha : s.Pending r (.inr π) := ⟨now, hpc⟩
  obtain ⟨hblocked, _⟩ := h.wakes.pend r _ ha
  refine h.handler_tells ?_ rfl ⟨fun _ => rfl, rfl, rfl, rfl⟩ ?_ (fun _ => Or.inl rfl)
    h.alting
  · refine h.wakes.schedules ?_ ha ?_ rfl rfl rfl rfl ?_
    · exact handler_telling rfl rfl ⟨rfl, rfl⟩ (by simp) (by simp)
    · intro q b
      refine (pending_handler (s := s) (by rfl) (by rfl) q b).trans ?_
      simp [and_comm]
    · rintro q ⟨n, hn⟩
      rw [hpc] at hn
      cases hn
      rfl
  · intro q
    by_cases hq : q = r
    · subst hq
      exact Or.inr ⟨Function.update_self .., hblocked⟩
    · exact Or.inl (Function.update_of_ne hq _ _)

/-- A step of the timeout interrupt handler. -/
theorem Inv.handle (h : Inv net s) (hstep : s.handle π = some t) : Inv net t := by
  cases hpc : s.handler π with
  | idle => simp [Comm.handle, hpc] at hstep
  | loop now =>
      have hmarks : ∀ pc : HandlerPc N, (∀ r n, pc ≠ .enqueue r n) →
          (∀ x n, pc ≠ .freeWaiting x n) →
          (∀ x n, pc = .free x n → x.select = s.selects x.proc) →
          ∀ tm : Timers N U, (∀ d, tm.type d = .alting) →
          Inv net ({ s with tm := tm }.handlerGoto π pc) := by
        intro pc h1 h2 h3 tm htm
        refine h.handler_marks (by simp [hpc]) h1 rfl rfl ?_ ⟨fun _ => rfl, rfl, rfl, rfl⟩
          ⟨rfl, rfl⟩ (fun _ => Or.inl rfl) (fun _ hf => Or.inl hf) htm
        refine handler_telling rfl rfl ⟨rfl, rfl⟩ (fun x n hx => absurd hx (h2 x n)) ?_
        intro x n hx
        rcases hx with hx | hx
        · exact Or.inr (h3 x n hx)
        · exact absurd hx (h2 x n)
      simp only [Comm.handle, hpc, Option.some.injEq] at hstep
      subst hstep
      split
      next => exact hmarks .idle (by simp) (by simp) (by simp) s.tm h.alting
      next head _ =>
        split
        next =>
          rw [h.alting head]
          refine hmarks (.free _ now) (by simp) (by simp) ?_ (s.tm.removeHead π head) h.alting
          intro x n hx
          cases hx
          rfl
        next => exact hmarks .idle (by simp) (by simp) (by simp) s.tm h.alting
  | free x now =>
      obtain ⟨h1, h2, h3⟩ := h.handle_free hpc
      simp only [Comm.handle, hpc, Option.some.injEq] at hstep
      subst hstep
      split
      next he => exact h1 he
      next hw => exact h2 hw
      next he hw => exact h3 he hw
  | freeWaiting x now =>
      obtain ⟨h1, h2⟩ := h.handle_freeWaiting hpc
      simp only [Comm.handle, hpc, Option.some.injEq] at hstep
      subst hstep
      split
      next hw => exact h1 hw
      next hw => exact h2 hw
  | enqueue r now =>
      simp only [Comm.handle, hpc, Option.some.injEq] at hstep
      exact hstep ▸ h.handle_enqueue hpc

/-- A timeout interrupt. -/
theorem Inv.interrupt (h : Inv net s) (hidle : s.handler π = .idle) :
    Inv net (s.handlerGoto π (.loop s.clock)) := by
  refine h.handler_marks (by simp [hidle]) (by simp) rfl rfl ?_ ⟨fun _ => rfl, rfl, rfl, rfl⟩
    ⟨rfl, rfl⟩ (fun _ => Or.inl rfl) (fun _ hf => Or.inl hf) h.alting
  exact handler_telling rfl rfl ⟨rfl, rfl⟩ (by simp) (by simp)

end Handlers

end Comm

end Cxp
