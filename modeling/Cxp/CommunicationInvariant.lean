import Cxp.CommunicationView

/-!
# What every run of channels and alternations keeps

The invariant has five parts: each process is where its role allows
(`RoleOk`), a process that is not blocked is runnable, every channel is a
`Meeting` whose parties meet, the `alt_state` handshake goes right (`Wakes`),
and on every channel that an alternation has enabled either the alternation is
registered or a writer that will tell it (`Visit`).
-/

namespace Cxp

open Meeting Timers

variable {N U : Nat} {Chan Msg : Type} [DecidableEq Chan]

/-- The part of a select that a process is in. -/
inductive Stage
  | away
  | enabling
  | blocked
  | disabling
  deriving DecidableEq

/-- The part of a select that a process is in. -/
def Pc.stage : Pc N Chan → Stage
  | .enable _ _ | .fill _ _ _ | .insert _ _ _ | .shouldWait _ => .enabling
  | .altWait _ => .blocked
  | .disable _ _ _ | .remove _ _ _ _ | .release _ _ _ _ | .finish _ _ => .disabling
  | _ => .away

/-- The values of `alt_state` in each part of a select. -/
def Stage.allows : Stage → AltState → Prop
  | .away, a => a = .none
  | .enabling, a => a = .enabling ∨ a = .ready
  | .blocked, a => a = .waiting ∨ a = .ready
  | .disabling, a => a = .enabling ∨ a = .ready

/-- The process has given up the processor. -/
def Pc.blocked : Pc N Chan → Bool
  | .wait _ _ | .altWait _ => true
  | _ => false

/-- Who may wake an alternation: a writer, or the handler of a processor. -/
abbrev Agent (N U : Nat) := Fin N ⊕ Fin U

namespace Comm

/-- An agent has won the exchange from Waiting to Ready and is about to
schedule process `r`. -/
def Pending (s : Comm N U Chan Msg) (r : Fin N) : Agent N U → Prop
  | .inl u => ∃ c, s.pc u = .freeSchedule c r
  | .inr π => ∃ now, s.handler π = .enqueue r now

/-- The handshake on `alt_state`, as far as one process is concerned. -/
structure Handshake (s : Comm N U Chan Msg) (r : Fin N) : Prop where
  alt : (s.pc r).stage.allows (s.alt_state r)
  resting : s.alt_state r = .waiting → s.runnable r = false ∧ s.scheds r = 0
  woken : (s.pc r).stage = .blocked → s.alt_state r = .ready →
    s.runnable r = true ∨ ∃ a, s.Pending r a
  fresh : (s.pc r).stage = .enabling → s.scheds r = 0
  count : s.scheds r ≤ 1 ∧ (s.waited r = false → s.scheds r = 0)
  waited : (s.pc r).stage = .blocked → s.waited r = true
  fired : s.fired r = true → s.alt_state r = .ready ∨ s.alt_state r = .none
  stale : ∀ π x now, s.handler π = .freeWaiting x now → x.proc = r →
    x.select = s.selects r → s.alt_state r ≠ .enabling
  taken : ∀ π x now, s.handler π = .free x now ∨ s.handler π = .freeWaiting x now →
    x.proc = r → x.select ≤ s.selects r

/-- The handshake on `alt_state`. -/
structure Wakes (s : Comm N U Chan Msg) : Prop where
  each : ∀ r, s.Handshake r
  pend : ∀ r a, s.Pending r a → (s.pc r).stage = .blocked ∧
    s.alt_state r = .ready ∧ s.runnable r = false ∧ s.scheds r = 0
  unique : ∀ r a b, s.Pending r a → s.Pending r b → a = b

/-- An enabled channel of process `r`: the process is registered, or the
writer is, which has still to tell the process or has told it. -/
def Visit (net : Net N Chan) (s : Comm N U Chan Msg) (r : Fin N) (c : Chan) : Prop :=
  s.waiting c = some r ∨
    (s.waiting c = some (net.role c .output) ∧
      (s.pc (net.role c .output) = .free c r ∨
        (s.pc (net.role c .output) = .freeWaiting c r ∧ s.alt_state r ≠ .enabling) ∨
        s.alt_state r = .ready))

/-- The invariant of channels and alternations. -/
structure Inv (net : Net N Chan) (s : Comm N U Chan Msg) : Prop where
  roles : ∀ p, RoleOk net p (s.pc p)
  runs : ∀ p, (s.pc p).blocked = false → s.runnable p = true
  meets : ∀ c, Meets (net.role c) (s.view net c)
  wakes : s.Wakes
  visited : ∀ r f k, (s.pc r).guards = some (f, k) → (s.pc r).stage ≠ .disabling →
    ∀ c, f.Active k c → s.Visit net r c
  alting : ∀ d, s.tm.type d = .alting

variable {net : Net N Chan} {s t : Comm N U Chan Msg}

theorem inv_init (proc : Fin N) (msg : Msg) :
    Inv net (init N U Chan proc msg) where
  roles := fun p => by constructor <;> simp [init, Pc.channel, Pc.guards]
  runs := fun _ _ => rfl
  meets := fun c => meets_fresh (net.role c)
  wakes := by
    refine ⟨fun r => ?_, ?_, ?_⟩
    · constructor <;> simp [init, Pc.stage, Stage.allows]
    · simp [init, Pending]
    · simp [init, Pending]
  visited := by simp [init, Pc.guards]
  alting := fun _ => rfl

section Frames

variable {p : Fin N} {pc' : Pc N Chan}

omit [DecidableEq Chan] in
/-- Whoever is about to schedule whom stays the same while a process moves
between other places. -/
theorem pending_update (hpc : t.pc = Function.update s.pc p pc')
    (hhandler : t.handler = s.handler) (hold : ∀ c q, s.pc p ≠ .freeSchedule c q)
    (hnew : ∀ c q, pc' ≠ .freeSchedule c q) (r : Fin N) (a : Agent N U) :
    t.Pending r a ↔ s.Pending r a := by
  cases a with
  | inl u =>
      by_cases hu : u = p
      · subst hu
        simp [Pending, hpc, hnew, hold]
      · simp [Pending, hpc, hu]
  | inr π => simp [Pending, hhandler]

omit [DecidableEq Chan] in
/-- The handshake of a process whose own fields stay as they are. -/
theorem Handshake.frame {r : Fin N} (h : s.Handshake r)
    (hstage : (t.pc r).stage = (s.pc r).stage) (halt : t.alt_state r = s.alt_state r)
    (hselects : t.selects r = s.selects r) (hscheds : t.scheds r = s.scheds r)
    (hwaited : t.waited r = s.waited r) (hfired : t.fired r = s.fired r)
    (hrun : (s.pc r).stage = .blocked → t.runnable r = s.runnable r)
    (hpend : ∀ a, s.Pending r a → t.Pending r a)
    (hhandler : t.handler = s.handler) : t.Handshake r := by
  have hblocked : s.alt_state r = .waiting → (s.pc r).stage = .blocked := by
    intro hr
    have := h.alt
    rw [hr] at this
    cases hs : (s.pc r).stage <;> simp [hs, Stage.allows] at this ⊢
  constructor
  · rw [hstage, halt]
    exact h.alt
  · intro hr
    rw [halt] at hr
    rw [hrun (hblocked hr), hscheds]
    exact h.resting hr
  · intro hs ha
    rw [hstage] at hs
    rw [hrun hs]
    exact (h.woken hs (halt ▸ ha)).imp_right fun ⟨a, ha⟩ => ⟨a, hpend a ha⟩
  · rw [hstage, hscheds]
    exact h.fresh
  · rw [hscheds, hwaited]
    exact h.count
  · rw [hstage, hwaited]
    exact h.waited
  · rw [hfired, halt]
    exact h.fired
  · rw [hhandler, hselects, halt]
    exact h.stale
  · rw [hhandler, hselects]
    exact h.taken

omit [DecidableEq Chan] in
/-- A step of a process that nobody is about to schedule. -/
theorem Wakes.moves (h : s.Wakes) (hpc : t.pc = Function.update s.pc p pc')
    (hhandler : t.handler = s.handler) (hold : ∀ c q, s.pc p ≠ .freeSchedule c q)
    (hnew : ∀ c q, pc' ≠ .freeSchedule c q) (hquiet : ∀ a, ¬ s.Pending p a)
    (hother : ∀ q, q ≠ p → t.alt_state q = s.alt_state q ∧ t.selects q = s.selects q ∧
      t.scheds q = s.scheds q ∧ t.waited q = s.waited q ∧ t.fired q = s.fired q)
    (hrun : ∀ q, q ≠ p → (s.pc q).stage = .blocked → t.runnable q = s.runnable q)
    (hself : t.Handshake p) : t.Wakes := by
  have hpend := pending_update hpc hhandler hold hnew
  refine ⟨fun r => ?_, fun r a ha => ?_, fun r a b ha hb => ?_⟩
  · by_cases hr : r = p
    · exact hr ▸ hself
    · obtain ⟨h1, h2, h3, h4, h5⟩ := hother r hr
      exact (h.each r).frame (by simp [hpc, hr]) h1 h2 h3 h4 h5 (hrun r hr)
        (fun a ha => (hpend r a).mpr ha) hhandler
  · have ha' := (hpend r a).mp ha
    have hr : r ≠ p := by
      intro heq
      exact hquiet a (heq ▸ ha')
    obtain ⟨h1, h2, h3, h4⟩ := h.pend r a ha'
    obtain ⟨halt, -, hscheds, -⟩ := hother r hr
    rw [halt, hscheds, hrun r hr h1]
    exact ⟨by simpa [hpc, hr] using h1, h2, h3, h4⟩
  · exact h.unique r a b ((hpend r a).mp ha) ((hpend r b).mp hb)

omit [DecidableEq Chan] in
/-- Nobody is about to schedule a process that is not blocked in a select, or
that is runnable. -/
theorem Wakes.quiet (h : s.Wakes)
    (hp : (s.pc p).stage = .blocked → s.runnable p = true) (a : Agent N U) :
    ¬ s.Pending p a := by
  intro ha
  obtain ⟨h1, _, h3, _⟩ := h.pend p a ha
  rw [hp h1] at h3
  cases h3

omit [DecidableEq Chan] in
/-- A step of a process outside the handshake. -/
theorem Wakes.frame (h : s.Wakes) (hpc : t.pc = Function.update s.pc p pc')
    (hfields : t.alt_state = s.alt_state ∧ t.selects = s.selects ∧
      t.scheds = s.scheds ∧ t.waited = s.waited ∧ t.fired = s.fired ∧
      t.handler = s.handler)
    (hold : ∀ c q, s.pc p ≠ .freeSchedule c q) (hnew : ∀ c q, pc' ≠ .freeSchedule c q)
    (hstage : pc'.stage.allows (s.alt_state p)) (hblocked : pc'.stage ≠ .blocked)
    (hfresh : pc'.stage = .enabling → (s.pc p).stage = .enabling)
    (hleave : (s.pc p).stage = .blocked → s.runnable p = true)
    (hrun : ∀ q, q ≠ p → (s.pc q).stage = .blocked → t.runnable q = s.runnable q) :
    t.Wakes := by
  obtain ⟨halt, hselects, hscheds, hwaited, hfired, hhandler⟩ := hfields
  have hp := h.each p
  refine h.moves hpc hhandler hold hnew (h.quiet hleave) ?_ hrun ?_
  · intro q _
    rw [halt, hselects, hscheds, hwaited, hfired]
    exact ⟨rfl, rfl, rfl, rfl, rfl⟩
  have hpc' : t.pc p = pc' := by rw [hpc, Function.update_self]
  have hnot : pc'.stage.allows .waiting → pc'.stage = .blocked := by
    cases pc'.stage <;> simp [Stage.allows]
  constructor
  · rw [hpc', halt]
    exact hstage
  · intro hw
    rw [halt] at hw
    exact absurd (hnot (hw ▸ hstage)) hblocked
  · rw [hpc']
    exact fun hb _ => absurd hb hblocked
  · rw [hpc', hscheds]
    exact fun he => hp.fresh (hfresh he)
  · rw [hscheds, hwaited]
    exact hp.count
  · rw [hpc']
    exact fun hb => absurd hb hblocked
  · rw [hfired, halt]
    exact hp.fired
  · rw [hhandler, hselects, halt]
    exact hp.stale
  · rw [hhandler, hselects]
    exact hp.taken

omit [DecidableEq Chan] in
/-- An enabled channel stays as it is when neither its registration nor its
writer's telling changes. -/
theorem Visit.frame {r : Fin N} {c : Chan} (h : s.Visit net r c)
    (hwaiting : t.waiting c = s.waiting c) (halt : t.alt_state r = s.alt_state r)
    (hpc : s.pc (net.role c .output) = .free c r ∨
        s.pc (net.role c .output) = .freeWaiting c r →
      t.pc (net.role c .output) = s.pc (net.role c .output)) : t.Visit net r c := by
  unfold Visit at *
  rw [hwaiting, halt]
  refine h.imp_right fun ⟨hw, hcase⟩ => ⟨hw, ?_⟩
  rcases hcase with hf | ⟨hf, ha⟩ | ha
  · exact Or.inl ((hpc (Or.inl hf)).trans hf)
  · exact Or.inr (Or.inl ⟨(hpc (Or.inr hf)).trans hf, ha⟩)
  · exact Or.inr (Or.inr ha)

/-- A process shows at a channel what it did before, or, being away, shows
nothing whatever its own fields are. -/
theorem party_rest {c : Chan} {e : End} (hpc : t.pc (net.role c e) = s.pc (net.role c e))
    (h : (t.buf e (net.role c e) = s.buf e (net.role c e) ∧
        t.sched_state (net.role c e) = s.sched_state (net.role c e) ∧
        t.runnable (net.role c e) = s.runnable (net.role c e)) ∨
      ∀ (buf : Msg) st run, (s.pc (net.role c e)).party c buf st run = .away) :
    t.party net c e = s.party net c e := by
  rcases h with ⟨h1, h2, h3⟩ | haway
  · exact party_eq hpc h1 h2 h3
  · simp only [party, hpc, haway]

/-- A step seen from a channel where its process shows the same as before. -/
theorem view_other {c : Chan} (hpc : t.pc = Function.update s.pc p pc')
    (hown : t.own c = s.own c)
    (hself : ∀ (buf buf' : Msg) st st' run run',
      pc'.party c buf' st' run' = (s.pc p).party c buf st run)
    (hrest : ∀ e, net.role c e ≠ p →
      (t.buf e (net.role c e) = s.buf e (net.role c e) ∧
        t.sched_state (net.role c e) = s.sched_state (net.role c e) ∧
        t.runnable (net.role c e) = s.runnable (net.role c e)) ∨
      ∀ (buf : Msg) st run, (s.pc (net.role c e)).party c buf st run = .away) :
    t.view net c = s.view net c := by
  have hparty : ∀ e, t.party net c e = s.party net c e := by
    intro e
    by_cases he : net.role c e = p
    · simp only [party, hpc, he, Function.update_self]
      exact hself _ _ _ _ _ _
    · exact party_rest (by simp [hpc, he]) (hrest e he)
  exact view_eq (hparty .input) (hparty .output) hown

omit [DecidableEq Chan] in
/-- One process moves on within its role. -/
theorem roles_update (h : ∀ q, RoleOk net q (s.pc q))
    (hpc : t.pc = Function.update s.pc p pc') (hp : RoleOk net p pc') (q : Fin N) :
    RoleOk net q (t.pc q) := by
  rw [hpc]
  by_cases hqp : q = p
  · subst hqp
    simpa using hp
  · simpa [hqp] using h q

omit [DecidableEq Chan] in
/-- Processes that are not blocked stay runnable. -/
theorem runs_update (h : ∀ q, (s.pc q).blocked = false → s.runnable q = true)
    (hpc : t.pc = Function.update s.pc p pc')
    (hp : pc'.blocked = false → t.runnable p = true)
    (hother : ∀ q, q ≠ p → t.runnable q = s.runnable q ∨ t.runnable q = true)
    (q : Fin N) (hq : (t.pc q).blocked = false) : t.runnable q = true := by
  by_cases hqp : q = p
  · subst hqp
    exact hp (by simpa [hpc] using hq)
  · rcases hother q hqp with heq | ht
    · rw [heq]
      exact h q (by simpa [hpc, hqp] using hq)
    · exact ht

/-- A step of a call of `in` or `out` on channel `d` that does not touch the
handshake of alternations. -/
theorem Inv.call (h : Inv net s) {d : Chan}
    (hpc : t.pc = Function.update s.pc p pc')
    (hfields : t.alt_state = s.alt_state ∧ t.selects = s.selects ∧
      t.scheds = s.scheds ∧ t.waited = s.waited ∧ t.fired = s.fired ∧
      t.handler = s.handler ∧ t.tm = s.tm)
    (hin : (s.pc p).stage = .away ∧ (∀ e c, (s.pc p).channel = some (e, c) → c = d) ∧
      ∀ c q, s.pc p ≠ .freeSchedule c q)
    (hout : pc'.stage = .away ∧ pc'.guards = none ∧
      (∀ e c, pc'.channel = some (e, c) → c = d) ∧ ∀ c q, pc' ≠ .freeSchedule c q)
    (hrole : RoleOk net p pc')
    (hmeets : Meets (net.role d) (t.view net d))
    (hown : ∀ c, c ≠ d → t.own c = s.own c)
    (hrest : ∀ c e, c ≠ d → net.role c e ≠ p →
      (t.buf e (net.role c e) = s.buf e (net.role c e) ∧
        t.sched_state (net.role c e) = s.sched_state (net.role c e) ∧
        t.runnable (net.role c e) = s.runnable (net.role c e)) ∨
      ∀ (buf : Msg) st run, (s.pc (net.role c e)).party c buf st run = .away)
    (hrun : pc'.blocked = false → t.runnable p = true)
    (hrunOther : ∀ q, q ≠ p → t.runnable q = s.runnable q ∨
      (t.runnable q = true ∧ (s.pc q).stage = .away))
    (hvisit : ∀ r c, (s.pc r).stage ≠ .away → net.role c .input = r →
      s.Visit net r c → t.Visit net r c) :
    Inv net t := by
  obtain ⟨halt, hselects, hscheds, hwaited, hfired, hhandler, htm⟩ := hfields
  obtain ⟨hstage, hchan, hfree⟩ := hin
  obtain ⟨hstage', hguards', hchan', hfree'⟩ := hout
  have hguards : (s.pc p).guards = none := by
    cases hp : s.pc p <;> simp [hp, Pc.stage, Pc.guards] at hstage ⊢
  refine ⟨roles_update h.roles hpc hrole, ?_, fun c => ?_, ?_, ?_, htm ▸ h.alting⟩
  · exact runs_update h.runs hpc hrun fun q hq => (hrunOther q hq).imp_right And.left
  · by_cases hc : c = d
    · exact hc ▸ hmeets
    · rw [view_other hpc (hown c hc) ?_ (hrest c · hc)]
      · exact h.meets c
      · intro buf buf' st st' run run'
        rw [Pc.party_away (fun e he => hc (hchan' e c he)) (by simp [hguards']),
          Pc.party_away (fun e he => hc (hchan e c he)) (by simp [hguards])]
  · refine h.wakes.frame hpc ⟨halt, hselects, hscheds, hwaited, hfired, hhandler⟩ hfree
      hfree' ?_ (by simp [hstage']) (by simp [hstage']) (by simp [hstage]) ?_
    · have := (h.wakes.each p).alt
      rw [hstage] at this
      rw [hstage']
      exact this
    · intro q hqp hq
      rcases hrunOther q hqp with heq | ⟨_, haway⟩
      · exact heq
      · rw [haway] at hq
        cases hq
  · intro r f k hr hst c hactive
    have hrp : r ≠ p := by
      rintro rfl
      rw [hpc, Function.update_self, hguards'] at hr
      cases hr
    rw [hpc, Function.update_of_ne hrp] at hr hst
    have haway : (s.pc r).stage ≠ .away := by
      intro ha
      cases hp : s.pc r <;> simp [hp, Pc.stage, Pc.guards] at ha hr
    exact hvisit r c haway ((h.roles r).guards f k c hr hactive)
      (h.visited r f k hr hst c hactive)

end Frames

end Comm

end Cxp
