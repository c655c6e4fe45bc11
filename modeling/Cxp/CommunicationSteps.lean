import Cxp.CommunicationInvariant

/-!
# Calls of `in` and `out`, step by step

Each step of a call is one of the things that can happen at a channel, so
that the lemmas about a `Meeting` apply; everywhere else nothing shows.
-/

namespace Cxp

open Meeting Timers

variable {N U : Nat} {Chan Msg : Type} [DecidableEq Chan]

namespace Comm

variable {net : Net N Chan} {s t : Comm N U Chan Msg} {p : Fin N} {pc' : Pc N Chan}
  {c d : Chan} {e : End}

/-- What the process that moves shows at a channel of its own. -/
theorem party_self (hpc : t.pc = Function.update s.pc p pc') (he : net.role c e = p) :
    t.party net c e = pc'.party c (t.buf e p) (t.sched_state p) (t.runnable p) := by
  simp only [party, hpc, he, Function.update_self]

/-- What the other party shows, when its own fields stay. -/
theorem party_peer (hpc : t.pc = Function.update s.pc p pc') (he : net.role c e ≠ p)
    (hbuf : t.buf e (net.role c e) = s.buf e (net.role c e))
    (hst : t.sched_state (net.role c e) = s.sched_state (net.role c e))
    (hrun : t.runnable (net.role c e) = s.runnable (net.role c e)) :
    t.party net c e = s.party net c e :=
  party_eq (by simp [hpc, he]) hbuf hst hrun

/-- The view, field by field. -/
theorem view_ext {m : Meeting (Fin N) Msg} (hin : t.party net c .input = m.reader)
    (hout : t.party net c .output = m.writer)
    (hown : t.own c = (m.waiting, m.ptr, m.outs, m.stored, m.received, m.outsDone)) :
    t.view net c = m := by
  simp only [own, Prod.mk.injEq] at hown
  obtain ⟨h1, h2, h3, h4, h5, h6⟩ := hown
  ext1 <;> assumption

omit [DecidableEq Chan] in
/-- The other party of a channel is another process. -/
theorem Net.role_peer_ne (net : Net N Chan) (c : Chan) (e : End) :
    net.role c e.peer ≠ net.role c e := by
  cases e
  · exact (net.distinct c).symm
  · exact net.distinct c

/-- A party that waits at a channel is in a call on it. -/
theorem party_waits (h : (s.party net c e).waits = true) :
    ∃ b, (∀ (buf : Msg) st run,
        (s.pc (net.role c e)).party c buf st run = .wait buf b st run) ∧
      (∃ e', (s.pc (net.role c e)).channel = some (e', c)) ∧
      (s.pc (net.role c e)).stage = .away ∧
      (s.pc (net.role c e)).blocked = b := by
  unfold party at h
  cases hpc : s.pc (net.role c e) <;> simp only [hpc, Pc.party] at h ⊢
  all_goals first
    | (split at h <;> simp_all [Pc.channel, Pc.stage, Pc.blocked])
    | simp at h

/-- A process in a call on one channel shows nothing at the others. -/
theorem away_of_channel {q : Fin N} {d : Chan} {e' : End}
    (hq : (s.pc q).channel = some (e', d)) (hc : c ≠ d) (buf : Msg) (st : SchedState)
    (run : Bool) : (s.pc q).party c buf st run = .away := by
  refine Pc.party_away (fun e he => ?_) (fun f k hg => ?_) buf st run
  · rw [hq] at he
    simp only [Option.some.injEq, Prod.mk.injEq] at he
    exact hc he.2.symm
  · cases hp : s.pc q <;> simp [hp, Pc.channel, Pc.guards] at hq hg

/-- A call of `in` begins. -/
theorem Inv.in_begins (h : Inv net s) (hidle : s.pc (net.role c .input) = .idle) :
    Inv net (s.goto (net.role c .input) (.call .input c)) := by
  have haway : s.party net c .input = .away := by simp [party, hidle, Pc.party]
  have hview : (s.goto (net.role c .input) (.call .input c)).view net c =
      (s.view net c).ask .input (s.dest (net.role c .input)) := by
    refine view_ext ?_ ?_ rfl
    · rw [party_self rfl rfl]
      simp [Pc.party, goto, buf]
    · exact party_peer rfl (Net.role_peer_ne net c .input) rfl rfl rfl
  refine h.call (d := c) rfl ⟨rfl, rfl, rfl, rfl, rfl, rfl, rfl⟩
    (by simp [hidle, Pc.stage, Pc.channel]) (by simp [Pc.stage, Pc.channel, Pc.guards])
    ?_ ?_ (fun _ _ => rfl) (fun _ _ _ _ => Or.inl ⟨rfl, rfl, rfl⟩)
    (fun _ => h.runs _ (by simp [hidle, Pc.blocked])) (fun _ _ => Or.inl rfl) ?_
  · constructor <;> simp [Pc.channel, Pc.guards]
  · rw [hview]
    exact (h.meets c).ask (by simpa [view] using haway) _
  · intro r d _ _ hv
    refine hv.frame rfl rfl fun hf => ?_
    have hne : net.role d .output ≠ net.role c .input := by
      intro heq
      simp [heq, hidle] at hf
    simp [goto, hne]

/-- A call of `out` begins. -/
theorem Inv.out_begins (h : Inv net s) (hidle : s.pc (net.role c .output) = .idle)
    (msg : Msg) :
    Inv net ({ s with
        src := Function.update s.src (net.role c .output) msg
        outs := Function.update s.outs c (s.outs c ++ [msg]) }.goto
      (net.role c .output) (.call .output c)) := by
  have haway : s.party net c .output = .away := by simp [party, hidle, Pc.party]
  have hview : ({ s with
        src := Function.update s.src (net.role c .output) msg
        outs := Function.update s.outs c (s.outs c ++ [msg]) }.goto
      (net.role c .output) (.call .output c)).view net c =
      (s.view net c).ask .output msg := by
    refine view_ext ?_ ?_ ?_
    · exact party_peer rfl (Net.role_peer_ne net c .output) rfl rfl rfl
    · rw [party_self rfl rfl]
      simp [Pc.party, goto, buf]
    · simp [own, goto, view]
  refine h.call (d := c) rfl ⟨rfl, rfl, rfl, rfl, rfl, rfl, rfl⟩
    (by simp [hidle, Pc.stage, Pc.channel]) (by simp [Pc.stage, Pc.channel, Pc.guards])
    ?_ ?_ ?_ ?_ (fun _ => h.runs _ (by simp [hidle, Pc.blocked])) (fun _ _ => Or.inl rfl) ?_
  · constructor <;> simp [Pc.channel, Pc.guards]
  · rw [hview]
    exact (h.meets c).ask (by simpa [view] using haway) _
  · intro d hd
    simp [own, goto, hd]
  · intro d e _ he
    cases e <;> simp [goto, buf, he]
  · intro r d _ _ hv
    refine hv.frame rfl rfl fun hf => ?_
    have hne : net.role d .output ≠ net.role c .output := by
      intro heq
      simp [heq, hidle] at hf
    simp [goto, hne]

/-- The process that moves is in a call on channel `c`, about to do something
there that is not part of `freeProcessMaybe`. -/
structure Acting (net : Net N Chan) (s : Comm N U Chan Msg) (p : Fin N) (e : End)
    (c : Chan) : Prop where
  channel : (s.pc p).channel = some (e, c)
  role : p = net.role c e
  away : (s.pc p).stage = .away
  unfree : ∀ d q, s.pc p ≠ .free d q ∧ s.pc p ≠ .freeWaiting d q ∧
    s.pc p ≠ .freeSchedule d q

theorem Inv.acting (h : Inv net s) (hch : (s.pc p).channel = some (e, c))
    (hfree : ∀ d q, s.pc p ≠ .free d q ∧ s.pc p ≠ .freeWaiting d q ∧
      s.pc p ≠ .freeSchedule d q) : Acting net s p e c := by
  refine ⟨hch, (h.roles p).channel e c hch, ?_, hfree⟩
  cases hp : s.pc p <;> simp [hp, Pc.channel, Pc.stage] at hch ⊢

/-- A step of a call that leaves the channel's registration alone: what is to
be shown is the meeting at that channel. -/
theorem Inv.acts (h : Inv net s) (ha : Acting net s p e c)
    (hpc : t.pc = Function.update s.pc p pc')
    (hfields : t.alt_state = s.alt_state ∧ t.selects = s.selects ∧
      t.scheds = s.scheds ∧ t.waited = s.waited ∧ t.fired = s.fired ∧
      t.handler = s.handler ∧ t.tm = s.tm)
    (hout : pc' = .idle ∨ (pc'.channel = some (e, c) ∧ RoleOk net p pc' ∧
      ∀ d q, pc' ≠ .freeSchedule d q))
    (hmeets : Meets (net.role c) (t.view net c))
    (hown : ∀ d, d ≠ c → t.own d = s.own d)
    (hrest : ∀ d e', d ≠ c → net.role d e' ≠ p →
      (t.buf e' (net.role d e') = s.buf e' (net.role d e') ∧
        t.sched_state (net.role d e') = s.sched_state (net.role d e') ∧
        t.runnable (net.role d e') = s.runnable (net.role d e')) ∨
      ∀ (buf : Msg) st run, (s.pc (net.role d e')).party d buf st run = .away)
    (hrun : pc'.blocked = false → t.runnable p = true)
    (hrunOther : ∀ q, q ≠ p → t.runnable q = s.runnable q ∨
      (t.runnable q = true ∧ (s.pc q).stage = .away))
    (hvisit : ∀ r, (s.pc r).stage ≠ .away → net.role c .input = r →
      s.Visit net r c → t.Visit net r c) :
    Inv net t := by
  refine h.call (d := c) hpc hfields ⟨ha.away, ?_, fun d q => (ha.unfree d q).2.2⟩ ?_ ?_
    hmeets hown hrest hrun hrunOther ?_
  · intro e' d hd
    rw [ha.channel] at hd
    simp only [Option.some.injEq, Prod.mk.injEq] at hd
    exact hd.2.symm
  · rcases hout with rfl | ⟨hch, _, hfree⟩
    · simp [Pc.stage, Pc.guards, Pc.channel]
    · refine ⟨?_, ?_, ?_, hfree⟩
      · cases pc' <;> simp [Pc.channel, Pc.stage] at hch ⊢
      · cases pc' <;> simp [Pc.channel, Pc.guards] at hch ⊢
      · intro e' d hd
        rw [hch] at hd
        simp only [Option.some.injEq, Prod.mk.injEq] at hd
        exact hd.2.symm
  · rcases hout with rfl | ⟨_, hrole, _⟩
    · constructor <;> simp [Pc.channel, Pc.guards]
    · exact hrole
  · intro r d haway hrole hv
    by_cases hd : d = c
    · subst hd
      exact hvisit r haway hrole hv
    · have hw := hown d hd
      simp only [own, Prod.mk.injEq] at hw
      refine hv.frame hw.1 (by rw [hfields.1]) fun hf => ?_
      rw [hpc]
      refine Function.update_of_ne ?_ _ _
      intro heq
      rw [heq] at hf
      exact hf.elim (ha.unfree d r).1 (ha.unfree d r).2.1

omit [DecidableEq Chan] in
/-- A step of a call after which a channel's registration is the same. -/
theorem visit_same (ha : Acting net s p e c) (hpc : t.pc = Function.update s.pc p pc')
    (halt : t.alt_state = s.alt_state) (hwaiting : t.waiting c = s.waiting c)
    {r : Fin N} (hv : s.Visit net r c) : t.Visit net r c := by
  refine hv.frame hwaiting (by rw [halt]) fun hf => ?_
  rw [hpc]
  refine Function.update_of_ne ?_ _ _
  intro heq
  rw [heq] at hf
  exact hf.elim (ha.unfree c r).1 (ha.unfree c r).2.1

/-- One party of a channel changes what it shows. -/
theorem view_become (hpeer : t.party net c e.peer = s.party net c e.peer)
    (hown : t.own c = s.own c) :
    t.view net c = (s.view net c).become e (t.party net c e) := by
  cases e
  · exact view_ext rfl hpeer hown
  · exact view_ext hpeer rfl hown

/-- A process goes on at a channel of its own. -/
theorem view_goto (hp : p = net.role c e) :
    (s.goto p pc').view net c = (s.view net c).become e
      (pc'.party c (s.buf e p) (s.sched_state p) (s.runnable p)) := by
  have hpeer : net.role c e.peer ≠ p := hp ▸ Net.role_peer_ne net c e
  have hbuf : ∀ q, (s.goto p pc').buf e q = s.buf e q := fun q => by cases e <;> rfl
  have hrest : (s.goto p pc').party net c e.peer = s.party net c e.peer :=
    party_peer rfl hpeer (by cases e <;> rfl) rfl rfl
  rw [view_become (s := s) hrest rfl, party_self rfl hp.symm, hbuf]
  rfl

/-- A call returns. -/
theorem view_ret (hp : p = net.role c e) :
    (s.ret p e c).view net c = (s.view net c).leave e (s.buf e p) := by
  have hpeer : net.role c e.peer ≠ p := hp ▸ Net.role_peer_ne net c e
  cases e with
  | input =>
      refine view_ext ?_ ?_ ?_
      · exact party_self (s := s) (t := s.ret p .input c) rfl hp.symm
      · exact party_peer rfl hpeer rfl rfl rfl
      · simp [own, ret, goto, view, buf]
  | output =>
      refine view_ext ?_ ?_ ?_
      · exact party_peer rfl hpeer rfl rfl rfl
      · exact party_self (s := s) (t := s.ret p .output c) rfl hp.symm
      · simp [own, ret, goto, view]

/-- What returning from a call leaves as it was. -/
theorem ret_fields (s : Comm N U Chan Msg) (p : Fin N) (e : End) (c : Chan) :
    (s.ret p e c).pc = Function.update s.pc p .idle ∧
    (s.ret p e c).waiting = s.waiting ∧
    (s.ret p e c).sched_state = s.sched_state ∧
    (s.ret p e c).runnable = s.runnable ∧
    (∀ e', (s.ret p e c).buf e' = s.buf e') ∧
    ((s.ret p e c).alt_state = s.alt_state ∧ (s.ret p e c).selects = s.selects ∧
      (s.ret p e c).scheds = s.scheds ∧ (s.ret p e c).waited = s.waited ∧
      (s.ret p e c).fired = s.fired ∧ (s.ret p e c).handler = s.handler ∧
      (s.ret p e c).tm = s.tm) := by
  cases e <;> exact ⟨rfl, rfl, rfl, rfl, fun e' => by cases e' <;> rfl,
    rfl, rfl, rfl, rfl, rfl, rfl, rfl⟩

theorem ret_own (hc : d ≠ c) : (s.ret p e c).own d = s.own d := by
  cases e <;> simp [own, ret, goto, hc]

/-- A waiting party gives up the processor. -/
theorem Inv.relinquish (h : Inv net s) (hpc : s.pc p = .relinquish e c)
    (hst : s.sched_state p = .preparingToWait) :
    Inv net ({ s with
        sched_state := Function.update s.sched_state p .waiting
        runnable := Function.update s.runnable p false }.goto p (.wait e c)) := by
  have ha : Acting net s p e c := h.acting (by simp [hpc, Pc.channel]) (by simp [hpc])
  have hp := ha.role
  have hpeer : net.role c e.peer ≠ p := hp ▸ Net.role_peer_ne net c e
  have hparty : (s.view net c).party e =
      .wait (s.buf e p) false .preparingToWait (s.runnable p) := by
    simp [party, ← hp, hpc, Pc.party, hst]
  have hview : ({ s with
        sched_state := Function.update s.sched_state p .waiting
        runnable := Function.update s.runnable p false }.goto p (.wait e c)).view net c =
      (s.view net c).become e (.wait (s.buf e p) true .waiting false) := by
    refine (view_become (s := s) (party_peer (by rfl) hpeer ?_ ?_ ?_) (by rfl)).trans ?_
    · cases e <;> rfl
    · simp [goto, hpeer]
    · simp [goto, hpeer]
    · rw [party_self (s := s) rfl hp.symm]
      cases e <;> simp [Pc.party, goto, buf]
  refine h.acts ha rfl ⟨rfl, rfl, rfl, rfl, rfl, rfl, rfl⟩ (Or.inr ⟨rfl, ?_, by simp⟩) ?_
    (fun _ _ => rfl) ?_ (by simp [Pc.blocked]) ?_ ?_
  · constructor <;> simp [Pc.channel, Pc.guards, hp]
  · rw [hview]
    exact (h.meets c).block hparty
  · intro d e' _ hne
    refine Or.inl ⟨by cases e' <;> rfl, ?_, ?_⟩ <;> simp [goto, hne]
  · intro q hq
    simp [goto, hq]
  · exact fun r _ _ hv => visit_same ha (by rfl) (by rfl) (by rfl) hv

/-- A waiting party goes on and returns. -/
theorem Inv.resume (h : Inv net s)
    (hpc : (s.pc p = .relinquish e c ∧ s.sched_state p ≠ .preparingToWait) ∨
      (s.pc p = .wait e c ∧ s.runnable p = true)) : Inv net (s.ret p e c) := by
  have ha : Acting net s p e c := by
    rcases hpc with ⟨hpc, _⟩ | ⟨hpc, _⟩ <;>
      exact h.acting (by simp [hpc, Pc.channel]) (by simp [hpc])
  have hp := ha.role
  obtain ⟨hpc', hw, hst, hrun, hbuf, hfields⟩ := ret_fields s p e c
  refine h.acts ha hpc' hfields (Or.inl rfl) ?_ (fun d hd => ret_own hd) ?_ ?_ ?_ ?_
  · rw [view_ret hp]
    rcases hpc with ⟨hpc, hne⟩ | ⟨hpc, hrunnable⟩
    · have hparty : (s.view net c).party e =
          .wait (s.buf e p) false (s.sched_state p) (s.runnable p) := by
        simp [party, ← hp, hpc, Pc.party]
      exact (h.meets c).resume hparty (Or.inl ⟨rfl, hne⟩)
    · have hparty : (s.view net c).party e =
          .wait (s.buf e p) true (s.sched_state p) (s.runnable p) := by
        simp [party, ← hp, hpc, Pc.party]
      exact (h.meets c).resume hparty (Or.inr ⟨rfl, hrunnable⟩)
  · intro d e' _ _
    exact Or.inl ⟨by rw [hbuf], by rw [hst], by rw [hrun]⟩
  · intro _
    rw [hrun]
    rcases hpc with ⟨hpc, _⟩ | ⟨_, hrunnable⟩
    · exact h.runs p (by simp [hpc, Pc.blocked])
    · exact hrunnable
  · intro q _
    exact Or.inl (by rw [hrun])
  · exact fun r _ _ hv => visit_same ha hpc' hfields.1 (by rw [hw]) hv

/-- A party about to enter a critical section. -/
theorem Inv.entering (h : Inv net s) (hpc : s.pc p = .call e c) :
    Acting net s p e c ∧ (s.view net c).party e = .ask (s.buf e p) := by
  have ha : Acting net s p e c := h.acting (by simp [hpc, Pc.channel]) (by simp [hpc])
  refine ⟨ha, ?_⟩
  simp [party, ← ha.role, hpc, Pc.party]

/-- Nobody is registered, or the reader is in an alternation: the caller
registers itself. -/
theorem Inv.registers (h : Inv net s) (hpc : s.pc p = .call e c)
    (hpc' : (pc' = .relinquish e c ∧ s.waiting c = none) ∨
      (e = .output ∧ pc' = .free c (net.role c .input) ∧
        s.party net c .input = .alting)) :
    Inv net ((s.await p c).goto p pc') := by
  obtain ⟨ha, hask⟩ := h.entering hpc
  have hp := ha.role
  have hpeer : net.role c e.peer ≠ p := hp ▸ Net.role_peer_ne net c e
  have hrun : s.runnable p = true := h.runs p (by simp [hpc, Pc.blocked])
  have hshow : pc'.party c (s.buf e p) .preparingToWait true =
      .wait (s.buf e p) false .preparingToWait true := by
    rcases hpc' with ⟨rfl, _⟩ | ⟨_, rfl, _⟩ <;> simp [Pc.party]
  have hview : ((s.await p c).goto p pc').view net c =
      (s.view net c).register e (net.role c e) (s.buf e p) := by
    have hself : ((s.await p c).goto p pc').party net c e =
        .wait (s.buf e p) false .preparingToWait true := by
      rw [party_self (s := s) rfl hp.symm]
      cases e <;> simpa [goto, await, buf, hrun] using hshow
    have hother : ((s.await p c).goto p pc').party net c e.peer =
        s.party net c e.peer :=
      party_peer rfl hpeer (by cases e <;> rfl) (by simp [goto, await, hpeer]) rfl
    cases e
    · refine view_ext hself hother ?_
      simp [own, goto, await, view, hp]
    · refine view_ext hother hself ?_
      simp [own, goto, await, view, hp]
  refine h.acts ha rfl ⟨rfl, rfl, rfl, rfl, rfl, rfl, rfl⟩ (Or.inr ?_) ?_ ?_ ?_ ?_
    (fun _ _ => Or.inl rfl) ?_
  · rcases hpc' with ⟨rfl, _⟩ | ⟨rfl, rfl, _⟩
    · refine ⟨rfl, ?_, by simp⟩
      constructor <;> simp [Pc.channel, Pc.guards, hp]
    · refine ⟨rfl, ?_, by simp⟩
      constructor <;> simp [Pc.channel, Pc.guards, hp]
  · rw [hview]
    refine (h.meets c).register (net.distinct c) hask ?_
    rcases hpc' with ⟨_, hnone⟩ | ⟨he, _, halt⟩
    · exact Or.inl hnone
    · exact Or.inr ⟨he, halt⟩
  · intro d hd
    simp [own, goto, await, hd]
  · intro d e' _ hne
    exact Or.inl ⟨by cases e' <;> rfl, by simp [goto, await, hne], rfl⟩
  · exact fun _ => hrun
  · intro r haway hr hv
    rcases hpc' with ⟨_, hnone⟩ | ⟨rfl, rfl, _⟩
    · simp [Visit, hnone] at hv
    · refine Or.inr ⟨by simp [goto, await, hp], Or.inl ?_⟩
      simp [goto, await, hp, hr]

/-- The reader takes the message of a writer that is registered. -/
theorem Inv.takes (h : Inv net s) (hpc : s.pc p = .call .input c) {w : Fin N}
    (hw : s.waiting c = some w) :
    s.ptr c = some (net.role c .output) ∧ w = net.role c .output ∧
    Inv net ((s.transfer c p (s.src (net.role c .output))).goto p (.wake .input c w)) := by
  obtain ⟨ha, hask⟩ := h.entering hpc
  have hp := ha.role
  obtain ⟨rfl, hptr, hwaits⟩ := (h.meets c).found_writer hask hw
  obtain ⟨b, hshow, _⟩ := party_waits hwaits
  have hne : net.role c .output ≠ p := hp ▸ (net.distinct c).symm
  refine ⟨hptr, rfl, ?_⟩
  have hview : ((s.transfer c p (s.src (net.role c .output))).goto p
        (.wake .input c (net.role c .output))).view net c =
      (s.view net c).take (s.src (net.role c .output)) := by
    refine view_ext ?_ ?_ ?_
    · rw [party_self (s := s) rfl hp.symm]
      simp [Pc.party, goto, transfer, buf]
    · exact party_peer rfl hne rfl rfl rfl
    · simp [own, goto, transfer, view]
  refine h.acts ha rfl ⟨rfl, rfl, rfl, rfl, rfl, rfl, rfl⟩ (Or.inr ⟨rfl, ?_, by simp⟩) ?_
    ?_ ?_ (fun _ => h.runs p (by simp [hpc, Pc.blocked])) (fun _ _ => Or.inl rfl) ?_
  · constructor <;> simp [Pc.channel, Pc.guards, hp]
  · rw [hview]
    exact (h.meets c).take hask (hshow _ _ _) hw
  · intro d hd
    simp [own, goto, transfer, hd]
  · intro d e' _ hne'
    refine Or.inl ⟨?_, rfl, rfl⟩
    cases e' <;> simp [goto, transfer, buf, hne']
  · intro r hr hrole _
    rw [← hrole, ← hp] at hr
    exact absurd ha.away hr

/-- The writer gives its message to a reader that is registered for it. -/
theorem Inv.gives (h : Inv net s) (hpc : s.pc p = .call .output c) {w dest : Fin N}
    (hw : s.waiting c = some w) (hptr : s.ptr c = some dest) :
    dest = net.role c .input ∧
    Inv net ((s.transfer c dest (s.src p)).goto p (.wake .output c w)) := by
  obtain ⟨ha, hask⟩ := h.entering hpc
  have hp := ha.role
  obtain ⟨rfl, ⟨hptr', hwaits⟩ | ⟨hnull, _⟩⟩ := (h.meets c).found_reader hask hw
  swap
  · exact absurd (hptr.symm.trans hnull) (by simp)
  obtain rfl : dest = net.role c .input := Option.some.inj (hptr.symm.trans hptr')
  obtain ⟨b, hshow, ⟨e', hch⟩, haway, _⟩ := party_waits hwaits
  have hne : net.role c .input ≠ p := hp ▸ net.distinct c
  refine ⟨rfl, ?_⟩
  have hview : ((s.transfer c (net.role c .input) (s.src p)).goto p
        (.wake .output c (net.role c .input))).view net c =
      (s.view net c).give (s.src p) b (s.sched_state (net.role c .input))
        (s.runnable (net.role c .input)) := by
    refine view_ext ?_ ?_ ?_
    · have hpc' : ((s.transfer c (net.role c .input) (s.src p)).goto p
          (.wake .output c (net.role c .input))).pc (net.role c .input) =
          s.pc (net.role c .input) := by simp [goto, transfer, hne]
      rw [party, hpc', hshow]
      simp [goto, transfer, buf]
    · rw [party_self (s := s) rfl hp.symm]
      simp [Pc.party, goto, transfer, buf]
    · simp [own, goto, transfer, view]
  refine h.acts ha rfl ⟨rfl, rfl, rfl, rfl, rfl, rfl, rfl⟩ (Or.inr ⟨rfl, ?_, by simp⟩) ?_
    ?_ ?_ (fun _ => h.runs p (by simp [hpc, Pc.blocked])) (fun _ _ => Or.inl rfl) ?_
  · constructor <;> simp [Pc.channel, Pc.guards, hp]
  · rw [hview]
    exact (h.meets c).give hask (hshow _ _ _) hw
  · intro d hd
    simp [own, goto, transfer, hd]
  · intro d e' hd hne'
    by_cases he : net.role d e' = net.role c .input
    · exact Or.inr (he ▸ away_of_channel hch hd)
    · refine Or.inl ⟨?_, rfl, rfl⟩
      cases e' <;> simp [goto, transfer, buf, he]
  · intro r hr hrole _
    rw [← hrole] at hr
    exact absurd haway hr

/-- A party about to wake the other: that one waits at the channel. -/
theorem Inv.waking (h : Inv net s) {q : Fin N}
    (hpc : s.pc p = .wake e c q ∨ s.pc p = .schedule e c q) :
    Acting net s p e c ∧ q = net.role c e.peer ∧ q ≠ p ∧
    (s.pc q).stage = .away ∧ (∃ e', (s.pc q).channel = some (e', c)) ∧
    ∃ b, (s.pc q).blocked = b ∧
      ∀ (buf : Msg) st run, (s.pc q).party c buf st run = .wait buf b st run := by
  have ha : Acting net s p e c := by
    rcases hpc with hpc | hpc <;> exact h.acting (by simp [hpc, Pc.channel]) (by simp [hpc])
  obtain rfl := (h.roles p).wake e c q hpc
  have hp := ha.role
  have hwaits : (s.party net c e.peer).waits = true := by
    cases e with
    | input =>
        refine (h.meets c).reader_wakes ?_
        rcases hpc with hpc | hpc <;> simp [view, party, ← hp, hpc, Pc.party]
    | output =>
        refine (h.meets c).writer_wakes ?_
        rcases hpc with hpc | hpc <;> simp [view, party, ← hp, hpc, Pc.party]
  obtain ⟨b, hshow, hch, haway, hb⟩ := party_waits hwaits
  exact ⟨ha, rfl, hp ▸ Net.role_peer_ne net c e, haway, hch, b, hb, hshow⟩

/-- Setting the state of a party that waits. -/
theorem view_ready {q : Fin N} (hq : q = net.role c e.peer) {b : Bool}
    (hshow : ∀ (buf : Msg) st run, (s.pc q).party c buf st run = .wait buf b st run)
    (hpc : t.pc = s.pc) (hbuf : ∀ e, t.buf e = s.buf e) {st : SchedState} {run : Bool}
    (hst : t.sched_state = Function.update s.sched_state q st)
    (hrun : t.runnable = Function.update s.runnable q run) (hown : t.own c = s.own c) :
    t.view net c = (s.view net c).become e.peer (.wait (s.buf e.peer q) b st run) := by
  subst hq
  have hpeer : t.party net c e.peer.peer = s.party net c e.peer.peer := by
    have hne : net.role c e.peer.peer ≠ net.role c e.peer := Net.role_peer_ne net c e.peer
    apply party_eq
    · rw [hpc]
    · rw [hbuf]
    · rw [hst, Function.update_of_ne hne]
    · rw [hrun, Function.update_of_ne hne]
  have hself : t.party net c e.peer = .wait (s.buf e.peer (net.role c e.peer)) b st run := by
    rw [party, hpc, hshow, hbuf, hst, hrun, Function.update_self, Function.update_self]
  rw [view_become hpeer hown, hself]

/-- A party sets the `sched_state` of the one that waits. -/
theorem Inv.wakes_peer (h : Inv net s) {q : Fin N} (hpc : s.pc p = .wake e c q) :
    (s.sched_state q = .waiting →
      Inv net ({ s with
        sched_state := Function.update s.sched_state q .ready }.goto p (.schedule e c q))) ∧
    (s.sched_state q ≠ .waiting →
      Inv net ({ s with
        sched_state := Function.update s.sched_state q .ready }.ret p e c)) := by
  obtain ⟨ha, hq, hqp, haway, ⟨e₀, hch⟩, b, hb, hshow⟩ := h.waking (Or.inl hpc)
  have hp := ha.role
  have hbuf : ∀ e', ({ s with
      sched_state := Function.update s.sched_state q .ready } : Comm N U Chan Msg).buf e' =
        s.buf e' := fun e' => by cases e' <;> rfl
  have hview : ({ s with
      sched_state := Function.update s.sched_state q .ready } : Comm N U Chan Msg).view net c =
        (s.view net c).become e.peer (.wait (s.buf e.peer q) b .ready (s.runnable q)) :=
    view_ready hq hshow (by rfl) hbuf (by rfl) (Function.update_eq_self ..).symm (by rfl)
  have hwake : (s.view net c).party e = .wake (s.buf e p) := by
    simp [party, ← hp, hpc, Pc.party]
  have hwait : (s.view net c).party e.peer =
      .wait (s.buf e.peer q) b (s.sched_state q) (s.runnable q) := by
    simp [party, ← hq, hshow]
  have hrest : ∀ d e', d ≠ c → net.role d e' ≠ p →
      (s.buf e' (net.role d e') = s.buf e' (net.role d e') ∧
        Function.update s.sched_state q .ready (net.role d e') =
          s.sched_state (net.role d e') ∧
        s.runnable (net.role d e') = s.runnable (net.role d e')) ∨
      ∀ (buf : Msg) st run, (s.pc (net.role d e')).party d buf st run = .away := by
    intro d e' hd _
    by_cases he : net.role d e' = q
    · exact Or.inr (he ▸ away_of_channel hch hd)
    · exact Or.inl ⟨rfl, Function.update_of_ne he _ _, rfl⟩
  have hrun : s.runnable p = true := h.runs p (by simp [hpc, Pc.blocked])
  constructor
  · intro hst
    refine h.acts ha rfl ⟨rfl, rfl, rfl, rfl, rfl, rfl, rfl⟩ (Or.inr ⟨rfl, ?_, by simp⟩) ?_
      (fun _ _ => rfl) ?_ (fun _ => hrun) (fun _ _ => Or.inl rfl) ?_
    · constructor <;> simp [Pc.channel, Pc.guards, hp, hq]
    · rw [view_goto hp, hview, hbuf]
      simpa [Pc.party] using (h.meets c).wake_blocked hwake (hst ▸ hwait)
    · intro d e' hd he
      exact (hrest d e' hd he).imp_left fun h' => ⟨by cases e' <;> rfl, h'.2⟩
    · exact fun r _ _ hv => visit_same ha (by rfl) (by rfl) (by rfl) hv
  · intro hst
    obtain ⟨hpc', hw, hsched, hrunnable, hbuf', hfields⟩ := ret_fields
      ({ s with sched_state := Function.update s.sched_state q .ready } : Comm N U Chan Msg)
      p e c
    refine h.acts ha hpc' hfields (Or.inl rfl) ?_ (fun d hd => ret_own hd) ?_
      (fun _ => by rw [hrunnable]; exact hrun) (fun _ _ => Or.inl (by rw [hrunnable])) ?_
    · rw [view_ret hp, hview, hbuf]
      exact (h.meets c).wake_running hwake hwait hst
    · intro d e' hd he
      rw [hbuf', hsched, hrunnable, hbuf]
      exact hrest d e' hd he
    · exact fun r _ _ hv => visit_same ha hpc' hfields.1 (by rw [hw]) hv

/-- A party schedules the one that waits. -/
theorem Inv.schedules_peer (h : Inv net s) {q : Fin N} (hpc : s.pc p = .schedule e c q) :
    Inv net ({ s with runnable := Function.update s.runnable q true }.ret p e c) := by
  obtain ⟨ha, hq, hqp, haway, ⟨e₀, hch⟩, b, hb, hshow⟩ := h.waking (Or.inr hpc)
  have hp := ha.role
  have hbuf : ∀ e', ({ s with
      runnable := Function.update s.runnable q true } : Comm N U Chan Msg).buf e' =
        s.buf e' := fun e' => by cases e' <;> rfl
  have hview : ({ s with
      runnable := Function.update s.runnable q true } : Comm N U Chan Msg).view net c =
        (s.view net c).become e.peer (.wait (s.buf e.peer q) b (s.sched_state q) true) :=
    view_ready hq hshow (by rfl) hbuf (Function.update_eq_self ..).symm (by rfl) (by rfl)
  have hsched : (s.view net c).party e = .schedule (s.buf e p) := by
    simp [party, ← hp, hpc, Pc.party]
  have hwait : (s.view net c).party e.peer =
      .wait (s.buf e.peer q) b (s.sched_state q) (s.runnable q) := by
    simp [party, ← hq, hshow]
  obtain ⟨hpc', hw, hst, hrun, hbuf', hfields⟩ := ret_fields
    ({ s with runnable := Function.update s.runnable q true } : Comm N U Chan Msg) p e c
  refine h.acts ha hpc' hfields (Or.inl rfl) ?_ (fun d hd => ret_own hd) ?_ ?_ ?_ ?_
  · rw [view_ret hp, hview, hbuf]
    exact (h.meets c).schedule hsched hwait
  · intro d e' hd _
    rw [hbuf', hst, hrun, hbuf]
    by_cases he : net.role d e' = q
    · exact Or.inr (he ▸ away_of_channel hch hd)
    · exact Or.inl ⟨rfl, rfl, Function.update_of_ne he _ _⟩
  · intro _
    rw [hrun]
    exact (Function.update_of_ne hqp.symm _ _).trans (h.runs p (by simp [hpc, Pc.blocked]))
  · intro r _
    rw [hrun]
    by_cases hr : r = q
    · subst hr
      exact Or.inr ⟨Function.update_self .., haway⟩
    · exact Or.inl (Function.update_of_ne hr _ _)
  · exact fun r _ _ hv => visit_same ha hpc' hfields.1 (by rw [hw]) hv

end Comm

end Cxp
