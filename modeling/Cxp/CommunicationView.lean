import Cxp.Communication

/-!
# A channel as its two users see it

`view` forgets of the whole system what does not concern one channel: what its
reader and its writer are doing there, who is registered, and the messages
passed.  What is left is a `Meeting`, and the steps of the system are, channel
by channel, the things that happen to a meeting.

A step of a process shows at the channel it is about only.  This file says
what a process shows at a channel (`Pc.party`) and that it shows nothing
elsewhere.
-/

namespace Cxp

open Meeting

variable {N U : Nat} {Chan Msg : Type} [DecidableEq Chan]

/-- The select that a process is in, and how many of its guards are enabled. -/
def Pc.guards : Pc N Chan → Option (Select Chan × Nat)
  | .enable f k | .fill f k _ | .insert f k _ => some (f, k)
  | .shouldWait f | .altWait f => some (f, f.size)
  | .disable f k _ | .remove f k _ _ | .release f k _ _ => some (f, k)
  | .finish f _ => some (f, 0)
  | _ => none

/-- The call of `in` or `out` that a process is in. -/
def Pc.channel : Pc N Chan → Option (End × Chan)
  | .call e c | .wake e c _ | .schedule e c _ | .relinquish e c | .wait e c =>
      some (e, c)
  | .free c _ | .freeWaiting c _ | .freeSchedule c _ => some (.output, c)
  | _ => none

/-- What a process at `pc` shows at channel `c`. -/
def Pc.party (c : Chan) (buf : Msg) (st : SchedState) (run : Bool) :
    Pc N Chan → Party Msg
  | .call _ d => if d = c then .ask buf else .away
  | .wake _ d _ => if d = c then .wake buf else .away
  | .schedule _ d _ => if d = c then .schedule buf else .away
  | .free d _ | .freeWaiting d _ | .freeSchedule d _ | .relinquish _ d =>
      if d = c then .wait buf false st run else .away
  | .wait _ d => if d = c then .wait buf true st run else .away
  | .enable f k | .fill f k _ | .insert f k _ =>
      if f.Active k c then .alting else .away
  | .shouldWait f | .altWait f => if f.Active f.size c then .alting else .away
  | .disable f k _ | .remove f k _ _ | .release f k _ _ =>
      if f.Active k c then .alting else .away
  | .idle | .finish _ _ | .selected _ _ => .away

/-- In a call on another channel, or in a select over others, a process shows
nothing. -/
theorem Pc.party_away {pc : Pc N Chan} {c : Chan}
    (hchan : ∀ e, pc.channel ≠ some (e, c))
    (hguards : ∀ f k, pc.guards = some (f, k) → ¬ f.Active k c)
    (buf : Msg) (st : SchedState) (run : Bool) : pc.party c buf st run = .away := by
  cases pc <;> simp_all [Pc.party, Pc.channel, Pc.guards]

/-- In a select over the channel, a process listens. -/
theorem Pc.party_alting {pc : Pc N Chan} {c : Chan} {f : Select Chan} {k : Nat}
    (hguards : pc.guards = some (f, k)) (hactive : f.Active k c)
    (buf : Msg) (st : SchedState) (run : Bool) : pc.party c buf st run = .alting := by
  cases pc with
  | finish f' sel =>
      obtain ⟨j, hj, _⟩ := hactive
      simp only [Pc.guards, Option.some.injEq, Prod.mk.injEq] at hguards
      omega
  | _ =>
      simp only [Pc.guards, Option.some.injEq, Prod.mk.injEq, reduceCtorEq] at hguards
      try obtain ⟨rfl, rfl⟩ := hguards
      try simp [Pc.party, hactive]

/-- What a process may be doing, given its role at each channel. -/
structure RoleOk (net : Net N Chan) (p : Fin N) (pc : Pc N Chan) : Prop where
  channel : ∀ e c, pc.channel = some (e, c) → p = net.role c e
  wake : ∀ e c q, pc = .wake e c q ∨ pc = .schedule e c q → q = net.role c e.peer
  free : ∀ c q, pc = .free c q ∨ pc = .freeWaiting c q ∨ pc = .freeSchedule c q →
    q = net.role c .input
  guards : ∀ f k c, pc.guards = some (f, k) → f.Active k c → net.role c .input = p
  readBy : ∀ f k, pc.guards = some (f, k) → f.guards.all (·.readBy net p) = true
  timer : ∀ f k, (∃ time, pc = .fill f k time) ∨ (∃ desc, pc = .insert f k desc) →
    ∀ c, f.guard k ≠ some (.chan c)

namespace Comm

/-- The buffer that a process passed at one end. -/
def buf (s : Comm N U Chan Msg) : End → Fin N → Msg
  | .input => s.dest
  | .output => s.src

/-- What the party at one end of a channel is doing. -/
def party (net : Net N Chan) (s : Comm N U Chan Msg) (c : Chan) (e : End) :
    Party Msg :=
  (s.pc (net.role c e)).party c (s.buf e (net.role c e))
    (s.sched_state (net.role c e)) (s.runnable (net.role c e))

/-- The channel as its two users see it. -/
def view (net : Net N Chan) (s : Comm N U Chan Msg) (c : Chan) :
    Meeting (Fin N) Msg where
  reader := s.party net c .input
  writer := s.party net c .output
  waiting := s.waiting c
  ptr := s.ptr c
  outs := s.outs c
  stored := s.stored c
  received := s.received c
  outsDone := s.outsDone c

/-- The part of a channel's state that is the channel's own. -/
def own (s : Comm N U Chan Msg) (c : Chan) :=
  (s.waiting c, s.ptr c, s.outs c, s.stored c, s.received c, s.outsDone c)

variable {net : Net N Chan} {s t : Comm N U Chan Msg} {c : Chan}

@[simp] theorem view_party (net : Net N Chan) (s : Comm N U Chan Msg) (c : Chan)
    (e : End) : (s.view net c).party e = s.party net c e := by
  cases e <;> rfl

/-- What an uninvolved party shows. -/
theorem party_eq {e : End} (hpc : t.pc (net.role c e) = s.pc (net.role c e))
    (hbuf : t.buf e (net.role c e) = s.buf e (net.role c e))
    (hst : t.sched_state (net.role c e) = s.sched_state (net.role c e))
    (hrun : t.runnable (net.role c e) = s.runnable (net.role c e)) :
    t.party net c e = s.party net c e := by
  simp only [party, hpc, hbuf, hst, hrun]

theorem view_eq (hin : t.party net c .input = s.party net c .input)
    (hout : t.party net c .output = s.party net c .output)
    (hown : t.own c = s.own c) : t.view net c = s.view net c := by
  simp only [own, Prod.mk.injEq] at hown
  obtain ⟨h1, h2, h3, h4, h5, h6⟩ := hown
  simp only [view, hin, hout, h1, h2, h3, h4, h5, h6]

end Comm

end Cxp
