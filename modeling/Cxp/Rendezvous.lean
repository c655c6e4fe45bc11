import Cxp.ProcessRecord
import Mathlib.Data.List.Infix
import Mathlib.Logic.Function.Basic

/-!
# What a channel is for: meetings of two parties

An abstract model of one channel with one writer and one reader.  Of each
party it says only what it is doing at this channel, whatever else it does:
it is away, is about to look at the channel, waits there, wakes the other
party, or listens in an alternation.

`Meets` is the invariant: whoever is registered is waiting or listening, a
waiting party that is not registered has its message moved and a wakeup on the
way, or done, and the messages are at one of three places in order: received,
stored and not yet received, offered and not yet stored.  One lemma for each
thing that can happen at a channel says that it is kept.
-/

namespace Cxp

/-- The two ends of a channel. -/
inductive End
  | input
  | output
  deriving DecidableEq

/-- The other end. -/
def End.peer : End → End
  | .input => .output
  | .output => .input

@[simp] theorem End.peer_ends : End.input.peer = .output ∧ End.output.peer = .input :=
  ⟨rfl, rfl⟩

/-- What a party is doing at a channel.  `buf` is what is in the buffer which
it passed, `blocked` says that it has given up the processor, `st` is its
`sched_state` and `run` says whether it is runnable. -/
inductive Party (Msg : Type)
  | away
  | ask (buf : Msg)
  | wake (buf : Msg)
  | schedule (buf : Msg)
  | wait (buf : Msg) (blocked : Bool) (st : SchedState) (run : Bool)
  | alting

namespace Party

variable {Msg : Type}

/-- The party waits, or is about to. -/
def waits : Party Msg → Bool
  | wait _ _ _ _ => true
  | _ => false

@[simp] theorem waits_eq :
    (away : Party Msg).waits = false ∧
    (∀ buf, (ask buf : Party Msg).waits = false) ∧
    (∀ buf, (wake buf : Party Msg).waits = false) ∧
    (∀ buf, (schedule buf : Party Msg).waits = false) ∧
    (∀ buf b st run, (wait buf b st run : Party Msg).waits = true) ∧
    (alting : Party Msg).waits = false := by
  simp [waits]

/-- The party is about to set the other's `sched_state`. -/
def isWake : Party Msg → Bool
  | wake _ => true
  | _ => false

@[simp] theorem isWake_eq :
    (away : Party Msg).isWake = false ∧
    (∀ buf, (ask buf : Party Msg).isWake = false) ∧
    (∀ buf, (wake buf : Party Msg).isWake = true) ∧
    (∀ buf, (schedule buf : Party Msg).isWake = false) ∧
    (∀ buf b st run, (wait buf b st run : Party Msg).isWake = false) ∧
    (alting : Party Msg).isWake = false := by
  simp [isWake]

/-- The party is about to schedule the other. -/
def isSchedule : Party Msg → Bool
  | schedule _ => true
  | _ => false

@[simp] theorem isSchedule_eq :
    (away : Party Msg).isSchedule = false ∧
    (∀ buf, (ask buf : Party Msg).isSchedule = false) ∧
    (∀ buf, (wake buf : Party Msg).isSchedule = false) ∧
    (∀ buf, (schedule buf : Party Msg).isSchedule = true) ∧
    (∀ buf b st run, (wait buf b st run : Party Msg).isSchedule = false) ∧
    (alting : Party Msg).isSchedule = false := by
  simp [isSchedule]

/-- The number of calls the party is in. -/
def calls : Party Msg → Nat
  | ask _ => 1
  | wake _ => 1
  | schedule _ => 1
  | wait _ _ _ _ => 1
  | _ => 0

@[simp] theorem calls_eq :
    (away : Party Msg).calls = 0 ∧
    (∀ buf, (ask buf : Party Msg).calls = 1) ∧
    (∀ buf, (wake buf : Party Msg).calls = 1) ∧
    (∀ buf, (schedule buf : Party Msg).calls = 1) ∧
    (∀ buf b st run, (wait buf b st run : Party Msg).calls = 1) ∧
    (alting : Party Msg).calls = 0 := by
  simp [calls]

end Party

/-- One channel, as its two parties use it.  `outs` are the messages of all
calls of `out`, `stored` those that have been copied to the reader's buffer,
`received` what the reader's buffer held when its calls of `in` returned, and
`outsDone` counts the calls of `out` that have returned. -/
@[ext] structure Meeting (P Msg : Type) where
  reader : Party Msg
  writer : Party Msg
  waiting : Option P
  ptr : Option P
  outs : List Msg
  stored : List Msg
  received : List Msg
  outsDone : Nat

namespace Meeting

variable {P Msg : Type}

/-- The party at one end. -/
def party (m : Meeting P Msg) : End → Party Msg
  | .input => m.reader
  | .output => m.writer

@[simp] theorem party_ends (m : Meeting P Msg) :
    m.party .input = m.reader ∧ m.party .output = m.writer := ⟨rfl, rfl⟩

/-- One party changes what it is doing. -/
def become (m : Meeting P Msg) (e : End) (x : Party Msg) : Meeting P Msg :=
  match e with
  | .input => { m with reader := x }
  | .output => { m with writer := x }

@[simp] theorem become_ends (m : Meeting P Msg) (x : Party Msg) :
    m.become .input x = { m with reader := x } ∧
    m.become .output x = { m with writer := x } := ⟨rfl, rfl⟩

/-- A call returns; `buf` is what the buffer passed to it holds. -/
def leave (m : Meeting P Msg) (e : End) (buf : Msg) : Meeting P Msg :=
  match e with
  | .input => { m with reader := .away, received := m.received ++ [buf] }
  | .output => { m with writer := .away, outsDone := m.outsDone + 1 }

@[simp] theorem leave_ends (m : Meeting P Msg) (buf : Msg) :
    m.leave .input buf =
      { m with reader := .away, received := m.received ++ [buf] } ∧
    m.leave .output buf =
      { m with writer := .away, outsDone := m.outsDone + 1 } := ⟨rfl, rfl⟩

/-- A call begins. -/
def ask (m : Meeting P Msg) (e : End) (buf : Msg) : Meeting P Msg :=
  match e with
  | .input => { m with reader := .ask buf }
  | .output => { m with writer := .ask buf, outs := m.outs ++ [buf] }

@[simp] theorem ask_ends (m : Meeting P Msg) (buf : Msg) :
    m.ask .input buf = { m with reader := .ask buf } ∧
    m.ask .output buf =
      { m with writer := .ask buf, outs := m.outs ++ [buf] } := ⟨rfl, rfl⟩

/-- The reader takes the message of the waiting writer. -/
@[simp] def take (m : Meeting P Msg) (buf : Msg) : Meeting P Msg :=
  { m with
    reader := .wake buf
    waiting := none
    ptr := none
    stored := m.stored ++ [buf] }

/-- The writer gives its message to the waiting reader. -/
@[simp] def give (m : Meeting P Msg) (buf : Msg) (blocked : Bool) (st : SchedState)
    (run : Bool) : Meeting P Msg :=
  { m with
    reader := .wait buf blocked st run
    writer := .wake buf
    waiting := none
    ptr := none
    stored := m.stored ++ [buf] }

/-- A party registers itself, `p`, and prepares to wait. -/
@[simp] def register (m : Meeting P Msg) (e : End) (p : P) (buf : Msg) : Meeting P Msg :=
  { m.become e (.wait buf false .preparingToWait true) with
    waiting := some p
    ptr := some p }

/-- The reader registers itself, `p`, in an alternation. -/
@[simp] def listen (m : Meeting P Msg) (p : P) : Meeting P Msg :=
  { m with reader := .alting, waiting := some p, ptr := none }

section Invariant

variable [DecidableEq P] (role : End → P)

/-- The messages of a call of `out` in progress that are not stored yet. -/
def unsent (m : Meeting P Msg) : List Msg :=
  match m.writer with
  | .ask buf => [buf]
  | .wait buf _ _ _ => if m.waiting = some (role .output) then [buf] else []
  | _ => []

/-- The messages stored for a call of `in` which has not returned yet. -/
def unread (m : Meeting P Msg) : List Msg :=
  match m.reader with
  | .wake buf => [buf]
  | .schedule buf => [buf]
  | .wait buf _ _ _ => if m.waiting = some (role .input) then [] else [buf]
  | _ => []

/-- The state of a party that waits to be woken. -/
def Unwoken (blocked : Bool) (st : SchedState) (run : Bool) : Prop :=
  (blocked = false ∧ st = .preparingToWait ∧ run = true) ∨
    (blocked = true ∧ st = .waiting ∧ run = false)

/-- A waiting party is registered; or its wakeup is still to be done by the
other party, or half done; or it is woken. -/
def Waiter (registered : Prop) (waker : Party Msg) : Party Msg → Prop
  | .wait _ blocked st run =>
      (registered ∧ waker.isWake = false ∧ waker.isSchedule = false ∧
        Unwoken blocked st run) ∨
      (¬ registered ∧
        ((waker.isWake = true ∧ Unwoken blocked st run) ∨
         (waker.isSchedule = true ∧ blocked = true ∧ st = .ready ∧ run = false) ∨
         (waker.isWake = false ∧ waker.isSchedule = false ∧ st = .ready ∧
            run = true)))
  | _ => True

/-- Who is registered at the channel, and whose buffer. -/
def Holder (m : Meeting P Msg) : Prop :=
  m.waiting = none ∨
  (m.waiting = some (role .output) ∧ m.ptr = some (role .output) ∧
    m.writer.waits = true) ∨
  (m.waiting = some (role .input) ∧ m.ptr = some (role .input) ∧
    m.reader.waits = true) ∨
  (m.waiting = some (role .input) ∧ m.ptr = none ∧ m.reader = .alting)

/-- The invariant of a channel. -/
structure Meets (m : Meeting P Msg) : Prop where
  holder : Holder role m
  reader_waits : Waiter (m.waiting = some (role .input)) m.writer m.reader
  writer_waits : Waiter (m.waiting = some (role .output)) m.reader m.writer
  reader_wakes : m.reader.isWake = true ∨ m.reader.isSchedule = true →
    m.writer.waits = true
  writer_wakes : m.writer.isWake = true ∨ m.writer.isSchedule = true →
    m.reader.waits = true
  writer : m.writer ≠ .alting
  sent : m.outs = m.stored ++ m.unsent role
  read : m.stored = m.received ++ m.unread role
  done : m.outsDone + m.writer.calls = m.outs.length

/-- A channel that nobody has used yet. -/
def fresh : Meeting P Msg :=
  ⟨.away, .away, none, none, [], [], [], 0⟩

theorem meets_fresh : Meets role (fresh : Meeting P Msg) := by
  constructor <;> simp [fresh, Holder, Waiter, unsent, unread]

variable {role} {m : Meeting P Msg}

/-- A waiting party's standing, with another waker that does the same. -/
theorem Waiter.congr {reg reg' : Prop} {waker waker' x : Party Msg}
    (h : Waiter reg waker x) (hreg : reg ↔ reg')
    (hwake : waker.isWake = waker'.isWake)
    (hsched : waker.isSchedule = waker'.isSchedule) : Waiter reg' waker' x := by
  cases x with
  | wait buf b st run => simpa only [Waiter, ← hreg, ← hwake, ← hsched] using h
  | _ => trivial

/-- A waiting party that is registered. -/
theorem Waiter.registered {reg : Prop} {waker : Party Msg} {buf : Msg} {b : Bool}
    {st : SchedState} {run : Bool} (h : Waiter reg waker (.wait buf b st run))
    (hreg : reg) :
    waker.isWake = false ∧ waker.isSchedule = false ∧ Unwoken b st run := by
  rcases h with ⟨_, h1, h2, h3⟩ | ⟨hnot, _⟩
  · exact ⟨h1, h2, h3⟩
  · exact absurd hreg hnot

/-- A waiting party that may go on is neither registered nor about to be woken. -/
theorem Waiter.woken {reg : Prop} {waker : Party Msg} {buf : Msg} {b : Bool}
    {st : SchedState} {run : Bool} (h : Waiter reg waker (.wait buf b st run))
    (hready : (b = false ∧ st ≠ .preparingToWait) ∨ (b = true ∧ run = true)) :
    ¬ reg ∧ waker.isWake = false ∧ waker.isSchedule = false := by
  have hno : ¬ Unwoken b st run := by
    rcases hready with ⟨rfl, hst⟩ | ⟨rfl, rfl⟩ <;> simp_all [Unwoken]
  rcases h with ⟨_, _, _, hun⟩ | ⟨hreg, ⟨_, hun⟩ | ⟨_, rfl, rfl, rfl⟩ | ⟨h1, h2, _⟩⟩
  · exact absurd hun hno
  · exact absurd hun hno
  · simp at hready
  · exact ⟨hreg, h1, h2⟩

/-- A waiting party whose wakeup is still to be done. -/
theorem Waiter.waking {reg : Prop} {waker : Party Msg} {buf : Msg} {b : Bool}
    {st : SchedState} {run : Bool} (h : Waiter reg waker (.wait buf b st run))
    (hw : waker.isWake = true) : ¬ reg ∧ Unwoken b st run := by
  rcases h with ⟨_, h1, _⟩ | ⟨hreg, ⟨_, hun⟩ | ⟨hs, _⟩ | ⟨h1, _⟩⟩
  · exact absurd (h1.symm.trans hw) Bool.false_ne_true
  · exact ⟨hreg, hun⟩
  · cases waker <;> simp_all
  · exact absurd (h1.symm.trans hw) Bool.false_ne_true

/-- A waiting party whose wakeup is half done. -/
theorem Waiter.scheduling {reg : Prop} {waker : Party Msg} {buf : Msg} {b : Bool}
    {st : SchedState} {run : Bool} (h : Waiter reg waker (.wait buf b st run))
    (hw : waker.isSchedule = true) :
    ¬ reg ∧ b = true ∧ st = .ready ∧ run = false := by
  rcases h with ⟨_, _, h2, _⟩ | ⟨hreg, ⟨hk, _⟩ | ⟨_, h3⟩ | ⟨_, h2, _⟩⟩
  · exact absurd (h2.symm.trans hw) Bool.false_ne_true
  · cases waker <;> simp_all
  · exact ⟨hreg, h3⟩
  · exact absurd (h2.symm.trans hw) Bool.false_ne_true

/-- A party that is not waiting has nobody about to wake it. -/
theorem not_waking {x waker : Party Msg} (hx : x.waits = false)
    (hwakes : waker.isWake = true ∨ waker.isSchedule = true → x.waits = true) :
    waker.isWake = false ∧ waker.isSchedule = false := by
  rw [hx] at hwakes
  simpa using hwakes

/-- The standing of a party that has just registered. -/
theorem Waiter.of_register {reg : Prop} {waker : Party Msg} (buf : Msg) (hreg : reg)
    (hwake : waker.isWake = false ∧ waker.isSchedule = false) :
    Waiter reg waker (.wait buf false .preparingToWait true) :=
  Or.inl ⟨hreg, hwake.1, hwake.2, Or.inl ⟨rfl, rfl, rfl⟩⟩

/-- Whom the reader finds registered. -/
theorem Meets.found_writer (h : Meets role m) {buf : Msg} (hask : m.reader = .ask buf)
    {w : P} (hw : m.waiting = some w) :
    w = role .output ∧ m.ptr = some (role .output) ∧ m.writer.waits = true := by
  rcases h.holder with h1 | ⟨h1, h2⟩ | ⟨_, _, h3⟩ | ⟨_, _, h3⟩
  · simp [h1] at hw
  · exact ⟨Option.some.inj (hw.symm.trans h1), h2⟩
  · simp [hask] at h3
  · simp [hask] at h3

/-- Whom the writer finds registered. -/
theorem Meets.found_reader (h : Meets role m) {buf : Msg} (hask : m.writer = .ask buf)
    {w : P} (hw : m.waiting = some w) :
    w = role .input ∧ ((m.ptr = some (role .input) ∧ m.reader.waits = true) ∨
      (m.ptr = none ∧ m.reader = .alting)) := by
  rcases h.holder with h1 | ⟨_, _, h3⟩ | ⟨h1, h2⟩ | ⟨h1, h2⟩
  · simp [h1] at hw
  · simp [hask] at h3
  · exact ⟨Option.some.inj (hw.symm.trans h1), Or.inl h2⟩
  · exact ⟨Option.some.inj (hw.symm.trans h1), Or.inr h2⟩

/-- A call begins at a channel where the party was away. -/
theorem Meets.ask (h : Meets role m) {e : End} (haway : m.party e = .away)
    (buf : Msg) : Meets role (m.ask e buf) := by
  cases e with
  | input =>
      replace haway : m.reader = .away := haway
      refine ⟨?_, trivial, ?_, by simp, ?_, h.writer, h.sent, ?_, h.done⟩
      · simpa [Holder, haway] using h.holder
      · exact h.writer_waits.congr Iff.rfl (by simp [haway]) (by simp [haway])
      · simpa [haway] using h.writer_wakes
      · simpa [unread, haway] using h.read
  | output =>
      replace haway : m.writer = .away := haway
      refine ⟨?_, ?_, trivial, ?_, by simp, by simp, ?_, h.read, ?_⟩
      · simpa [Holder, haway] using h.holder
      · exact h.reader_waits.congr Iff.rfl (by simp [haway]) (by simp [haway])
      · simpa [haway] using h.reader_wakes
      · simpa [unsent, haway] using h.sent
      · simpa [haway] using h.done

/-- The reader comes to a registered writer, which then has a wakeup to come. -/
theorem Meets.take (h : Meets role m) {a buf : Msg} {b : Bool} {st : SchedState}
    {run : Bool} (hin : m.reader = .ask a) (hout : m.writer = .wait buf b st run)
    (hwait : m.waiting = some (role .output)) : Meets role (m.take buf) := by
  have hun := ((hout ▸ h.writer_waits).registered hwait).2.2
  refine ⟨Or.inl rfl, trivial, ?_, by simp [hout], by simp [hout], h.writer, ?_, ?_, h.done⟩
  · simp only [Meeting.take, hout]
    exact Or.inr ⟨by simp, Or.inl ⟨rfl, hun⟩⟩
  · simpa [unsent, hout, hwait] using h.sent
  · simpa [unread, hin] using h.read

/-- The writer comes to a registered reader that is not in an alternation. -/
theorem Meets.give (h : Meets role m) {a buf : Msg} {b : Bool} {st : SchedState}
    {run : Bool} (hout : m.writer = .ask buf) (hin : m.reader = .wait a b st run)
    (hwait : m.waiting = some (role .input)) : Meets role (m.give buf b st run) := by
  have hun := ((hin ▸ h.reader_waits).registered hwait).2.2
  refine ⟨Or.inl rfl, ?_, trivial, by simp, by simp, by simp, ?_, ?_, ?_⟩
  · exact Or.inr ⟨by simp, Or.inl ⟨rfl, hun⟩⟩
  · simpa [unsent, hout] using h.sent
  · simpa [unread, hin, hwait] using h.read
  · simpa [hout] using h.done

/-- A party finds nobody at the channel, or the writer finds the reader in an
alternation and takes its place. -/
theorem Meets.register (h : Meets role m) (hne : role .input ≠ role .output)
    {e : End} {buf : Msg} (hask : m.party e = .ask buf)
    (hplace : m.waiting = none ∨ (e = .output ∧ m.reader = .alting)) :
    Meets role (m.register e (role e) buf) := by
  cases e with
  | input =>
      replace hask : m.reader = .ask buf := hask
      obtain hnone : m.waiting = none := by simpa using hplace
      have hquiet := not_waking (by simp [hask]) h.writer_wakes
      refine ⟨?_, ?_, ?_, by simp, by simp, h.writer, ?_, ?_, h.done⟩
      · exact Or.inr (Or.inr (Or.inl ⟨rfl, rfl, rfl⟩))
      · exact Waiter.of_register buf rfl hquiet
      · exact h.writer_waits.congr (by simp [hnone, hne]) (by simp [hask]) (by simp [hask])
      · have hs := h.sent
        cases hw : m.writer <;> simp_all [unsent]
      · simpa [unread, hask] using h.read
  | output =>
      replace hask : m.writer = .ask buf := hask
      have hquiet := not_waking (by simp [hask]) h.reader_wakes
      refine ⟨?_, ?_, ?_, by simp, by simp, by simp, ?_, ?_, ?_⟩
      · exact Or.inr (Or.inl ⟨rfl, rfl, rfl⟩)
      · rcases hplace with hnone | ⟨_, halt⟩
        · exact h.reader_waits.congr (by simp [hnone, hne.symm]) (by simp [hask]) (by simp [hask])
        · simp [Waiter, halt]
      · exact Waiter.of_register buf rfl hquiet
      · simpa [unsent, hask] using h.sent
      · have hr := h.read
        rcases hplace with hnone | ⟨_, halt⟩
        · have hnot := hne.symm
          cases hr : m.reader <;> simp_all [unread]
        · simpa [unread, halt] using hr
      · simpa [hask] using h.done

/-- A party sets the `sched_state` of one that has given up the processor, and
is then to schedule it. -/
theorem Meets.wake_blocked (h : Meets role m) {e : End} {x buf : Msg} {b run : Bool}
    (hwake : m.party e = .wake x) (hwait : m.party e.peer = .wait buf b .waiting run) :
    Meets role ((m.become e.peer (.wait buf b .ready run)).become e (.schedule x)) := by
  cases e with
  | input =>
      replace hwake : m.reader = .wake x := hwake
      replace hwait : m.writer = .wait buf b .waiting run := hwait
      obtain ⟨hreg, hun⟩ := (hwait ▸ h.writer_waits).waking (by simp [hwake])
      obtain ⟨rfl, rfl⟩ : b = true ∧ run = false := by simpa [Unwoken] using hun
      refine ⟨?_, trivial, ?_, by simp [End.peer], by simp [End.peer], by simp [End.peer],
        ?_, ?_, ?_⟩
      · simpa [Holder, End.peer, hwait, hwake] using h.holder
      · exact Or.inr ⟨hreg, Or.inr (Or.inl ⟨rfl, rfl, rfl, rfl⟩)⟩
      · simpa [unsent, End.peer, hwait, hreg] using h.sent
      · simpa [unread, End.peer, hwake] using h.read
      · simpa [End.peer, hwait] using h.done
  | output =>
      replace hwake : m.writer = .wake x := hwake
      replace hwait : m.reader = .wait buf b .waiting run := hwait
      obtain ⟨hreg, hun⟩ := (hwait ▸ h.reader_waits).waking (by simp [hwake])
      obtain ⟨rfl, rfl⟩ : b = true ∧ run = false := by simpa [Unwoken] using hun
      refine ⟨?_, ?_, trivial, by simp [End.peer], by simp [End.peer], by simp [End.peer],
        ?_, ?_, ?_⟩
      · simpa [Holder, End.peer, hwait, hwake] using h.holder
      · exact Or.inr ⟨hreg, Or.inr (Or.inl ⟨rfl, rfl, rfl, rfl⟩)⟩
      · simpa [unsent, End.peer, hwake] using h.sent
      · simpa [unread, End.peer, hwait, hreg] using h.read
      · simpa [End.peer, hwake] using h.done

/-- A party sets the `sched_state` of one that still runs, and returns. -/
theorem Meets.wake_running (h : Meets role m) {e : End} {x buf : Msg} {b : Bool}
    {st : SchedState} {run : Bool} (hwake : m.party e = .wake x)
    (hwait : m.party e.peer = .wait buf b st run) (hst : st ≠ .waiting) :
    Meets role ((m.become e.peer (.wait buf b .ready run)).leave e x) := by
  cases e with
  | input =>
      replace hwake : m.reader = .wake x := hwake
      replace hwait : m.writer = .wait buf b st run := hwait
      obtain ⟨hreg, hun⟩ := (hwait ▸ h.writer_waits).waking (by simp [hwake])
      obtain ⟨rfl, -, rfl⟩ : b = false ∧ st = .preparingToWait ∧ run = true := by
        simpa [Unwoken, hst] using hun
      refine ⟨?_, trivial, ?_, by simp [End.peer], by simp [End.peer], by simp [End.peer],
        ?_, ?_, ?_⟩
      · simpa [Holder, End.peer, hwait, hwake] using h.holder
      · exact Or.inr ⟨hreg, Or.inr (Or.inr ⟨rfl, rfl, rfl, rfl⟩)⟩
      · simpa [unsent, End.peer, hwait, hreg] using h.sent
      · simpa [unread, End.peer, hwake] using h.read
      · simpa [End.peer, hwait] using h.done
  | output =>
      replace hwake : m.writer = .wake x := hwake
      replace hwait : m.reader = .wait buf b st run := hwait
      obtain ⟨hreg, hun⟩ := (hwait ▸ h.reader_waits).waking (by simp [hwake])
      obtain ⟨rfl, -, rfl⟩ : b = false ∧ st = .preparingToWait ∧ run = true := by
        simpa [Unwoken, hst] using hun
      refine ⟨?_, ?_, trivial, by simp [End.peer], by simp [End.peer], by simp [End.peer],
        ?_, ?_, ?_⟩
      · simpa [Holder, End.peer, hwait, hwake] using h.holder
      · exact Or.inr ⟨hreg, Or.inr (Or.inr ⟨rfl, rfl, rfl, rfl⟩)⟩
      · simpa [unsent, End.peer, hwake] using h.sent
      · simpa [unread, End.peer, hwait, hreg] using h.read
      · simpa [End.peer, hwake] using h.done

/-- A party schedules the one that waits, and returns. -/
theorem Meets.schedule (h : Meets role m) {e : End} {x buf : Msg} {b : Bool}
    {st : SchedState} {run : Bool} (hsched : m.party e = .schedule x)
    (hwait : m.party e.peer = .wait buf b st run) :
    Meets role ((m.become e.peer (.wait buf b st true)).leave e x) := by
  cases e with
  | input =>
      replace hsched : m.reader = .schedule x := hsched
      replace hwait : m.writer = .wait buf b st run := hwait
      obtain ⟨hreg, rfl, rfl, rfl⟩ := (hwait ▸ h.writer_waits).scheduling (by simp [hsched])
      refine ⟨?_, trivial, ?_, by simp [End.peer], by simp [End.peer], by simp [End.peer],
        ?_, ?_, ?_⟩
      · simpa [Holder, End.peer, hwait, hsched] using h.holder
      · exact Or.inr ⟨hreg, Or.inr (Or.inr ⟨rfl, rfl, rfl, rfl⟩)⟩
      · simpa [unsent, End.peer, hwait, hreg] using h.sent
      · simpa [unread, End.peer, hsched] using h.read
      · simpa [End.peer, hwait] using h.done
  | output =>
      replace hsched : m.writer = .schedule x := hsched
      replace hwait : m.reader = .wait buf b st run := hwait
      obtain ⟨hreg, rfl, rfl, rfl⟩ := (hwait ▸ h.reader_waits).scheduling (by simp [hsched])
      refine ⟨?_, ?_, trivial, by simp [End.peer], by simp [End.peer], by simp [End.peer],
        ?_, ?_, ?_⟩
      · simpa [Holder, End.peer, hwait, hsched] using h.holder
      · exact Or.inr ⟨hreg, Or.inr (Or.inr ⟨rfl, rfl, rfl, rfl⟩)⟩
      · simpa [unsent, End.peer, hsched] using h.sent
      · simpa [unread, End.peer, hwait, hreg] using h.read
      · simpa [End.peer, hsched] using h.done

/-- Giving up the processor, for a party that still prepares to wait. -/
theorem Waiter.block {reg : Prop} {waker : Party Msg} {buf : Msg} {b run : Bool}
    (h : Waiter reg waker (.wait buf b .preparingToWait run)) :
    Waiter reg waker (.wait buf true .waiting false) := by
  have hun : Unwoken true .waiting false := Or.inr ⟨rfl, rfl, rfl⟩
  rcases h with ⟨hreg, h1, h2, _⟩ | ⟨hreg, ⟨hk, _⟩ | ⟨_, _, hst, _⟩ | ⟨_, _, hst, _⟩⟩
  · exact Or.inl ⟨hreg, h1, h2, hun⟩
  · exact Or.inr ⟨hreg, Or.inl ⟨hk, hun⟩⟩
  · cases hst
  · cases hst

/-- A waiting party that is still preparing to wait gives up the processor. -/
theorem Meets.block (h : Meets role m) {e : End} {buf : Msg} {b run : Bool}
    (hwait : m.party e = .wait buf b .preparingToWait run) :
    Meets role (m.become e (.wait buf true .waiting false)) := by
  cases e with
  | input =>
      replace hwait : m.reader = .wait buf b .preparingToWait run := hwait
      refine ⟨?_, (hwait ▸ h.reader_waits).block, ?_, by simp, by simp, h.writer, h.sent,
        ?_, h.done⟩
      · simpa [Holder, hwait] using h.holder
      · exact h.writer_waits.congr Iff.rfl (by simp [hwait]) (by simp [hwait])
      · have hread := h.read
        simp only [unread, hwait] at hread
        exact hread
  | output =>
      replace hwait : m.writer = .wait buf b .preparingToWait run := hwait
      refine ⟨?_, ?_, (hwait ▸ h.writer_waits).block, by simp, by simp, by simp, ?_,
        h.read, ?_⟩
      · simpa [Holder, hwait] using h.holder
      · exact h.reader_waits.congr Iff.rfl (by simp [hwait]) (by simp [hwait])
      · have hsent := h.sent
        simp only [unsent, hwait] at hsent
        exact hsent
      · simpa [hwait] using h.done

/-- A waiting party that is not blocked, or runnable again, returns. -/
theorem Meets.resume (h : Meets role m) {e : End} {buf : Msg} {b : Bool}
    {st : SchedState} {run : Bool} (hwait : m.party e = .wait buf b st run)
    (hready : (b = false ∧ st ≠ .preparingToWait) ∨ (b = true ∧ run = true)) :
    Meets role (m.leave e buf) := by
  cases e with
  | input =>
      replace hwait : m.reader = .wait buf b st run := hwait
      obtain ⟨hreg, hk, hs⟩ := (hwait ▸ h.reader_waits).woken hready
      refine ⟨?_, trivial, ?_, by simp, by simp [hk, hs], h.writer, h.sent, ?_, h.done⟩
      · simpa [Holder, hwait, hreg] using h.holder
      · exact h.writer_waits.congr Iff.rfl (by simp [hwait]) (by simp [hwait])
      · simpa [unread, hwait, hreg] using h.read
  | output =>
      replace hwait : m.writer = .wait buf b st run := hwait
      obtain ⟨hreg, hk, hs⟩ := (hwait ▸ h.writer_waits).woken hready
      refine ⟨?_, ?_, trivial, by simp [hk, hs], by simp, by simp, ?_, h.read, ?_⟩
      · simpa [Holder, hwait, hreg] using h.holder
      · exact h.reader_waits.congr Iff.rfl (by simp [hwait]) (by simp [hwait])
      · simpa [unsent, hwait, hreg] using h.sent
      · simpa [hwait] using h.done

/-- The reader is in no call of `in` on the channel. -/
def Unbound (m : Meeting P Msg) : Prop := m.reader = .away ∨ m.reader = .alting

theorem Unbound.idle (role : End → P) (h : m.Unbound) :
    m.reader.waits = false ∧ m.reader.isWake = false ∧ m.reader.isSchedule = false ∧
      m.unread role = [] := by
  rcases h with h | h <;> simp [h, unread]

/-- In an alternation the reader registers itself where nobody is registered. -/
theorem Meets.listen (h : Meets role m) (hne : role .input ≠ role .output)
    (hfree : m.Unbound) (hnone : m.waiting = none) :
    Meets role (m.listen (role .input)) := by
  obtain ⟨hw, hk, hs, hu⟩ := hfree.idle role
  refine ⟨?_, trivial, ?_, by simp, ?_, h.writer, ?_, ?_, h.done⟩
  · exact Or.inr (Or.inr (Or.inr ⟨rfl, rfl, rfl⟩))
  · exact h.writer_waits.congr (by simp [hnone, hne]) (by simp [hk]) (by simp [hs])
  · intro hwk
    exact absurd (h.writer_wakes hwk) (by simp [hw])
  · have hsent := h.sent
    cases hwr : m.writer <;> simp_all [unsent]
  · have hread := h.read
    rw [hu] at hread
    simpa [unread] using hread

/-- The reader takes itself off the channel. -/
theorem Meets.unlisten (h : Meets role m) (hfree : m.Unbound)
    (hnot : m.waiting ≠ some (role .output)) : Meets role { m with waiting := none } := by
  obtain ⟨hw, hk, hs, hu⟩ := hfree.idle role
  refine ⟨Or.inl rfl, ?_, ?_, h.reader_wakes, h.writer_wakes, h.writer, ?_, ?_, h.done⟩
  · rcases hfree with hr | hr <;> simp [hr, Waiter]
  · exact h.writer_waits.congr (by simp [hnot]) rfl rfl
  · have hsent := h.sent
    cases hwr : m.writer <;> simp_all [unsent]
  · rcases hfree with hr | hr <;> simpa [hr, unread] using h.read

/-- The reader goes on in an alternation, or ends it when it is not registered. -/
theorem Meets.alts (h : Meets role m) {x : Party Msg} (hfree : m.Unbound)
    (hx : (x = .away ∧ m.waiting ≠ some (role .input)) ∨ x = .alting) :
    Meets role { m with reader := x } := by
  obtain ⟨hw, hk, hs, hu⟩ := hfree.idle role
  have hx' : x.waits = false ∧ x.isWake = false ∧ x.isSchedule = false := by
    rcases hx with ⟨rfl, _⟩ | rfl <;> simp
  refine ⟨?_, ?_, ?_, by simp [hx'], ?_, h.writer, h.sent, ?_, h.done⟩
  · rcases h.holder with h1 | h1 | ⟨_, _, h1⟩ | h1
    · exact Or.inl h1
    · exact Or.inr (Or.inl h1)
    · simp [hw] at h1
    · rcases hx with ⟨_, hn⟩ | rfl
      · exact absurd h1.1 hn
      · exact Or.inr (Or.inr (Or.inr ⟨h1.1, h1.2.1, rfl⟩))
  · rcases hx with ⟨rfl, _⟩ | rfl <;> trivial
  · exact h.writer_waits.congr Iff.rfl (by simp [hk, hx']) (by simp [hs, hx'])
  · intro hwk
    exact absurd (h.writer_wakes hwk) (by simp [hw])
  · have hread := h.read
    rw [hu] at hread
    rcases hx with ⟨rfl, _⟩ | rfl <;> simpa [unread] using hread

end Invariant

end Meeting

end Cxp
