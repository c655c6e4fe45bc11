import Cxp.Rendezvous
import Cxp.RunInduction

/-!
# The three orders of a rendezvous (`comm.c`, `alt.c`)

One call of `in` and one of `out` on a channel, in bytes.  The writer may
register first, or the reader may, in `in` or in an alternation for this
channel after which it calls `in`.

* Where the writer has registered, `in` copies, with the reader's length.
* Where the reader has registered in `in`, `out` copies, with the writer's
  length: neither length is stored in the channel.
* Where the reader listens in an alternation, `out` registers the writer, and
  the reader comes to copy in `in`.  The channel's null pointer tells `out`
  that this is so; a reader which passed a null pointer itself looks the same.

`order_free_iff` says for which calls all orders give the same outcome.
-/

namespace Cxp

open Run

/-- The arguments of the two calls; address 0 is the null pointer. -/
structure Calls where
  dest : Nat
  rlen : Nat
  src : Nat
  wlen : Nat

/-- Null pointers go with length zero. -/
structure Calls.Accepted (k : Calls) : Prop where
  dest : k.dest = 0 → k.rlen = 0
  src : k.src = 0 → k.wlen = 0

/-- Where a party stands.  `wake` and `free` name the process which the party
found registered. -/
inductive ExchangePc
  /-- the reader, about to call a select -/
  | alt
  | enable
  | shouldWait
  /-- has given up the processor in the select -/
  | altWait
  | disable
  | finish (selected : Bool)
  /-- the select has returned -1, and `in` is not called -/
  | missed
  /-- about to enter the critical section of `in` or `out` -/
  | call
  /-- has copied, about to exchange the `sched_state` -/
  | wake (q : End)
  /-- about to call `freeProcessMaybe` -/
  | free (q : End)
  | relinquish
  /-- has given up the processor in `relinquish` -/
  | wait
  /-- the call has returned -/
  | done
  deriving DecidableEq

/-- The channel (`buf` is the union of `src` and `dest`), the two parties, and
the bytes written since the beginning. -/
structure Exchange (Byte : Type) where
  waiting : Option End
  buf : Nat
  sched_state : End → SchedState
  alt_state : End → AltState
  pc : End → ExchangePc
  written : Nat → Option Byte

namespace Exchange

variable {Byte : Type}

/-- Nothing registered; the reader alternates first, or calls `in` at once. -/
def start (Byte : Type) (alts : Bool) : Exchange Byte where
  waiting := none
  buf := 0
  sched_state := fun _ => .ready
  alt_state := fun _ => .none
  pc := fun
    | .input => if alts then .alt else .call
    | .output => .call
  written := fun _ => none

def goto (s : Exchange Byte) (e : End) (pc : ExchangePc) : Exchange Byte :=
  { s with pc := Function.update s.pc e pc }

/-- The bytes that `memcpy` writes, from a memory `read`. -/
def copy (read : Nat → Byte) (dest src n : Nat) (a : Nat) : Option Byte :=
  if dest ≤ a ∧ a < dest + n then some (read (src + (a - dest))) else none

/-- `memcpy`, when `mem` was the memory at the beginning; undefined at a null
pointer, unless there is nothing to copy. -/
def memcpy (mem : Nat → Byte) (s : Exchange Byte) (dest src n : Nat) :
    Option (Exchange Byte) :=
  if n ≠ 0 ∧ (dest = 0 ∨ src = 0) then none
  else
    let read := fun a => (s.written a).getD (mem a)
    some { s with
      written := fun a => (copy read dest src n a).or (s.written a) }

/-- A party that had given up the processor goes on. -/
def schedule (s : Exchange Byte) (e : End) : Exchange Byte :=
  match s.pc e with
  | .wait => s.goto e .done
  | .altWait => s.goto e .disable
  | _ => s

/-- Register at the channel with a buffer, and `PREPARE_TO_WAIT`. -/
def await (s : Exchange Byte) (e : End) (buf : Nat) : Exchange Byte :=
  { s with
    waiting := some e
    buf := buf
    sched_state := Function.update s.sched_state e .preparingToWait }

/-- Nobody is registered at the channel any more. -/
def clear (s : Exchange Byte) : Exchange Byte :=
  { s with waiting := none, buf := 0 }

/-- The critical section of `in`. -/
def «in» (k : Calls) (mem : Nat → Byte) (s : Exchange Byte) :
    Option (Exchange Byte) :=
  match s.waiting with
  | some wasWaiting =>
      (s.memcpy mem k.dest s.buf k.rlen).map fun s =>
        s.clear.goto .input (.wake wasWaiting)
  | none => some ((s.await .input k.dest).goto .input .relinquish)

/-- The critical section of `out`. -/
def out (k : Calls) (mem : Nat → Byte) (s : Exchange Byte) :
    Option (Exchange Byte) :=
  match s.waiting with
  | some wasWaiting =>
      if s.buf ≠ 0 then
        (s.memcpy mem s.buf k.src k.wlen).map fun s =>
          s.clear.goto .output (.wake wasWaiting)
      else
        some ((s.await .output k.src).goto .output (.free wasWaiting))
  | none => some ((s.await .output k.src).goto .output .relinquish)

/-- After the copying: make the other party ready, and schedule it if it was
waiting. -/
def wake (s : Exchange Byte) (e q : End) : Exchange Byte :=
  let old_state := s.sched_state q
  let s := { s with sched_state := Function.update s.sched_state q .ready }
  (if old_state = .waiting then s.schedule q else s).goto e .done

def freeProcessMaybe (s : Exchange Byte) (q : End) : Exchange Byte :=
  match s.alt_state q with
  | .enabling => { s with alt_state := Function.update s.alt_state q .ready }
  | .waiting =>
      { s with alt_state := Function.update s.alt_state q .ready }.schedule q
  | _ => s

def relinquish (s : Exchange Byte) (e : End) : Exchange Byte :=
  if s.sched_state e = .preparingToWait then
    { s with
      sched_state := Function.update s.sched_state e .waiting }.goto e .wait
  else s.goto e .done

/-- `enable_channel` for the one guard, and where the select goes from it. -/
def enable_channel (s : Exchange Byte) (proc : End) : Exchange Byte :=
  match s.waiting with
  | some q =>
      if q = proc then s.goto proc .shouldWait else s.goto proc .disable
  | none => { s with waiting := some proc, buf := 0 }.goto proc .shouldWait

/-- `disable_channel` for the one guard; the guard is selected if it is
ready. -/
def disable_channel (s : Exchange Byte) (proc : End) : Exchange Byte :=
  if s.waiting ≠ none ∧ s.waiting ≠ some proc then s.goto proc (.finish true)
  else { s with waiting := none }.goto proc (.finish false)

def altShouldWait (s : Exchange Byte) (proc : End) : Exchange Byte :=
  if s.alt_state proc = .enabling then
    { s with
      alt_state := Function.update s.alt_state proc .waiting }.goto proc .altWait
  else s.goto proc .disable

/-- The next step of a party; `none` where it can take none by itself. -/
def step (k : Calls) (mem : Nat → Byte) (s : Exchange Byte) (e : End) :
    Option (Exchange Byte) :=
  match s.pc e with
  | .alt =>
      some ({ s with
        alt_state := Function.update s.alt_state e .enabling }.goto e .enable)
  | .enable => some (s.enable_channel e)
  | .shouldWait => some (s.altShouldWait e)
  | .disable => some (s.disable_channel e)
  | .finish selected =>
      some ({ s with
        alt_state := Function.update s.alt_state e .none }.goto e
          (if selected then .call else .missed))
  | .call =>
      match e with
      | .input => s.in k mem
      | .output => s.out k mem
  | .wake q => some (s.wake e q)
  | .free q => some ((s.freeProcessMaybe q).goto e .relinquish)
  | .relinquish => some (s.relinquish e)
  | .altWait => none
  | .missed => none
  | .wait => none
  | .done => none

end Exchange

/-- A run has come to its end when neither party can go on. -/
def Quiet {Byte : Type} (k : Calls) (mem : Nat → Byte) (s : Exchange Byte) :
    Prop :=
  ∀ e, s.step k mem e = none

/-- Both calls have returned. -/
def Completed {Byte : Type} (s : Exchange Byte) : Prop :=
  ∀ e, s.pc e = .done

/-- Whoever registers first and however the steps of the parties interleave,
and whether or not the reader alternates first: every run comes to an end, both
calls have then returned, and the same bytes have been written. -/
structure OrderFree {Byte : Type} (k : Calls) (mem : Nat → Byte) : Prop where
  ends : ∃ n, ∀ alts acts t,
    exec (Exchange.step k mem) (Exchange.start Byte alts) acts = some t →
    acts.length ≤ n
  completes : ∀ alts acts t,
    exec (Exchange.step k mem) (Exchange.start Byte alts) acts = some t →
    Quiet k mem t → Completed t
  same : ∀ alts alts' acts acts' t t',
    exec (Exchange.step k mem) (Exchange.start Byte alts) acts = some t →
    exec (Exchange.step k mem) (Exchange.start Byte alts') acts' = some t' →
    Quiet k mem t → Quiet k mem t' → t.written = t'.written

/-! ## Every run ends -/

/-- The steps a party may still take. -/
def ExchangePc.left : ExchangePc → Nat
  | alt => 10
  | enable => 9
  | shouldWait => 8
  | altWait => 7
  | disable => 6
  | finish _ => 5
  | call => 4
  | free _ => 3
  | wake _ => 2
  | relinquish => 2
  | wait => 1
  | missed => 0
  | done => 0

namespace Exchange

variable {Byte : Type} {k : Calls} {mem : Nat → Byte} {s t : Exchange Byte}

/-- The steps both parties may still take. -/
def left (s : Exchange Byte) : Nat := (s.pc .input).left + (s.pc .output).left

@[simp] theorem goto_pc {e : End} {pc : ExchangePc} :
    (s.goto e pc).pc = Function.update s.pc e pc := rfl

@[simp] theorem await_pc {e : End} {buf : Nat} : (s.await e buf).pc = s.pc := rfl

@[simp] theorem clear_pc : s.clear.pc = s.pc := rfl

theorem memcpy_pc {dest src n : Nat} (h : s.memcpy mem dest src n = some t) :
    t.pc = s.pc := by
  unfold memcpy at h
  split at h
  · cases h
  · cases h
    rfl

/-- Scheduling moves a party on, if anything. -/
theorem schedule_left (q e : End) :
    ((s.schedule q).pc e).left ≤ (s.pc e).left := by
  unfold schedule
  split
  · rename_i hpc
    by_cases he : e = q
    · subst he
      simp [hpc, ExchangePc.left]
    · simp [Function.update_of_ne he]
  · rename_i hpc
    by_cases he : e = q
    · subst he
      simp [hpc, ExchangePc.left]
    · simp [Function.update_of_ne he]
  · exact Nat.le_refl _

/-- Of the two parties, one goes on and the other keeps or loses steps. -/
theorem left_lt {e : End} {c : ExchangePc} {u : Exchange Byte}
    (ht : t.pc = Function.update u.pc e c) (hlt : c.left < (s.pc e).left)
    (hle : ∀ e, (u.pc e).left ≤ (s.pc e).left) : t.left < s.left := by
  have hin := hle .input
  have hout := hle .output
  unfold left
  rw [ht]
  cases e <;> simp <;> omega

/-- The party goes on, and nothing else about the parties changes. -/
theorem left_lt_goto {e : End} {c : ExchangePc}
    (ht : t.pc = Function.update s.pc e c) (hlt : c.left < (s.pc e).left) :
    t.left < s.left :=
  left_lt ht hlt fun _ => Nat.le_refl _

theorem in_left (hpc : s.pc .input = .call) (h : s.in k mem = some t) :
    t.left < s.left := by
  unfold «in» at h
  split at h
  · rename_i wasWaiting _
    obtain ⟨u, hu, rfl⟩ := Option.map_eq_some_iff.mp h
    apply left_lt_goto (e := .input) (c := .wake wasWaiting)
    · simp only [goto_pc, clear_pc, memcpy_pc hu]
    · simp [hpc, ExchangePc.left]
  · cases h
    apply left_lt_goto rfl
    simp [hpc, ExchangePc.left]

theorem out_left (hpc : s.pc .output = .call) (h : s.out k mem = some t) :
    t.left < s.left := by
  unfold out at h
  split at h
  · rename_i wasWaiting _
    split at h
    · obtain ⟨u, hu, rfl⟩ := Option.map_eq_some_iff.mp h
      apply left_lt_goto (e := .output) (c := .wake wasWaiting)
      · simp only [goto_pc, clear_pc, memcpy_pc hu]
      · simp [hpc, ExchangePc.left]
    · cases h
      apply left_lt_goto rfl
      simp [hpc, ExchangePc.left]
  · cases h
    apply left_lt_goto rfl
    simp [hpc, ExchangePc.left]

/-- **Every step uses one up.** -/
theorem step_left {e : End} (h : s.step k mem e = some t) : t.left < s.left := by
  unfold step at h
  split at h <;> rename_i hpc
  · cases h
    apply left_lt_goto rfl
    simp [hpc, ExchangePc.left]
  · cases h
    unfold enable_channel
    split
    · split <;> apply left_lt_goto rfl <;> simp [hpc, ExchangePc.left]
    · apply left_lt_goto rfl
      simp [hpc, ExchangePc.left]
  · cases h
    unfold altShouldWait
    split <;> apply left_lt_goto rfl <;> simp [hpc, ExchangePc.left]
  · cases h
    unfold disable_channel
    split <;> apply left_lt_goto rfl <;> simp [hpc, ExchangePc.left]
  · cases h
    apply left_lt_goto rfl
    rw [hpc]
    split <;> simp [ExchangePc.left]
  · cases e with
    | input => exact in_left hpc h
    | output => exact out_left hpc h
  · rename_i q
    cases h
    apply left_lt (c := .done) rfl
    · simp [hpc, ExchangePc.left]
    · intro r
      split
      · exact schedule_left q r
      · exact Nat.le_refl _
  · rename_i q
    cases h
    apply left_lt (c := .relinquish) rfl
    · simp [hpc, ExchangePc.left]
    · intro r
      unfold freeProcessMaybe
      split
      · exact Nat.le_refl _
      · exact schedule_left q r
      · exact Nat.le_refl _
  · cases h
    unfold relinquish
    split <;> apply left_lt_goto rfl <;> simp [hpc, ExchangePc.left]
  all_goals cases h

/-- A run is no longer than the steps that were left. -/
theorem exec_length {acts : List End}
    (h : exec (step k mem) s acts = some t) : acts.length ≤ s.left := by
  induction acts generalizing s with
  | nil => exact Nat.zero_le _
  | cons e acts ih =>
      obtain ⟨u, hu, hrest⟩ := exec_cons h
      have hlt := step_left hu
      have hle := ih hrest
      simp only [List.length_cons]
      omega

/-! ## The phases of a rendezvous -/

/-- A party which has registered waits, or is about to. -/
def Waits (s : Exchange Byte) (e : End) : Prop :=
  (s.pc e = .relinquish ∧ s.sched_state e = .preparingToWait) ∨
    (s.pc e = .wait ∧ s.sched_state e = .waiting)

/-- The reader is registered by its alternation, and nobody has freed it. -/
def Listens (s : Exchange Byte) : Prop :=
  (s.pc .input = .shouldWait ∧ s.alt_state .input = .enabling) ∨
    (s.pc .input = .altWait ∧ s.alt_state .input = .waiting)

/-- The reader is not registered and has still to call `in`. -/
def Coming (s : Exchange Byte) : Prop :=
  s.pc .input = .alt ∨
    (s.pc .input = .enable ∧ s.alt_state .input = .enabling) ∨
    s.pc .input = .call

/-- The reader has still to call `in`, and finds the writer registered. -/
def Finds (s : Exchange Byte) : Prop :=
  Coming s ∨
    (s.pc .input = .shouldWait ∧ s.alt_state .input = .ready) ∨
    s.pc .input = .disable ∨ s.pc .input = .finish true

/-- What has been written at the end. -/
def Copied (k : Calls) (mem : Nat → Byte) (s : Exchange Byte) : Prop :=
  s.written = copy mem k.dest k.src k.rlen

/-- The phases of a rendezvous with a destination and one length. -/
inductive Phase (k : Calls) (mem : Nat → Byte) (s : Exchange Byte) : Prop
  /-- nobody is registered -/
  | before (hr : Coming s) (hw : s.pc .output = .call)
      (hwaiting : s.waiting = none) (hnew : s.written = fun _ => none)
  /-- the reader is registered by its alternation -/
  | listening (hr : Listens s) (hw : s.pc .output = .call)
      (hwaiting : s.waiting = some .input) (hbuf : s.buf = 0)
      (hnew : s.written = fun _ => none)
  /-- the reader is registered in `in` -/
  | reading (hr : Waits s .input) (hw : s.pc .output = .call)
      (hwaiting : s.waiting = some .input) (hbuf : s.buf = k.dest)
      (hnew : s.written = fun _ => none)
  /-- the writer has taken the place of the listening reader -/
  | freeing (hr : Listens s) (hw : s.pc .output = .free .input)
      (hst : s.sched_state .output = .preparingToWait)
      (hwaiting : s.waiting = some .output) (hbuf : s.buf = k.src)
      (hnew : s.written = fun _ => none)
  /-- the writer is registered -/
  | writing (hr : Finds s) (hw : Waits s .output)
      (hwaiting : s.waiting = some .output) (hbuf : s.buf = k.src)
      (hnew : s.written = fun _ => none)
  /-- one party, `e`, has copied, and the other waits -/
  | copied (e : End) (hpc : s.pc e = .wake e.peer) (hwaits : Waits s e.peer)
      (hcopied : Copied k mem s)
  /-- `e` is done, and the other need not wait -/
  | woken (e : End) (hpc : s.pc e = .done) (hother : s.pc e.peer = .relinquish)
      (hst : s.sched_state e.peer = .ready) (hcopied : Copied k mem s)
  | finished (hpc : ∀ e, s.pc e = .done) (hcopied : Copied k mem s)

theorem phase_start (alts : Bool) : Phase k mem (start Byte alts) := by
  apply Phase.before
  · unfold Coming
    cases alts <;> simp [start]
  · rfl
  · rfl
  · rfl

/-- What the first `memcpy` writes. -/
theorem memcpy_new (mem : Nat → Byte) (dest src n : Nat)
    (hnew : s.written = fun _ => none)
    (hok : n = 0 ∨ dest ≠ 0 ∧ src ≠ 0) :
    s.memcpy mem dest src n = some { s with written := copy mem dest src n } := by
  unfold memcpy
  rw [if_neg (by omega)]
  simp [hnew]

/-- From `before`, a party registers, or the reader turns to its select. -/
theorem step_before (hr : Coming s) (hw : s.pc .output = .call)
    (hwaiting : s.waiting = none) (hnew : s.written = fun _ => none) {e : End}
    (hstep : s.step k mem e = some t) : Phase k mem t := by
  cases e with
  | input =>
      obtain hpc | ⟨hpc, halt⟩ | hpc := hr
      · simp only [step, hpc, Option.some.injEq] at hstep
        subst hstep
        apply Phase.before
        · right; left
          simp [goto]
        · simpa [goto] using hw
        · exact hwaiting
        · exact hnew
      · simp only [step, hpc, enable_channel, hwaiting, Option.some.injEq] at hstep
        subst hstep
        apply Phase.listening
        · left
          simpa [goto] using halt
        · simpa [goto] using hw
        · rfl
        · rfl
        · exact hnew
      · simp only [step, hpc, «in», hwaiting, Option.some.injEq] at hstep
        subst hstep
        apply Phase.reading
        · left
          simp [goto, await]
        · simpa [goto] using hw
        · rfl
        · rfl
        · exact hnew
  | output =>
      simp only [step, hw, out, hwaiting, Option.some.injEq] at hstep
      subst hstep
      apply Phase.writing
      · left
        simpa [Coming, goto, await] using hr
      · left
        simp [goto, await]
      · rfl
      · rfl
      · exact hnew

/-- A listening reader can only come to wait in its select. -/
theorem step_listens (hr : Listens s) (hstep : s.step k mem .input = some t) :
    Listens t ∧ t.waiting = s.waiting ∧ t.buf = s.buf ∧ t.written = s.written ∧
      t.pc .output = s.pc .output ∧ t.sched_state = s.sched_state := by
  obtain ⟨hpc, halt⟩ | ⟨hpc, _⟩ := hr
  · simp only [step, hpc, altShouldWait, if_pos halt, Option.some.injEq] at hstep
    subst hstep
    refine ⟨?_, rfl, rfl, rfl, ?_, rfl⟩
    · right
      simp [goto]
    · simp [goto]
  · simp [step, hpc] at hstep

/-- A waiting party can only give up the processor. -/
theorem step_waits {e : End} (hr : Waits s e)
    (hstep : s.step k mem e = some t) :
    Waits t e ∧ t.waiting = s.waiting ∧ t.buf = s.buf ∧ t.written = s.written ∧
      t.alt_state = s.alt_state ∧ t.pc e.peer = s.pc e.peer := by
  obtain ⟨hpc, hst⟩ | ⟨hpc, _⟩ := hr
  · simp only [step, hpc, relinquish, if_pos hst, Option.some.injEq] at hstep
    subst hstep
    refine ⟨?_, rfl, rfl, rfl, rfl, ?_⟩
    · right
      simp [goto]
    · cases e <;> simp [goto]
  · simp [step, hpc] at hstep

/-- From `listening`, the writer takes the reader's place. -/
theorem step_listening (hr : Listens s) (hw : s.pc .output = .call)
    (hwaiting : s.waiting = some .input) (hbuf : s.buf = 0)
    (hnew : s.written = fun _ => none) {e : End}
    (hstep : s.step k mem e = some t) : Phase k mem t := by
  cases e with
  | input =>
      obtain ⟨hlistens, h1, h2, h3, h4, -⟩ := step_listens hr hstep
      exact Phase.listening hlistens (h4.trans hw) (h1.trans hwaiting)
        (h2.trans hbuf) (h3.trans hnew)
  | output =>
      simp only [step, hw, out, hwaiting, hbuf, ne_eq, not_true_eq_false,
        if_false, Option.some.injEq] at hstep
      subst hstep
      apply Phase.freeing
      · simpa [Listens, goto, await] using hr
      · simp [goto]
      · simp [goto, await]
      · rfl
      · rfl
      · exact hnew

/-- From `reading`, the writer copies. -/
theorem step_reading (hdest : k.dest ≠ 0) (hlen : k.rlen = k.wlen)
    (hsrc : k.src = 0 → k.wlen = 0) (hr : Waits s .input)
    (hw : s.pc .output = .call) (hwaiting : s.waiting = some .input)
    (hbuf : s.buf = k.dest) (hnew : s.written = fun _ => none) {e : End}
    (hstep : s.step k mem e = some t) : Phase k mem t := by
  cases e with
  | input =>
      obtain ⟨hwaits, h1, h2, h3, -, h5⟩ := step_waits hr hstep
      exact Phase.reading hwaits (h5.trans hw) (h1.trans hwaiting)
        (h2.trans hbuf) (h3.trans hnew)
  | output =>
      have hcopy := memcpy_new mem k.dest k.src k.wlen hnew (by omega)
      simp only [step, hw, out, hwaiting, hbuf, if_pos hdest, hcopy,
        Option.map_some, Option.some.injEq] at hstep
      subst hstep
      apply Phase.copied .output
      · simp [goto]
      · simpa [Waits, goto, clear] using hr
      · simp only [Copied, goto, clear, hlen]

/-- From `freeing`, the reader is freed. -/
theorem step_freeing (hr : Listens s) (hw : s.pc .output = .free .input)
    (hst : s.sched_state .output = .preparingToWait)
    (hwaiting : s.waiting = some .output) (hbuf : s.buf = k.src)
    (hnew : s.written = fun _ => none) {e : End}
    (hstep : s.step k mem e = some t) : Phase k mem t := by
  cases e with
  | input =>
      obtain ⟨hlistens, h1, h2, h3, h4, h5⟩ := step_listens hr hstep
      exact Phase.freeing hlistens (h4.trans hw) (by rw [h5, hst])
        (h1.trans hwaiting) (h2.trans hbuf) (h3.trans hnew)
  | output =>
      simp only [step, hw, Option.some.injEq] at hstep
      subst hstep
      obtain ⟨hpc, halt⟩ | ⟨hpc, halt⟩ := hr
      · apply Phase.writing
        · right; left
          simp [freeProcessMaybe, halt, goto, hpc]
        · left
          simp [freeProcessMaybe, halt, goto, hst]
        · simpa [freeProcessMaybe, halt, goto] using hwaiting
        · simpa [freeProcessMaybe, halt, goto] using hbuf
        · simpa [freeProcessMaybe, halt, goto] using hnew
      · apply Phase.writing
        · right; right; left
          simp [freeProcessMaybe, schedule, halt, goto, hpc]
        · left
          simp [freeProcessMaybe, schedule, halt, goto, hpc, hst]
        · simpa [freeProcessMaybe, schedule, halt, goto, hpc] using hwaiting
        · simpa [freeProcessMaybe, schedule, halt, goto, hpc] using hbuf
        · simpa [freeProcessMaybe, schedule, halt, goto, hpc] using hnew

/-- The reader's next step when it finds the writer registered: towards `in`,
or the copying there. -/
theorem step_finds (hdest : k.dest ≠ 0) (hlen : k.rlen = k.wlen)
    (hsrc : k.src = 0 → k.wlen = 0) (hr : Finds s)
    (hwaiting : s.waiting = some .output) (hbuf : s.buf = k.src)
    (hnew : s.written = fun _ => none)
    (hstep : s.step k mem .input = some t) :
    t.pc .output = s.pc .output ∧ t.sched_state = s.sched_state ∧
      ((Finds t ∧ t.waiting = s.waiting ∧ t.buf = s.buf ∧
          t.written = s.written) ∨
        (t.pc .input = .wake .output ∧ Copied k mem t)) := by
  obtain (hpc | ⟨hpc, _⟩ | hpc) | ⟨hpc, halt⟩ | hpc | hpc := hr
  · simp only [step, hpc, Option.some.injEq] at hstep
    subst hstep
    refine ⟨by simp [goto], rfl, Or.inl ⟨?_, rfl, rfl, rfl⟩⟩
    left; right; left
    simp [goto]
  · simp only [step, hpc, enable_channel, hwaiting, reduceCtorEq, if_false,
      Option.some.injEq] at hstep
    subst hstep
    refine ⟨by simp [goto], rfl, Or.inl ⟨?_, rfl, rfl, rfl⟩⟩
    right; right; left
    simp [goto]
  · have hcopy := memcpy_new mem k.dest k.src k.rlen hnew (by omega)
    simp only [step, hpc, «in», hwaiting, hbuf, hcopy, Option.map_some,
      Option.some.injEq] at hstep
    subst hstep
    refine ⟨by simp [goto, clear], rfl, Or.inr ⟨?_, rfl⟩⟩
    simp [goto]
  · simp only [step, hpc, altShouldWait, halt, reduceCtorEq, if_false,
      Option.some.injEq] at hstep
    subst hstep
    refine ⟨by simp [goto], rfl, Or.inl ⟨?_, rfl, rfl, rfl⟩⟩
    right; right; left
    simp [goto]
  · simp only [step, hpc, disable_channel, hwaiting] at hstep
    rw [if_pos (by decide)] at hstep
    cases hstep
    refine ⟨by simp [goto], rfl, Or.inl ⟨?_, rfl, rfl, rfl⟩⟩
    right; right; right
    simp [goto]
  · simp only [step, hpc, if_true, Option.some.injEq] at hstep
    subst hstep
    refine ⟨by simp [goto], rfl, Or.inl ⟨?_, rfl, rfl, rfl⟩⟩
    left; right; right
    simp [goto]

/-- From `writing`, the reader comes to `in` and copies. -/
theorem step_writing (hdest : k.dest ≠ 0) (hlen : k.rlen = k.wlen)
    (hsrc : k.src = 0 → k.wlen = 0) (hr : Finds s) (hw : Waits s .output)
    (hwaiting : s.waiting = some .output) (hbuf : s.buf = k.src)
    (hnew : s.written = fun _ => none) {e : End}
    (hstep : s.step k mem e = some t) : Phase k mem t := by
  cases e with
  | input =>
      obtain ⟨hpc, hst, h⟩ := step_finds hdest hlen hsrc hr hwaiting hbuf hnew hstep
      have hwaits : Waits t .output := by
        unfold Waits
        rw [hpc, hst]
        exact hw
      obtain ⟨hfinds, h1, h2, h3⟩ | ⟨hwake, hcopied⟩ := h
      · exact Phase.writing hfinds hwaits (h1.trans hwaiting) (h2.trans hbuf)
          (h3.trans hnew)
      · exact Phase.copied .input hwake hwaits hcopied
  | output =>
      obtain ⟨hwaits, h1, h2, h3, h4, h5⟩ := step_waits hw hstep
      have hfinds : Finds t := by
        unfold Finds Coming
        rw [h4, show t.pc .input = s.pc .input from h5]
        exact hr
      exact Phase.writing hfinds hwaits (h1.trans hwaiting) (h2.trans hbuf)
        (h3.trans hnew)

/-- From `copied`, the other party is woken, or gives up the processor before
that. -/
theorem step_copied {e : End} (hpc : s.pc e = .wake e.peer)
    (hwaits : Waits s e.peer) (hcopied : Copied k mem s) {r : End}
    (hstep : s.step k mem r = some t) : Phase k mem t := by
  by_cases hr : r = e
  · subst hr
    have hne : r.peer ≠ r := by
      cases r <;> decide
    simp only [step, hpc, Option.some.injEq] at hstep
    subst hstep
    obtain ⟨hother, hst⟩ | ⟨hother, hst⟩ := hwaits
    · apply Phase.woken r
      · simp [wake, goto]
      · simpa [wake, goto, hst, Function.update_of_ne hne] using hother
      · simp [wake, goto, hst]
      · simpa [Copied, wake, goto, hst] using hcopied
    · apply Phase.finished
      · intro q
        cases q <;> cases r <;> simp_all [wake, schedule, goto]
      · simpa [Copied, wake, schedule, goto, hst, hother] using hcopied
  · obtain rfl : r = e.peer := by
      cases r <;> cases e <;> first | rfl | exact absurd rfl hr
    obtain ⟨hwaits', -, -, h3, -, h5⟩ := step_waits hwaits hstep
    apply Phase.copied e _ hwaits' (h3.trans hcopied)
    rw [← hpc]
    cases e <;> exact h5

/-- From `woken`, the other party returns. -/
theorem step_woken {e : End} (hpc : s.pc e = .done)
    (hother : s.pc e.peer = .relinquish) (hst : s.sched_state e.peer = .ready)
    (hcopied : Copied k mem s) {r : End} (hstep : s.step k mem r = some t) :
    Phase k mem t := by
  by_cases hr : r = e
  · subst hr
    simp [step, hpc] at hstep
  · obtain rfl : r = e.peer := by
      cases r <;> cases e <;> first | rfl | exact absurd rfl hr
    simp only [step, hother, relinquish, hst, reduceCtorEq, if_false,
      Option.some.injEq] at hstep
    subst hstep
    refine Phase.finished ?_ (by exact hcopied)
    intro q
    cases q <;> cases e <;> simp_all [goto]

/-- **Every step leads from phase to phase.** -/
theorem Phase.step (hdest : k.dest ≠ 0) (hlen : k.rlen = k.wlen)
    (hsrc : k.src = 0 → k.wlen = 0) (h : Phase k mem s) {e : End}
    (hstep : s.step k mem e = some t) : Phase k mem t := by
  cases h with
  | before hr hw hwaiting hnew => exact step_before hr hw hwaiting hnew hstep
  | listening hr hw hwaiting hbuf hnew =>
      exact step_listening hr hw hwaiting hbuf hnew hstep
  | reading hr hw hwaiting hbuf hnew =>
      exact step_reading hdest hlen hsrc hr hw hwaiting hbuf hnew hstep
  | freeing hr hw hst hwaiting hbuf hnew =>
      exact step_freeing hr hw hst hwaiting hbuf hnew hstep
  | writing hr hw hwaiting hbuf hnew =>
      exact step_writing hdest hlen hsrc hr hw hwaiting hbuf hnew hstep
  | copied e hpc hwaits hcopied => exact step_copied hpc hwaits hcopied hstep
  | woken e hpc hother hst hcopied =>
      exact step_woken hpc hother hst hcopied hstep
  | finished hpc hcopied =>
      simp only [Exchange.step, hpc] at hstep
      cases hstep

/-- Only the last phase is quiet. -/
theorem Phase.completed (hdest : k.dest ≠ 0) (hlen : k.rlen = k.wlen)
    (hsrc : k.src = 0 → k.wlen = 0) (h : Phase k mem s) (hq : Quiet k mem s) :
    Completed s ∧ Copied k mem s := by
  cases h with
  | before hr hw hwaiting hnew =>
      have := hq .output
      simp [Exchange.step, hw, out, hwaiting] at this
  | listening hr hw hwaiting hbuf hnew =>
      have := hq .output
      simp [Exchange.step, hw, out, hwaiting, hbuf] at this
  | reading hr hw hwaiting hbuf hnew =>
      have hcopy := memcpy_new mem k.dest k.src k.wlen hnew (by omega)
      have := hq .output
      simp [Exchange.step, hw, out, hwaiting, hbuf, hdest, hcopy] at this
  | freeing hr hw hst hwaiting hbuf hnew =>
      have := hq .output
      simp [Exchange.step, hw] at this
  | writing hr hw hwaiting hbuf hnew =>
      have hcopy := memcpy_new mem k.dest k.src k.rlen hnew (by omega)
      have := hq .input
      obtain (hpc | ⟨hpc, _⟩ | hpc) | ⟨hpc, halt⟩ | hpc | hpc := hr <;>
        simp [Exchange.step, hpc, «in», hwaiting, hbuf, hcopy] at this
  | copied e hpc hwaits hcopied =>
      have := hq e
      simp [Exchange.step, hpc] at this
  | woken e hpc hother hst hcopied =>
      have := hq e.peer
      simp [Exchange.step, hother] at this
  | finished hpc hcopied => exact ⟨hpc, hcopied⟩

/-! ## The orders that differ -/

/-- The reader registers in `in` with a null destination, and the writer takes
it for a listening one: both wait, and nobody wakes them. -/
theorem null_run (mem : Nat → Byte) (hdest : k.dest = 0) :
    ∃ acts t, exec (step k mem) (start Byte false) acts = some t ∧
      Quiet k mem t ∧ ¬ Completed t := by
  obtain ⟨dest, rlen, src, wlen⟩ := k
  simp only at hdest
  subst hdest
  refine ⟨[.input, .input, .output, .output, .output], _, rfl, ?_, ?_⟩
  · intro e
    cases e <;> rfl
  · intro h
    have := h .input
    simp [goto, relinquish, await, freeProcessMaybe, start] at this

/-- One party alone has registered with a buffer and given up the processor. -/
def registered (Byte : Type) (e : End) (buf : Nat) : Exchange Byte :=
  (((start Byte false).await e buf).goto e .relinquish).relinquish e

/-- The other party has copied, which writes `image`. -/
def transferred (e : End) (buf : Nat) (image : Nat → Option Byte) :
    Exchange Byte :=
  { registered Byte e.peer buf with written := image }.clear.goto e
    (.wake e.peer)

/-- Where the writer registers first, `in` copies. -/
theorem writer_first_step (hok : k.rlen = 0 ∨ k.dest ≠ 0 ∧ k.src ≠ 0) :
    (registered Byte .output k.src).step k mem .input =
      some (transferred .input k.src (copy mem k.dest k.src k.rlen)) := by
  have hcopy := memcpy_new (s := registered Byte .output k.src) mem k.dest
    k.src _ rfl hok
  show Option.map _ (memcpy mem (registered Byte .output k.src) k.dest k.src
    k.rlen) = _
  rw [hcopy]
  rfl

/-- Where the reader registers first, `out` copies. -/
theorem reader_first_step (hdest : k.dest ≠ 0)
    (hok : k.wlen = 0 ∨ k.dest ≠ 0 ∧ k.src ≠ 0) :
    (registered Byte .input k.dest).step k mem .output =
      some (transferred .output k.dest (copy mem k.dest k.src k.wlen)) := by
  have hcopy := memcpy_new (s := registered Byte .input k.dest) mem k.dest
    k.src _ rfl hok
  show (if k.dest ≠ 0 then Option.map _ (memcpy mem
    (registered Byte .input k.dest) k.dest k.src k.wlen) else _) = _
  rw [if_pos hdest, hcopy]
  rfl

/-- After the copying, the party that copied wakes the other, and that is the
end. -/
theorem transferred_run {e : End} {buf : Nat} {image : Nat → Option Byte}
    (acts : List End)
    (hrun : exec (step k mem) (start Byte false) acts =
      some (registered Byte e.peer buf))
    (hstep : (registered Byte e.peer buf).step k mem e =
      some (transferred e buf image)) :
    ∃ acts t, exec (step k mem) (start Byte false) acts = some t ∧
      Quiet k mem t ∧ t.written = image := by
  refine ⟨acts ++ [e, e], (transferred e buf image).wake e e.peer, ?_, ?_, ?_⟩
  · rw [exec_append hrun, exec, hstep]
    cases e <;> rfl
  · intro r
    cases e <;> cases r <;> rfl
  · cases e <;> rfl

theorem writer_first_run (mem : Nat → Byte) (hok : k.rlen = 0 ∨ k.dest ≠ 0 ∧ k.src ≠ 0) :
    ∃ acts t, exec (step k mem) (start Byte false) acts = some t ∧
      Quiet k mem t ∧ t.written = copy mem k.dest k.src k.rlen :=
  transferred_run (e := .input) [.output, .output] rfl
    (writer_first_step hok)

theorem reader_first_run (mem : Nat → Byte) (hdest : k.dest ≠ 0)
    (hok : k.wlen = 0 ∨ k.dest ≠ 0 ∧ k.src ≠ 0) :
    ∃ acts t, exec (step k mem) (start Byte false) acts = some t ∧
      Quiet k mem t ∧ t.written = copy mem k.dest k.src k.wlen :=
  transferred_run (e := .output) [.input, .input] rfl
    (reader_first_step hdest hok)

/-- Where the writer has registered with a null source, a reader that wants
bytes cannot copy them. -/
theorem null_source_run (mem : Nat → Byte) (hlen : k.rlen ≠ 0) (hsrc : k.src = 0) :
    ∃ acts t, exec (step k mem) (start Byte false) acts = some t ∧
      Quiet k mem t ∧ ¬ Completed t := by
  refine ⟨[.output, .output], registered Byte .output k.src, rfl, ?_, ?_⟩
  · intro e
    cases e with
    | input =>
        show Option.map _ (memcpy mem (registered Byte .output k.src) k.dest
          k.src k.rlen) = _
        rw [memcpy, if_pos ⟨hlen, Or.inr hsrc⟩]
        rfl
    | output => rfl
  · intro h
    have := h .input
    cases this

/-- What is written shows how much was copied. -/
theorem copy_inj {dest src n m : Nat}
    (h : copy mem dest src n = copy mem dest src m) : n = m := by
  by_contra hne
  have hat := congrFun h (dest + min n m)
  unfold copy at hat
  rcases Nat.lt_or_gt_of_ne hne with hlt | hlt
  · rw [if_neg (by omega), if_pos (by omega)] at hat
    cases hat
  · rw [if_pos (by omega), if_neg (by omega)] at hat
    cases hat

end Exchange

open Exchange

variable {Byte : Type} {k : Calls} {mem : Nat → Byte}

/-- A destination and one length are enough. -/
theorem order_free_of (hdest : k.dest ≠ 0) (hlen : k.rlen = k.wlen)
    (hsrc : k.src = 0 → k.wlen = 0) : OrderFree k mem := by
  have hphase : ∀ alts acts t,
      exec (Exchange.step k mem) (start Byte alts) acts = some t →
      Phase k mem t := by
    intro alts acts t hrun
    apply Reachable.invariant _ ⟨acts, hrun⟩ (phase_start alts)
    intro s e u h hstep
    exact h.step hdest hlen hsrc hstep
  constructor
  · refine ⟨14, ?_⟩
    intro alts acts t hrun
    have hle := exec_length hrun
    have hstart : (start Byte alts).left ≤ 14 := by
      cases alts <;> simp [left, start, ExchangePc.left]
    omega
  · intro alts acts t hrun hq
    exact ((hphase alts acts t hrun).completed hdest hlen hsrc hq).1
  · intro alts alts' acts acts' t t' hrun hrun' hq hq'
    have h := ((hphase alts acts t hrun).completed hdest hlen hsrc hq).2
    have h' := ((hphase alts' acts' t' hrun').completed hdest hlen hsrc hq').2
    exact Eq.trans h (Eq.symm h')

/-- The outcome of a rendezvous is the same in all orders exactly when the
reader passes a destination and both parties the same length. -/
theorem order_free_iff (hacc : k.Accepted) :
    OrderFree k mem ↔ k.dest ≠ 0 ∧ k.rlen = k.wlen := by
  constructor
  · intro h
    have hdest : k.dest ≠ 0 := by
      intro hdest
      obtain ⟨acts, t, hrun, hq, hnot⟩ := null_run mem hdest
      exact hnot (h.completes false acts t hrun hq)
    refine ⟨hdest, ?_⟩
    have hread : k.rlen = 0 ∨ k.src ≠ 0 := by
      by_contra hn
      obtain ⟨hlen, hsrc⟩ := not_or.mp hn
      obtain ⟨acts, t, hrun, hq, hnot⟩ :=
        null_source_run mem hlen (not_not.mp hsrc)
      exact hnot (h.completes false acts t hrun hq)
    have hwrite : k.wlen = 0 ∨ k.src ≠ 0 := by
      have := hacc.src
      omega
    obtain ⟨acts, t, hrun, hq, ht⟩ :=
      writer_first_run mem (hread.imp_right fun h => ⟨hdest, h⟩)
    obtain ⟨acts', t', hrun', hq', ht'⟩ :=
      reader_first_run mem hdest
        (hwrite.imp_right fun h => ⟨hdest, h⟩)
    have hsame := h.same false false acts acts' t t' hrun hrun' hq hq'
    rw [ht, ht'] at hsame
    exact copy_inj hsame
  · intro h
    exact order_free_of h.1 h.2 hacc.src

/-- Four bytes from address 8 to address 16. -/
theorem order_free_iff_four :
    OrderFree ⟨16, 4, 8, 4⟩ (fun a => a.toUInt8) ↔
      16 ≠ 0 ∧ 4 = 4 :=
  order_free_iff (k := ⟨16, 4, 8, 4⟩)
    ⟨fun _ => by contradiction, fun _ => by contradiction⟩

/-- Pure synchronisation, with length zero and null pointers, does not
complete when the reader comes first. -/
theorem null_rendezvous_hangs :
    ¬ ∀ (k : Calls) (mem : Nat → UInt8), k.Accepted → OrderFree k mem := by
  intro hall
  have h := hall ⟨0, 0, 0, 0⟩ (fun _ => 0) ⟨fun _ => rfl, fun _ => rfl⟩
  have hdone := h.completes false [.input, .input, .output, .output, .output] _
    rfl (fun e => by cases e <;> rfl) .input
  cases hdone

end Cxp
