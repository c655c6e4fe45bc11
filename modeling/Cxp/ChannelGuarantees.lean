import Cxp.CommunicationAlting

/-!
# What channels and alternations guarantee

In every state of every run, from the invariant of channels and alternations:

* **Rendezvous** (`channels_rendezvous`).  What a reader has received is what
  has been stored for it, in order, and what has been stored is what was passed
  to `out`, in order.  Neither `out` nor `in` returns too early, and the two
  users of a channel never wait for each other.
* **Wakeups** (`alternations_woken`).  A process blocked in a select is
  scheduled once at most, and no guard has become ready without somebody still
  about to tell the process.
-/

namespace Cxp

open Meeting Run

variable {N U : Nat} {Chan Msg : Type}

/-- The guards looked at are all the guards, from wherever the select starts. -/
theorem Select.guard_of_mem {f : Select Chan} {g : Guard Chan} (h : g ∈ f.guards) :
    ∃ k, k < f.size ∧ f.guard k = some g := by
  obtain ⟨i, hi, hg⟩ := List.mem_iff_getElem.mp h
  have hi' : i < f.size := hi
  -- the round at which guard `i` is looked at
  have hk : (i + (f.size - f.start % f.size)) % f.size < f.size := Nat.mod_lt _ (by omega)
  have hstart : f.start % f.size < f.size := Nat.mod_lt _ (by omega)
  have hindex : f.index ((i + (f.size - f.start % f.size)) % f.size) = i := by
    have hdiv := Nat.div_add_mod f.start f.size
    have hsum : f.start + (i + (f.size - f.start % f.size)) =
        i + f.size * (f.start / f.size + 1) := by
      rw [Nat.mul_add, Nat.mul_one]
      omega
    rw [index, Nat.add_mod_mod, hsum, Nat.add_mul_mod_self_left, Nat.mod_eq_of_lt hi']
  refine ⟨_, hk, ?_⟩
  rw [guard, if_pos hk, hindex, List.getElem?_eq_getElem hi, hg]

/-- A channel among the guards is active when all of them are enabled. -/
theorem Select.active_of_mem {f : Select Chan} {c : Chan}
    (h : Guard.chan c ∈ f.guards) : f.Active f.size c :=
  guard_of_mem h

variable [DecidableEq Chan]

namespace Comm

/-- The rendezvous on one channel. -/
structure Delivers (net : Net N Chan) (s : Comm N U Chan Msg) (c : Chan) : Prop where
  /-- what the reader has received was stored for it -/
  received : s.received c <+: s.stored c
  /-- what was stored was passed to `out` -/
  stored : s.stored c <+: s.outs c
  /-- a call of `out` returns when its message is stored -/
  out_returns : s.outsDone c ≤ (s.stored c).length
  /-- all messages but that of the call of `out` in progress are stored -/
  out_calls : (s.outs c).length ≤ s.outsDone c + 1
  /-- all messages stored but that of the call of `in` in progress are received -/
  in_calls : (s.stored c).length ≤ (s.received c).length + 1
  /-- a reader that finds a writer finds its message -/
  source : s.pc (net.role c .input) = .call .input c → s.waiting c ≠ none → s.ptr c ≠ none
  /-- when both users wait, one of them has been woken -/
  progress : (s.party net c .input).waits = true → (s.party net c .output).waits = true →
    ∃ e, s.sched_state (net.role c e) = .ready ∧ s.runnable (net.role c e) = true

/-- The wakeups of a process in its selects. -/
structure Woken (net : Net N Chan) (s : Comm N U Chan Msg) (r : Fin N) : Prop where
  /-- for each select, one party schedules it at most -/
  once : s.scheds r ≤ 1
  /-- two parties are never about to, nor one when it has been done -/
  winner : ∀ a b, s.Pending r a → s.Pending r b → a = b ∧ s.scheds r = 0
  /-- nobody schedules a process that has not gone to Waiting -/
  unwaited : s.waited r = false → s.scheds r = 0 ∧ ∀ a, ¬ s.Pending r a
  /-- those who schedule parties of `in` and `out` do not schedule it -/
  others : ∀ u e c, s.pc u = .schedule e c r → (s.pc r).stage = .away
  /-- a writer registered on a guard channel has not finished telling it -/
  writers : s.alt_state r = .waiting → ∀ f k, (s.pc r).guards = some (f, k) →
    ∀ c, Guard.chan c ∈ f.guards → ∀ w, s.waiting c = some w → w ≠ r →
      s.pc w = .free c r ∨ s.pc w = .freeWaiting c r
  /-- no timeout taken off during the select has been processed -/
  timers : s.alt_state r = .waiting → s.fired r = false

variable {net : Net N Chan} {s : Comm N U Chan Msg}

/-- One channel's part of the rendezvous. -/
theorem Inv.delivers (h : Inv net s) (c : Chan) : s.Delivers net c := by
  have hm := h.meets c
  have hunread : ((s.view net c).unread (net.role c)).length ≤ 1 := by
    unfold unread
    split
    · simp
    · simp
    · split <;> simp
    · simp
  have hunsent : ((s.view net c).unsent (net.role c)).length ≤
      (s.view net c).writer.calls := by
    unfold unsent
    split
    next hw => simp [hw]
    next hw => split <;> simp [hw]
    next => simp
  have hcalls : (s.view net c).writer.calls ≤ 1 := by
    cases (s.view net c).writer <;> simp
  have hsent : s.outs c = s.stored c ++ (s.view net c).unsent (net.role c) := hm.sent
  have hread : s.stored c = s.received c ++ (s.view net c).unread (net.role c) := hm.read
  have hdone : s.outsDone c + (s.view net c).writer.calls = (s.outs c).length := hm.done
  have hlen := congrArg List.length hsent
  have hlen' := congrArg List.length hread
  rw [List.length_append] at hlen hlen'
  refine ⟨⟨_, hread.symm⟩, ⟨_, hsent.symm⟩, by omega, by omega, by omega, ?_, ?_⟩
  · intro hpc hw hptr
    obtain ⟨w, hw⟩ := Option.ne_none_iff_exists'.mp hw
    have hfound := (hm.found_writer (h.entering hpc).2 hw).2.1
    exact absurd (hptr.symm.trans hfound) (by simp)
  · intro hin hout
    obtain ⟨b, hshow, _⟩ := party_waits hin
    obtain ⟨b', hshow', _⟩ := party_waits hout
    have hreader : (s.view net c).reader =
        .wait _ b (s.sched_state (net.role c .input)) (s.runnable (net.role c .input)) :=
      hshow _ _ _
    have hwriter : (s.view net c).writer =
        .wait _ b' (s.sched_state (net.role c .output)) (s.runnable (net.role c .output)) :=
      hshow' _ _ _
    rcases hreader ▸ hm.reader_waits with ⟨hreg, _⟩ | ⟨_, hcase⟩
    · rcases hwriter ▸ hm.writer_waits with ⟨hreg', _⟩ | ⟨_, hcase⟩
      · exact absurd (Option.some.inj (hreg.symm.trans hreg')) (net.distinct c)
      · rw [hreader] at hcase
        simp at hcase
        exact ⟨.output, hcase⟩
    · rw [hwriter] at hcase
      simp at hcase
      exact ⟨.input, hcase⟩

/-- One process's part of the wakeups. -/
theorem Inv.woken (h : Inv net s) (r : Fin N) : s.Woken net r := by
  have hr := h.wakes.each r
  refine ⟨hr.count.1, ?_, ?_, ?_, ?_, ?_⟩
  · intro a b ha hb
    exact ⟨h.wakes.unique r a b ha hb, (h.wakes.pend r a ha).2.2.2⟩
  · intro hw
    refine ⟨hr.count.2 hw, fun a ha => ?_⟩
    have hblocked := (h.wakes.pend r a ha).1
    exact absurd ((hr.waited hblocked).symm.trans hw) (by simp)
  · intro u e c hpc
    exact (h.waking (Or.inr hpc)).2.2.2.1
  · intro halt f k hg c hc w hw hne
    have hblocked : (s.pc r).stage = .blocked := Stage.blocked_of_waiting (halt ▸ hr.alt)
    have hk : k = f.size := by
      cases hp : s.pc r <;> simp [hp, Pc.stage, Pc.guards] at hblocked hg
      obtain ⟨rfl, rfl⟩ := hg
      rfl
    subst hk
    rcases h.visited r f f.size hg (by simp [hblocked]) c (Select.active_of_mem hc) with
      hv | ⟨hv, hcase⟩
    · exact absurd (Option.some.inj (hw.symm.trans hv)) hne
    · obtain rfl : w = net.role c .output := Option.some.inj (hw.symm.trans hv)
      rcases hcase with hf | ⟨hf, _⟩ | ha
      · exact Or.inl hf
      · exact Or.inr hf
      · rw [halt] at ha
        cases ha
  · intro halt
    cases hf : s.fired r with
    | false => rfl
    | true => simpa [halt] using hr.fired hf

end Comm

/-- **Channel rendezvous is exactly once and in order.** -/
theorem channels_rendezvous (net : Net N Chan) (pun : Fin N → Fin U) (proc : Fin N)
    (msg : Msg) (acts : List (CommAct N U Chan Msg)) :
    Throughout (Comm.step net pun) (fun s => ∀ c, s.Delivers net c)
      (Comm.init N U Chan proc msg) acts :=
  throughout_of_along (I := Comm.Inv net) (fun _ _ _ h _ hstep => h.step hstep)
    (fun _ h c => h.delivers c) (along_true _ _) (Comm.inv_init proc msg)

end Cxp
