import Cxp.RunInduction
import Cxp.StableOrder
import Cxp.TimerQueue

/-!
# The timer queue as an agenda (`timer.c`)

What a timer queue is for: entries come in some order, are withdrawn, and are
handled when their time has come.  The `Agenda` keeps those to come as they
arrived.  The queue of a processor is that list arranged by time
(`Line.Follows`), whatever `insertInQueue`, `removeFromQueue` and
`handle_timeout_interrupt` do in whatever order.
-/

namespace Cxp

open LinkedChain Run StableOrder Timers

/-- What a linked descriptor says. -/
structure Entry (N : Nat) where
  desc : DescRef N
  time : Int
  proc : Fin N
  type : TimeoutType
  deriving DecidableEq

/-- The operations on the timer queue of a processor. -/
inductive TimerOp (N : Nat)
  /-- the descriptor is filled in and inserted -/
  | insert (e : Entry N)
  | remove (time : Int) (proc : Fin N)
  /-- the interrupt handler, with the time that it has read -/
  | interrupt (now : Int)

/-- The entries to come as they arrived, and those handled so far. -/
structure Agenda (N : Nat) where
  arrivals : List (Entry N)
  handled : List (Entry N)

namespace Agenda

variable {N : Nat}

/-- The entry is of the time and process. -/
def asks (time : Int) (proc : Fin N) (e : Entry N) : Bool :=
  e.time = time ∧ e.proc = proc

/-- A newcomer is the last one; the first one asked for is withdrawn; those due
are handled by time, and as they came among equals. -/
def step (s : Agenda N) : TimerOp N → Agenda N
  | .insert e => { s with arrivals := s.arrivals ++ [e] }
  | .remove time proc => { s with arrivals := s.arrivals.eraseP (asks time proc) }
  | .interrupt now =>
      { arrivals := s.arrivals.filter fun e => now < e.time
        handled := s.handled ++ arrange Entry.time (s.arrivals.filter fun e => e.time ≤ now) }

end Agenda

/-- The descriptors and queues, and the entries that the interrupt handler has
handled. -/
structure Line (N U : Nat) where
  tm : Timers N U
  handled : List (Entry N)

namespace Timers

variable {N U : Nat} (tm : Timers N U) (π : Fin U)

def entry (desc : DescRef N) : Entry N :=
  ⟨desc, tm.time desc, tm.proc desc, tm.type desc⟩

/-- The descriptors linked in the queue. -/
def linked : List (DescRef N) := follow tm.next tm.fuel (tm.head π)

def entries : List (Entry N) := (tm.linked π).map tm.entry

/-- The allocator has carved the descriptor, or it is in a frame. -/
def Exists : DescRef N → Prop
  | .heap n => n < tm.carved
  | .stack _ => True

instance (desc : DescRef N) : Decidable (tm.Exists desc) := by
  unfold Exists
  split <;> infer_instance

/-- The loop of `handle_timeout_interrupt`, at most so many rounds of it: what
it leaves, and the entries that it handles.  `none`: it goes on. -/
def expire (π : Fin U) (now : Int) : Nat → Timers N U → Option (Timers N U × List (Entry N))
  | 0, _ => none
  | n + 1, tm =>
      match tm.head π with
      | none => some (tm, [])
      | some head =>
          if tm.time head ≤ now then
            (expire π now n (tm.removeHead π head)).map fun r => (r.1, tm.entry head :: r.2)
          else some (tm, [])

end Timers

namespace Line

variable {N U : Nat} (π : Fin U) (s : Line N U)

/-- One operation; a descriptor is linked at most once. -/
def step (s : Line N U) : TimerOp N → Option (Line N U)
  | .insert e =>
      if s.tm.Exists e.desc ∧ e.desc ∉ s.tm.linked π then
        ((s.tm.fill e.desc e.time e.proc e.type).insertInQueue π e.desc).map fun r =>
          { s with tm := r.1 }
      else none
  | .remove time proc =>
      (s.tm.removeFromQueue π time proc).map fun r => { s with tm := r.1 }
  | .interrupt now =>
      (s.tm.expire π now s.tm.fuel).map fun r =>
        { tm := r.1
          handled := s.handled ++ r.2 }

/-- A descriptor is linked at most once. -/
def Admits : TimerOp N → Prop
  | .insert e => s.tm.Exists e.desc ∧ e.desc ∉ s.tm.linked π
  | _ => True

/-- What an operation does to the queue and to what has been handled: it adds the
new entry; takes away the first one of the time and process, if there is one;
handles those due in order, and leaves the rest. -/
def Serves (t : Line N U) : TimerOp N → Prop
  | .insert e =>
      (∃ l m, s.tm.entries π = l ++ m ∧ t.tm.entries π = l ++ e :: m) ∧
        t.handled = s.handled
  | .remove time proc =>
      t.tm.entries π = (s.tm.entries π).eraseP (Agenda.asks time proc) ∧
        t.handled = s.handled
  | .interrupt now =>
      t.tm.entries π = (s.tm.entries π).filter (fun e => now < e.time) ∧
        t.handled = s.handled ++ (s.tm.entries π).filter fun e => e.time ≤ now

/-- What is linked is a chain of existing descriptors, the arrivals of the agenda
in the order of time; and what has been handled is what the agenda says. -/
structure Follows (g : Agenda N) : Prop where
  chain : Chain s.tm.next (s.tm.head π) (s.tm.linked π)
  carved : ∀ desc ∈ s.tm.linked π, s.tm.Exists desc
  entries : s.tm.entries π = arrange Entry.time g.arrivals
  handled : s.handled = g.handled

end Line

namespace Timers

variable {N U : Nat} {tm tm' : Timers N U} {π : Fin U} {q q' : List (DescRef N)}
  {time now : Int} {proc : Fin N}

section Queue

/-- A chain of existing descriptors is shorter than a search. -/
theorem length_lt (hc : Chain tm.next (tm.head π) q) (hex : ∀ desc ∈ q, tm.Exists desc) :
    q.length < tm.fuel :=
  length_lt_fuel hc.nodup fun n hn => hex (.heap n) hn

theorem linked_eq (hc : Chain tm.next (tm.head π) q) (hex : ∀ desc ∈ q, tm.Exists desc) :
    tm.linked π = q :=
  hc.follow_eq (length_lt hc hex).le

theorem exists_of_carved (h : tm'.carved = tm.carved) (desc : DescRef N) :
    tm'.Exists desc ↔ tm.Exists desc := by
  unfold Exists
  rw [h]

theorem Requeued.entry_eq (h : Requeued tm tm' π q q') : tm'.entry = tm.entry := by
  funext desc
  simp [Timers.entry, h.time_eq, h.proc_eq, h.type_eq]

/-- The queue has become another one; the descriptors in it say the same. -/
theorem Requeued.entries_eq (hreq : Requeued tm tm' π q q')
    (hsub : ∀ desc ∈ q', tm.Exists desc) :
    tm'.linked π = q' ∧ (∀ desc ∈ q', tm'.Exists desc) ∧ tm'.entries π = q'.map tm.entry := by
  have hex : ∀ desc ∈ q', tm'.Exists desc := by
    intro desc hd
    exact (exists_of_carved hreq.carved_eq desc).mpr (hsub desc hd)
  have hlinked : tm'.linked π = q' := linked_eq hreq.chain hex
  refine ⟨hlinked, hex, ?_⟩
  unfold Timers.entries
  rw [hlinked, hreq.entry_eq]

theorem ordered_iff : tm.Ordered q ↔ InOrder Entry.time (q.map tm.entry) := by
  unfold Ordered InOrder
  rw [List.pairwise_map]
  rfl

theorem insertInQueue_isSome (hc : Chain tm.next (tm.head π) q) (hfuel : q.length < tm.fuel)
    (desc : DescRef N) : ∃ r, tm.insertInQueue π desc = some r := by
  have hwalk := walk_eq (fun curr => tm.time curr ≤ tm.time desc) none hc hfuel
  unfold insertInQueue
  rw [hwalk]
  exact ⟨_, rfl⟩

theorem removeFromQueue_isSome (hc : Chain tm.next (tm.head π) q) (hfuel : q.length < tm.fuel)
    (time : Int) (proc : Fin N) : ∃ r, tm.removeFromQueue π time proc = some r := by
  unfold removeFromQueue
  rw [findInQueue_eq hc hfuel]
  exact ⟨_, rfl⟩

theorem asks_iff {desc : DescRef N} :
    Agenda.asks time proc (tm.entry desc) = true ↔ tm.time desc = time ∧ tm.proc desc = proc :=
  decide_eq_true_iff

/-- What the searches of `removeFromQueue` have passed is not asked for. -/
theorem not_asks_of_passed {desc : DescRef N} (hd : desc ∈ tm.passed time proc q) :
    ¬ Agenda.asks time proc (tm.entry desc) := by
  intro hasks
  obtain ⟨htime, hproc⟩ := asks_iff.mp hasks
  obtain hlt | ⟨heq, hne⟩ := mem_passed hd
  · omega
  · exact hne hproc

/-- **`removeFromQueue`** unlinks the first entry of the time and process, if there
is one, and otherwise changes nothing. -/
theorem Ordered.remove_spec (h : tm.Ordered q) (hc : Chain tm.next (tm.head π) q)
    (hfuel : q.length < tm.fuel) {found : Option (DescRef N)}
    (hrem : tm.removeFromQueue π time proc = some (tm', found)) :
    ∃ q', Requeued tm tm' π q q' ∧ (∀ desc ∈ q', desc ∈ q) ∧
      q'.map tm.entry = (q.map tm.entry).eraseP (Agenda.asks time proc) := by
  have hsplit := tm.passed_append_remaining time proc q
  have hpassed : ∀ e ∈ (tm.passed time proc q).map tm.entry,
      ¬ Agenda.asks time proc e := by
    intro e he
    obtain ⟨desc, hd, rfl⟩ := List.mem_map.mp he
    exact not_asks_of_passed hd
  have herase : (q.map tm.entry).eraseP (Agenda.asks time proc) =
      (tm.passed time proc q).map tm.entry ++
        ((tm.remaining time proc q).map tm.entry).eraseP (Agenda.asks time proc) := by
    rw [← hsplit, List.map_append, List.eraseP_append_right _ hpassed, hsplit]
  obtain ⟨hnil, -, hsame⟩ | ⟨c, rest, hcons, -, ⟨htime, hproc, hreq⟩ | ⟨hmatch, hsame⟩⟩ :=
    removeFromQueue_some hc hfuel hrem
  · rw [hsame]
    refine ⟨q, Requeued.refl hc, fun _ hd => hd, ?_⟩
    rw [herase, hnil]
    rw [hnil, List.append_nil] at hsplit
    rw [hsplit]
    simp
  · refine ⟨_, hreq, ?_, ?_⟩
    · intro desc hd
      rw [← hsplit, hcons]
      obtain hd | hd := List.mem_append.mp hd
      · exact List.mem_append_left _ hd
      · exact List.mem_append_right _ (List.mem_cons_of_mem _ hd)
    · have hasks := asks_iff.mpr ⟨htime, hproc⟩
      rw [herase, hcons, List.map_cons, List.eraseP_cons_of_pos hasks, List.map_append]
  · rw [hsame]
    refine ⟨q, Requeued.refl hc, fun _ hd => hd, ?_⟩
    have hlate := h.lt_of_stop hcons hmatch
    have horder : tm.Ordered (c :: rest) := by
      rw [← hcons]
      exact (List.pairwise_append.mp (hsplit.symm ▸ h)).2.1
    have hnone : ∀ e ∈ (c :: rest).map tm.entry, ¬ Agenda.asks time proc e := by
      intro e he
      obtain ⟨desc, hd, rfl⟩ := List.mem_map.mp he
      have hle : tm.time c ≤ tm.time desc := by
        obtain rfl | hd := List.mem_cons.mp hd
        · exact le_rfl
        · exact (List.pairwise_cons.mp horder).1 desc hd
      intro hasks
      have htime := (asks_iff.mp hasks).1
      omega
    rw [herase, hcons, List.eraseP_of_forall_not hnone, ← List.map_append, ← hcons, hsplit]

/-- **The loop of the interrupt handler** ends; it takes off the entries in front
that are due. -/
theorem expire_spec (hc : Chain tm.next (tm.head π) q) (now : Int) {n : Nat}
    (hn : q.length < n) :
    ∃ tm', Timers.expire π now n tm =
        some (tm', (q.takeWhile fun desc => tm.time desc ≤ now).map tm.entry) ∧
      Requeued tm tm' π q (q.dropWhile fun desc => tm.time desc ≤ now) := by
  induction q generalizing tm n with
  | nil =>
      cases n with
      | zero => cases hn
      | succ n =>
          refine ⟨tm, ?_, Requeued.refl hc⟩
          simp only [Timers.expire, chain_nil.mp hc]
          rfl
  | cons head rest ih =>
      cases n with
      | zero => cases hn
      | succ n =>
          by_cases hdue : tm.time head ≤ now
          · have hreq := removeHead_requeued hc
            obtain ⟨tm', hexp, hreq'⟩ := ih hreq.chain (by simpa using hn)
            refine ⟨tm', ?_, ?_⟩
            · simp only [Timers.expire, hc.1, if_pos hdue, hexp, Option.map_some]
              rw [hreq.entry_eq, List.takeWhile_cons_of_pos (by simpa using hdue)]
              rfl
            · rw [List.dropWhile_cons_of_pos (by simpa using hdue)]
              refine ⟨hreq'.chain, ?_, ?_, hreq'.time_eq, hreq'.proc_eq, hreq'.type_eq,
                hreq'.free_eq, hreq'.link_eq, hreq'.carved_eq⟩
              · intro ρ hρ
                rw [hreq'.heads ρ hρ, hreq.heads ρ hρ]
              · intro x hx hx'
                have hxr : x ∉ rest := fun hmem => hx (List.mem_cons_of_mem _ hmem)
                rw [hreq'.nexts x hxr hx']
                rfl
          · refine ⟨tm, ?_, ?_⟩
            · simp only [Timers.expire, hc.1, if_neg hdue]
              rw [List.takeWhile_cons_of_neg (by simpa using hdue)]
              rfl
            · rw [List.dropWhile_cons_of_neg (by simpa using hdue)]
              exact Requeued.refl hc

end Queue

end Timers

namespace Line

variable {N U : Nat} {π : Fin U} {s t : Line N U} {g : Agenda N} {e : Entry N}

theorem Follows.length_lt (h : s.Follows π g) : (s.tm.linked π).length < s.tm.fuel :=
  Timers.length_lt h.chain h.carved

theorem Follows.ordered (h : s.Follows π g) : s.tm.Ordered (s.tm.linked π) := by
  apply ordered_iff.mpr
  change InOrder Entry.time (s.tm.entries π)
  rw [h.entries]
  exact arrange_inOrder g.arrivals

theorem Follows.insert (h : s.Follows π g) (hadm : s.Admits π (.insert e)) :
    ∃ t, s.step π (.insert e) = some t ∧ t.Follows π (g.step (.insert e)) ∧
      s.Serves π t (.insert e) := by
  obtain ⟨hexists, hnew⟩ := hadm
  set tm := s.tm.fill e.desc e.time e.proc e.type with htm
  -- the links are as before, and so are the fields of what is linked
  have hentry : tm.entry e.desc = e := by
    simp [htm, Timers.entry, Timers.fill]
  have hentries : (s.tm.linked π).map tm.entry = s.tm.entries π := by
    apply List.map_congr_left
    intro desc hd
    have hne : desc ≠ e.desc := ne_of_mem_of_not_mem hd hnew
    simp [htm, Timers.entry, Timers.fill, hne]
  have hs : Line.Follows π { s with tm := tm } g := by
    refine ⟨h.chain, h.carved, ?_, h.handled⟩
    exact hentries.trans h.entries
  obtain ⟨⟨tm', first⟩, hins⟩ := insertInQueue_isSome hs.chain hs.length_lt e.desc
  obtain ⟨hreq, -⟩ := insertInQueue_spec hs.chain hs.length_lt hnew hins
  have hsplit := tm.upTo_append_later (tm.time e.desc) (s.tm.linked π)
  obtain ⟨hlinked, hex, hent⟩ := hreq.entries_eq (by
    intro desc hd
    obtain hd | hd := List.mem_append.mp hd
    · apply h.carved
      rw [← hsplit]
      exact List.mem_append_left _ hd
    · obtain rfl | hd := List.mem_cons.mp hd
      · exact hexists
      · apply h.carved
        rw [← hsplit]
        exact List.mem_append_right _ hd)
  have hplace : tm'.entries π = place Entry.time (s.tm.entries π) e := by
    rw [hent, ← hentries, ← hentry, place_map]
    rfl
  refine ⟨{ s with tm := tm' }, ?_, ⟨?_, ?_, ?_, h.handled⟩, ?_, rfl⟩
  · simp only [Line.step, hexists, hnew, not_false_eq_true, and_self, if_true, ← htm, hins,
      Option.map_some]
  · simp only
    rw [hlinked]
    exact hreq.chain
  · simp only
    rw [hlinked]
    exact hex
  · simp only [Agenda.step]
    rw [hplace, arrange_concat, h.entries]
  · refine ⟨_, _, ?_, hplace⟩
    exact List.takeWhile_append_dropWhile.symm

theorem Follows.remove {time : Int} {proc : Fin N} (h : s.Follows π g) :
    ∃ t, s.step π (.remove time proc) = some t ∧ t.Follows π (g.step (.remove time proc)) ∧
      s.Serves π t (.remove time proc) := by
  obtain ⟨⟨tm, found⟩, hrem⟩ := removeFromQueue_isSome h.chain h.length_lt time proc
  obtain ⟨q, hreq, hsub, hmap⟩ := h.ordered.remove_spec h.chain h.length_lt hrem
  obtain ⟨hlinked, hex, hent⟩ := hreq.entries_eq fun desc hd => h.carved desc (hsub desc hd)
  have herase : tm.entries π = (s.tm.entries π).eraseP (Agenda.asks time proc) :=
    hent.trans hmap
  refine ⟨{ s with tm := tm }, ?_, ⟨?_, ?_, ?_, h.handled⟩, herase, rfl⟩
  · simp only [Line.step, hrem, Option.map_some]
  · simp only
    rw [hlinked]
    exact hreq.chain
  · simp only
    rw [hlinked]
    exact hex
  · simp only [Agenda.step]
    rw [herase, h.entries]
    apply arrange_eraseP (k := time)
    intro e he
    exact (of_decide_eq_true he).1

theorem Follows.interrupt {now : Int} (h : s.Follows π g) :
    ∃ t, s.step π (.interrupt now) = some t ∧ t.Follows π (g.step (.interrupt now)) ∧
      s.Serves π t (.interrupt now) := by
  obtain ⟨tm, hexp, hreq⟩ := expire_spec h.chain now h.length_lt
  obtain ⟨hlinked, hex, hent⟩ := hreq.entries_eq (by
    intro desc hd
    exact h.carved desc ((List.dropWhile_sublist _).subset hd))
  have horder : InOrder Entry.time (s.tm.entries π) := ordered_iff.mp h.ordered
  obtain ⟨htake, hdrop⟩ := horder.takeWhile_le now
  have hdue : ((s.tm.linked π).takeWhile fun desc => s.tm.time desc ≤ now).map s.tm.entry =
      (s.tm.entries π).filter fun e => e.time ≤ now := by
    rw [← htake, Timers.entries, List.takeWhile_map]
    rfl
  have hrest : tm.entries π = (s.tm.entries π).filter fun e => now < e.time := by
    rw [hent, ← hdrop, Timers.entries, List.dropWhile_map]
    rfl
  refine ⟨⟨tm, s.handled ++ (s.tm.entries π).filter fun e => e.time ≤ now⟩, ?_,
    ⟨?_, ?_, ?_, ?_⟩, hrest, rfl⟩
  · simp only [Line.step, hexp, Option.map_some, hdue]
  · simp only
    rw [hlinked]
    exact hreq.chain
  · simp only
    rw [hlinked]
    exact hex
  · simp only [Agenda.step]
    rw [hrest, h.entries, arrange_filter]
  · simp only [Agenda.step]
    rw [h.handled, h.entries, arrange_filter]

/-- **Every operation** ends, and does to the queue what it does to the agenda. -/
theorem Follows.step (h : s.Follows π g) {op : TimerOp N} (hadm : s.Admits π op) :
    ∃ t, s.step π op = some t ∧ t.Follows π (g.step op) ∧ s.Serves π t op := by
  cases op with
  | insert e => exact h.insert hadm
  | remove time proc => exact h.remove
  | interrupt now => exact h.interrupt

theorem admits_of_step {op : TimerOp N} (hstep : s.step π op = some t) : s.Admits π op := by
  cases op with
  | insert e =>
      obtain ⟨hadm, hstep⟩ := Option.ite_none_right_eq_some.mp hstep
      exact hadm
  | remove time proc => trivial
  | interrupt now => trivial

/-- A run follows the agenda that the operations make. -/
theorem Follows.run (h : s.Follows π g) {ops : List (TimerOp N)}
    (hrun : exec (Line.step π) s ops = some t) : t.Follows π (ops.foldl Agenda.step g) := by
  induction ops generalizing s g with
  | nil =>
      cases hrun
      exact h
  | cons op ops ih =>
      obtain ⟨m, hm, hrest⟩ := exec_cons hrun
      obtain ⟨m', hm', hfollows, -⟩ := h.step (admits_of_step hm)
      obtain rfl : m = m' := Option.some.inj (hm.symm.trans hm')
      exact ih hfollows hrest

theorem follows_empty {tm : Timers N U} (hempty : tm.head π = none) :
    Line.Follows π ⟨tm, []⟩ ⟨[], []⟩ := by
  have hlinked : tm.linked π = [] := by
    unfold Timers.linked
    rw [hempty]
    cases tm.fuel <;> rfl
  constructor
  case chain =>
    rw [hlinked]
    exact hempty
  case carved => simp [hlinked]
  case entries => simp [Timers.entries, hlinked, arrange]
  case handled => rfl

end Line

/-- **The timer queue is a stable time-ordered queue.**  After any operations it is
in the order of time and holds, of each time, the entries to come as they arrived;
what has been handled is what was due, by time and as it came; and the next
operation ends, and does what it is to do. -/
theorem timer_queue_stable {N U : Nat} (π : Fin U) (tm : Timers N U)
    (hempty : tm.head π = none) (ops : List (TimerOp N)) (s : Line N U)
    (hrun : exec (Line.step π) ⟨tm, []⟩ ops = some s) :
    (InOrder Entry.time (s.tm.entries π) ∧
      ∀ time, ofKey Entry.time (s.tm.entries π) time =
        ofKey Entry.time (ops.foldl Agenda.step ⟨[], []⟩).arrivals time) ∧
    s.handled = (ops.foldl Agenda.step ⟨[], []⟩).handled ∧
    ∀ op, s.Admits π op → ∃ t, s.step π op = some t ∧ s.Serves π t op := by
  have hfollows := (Line.follows_empty hempty).run hrun
  refine ⟨eq_arrange_iff.mp hfollows.entries, hfollows.handled, ?_⟩
  intro op hadm
  obtain ⟨t, hstep, -, hserves⟩ := hfollows.step hadm
  exact ⟨t, hstep, hserves⟩

/-- Two entries of one time, and a later one that is inserted before them. -/
def threeEntries : List (TimerOp 3) :=
  [.insert ⟨.stack 2, 9, 2, .after⟩, .insert ⟨.stack 0, 5, 0, .after⟩,
    .insert ⟨.stack 1, 5, 1, .after⟩, .interrupt 9]

theorem timer_queue_stable_three :
    ∃ s, exec (Line.step (0 : Fin 1)) ⟨timer_init 0 .after, []⟩ threeEntries = some s ∧
      s.handled = [⟨.stack 0, 5, 0, .after⟩, ⟨.stack 1, 5, 1, .after⟩,
        ⟨.stack 2, 9, 2, .after⟩] := by
  have hsome : (exec (Line.step (0 : Fin 1)) ⟨timer_init 0 .after, []⟩ threeEntries).isSome := by
    decide
  obtain ⟨s, hs⟩ := Option.isSome_iff_exists.mp hsome
  have hstable := timer_queue_stable 0 _ rfl threeEntries s hs
  refine ⟨s, hs, hstable.2.1.trans ?_⟩
  decide

end Cxp
