import Cxp.ReadyOrder
import Cxp.Scheduler
import Mathlib.Data.Fin.VecNotation
import Mathlib.Data.List.Rotate

/-!
# Who is dispatched (`sched.c`)

Two ways to ready a process, as functions of the current process and the ready
queue.  `schedule0` compares the priorities first; a handler enqueues the
process, and `schedule_from_interrupt` then looks at the head of the queue.
Where no ready process outranks the current one, both come to the same
(`preemption_paths_agree`).

Processes of one priority that yield get the processor in turn
(`yield_round_robin`).
-/

namespace Cxp

open LinkedChain Queues StableOrder

/-- How a process is readied. -/
inductive ReadyPath
  /-- `schedule0(proc)` -/
  | schedule0
  /-- `enqueue0(proc)`, then `schedule_from_interrupt()` -/
  | from_interrupt
  deriving DecidableEq

namespace Sched

variable {N U : Nat} (sys : Procs N U) (π : Fin U) (s : Sched N U)

/-- Ready a process of the processor. -/
def readyBy (s : Sched N U) : Fin N × ReadyPath → Option (Sched N U)
  | (proc, .schedule0) => s.schedule0 sys π proc
  | (proc, .from_interrupt) =>
      (s.enqueue0 sys proc).bind fun s => s.schedule_from_interrupt sys π

/-- The ready queues are in order, no ready process of the processor outranks its
current one, and none is on its way from another processor. -/
structure Quiet : Prop where
  chained : Chained sys s.queues
  pun : sys.pun (s.current π) = π
  highest : ∀ p ∈ s.queues.links π, pri_le (sys.pri p) (sys.pri (s.current π)) = true
  ipq : s.queues.ipq π = []

/-- The current process and the ready queue, when `proc` has been readied. -/
def readied (proc : Fin N) (curr : Fin N) (l : List (Fin N)) : Fin N × List (Fin N) :=
  if pri_le (sys.pri proc) (sys.pri curr) then (curr, placed sys l proc)
  else (proc, placed sys l curr)

/-- `t` is `s` but for the processor's current process and ready queue. -/
structure Dispatched (s t : Sched N U) (r : Fin N × List (Fin N)) : Prop where
  current : t.current = Function.update s.current π r.1
  links : t.queues.links π = r.2
  others : ∀ σ, σ ≠ π → t.queues.links σ = s.queues.links σ
  ipq : t.queues.ipq = s.queues.ipq

variable {sys π s} {t u : Sched N U} {proc p : Fin N}

theorem enqueue0_some (h : Chained sys s.queues) (proc : Fin N) :
    ∃ t, s.enqueue0 sys proc = some t ∧ Chained sys t.queues ∧ t.current = s.current ∧
      t.queues.ipq = s.queues.ipq ∧
      t.queues.links (sys.pun proc) = placed sys (s.queues.links (sys.pun proc)) proc ∧
      ∀ σ, σ ≠ sys.pun proc → t.queues.links σ = s.queues.links σ := by
  obtain ⟨q, hq, hchained, hipq, hself, hother, -⟩ := h.enqueue0 proc
  refine ⟨{ s with queues := q }, ?_, hchained, rfl, hipq, hself, hother⟩
  simp only [Sched.enqueue0, hq, Option.map_some]

/-- With nobody on the way, `take` gives the head of the ready queue. -/
theorem take_head {q : Queues N U} {l : List (Fin N)} (h : Chained sys q)
    (hipq : q.ipq π = []) (hlinks : q.links π = proc :: l) :
    ∃ q', q.take sys π = some (proc, q') ∧ Chained sys q' ∧ q'.ipq = q.ipq ∧
      q'.links π = l ∧ ∀ σ, σ ≠ π → q'.links σ = q.links σ := by
  have hhead := h.head_eq π
  rw [hlinks, List.head?_cons] at hhead
  obtain ⟨q', hpop⟩ : ∃ q', q.pop π = some (proc, q') := by
    unfold Queues.pop
    rw [hhead]
    exact ⟨_, rfl⟩
  obtain ⟨hchained, -, hipq', -, hcons, hothers⟩ := h.pop hpop
  refine ⟨q', ?_, hchained, hipq', ?_, hothers⟩
  · rw [Queues.take, hipq, List.length_nil]
    exact hpop
  · rw [hlinks] at hcons
    exact (List.cons.inj hcons).2.symm

/-- Nobody outranks the current process when the head of the ready queue does not. -/
theorem outranked_iff_head (h : Chained sys s.queues) :
    s.outranked sys π = true ↔ ∃ p, (s.queues.links π).head? = some p ∧
      pri_gt (sys.pri p) (sys.pri (s.current π)) = true := by
  unfold outranked
  rw [h.head_eq π]
  cases (s.queues.links π).head? <;> simp

theorem Quiet.schedule0 (h : s.Quiet sys π) (hpun : sys.pun proc = π) :
    ∃ t, s.schedule0 sys π proc = some t ∧ Chained sys t.queues ∧
      Dispatched π s t (readied sys proc (s.current π) (s.queues.links π)) := by
  unfold Sched.schedule0
  rw [if_pos hpun]
  by_cases hle : pri_le (sys.pri proc) (sys.pri (s.current π)) = true
  · obtain ⟨t, ht, hchained, hcurrent, hipq, hself, hother⟩ := enqueue0_some h.chained proc
    rw [hpun] at hself hother
    simp only [readied, if_pos hle]
    refine ⟨t, ht, hchained, ?_, hself, hother, hipq⟩
    rw [hcurrent, Function.update_eq_self]
  · obtain ⟨t, ht, hchained, hcurrent, hipq, hself, hother⟩ :=
      enqueue0_some (s := { s with current := Function.update s.current π proc }) h.chained
        (s.current π)
    rw [h.pun] at hself hother
    simp only [readied, if_neg hle]
    refine ⟨t.switch_context (s.current π) proc, ?_, hchained, hcurrent, hself, hother, hipq⟩
    simp only [Sched.set_current, if_pos hpun, Option.bind_eq_bind, Option.bind_some, ht]
    rfl

theorem Quiet.from_interrupt (h : s.Quiet sys π) (hpun : sys.pun proc = π) :
    ∃ t, s.readyBy sys π (proc, .from_interrupt) = some t ∧ Chained sys t.queues ∧
      Dispatched π s t (readied sys proc (s.current π) (s.queues.links π)) := by
  obtain ⟨m, hm, hchained, hcurrent, hipq, hself, hother⟩ := enqueue0_some h.chained proc
  rw [hpun] at hself hother
  unfold readyBy
  simp only [hm, Option.bind_some, schedule_from_interrupt]
  by_cases hle : pri_le (sys.pri proc) (sys.pri (s.current π)) = true
  · -- the head is a process that was ready, or the new one
    have hnot : ¬ m.outranked sys π = true := by
      intro hout
      obtain ⟨p, hhead, hgt⟩ := (outranked_iff_head hchained).mp hout
      have hmem : p ∈ placed sys (s.queues.links π) proc := by
        rw [← hself]
        exact List.mem_of_head? hhead
      rw [hcurrent, pri_gt_iff_not_le] at hgt
      obtain hp | rfl := mem_placed hmem
      · rw [h.highest p hp] at hgt
        cases hgt
      · rw [hle] at hgt
        cases hgt
    rw [if_neg hnot]
    simp only [readied, if_pos hle]
    refine ⟨m, rfl, hchained, ?_, hself, hother, hipq⟩
    rw [hcurrent, Function.update_eq_self]
  · -- the new process goes to the front, and is taken from there
    have hfront : placed sys (s.queues.links π) proc = proc :: s.queues.links π := by
      have hlow : ∀ p ∈ s.queues.links π, pri_le (sys.pri proc) (sys.pri p) = false := by
        intro p hp
        by_contra hge
        exact hle (pri_le_trans (Bool.eq_true_of_not_eq_false hge) (h.highest p hp))
      unfold placed
      cases hl : s.queues.links π with
      | nil => rfl
      | cons p ps =>
          rw [hl] at hlow
          have hp := hlow p List.mem_cons_self
          rw [List.takeWhile_cons_of_neg (by simp [hp]), List.dropWhile_cons_of_neg (by simp [hp])]
          rfl
    rw [hfront] at hself
    have hout : m.outranked sys π = true := by
      apply (outranked_iff_head hchained).mpr
      refine ⟨proc, ?_, ?_⟩
      · rw [hself]
        rfl
      · rw [hcurrent, pri_gt_iff_not_le]
        exact Bool.eq_false_of_not_eq_true hle
    have hempty : m.queues.ipq π = [] := by rw [hipq, h.ipq]
    obtain ⟨q, hq, hchained', hipq', hself', hother'⟩ := take_head hchained hempty hself
    obtain ⟨t, ht, hchained'', hcurrent'', hipq'', hself'', hother''⟩ :=
      enqueue0_some (s := { m with queues := q }) hchained' (s.current π)
    rw [h.pun] at hself'' hother''
    rw [if_pos hout]
    simp only [readied, if_neg hle]
    refine ⟨({ t with current := Function.update t.current π proc } :
      Sched N U).switch_interrupt_context (s.current π) proc, ?_, hchained'', ?_, ?_, ?_, ?_⟩
    · have hcurr : m.current π = s.current π := by rw [hcurrent]
      simp only [Option.bind_eq_bind, hq, Option.bind_some, hcurr, ht, Sched.set_current,
        if_pos hpun]
      rfl
    · change Function.update t.current π proc = _
      rw [hcurrent'', hcurrent]
    · exact hself''.trans (by rw [hself'])
    · intro σ hσ
      exact (hother'' σ hσ).trans ((hother' σ hσ).trans (hother σ hσ))
    · exact hipq''.trans (hipq'.trans hipq)

/-- **Either path** does the same. -/
theorem Quiet.readyBy (h : s.Quiet sys π) (hpun : sys.pun proc = π) (path : ReadyPath) :
    ∃ t, s.readyBy sys π (proc, path) = some t ∧ Chained sys t.queues ∧
      Dispatched π s t (readied sys proc (s.current π) (s.queues.links π)) := by
  cases path with
  | schedule0 => exact h.schedule0 hpun
  | from_interrupt => exact h.from_interrupt hpun

/-- The new current process is still not outranked. -/
theorem Quiet.dispatched (h : s.Quiet sys π) (hpun : sys.pun proc = π)
    (hchained : Chained sys t.queues)
    (ht : Dispatched π s t (readied sys proc (s.current π) (s.queues.links π))) :
    t.Quiet sys π := by
  have hcurrent : t.current π = (readied sys proc (s.current π) (s.queues.links π)).1 := by
    rw [ht.current, Function.update_self]
  refine ⟨hchained, ?_, ?_, ?_⟩
  · rw [hcurrent]
    unfold readied
    split
    · exact h.pun
    · exact hpun
  · intro p hp
    rw [hcurrent]
    rw [ht.links] at hp
    unfold readied at hp ⊢
    split
    · rename_i hle
      rw [if_pos hle] at hp
      obtain hp | rfl := mem_placed hp
      · exact h.highest p hp
      · exact hle
    · rename_i hle
      rw [if_neg hle] at hp
      have hlower : pri_le (sys.pri (s.current π)) (sys.pri proc) = true := by
        simp only [pri_le, ge_iff_le, decide_eq_true_eq, not_le] at hle ⊢
        exact hle.le
      obtain hp | rfl := mem_placed hp
      · exact pri_le_trans (h.highest p hp) hlower
      · exact hlower
  · rw [ht.ipq]
    exact h.ipq

/-- Ready several processes, one after the other. -/
def readyAll (sys : Procs N U) (π : Fin U) (s : Sched N U) (ps : List (Fin N × ReadyPath)) :
    Option (Sched N U) :=
  ps.foldlM (readyBy sys π) s

theorem Quiet.readyAll (ps : List (Fin N × ReadyPath)) (h : s.Quiet sys π)
    (hpun : ∀ p ∈ ps, sys.pun p.1 = π) :
    ∃ t, s.readyAll sys π ps = some t ∧
      Dispatched π s t ((ps.map Prod.fst).foldl (fun r proc => readied sys proc r.1 r.2)
        (s.current π, s.queues.links π)) := by
  induction ps generalizing s with
  | nil =>
      refine ⟨s, rfl, ?_, rfl, fun _ _ => rfl, rfl⟩
      exact (Function.update_eq_self π s.current).symm
  | cons p ps ih =>
      obtain ⟨proc, path⟩ := p
      have hp : sys.pun proc = π := hpun (proc, path) List.mem_cons_self
      obtain ⟨m, hm, hchained, hd⟩ := h.readyBy hp path
      have hquiet := h.dispatched hp hchained hd
      obtain ⟨t, ht, hd'⟩ := ih hquiet fun q hq => hpun q (List.mem_cons_of_mem _ hq)
      have hmid : (m.current π, m.queues.links π) =
          readied sys proc (s.current π) (s.queues.links π) := by
        rw [hd.links, hd.current, Function.update_self]
      rw [hmid] at hd'
      refine ⟨t, ?_, ?_, hd'.links, ?_, hd'.ipq.trans hd.ipq⟩
      · unfold Sched.readyAll at ht ⊢
        rw [List.foldlM_cons, hm]
        exact ht
      · rw [hd'.current, hd.current, Function.update_idem]
        rfl
      · intro σ hσ
        rw [hd'.others σ hσ, hd.others σ hσ]

end Sched

/-- **The two preemption paths agree.**  Where no ready process outranks the
current one, any local processes that are readied one after the other, each by
either path, leave the same current process and the same queues. -/
theorem preemption_paths_agree {N U : Nat} (sys : Procs N U) (π : Fin U) (s : Sched N U)
    (hs : s.Quiet sys π) (ps qs : List (Fin N × ReadyPath))
    (hlocal : ∀ p ∈ ps, sys.pun p.1 = π) (hsame : ps.map Prod.fst = qs.map Prod.fst) :
    ∃ t u, s.readyAll sys π ps = some t ∧ s.readyAll sys π qs = some u ∧
      t.current = u.current ∧ t.queues.links = u.queues.links ∧ t.queues.ipq = u.queues.ipq := by
  have hlocal' : ∀ q ∈ qs, sys.pun q.1 = π := by
    intro q hq
    have hmem : q.1 ∈ ps.map Prod.fst := hsame ▸ List.mem_map_of_mem hq
    obtain ⟨p, hp, heq⟩ := List.mem_map.mp hmem
    rw [← heq]
    exact hlocal p hp
  obtain ⟨t, ht, hdt⟩ := hs.readyAll ps hlocal
  obtain ⟨u, hu, hdu⟩ := hs.readyAll qs hlocal'
  rw [← hsame] at hdu
  refine ⟨t, u, ht, hu, hdt.current.trans hdu.current.symm, ?_, hdt.ipq.trans hdu.ipq.symm⟩
  funext σ
  by_cases hσ : σ = π
  · rw [hσ, hdt.links, hdu.links]
  · rw [hdt.others σ hσ, hdu.others σ hσ]

/-- A second processor with its idle process and two more. -/
def idleSecond : Procs 5 2 where
  pun := fun p => if p.val < 2 then 0 else 1
  pri := ![INIT_PRI, IDLE_PRI, IDLE_PRI, 0x2200, 0x2000]
  initial := 0
  idler := ![1, 2]
  pri_initial := rfl
  pun_idler := by decide
  pri_idler := by decide

/-- The two are readied there, each preempting the one before. -/
theorem preemption_paths_agree_two :
    ∃ t u, (Sched.init idleSecond).readyAll idleSecond 1
        [(3, .schedule0), (4, .schedule0)] = some t ∧
      (Sched.init idleSecond).readyAll idleSecond 1
        [(3, .from_interrupt), (4, .from_interrupt)] = some u ∧
      t.current = u.current ∧ t.queues.links = u.queues.links ∧ t.queues.ipq = u.queues.ipq := by
  apply preemption_paths_agree
  · refine ⟨Sched.chained_init idleSecond, by decide, ?_, rfl⟩
    rw [Sched.links_init]
    decide
  · decide
  · rfl

namespace Sched

variable {N U : Nat} {sys : Procs N U} {π : Fin U} {s t : Sched N U} {p e : Fin N}
  {g lows es : List (Fin N)} {k : Nat}

/-- Yields, one after the other, by whoever is current; and who got the processor. -/
def yields (sys : Procs N U) (π : Fin U) : Nat → Sched N U → Option (Sched N U × List (Fin N))
  | 0, s => some (s, [])
  | k + 1, s =>
      (s.yield sys (s.current π)).bind fun t =>
        (yields sys π k t).map fun r => (r.1, t.current π :: r.2)

/-- The current process and those behind it of its priority, and the lower ones. -/
structure InTurn (sys : Procs N U) (π : Fin U) (g lows : List (Fin N)) (s : Sched N U) :
    Prop where
  chained : Chained sys s.queues
  pun : sys.pun (s.current π) = π
  ipq : s.queues.ipq π = []
  order : s.current π :: s.queues.links π = g ++ lows

/-- `take1` gives the head when it is not alone. -/
theorem take1_head {q : Queues N U} (h : Chained sys q) (hipq : q.ipq π = [])
    (hlinks : q.links π = p :: e :: es) :
    ∃ q', q.take1 sys π = some (some p, q') ∧ Chained sys q' ∧ q'.ipq = q.ipq ∧
      q'.links π = e :: es := by
  have hc := h.chain π
  rw [hlinks] at hc
  have hhead : q.head π = some p := hc.1
  have hnext : q.next p = some e := hc.2.1
  obtain ⟨q', htake, hchained, hipq', hlinks', -⟩ := take_head h hipq hlinks
  refine ⟨q', ?_, hchained, hipq', hlinks'⟩
  rw [Queues.take, hipq, List.length_nil] at htake
  have hpop : q.pop π = some (p, q') := htake
  unfold Queues.pop at hpop
  rw [hhead, Option.map_some, hnext] at hpop
  rw [Queues.take1, hipq, List.length_nil]
  simp only [Queues.drain, Option.map_some, hhead, hnext]
  exact congrArg some (Prod.ext rfl (Prod.ext_iff.mp (Option.some.inj hpop)).2)

/-- **A yield** turns the group by one. -/
theorem InTurn.yield (h : s.InTurn sys π g lows) (hn : 2 ≤ g.length) (hlows : lows ≠ [])
    (hnodup : (g ++ lows).Nodup) (hequal : ∀ p ∈ g, ∀ q ∈ g, sys.rank p = sys.rank q)
    (hlower : ∀ p ∈ g, ∀ q ∈ lows, sys.rank p < sys.rank q) :
    ∃ t, s.yield sys (s.current π) = some t ∧ t.InTurn sys π (g.rotate 1) lows := by
  obtain ⟨c, e, es, rfl⟩ : ∃ c e es, g = c :: e :: es := by
    match g, hn with
    | c :: e :: es, _ => exact ⟨c, e, es, rfl⟩
  obtain ⟨hcur, hlinks⟩ := List.cons.inj h.order
  rw [List.append_eq] at hlinks
  obtain ⟨f, fs, hrest⟩ : ∃ f fs, es ++ lows = f :: fs := by
    cases hl : es ++ lows with
    | nil => exact absurd (List.append_eq_nil_iff.mp hl).2 hlows
    | cons f fs => exact ⟨f, fs, rfl⟩
  rw [List.cons_append, hrest] at hlinks
  obtain ⟨q, hq, hchained, hipq, hlinks'⟩ := take1_head h.chained h.ipq hlinks
  have hpune : sys.pun e = π := by
    apply h.chained.pun_links
    rw [hlinks]
    exact List.mem_cons_self
  obtain ⟨t, ht, hchained', hcurrent, hipq', hself, -⟩ := enqueue0_some
    (s := { s with queues := q, current := Function.update s.current π e }) hchained c
  have hpunc : sys.pun c = π := by rw [← hcur, h.pun]
  have hout : c ∉ es ++ lows := by
    intro hmem
    have hcons := (List.nodup_cons.mp hnodup).1
    exact hcons (List.mem_cons_of_mem e hmem)
  have hplaced : t.queues.links π = es ++ c :: lows := by
    rw [hpunc] at hself
    rw [hself]
    change placed sys (q.links π) c = _
    rw [hlinks', ← hrest, placed_eq_place hout]
    apply place_between
    · intro p hp
      have hpg : p ∈ c :: e :: es := List.mem_cons_of_mem _ (List.mem_cons_of_mem _ hp)
      exact (hequal p hpg c List.mem_cons_self).le
    · intro p hp
      exact hlower c List.mem_cons_self p hp
  have hcurrent' : t.current π = e := by
    rw [hcurrent]
    exact Function.update_self π e s.current
  refine ⟨(t.doing c .enable).switch_context c e, ?_, hchained', ?_, ?_, ?_⟩
  · unfold Sched.yield
    rw [hcur, hpunc]
    simp only [Option.bind_eq_bind, hq, Option.bind_some, Sched.set_current, if_pos hpune, ht]
    rfl
  · change sys.pun (t.current π) = π
    rw [hcurrent']
    exact hpune
  · change t.queues.ipq π = []
    rw [hipq']
    exact (congrFun hipq π).trans h.ipq
  · change t.current π :: t.queues.links π = _
    rw [hcurrent', hplaced]
    simp

/-- **The turns.**  The group is turned by one with each yield, and its members get
the processor in the order in which they stand. -/
theorem InTurn.yields (k : Nat) (h : s.InTurn sys π g lows) (hn : 2 ≤ g.length)
    (hlows : lows ≠ []) (hnodup : (g ++ lows).Nodup)
    (hequal : ∀ p ∈ g, ∀ q ∈ g, sys.rank p = sys.rank q)
    (hlower : ∀ p ∈ g, ∀ q ∈ lows, sys.rank p < sys.rank q) :
    ∃ t ds, s.yields sys π k = some (t, ds) ∧ t.InTurn sys π (g.rotate k) lows ∧
      ds.length = k ∧ ∀ i < k, ds[i]? = g[(i + 1) % g.length]? := by
  induction k generalizing s g with
  | zero =>
      refine ⟨s, [], rfl, ?_, rfl, fun i hi => absurd hi (Nat.not_lt_zero i)⟩
      rw [List.rotate_zero]
      exact h
  | succ k ih =>
      obtain ⟨m, hm, hturn⟩ := h.yield hn hlows hnodup hequal hlower
      have hperm : (g.rotate 1).Perm g := List.rotate_perm g 1
      obtain ⟨t, ds, hds, hturn', hlen, hget⟩ := ih hturn
        (by rw [List.length_rotate]; exact hn)
        ((hperm.append_right lows).nodup_iff.mpr hnodup)
        (fun p hp q hq => hequal p (hperm.mem_iff.mp hp) q (hperm.mem_iff.mp hq))
        (fun p hp q hq => hlower p (hperm.mem_iff.mp hp) q hq)
      refine ⟨t, m.current π :: ds, ?_, ?_, ?_, ?_⟩
      · simp only [Sched.yields, hm, Option.bind_some, hds, Option.map_some]
      · rw [List.rotate_rotate, Nat.add_comm] at hturn'
        exact hturn'
      · rw [List.length_cons, hlen]
      · intro i hi
        cases i with
        | zero =>
            have hhead : (g.rotate 1)[0]? = some (m.current π) := by
              have horder := congrArg (·[0]?) hturn.order
              simp only [List.getElem?_cons_zero] at horder
              rw [horder, List.getElem?_append_left]
              rw [List.length_rotate]
              omega
            rw [List.getElem?_cons_zero, ← hhead, List.getElem?_rotate (by omega)]
        | succ i =>
            rw [List.getElem?_cons_succ, hget i (by omega), List.length_rotate,
              List.getElem?_rotate (Nat.mod_lt _ (by omega)), Nat.mod_add_mod]

end Sched

/-- **`yield` is round-robin among equals.**  Of two or more processes `g` of one
priority, the first of which is current and the others ready, with lower processes
behind them, the idle one among these: by any number of yields they get the processor
cyclically in their order, each once in every `g.length` yields in a row, nobody else
gets it, and the same processes are current or ready as before. -/
theorem yield_round_robin {N U : Nat} (sys : Procs N U) (π : Fin U) (s : Sched N U)
    (g lows : List (Fin N)) (hs : s.InTurn sys π g lows) (hn : 2 ≤ g.length)
    (hnodup : (g ++ lows).Nodup) (hequal : ∀ p ∈ g, ∀ q ∈ g, sys.rank p = sys.rank q)
    (hlower : ∀ p ∈ g, ∀ q ∈ lows, sys.rank p < sys.rank q) (hidler : sys.idler π ∈ lows)
    (k : Nat) :
    ∃ t ds, s.yields sys π k = some (t, ds) ∧
      (ds.length = k ∧ ∀ i < k, ds[i]? = g[(i + 1) % g.length]?) ∧
      (∀ j, j + g.length ≤ k → ((ds.drop j).take g.length).Perm g) ∧
      (∀ p ∈ ds, p ∈ g ∧ p ≠ sys.idler π) ∧
      t.current π :: t.queues.links π = g.rotate k ++ lows ∧
      (t.current π :: t.queues.links π).Perm (s.current π :: s.queues.links π) := by
  obtain ⟨t, ds, hds, hturn, hlen, hget⟩ :=
    hs.yields k hn (List.ne_nil_of_mem hidler) hnodup hequal hlower
  have hmem : ∀ p ∈ ds, p ∈ g := by
    intro p hp
    obtain ⟨i, hi, hpi⟩ := List.getElem_of_mem hp
    have hi' := hget i (hlen ▸ hi)
    rw [List.getElem?_eq_getElem hi, hpi] at hi'
    exact List.mem_of_getElem? hi'.symm
  refine ⟨t, ds, hds, ⟨hlen, hget⟩, ?_, ?_, hturn.order, ?_⟩
  · -- a round is the group, turned
    intro j hj
    have hround : (ds.drop j).take g.length = g.rotate (j + 1) := by
      apply List.ext_getElem?
      intro i
      by_cases hi : i < g.length
      · rw [List.getElem?_take_of_lt hi, List.getElem?_drop, hget (j + i) (by omega),
          List.getElem?_rotate hi]
        congr 2
        omega
      · rw [List.getElem?_eq_none, List.getElem?_eq_none]
        · rw [List.length_rotate]
          omega
        · rw [List.length_take]
          omega
    rw [hround]
    exact List.rotate_perm g (j + 1)
  · intro p hp
    refine ⟨hmem p hp, ?_⟩
    intro heq
    have hlt := hlower p (hmem p hp) _ hidler
    rw [heq] at hlt
    exact lt_irrefl _ hlt
  · rw [hturn.order, hs.order]
    exact (List.rotate_perm g k).append_right lows

/-- The initial process and one more of its priority. -/
def twoEqual : Procs 3 1 where
  pun := fun _ => 0
  pri := ![INIT_PRI, IDLE_PRI, INIT_PRI]
  initial := 0
  idler := fun _ => 1
  pri_initial := rfl
  pun_idler := pun_single
  pri_idler := by decide

theorem yield_round_robin_two :
    ∃ s t ds, (Sched.init twoEqual).enqueue0 twoEqual 2 = some s ∧
      s.yields twoEqual 0 3 = some (t, ds) ∧ (ds.take 2).Perm [0, 2] ∧
      t.current 0 :: t.queues.links 0 = [2, 0, 1] := by
  obtain ⟨s, hs, hchained, hcurrent, hipq, hself, -⟩ :=
    Sched.enqueue0_some (Sched.chained_init twoEqual) 2
  have hlinks : s.queues.links 0 = [2, 1] := hself.trans (by decide)
  have hturn : s.InTurn twoEqual 0 [0, 2] [1] := by
    refine ⟨hchained, rfl, ?_, ?_⟩
    · rw [hipq]
      rfl
    · rw [hcurrent, hlinks]
      decide
  obtain ⟨t, ds, hds, -, hround, -, horder, -⟩ :=
    yield_round_robin twoEqual 0 s [0, 2] [1] hturn (by decide) (by decide) (by decide)
      (by decide) (by decide) 3
  exact ⟨s, t, ds, hs, hds, hround 0 (by decide), horder⟩

end Cxp
