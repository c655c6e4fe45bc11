import Cxp.ProcessStanding
import Cxp.SchedulerSteps
import Cxp.SchedulerTurns

/-!
# Who gets past a process in the ready queue (`sched.c`)

A process in the ready queue stays there until its processor takes it.

* It is not taken as long as another one that outranks it is in the queue as well
  (`Turn.excludes`).
* Those in front of it that do not outrank it do not get in front of it again
  (`Turn.passes`).  While no two processes that outrank it are there, two yields take one
  of those away, or the process itself (`Ledger.yield_passes`).

Who is put into a queue by a step, is said by `Enters`; nobody is who is in its ready
queue already (`Ledger.not_enters`).
-/

namespace Cxp

open Queues

namespace Queues

variable {N U : Nat}

/-- How many in front of `x` do not outrank it. -/
def ahead (sys : Procs N U) (l : List (Fin N)) (x : Fin N) : Nat :=
  (l.takeWhile (· ≠ x)).countP fun y => pri_le (sys.pri y) (sys.pri x)

/-- How many turns that hand the processor over `x` may still have to wait, `c` being
current. -/
def wait (sys : Procs N U) (q : Queues N U) (c x : Fin N) : Nat :=
  2 * ahead sys (q.links (sys.pun x)) x + if pri_le (sys.pri c) (sys.pri x) then 1 else 0

/-- No two of the current process `c` and those in the ready queue outrank `x`. -/
def OneAbove (sys : Procs N U) (q : Queues N U) (c x : Fin N) : Prop :=
  ∀ y z, y = c ∨ y ∈ q.links (sys.pun x) → z = c ∨ z ∈ q.links (sys.pun x) →
    pri_le (sys.pri y) (sys.pri x) = false → pri_le (sys.pri z) (sys.pri x) = false → y = z

instance (sys : Procs N U) (q : Queues N U) (c x : Fin N) : Decidable (OneAbove sys q c x) :=
  inferInstanceAs (Decidable (∀ _ _, _))

variable {sys : Procs N U} {B : Fin N → Prop} {R R' Y : Prop} {π σ : Fin U}
  {c c' x proc new : Fin N} {q q' : Queues N U} {l l' l'' : List (Fin N)}

section Lists

theorem takeWhile_ne_append (hx : x ∈ l') :
    (l' ++ l'').takeWhile (· ≠ x) = l'.takeWhile (· ≠ x) := by
  rw [List.takeWhile_append, if_neg]
  intro hlen
  have heq : l'.takeWhile (· ≠ x) = l' := (List.takeWhile_sublist _).eq_of_length hlen
  rw [← heq] at hx
  have hne := List.mem_takeWhile_imp (p := (· ≠ x)) hx
  simp at hne

/-- What is behind a list that `x` is in does not count. -/
theorem ahead_of_mem (hx : x ∈ l') : ahead sys (l' ++ l'') x = ahead sys l' x := by
  unfold ahead
  rw [takeWhile_ne_append hx]

theorem ahead_append (hx : x ∉ l') : ahead sys (l' ++ l'') x =
    (l'.countP fun y => pri_le (sys.pri y) (sys.pri x)) + ahead sys l'' x := by
  have hne : ∀ y ∈ l', decide (y ≠ x) = true := fun y hy =>
    decide_eq_true (ne_of_mem_of_not_mem hy hx)
  unfold ahead
  rw [List.takeWhile_append_of_pos hne, List.countP_append]

/-- A process that is put in front of `x` outranks it: if `x` stays, it stays behind the
same ones, but for those that outrank it. -/
theorem ahead_placed (hl : l.Pairwise (Ranked sys)) (hx : x ∈ placed sys l proc)
    (hne : proc ≠ x) : ahead sys (placed sys l proc) x = ahead sys l x := by
  set go := fun curr => pri_le (sys.pri proc) (sys.pri curr) with hgo
  set front := (l.takeWhile go).takeWhile (· ≠ proc) with hfront
  have hplaced : placed sys l proc = front ++ proc :: l.dropWhile go := rfl
  have hsub : ∀ y ∈ front, y ∈ l.takeWhile go := fun y hy =>
    (List.takeWhile_sublist _).subset hy
  have hall : l = l.takeWhile go ++ l.dropWhile go := List.takeWhile_append_dropWhile.symm
  rw [hplaced] at hx ⊢
  by_cases hle : pri_le (sys.pri proc) (sys.pri x) = true
  · -- `x` is in front of it, where nothing has changed
    have hin : x ∈ front := by
      obtain hx | hx := List.mem_append.mp hx
      · exact hx
      · obtain hx | hx := List.mem_cons.mp hx
        · exact absurd hx.symm hne
        · have hlow := lower_of_mem_dropWhile hl hx
          rw [hle] at hlow
          cases hlow
    obtain ⟨rest, hrest⟩ : front <+: l :=
      (List.takeWhile_prefix _).trans (List.takeWhile_prefix _)
    rw [ahead_of_mem hin]
    calc ahead sys front x = ahead sys (front ++ rest) x := (ahead_of_mem hin).symm
      _ = ahead sys l x := by rw [hrest]
  · -- it outranks `x`, and so do those in front of it
    have habove : ∀ y ∈ l.takeWhile go, ¬ pri_le (sys.pri y) (sys.pri x) = true := by
      intro y hy hyx
      have hpy : pri_le (sys.pri proc) (sys.pri y) = true :=
        List.mem_takeWhile_imp (p := go) hy
      exact hle (pri_le_trans hpy hyx)
    have hout : x ∉ l.takeWhile go := fun hmem => habove x hmem (pri_le_refl _)
    have hnone : ∀ m : List (Fin N), (∀ y ∈ m, y ∈ l.takeWhile go) →
        (m.countP fun y => pri_le (sys.pri y) (sys.pri x)) = 0 := by
      intro m hm
      rw [List.countP_eq_zero]
      intro y hy
      exact habove y (hm y hy)
    have hproc : ahead sys (proc :: l.dropWhile go) x = ahead sys (l.dropWhile go) x := by
      change ahead sys ([proc] ++ l.dropWhile go) x = _
      rw [ahead_append (by simpa using hne.symm)]
      simp [hle]
    rw [ahead_append fun hmem => hout (hsub x hmem), hnone front hsub, hproc]
    conv => rhs; rw [hall]
    rw [ahead_append hout, hnone _ fun y hy => hy]

end Lists

section Queueing

/-- A process that is put into the ready queue leaves `x` behind the same ones. -/
theorem Chained.ahead_enqueued (h : Chained sys q) (hq : q.enqueue0 sys proc = some q')
    (hk : q'.kept = true) (hne : proc ≠ x) (hx : x ∈ q.links (sys.pun x)) :
    x ∈ q'.links (sys.pun x) ∧
      ahead sys (q'.links (sys.pun x)) x = ahead sys (q.links (sys.pun x)) x := by
  have hstay := (enqueue0_keeps hq hk).2.2 _ x hx
  refine ⟨hstay, ?_⟩
  obtain ⟨-, -, hself, hothers⟩ := h.enqueued hq
  by_cases hπ : sys.pun x = sys.pun proc
  · rw [hπ, hself] at hstay ⊢
    exact ahead_placed (h.sorted _) hstay hne
  · rw [hothers _ hπ]

/-- So does the whole interprocessor queue. -/
theorem Chained.ahead_drained {n : Nat} (h : Chained sys q)
    (hdrain : Queues.drain sys (sys.pun x) n q = some q') (hk : q'.kept = true)
    (hx : x ∈ q.links (sys.pun x)) (hout : x ∉ q.ipq (sys.pun x)) :
    x ∈ q'.links (sys.pun x) ∧
      ahead sys (q'.links (sys.pun x)) x = ahead sys (q.links (sys.pun x)) x := by
  have hinv : Chained sys q' ∧ x ∉ q'.ipq (sys.pun x) ∧ (q'.kept = true →
      x ∈ q'.links (sys.pun x) ∧
        ahead sys (q'.links (sys.pun x)) x = ahead sys (q.links (sys.pun x)) x) := by
    refine drain_induction (P := fun q' => Chained sys q' ∧ x ∉ q'.ipq (sys.pun x) ∧
      (q'.kept = true → x ∈ q'.links (sys.pun x) ∧
        ahead sys (q'.links (sys.pun x)) x = ahead sys (q.links (sys.pun x)) x)) ?_ hdrain
      ⟨h, hout, fun _ => ⟨hx, rfl⟩⟩
    intro q₀ proc q₁ q₂ hinv hrem henq
    obtain ⟨hc, hout, hsame⟩ := hinv
    obtain ⟨hc₁, hk₁, hlinks₁, -, rest, hipq₀, hipq₁⟩ := hc.ipq_remove hrem
    obtain ⟨hc₂, hipq₂, -, -⟩ := hc₁.enqueued henq
    rw [hipq₀, List.mem_cons, not_or] at hout
    refine ⟨hc₂, ?_, fun hk => ?_⟩
    · rw [hipq₂, hipq₁, Function.update_self]
      exact hout.2
    · obtain ⟨hin, heq⟩ := hsame (hk₁ ▸ (enqueue0_keeps henq hk).1)
      obtain ⟨hin₂, heq₂⟩ := hc₁.ahead_enqueued henq hk (Ne.symm hout.1) (hlinks₁ ▸ hin)
      refine ⟨hin₂, ?_⟩
      rw [heq₂, hlinks₁, heq]
  exact hinv.2.2 hk

/-- Another process is taken, which is counted if it does not outrank `x`. -/
theorem Chained.ahead_taken (h : Chained sys q) (htake : q.take sys (sys.pun x) = some (new, q'))
    (hk : q'.kept = true) (hne : new ≠ x) (hx : x ∈ q.links (sys.pun x))
    (hout : x ∉ q.ipq (sys.pun x)) :
    x ∈ q'.links (sys.pun x) ∧
      ahead sys (q'.links (sys.pun x)) x + (if pri_le (sys.pri new) (sys.pri x) then 1 else 0) =
        ahead sys (q.links (sys.pun x)) x := by
  obtain ⟨q₁, hq₁, hpop⟩ := Option.bind_eq_some_iff.mp htake
  obtain ⟨q₂, hq₂, hm⟩ := h.merged (sys.pun x)
  obtain rfl := Option.some.inj (hq₂.symm.trans hq₁)
  obtain ⟨-, hkept, -, -, hlinks, -⟩ := hm.chained.pop hpop
  obtain ⟨hin, heq⟩ := h.ahead_drained hq₂ (hkept ▸ hk) hx hout
  rw [hlinks, List.mem_cons] at hin
  refine ⟨hin.resolve_left (Ne.symm hne), ?_⟩
  rw [← heq, hlinks]
  change _ = ahead sys ([new] ++ q'.links (sys.pun x)) x
  rw [ahead_append (by simpa using hne.symm), List.countP_singleton, Nat.add_comm]

/-- Whoever `take1` gives, `take` would have given. -/
theorem take_of_take1 (htake : q.take1 sys π = some (some new, q')) :
    q.take sys π = some (new, q') := by
  obtain ⟨q₁, hq₁, heq⟩ := Option.map_eq_some_iff.mp htake
  rw [Queues.take, hq₁, Option.bind_some]
  split at heq
  next => cases heq
  next proc hhead =>
    split at heq
    next => cases heq
    next next hnext =>
      cases heq
      simp [Queues.pop, hhead, hnext]

/-- Where it gives nobody, the interprocessor queue has been moved all the same. -/
theorem drain_of_take1 (htake : q.take1 sys π = some (none, q')) :
    Queues.drain sys π (q.ipq π).length q = some q' := by
  obtain ⟨q₁, hq₁, heq⟩ := Option.map_eq_some_iff.mp htake
  rw [hq₁]
  split at heq
  next =>
    cases heq
    rfl
  next proc hhead =>
    split at heq
    next =>
      cases heq
      rfl
    next next hnext => cases heq

end Queueing

section Turns

/-- Nobody gets into an interprocessor queue who is not put there. -/
theorem Turn.not_mem_ipq (h : Turn sys B R R' Y π c q c' q') (hc : Chained sys q) (hB : ¬B x)
    (hx : x ∉ q.ipq σ) : x ∉ q'.ipq σ := by
  have htaken : ∀ {q q' : Queues N U}, q'.ipq π = [] →
      (∀ σ, σ ≠ π → q'.links σ = q.links σ ∧ q'.ipq σ = q.ipq σ) → x ∉ q.ipq σ →
      x ∉ q'.ipq σ := by
    intro q q' hemp hothers hx
    by_cases hσ : σ = π
    · rw [hσ, hemp]
      simp
    · rw [(hothers σ hσ).2]
      exact hx
  induction h with
  | stays => exact hx
  | joins _ _ hq =>
      rw [(hc.enqueued hq).2.1]
      exact hx
  | @tells proc q q' hb _ hq =>
      rw [(hc.ipq_add hq).2.2.2]
      by_cases hσ : σ = sys.pun proc
      · rw [hσ, Function.update_self, List.mem_append, List.mem_singleton, not_or]
        exact ⟨hσ ▸ hx, fun heq => hB (heq ▸ hb)⟩
      · rw [Function.update_of_ne hσ]
        exact hx
  | preempts _ _ _ hq =>
      rw [(hc.enqueued hq).2.1]
      exact hx
  | draws hrem _ _ ih =>
      obtain ⟨hc₁, -, -, -, rest, hipq, hipq'⟩ := hc.ipq_remove hrem
      apply ih hc₁
      rw [hipq']
      by_cases hσ : σ = π
      · rw [hσ, Function.update_self]
        intro hmem
        exact hx (hσ ▸ hipq ▸ List.mem_cons_of_mem _ hmem)
      · rw [Function.update_of_ne hσ]
        exact hx
  | dispatches _ htake =>
      have ht := hc.take htake
      exact htaken ht.ipq ht.others hx
  | rotates _ htake hq =>
      have ht := hc.take htake
      rw [(ht.chained.enqueued hq).2.1]
      exact htaken ht.ipq ht.others hx
  | yields _ htake hq =>
      have ht := (hc.take1_some htake).1
      rw [(ht.chained.enqueued hq).2.1]
      exact htaken ht.ipq ht.others hx
  | remains _ htake =>
      have hm := (hc.take1_none htake).1
      exact htaken hm.ipq hm.others hx

/-- **A process that is outranked in the ready queue does not get the processor**, unless
it is put somewhere. -/
theorem Turn.excludes (h : Turn sys B R R' Y π c q c' q') (hc : Chained sys q) (hB : ¬B x)
    (hipq : x ∉ q.ipq π) (hne : c ≠ x) {y : Fin N} (hy : y ∈ q.links π)
    (habove : pri_le (sys.pri y) (sys.pri x) = false) : c' ≠ x := by
  have htaken : ∀ {q q' : Queues N U} {new : Fin N}, Taken sys π q new q' → y ∈ q.links π →
      new ≠ x := by
    intro q q' new ht hy heq
    have hle := ht.above y (Or.inl hy)
    rw [heq, habove] at hle
    cases hle
  induction h with
  | stays | joins | tells | remains => exact hne
  | preempts hb => exact fun heq => hB (heq ▸ hb)
  | draws hrem _ _ ih =>
      obtain ⟨hc₁, -, hlinks, -, rest, hipq₀, hipq'⟩ := hc.ipq_remove hrem
      apply ih hc₁ _ (hlinks ▸ hy)
      rw [hipq', Function.update_self]
      exact fun hmem => hipq (hipq₀ ▸ List.mem_cons_of_mem _ hmem)
  | dispatches _ htake => exact htaken (hc.take htake) hy
  | rotates _ htake => exact htaken (hc.take htake) hy
  | yields _ htake => exact htaken (hc.take1_some htake).1 hy

/-- What is left to wait for `x` when another process is taken that may go on. -/
theorem wait_taken (hc : Chained sys q) (htake : q.take sys (sys.pun x) = some (new, q'))
    (hk : q'.kept = true) (hne : new ≠ x) (hx : x ∈ q.links (sys.pun x))
    (hout : x ∉ q.ipq (sys.pun x)) :
    x ∈ q'.links (sys.pun x) ∧ wait sys q' new x ≤ 2 * ahead sys (q.links (sys.pun x)) x ∧
      (pri_le (sys.pri new) (sys.pri x) = true →
        wait sys q' new x < 2 * ahead sys (q.links (sys.pun x)) x) := by
  obtain ⟨hin, heq⟩ := hc.ahead_taken htake hk hne hx hout
  refine ⟨hin, ?_⟩
  unfold wait
  split at heq
  next hle =>
    rw [if_pos hle]
    omega
  next hle =>
    rw [if_neg hle]
    exact ⟨by omega, fun h => absurd h hle⟩

/-- **Nobody gets past a process in the ready queue** who does not outrank it. -/
theorem Turn.passes (h : Turn sys B R R' Y (sys.pun x) c q c' q') (hc : Chained sys q)
    (hk : q'.kept = true) (hpun : sys.pun c = sys.pun x) (hone : OneAbove sys q' c' x) (hB : ¬B x)
    (hx : x ∈ q.links (sys.pun x)) (hout : x ∉ q.ipq (sys.pun x)) (hne : c ≠ x) (hne' : c' ≠ x) :
    x ∈ q'.links (sys.pun x) ∧ wait sys q' c' x ≤ wait sys q c x := by
  -- a process that does not outrank `x` is put behind it
  have henqueue : ∀ {q q' : Queues N U} {proc : Fin N}, Chained sys q →
      q.enqueue0 sys proc = some q' → q'.kept = true → proc ≠ x → x ∈ q.links (sys.pun x) →
      ∀ c, x ∈ q'.links (sys.pun x) ∧ wait sys q' c x = wait sys q c x := by
    intro q q' proc hc hq hk hproc hx c
    obtain ⟨hin, heq⟩ := hc.ahead_enqueued hq hk hproc hx
    refine ⟨hin, ?_⟩
    unfold wait
    rw [heq]
  generalize hπ : sys.pun x = π at h
  induction h with
  | stays => exact ⟨hπ ▸ hx, le_rfl⟩
  | joins hb _ hq =>
      obtain ⟨hin, heq⟩ := henqueue hc hq hk (fun heq => hB (heq ▸ hb)) hx c
      exact ⟨hπ ▸ hin, heq.le⟩
  | tells _ _ hq =>
      have hlinks := (hc.ipq_add hq).2.2.1
      unfold wait
      rw [hlinks]
      exact ⟨hπ ▸ hx, le_rfl⟩
  | @preempts proc q q' hb hproc hgt hq =>
      obtain ⟨hin, heq⟩ := henqueue hc hq hk hne hx proc
      refine ⟨hπ ▸ hin, ?_⟩
      rw [heq]
      unfold wait
      by_cases hle : pri_le (sys.pri c) (sys.pri x) = true
      · rw [if_pos hle]
        split <;> omega
      · -- two processes would outrank `x`
        have hcx : pri_le (sys.pri c) (sys.pri x) = false := eq_false_of_ne_true hle
        have hpx : pri_le (sys.pri proc) (sys.pri x) = false := by
          simp only [pri_le, ge_iff_le, decide_eq_false_iff_not, not_le] at hgt hcx ⊢
          omega
        have hmem := (enqueue0_keeps hq hk).2.1
        rw [hpun] at hmem
        have hsame := hone proc c (Or.inl rfl) (Or.inr hmem) hpx hcx
        rw [hsame, pri_le_refl] at hgt
        cases hgt
  | @draws proc c' q q₁ q' hrem _ _ ih =>
      obtain ⟨hc₁, -, hlinks, -, rest, hipq, hipq'⟩ := hc.ipq_remove hrem
      have hout₁ : x ∉ (Function.update q.ipq π rest) (sys.pun x) := by
        rw [hπ, Function.update_self]
        intro hmem
        rw [hπ, hipq] at hout
        exact hout (List.mem_cons_of_mem _ hmem)
      have hrest := ih hc₁ hk hone (hlinks ▸ hx) (hipq' ▸ hout₁) hne'
      unfold wait at hrest ⊢
      rw [hlinks] at hrest
      exact hrest
  | dispatches _ htake =>
      obtain ⟨hin, hle, -⟩ := wait_taken hc (hπ ▸ htake) hk hne' hx hout
      refine ⟨hπ ▸ hin, hle.trans ?_⟩
      unfold wait
      omega
  | rotates _ htake hq =>
      have ht := hc.take htake
      have hk₁ := (enqueue0_keeps hq hk).1
      obtain ⟨hin, hle, -⟩ := wait_taken hc (hπ ▸ htake) hk₁ hne' hx hout
      obtain ⟨hin', heq⟩ := henqueue ht.chained hq hk hne hin _
      refine ⟨hπ ▸ hin', heq.le.trans (hle.trans ?_)⟩
      unfold wait
      omega
  | yields _ htake hq =>
      have ht := (hc.take1_some htake).1
      have hk₁ := (enqueue0_keeps hq hk).1
      obtain ⟨hin, hle, -⟩ := wait_taken hc (hπ ▸ take_of_take1 htake) hk₁ hne' hx hout
      obtain ⟨hin', heq⟩ := henqueue ht.chained hq hk hne hin _
      refine ⟨hπ ▸ hin', heq.le.trans (hle.trans ?_)⟩
      unfold wait
      omega
  | remains _ htake =>
      obtain ⟨hin, heq⟩ := hc.ahead_drained (hπ ▸ drain_of_take1 htake) hk hx hout
      unfold wait
      rw [heq]
      exact ⟨hπ ▸ hin, le_rfl⟩

end Turns

end Queues

namespace Sched

variable {N U : Nat}

/-- Who is put into a queue by a step, or given the processor without having been in its
ready queue. -/
def Enters (s : Sched N U) : SchedAct N U → Fin N → Prop
  | .build _ child, x => child = x
  | .run p, x => (s.live p).op = .schedule x
  | .freeProcess _ q, x => q = x ∧ s.sched_state q = .waiting
  | .handle π, x =>
      s.Inside π (.freeWaiting x) ∧ s.alt_state x = .waiting ∨
        s.Inside π .interproc ∧ x ∈ s.queues.ipq π
  | _, _ => False

variable {sys : Procs N U} {s t : Sched N U} {act : SchedAct N U} {π : Fin U}
  {p q x : Fin N} {size : Nat → Prop}

section Enters

/-- What a step does to the queues and to the current process of its processor, and for
whose sake. -/
def Turns (sys : Procs N U) (s : Sched N U) (act : SchedAct N U) (t : Sched N U) : Prop :=
  ∃ c, t.current = Function.update s.current (act.site sys) c ∧
    Turn sys (s.Enters act) False True act.Yields (act.site sys) (s.current (act.site sys))
      s.queues c t.queues

theorem turns_stays (hcur : t.current = s.current) (hq : t.queues = s.queues) :
    Turns sys s act t := by
  refine ⟨s.current (act.site sys), hcur.trans (Function.update_eq_self ..).symm, ?_⟩
  rw [hq]
  exact .stays fun h => h.elim

theorem turns_joins {u : Sched N U} (hstep : u.enqueue0 sys q = some t)
    (hcur : u.current = s.current) (hq : u.queues = s.queues) (henters : s.Enters act q)
    (hpun : sys.pun q = act.site sys) : Turns sys s act t := by
  obtain ⟨q', hq', rfl⟩ := Option.map_eq_some_iff.mp hstep
  refine ⟨s.current (act.site sys), hcur.trans (Function.update_eq_self ..).symm, ?_⟩
  exact .joins henters hpun (hq ▸ hq') (Or.inl trivial)

theorem turns_schedules {u : Sched N U} (henters : s.Enters act q)
    (hstep : u.schedule0 sys (act.site sys) q = some t) (hcur : u.current = s.current)
    (hq : u.queues = s.queues) : Turns sys s act t := by
  obtain ⟨c, hc, -, hturn⟩ := schedule0_turn (B := s.Enters act) (R := False) (Q := True)
    (Y := act.Yields) henters (fun h => h) hstep
  rw [hcur, hq] at hturn
  exact ⟨c, hcur ▸ hc, hturn⟩

theorem turns_frees {u : Sched N U} (hstep : u.freeProcess sys q = some t)
    (hcur : u.current = s.current) (hq : u.queues = s.queues)
    (hstate : u.sched_state = s.sched_state)
    (henters : s.sched_state q = .waiting → s.Enters act q) (hpun : sys.pun q = act.site sys) :
    Turns sys s act t := by
  unfold Sched.freeProcess at hstep
  split at hstep
  next hw =>
    rw [hstate] at hw
    exact turns_joins hstep hcur hq (henters hw) hpun
  next =>
    obtain rfl := Option.some.inj hstep
    exact turns_stays hcur hq

theorem Populated.run_turns (h : Populated sys s) (hruns : s.Runs sys p)
    (hstep : s.run sys p = some t) : Turns sys s (.run p) t := by
  cases run_cases hstep with
  | frees | freed | enable | waits | woken | altWaits | altReady | disabling | parWaits | parWoken
  | switched | ending => exact turns_stays rfl rfl
  | schedule hop hschedule => exact turns_schedules hop hschedule rfl rfl
  | relinquish hop hcode hrelinquish =>
      have hidle : sys.idler (sys.pun p) ≠ p := h.not_idler (by simp [hcode])
      obtain ⟨c, hcur, -, hturn⟩ := relinquish_turn h.chained hruns.1 hidle hrelinquish
      exact ⟨c, hcur, hturn⟩
  | finishing hop hcode hfinish =>
      have hidle : sys.idler (sys.pun p) ≠ p := h.not_idler (by simp [hcode])
      obtain ⟨c, hcur, -, hturn⟩ := finish_termination_turn h.chained hruns.1 hidle hfinish
      exact ⟨c, hcur, hturn⟩

theorem Populated.handle_turns (h : Populated sys s) {i : Handler N} (hin : s.Inside π i)
    (hstep : s.handle sys π (s.current π) i = some t) : Turns sys s (.handle π) t := by
  cases i with
  | timeout | user | exit =>
      obtain rfl := Option.some.inj hstep
      exact turns_stays rfl rfl
  | freeWaiting q =>
      simp only [Sched.handle] at hstep
      split at hstep
      next halt =>
        have hpun : sys.pun q = π := ((h.live _).near q hin).trans (h.pun π)
        exact turns_joins hstep rfl rfl (Or.inl ⟨hin, halt⟩) hpun
      next =>
        obtain rfl := Option.some.inj hstep
        exact turns_stays rfl rfl
  | interproc =>
      simp only [Sched.handle] at hstep
      split at hstep
      next =>
        obtain rfl := Option.some.inj hstep
        exact turns_stays rfl rfl
      next proc queues hrem =>
        obtain ⟨-, -, -, -, rest, hipq, -⟩ := h.chained.ipq_remove hrem
        have hmem : proc ∈ s.queues.ipq π := hipq ▸ List.mem_cons_self
        have hY : ¬SchedAct.Yields (.handle π : SchedAct N U) := by
          intro hy
          obtain ⟨_, hy⟩ := hy
          cases hy
        have henters : s.Enters (.handle π) proc := Or.inr ⟨hin, hmem⟩
        obtain ⟨c, hcur, -, hturn⟩ := schedule0_turn (B := s.Enters (.handle π)) (R := False)
          (Q := True) (Y := SchedAct.Yields (.handle π : SchedAct N U)) henters (fun h => h) hstep
        exact ⟨c, hcur, .draws hrem hY hturn⟩
  | preempt again =>
      simp only [Sched.handle] at hstep
      obtain ⟨c, hcur, -, hturn⟩ := schedule_from_interrupt_turn (s := s.handling (s.current π) _)
        h.chained hstep
      exact ⟨c, hcur, hturn⟩

/-- **Every step is a turn**, for the sake of those that it puts somewhere. -/
theorem Populated.turns (h : Populated sys s) (hstep : s.step sys act = some t) :
    Turns sys s act t := by
  cases step_cases hstep with
  | prepare | select | found | par | interrupt => exact turns_stays rfl rfl
  | @build p child kind nc left t hcode hmay hunborn hpri hpun henqueue =>
      unfold Sched.enqueue at henqueue
      split at henqueue
      next hsame =>
        exact turns_joins henqueue rfl rfl rfl hsame
      next =>
        have henters : s.Enters (.build p child) child := rfl
        exact turns_schedules henters henqueue rfl rfl
  | wake hmay hwaits =>
      unfold Sched.wake
      split <;> exact turns_stays rfl rfl
  | free hmay =>
      unfold Sched.free
      split <;> exact turns_stays rfl rfl
  | @yield p t hmay hyield =>
      obtain ⟨c, hcur, -, hturn⟩ := yield_turn (B := s.Enters (.yield p)) (R := False)
        (Q := True) (Y := SchedAct.Yields (.yield p : SchedAct N U)) h.chained hmay.1.1 ⟨p, rfl⟩
        hyield
      exact ⟨c, hcur, hturn⟩
  | sync hmay hparent =>
      unfold par_barr_sync
      dsimp only
      split <;> exact turns_stays rfl rfl
  | run hruns hrun => exact h.run_turns hruns hrun
  | @timeout π q t hpun hwaits hinside hfree =>
      exact turns_frees hfree rfl rfl rfl (fun hw => ⟨rfl, hw⟩) hpun
  | @transmit π q t hpun hwaits hinside hfree =>
      exact turns_frees hfree rfl rfl rfl (fun hw => ⟨rfl, hw⟩) hpun
  | freeAlting hpun hinside =>
      unfold Sched.freeAlting
      split <;> exact turns_stays rfl rfl
  | handle hinside hhandle => exact h.handle_turns hinside hhandle

/-- **Nobody is put into a queue who is in its ready queue.** -/
theorem Ledger.not_enters (h : Ledger size sys s) (hC : s.Orderly sys act)
    (hstep : s.step sys act = some t) (hx : x ∈ s.queues.links (sys.pun x)) :
    ¬s.Enters act x := by
  -- whoever is owed no seat but the one on its processor is not queued
  have hwakes : s.Undisturbed sys x → s.woken x = 0 → (s.live x).code.awaits ≠ none → False := by
    intro hund hw hwait
    have hbal := h.books.balanced x
    have howed := h.books.owed x
    exact not_queued_of_undisturbed hund hwait (by omega) (Or.inl hx)
  intro henters
  cases act with
  | build p child =>
      obtain rfl : child = x := henters
      have hunborn := (built_unborn hstep).1
      have hbal := h.books.balanced child
      rw [woken_none (by rw [hunborn]; rfl), hunborn] at hbal
      have hqueued : Queued sys s.queues child := Or.inl hx
      simp [seats, hqueued, Code.base] at hbal
  | run p =>
      obtain ⟨hw, -, hseats⟩ := h.called henters
      exact not_queued_of_undisturbed (hC x henters) (awaits_of_woken hw) hseats (Or.inl hx)
  | freeProcess π q =>
      obtain ⟨rfl, hsched⟩ : q = x ∧ s.sched_state q = .waiting := henters
      have hwaits : (s.live q).code.waits = true := by
        cases step_cases hstep <;> assumption
      obtain ⟨hw, hw', -⟩ := sched_wakes (h.books.state q) hwaits hsched
      exact hwakes (hC hsched) hw (awaits_of_woken (s := s.ready q) hw')
  | handle π =>
      obtain ⟨hin, halt⟩ | ⟨hin, hmem⟩ := henters
      · obtain ⟨hw, hw', -⟩ := alt_wakes (h.books.state x) halt
        exact hwakes (hC.1 x hin halt) hw (awaits_of_woken (s := s.altReady x) hw')
      · have hπ : sys.pun x = π := h.sound.lined.pun_ipq π x hmem
        exact h.sound.lined.apart _ x hx (hπ ▸ hmem)
  | _ => exact henters

end Enters

section Bypass

/-- A process that yields hands the processor over to another one. -/
theorem Ledger.yield_passes (h : Ledger size sys s) (hpun : sys.pun p = sys.pun x)
    (hqueued : ¬Queued sys s.queues p) (hidler : Queued sys s.queues (sys.idler (sys.pun x)))
    (hx : x ∈ s.queues.links (sys.pun x)) (hidle : sys.idler (sys.pun x) ≠ x)
    (hone : OneAbove sys t.queues (t.current (sys.pun x)) x) (hne : p ≠ x)
    (hk : t.queues.kept = true) (hne' : t.current (sys.pun x) ≠ x)
    (hstep : s.yield sys p = some t) :
    wait sys t.queues (t.current (sys.pun x)) x < wait sys s.queues p x := by
  have hc := h.sound.lined.toChained
  have hout := h.sound.lined.apart _ x hx
  unfold Sched.yield at hstep
  rw [hpun] at hstep
  obtain ⟨⟨new, q₁⟩, htake, hstep⟩ := Option.bind_eq_some_iff.mp hstep
  cases new with
  | none =>
      -- the idle process and `x` are two
      obtain rfl := Option.some.inj hstep
      obtain ⟨hm, hlen⟩ := hc.take1_none htake
      have hall := (hm.keeps hk).2
      unfold Queued at hidler
      rw [sys.pun_idler] at hidler
      have hmem := hall _ hidler
      have hmem' := hall x (Or.inl hx)
      obtain ⟨y, hlinks⟩ := List.length_eq_one_iff.mp
        (Nat.le_antisymm hlen (List.length_pos_of_mem hmem))
      rw [hlinks, List.mem_singleton] at hmem hmem'
      exact absurd (hmem.trans hmem'.symm) hidle
  | some new =>
      have ht := (hc.take1_some htake).1
      simp only [set_current, ht.pun, if_true, Option.bind_eq_bind, Option.bind_some,
        Option.pure_def] at hstep
      obtain ⟨s₁, hs₁, hstep⟩ := Option.bind_eq_some_iff.mp hstep
      obtain ⟨q', hq', rfl⟩ := Option.map_eq_some_iff.mp hs₁
      obtain rfl := Option.some.inj hstep
      have hcur : Function.update s.current (sys.pun x) new (sys.pun x) = new :=
        Function.update_self ..
      change Function.update s.current (sys.pun x) new (sys.pun x) ≠ x at hne'
      change OneAbove sys q' (Function.update s.current (sys.pun x) new (sys.pun x)) x at hone
      change wait sys q' (Function.update s.current (sys.pun x) new (sys.pun x)) x < _
      rw [hcur] at hne' hone ⊢
      obtain ⟨hk₁, hmem, -⟩ := enqueue0_keeps hq' hk
      obtain ⟨hin, hle, hlt⟩ := wait_taken hc (take_of_take1 htake) hk₁ hne' hx hout
      obtain ⟨-, heq⟩ := ht.chained.ahead_enqueued hq' hk hne hin
      unfold wait at hle hlt ⊢
      rw [heq]
      by_cases hpx : pri_le (sys.pri p) (sys.pri x) = true
      · rw [if_pos hpx]
        omega
      · rw [if_neg hpx]
        apply hlt
        -- of the two processes only the one that yields outranks `x`
        by_contra hnew
        have hsame := hone p new (Or.inr (hpun ▸ hmem)) (Or.inl rfl) (eq_false_of_ne_true hpx)
          (eq_false_of_ne_true hnew)
        have hat := ht.came new (Or.inl rfl)
        rw [← hsame, ← hpun] at hat
        exact hqueued hat

end Bypass

end Sched

end Cxp
