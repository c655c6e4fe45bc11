import Cxp.LinkedChain
import Mathlib.Data.Fintype.Card

/-!
# Timeout descriptors and their queues (`timer.c`)

Each processor has a queue of timeout descriptors in time order, linked
through the descriptors themselves.  A descriptor lies on the stack of
`After`, or comes from the allocator's list for timeout descriptors.

* `insertInQueue` puts a descriptor behind those of equal or earlier time.
* `removeFromQueue` looks for a descriptor of a given time and process.  What
  it **returns** is where its search stopped: the descriptor it has unlinked,
  or else the first later one, which stays where it is
  (`removeFromQueue_some`).
* Each operation changes one queue and nothing else of the descriptors
  (`Requeued`).
-/

namespace Cxp

open LinkedChain

/-- What a timeout descriptor is for. -/
inductive TimeoutType
  | after
  | alting
  deriving DecidableEq

/-- A timeout descriptor of a system of `N` processes: the `n`-th one carved
by the allocator, or the one in the frame of a process's `After`. -/
inductive DescRef (N : Nat)
  | heap (n : Nat)
  | stack (proc : Fin N)
  deriving DecidableEq

/-- The fields of all timeout descriptors, the queues of the `U` processors,
and what the allocator has for timeout descriptors: its free list, linked
through `link`, and the number of descriptors carved so far. -/
structure Timers (N U : Nat) where
  time : DescRef N → Int
  proc : DescRef N → Fin N
  next : DescRef N → Option (DescRef N)
  type : DescRef N → TimeoutType
  head : Fin U → Option (DescRef N)
  procmemlist : Option (DescRef N)
  link : DescRef N → Option (DescRef N)
  carved : Nat

namespace Timers

variable {N U : Nat}

/-- The queues after `timer_init`, with nothing carved yet; the fields of the
descriptors are then whatever the memory holds. -/
def timer_init (proc : Fin N) (type : TimeoutType) : Timers N U where
  time := fun _ => 0
  proc := fun _ => proc
  next := fun _ => none
  type := fun _ => type
  head := fun _ => none
  procmemlist := none
  link := fun _ => none
  carved := 0

/-- More tests than a search of any queue of distinct descriptors makes. -/
def fuel (tm : Timers N U) : Nat := tm.carved + N + 1

/-- `allocate_mem(TMO_INDEX)`: the first free descriptor, or a new one. -/
def allocate_mem (tm : Timers N U) : DescRef N × Timers N U :=
  match tm.procmemlist with
  | some block => (block, { tm with procmemlist := tm.link block })
  | none => (.heap tm.carved, { tm with carved := tm.carved + 1 })

/-- `release_mem(TMO_INDEX, desc)`.  The link of a free block shares its
storage with `time`, which nothing reads while the block is not queued. -/
def release_mem (tm : Timers N U) (desc : DescRef N) : Timers N U :=
  { tm with
    link := Function.update tm.link desc tm.procmemlist
    procmemlist := some desc }

/-- Fill in a descriptor. -/
def fill (tm : Timers N U) (desc : DescRef N) (time : Int) (proc : Fin N)
    (type : TimeoutType) : Timers N U :=
  { tm with
    time := Function.update tm.time desc time
    proc := Function.update tm.proc desc proc
    type := Function.update tm.type desc type }

/-- The part of `insertInQueue` that links `desc` in, in time order, and
whether it has become the first entry (then the timer is set anew).  `none`
would be a search that does not end. -/
def insertInQueue (tm : Timers N U) (π : Fin U) (desc : DescRef N) :
    Option (Timers N U × Bool) :=
  (walk tm.next (fun curr => tm.time curr ≤ tm.time desc) tm.fuel none
      (tm.head π)).map fun r =>
    let linked := splice tm.next (tm.head π) r.1 desc r.2
    ({ tm with
        next := linked.1
        head := Function.update tm.head π linked.2 }, r.1.isNone)

/-- The two searches of `removeFromQueue`: past the earlier entries, then
past the entries of the same time and another process. -/
def findInQueue (tm : Timers N U) (π : Fin U) (time : Int) (proc : Fin N) :
    Option (Option (DescRef N) × Option (DescRef N)) :=
  (walk tm.next (fun curr => tm.time curr < time) tm.fuel none
      (tm.head π)).bind fun r =>
    walk tm.next (fun curr => tm.time curr = time ∧ tm.proc curr ≠ proc)
      tm.fuel r.1 r.2

/-- Remove the entry of the given time and process, if the search has come to
it.  The result is the search's `curr` in either case. -/
def removeFromQueue (tm : Timers N U) (π : Fin U) (time : Int)
    (proc : Fin N) : Option (Timers N U × Option (DescRef N)) :=
  (tm.findInQueue π time proc).map fun r =>
    match r.2 with
    | none => (tm, none)
    | some curr =>
        if tm.time curr = time ∧ tm.proc curr = proc then
          ({ tm with
              next := match r.1 with
                | some prev => Function.update tm.next prev (tm.next curr)
                | none => tm.next
              head := if some curr = tm.head π then
                  Function.update tm.head π (tm.next curr)
                else tm.head }, some curr)
        else (tm, some curr)

/-- Remove the head entry. -/
def removeHead (tm : Timers N U) (π : Fin U) (desc : DescRef N) :
    Timers N U :=
  { tm with head := Function.update tm.head π (tm.next desc) }

/-- `tm'` differs from `tm` in queue `π` only, which was `q` and is `q'`. -/
structure Requeued (tm tm' : Timers N U) (π : Fin U) (q q' : List (DescRef N)) :
    Prop where
  chain : Chain tm'.next (tm'.head π) q'
  heads : ∀ ρ, ρ ≠ π → tm'.head ρ = tm.head ρ
  nexts : ∀ x, x ∉ q → x ∉ q' → tm'.next x = tm.next x
  time_eq : tm'.time = tm.time
  proc_eq : tm'.proc = tm.proc
  type_eq : tm'.type = tm.type
  free_eq : tm'.procmemlist = tm.procmemlist
  link_eq : tm'.link = tm.link
  carved_eq : tm'.carved = tm.carved

/-- The queue stays as it is. -/
theorem Requeued.refl {tm : Timers N U} {π : Fin U} {q : List (DescRef N)}
    (hc : Chain tm.next (tm.head π) q) : Requeued tm tm π q q :=
  ⟨hc, fun _ _ => rfl, fun _ _ _ => rfl, rfl, rfl, rfl, rfl, rfl, rfl⟩

/-- Any other queue is as it was. -/
theorem Requeued.chain_other {tm tm' : Timers N U} {π ρ : Fin U}
    {q q' r : List (DescRef N)} (h : Requeued tm tm' π q q') (hne : ρ ≠ π)
    (hr : Chain tm.next (tm.head ρ) r) (hq : ∀ x ∈ r, x ∉ q)
    (hq' : ∀ x ∈ r, x ∉ q') : Chain tm'.next (tm'.head ρ) r := by
  rw [h.heads ρ hne]
  exact hr.congr fun x hx => h.nexts x (hq x hx) (hq' x hx)

/-- A queue of distinct descriptors is shorter than `fuel`. -/
theorem length_lt_fuel {tm : Timers N U} {q : List (DescRef N)}
    (hnd : q.Nodup) (hvalid : ∀ n, DescRef.heap n ∈ q → n < tm.carved) :
    q.length < tm.fuel := by
  let code : DescRef N → Nat
    | .heap n => n
    | .stack p => tm.carved + p.val
  have hinj : ∀ x ∈ q, ∀ y ∈ q, code x = code y → x = y := by
    intro x hx y hy hxy
    cases x with
    | heap n =>
        cases y with
        | heap m => exact congrArg _ hxy
        | stack p =>
            have := hvalid n hx
            simp only [code] at hxy
            omega
    | stack p =>
        cases y with
        | heap m =>
            have := hvalid m hy
            simp only [code] at hxy
            omega
        | stack r =>
            simp only [code] at hxy
            exact congrArg _ (Fin.ext (by omega))
  have hbound : ∀ k ∈ q.map code, k < tm.carved + N := by
    intro k hk
    obtain ⟨x, hx, rfl⟩ := List.mem_map.mp hk
    cases x with
    | heap n =>
        have := hvalid n hx
        simp only [code]
        omega
    | stack p =>
        have := p.isLt
        simp only [code]
        omega
  have hmap : (q.map code).Nodup := hnd.map_on hinj
  have hsub : (q.map code).toFinset ⊆ Finset.range (tm.carved + N) := by
    intro k hk
    exact Finset.mem_range.mpr (hbound k (List.mem_toFinset.mp hk))
  have hcard := Finset.card_le_card hsub
  rw [List.toFinset_card_of_nodup hmap, Finset.card_range,
    List.length_map] at hcard
  unfold fuel
  omega

section Operations

variable {tm : Timers N U} {π : Fin U} {q : List (DescRef N)}

/-- The entries that a descriptor of the given time goes behind. -/
def upTo (tm : Timers N U) (time : Int) (q : List (DescRef N)) :
    List (DescRef N) :=
  q.takeWhile fun curr => tm.time curr ≤ time

/-- The entries that it goes in front of. -/
def later (tm : Timers N U) (time : Int) (q : List (DescRef N)) :
    List (DescRef N) :=
  q.dropWhile fun curr => tm.time curr ≤ time

theorem upTo_append_later (tm : Timers N U) (time : Int)
    (q : List (DescRef N)) : tm.upTo time q ++ tm.later time q = q :=
  List.takeWhile_append_dropWhile

/-- **`insertInQueue`** on a queue that does not hold the descriptor yet. -/
theorem insertInQueue_spec (hc : Chain tm.next (tm.head π) q)
    (hfuel : q.length < tm.fuel) {desc : DescRef N} (hnew : desc ∉ q)
    {tm' : Timers N U} {first : Bool}
    (h : tm.insertInQueue π desc = some (tm', first)) :
    Requeued tm tm' π q
        (tm.upTo (tm.time desc) q ++ desc :: tm.later (tm.time desc) q) ∧
      first = (tm.upTo (tm.time desc) q).isEmpty := by
  have hq := tm.upTo_append_later (tm.time desc) q
  have hwalk := walk_eq (fun curr => tm.time curr ≤ tm.time desc) none hc hfuel
  rw [Option.or_none] at hwalk
  change walk _ _ _ _ _ =
    some ((tm.upTo (tm.time desc) q).getLast?, (tm.later (tm.time desc) q).head?)
    at hwalk
  simp only [insertInQueue, hwalk, Option.map_some, Option.some.injEq,
    Prod.mk.injEq] at h
  obtain ⟨rfl, rfl⟩ := h
  have hup : desc ∉ tm.upTo (tm.time desc) q := by
    intro hmem
    exact hnew (hq ▸ List.mem_append_left _ hmem)
  have hlater : desc ∉ tm.later (tm.time desc) q := by
    intro hmem
    exact hnew (hq ▸ List.mem_append_right _ hmem)
  have hc' : Chain tm.next (tm.head π)
      (tm.upTo (tm.time desc) q ++ tm.later (tm.time desc) q) := hq.symm ▸ hc
  refine ⟨⟨?_, ?_, ?_, rfl, rfl, rfl, rfl, rfl, rfl⟩, ?_⟩
  · simpa using hc'.splice hup hlater
  · intro ρ hρ
    exact Function.update_of_ne hρ _ _
  · intro x hx hx'
    refine splice_next_of_ne ?_ ?_
    · rintro rfl
      exact hx' (by simp)
    · intro hlast
      exact hx (hq ▸ List.mem_append_left _ (List.mem_of_getLast? hlast.symm))
  · cases tm.upTo (tm.time desc) q with
    | nil => rfl
    | cons a as => simp [List.getLast?_cons]

theorem insertInQueue_type {desc : DescRef N} {r : Timers N U × Bool}
    (h : tm.insertInQueue π desc = some r) : r.1.type = tm.type := by
  obtain ⟨w, _, rfl⟩ := Option.map_eq_some_iff.mp h
  rfl

theorem removeFromQueue_type {time : Int} {proc : Fin N}
    {r : Timers N U × Option (DescRef N)}
    (h : tm.removeFromQueue π time proc = some r) : r.1.type = tm.type := by
  obtain ⟨w, _, rfl⟩ := Option.map_eq_some_iff.mp h
  cases w.2 with
  | none => rfl
  | some curr =>
      dsimp only
      split <;> rfl

/-- The entries that the searches of `removeFromQueue` pass by. -/
def passed (tm : Timers N U) (time : Int) (proc : Fin N)
    (q : List (DescRef N)) : List (DescRef N) :=
  (q.takeWhile fun c => tm.time c < time) ++
    (q.dropWhile fun c => tm.time c < time).takeWhile
      fun c => tm.time c = time ∧ tm.proc c ≠ proc

/-- The entries from where the searches of `removeFromQueue` stop. -/
def remaining (tm : Timers N U) (time : Int) (proc : Fin N)
    (q : List (DescRef N)) : List (DescRef N) :=
  (q.dropWhile fun c => tm.time c < time).dropWhile
    fun c => tm.time c = time ∧ tm.proc c ≠ proc

theorem passed_append_remaining (tm : Timers N U) (time : Int) (proc : Fin N)
    (q : List (DescRef N)) :
    tm.passed time proc q ++ tm.remaining time proc q = q := by
  simp [passed, remaining, List.append_assoc,
    List.takeWhile_append_dropWhile]

/-- A chain from the middle of a chain on. -/
private theorem chain_drop {next : DescRef N → Option (DescRef N)}
    {h : Option (DescRef N)} {xs ys : List (DescRef N)}
    (hc : Chain next h (xs ++ ys)) : Chain next ys.head? ys ∨ xs = [] := by
  rcases List.eq_nil_or_concat xs with rfl | ⟨init, a, rfl⟩
  · exact Or.inr rfl
  · refine Or.inl ?_
    cases ys with
    | nil => rfl
    | cons y ys => exact ⟨rfl, (hc.suffix (x := y)).2⟩

theorem findInQueue_eq (hc : Chain tm.next (tm.head π) q)
    (hfuel : q.length < tm.fuel) (time : Int) (proc : Fin N) :
    tm.findInQueue π time proc =
      some ((tm.passed time proc q).getLast?,
        (tm.remaining time proc q).head?) := by
  have hfirst := walk_eq (fun c => tm.time c < time) none hc hfuel
  have hsplit : (q.takeWhile fun c => tm.time c < time) ++
      (q.dropWhile fun c => tm.time c < time) = q :=
    List.takeWhile_append_dropWhile
  have hrest : Chain tm.next (q.dropWhile fun c => tm.time c < time).head?
      (q.dropWhile fun c => tm.time c < time) := by
    rcases chain_drop (hsplit.symm ▸ hc) with h | h
    · exact h
    · rw [h, List.nil_append] at hsplit
      rw [hsplit]
      cases q with
      | nil => rfl
      | cons x xs => exact ⟨rfl, hc.2⟩
  have hlen : (q.dropWhile fun c => tm.time c < time).length < tm.fuel :=
    Nat.lt_of_le_of_lt (List.length_dropWhile_le _ _) hfuel
  have hsecond := walk_eq (fun c => tm.time c = time ∧ tm.proc c ≠ proc)
    (q.takeWhile fun c => tm.time c < time).getLast? hrest hlen
  rw [Option.or_none] at hfirst
  rw [findInQueue, hfirst, Option.bind_some, hsecond]
  simp [passed, remaining, List.getLast?_append]

/-- **`removeFromQueue`.**  It returns nothing when its searches come to the
end; an entry of the given time and process, which it unlinks, when they come
to one; and otherwise the entry they came to, leaving every queue as it was. -/
theorem removeFromQueue_some (hc : Chain tm.next (tm.head π) q)
    (hfuel : q.length < tm.fuel) {time : Int} {proc : Fin N}
    {tm' : Timers N U} {found : Option (DescRef N)}
    (h : tm.removeFromQueue π time proc = some (tm', found)) :
    (tm.remaining time proc q = [] ∧ found = none ∧ tm' = tm) ∨
    ∃ c rest, tm.remaining time proc q = c :: rest ∧ found = some c ∧
      ((tm.time c = time ∧ tm.proc c = proc ∧
          Requeued tm tm' π q (tm.passed time proc q ++ rest)) ∨
        (¬ (tm.time c = time ∧ tm.proc c = proc) ∧ tm' = tm)) := by
  have hq := tm.passed_append_remaining time proc q
  rw [removeFromQueue, findInQueue_eq hc hfuel, Option.map_some,
    Option.some.injEq] at h
  cases hrem : tm.remaining time proc q with
  | nil =>
      rw [hrem] at h
      simp only [List.head?_nil, Prod.mk.injEq] at h
      exact Or.inl ⟨rfl, h.2.symm, h.1.symm⟩
  | cons c rest =>
      refine Or.inr ⟨c, rest, rfl, ?_⟩
      rw [hrem] at h hq
      simp only [List.head?_cons] at h
      by_cases hmatch : tm.time c = time ∧ tm.proc c = proc
      · rw [if_pos hmatch] at h
        obtain ⟨rfl, rfl⟩ := Prod.mk.inj h
        refine ⟨rfl, Or.inl ⟨hmatch.1, hmatch.2, ?_, ?_, ?_, rfl, rfl, rfl,
          rfl, rfl, rfl⟩⟩
        · have hc' : Chain tm.next (tm.head π)
              (tm.passed time proc q ++ c :: rest) := hq.symm ▸ hc
          have hnew := hc'.unlink
          have hnd := hc'.nodup
          rcases List.eq_nil_or_concat (tm.passed time proc q)
            with hnil | ⟨init, a, hcat⟩
          · rw [hnil] at hc' hnew ⊢
            simpa [LinkedChain.unlink, hc'.1] using hnew
          · rw [hcat] at hc' hnew hnd ⊢
            have hne : some c ≠ tm.head π := by
              intro hhead
              cases init with
              | nil =>
                  simp only [List.concat_eq_append, List.nil_append,
                    List.cons_append, chain_cons] at hc' hnd
                  rw [hc'.1] at hhead
                  simp_all
              | cons b init =>
                  simp only [List.concat_eq_append, List.cons_append,
                    chain_cons] at hc' hnd
                  rw [hc'.1] at hhead
                  simp_all
            simpa [LinkedChain.unlink, hne] using hnew
        · intro ρ hρ
          by_cases hhead : some c = tm.head π
          · simp [hhead, hρ]
          · simp [hhead]
        · intro x hx _
          cases hlast : (tm.passed time proc q).getLast? with
          | none => rfl
          | some a =>
              have hmem := List.mem_of_getLast? hlast
              have hxa : x ≠ a := by
                rintro rfl
                exact hx (hq ▸ List.mem_append_left _ hmem)
              exact Function.update_of_ne hxa _ _
      · rw [if_neg hmatch] at h
        obtain ⟨rfl, rfl⟩ := Prod.mk.inj h
        exact ⟨rfl, Or.inr ⟨hmatch, rfl⟩⟩

/-- `removeHead` on a queue whose first entry is known. -/
theorem removeHead_requeued {desc : DescRef N} {rest : List (DescRef N)}
    (hc : Chain tm.next (tm.head π) (desc :: rest)) :
    Requeued tm (tm.removeHead π desc) π (desc :: rest) rest := by
  refine ⟨?_, ?_, fun _ _ _ => rfl, rfl, rfl, rfl, rfl, rfl, rfl⟩
  · simpa [removeHead] using hc.2
  · intro ρ hρ
    exact Function.update_of_ne hρ _ _

end Operations

section Order

variable {tm : Timers N U} {q : List (DescRef N)} {time : Int} {proc : Fin N}

/-- A queue in time order. -/
def Ordered (tm : Timers N U) (q : List (DescRef N)) : Prop :=
  q.Pairwise fun a b => tm.time a ≤ tm.time b

theorem mem_upTo_le {x : DescRef N} (hx : x ∈ tm.upTo time q) :
    tm.time x ≤ time := by
  simpa using List.mem_takeWhile_imp hx

/-- What a search over an ordered queue has not passed is later. -/
theorem Ordered.lt_of_mem_later (h : tm.Ordered q) {x : DescRef N}
    (hx : x ∈ tm.later time q) : time < tm.time x := by
  induction q with
  | nil => simp [later] at hx
  | cons a as ih =>
      obtain ⟨ha, has⟩ := List.pairwise_cons.mp h
      by_cases hle : tm.time a ≤ time
      · exact ih has (by simpa [later, hle] using hx)
      · have hx' : x ∈ a :: as := by simpa [later, hle] using hx
        rcases List.mem_cons.mp hx' with rfl | hmem
        · omega
        · have := ha x hmem
          omega

/-- Insertion keeps the time order. -/
theorem Ordered.insert (h : tm.Ordered q) (desc : DescRef N) :
    tm.Ordered
      (tm.upTo (tm.time desc) q ++ desc :: tm.later (tm.time desc) q) := by
  have hsplit : tm.Ordered
      (tm.upTo (tm.time desc) q ++ tm.later (tm.time desc) q) :=
    (tm.upTo_append_later (tm.time desc) q).symm ▸ h
  obtain ⟨hup, hlater, hcross⟩ := List.pairwise_append.mp hsplit
  refine List.pairwise_append.mpr ⟨hup, ?_, ?_⟩
  · refine List.pairwise_cons.mpr ⟨fun x hx => ?_, hlater⟩
    have := h.lt_of_mem_later hx
    omega
  · intro a ha b hb
    rcases List.mem_cons.mp hb with rfl | hb
    · exact mem_upTo_le ha
    · exact hcross a ha b hb

/-- An entry is found, or there is no later entry for the search to stop at. -/
def Finds (tm : Timers N U) (time : Int) (proc : Fin N)
    (q : List (DescRef N)) : Prop :=
  (∃ d ∈ q, tm.time d = time ∧ tm.proc d = proc) ∨
    ∀ d ∈ q, tm.time d ≤ time

theorem mem_passed {x : DescRef N} (hx : x ∈ tm.passed time proc q) :
    tm.time x < time ∨ (tm.time x = time ∧ tm.proc x ≠ proc) := by
  rcases List.mem_append.mp hx with hx | hx
  · exact Or.inl (by simpa using List.mem_takeWhile_imp hx)
  · exact Or.inr (by simpa using List.mem_takeWhile_imp hx)

theorem Ordered.le_of_mem_remaining (h : tm.Ordered q) {x : DescRef N}
    (hx : x ∈ tm.remaining time proc q) : time ≤ tm.time x := by
  have hx' : x ∈ tm.later (time - 1) q := by
    have hmem := (List.dropWhile_sublist _).subset hx
    simpa [later, Int.le_sub_one_iff] using hmem
  have := h.lt_of_mem_later hx'
  omega

/-- The entry at which the searches stop, when it is not the one looked for,
is a later one. -/
theorem Ordered.lt_of_stop (h : tm.Ordered q) {c : DescRef N}
    {rest : List (DescRef N)} (hrem : tm.remaining time proc q = c :: rest)
    (hmatch : ¬ (tm.time c = time ∧ tm.proc c = proc)) : time < tm.time c := by
  have hc : c ∈ tm.remaining time proc q := by simp [hrem]
  have hle := h.le_of_mem_remaining hc
  have hstop : ¬ (tm.time c = time ∧ tm.proc c ≠ proc) := by
    have hhead := List.head?_dropWhile_not
      (fun d => decide (tm.time d = time ∧ tm.proc d ≠ proc))
      (q.dropWhile fun d => tm.time d < time)
    unfold remaining at hrem
    rw [hrem] at hhead
    simpa using hhead
  by_contra hlt
  have heq : tm.time c = time := by omega
  by_cases hproc : tm.proc c = proc
  · exact hmatch ⟨heq, hproc⟩
  · exact hstop ⟨heq, hproc⟩

/-- On an ordered queue the searches stop at an entry that is not the one
looked for exactly when `Finds` fails. -/
theorem Ordered.finds_iff (h : tm.Ordered q) :
    tm.Finds time proc q ↔
      tm.remaining time proc q = [] ∨
        ∃ c rest, tm.remaining time proc q = c :: rest ∧
          tm.time c = time ∧ tm.proc c = proc := by
  have hq := tm.passed_append_remaining time proc q
  constructor
  · intro hfinds
    cases hrem : tm.remaining time proc q with
    | nil => exact Or.inl rfl
    | cons c rest =>
        refine Or.inr ⟨c, rest, rfl, ?_⟩
        by_contra hmatch
        have hlt := h.lt_of_stop hrem hmatch
        have hrest : ∀ d ∈ tm.remaining time proc q, time < tm.time d := by
          have hord : tm.Ordered (tm.remaining time proc q) :=
            (List.pairwise_append.mp (hq.symm ▸ h)).2.1
          rw [hrem] at hord ⊢
          intro d hd
          rcases List.mem_cons.mp hd with rfl | hd
          · exact hlt
          · have := (List.pairwise_cons.mp hord).1 d hd
            omega
        rcases hfinds with ⟨d, hd, hdt, hdp⟩ | hall
        · rcases List.mem_append.mp (hq.symm ▸ hd) with hd | hd
          · rcases mem_passed hd with hlt' | ⟨_, hne⟩
            · omega
            · exact hne hdp
          · have := hrest d hd
            omega
        · have hc : c ∈ q := hq ▸ List.mem_append_right _ (by simp [hrem])
          have := hall c hc
          omega
  · rintro (hnil | ⟨c, rest, hrem, ht, hp⟩)
    · refine Or.inr fun d hd => ?_
      rw [hnil, List.append_nil] at hq
      rcases mem_passed (hq.symm ▸ hd) with hlt | ⟨heq, _⟩ <;> omega
    · exact Or.inl ⟨c, hq ▸ List.mem_append_right _ (by simp [hrem]), ht, hp⟩

end Order

end Timers

end Cxp
