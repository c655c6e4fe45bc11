import Mathlib.Data.List.Nodup
import Mathlib.Data.List.TakeWhile
import Mathlib.Logic.Function.Basic

/-!
# Singly linked chains threaded through records

A queue whose links live in the queued records themselves is a head pointer
and a map `next` from records to their successors.  `Chain next h xs` says
that following `next` from `h` visits exactly `xs` and then ends.

* A chain never visits a record twice (`Chain.nodup`), and a head determines
  its chain (`Chain.unique`).
* `walk` is the search loop with a trailing pointer; on a chain it stops at
  the first record its test rejects (`walk_eq`).
* `splice` links a record in between two neighbours and `unlink` takes one
  out.  On a chain they insert and erase (`Chain.splice`, `Chain.unlink`),
  provided that a spliced record is **not** in the chain already.
-/

namespace LinkedChain

variable {α : Type*}

/-- Following `next` from `h` visits exactly the listed records. -/
def Chain (next : α → Option α) : Option α → List α → Prop
  | h, [] => h = none
  | h, x :: xs => h = some x ∧ Chain next (next x) xs

@[simp] theorem chain_nil {next : α → Option α} {h : Option α} :
    Chain next h [] ↔ h = none := Iff.rfl

@[simp] theorem chain_cons {next : α → Option α} {h : Option α} {x : α}
    {xs : List α} :
    Chain next h (x :: xs) ↔ h = some x ∧ Chain next (next x) xs := Iff.rfl

/-- A head pointer determines its chain. -/
theorem Chain.unique {next : α → Option α} {h : Option α} {xs ys : List α}
    (hx : Chain next h xs) (hy : Chain next h ys) : xs = ys := by
  induction xs generalizing h ys with
  | nil =>
      cases ys with
      | nil => rfl
      | cons y ys =>
          rw [chain_nil.mp hx] at hy
          cases hy.1
  | cons x xs ih =>
      cases ys with
      | nil =>
          rw [chain_nil.mp hy] at hx
          cases hx.1
      | cons y ys =>
          obtain rfl : x = y := Option.some.inj (hx.1.symm.trans hy.1)
          rw [ih hx.2 hy.2]

/-- The part of a chain from one of its records on is that record's chain. -/
theorem Chain.suffix {next : α → Option α} {h : Option α} {xs ys : List α}
    {x : α} (hc : Chain next h (xs ++ x :: ys)) :
    Chain next (some x) (x :: ys) := by
  induction xs generalizing h with
  | nil => exact ⟨rfl, hc.2⟩
  | cons a xs ih => exact ih hc.2

/-- A chain visits no record twice: it would never end. -/
theorem Chain.nodup {next : α → Option α} {h : Option α} {xs : List α}
    (hc : Chain next h xs) : xs.Nodup := by
  induction xs generalizing h with
  | nil => exact List.nodup_nil
  | cons x xs ih =>
      refine List.nodup_cons.mpr ⟨?_, ih hc.2⟩
      intro hmem
      obtain ⟨as, bs, rfl⟩ := List.append_of_mem hmem
      have hself : x :: bs = x :: (as ++ x :: bs) :=
        hc.2.suffix.unique ⟨rfl, hc.2⟩
      have hlen := congrArg List.length hself
      simp at hlen
      omega

/-- A chain depends only on the links of its own records. -/
theorem Chain.congr {next next' : α → Option α} {h : Option α} {xs : List α}
    (hc : Chain next h xs) (hsame : ∀ x ∈ xs, next' x = next x) :
    Chain next' h xs := by
  induction xs generalizing h with
  | nil => exact hc
  | cons x xs ih =>
      refine ⟨hc.1, ?_⟩
      rw [hsame x List.mem_cons_self]
      exact ih hc.2 fun y hy => hsame y (List.mem_cons_of_mem x hy)

section Follow

/-- The records met by following at most `n` links from `h`. -/
def follow (next : α → Option α) : Nat → Option α → List α
  | 0, _ => []
  | _ + 1, none => []
  | n + 1, some x => x :: follow next n (next x)

/-- On a chain of at most `n` records, these are its records. -/
theorem Chain.follow_eq {next : α → Option α} {h : Option α} {xs : List α}
    {n : Nat} (hc : Chain next h xs) (hn : xs.length ≤ n) :
    follow next n h = xs := by
  induction xs generalizing h n with
  | nil =>
      rw [chain_nil.mp hc]
      cases n <;> rfl
  | cons x xs ih =>
      rw [hc.1]
      cases n with
      | zero => simp at hn
      | succ n => exact congrArg (x :: ·) (ih hc.2 (by simpa using hn))

end Follow

section Search

/-- `while (curr != NULL && go curr) { prev = curr; curr = next curr; }`:
the final `prev` and `curr`, or `none` when the loop is still going after
`fuel` tests. -/
def walk (next : α → Option α) (go : α → Bool) :
    Nat → Option α → Option α → Option (Option α × Option α)
  | 0, _, _ => none
  | _ + 1, prev, none => some (prev, none)
  | fuel + 1, prev, some c =>
      if go c then walk next go fuel (some c) (next c)
      else some (prev, some c)

/-- On a chain the search ends, with `curr` at the first record rejected by
the test and `prev` at the record before it. -/
theorem walk_eq {next : α → Option α} {fuel : Nat} {h : Option α}
    {xs : List α} (go : α → Bool) (prev : Option α)
    (hc : Chain next h xs) (hfuel : xs.length < fuel) :
    walk next go fuel prev h =
      some ((xs.takeWhile go).getLast?.or prev, (xs.dropWhile go).head?) := by
  induction xs generalizing h prev fuel with
  | nil =>
      obtain ⟨fuel, rfl⟩ : ∃ m, fuel = m + 1 := ⟨fuel - 1, by simp at hfuel; omega⟩
      rw [chain_nil.mp hc]
      simp [walk]
  | cons x xs ih =>
      obtain ⟨fuel, rfl⟩ : ∃ m, fuel = m + 1 := ⟨fuel - 1, by simp at hfuel; omega⟩
      rw [hc.1]
      by_cases hgo : go x
      · have hrest : walk next go fuel (some x) (next x) = _ :=
          ih (some x) hc.2 (by simpa using hfuel)
        simp only [walk, hgo, if_true, hrest, List.takeWhile_cons_of_pos,
          List.dropWhile_cons_of_pos]
        cases hlast : (xs.takeWhile go).getLast? <;>
          simp [List.getLast?_cons, hlast]
      · simp [walk, hgo]

end Search

section Links

variable [DecidableEq α]

/-- Link `p` in between `prev` and `curr`, as first record when there is no
`prev`.  The stores are in this order: the link to `p`, then the link of `p`. -/
def splice (next : α → Option α) (head : Option α) (prev : Option α) (p : α)
    (curr : Option α) : (α → Option α) × Option α :=
  match prev with
  | none => (Function.update next p curr, some p)
  | some q => (Function.update (Function.update next q (some p)) p curr, head)

/-- Take the successor of `prev` (the first record when there is no `prev`)
out, leaving `after` in its place. -/
def unlink (next : α → Option α) (head : Option α) (prev : Option α)
    (after : Option α) : (α → Option α) × Option α :=
  match prev with
  | none => (next, after)
  | some q => (Function.update next q after, head)

/-- A splice touches the links of the new record and of `prev` only. -/
theorem splice_next_of_ne {next : α → Option α} {head prev curr : Option α}
    {p x : α} (hp : x ≠ p) (hq : some x ≠ prev) :
    (splice next head prev p curr).1 x = next x := by
  cases prev with
  | none => simp [splice, hp]
  | some q =>
      have hxq : x ≠ q := fun h => hq (congrArg some h)
      simp [splice, hp, hxq]

/-- The link of a record outside a chain may be stored freely. -/
theorem Chain.update_of_notMem {next : α → Option α} {h a : Option α}
    {q : α} {xs : List α} (hc : Chain next h xs) (hq : q ∉ xs) :
    Chain (Function.update next q a) h xs :=
  hc.congr fun _ hx => Function.update_of_ne (ne_of_mem_of_not_mem hx hq) _ _

/-- Redirect the link that leads to the part `ys` of a chain. -/
private theorem chain_redirect {next : α → Option α} {h a : Option α}
    {q : α} {xs ys zs : List α}
    (hc : Chain next h (xs ++ q :: ys)) (hq : q ∉ zs)
    (hz : Chain next a zs) :
    Chain (Function.update next q a) h (xs ++ q :: zs) := by
  have hnd := hc.nodup
  induction xs generalizing h with
  | nil => exact ⟨hc.1, by simpa using hz.update_of_notMem (a := a) hq⟩
  | cons x xs ih =>
      have hxq : x ≠ q := by
        rintro rfl
        simp at hnd
      refine ⟨hc.1, ?_⟩
      rw [Function.update_of_ne hxq]
      exact ih hc.2 (List.nodup_cons.mp hnd).2

/-- **Insertion.**  Splicing a record that is not in the chain puts it
between the two parts. -/
theorem Chain.splice {next : α → Option α} {h : Option α} {xs ys : List α}
    {p : α} (hc : Chain next h (xs ++ ys)) (hx : p ∉ xs) (hy : p ∉ ys) :
    Chain (splice next h xs.getLast? p ys.head?).1
      (splice next h xs.getLast? p ys.head?).2 (xs ++ p :: ys) := by
  rcases List.eq_nil_or_concat xs with rfl | ⟨init, q, rfl⟩
  · have hhead : h = ys.head? := by
      cases ys with
      | nil => exact hc
      | cons y ys => exact hc.1
    refine ⟨rfl, ?_⟩
    simp only [LinkedChain.splice, List.getLast?_nil, Function.update_self]
    exact hhead ▸ hc.update_of_notMem (a := h) hy
  · have hqp : q ≠ p := by
      rintro rfl
      simp at hx
    have hc' : Chain next h (init ++ q :: ys) := by simpa using hc
    have hys : Chain next ys.head? ys := by
      have hsuf : Chain next (some q) (q :: ys) := hc'.suffix
      cases ys with
      | nil => rfl
      | cons y ys => exact ⟨rfl, hsuf.2.2⟩
    have hqys : q ∉ p :: ys := by
      have := (List.nodup_cons.mp (List.nodup_append.mp hc'.nodup).2.1).1
      simpa [hqp] using this
    have hinit : Chain (Function.update next p ys.head?) h (init ++ q :: ys) := by
      refine hc'.update_of_notMem ?_
      simp only [List.concat_eq_append, List.mem_append, List.mem_singleton,
        not_or] at hx
      simp [hx.1, hy, hqp.symm]
    have hnew : Chain (Function.update next p ys.head?) (some p) (p :: ys) :=
      ⟨rfl, by simpa using hys.update_of_notMem (a := ys.head?) hy⟩
    have hres := chain_redirect hinit hqys hnew
    rw [Function.update_comm hqp.symm] at hres
    simpa [LinkedChain.splice] using hres

/-- **Removal.**  Unlinking a record of a chain leaves the others in order. -/
theorem Chain.unlink {next : α → Option α} {h : Option α} {xs ys : List α}
    {c : α} (hc : Chain next h (xs ++ c :: ys)) :
    Chain (unlink next h xs.getLast? (next c)).1
      (unlink next h xs.getLast? (next c)).2 (xs ++ ys) := by
  have hys : Chain next (next c) ys := hc.suffix.2
  rcases List.eq_nil_or_concat xs with rfl | ⟨init, q, rfl⟩
  · simpa [LinkedChain.unlink] using hys
  · have hc' : Chain next h (init ++ q :: c :: ys) := by simpa using hc
    have hq : q ∉ ys := by
      have hnd := (List.nodup_append.mp hc'.nodup).2.1
      intro hmem
      exact (List.nodup_cons.mp hnd).1 (List.mem_cons_of_mem c hmem)
    simpa [LinkedChain.unlink] using chain_redirect hc' hq hys

/-- **A second insertion.**  Splicing a record in behind a part of the chain
that it is in already moves it there: what was between its old place and the
new one is no longer in the chain. -/
theorem Chain.splice_again {next : α → Option α} {h : Option α} {xs ys zs : List α}
    {p : α} (hc : Chain next h (xs ++ p :: ys ++ zs)) :
    Chain (LinkedChain.splice next h (xs ++ p :: ys).getLast? p zs.head?).1
      (LinkedChain.splice next h (xs ++ p :: ys).getLast? p zs.head?).2 (xs ++ p :: zs) := by
  have hnd := hc.nodup
  have hc' : Chain next h (xs ++ p :: (ys ++ zs)) := by simpa using hc
  have hzs : Chain next zs.head? zs := by
    cases zs with
    | nil => rfl
    | cons z zs => exact ⟨rfl, hc.suffix.2⟩
  have hp : p ∉ zs := by
    intro hmem
    simp only [List.append_assoc, List.cons_append] at hnd
    grind
  have hmoved : Chain (Function.update next p zs.head?) h (xs ++ p :: zs) :=
    chain_redirect hc' hp hzs
  rcases List.eq_nil_or_concat ys with rfl | ⟨init, q, rfl⟩
  · simpa [LinkedChain.splice] using hmoved
  · simp only [List.concat_eq_append] at hnd ⊢
    have hq : q ∉ xs ++ p :: zs := by grind
    have hqp : p ≠ q := by grind
    have hlast : (xs ++ p :: (init ++ [q])).getLast? = some q := by
      rw [← List.cons_append, ← List.append_assoc, List.getLast?_concat]
    have hres := hmoved.update_of_notMem (a := some p) hq
    rw [Function.update_comm hqp] at hres
    rw [hlast]
    exact hres

end Links

end LinkedChain
