import Mathlib.Data.List.Nodup
import Mathlib.Tactic.Common

/-! # Linked lists and neighbours

A list stored as links: `Walk next start l` says that following `next` from `start` until it
ends meets exactly the elements of `l`. For a list without duplicates this is the same as saying
that `next` sends every element to its right neighbour `nextIn l` (`walk_iff_nextIn`); walking a
list from its other end is a walk of the reversed list, with the left neighbour `prevIn l`.

The neighbours of a list that gains one element are computed by `nextIn_insert` and
`prevIn_insert`, and of a list that loses one by `nextIn_erase` and `prevIn_erase`. -/

namespace Sexp.Library

universe u

variable {ι : Type u}

/-! ## Walks -/

/-- **The walk of a linked list.** Following `next` from `start` until it ends meets the elements
of the list, in order. -/
def Walk (next : ι → Option ι) : Option ι → List ι → Prop
  | start, [] => start = none
  | start, x :: xs => start = some x ∧ Walk next (next x) xs

@[simp] theorem walk_nil {next : ι → Option ι} {start : Option ι} :
    Walk next start [] ↔ start = none := Iff.rfl

@[simp] theorem walk_cons {next : ι → Option ι} {start : Option ι} {x : ι} {xs : List ι} :
    Walk next start (x :: xs) ↔ start = some x ∧ Walk next (next x) xs := Iff.rfl

/-- A walk starts at the head of the list it meets. -/
theorem Walk.start_eq {next : ι → Option ι} {start : Option ι} {l : List ι}
    (h : Walk next start l) : start = l.head? := by
  cases l with
  | nil => exact h
  | cons x xs => exact h.1

/-- A start has at most one walk. -/
theorem Walk.unique {next : ι → Option ι} {start : Option ι} {l l' : List ι}
    (h : Walk next start l) (h' : Walk next start l') : l = l' := by
  induction l generalizing start l' with
  | nil =>
      cases l' with
      | nil => rfl
      | cons x' xs' => simp_all
  | cons x xs ih =>
      cases l' with
      | nil => simp_all
      | cons x' xs' =>
          obtain rfl : x = x' := by simpa using h.1.symm.trans h'.1
          rw [ih h.2 h'.2]

/-- Walks along links that agree on the elements met are the same. -/
theorem Walk.congr {next next' : ι → Option ι} {start : Option ι} {l : List ι}
    (h : Walk next start l) (hagree : ∀ x ∈ l, next' x = next x) : Walk next' start l := by
  induction l generalizing start with
  | nil => exact h
  | cons x xs ih =>
      refine ⟨h.1, ?_⟩
      rw [hagree x List.mem_cons_self]
      exact ih h.2 fun y hy => hagree y (List.mem_cons_of_mem x hy)

/-! ## Neighbours -/

variable [DecidableEq ι]

/-- **The right neighbour** of an element in a list: the element after its first occurrence. -/
def nextIn : List ι → ι → Option ι
  | [], _ => none
  | a :: l, x => if x = a then l.head? else nextIn l x

/-- **The left neighbour** of an element in a list without duplicates. -/
def prevIn (l : List ι) (x : ι) : Option ι := nextIn l.reverse x

/-- What is not in the list has no right neighbour in it. -/
theorem nextIn_of_notMem {l : List ι} {x : ι} (h : x ∉ l) : nextIn l x = none := by
  induction l with
  | nil => rfl
  | cons a l ih =>
      rw [List.mem_cons, not_or] at h
      rw [nextIn, if_neg h.1, ih h.2]

/-- What is not in the list has no left neighbour in it. -/
theorem prevIn_of_notMem {l : List ι} {x : ι} (h : x ∉ l) : prevIn l x = none :=
  nextIn_of_notMem (by simpa using h)

/-- A right neighbour is an element of the list. -/
theorem mem_of_nextIn {l : List ι} {x y : ι} (h : nextIn l x = some y) : y ∈ l := by
  induction l with
  | nil => simp [nextIn] at h
  | cons a l ih =>
      rw [nextIn] at h
      split at h
      · exact List.mem_cons_of_mem a (List.mem_of_mem_head? h)
      · exact List.mem_cons_of_mem a (ih h)

/-- A left neighbour is an element of the list. -/
theorem mem_of_prevIn {l : List ι} {x y : ι} (h : prevIn l x = some y) : y ∈ l := by
  simpa using mem_of_nextIn h

/-- **Right neighbours after an insertion.** Putting `c` between `xs` and `ys` changes the right
neighbour of `c` itself and of the last element of `xs`, and no other. -/
theorem nextIn_insert {xs ys : List ι} {c : ι} (hnodup : (xs ++ c :: ys).Nodup) (x : ι) :
    nextIn (xs ++ c :: ys) x =
      if x = c then ys.head?
      else if xs.getLast? = some x then some c
      else nextIn (xs ++ ys) x := by
  induction xs with
  | nil => simp [nextIn]
  | cons a xs ih =>
      rw [List.cons_append, List.nodup_cons] at hnodup
      have hac : a ≠ c := fun h => hnodup.1 (by simp [h])
      rw [List.cons_append, nextIn, List.cons_append, nextIn, ih hnodup.2]
      -- the first element stands in front of `c` if it is also the last of `xs`
      by_cases hxa : x = a
      · subst hxa
        rw [if_pos rfl, if_neg hac, if_pos rfl]
        cases xs with
        | nil => simp
        | cons b xs =>
            have hlast : ¬ (x :: b :: xs).getLast? = some x := by
              rw [List.getLast?_cons_cons]
              exact fun h => hnodup.1 (List.mem_append_left _ (List.mem_of_getLast? h))
            rw [if_neg hlast]
            rfl
      · rw [if_neg hxa, if_neg hxa]
        by_cases hxc : x = c
        · rw [if_pos hxc, if_pos hxc]
        · rw [if_neg hxc, if_neg hxc]
          cases xs with
          | nil => simp [Ne.symm hxa]
          | cons b xs => rw [List.getLast?_cons_cons]

/-- **Left neighbours after an insertion**, the mirror image of `nextIn_insert`. -/
theorem prevIn_insert {xs ys : List ι} {c : ι} (hnodup : (xs ++ c :: ys).Nodup) (x : ι) :
    prevIn (xs ++ c :: ys) x =
      if x = c then xs.getLast?
      else if ys.head? = some x then some c
      else prevIn (xs ++ ys) x := by
  have hrev : (ys.reverse ++ c :: xs.reverse).Nodup := by
    have := List.nodup_reverse.mpr hnodup
    simpa using this
  have := nextIn_insert hrev x
  simpa [prevIn] using this

/-- The list with `c` put right after the first occurrence of `s`. -/
def insertRight (s c : ι) : List ι → List ι
  | [] => []
  | x :: l => if x = s then x :: c :: l else x :: insertRight s c l

/-- Putting an element after the first occurrence of another. -/
theorem insertRight_append {s c : ι} {xs ys : List ι} (hs : s ∉ xs) :
    insertRight s c (xs ++ s :: ys) = xs ++ s :: c :: ys := by
  induction xs with
  | nil => simp [insertRight]
  | cons x xs ih =>
      rw [List.mem_cons, not_or] at hs
      rw [List.cons_append, insertRight, if_neg (Ne.symm hs.1), ih hs.2, List.cons_append]

/-- A list without duplicates, split at one of its elements: the list without the element, and the
neighbours of the element. -/
theorem exists_gap {l : List ι} {c : ι} (hnodup : l.Nodup) (hc : c ∈ l) :
    ∃ xs ys, l = xs ++ c :: ys ∧ l.erase c = xs ++ ys ∧ (xs ++ ys).Nodup ∧
      prevIn l c = xs.getLast? ∧ nextIn l c = ys.head? := by
  obtain ⟨xs, ys, rfl⟩ := List.append_of_mem hc
  have hgap := List.nodup_cons.mp (List.nodup_middle.mp hnodup)
  refine ⟨xs, ys, rfl, ?_, hgap.2, ?_, ?_⟩
  · rw [List.erase_append_right _ fun hmem => hgap.1 (List.mem_append_left ys hmem)]
    rw [List.erase_cons_head]
  · rw [prevIn_insert hnodup, if_pos rfl]
  · rw [nextIn_insert hnodup, if_pos rfl]

/-- No element of a list without duplicates is its own left neighbour. -/
theorem prevIn_ne_self {l : List ι} (hnodup : l.Nodup) (x : ι) : prevIn l x ≠ some x := by
  intro hself
  obtain ⟨xs, ys, rfl, -, -, hprev, -⟩ := exists_gap hnodup (mem_of_prevIn hself)
  have hlast : x ∈ xs := List.mem_of_getLast? (hprev.symm.trans hself)
  exact (List.nodup_cons.mp (List.nodup_middle.mp hnodup)).1 (List.mem_append_left ys hlast)

/-- **Right neighbours after a removal.** Only the left neighbour of the removed element gets a new
right neighbour. -/
theorem nextIn_erase {l : List ι} (hnodup : l.Nodup) {c x : ι} (hx : x ≠ c) :
    nextIn (l.erase c) x = if prevIn l c = some x then nextIn l c else nextIn l x := by
  by_cases hc : c ∈ l
  · obtain ⟨xs, ys, hl, herase, hgap, hprev, hnext⟩ := exists_gap hnodup hc
    rw [herase, hprev, hnext, hl, nextIn_insert (hl ▸ hnodup), if_neg hx]
    split
    · rename_i hlast
      obtain ⟨zs, rfl⟩ := List.getLast?_eq_some_iff.mp hlast
      rw [List.append_assoc, List.singleton_append] at hgap ⊢
      rw [nextIn_insert hgap, if_pos rfl]
    · rfl
  · rw [List.erase_of_not_mem hc, prevIn_of_notMem hc, if_neg (by simp)]

/-- **Left neighbours after a removal.** Only the right neighbour of the removed element gets a new
left neighbour. -/
theorem prevIn_erase {l : List ι} (hnodup : l.Nodup) {c x : ι} (hx : x ≠ c) :
    prevIn (l.erase c) x = if nextIn l c = some x then prevIn l c else prevIn l x := by
  by_cases hc : c ∈ l
  · obtain ⟨xs, ys, hl, herase, hgap, hprev, hnext⟩ := exists_gap hnodup hc
    rw [herase, hprev, hnext, hl, prevIn_insert (hl ▸ hnodup), if_neg hx]
    split
    · rename_i hhead
      obtain ⟨zs, rfl⟩ := List.head?_eq_some_iff.mp hhead
      rw [prevIn_insert hgap, if_pos rfl]
    · rfl
  · rw [List.erase_of_not_mem hc, nextIn_of_notMem hc, if_neg (by simp)]

/-- The head after a removal. -/
theorem head?_erase {l : List ι} (hnodup : l.Nodup) {c : ι} (hc : c ∈ l) :
    (l.erase c).head? = if prevIn l c = none then nextIn l c else l.head? := by
  obtain ⟨xs, ys, hl, herase, -, hprev, hnext⟩ := exists_gap hnodup hc
  rw [herase, hprev, hnext, hl]
  cases xs <;> simp

/-- The last element after a removal. -/
theorem getLast?_erase {l : List ι} (hnodup : l.Nodup) {c : ι} (hc : c ∈ l) :
    (l.erase c).getLast? = if nextIn l c = none then prevIn l c else l.getLast? := by
  obtain ⟨xs, ys, hl, herase, -, hprev, hnext⟩ := exists_gap hnodup hc
  rw [herase, hprev, hnext, hl]
  cases ys with
  | nil => simp
  | cons y ys => simp [List.getLast?_append, List.getLast?_cons_cons]

/-! ## Walks are neighbours -/

/-- A walk of a list without duplicates sends every element to its right neighbour. -/
theorem Walk.next_eq {next : ι → Option ι} {start : Option ι} {l : List ι}
    (h : Walk next start l) (hnodup : l.Nodup) {x : ι} (hx : x ∈ l) : next x = nextIn l x := by
  induction l generalizing start with
  | nil => simp at hx
  | cons a l ih =>
      rw [List.nodup_cons] at hnodup
      rw [nextIn]
      by_cases hxa : x = a
      · rw [if_pos hxa, hxa]
        exact h.2.start_eq
      · rw [if_neg hxa]
        exact ih h.2 hnodup.2 (by simpa [hxa] using hx)

/-- Links that send every element to its right neighbour are walked from the head. -/
theorem walk_of_nextIn {next : ι → Option ι} {l : List ι} (hnodup : l.Nodup)
    (h : ∀ x ∈ l, next x = nextIn l x) : Walk next l.head? l := by
  induction l with
  | nil => rfl
  | cons a l ih =>
      rw [List.nodup_cons] at hnodup
      have ha : next a = l.head? := by simpa [nextIn] using h a List.mem_cons_self
      refine ⟨rfl, ?_⟩
      rw [ha]
      refine ih hnodup.2 fun x hx => ?_
      have hxa : x ≠ a := fun hxa => hnodup.1 (hxa ▸ hx)
      simpa [nextIn, hxa] using h x (List.mem_cons_of_mem a hx)

/-- **Walks and neighbours.** Links walk a list without duplicates from `start` iff `start` is the
head of the list and they send every element to its right neighbour. -/
theorem walk_iff_nextIn {next : ι → Option ι} {start : Option ι} {l : List ι}
    (hnodup : l.Nodup) :
    Walk next start l ↔ start = l.head? ∧ ∀ x ∈ l, next x = nextIn l x := by
  constructor
  · intro h
    exact ⟨h.start_eq, fun x hx => h.next_eq hnodup hx⟩
  · rintro ⟨rfl, h⟩
    exact walk_of_nextIn hnodup h

/-- **Backward walks and neighbours.** Links walk the reversed list from `start` iff `start` is the
last element and they send every element to its left neighbour. -/
theorem walk_reverse_iff_prevIn {prev : ι → Option ι} {start : Option ι} {l : List ι}
    (hnodup : l.Nodup) :
    Walk prev start l.reverse ↔ start = l.getLast? ∧ ∀ x ∈ l, prev x = prevIn l x := by
  rw [walk_iff_nextIn (List.nodup_reverse.mpr hnodup), List.head?_reverse]
  simp [prevIn]

end Sexp.Library
