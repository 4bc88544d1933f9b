import Mathlib.Data.List.Nodup

/-!
# Circular doubly linked lists

Nodes `κ` and one sentinel are linked through `prev` and `next`.  A link is an
`Option κ`, where `none` is the address of the sentinel.  `Seg l x xs y` says
that the links lead from `x` through the nodes `xs` to `y` and back, so
`l.Represents xs` is the circular list `xs` with the sentinel in front of it.

`unlink` and `pushFront` are the usual assignments to the fields of the nodes,
and `findNext` and `findPrev` the usual loops from the sentinel to the sentinel.
The lemmas say what they do to the represented list.
-/

namespace SummerOsk.Lib

open Function List

/-- The two links of every node and of the sentinel. -/
structure Links (κ : Type*) where
  next : Option κ → Option κ
  prev : Option κ → Option κ

namespace Links

variable {κ : Type*}

/-- The sentinel alone. -/
def empty : Links κ := ⟨fun _ => none, fun _ => none⟩

/-- `b->next->prev = b->prev; b->prev->next = b->next;` -/
def unlink [DecidableEq κ] (l : Links κ) (i : κ) : Links κ where
  next := update l.next (l.prev (some i)) (l.next (some i))
  prev := update l.prev (l.next (some i)) (l.prev (some i))

/-- `b->next = head.next; b->prev = &head; head.next->prev = b; head.next = b;` -/
def pushFront [DecidableEq κ] (l : Links κ) (i : κ) : Links κ where
  next := update (update l.next (some i) (l.next none)) none (some i)
  prev := update (update l.prev (some i) none) (l.next none) (some i)

/-- The links read backwards. -/
def reverse (l : Links κ) : Links κ := ⟨l.prev, l.next⟩

/-- `for(b = x; b != &head; b = b->next)`, up to the first node that `p`
holds of. -/
def find (l : Links κ) (p : κ → Bool) : Nat → Option κ → Option κ
  | 0, _ | _ + 1, none => none
  | fuel + 1, some i => if p i then some i else l.find p fuel (l.next (some i))

/-- The loop from `head.next` on through `next`. -/
def findNext (l : Links κ) (p : κ → Bool) (fuel : Nat) : Option κ :=
  l.find p fuel (l.next none)

/-- The loop from `head.prev` on through `prev`. -/
def findPrev (l : Links κ) (p : κ → Bool) (fuel : Nat) : Option κ :=
  l.reverse.findNext p fuel

/-- The links lead from `x` through `xs` to `y` and back. -/
def Seg (l : Links κ) : Option κ → List κ → Option κ → Prop
  | x, [], y => l.next x = y ∧ l.prev y = x
  | x, i :: xs, y => l.next x = some i ∧ l.prev (some i) = x ∧ l.Seg (some i) xs y

/-- The circular list of the sentinel and `xs`. -/
def Represents (l : Links κ) (xs : List κ) : Prop := l.Seg none xs none ∧ xs.Nodup

variable {l l' : Links κ} {x y z : Option κ} {xs ys : List κ} {i : κ} {p : κ → Bool} {fuel : Nat}

/-! ## Segments -/

theorem seg_append : l.Seg x (xs ++ i :: ys) y ↔ l.Seg x xs (some i) ∧ l.Seg (some i) ys y := by
  induction xs generalizing x with
  | nil =>
    show (_ ∧ _ ∧ _) ↔ (_ ∧ _) ∧ _
    rw [and_assoc]
  | cons j xs ih =>
    show (_ ∧ _ ∧ l.Seg (some j) (xs ++ i :: ys) y) ↔ (_ ∧ _ ∧ l.Seg (some j) xs (some i)) ∧ _
    rw [ih, and_assoc, and_assoc]

theorem Seg.reverse (h : l.Seg x xs y) : l.reverse.Seg y xs.reverse x := by
  induction xs generalizing x with
  | nil => exact ⟨h.2, h.1⟩
  | cons i xs ih =>
    rw [reverse_cons]
    exact seg_append.mpr ⟨ih h.2.2, h.2.1, h.1⟩

theorem Represents.reverse (h : l.Represents xs) : l.reverse.Represents xs.reverse :=
  ⟨h.1.reverse, nodup_reverse.mpr h.2⟩

/-- The last link of a segment. -/
theorem Seg.next_prev (h : l.Seg x xs y) : l.next (l.prev y) = y := by
  induction xs generalizing x with
  | nil => rw [h.2, h.1]
  | cons i xs ih => exact ih h.2.2

/-- The links into the nodes of the segment are kept, and the last one now leads
to `z`. -/
theorem Seg.retarget (h : l.Seg x xs y)
    (hkeep : ∀ u ∈ x :: xs.map some, ∀ i ∈ xs, l.next u = some i → l.prev (some i) = u →
      l'.next u = some i ∧ l'.prev (some i) = u)
    (hnext : l'.next (l.prev y) = z) (hprev : l'.prev z = l.prev y) : l'.Seg x xs z := by
  induction xs generalizing x with
  | nil =>
    rw [h.2] at hnext hprev
    exact ⟨hnext, hprev⟩
  | cons i xs ih =>
    obtain ⟨hn, hp⟩ := hkeep x mem_cons_self i mem_cons_self h.1 h.2.1
    refine ⟨hn, hp, ih h.2.2 fun u hu j hj => ?_⟩
    exact hkeep u (mem_cons_of_mem _ hu) j (mem_cons_of_mem _ hj)

/-- The end of a segment has its predecessor in the segment. -/
theorem Seg.prev_mem (h : l.Seg x xs y) : l.prev y ∈ x :: xs.map some := by
  induction xs generalizing x with
  | nil => simp [h.2]
  | cons i xs ih => exact mem_cons_of_mem _ (ih h.2.2)

theorem Seg.congr (h : l.Seg x xs y)
    (hkeep : ∀ u ∈ x :: xs.map some, ∀ v ∈ xs.map some ++ [y], l.next u = v → l.prev v = u →
      l'.next u = v ∧ l'.prev v = u) : l'.Seg x xs y := by
  have hlast := hkeep (l.prev y) h.prev_mem y (by simp) h.next_prev rfl
  exact h.retarget (fun u hu i hi => hkeep u hu (some i) (by simp [hi])) hlast.1 hlast.2

theorem represents_empty : (empty : Links κ).Represents [] := ⟨⟨rfl, rfl⟩, nodup_nil⟩

/-! ## The loops -/

/-- With enough fuel the loop stops at the sentinel or at the first node that
`p` holds of. -/
theorem Seg.find_eq (h : l.Seg x xs none) (hfuel : xs.length < fuel) :
    l.find p fuel (l.next x) = xs.find? p := by
  induction xs generalizing x fuel with
  | nil =>
    obtain ⟨fuel, rfl⟩ := Nat.exists_eq_succ_of_ne_zero (Nat.ne_zero_of_lt hfuel)
    rw [h.1]
    rfl
  | cons i xs ih =>
    obtain ⟨fuel, rfl⟩ := Nat.exists_eq_succ_of_ne_zero (Nat.ne_zero_of_lt hfuel)
    rw [h.1, find?_cons, find, ih h.2.2 (Nat.lt_of_succ_lt_succ hfuel)]
    cases p i <;> rfl

theorem Represents.findNext (h : l.Represents xs)
    (hfuel : xs.length < fuel) : l.findNext p fuel = xs.find? p :=
  h.1.find_eq hfuel

theorem Represents.findPrev (h : l.Represents xs)
    (hfuel : xs.length < fuel) : l.findPrev p fuel = xs.reverse.find? p :=
  h.reverse.findNext (by rwa [length_reverse])

/-! ## The assignments -/

variable [DecidableEq κ]

/-- Of the links into other nodes than `b` and `b->next`, `unlink` changes
none. -/
theorem unlink_keep {u v : Option κ} (hi : l.next (l.prev (some i)) = some i) (hv : v ≠ some i)
    (hb : v ≠ l.next (some i)) (hnext : l.next u = v) (hprev : l.prev v = u) :
    (l.unlink i).next u = v ∧ (l.unlink i).prev v = u := by
  have hu : u ≠ l.prev (some i) := by
    rintro rfl
    exact hv (hnext.symm.trans hi)
  exact ⟨(update_of_ne hu _ _).trans hnext, (update_of_ne hb _ _).trans hprev⟩

theorem Represents.unlink (h : l.Represents (xs ++ i :: ys)) :
    (l.unlink i).Represents (xs ++ ys) := by
  obtain ⟨hseg, hnodup⟩ := h
  obtain ⟨hxs, hys⟩ := seg_append.mp hseg
  have hi := hxs.next_prev
  obtain ⟨hnotin, hnd⟩ := nodup_cons.mp (nodup_middle.mp hnodup)
  refine ⟨?_, hnd⟩
  have hxs' : (l.unlink i).Seg none xs (l.next (some i)) := by
    refine hxs.retarget (fun u _ j hj => unlink_keep hi ?_ ?_) (update_self _ _ _)
      (update_self _ _ _)
    · rintro ⟨rfl⟩
      exact hnotin (mem_append_left _ hj)
    · -- the node after `b` is in `ys`, or it is the sentinel
      cases ys with
      | nil =>
        rw [hys.1]
        simp
      | cons k ys =>
        rw [hys.1]
        rintro ⟨rfl⟩
        exact (disjoint_of_nodup_append hnd) hj mem_cons_self
  cases ys with
  | nil =>
    rw [hys.1] at hxs'
    rwa [append_nil]
  | cons k ys =>
    rw [hys.1] at hxs'
    refine seg_append.mpr ⟨hxs', hys.2.2.congr fun u _ v hv => unlink_keep hi ?_ ?_⟩
    · rintro rfl
      exact hnotin (mem_append_right _ (mem_cons_of_mem _ (by simpa using hv)))
    · rw [hys.1]
      rintro rfl
      exact (nodup_cons.mp (hnd.of_append_right)).1 (by simpa using hv)

theorem pushFront_next (u : Option κ) : (l.pushFront i).next u =
    if u = none then some i else if u = some i then l.next none else l.next u := by
  simp only [pushFront, update_apply]

theorem pushFront_prev (u : Option κ) : (l.pushFront i).prev u =
    if u = l.next none then some i else if u = some i then none else l.prev u := by
  simp only [pushFront, update_apply]

theorem Represents.pushFront (h : l.Represents xs) (hi : i ∉ xs) :
    (l.pushFront i).Represents (i :: xs) := by
  obtain ⟨hseg, hnodup⟩ := h
  have hhead : some i ≠ l.next none := by
    cases xs with
    | nil => simp [hseg.1]
    | cons j xs =>
      rw [hseg.1]
      rintro ⟨rfl⟩
      exact hi mem_cons_self
  have hnext : (l.pushFront i).next (some i) = l.next none := by
    rw [pushFront_next, if_neg (by simp), if_pos rfl]
  have hprev : (l.pushFront i).prev (l.next none) = some i := by
    rw [pushFront_prev, if_pos rfl]
  refine ⟨⟨?_, ?_, ?_⟩, nodup_cons.mpr ⟨hi, hnodup⟩⟩
  · rw [pushFront_next, if_pos rfl]
  · rw [pushFront_prev, if_neg hhead, if_pos rfl]
  · cases xs with
    | nil =>
      rw [hseg.1] at hnext hprev
      exact ⟨hnext, hprev⟩
    | cons j xs =>
      obtain ⟨hj, -⟩ := nodup_cons.mp hnodup
      rw [hseg.1] at hnext hprev
      refine ⟨hnext, hprev, hseg.2.2.congr fun u hu v hv hun hvp => ⟨?_, ?_⟩⟩
      · -- the segment after `j` starts at no sentinel
        have hui : u ≠ some i := by
          rintro rfl
          exact hi (by simpa using hu)
        have hus : u ≠ none := by
          rintro rfl
          simp at hu
        rw [pushFront_next, if_neg hus, if_neg hui, hun]
      · have hvj : v ≠ l.next none := by
          rw [hseg.1]
          rintro rfl
          exact hj (by simpa using hv)
        have hvi : v ≠ some i := by
          rintro rfl
          exact hi (mem_cons_of_mem _ (by simpa using hv))
        rw [pushFront_prev, if_neg hvj, if_neg hvi, hvp]

/-- Insert the nodes of a list in front, one after the other. -/
theorem Represents.foldl_pushFront (h : l.Represents xs) (hnodup : ys.Nodup)
    (hdisjoint : ∀ i ∈ ys, i ∉ xs) :
    (ys.foldl Links.pushFront l).Represents (ys.reverse ++ xs) := by
  induction ys generalizing l xs with
  | nil => exact h
  | cons i ys ih =>
    obtain ⟨hi, hys⟩ := nodup_cons.mp hnodup
    rw [foldl_cons, reverse_cons, append_assoc, singleton_append]
    refine ih (h.pushFront (hdisjoint i mem_cons_self)) hys fun j hj => ?_
    rw [mem_cons, not_or]
    exact ⟨fun hji => hi (hji ▸ hj), hdisjoint j (mem_cons_of_mem _ hj)⟩

/-- Move a node to the front. -/
theorem Represents.moveFront (h : l.Represents xs) (hi : i ∈ xs) :
    ((l.unlink i).pushFront i).Represents (i :: xs.erase i) := by
  obtain ⟨as, bs, hnot, rfl, herase⟩ := exists_erase_eq hi
  have hnodup := h.2
  rw [herase]
  refine h.unlink.pushFront ?_
  exact (nodup_cons.mp (nodup_middle.mp hnodup)).1

end Links

end SummerOsk.Lib
