import Mathlib.Data.List.Nodup
/-!
# Circular lists

Intrusive doubly linked lists with a head that is no element. The links
are two functions on addresses; `Ring` says which elements they go
through. The operations write links in the order of the code they are
taken from, and `Ring` follows them.
-/

namespace Archives

open Function List

/-- `struct list_head`, for every address. -/
structure Links (A : Type*) where
  next : A → A
  prev : A → A

namespace Links

variable {A : Type*} {l l' : Links A} {h a b x n : A} {xs : List A}

/-- The links lead from `a` through `xs` to `b`, and back. -/
def Linked (l : Links A) : A → List A → A → Prop
  | a, [], b => l.next a = b ∧ l.prev b = a
  | a, x :: xs, b => (l.next a = x ∧ l.prev x = a) ∧ Linked l x xs b

/-- **A well-formed circular list** with its head and its elements. -/
structure Ring (l : Links A) (h : A) (xs : List A) : Prop where
  linked : l.Linked h xs h
  nodup : (h :: xs).Nodup

/-- Links that agree on what is linked are as good. -/
theorem Linked.congr (hl : l.Linked a xs b) (hnext : ∀ x ∈ a :: xs, l'.next x = l.next x)
    (hprev : ∀ x ∈ xs ++ [b], l'.prev x = l.prev x) : l'.Linked a xs b := by
  induction xs generalizing a with
  | nil => exact ⟨(hnext a (by simp)).trans hl.1, (hprev b (by simp)).trans hl.2⟩
  | cons x xs ih =>
    obtain ⟨⟨hn, hp⟩, hrest⟩ := hl
    refine ⟨⟨(hnext a (by simp)).trans hn, (hprev x (by simp)).trans hp⟩, ih hrest ?_ ?_⟩
    · exact fun y hy => hnext y (mem_cons_of_mem a hy)
    · exact fun y hy => hprev y (mem_cons_of_mem x hy)

theorem linked_concat : l.Linked a (xs ++ [x]) b ↔
    l.Linked a xs x ∧ l.next x = b ∧ l.prev b = x := by
  induction xs generalizing a with
  | nil => rfl
  | cons y xs ih => simp [Linked, ih, and_assoc]

theorem Ring.congr (hr : l.Ring h xs)
    (hl : ∀ x ∈ h :: xs, l'.next x = l.next x ∧ l'.prev x = l.prev x) : l'.Ring h xs :=
  ⟨hr.linked.congr (fun x hx => (hl x hx).1) fun x hx => (hl x (by simp_all [or_comm])).2, hr.nodup⟩

variable [DecidableEq A]

def init (l : Links A) (h : A) : Links A where
  next := update l.next h h
  prev := update l.prev h h

def insert (l : Links A) (prev next new : A) : Links A where
  next := update (update l.next new next) prev new
  prev := update (update l.prev new prev) next new

def pushBack (l : Links A) (h n : A) : Links A := l.insert (l.prev h) h n

def isEmpty (l : Links A) (h : A) : Bool := l.next h = h

def popFront (l : Links A) (h : A) : Option (A × Links A) :=
  if l.next h = h then none
  else some (l.next h,
    { next := update l.next h (l.next (l.next h))
      prev := update l.prev (l.next (l.next h)) h })

theorem ring_init (l : Links A) (h : A) : (l.init h).Ring h [] :=
  ⟨⟨update_self .., update_self ..⟩, nodup_singleton h⟩

/-- **A new element becomes the last.** -/
theorem Ring.pushBack (hr : l.Ring h xs) (hn : n ∉ h :: xs) :
    (l.pushBack h n).Ring h (xs ++ [n]) := by
  have hnodup := hr.nodup
  refine ⟨?_, by simpa using hnodup.concat hn⟩
  rcases eq_nil_or_concat xs with rfl | ⟨ys, y, rfl⟩
  · have hprev : l.prev h = h := hr.linked.2
    simp_all [Links.pushBack, Links.insert, Linked]
  · rw [concat_eq_append] at *
    obtain ⟨hys, -, hprev⟩ := linked_concat.mp hr.linked
    rw [linked_concat, linked_concat, Links.pushBack, hprev]
    refine ⟨⟨hys.congr (fun x hx => ?_) fun x hx => ?_, ?_⟩, ?_⟩ <;>
      simp_all [Links.insert, update_apply] <;> grind

/-- So it does in a ring with a head of its own. -/
theorem Ring.pushBack_some {α : Type} [DecidableEq α] {l : Links (Option α)} {queue : List α}
    {a : α} (hr : l.Ring none (queue.map some)) (ha : a ∉ queue) :
    (l.pushBack none (some a)).Ring none ((queue ++ [a]).map some) := by
  rw [map_append]
  exact hr.pushBack (by simpa using ha)

/-- **The first element is taken.** -/
theorem Ring.popFront (hr : l.Ring h (x :: xs)) :
    ∃ l', l.popFront h = some (x, l') ∧ l'.Ring h xs := by
  obtain ⟨⟨⟨rfl, hprev⟩, hlinked⟩, hnodup⟩ := hr
  have hne : l.next h ≠ h := fun heq => by simp [heq] at hnodup
  refine ⟨_, if_neg hne, ?_, by simp_all⟩
  cases xs with
  | nil =>
    simp_all [Linked]
  | cons y ys =>
    obtain ⟨⟨hy, -⟩, hys⟩ := hlinked
    refine ⟨?_, hys.congr (fun z hz => ?_) fun z hz => ?_⟩ <;> simp_all [update_apply] <;> grind

theorem Ring.popFront_nil (hr : l.Ring h []) : l.popFront h = none := if_pos hr.linked.1

end Links

end Archives
