import Mathlib.Logic.Function.Iterate
import Archives.Noa.Snapshot
/-!
# Noa — undo and redo as a linear history

What `mark_undo_point`, `undo` and `redo` of `noa-next` are for: the text
is the current entry of a history (`Timeline`). The undo stack has the
ropes of the undo points; the current one is on its top after a mark, but
not after an undo or a redo. An edit made then forgets it, and no edit
takes away what can be redone.
-/

namespace Archives.Noa.Next

open Option Buffer

/-- **A linear history of texts**: the undo points before the current
text, the nearest first, the current text, whether it is an undo point,
and what can be redone. -/
structure Timeline where
  past : List Text
  current : Text
  marked : Bool
  future : List Text

namespace Timeline

def edit (h : Timeline) (text : Text) : Timeline where
  past := if h.marked then h.current :: h.past else h.past
  current := text
  marked := false
  future := []

/-- Back to the undo point before. -/
def undo (h : Timeline) : Timeline :=
  match h.past with
  | [] => h
  | text :: past => ⟨past, text, true, h.current :: h.future⟩

/-- Forward again. -/
def redo (h : Timeline) : Timeline :=
  match h.future with
  | [] => h
  | text :: future => ⟨h.current :: h.past, text, true, future⟩

/-- The history after an operation that left the buffer with a text. -/
def follow (h : Timeline) (text : Text) : Op → Timeline
  | .insert _ | .delete => h.edit text
  | .markUndoPoint => { h with marked := true }
  | .undo => h.undo
  | .redo => h.redo
  | .takeSnapshot | .setCursors _ => h

end Timeline

variable {R : Ropey}

/-- The buffer beside its history. -/
def tracked (R : Ropey) : Machine (Buffer R × Timeline) Op where
  step s op := ((machine R).step s.1 op).map fun b => (b, s.2.follow b.rope.text op)

/-- A file is opened; its text is an undo point. -/
def opened (inner : R.Rope) : Buffer R × Timeline :=
  (openFile inner, ⟨[], R.text inner, true, []⟩)

/-- **What keeps the history linear.** An edit has a cursor to insert at,
or one with something to delete, and nothing that could be redone; an
undo point reached by an undo or a redo is marked again before it.
Nothing that emptied the text after the first undo point is undone
without a mark. -/
def Linear (s : Buffer R × Timeline) : Op → Prop
  | .insert _ => s.1.redoStack = [] ∧
    (s.2.marked = true → topIs s.1.rope s.1.undoStack = true) ∧ s.1.cursors ≠ []
  | .delete => s.1.redoStack = [] ∧
    (s.2.marked = true → topIs s.1.rope s.1.undoStack = true) ∧
    ∃ c ∈ s.1.cursors, (deleteRange s.1.rope c).join.isSome
  | .undo => s.1.undoStack.length = 1 → s.1.rope.text = [] →
    topIs s.1.rope s.1.undoStack = true
  | _ => True

/-! ## The stacks -/

/-- The undo stack under a rope of version `v` has the ropes of the undo
points, each older than the one above and there once or twice. -/
inductive Backs : Nat → List (Rope R) → List Text → Prop
  | nil {v : Nat} : Backs v [] []
  | once {v : Nat} {r : Rope R} {rest : List (Rope R)} {ts : List Text} (hv : r.version < v)
      (h : Backs r.version rest ts) : Backs v (r :: rest) (r.text :: ts)
  | twice {v : Nat} {r : Rope R} {rest : List (Rope R)} {ts : List Text} (hv : r.version < v)
      (h : Backs r.version rest ts) : Backs v (r :: r :: rest) (r.text :: ts)

/-- The redo stack has the ropes of what can be redone, each newer than
the one before. -/
inductive Ahead : Nat → List (Rope R) → List Text → Prop
  | nil {v : Nat} : Ahead v [] []
  | cons {v : Nat} {r : Rope R} {rest : List (Rope R)} {ts : List Text} (hv : v < r.version)
      (h : Ahead r.version rest ts) : Ahead v (r :: rest) (r.text :: ts)

/-- **The buffer is at the current entry of the history.** An undo point
may itself be on the undo stack. -/
structure Tracks (b : Buffer R) (h : Timeline) : Prop where
  text : b.rope.text = h.current
  back : Backs b.rope.version b.undoStack h.past ∨
    ∃ rest, b.undoStack = b.rope :: rest ∧ h.marked = true ∧ Backs b.rope.version rest h.past
  ahead : Ahead b.rope.version b.redoStack h.future

variable {b b' : Buffer R} {h : Timeline} {r : Rope R} {rest : List (Rope R)} {ts : List Text}
  {v w : Nat}

theorem Backs.mono (hb : Backs v rest ts) (hvw : v ≤ w) : Backs w rest ts := by
  cases hb with
  | nil => exact .nil
  | once hv hb => exact .once (Nat.lt_of_lt_of_le hv hvw) hb
  | twice hv hb => exact .twice (Nat.lt_of_lt_of_le hv hvw) hb

theorem topIs_self : topIs r (r :: rest) = true := by
  simp [topIs, Rope.eq]

theorem Backs.topIs_eq_false (hb : Backs r.version rest ts) : topIs r rest = false := by
  have hne : ∀ {r' : Rope R}, r'.version < r.version → r'.eq r = false := by
    intro r' hlt
    have hv : (r'.version == r.version) = false := beq_eq_false_iff_ne.2 (Nat.ne_of_lt hlt)
    rw [Rope.eq, hv, Bool.and_false]
  cases hb with
  | nil => rfl
  | once hv _ => exact hne hv
  | twice hv _ => exact hne hv

/-! ## One step -/

/-- **An edit** of a text that is on the undo stack, or is no undo point. -/
theorem Tracks.edit (ht : Tracks b h) (hredo : b.redoStack = [])
    (hmarked : h.marked = true → topIs b.rope b.undoStack = true)
    (hlt : b.rope.version < b'.rope.version) (hsame : SameBut b b') :
    Tracks b' (h.edit b'.rope.text) := by
  refine ⟨rfl, .inl ?_, ?_⟩
  · rw [hsame.undo]
    rcases ht.back with hb | ⟨rest, hstack, hm, hb⟩
    · have hnot : h.marked = false := by
        rw [← Bool.not_eq_true]
        intro hm
        rw [hb.topIs_eq_false] at hmarked
        cases hmarked hm
      simp only [Timeline.edit, hnot]
      exact hb.mono (Nat.le_of_lt hlt)
    · simp only [Timeline.edit, hm, hstack, ← ht.text]
      exact .once hlt hb
  · rw [hsame.redo, hredo]
    exact .nil

theorem Tracks.mark (ht : Tracks b h) : Tracks b.markUndoPoint { h with marked := true } := by
  rw [markUndoPoint]
  rcases ht.back with hb | ⟨rest, hstack, -, hb⟩
  · rw [hb.topIs_eq_false]
    exact ⟨ht.text, .inr ⟨_, rfl, rfl, hb⟩, ht.ahead⟩
  · rw [hstack, topIs_self]
    exact ⟨ht.text, .inr ⟨rest, hstack, rfl, hb⟩, ht.ahead⟩

/-- The rest of the undo stack is gone back to. -/
def popped (b : Buffer R) : List (Rope R) → Buffer R
  | [] => { b with undoStack := [] }
  | buf :: rest => { b with
      rope := buf, undoStack := rest, redoStack := b.rope :: b.redoStack }

theorem undo_eq (b : Buffer R) : b.undo = if b.undoStack.length = 1 ∧ b.rope.text = [] then b
    else popped b (if topIs b.rope b.undoStack then b.undoStack.tail else b.undoStack) := by
  rw [undo]
  generalize (if topIs b.rope b.undoStack then _ else _ : List (Rope R)) = stack
  cases stack <;> rfl

theorem Tracks.popped (ht : Tracks b h) (hb : Backs b.rope.version rest h.past) :
    Tracks (popped b rest) h.undo := by
  obtain ⟨past, current, marked, future⟩ := h
  obtain rfl : b.rope.text = current := ht.text
  cases hb with
  | nil => exact ⟨rfl, .inl .nil, ht.ahead⟩
  | once hv hb => exact ⟨rfl, .inl hb, .cons hv ht.ahead⟩
  | twice hv hb => exact ⟨rfl, .inr ⟨_, rfl, rfl, hb⟩, .cons hv ht.ahead⟩

theorem Tracks.undo (ht : Tracks b h) (hcond : b.undoStack.length = 1 → b.rope.text = [] →
      topIs b.rope b.undoStack = true) : Tracks b.undo h.undo := by
  rw [undo_eq]
  rcases ht.back with hb | ⟨rest, hstack, hm, hb⟩
  · have hfalse := hb.topIs_eq_false
    have hgo : ¬ (b.undoStack.length = 1 ∧ b.rope.text = []) := by
      rintro ⟨hlen, hempty⟩
      rw [hcond hlen hempty] at hfalse
      cases hfalse
    rw [if_neg hgo, hfalse]
    exact ht.popped hb
  · split
    · -- the first undo point is the current text
      rename_i hfirst
      rw [hstack] at hfirst
      obtain rfl : rest = [] := List.length_eq_zero_iff.1 (Nat.succ.inj hfirst.1)
      have hpast : h.undo = h := by
        rw [Timeline.undo]
        generalize h.past = past at hb ⊢
        cases hb
        rfl
      rw [hpast]
      exact ht
    · rw [hstack, topIs_self]
      exact ht.popped hb

theorem Tracks.redo (ht : Tracks b h) : Tracks b.redo h.redo := by
  obtain ⟨past, current, marked, future⟩ := h
  obtain ⟨rope, cursors, undoStack, redoStack, cache⟩ := b
  obtain ⟨htext, hback, hahead⟩ := ht
  obtain rfl : rope.text = current := htext
  cases hahead with
  | nil => exact ⟨rfl, hback, .nil⟩
  | cons hv hahead =>
    refine ⟨rfl, .inl ?_, hahead⟩
    rcases hback with hb | ⟨rest, hstack, -, hb⟩
    · exact .once hv hb
    · obtain rfl : undoStack = rope :: rest := hstack
      exact .twice hv hb

/-- **Every step that keeps the history linear is one of the history.** -/
theorem Tracks.step (ht : Tracks b h) {op : Op} (hop : Linear (b, h) op)
    (hstep : (machine R).step b op = some b') : Tracks b' (h.follow b'.rope.text op) := by
  cases op with
  | insert string =>
    obtain ⟨⟨-, hsame⟩, hlt⟩ := insert_frame hstep
    exact ht.edit hop.1 hop.2.1 (hlt hop.2.2) hsame
  | delete =>
    obtain ⟨⟨-, hsame⟩, hlt⟩ := delete_frame hstep
    exact ht.edit hop.1 hop.2.1 (hlt hop.2.2) hsame
  | markUndoPoint => exact some.inj hstep ▸ ht.mark
  | undo => exact some.inj hstep ▸ ht.undo hop
  | redo => exact some.inj hstep ▸ ht.redo
  | takeSnapshot =>
    cases hstep
    exact ⟨ht.text, ht.back, ht.ahead⟩
  | setCursors cursors =>
    obtain ⟨hrope, hsame⟩ := setCursors_frame hstep
    refine ⟨hrope ▸ ht.text, ?_, ?_⟩
    · rw [hrope, hsame.undo]
      exact ht.back
    · rw [hrope, hsame.redo]
      exact ht.ahead

/-! ## Runs -/

/-- **In every run that keeps the history linear**, the text is the
current entry of the history. -/
theorem current_of_linear {inner : R.Rope}
    (hreach : (tracked R).ReachUnder Linear (opened inner) (b, h)) : b.rope.text = h.current := by
  have htracks : Tracks b h := by
    refine hreach.invariant (I := fun s => Tracks s.1 s.2) ?_ ?_
    · exact ⟨rfl, .inr ⟨[], rfl, rfl, .nil⟩, .nil⟩
    · rintro ⟨b, h⟩ s' op ht hop hstep
      obtain ⟨b', hb', rfl⟩ := map_eq_some_iff.1 hstep
      exact ht.step hop hb'
  exact htracks.text

instance (s : Buffer R × Timeline) : (op : Op) → Decidable (Linear s op)
  | .insert _ => inferInstanceAs (Decidable (_ ∧ (_ → _) ∧ _ ≠ _))
  | .delete => inferInstanceAs (Decidable (_ ∧ (_ → _) ∧ ∃ c ∈ s.1.cursors, _))
  | .undo => inferInstanceAs (Decidable (_ → _ → _))
  | .markUndoPoint | .redo | .takeSnapshot | .setCursors _ => isTrue trivial

/-- **Undone twice and redone once**: of `ab`, typed and marked in two
steps, `a` is left. -/
theorem current_of_redone :
    ∃ b h, (tracked listRopey).ReachUnder Linear (opened ([] : Text)) (b, h) ∧
    h.past = [[]] ∧ h.future = [['a', 'b']] ∧ b.rope.text = ['a'] ∧ b.rope.text = h.current := by
  obtain ⟨⟨b, h⟩, hreach, hpast, hfuture, htext⟩ : ∃ s,
      (tracked listRopey).ReachUnder Linear (opened ([] : Text)) s ∧
        s.2.past = [[]] ∧ s.2.future = [['a', 'b']] ∧ s.1.rope.text = ['a'] :=
    Machine.exists_reachUnder [.insert ['a'], .markUndoPoint, .insert ['b'], .markUndoPoint, .undo,
      .undo, .redo] (by decide +kernel)
  exact ⟨b, h, hreach, hpast, hfuture, htext, current_of_linear hreach⟩

/-- **Edited after an undo.** Back at the first text, `b` is typed and
marked; it cannot be undone, since the first text is not on the undo
stack, and the `a` that should be gone is redone after it. -/
theorem not_current_of_edit_after_undo :
    (∃ b h, (tracked listRopey).Reach (opened ([] : Text)) (b, h) ∧ h.current = [] ∧
      b.rope.text = ['b']) ∧
    ∃ b h, (tracked listRopey).Reach (opened ([] : Text)) (b, h) ∧ h.current = ['b'] ∧
      b.rope.text = ['a'] := by
  constructor
  · obtain ⟨⟨b, h⟩, hreach⟩ : ∃ s, (tracked listRopey).Reach (opened ([] : Text)) s ∧
        s.2.current = [] ∧ s.1.rope.text = ['b'] :=
      Machine.exists_reachUnder [.insert ['a'], .markUndoPoint, .undo,
        .setCursors [.normal ⟨0, 0⟩], .insert ['b'], .markUndoPoint, .undo] (by decide +kernel)
    exact ⟨b, h, hreach⟩
  · obtain ⟨⟨b, h⟩, hreach⟩ : ∃ s, (tracked listRopey).Reach (opened ([] : Text)) s ∧
        s.2.current = ['b'] ∧ s.1.rope.text = ['a'] :=
      Machine.exists_reachUnder [.insert ['a'], .markUndoPoint, .undo,
        .setCursors [.normal ⟨0, 0⟩], .insert ['b'], .redo] (by decide +kernel)
    exact ⟨b, h, hreach⟩

/-! ## Back and forth -/

/-- An undo that changes the text can be redone. -/
theorem redoStack_undo (hmoves : b.undo.rope.text ≠ b.rope.text) :
    b.undo.redoStack = b.rope :: b.redoStack := by
  rw [undo_eq] at hmoves ⊢
  split at hmoves
  · exact absurd rfl hmoves
  · rw [if_neg ‹_›]
    generalize (if topIs b.rope b.undoStack then _ else _ : List (Rope R)) = stack at hmoves ⊢
    cases stack with
    | nil => exact absurd rfl hmoves
    | cons buf rest => rfl

theorem redo_of_cons (hb : b.redoStack = r :: rest) :
    b.redo.rope = r ∧ b.redo.redoStack = rest := by
  simp [redo, hb]

/-- **As many redos as undos bring the text back**, whatever was edited
and marked before, if every undo changed the text. -/
theorem redo_undo_iterate (n : Nat) (b : Buffer R)
    (hmoves : ∀ m < n, (undo^[m + 1] b).rope.text ≠ (undo^[m] b).rope.text) :
    (redo^[n] (undo^[n] b)).rope = b.rope ∧ (redo^[n] (undo^[n] b)).redoStack = b.redoStack := by
  induction n generalizing b with
  | zero => exact ⟨rfl, rfl⟩
  | succ n ih =>
    -- the undos after the first are redone before it
    have hlater := (ih b.undo fun m hm => hmoves (m + 1) (by omega)).2
    rw [redoStack_undo (hmoves 0 (by omega))] at hlater
    rw [Function.iterate_succ_apply', Function.iterate_succ_apply]
    exact redo_of_cons hlater

/-- Two edits, undone and redone. -/
theorem redo_undo_iterate_two : ∃ b : Buffer listRopey, (undo^[2] b).rope.text = [] ∧
    (redo^[2] (undo^[2] b)).rope.text = ['a', 'b'] := by
  obtain ⟨b, -, hmoves, hundone, htext⟩ : ∃ b, (machine listRopey).Reach (openFile ([] : Text)) b ∧
      (∀ m < 2, (undo^[m + 1] b).rope.text ≠ (undo^[m] b).rope.text) ∧
        (undo^[2] b).rope.text = [] ∧ b.rope.text = ['a', 'b'] :=
    Machine.exists_reachUnder [.insert ['a'], .markUndoPoint, .insert ['b'], .markUndoPoint]
      (by decide +kernel)
  exact ⟨b, hundone, (redo_undo_iterate 2 b hmoves).1 ▸ htext⟩

end Archives.Noa.Next
