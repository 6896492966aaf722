import Archives.Noa.Model.Snapshot
/-!
# Noa — snapshots of a text that was undone

An undo puts an old rope back with its old version, and the next edit
counts on from there: it gives the text a version that another text has,
one that can be redone or one in the snapshot cache. A snapshot taken
then may be of the other text.

What a buffer holds are versions with their texts: of its rope, of the
ropes on its stacks and of the cached snapshot. As long as it is edited
in its newest version only, no version has two texts (`Consistent`).
-/

namespace Archives.Noa.Next

open List Option Buffer

variable {R : Ropey} {b b' : Buffer R} {r r' : Rope R} {string : Text}

/-! ## Snapshots -/

theorem text_new (r : Rope R) : (Snapshot.new r).text = r.text := by
  refine (foldl_append_eq_append (f := id)).trans ?_
  rw [List.map_id]
  exact R.flatten_chunks r.inner

/-! ## Edits -/

/-- An edit leads to a later version, or changes nothing. -/
def Advances (r r' : Rope R) : Prop :=
  r.version < r'.version ∨ (r'.version = r.version ∧ r'.text = r.text)

theorem Advances.refl (r : Rope R) : Advances r r := .inr ⟨rfl, rfl⟩

theorem Advances.trans {r'' : Rope R} (h : Advances r r') (h' : Advances r' r'') :
    Advances r r'' := by
  rcases h with hlt | ⟨hv, ht⟩
  · rcases h' with hlt' | ⟨hv', _⟩
    · exact .inl (Nat.lt_trans hlt hlt')
    · exact .inl (hv'.symm ▸ hlt)
  · rcases h' with hlt' | ⟨hv', ht'⟩
    · exact .inl (hv ▸ hlt')
    · exact .inr ⟨hv'.trans hv, ht'.trans ht⟩

theorem Advances.le (h : Advances r r') : r.version ≤ r'.version := by
  rcases h with hlt | ⟨hv, -⟩
  · exact Nat.le_of_lt hlt
  · exact Nat.le_of_eq hv.symm

theorem lt_onModified {inner : R.Rope} {y : Nat} (h : r.onModified inner y = some r') :
    r.version < r'.version := by
  unfold Rope.onModified at h
  split at h
  · cases h
  · cases h
    exact Nat.lt_succ_self r.version

theorem lt_insert {pos : Point} (h : r.insert pos string = some r') : r.version < r'.version := by
  obtain ⟨i, _, h⟩ := bind_eq_some_iff.1 h
  obtain ⟨inner, _, h⟩ := bind_eq_some_iff.1 h
  exact lt_onModified h

theorem lt_remove {range : Range} (h : r.remove range = some r') : r.version < r'.version := by
  obtain ⟨start, _, h⟩ := bind_eq_some_iff.1 h
  obtain ⟨stop, _, h⟩ := bind_eq_some_iff.1 h
  obtain ⟨inner, _, h⟩ := bind_eq_some_iff.1 h
  exact lt_onModified h

theorem advances_removeSelection {c : Cursor} (h : removeSelection r c = some r') :
    Advances r r' := by
  cases c with
  | normal pos =>
    cases h
    exact .refl r
  | selection range => exact .inl (lt_remove h)

/-- Every cursor modifies the text. -/
theorem lt_insertAtCursor {st st' : Rope R × List Cursor} {c : Cursor}
    (h : insertAtCursor string st c = some st') : st.1.version < st'.1.version := by
  obtain ⟨r₁, h₁, h⟩ := bind_eq_some_iff.1 h
  obtain ⟨r₂, h₂, h⟩ := bind_eq_some_iff.1 h
  obtain ⟨r₃, h₃, h⟩ := bind_eq_some_iff.1 h
  obtain ⟨newCursors, _, h⟩ := bind_eq_some_iff.1 h
  obtain ⟨xDiff, _, h⟩ := bind_eq_some_iff.1 h
  cases h
  have hsecond : Advances r₁ r₂ := by
    unfold insertNewlineAtEnd at h₂
    split at h₂
    · exact .inl (lt_insert h₂)
    · cases h₂
      exact .refl r₁
  have hle := ((advances_removeSelection h₁).trans hsecond).le
  exact Nat.lt_of_le_of_lt hle (lt_insert h₃)

/-- By induction on the cursors. -/
theorem advances_foldlM {cs : List Cursor} {st st' : Rope R × List Cursor}
    (h : cs.foldlM (insertAtCursor string) st = some st') : Advances st.1 st'.1 := by
  induction cs generalizing st with
  | nil =>
    cases h
    exact .refl _
  | cons c cs ih =>
    obtain ⟨st₁, h₁, h⟩ := bind_eq_some_iff.1 h
    exact .trans (.inl (lt_insertAtCursor h₁)) (ih h)

theorem advances_deleteAtCursors {cs newCursors newCursors' : List Cursor}
    (h : deleteAtCursors cs r newCursors = some (r', newCursors')) : Advances r r' ∧
      ((∃ c ∈ cs, (deleteRange r c).join.isSome) → r.version < r'.version) := by
  induction cs generalizing r newCursors with
  | nil =>
    cases h
    exact ⟨.refl _, by simp⟩
  | cons c cs ih =>
    obtain ⟨range, hrange, h⟩ := bind_eq_some_iff.1 h
    cases range with
    | none =>
      -- nothing is deleted at this cursor
      refine ⟨(ih h).1, fun hex => (ih h).2 ?_⟩
      simpa [hrange] using hex
    | some range =>
      obtain ⟨⟨r₁, newCursors₁⟩, hremove, h⟩ := bind_eq_some_iff.1 h
      obtain ⟨r₂, h₂, hremove⟩ := bind_eq_some_iff.1 hremove
      obtain ⟨newCursors₂, _, hremove⟩ := bind_eq_some_iff.1 hremove
      cases hremove
      have hlt := Nat.lt_of_lt_of_le (lt_remove h₂) (ih h).1.le
      exact ⟨.inl hlt, fun _ => hlt⟩

/-- The buffer apart from its cursors. -/
structure SameBut (b b' : Buffer R) : Prop where
  undo : b'.undoStack = b.undoStack
  redo : b'.redoStack = b.redoStack
  cache : b'.snapshotCache = b.snapshotCache

theorem setCursors_frame {cursors : List Cursor} (h : b.setCursors cursors = some b') :
    b'.rope = b.rope ∧ SameBut b b' := by
  obtain ⟨merged, _, rfl⟩ := map_eq_some_iff.1 h
  exact ⟨rfl, rfl, rfl, rfl⟩

/-- **An edit changes the rope and the cursors**; with a cursor it makes a
newer version. -/
theorem insert_frame (h : b.insert string = some b') : (Advances b.rope b'.rope ∧ SameBut b b') ∧
    (b.cursors ≠ [] → b.rope.version < b'.rope.version) := by
  obtain ⟨⟨rope, newCursors⟩, hfold, h⟩ := bind_eq_some_iff.1 h
  obtain ⟨hrope, hsame⟩ := setCursors_frame h
  rw [hrope]
  refine ⟨⟨advances_foldlM hfold, hsame.undo, hsame.redo, hsame.cache⟩, fun hne => ?_⟩
  obtain ⟨c, cs, hcs⟩ := exists_cons_of_ne_nil (reverse_ne_nil_iff.2 hne)
  rw [hcs] at hfold
  obtain ⟨st₁, h₁, hfold⟩ := bind_eq_some_iff.1 hfold
  exact Nat.lt_of_lt_of_le (lt_insertAtCursor h₁) (advances_foldlM hfold).le

/-- A deletion that has something to delete makes a newer version. -/
theorem delete_frame (h : b.delete = some b') : (Advances b.rope b'.rope ∧ SameBut b b') ∧
    ((∃ c ∈ b.cursors, (deleteRange b.rope c).join.isSome) →
      b.rope.version < b'.rope.version) := by
  obtain ⟨⟨rope, newCursors⟩, hdelete, h⟩ := bind_eq_some_iff.1 h
  obtain ⟨hrope, hsame⟩ := setCursors_frame h
  obtain ⟨hadvances, hlt⟩ := advances_deleteAtCursors hdelete
  rw [hrope]
  refine ⟨⟨hadvances, hsame.undo, hsame.redo, hsame.cache⟩, fun ⟨c, hc, hsome⟩ => hlt ?_⟩
  exact ⟨c, mem_reverse.2 hc, by cases c <;> exact hsome⟩

/-! ## Versions and their texts -/

/-- **What a buffer holds**: versions with their texts. -/
inductive Held (b : Buffer R) : Nat → Text → Prop
  | rope : Held b b.rope.version b.rope.text
  | undo {r : Rope R} (h : r ∈ b.undoStack) : Held b r.version r.text
  | redo {r : Rope R} (h : r ∈ b.redoStack) : Held b r.version r.text
  | cache : Held b b.snapshotCache.1 b.snapshotCache.2.text

/-- No version has two texts. -/
def Consistent (b : Buffer R) : Prop := ∀ v t t', Held b v t → Held b v t' → t = t'

section

variable (h : Consistent b)

include h

theorem Consistent.snapshotCurrent : SnapshotCurrent b := by
  unfold SnapshotCurrent takeSnapshot
  by_cases hv : b.snapshotCache.1 ≠ b.rope.version
  · simp only [if_pos hv]
    exact text_new b.rope
  · simp only [if_neg hv]
    have hcache := Held.cache (b := b)
    rw [not_not.1 hv] at hcache
    exact h _ _ _ hcache .rope

/-- What holds nothing new stays consistent. -/
theorem Consistent.of_held (hsub : ∀ v t, Held b' v t → Held b v t) : Consistent b' := by
  intro v t t' ht ht'
  exact h v t t' (hsub v t ht) (hsub v t' ht')

omit h in
/-- Nothing that is held is newer than the rope. -/
theorem Newest.le (h : Newest b) {v : Nat} {t : Text} (hv : Held b v t) : v ≤ b.rope.version := by
  cases hv with
  | rope => exact Nat.le_refl _
  | undo hr => exact h.undo _ hr
  | redo hr => exact h.redo _ hr
  | cache => exact h.cache

/-- **An edit of the newest version gives the text a version of its own.** -/
theorem Consistent.edit (hnew : Newest b) (hframe : Advances b.rope b'.rope ∧ SameBut b b') :
    Consistent b' := by
  obtain ⟨hadvances, hsame⟩ := hframe
  -- what is held after the edit was held before, or is the new text
  have hcases : ∀ v t, Held b' v t →
      Held b v t ∨ (b.rope.version < v ∧ v = b'.rope.version ∧ t = b'.rope.text) := by
    intro v t hv
    cases hv with
    | rope =>
      rcases hadvances with hlt | ⟨hv, ht⟩
      · exact .inr ⟨hlt, rfl, rfl⟩
      · rw [hv, ht]
        exact .inl .rope
    | undo hr =>
      rw [hsame.undo] at hr
      exact .inl (.undo hr)
    | redo hr =>
      rw [hsame.redo] at hr
      exact .inl (.redo hr)
    | cache =>
      rw [hsame.cache]
      exact .inl .cache
  intro v t t' ht ht'
  rcases hcases v t ht with hold | ⟨hlt, _, heq⟩
  · rcases hcases v t' ht' with hold' | ⟨hlt, _, _⟩
    · exact h v t t' hold hold'
    · exact absurd (hnew.le hold) (Nat.not_le_of_lt hlt)
  · rcases hcases v t' ht' with hold' | ⟨_, _, heq'⟩
    · exact absurd (hnew.le hold') (Nat.not_le_of_lt hlt)
    · rw [heq, heq']

theorem Consistent.markUndoPoint : Consistent b.markUndoPoint := by
  unfold Buffer.markUndoPoint
  split
  · exact h
  · refine h.of_held fun v t hv => ?_
    cases hv with
    | rope => exact .rope
    | undo hr =>
      rcases mem_cons.1 hr with rfl | hr
      · exact .rope
      · exact .undo hr
    | redo hr => exact .redo hr
    | cache => exact .cache

theorem Consistent.undo : Consistent b.undo := by
  unfold Buffer.undo
  split
  · exact h
  · have hsub : ∀ r ∈ (if topIs b.rope b.undoStack then b.undoStack.tail else b.undoStack),
        r ∈ b.undoStack := by
      intro r hr
      split at hr
      · exact mem_of_mem_tail hr
      · exact hr
    simp only
    split
    · refine h.of_held fun v t hv => ?_
      cases hv with
      | rope => exact .rope
      | undo hr => cases hr
      | redo hr => exact .redo hr
      | cache => exact .cache
    · rename_i buf rest hstack
      rw [hstack] at hsub
      refine h.of_held fun v t hv => ?_
      cases hv with
      | rope => exact .undo (hsub buf mem_cons_self)
      | undo hr => exact .undo (hsub _ (mem_cons_of_mem buf hr))
      | redo hr =>
        rcases mem_cons.1 hr with rfl | hr
        · exact .rope
        · exact .redo hr
      | cache => exact .cache

theorem Consistent.redo : Consistent b.redo := by
  unfold Buffer.redo
  split
  · exact h
  · rename_i buf rest hstack
    refine h.of_held fun v t hv => ?_
    cases hv with
    | rope =>
      refine .redo ?_
      rw [hstack]
      exact mem_cons_self
    | undo hr =>
      rcases mem_cons.1 hr with rfl | hr
      · exact .rope
      · exact .undo hr
    | redo hr =>
      refine .redo ?_
      rw [hstack]
      exact mem_cons_of_mem buf hr
    | cache => exact .cache

theorem Consistent.takeSnapshot : Consistent b.takeSnapshot.2 := by
  refine h.of_held fun v t hv => ?_
  cases hv with
  | rope => exact .rope
  | undo hr => exact .undo hr
  | redo hr => exact .redo hr
  | cache =>
    unfold Buffer.takeSnapshot
    by_cases hv : b.snapshotCache.1 ≠ b.rope.version
    · simp only [if_pos hv, text_new]
      exact .rope
    · simp only [if_neg hv]
      exact .cache

/-- **Every step that edits the newest version only keeps it so.** -/
theorem Consistent.step {op : Op} (hop : EditsNewest b op)
    (hstep : (machine R).step b op = some b') :
    Consistent b' := by
  cases op with
  | insert string => exact h.edit hop (insert_frame hstep).1
  | delete => exact h.edit hop (delete_frame hstep).1
  | markUndoPoint =>
    cases hstep
    exact h.markUndoPoint
  | undo =>
    cases hstep
    exact h.undo
  | redo =>
    cases hstep
    exact h.redo
  | takeSnapshot =>
    cases hstep
    exact h.takeSnapshot
  | setCursors cursors =>
    obtain ⟨hrope, hsame⟩ := setCursors_frame hstep
    refine h.of_held fun v t hv => ?_
    cases hv with
    | rope =>
      rw [hrope]
      exact .rope
    | undo hr => exact .undo (hsame.undo ▸ hr)
    | redo hr => exact .redo (hsame.redo ▸ hr)
    | cache =>
      rw [hsame.cache]
      exact .cache

end

theorem consistent_openFile (inner : R.Rope) : Consistent (.openFile inner) := by
  have hcases : ∀ v t, Held (.openFile inner) v t →
      (v = 1 ∧ t = R.text inner) ∨ (v = 0 ∧ t = []) := by
    intro v t hv
    cases hv with
    | rope => exact .inl ⟨rfl, rfl⟩
    | undo hr =>
      rw [mem_singleton.1 hr]
      exact .inl ⟨rfl, rfl⟩
    | redo hr => cases hr
    | cache => exact .inr ⟨rfl, rfl⟩
  intro v t t' ht ht'
  rcases hcases v t ht with ⟨hv, ht⟩ | ⟨hv, ht⟩
  · rcases hcases v t' ht' with ⟨_, ht'⟩ | ⟨hv', _⟩
    · rw [ht, ht']
    · omega
  · rcases hcases v t' ht' with ⟨hv', _⟩ | ⟨_, ht'⟩
    · omega
    · rw [ht, ht']

/-- **In every run that edits the newest version only**, snapshots are of
the current text. -/
theorem snapshotCurrent_of_editsNewest {inner : R.Rope}
    (h : (machine R).ReachUnder EditsNewest (openFile inner) b) : SnapshotCurrent b := by
  have hconsistent : Consistent b :=
    h.invariant (consistent_openFile inner) fun hx hop hstep => hx.step hop hstep
  exact hconsistent.snapshotCurrent

instance (b : Buffer R) : Decidable (Newest b) := decidable_of_iff _ (newest_iff b).symm

instance (b : Buffer R) (op : Op) : Decidable (EditsNewest b op) := by
  cases op <;> unfold EditsNewest <;> infer_instance

/-- The index after the first `y` newlines, or the end. -/
def lineStart : Nat → Text → Nat
  | 0, _ => 0
  | _ + 1, [] => 0
  | y + 1, c :: s => (if c = '\n' then lineStart y s else lineStart (y + 1) s) + 1

/-- A rope that is a list of characters, in one chunk. -/
def listRopey : Ropey where
  Rope := Text
  text s := s
  lenLines s := s.count '\n' + 1
  lineToChar s y := if y ≤ s.count '\n' + 1 then some (lineStart y s) else none
  line s y := if y ≤ s.count '\n' then
    some ((s.take (lineStart (y + 1) s)).drop (lineStart y s)) else none
  chunks s := [s]
  remove s i j := if i ≤ j ∧ j ≤ s.length then some (s.take i ++ s.drop j) else none
  insert s i t := if i ≤ s.length then some (s.take i ++ t ++ s.drop i) else none
  flatten_chunks s := append_nil s

def newBuffer : Buffer listRopey := openFile ([] : Text)

/-- **Undone and redone**: the snapshot taken before is still right. -/
theorem snapshotCurrent_of_redo : ∃ b, (machine listRopey).ReachUnder EditsNewest newBuffer b ∧
    b.rope.text = ['a', 'b'] ∧ SnapshotCurrent b := by
  obtain ⟨b, hreach, htext⟩ : ∃ b, (machine listRopey).ReachUnder EditsNewest newBuffer b ∧
      b.rope.text = ['a', 'b'] :=
    Machine.exists_reachUnder [.insert ['a'], .markUndoPoint, .insert ['b'], .takeSnapshot, .undo,
      .takeSnapshot, .redo] (by decide +kernel)
  exact ⟨b, hreach, htext, snapshotCurrent_of_editsNewest hreach⟩

/-- **Edited after an undo.** The deletion at the end of `a` removes
nothing, but makes version 3 of it, which is in the cache. It is undone,
and `ab` becomes version 3 as well. -/
theorem not_snapshotCurrent_of_edit_after_undo : ∃ b, (machine listRopey).Reach newBuffer b ∧
    b.rope.text = ['a', 'b'] ∧ b.takeSnapshot.1.text = ['a'] ∧ ¬ SnapshotCurrent b := by
  obtain ⟨b, hreach, htext, hsnapshot⟩ : ∃ b, (machine listRopey).Reach newBuffer b ∧
      b.rope.text = ['a', 'b'] ∧ b.takeSnapshot.1.text = ['a'] :=
    Machine.exists_reachUnder [.insert ['a'], .markUndoPoint, .delete, .takeSnapshot, .undo,
      .insert ['b']] (by decide +kernel)
  refine ⟨b, hreach, htext, hsnapshot, fun h => ?_⟩
  unfold SnapshotCurrent at h
  rw [htext, hsnapshot] at h
  exact absurd h (by decide)

end Archives.Noa.Next
