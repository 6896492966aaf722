import Archives.Common.Machine
import Archives.Noa.Model.Buffer
/-!
# Noa — undo, redo and snapshots

`noa-next/src/buffer/{buffer,rope,snapshot,cursor}.rs`: the later version
of the editor. Its rope carries a version number, which every change of
the text increments; undo and redo put a whole rope back, with the
version it had. Snapshots are cached by the version.

Again `ropey` is not part of the repository; of its operations `Ropey`
only promises that the chunks of a rope make up its text. A panic is
`none`.
-/

namespace Archives.Noa.Next

/-- **The rope of the crate.** -/
structure Ropey where
  Rope : Type
  text : Rope → Text
  lenLines : Rope → Nat
  lineToChar : Rope → Nat → Option Nat
  /-- The characters of a line, with its line break. -/
  line : Rope → Nat → Option Text
  chunks : Rope → List Text
  remove : Rope → Nat → Nat → Option Rope
  insert : Rope → Nat → Text → Option Rope
  flatten_chunks : ∀ r, (chunks r).flatten = text r

abbrev Point := Position

def overlapsWith (a b : Range) : Bool :=
  !(a.back.y < b.front.y || a.front.y > b.back.y ||
    (a.back.y == b.front.y && a.back.x ≤ b.front.x) ||
    (a.front.y == b.back.y && a.front.x ≥ b.back.x))

inductive Cursor
  | normal (pos : Point)
  | selection (range : Range)
  deriving DecidableEq, Repr

namespace Cursor

def front : Cursor → Point
  | normal pos => pos
  | selection range => range.front

def back : Cursor → Point
  | normal pos => pos
  | selection range => range.back

/-- What `Ord for Cursor` compares. -/
def key : Cursor → Point
  | normal pos => pos
  | selection range => range.start

/-- Puts a cursor before the first one that is not less. -/
def insertSorted (c : Cursor) : List Cursor → List Cursor
  | [] => [c]
  | d :: ds => if c.key.cmp d.key = .gt then d :: insertSorted c ds else c :: d :: ds

/-- `slice::sort`, which is stable. -/
def sort (cs : List Cursor) : List Cursor := cs.foldr insertSorted []

/-- The cursor is one of the others, or overlaps with one. Cursors and
selections are not compared. -/
def duplicated (c : Cursor) : List Cursor → Option Bool
  | [] => some false
  | d :: ds =>
    match c, d with
    | normal pos, normal other => if pos = other then some true else duplicated c ds
    | selection range, selection other =>
      if overlapsWith range other then some true else duplicated c ds
    | _, _ => none

/-- The cursors without duplicates; `seen` are those before. -/
def merge (seen : List Cursor) : List Cursor → Option (List Cursor)
  | [] => some []
  | c :: cs => do
    let skip ← duplicated c seen
    let rest ← merge (seen ++ [c]) cs
    pure (if skip then rest else c :: rest)

end Cursor

variable {R : Ropey}

/-! ## Ropes -/

structure Rope (R : Ropey) where
  inner : R.Rope
  modifiedLine : Option Nat
  cachedNumLines : Nat
  version : Nat

namespace Rope

variable (r : Rope R)

def text : Text := R.text r.inner

/-- `PartialEq for Rope`. -/
def eq (a b : Rope R) : Bool :=
  a.text == b.text && a.modifiedLine == b.modifiedLine && a.cachedNumLines == b.cachedNumLines &&
    a.version == b.version

def numLines : Nat := r.cachedNumLines

/-- `Rope::line_len`, without the newlines at the end. -/
def lineLen (y : Nat) : Option Nat :=
  if y = r.numLines then some 0
  else (R.line r.inner y).map fun line => (line.reverse.dropWhile (· == '\n')).length

def indexInRope (pos : Point) : Option Nat := do
  let x ← if pos.x = usizeMax then r.lineLen pos.y else some pos.x
  let start ← R.lineToChar r.inner pos.y
  pure (start + x)

/-- `Rope::on_modified`, with the text modified already. -/
def onModified (inner : R.Rope) (startY : Nat) : Option (Rope R) :=
  if r.version = usizeMax then none
  else some {
    inner := inner
    modifiedLine := some startY
    cachedNumLines := R.lenLines inner
    version := r.version + 1 }

def insert (pos : Point) (string : Text) : Option (Rope R) := do
  let i ← r.indexInRope pos
  let inner ← R.insert r.inner i string
  r.onModified inner pos.y

def remove (range : Range) : Option (Rope R) := do
  let start ← r.indexInRope range.front
  let stop ← r.indexInRope range.back
  let inner ← R.remove r.inner start stop
  r.onModified inner range.front.y

def resetModifiedLine : Rope R := { r with modifiedLine := none }

end Rope

/-! ## Snapshots -/

structure Snapshot where
  text : Text
  words : List Text

def minWordLen : Nat := 5

namespace Snapshot

def empty : Snapshot := { text := [], words := [] }

/-- Adds a word to the set, if it is long enough. -/
def addWord (word : Text) (words : List Text) : List Text :=
  if minWordLen ≤ word.length ∧ word ∉ words then word :: words else words

/-- One character of the text: it goes on with the current word or ends
it. -/
def scan (st : Text × List Text) (c : Char) : Text × List Text :=
  if c.isAlphanum || c == '_' then (st.1 ++ [c], st.2) else ([], addWord st.1 st.2)

def new (rope : Rope R) : Snapshot :=
  let chunks := R.chunks rope.inner
  let st := chunks.foldl (fun st chunk => chunk.foldl scan st) ([], [])
  { text := chunks.foldl (· ++ ·) [], words := addWord st.1 st.2 }

end Snapshot

/-! ## Buffers -/

/-- `Buffer`. The last element of a stack comes first. -/
structure Buffer (R : Ropey) where
  rope : Rope R
  cursors : List Cursor
  undoStack : List (Rope R)
  redoStack : List (Rope R)
  snapshotCache : Nat × Snapshot

/-- A rope as `Rope::from_reader` makes it. -/
def Rope.fromReader (inner : R.Rope) : Rope R where
  inner := inner
  modifiedLine := none
  cachedNumLines := R.lenLines inner
  version := 1

namespace Buffer

/-- `Buffer::open_file`; with the empty rope, `Buffer::new`. -/
def openFile (inner : R.Rope) : Buffer R where
  rope := Rope.fromReader inner
  cursors := [.normal ⟨0, 0⟩]
  undoStack := [Rope.fromReader inner]
  redoStack := []
  snapshotCache := (0, Snapshot.empty)

variable (b : Buffer R)

def setCursors (cursors : List Cursor) : Option (Buffer R) :=
  (Cursor.merge [] (Cursor.sort cursors)).map fun cursors => { b with cursors := cursors }

/-- How an insertion moves a cursor after it. -/
def shiftInsert (insertAt stop : Point) (yDiff : Nat) : Cursor → Option Cursor
  | .normal pos =>
    if pos.y = stop.y then
      if stop.x ≤ pos.x then some (.normal ⟨insertAt.y, insertAt.x + (pos.x - stop.x)⟩) else none
    else some (.normal ⟨pos.y + yDiff, pos.x⟩)
  | .selection _ => none

variable (rope : Rope R)

/-- The selected text is removed. -/
def removeSelection : Cursor → Option (Rope R)
  | .normal _ => some rope
  | .selection range => rope.remove range

/-- A newline is inserted before an insertion at the end of the file. -/
def insertNewlineAtEnd (string : Text) (insertAt : Point) (rope : Rope R) : Option (Rope R) :=
  if insertAt.y = rope.numLines ∧ string ≠ ['\n'] then rope.insert insertAt ['\n'] else some rope

/-- The loop body of `Buffer::insert`. -/
def insertAtCursor (string : Text) (st : Rope R × List Cursor) (c : Cursor) :
    Option (Rope R × List Cursor) := do
  let insertAt := c.front
  let rope ← removeSelection st.1 c
  let rope ← insertNewlineAtEnd string insertAt rope
  let rope ← rope.insert insertAt string
  let yDiff := string.count '\n' - (c.back.y - insertAt.y)
  let newCursors ← st.2.mapM (shiftInsert insertAt c.back yDiff)
  let xDiff ← xDiff string
  let x := if string.contains '\n' then xDiff else insertAt.x + xDiff
  pure (rope, newCursors ++ [.normal ⟨insertAt.y + yDiff, x⟩])

def insert (string : Text) (b : Buffer R) : Option (Buffer R) := do
  let (rope, newCursors) ←
    b.cursors.reverse.foldlM (insertAtCursor string) (b.rope.resetModifiedLine, [])
  setCursors { b with rope := rope } newCursors

/-- How a deletion moves a cursor after it. -/
def shiftRemove (front stop : Point) : Cursor → Option Cursor
  | .normal pos =>
    if pos.y = stop.y then
      if stop.x ≤ pos.x then some (.normal ⟨front.y, front.x + (pos.x - stop.x)⟩) else none
    else if stop.y - front.y ≤ pos.y then some (.normal ⟨pos.y - (stop.y - front.y), pos.x⟩)
    else none
  | .selection _ => none

/-- The next cursor is where the range starts. -/
def isAt (front : Point) : Option Cursor → Bool
  | some (.normal pos) => pos == front
  | _ => false

def removeRange (range : Range) (nextCursor : Option Cursor)
    (newCursors : List Cursor) : Option (Rope R × List Cursor) := do
  let rope ← rope.remove range
  let newCursors ← newCursors.mapM (shiftRemove range.front range.back)
  pure (rope,
    if isAt range.front nextCursor then newCursors else newCursors ++ [.normal range.front])

/-- The range `Buffer::delete` removes at a cursor, if any. -/
def deleteRange : Cursor → Option (Option Range)
  | .normal pos => do
    let maxX ← rope.lineLen pos.y
    if pos.y = rope.numLines ∧ pos.x = maxX then pure none
    else if pos.x = maxX then pure (some ⟨pos, ⟨pos.y + 1, 0⟩⟩)
    else pure (some ⟨pos, ⟨pos.y, pos.x + 1⟩⟩)
  | .selection range => some (some range)

/-- The loop of `Buffer::delete`. -/
def deleteAtCursors : List Cursor → Rope R → List Cursor → Option (Rope R × List Cursor)
  | [], rope, newCursors => some (rope, newCursors)
  | c :: rest, rope, newCursors => do
    match ← deleteRange rope c with
    | none => deleteAtCursors rest rope (newCursors ++ [c])
    | some range => do
      let (rope, newCursors) ← removeRange rope range rest.head? newCursors
      deleteAtCursors rest rope newCursors

def delete : Option (Buffer R) := do
  let (rope, newCursors) ← deleteAtCursors b.cursors.reverse b.rope.resetModifiedLine []
  setCursors { b with rope := rope } newCursors

/-- The rope on top of a stack is the one of the buffer. -/
def topIs : List (Rope R) → Bool
  | [] => false
  | top :: _ => top.eq rope

def markUndoPoint : Buffer R :=
  if topIs b.rope b.undoStack then b else { b with undoStack := b.rope :: b.undoStack }

def undo : Buffer R :=
  if b.undoStack.length = 1 ∧ b.rope.text = [] then b
  else
    let undoStack := if topIs b.rope b.undoStack then b.undoStack.tail else b.undoStack
    match undoStack with
    | [] => { b with undoStack := [] }
    | buf :: rest =>
      { b with rope := buf, undoStack := rest, redoStack := b.rope :: b.redoStack }

def redo : Buffer R :=
  match b.redoStack with
  | [] => b
  | buf :: rest => { b with rope := buf, undoStack := b.rope :: b.undoStack, redoStack := rest }

def takeSnapshot : Snapshot × Buffer R :=
  let cache := if b.snapshotCache.1 ≠ b.rope.version then (b.rope.version, Snapshot.new b.rope)
    else b.snapshotCache
  (cache.2, { b with snapshotCache := cache })

end Buffer

/-- What is done with a buffer. -/
inductive Op
  | insert (string : Text)
  | delete
  | markUndoPoint
  | undo
  | redo
  | takeSnapshot
  /-- Any movement of the cursors. -/
  | setCursors (cursors : List Cursor)

def machine (R : Ropey) : Machine (Buffer R) Op where
  step b
    | .insert string => b.insert string
    | .delete => b.delete
    | .markUndoPoint => some b.markUndoPoint
    | .undo => some b.undo
    | .redo => some b.redo
    | .takeSnapshot => some b.takeSnapshot.2
    | .setCursors cursors => b.setCursors cursors

/-- **A snapshot is of the current text.** -/
def SnapshotCurrent (b : Buffer R) : Prop := b.takeSnapshot.1.text = b.rope.text

/-- The buffer has the newest version: no rope to undo or redo to, and not
the cached snapshot, has a later one. -/
@[mk_iff]
structure Newest (b : Buffer R) : Prop where
  undo : ∀ r ∈ b.undoStack, r.version ≤ b.rope.version
  redo : ∀ r ∈ b.redoStack, r.version ≤ b.rope.version
  cache : b.snapshotCache.1 ≤ b.rope.version

/-- The text is edited in the newest version only. -/
def EditsNewest (b : Buffer R) : Op → Prop
  | .insert _ | .delete => Newest b
  | _ => True

end Archives.Noa.Next
