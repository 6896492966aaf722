import Archives.Common.Columns
/-!
# Noa — positions, ranges and edits

`buffer/{cursor,raw_buffer,mut_raw_buffer}.rs`: positions in a buffer as
line and column, and what an edit at one cursor does to the others. The
text is kept in a rope, by the crate `ropey`. That code is not part of
the repository; `Ropey` lists the operations the buffer uses, with what
their documentation promises. Characters are counted, not bytes, except
where the source counts bytes.

Arithmetic on `usize` that goes below zero is a panic in debug builds and
a nonsensical number in others; both are `none` here.
-/

namespace Archives.Noa

open Columns

/-- The characters of a string. -/
abbrev Text := List Char

/-- The number of bytes of a string. -/
def bytes (s : Text) : Nat := s.foldr (fun c n => c.utf8Size + n) 0

/-! ## Lines -/

/-- A line ends after the character: it is a line break, and not the
first half of `\r\n`. -/
def endsLine (isBreak : Char → Bool) (c : Char) (next : Option Char) : Bool :=
  isBreak c && !(c == '\r' && next == some '\n')

/-- After which characters of a text a line ends; `next` is the character
that follows the text. -/
def marks (isBreak : Char → Bool) (next : Option Char) : Text → List Bool
  | [] => []
  | c :: s => endsLine isBreak c (s.head?.or next) :: marks isBreak next s

/-- **The rope.** Which characters are line breaks depends on how the
crate is built; `\n` always is. -/
structure Ropey where
  Rope : Type
  text : Rope → Text
  isBreak : Char → Bool
  lenLines : Rope → Nat
  lineToChar : Rope → Nat → Option Nat
  charToByte : Rope → Nat → Option Nat
  /-- `Rope::line` and `RopeSlice::len_chars`. -/
  lineLenChars : Rope → Nat → Option Nat
  /-- The last chunk of a line. -/
  lastChunk : Rope → Nat → Text
  remove : Rope → Nat → Nat → Option Rope
  insert : Rope → Nat → Text → Option Rope
  isBreak_newline : isBreak '\n' = true
  lenLines_eq : ∀ r, lenLines r = row (marks isBreak none (text r)) + 1
  lineToChar_eq : ∀ r y, y ≤ row (marks isBreak none (text r)) →
    lineToChar r y = some (rowStart (marks isBreak none (text r)) y)
  charToByte_eq : ∀ r i, i ≤ (text r).length → charToByte r i = some (bytes ((text r).take i))
  text_remove : ∀ r s e, s ≤ e → e ≤ (text r).length →
    (remove r s e).map text = some ((text r).take s ++ (text r).drop e)
  text_insert : ∀ r i t, i ≤ (text r).length →
    (insert r i t).map text = some ((text r).take i ++ t ++ (text r).drop i)

/-! ## Positions and ranges -/

structure Position where
  y : Nat
  x : Nat
  deriving DecidableEq, Repr

namespace Position

/-- `Ord for Position`. -/
def cmp (a b : Position) : Ordering :=
  if a = b then .eq
  else
    match compare a.y b.y with
    | .lt => .lt
    | .gt => .gt
    | .eq => compare a.x b.x

def min (a b : Position) : Position := if a.cmp b = .gt then b else a

def max (a b : Position) : Position := if a.cmp b = .gt then a else b

end Position

/-- `Range`; `stop` is its `end`. -/
structure Range where
  start : Position
  stop : Position
  deriving DecidableEq, Repr

namespace Range

def front (r : Range) : Position := r.start.min r.stop

def back (r : Range) : Position := r.start.max r.stop

end Range

structure Cursor where
  selection : Range
  deriving DecidableEq, Repr

/-- The characters before the last `c`. -/
def beforeLast (c : Char) : Text → Text
  | [] => []
  | a :: s => if c ∈ s then a :: beforeLast c s else []

/-- `str::rfind`, the byte index of the last `c`. -/
def rfind (c : Char) (s : Text) : Option Nat :=
  if c ∈ s then some (bytes (beforeLast c s)) else none

/-- The `x_diff` of `position_after_edit`. The index is one of bytes, the
count one of characters. -/
def xDiff (newText : Text) : Option Nat :=
  match rfind '\n' newText with
  | some x => if x + 1 ≤ newText.length then some (newText.length - x - 1) else none
  | none => some newText.length

def positionAfterEdit (range : Range) (newText : Text) : Option Position := do
  let pos := range.front
  let numNewlinesAdded := newText.count '\n'
  -- the back of a range is not above its front
  let numNewlinesDeleted := range.back.y - range.front.y
  let yDiff := numNewlinesAdded - numNewlinesDeleted
  let xDiff ← xDiff newText
  let newY := pos.y + yDiff
  let newX := if newText.contains '\n' then xDiff else pos.x + xDiff
  pure { y := newY, x := newX }

/-! ## Buffers -/

def usizeMax : Nat := 0xffffffffffffffff

variable {R : Ropey}

structure RawBuffer (R : Ropey) where
  rope : R.Rope

namespace RawBuffer

variable (b : RawBuffer R)

def text : Text := R.text b.rope

def numLines : Nat := R.lenLines b.rope

def lineLen (y : Nat) : Option Nat :=
  if y = b.numLines then some 0
  else do
    let len ← R.lineLenChars b.rope y
    let numNewlineChars := (R.lastChunk b.rope y).countP fun c => c = '\n' || c = '\r'
    if numNewlineChars ≤ len then some (len - numNewlineChars) else none

def posToCharIndex (pos : Position) : Option Nat :=
  if pos.y = b.numLines ∧ pos.x = 0 then do
    -- the end of the file
    let start ← R.lineToChar b.rope pos.y
    let len ← b.lineLen pos.y
    pure (start + len)
  else do
    let column ← if pos.x = usizeMax then b.lineLen pos.y else some pos.x
    let start ← R.lineToChar b.rope pos.y
    pure (start + column)

def posToByteIndex (pos : Position) : Option Nat := do
  R.charToByte b.rope (← b.posToCharIndex pos)

def clampRange (range : Range) : Option Range := do
  let startY := min range.start.y (b.numLines - 1)
  -- the line of the start, in place of the line of the end
  let stopY := min startY (b.numLines - 1)
  let startX := min range.start.x (← b.lineLen startY)
  let stopX := min range.stop.x (← b.lineLen stopY)
  pure { start := { y := startY, x := startX }, stop := { y := stopY, x := stopX } }

/-- The selection that `Buffer::add_cursor` adds, unless it panics. -/
def addCursor (selection : Range) : Option Range := do
  if selection = (← b.clampRange selection) then pure selection else none

end RawBuffer

structure Change where
  range : Range
  byteRange : Nat × Nat
  newPos : Position
  insertText : Text

structure MutRawBuffer (R : Ropey) where
  raw : RawBuffer R
  changes : List Change

namespace MutRawBuffer

/-- `Rope::remove`, unless there is nothing to remove. -/
def removeChars (rope : R.Rope) (start stop : Nat) : Option R.Rope :=
  if start < stop then R.remove rope start stop else some rope

/-- `Rope::insert`, unless there is nothing to insert. -/
def insertChars (rope : R.Rope) (start : Nat) (newText : Text) : Option R.Rope :=
  if newText ≠ [] then R.insert rope start newText else some rope

variable (b : MutRawBuffer R)

def editWithoutRecording (range : Range) (newText : Text) : Option (MutRawBuffer R) := do
  let start ← b.raw.posToCharIndex range.front
  let stop ← b.raw.posToCharIndex range.back
  let rope ← removeChars b.raw.rope start stop
  let rope ← insertChars rope start newText
  pure { b with raw := { rope := rope } }

def edit (range : Range) (newText : Text) : Option (Change × MutRawBuffer R) := do
  let newPos ← positionAfterEdit range newText
  let front ← b.raw.posToByteIndex range.front
  let back ← b.raw.posToByteIndex range.back
  let change : Change := {
    range := range, byteRange := (front, back), newPos := newPos, insertText := newText }
  let b ← { b with changes := b.changes ++ [change] }.editWithoutRecording range newText
  pure (change, b)

/-- The column `edit_at_cursor` gives to one end of a past cursor. -/
def adjustX (back newPos p : Position) : Option Nat :=
  if p.y = back.y then if back.x ≤ p.x then some (newPos.x + (p.x - back.x)) else none
  else some p.x

/-- The line `edit_at_cursor` gives to one end of a past cursor. -/
def adjustY (back newPos p : Position) : Option Nat :=
  let y : Int := p.y + ((newPos.y : Int) - back.y)
  if 0 ≤ y then some y.toNat else none

/-- Where `edit_at_cursor` moves one end of a past cursor. -/
def adjust (back newPos p : Position) : Option Position := do
  let x ← adjustX back newPos p
  let y ← adjustY back newPos p
  pure { y := y, x := x }

/-- Where `edit_at_cursor` moves a past cursor. -/
def adjustCursor (back newPos : Position) (c : Cursor) : Option Cursor := do
  let start ← adjust back newPos c.selection.start
  let stop ← adjust back newPos c.selection.stop
  pure { selection := { start := start, stop := stop } }

def editAtCursor (currentCursor : Cursor) (pastCursors : List Cursor) (newText : Text) :
    Option (MutRawBuffer R × Cursor × List Cursor) := do
  let rangeRemoved := currentCursor.selection
  let (change, b) ← b.edit rangeRemoved newText
  let newPos := change.newPos
  let pastCursors ← pastCursors.mapM (adjustCursor rangeRemoved.back newPos)
  pure (b, { selection := { start := newPos, stop := newPos } }, pastCursors)

end MutRawBuffer

/-! ## What an edit should do -/

section Spec

variable (isBreak : Char → Bool)

/-- The position of a place in a text. -/
def position (s : Text) (i : Nat) : Position where
  y := row ((marks isBreak none s).take i)
  x := column ((marks isBreak none s).take i)

/-- The cursor that selects what is between two places. -/
def cursorAt (s : Text) (i j : Nat) : Cursor where
  selection := { start := position isBreak s i, stop := position isBreak s j }

/-- A line ends right after the text. -/
def breakAfter (s : Text) (next : Option Char) : Bool :=
  (marks isBreak next s).getLast? == some true

/-- **A plain replacement.** The edit leaves the line break before the
range as it is; the only line breaks in the new text are `\n`; and if
there is one, no line ends in the removed text, and all characters before
the last one are single bytes. -/
structure Plain (before removed newText after : Text) : Prop where
  boundary : breakAfter isBreak before (newText ++ after).head? =
    breakAfter isBreak before (removed ++ after).head?
  breaks : row (marks isBreak after.head? newText) = newText.count '\n'
  oneLine : '\n' ∈ newText → row (marks isBreak after.head? removed) = 0
  ascii : ∀ c ∈ beforeLast '\n' newText, c.utf8Size = 1

/-- **Two errors that cancel out.** The text before the range ends with
`\r` and the new text starts with `\n`, so that the two become one line
break; a line more than counted ends in the new text, or lines end in the
removed text (one, or the new text has one `\n` only); and the last line
break of the new text is as many characters from its start as its last
`\n` is bytes. -/
structure Compensated (before removed newText after : Text) : Prop where
  newline : '\n' ∈ newText
  joined : breakAfter isBreak before (removed ++ after).head? = true ∧
    breakAfter isBreak before (newText ++ after).head? = false
  count : row (marks isBreak after.head? removed) = 0 ∧
      row (marks isBreak after.head? newText) = newText.count '\n' + 1 ∨
    row (marks isBreak after.head? removed) ≠ 0 ∧
      (row (marks isBreak after.head? removed) = 1 ∨ newText.count '\n' = 1) ∧
      row (marks isBreak after.head? newText) = newText.count '\n'
  place : column (marks isBreak after.head? newText) + bytes (beforeLast '\n' newText) + 1 =
    newText.length

end Spec

/-- **The edit is right.** It does not panic, replaces the text between
the places `i` and `j`, puts the cursor right after the new text, and
moves the ends of each past cursor along with the text they are at. -/
def EditsCorrectly (b : MutRawBuffer R) (i j : Nat) (past : List (Nat × Nat)) (newText : Text) :
    Prop :=
  let s := b.raw.text
  let t := s.take (min i j) ++ newText ++ s.drop (max i j)
  let k := min i j + newText.length
  ∃ b', b.editAtCursor (cursorAt R.isBreak s i j)
      (past.map fun p => cursorAt R.isBreak s p.1 p.2) newText =
        some (b', cursorAt R.isBreak t k k,
          past.map fun p => cursorAt R.isBreak t (p.1 - max i j + k) (p.2 - max i j + k)) ∧
    b'.raw.text = t

end Archives.Noa
