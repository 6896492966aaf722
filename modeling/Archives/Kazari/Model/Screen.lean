import Archives.Kazari.Model.Wire
/-!
# Kazari — the screen, its layers and the server that paints them

Positions and areas of `src/lib.rs`, the canvas of `src/canvas`, the
layers of `src/server/layer.rs`, and of `src/server/server.rs` what
decides what is on the screen: the areas marked as damaged, the inputs,
the requests that change surfaces and windows, and `render`. Machine
words are added and subtracted with a check, and what does not pass it
stops the server, as does every other panic: a step without a result.

The screen is a function from positions to colours. How a text looks is
up to the font, a parameter: the pixels a text is drawn with, from the
position it is drawn at. Clients share the memory their buffers lie in
with the server and write to it at any time.
-/

namespace Archives.Kazari.Screen

/-! ## Positions and areas -/

def usizeAdd (a b : Nat) : Option Nat :=
  if a + b < 18446744073709551616 then some (a + b) else none

def usizeSub (a b : Nat) : Option Nat :=
  if b ≤ a then some (a - b) else none

/-- `value as usize`: a negative number becomes a huge one. -/
def asUsize (value : Int) : Nat := (value % 18446744073709551616).toNat

structure Position where
  x : Nat
  y : Nat
deriving DecidableEq

namespace Position

def clamp (pos minPos maxPos : Position) : Position where
  x := max minPos.x (min pos.x maxPos.x)
  y := max minPos.y (min pos.y maxPos.y)

/-- The sum of two positions. -/
def add (pos rhs : Position) : Option Position := do
  return { x := ← usizeAdd pos.x rhs.x, y := ← usizeAdd pos.y rhs.y }

/-- The difference of two positions. -/
def sub (pos rhs : Position) : Option Position := do
  return { x := ← usizeSub pos.x rhs.x, y := ← usizeSub pos.y rhs.y }

end Position

structure RectSize where
  width : Nat
  height : Nat
deriving DecidableEq

structure RectArea where
  pos : Position
  size : RectSize
deriving DecidableEq

namespace RectArea

def Has (area : RectArea) (p : Position) : Prop :=
  area.pos.x ≤ p.x ∧ p.x < area.pos.x + area.size.width ∧
    area.pos.y ≤ p.y ∧ p.y < area.pos.y + area.size.height

instance : Membership Position RectArea := ⟨Has⟩

instance (area : RectArea) (p : Position) : Decidable (p ∈ area) :=
  inferInstanceAs (Decidable (_ ∧ _ ∧ _ ∧ _))

/-- The positions of an area, row by row. -/
def positions (area : RectArea) : List Position :=
  (List.range area.size.height).flatMap fun y =>
    (List.range area.size.width).map fun x => ⟨area.pos.x + x, area.pos.y + y⟩

/-- `overlapping`: areas that only touch overlap in an empty one. -/
def overlapping (area other : RectArea) : Option (Option RectArea) := do
  let endX ← usizeAdd area.pos.x area.size.width
  if endX < other.pos.x then return none
  let otherEndX ← usizeAdd other.pos.x other.size.width
  if otherEndX < area.pos.x then return none
  let endY ← usizeAdd area.pos.y area.size.height
  if endY < other.pos.y then return none
  let otherEndY ← usizeAdd other.pos.y other.size.height
  if otherEndY < area.pos.y then return none
  let startX := max area.pos.x other.pos.x
  let startY := max area.pos.y other.pos.y
  return some ⟨⟨startX, startY⟩, ⟨min endX otherEndX - startX, min endY otherEndY - startY⟩⟩

/-- `contains_position`, which adds only what it has to compare. -/
def containsPosition (area : RectArea) (pos : Position) : Option Bool := do
  if pos.x < area.pos.x then return false
  let endX ← usizeAdd area.pos.x area.size.width
  if endX ≤ pos.x then return false
  if pos.y < area.pos.y then return false
  let endY ← usizeAdd area.pos.y area.size.height
  return pos.y < endY

end RectArea

/-! ## The canvas -/

/-- `Color::Rgba8888`. -/
structure Color where
  r : UInt8
  g : UInt8
  b : UInt8
  a : UInt8
deriving DecidableEq

/-- How a text looks: the pixels it is drawn with, counted from the
position given to `draw_text`. -/
abbrev Font := String → List Position

/-- A canvas the server draws on. -/
structure Canvas where
  width : Nat
  height : Nat
  pixel : Position → Color

namespace Canvas

def size (canvas : Canvas) : RectSize := ⟨canvas.width, canvas.height⟩

/-- The area of the whole canvas. -/
def area (canvas : Canvas) : RectArea := ⟨⟨0, 0⟩, canvas.size⟩

/-- `draw_pixel` for each of some pixels, with a colour that may depend on
the pixel; what is out of bounds is left out. -/
def drawPixels (dst : Canvas) (which : Position → Bool) (color : Position → Color) : Canvas :=
  { dst with pixel := fun p => if which p && decide (p ∈ dst.area) then color p else dst.pixel p }

/-- `draw_rect` with a fill and no border. What is drawn through the
graphics library is opaque. -/
def drawRect (dst : Canvas) (area : RectArea) (color : Color) : Canvas :=
  dst.drawPixels (fun p => decide (p ∈ area)) fun _ => { color with a := 255 }

def drawText (font : Font) (dst : Canvas) (text : String) (pos : Position) (color : Color) :
    Canvas :=
  dst.drawPixels (fun p => (font text).any fun off => decide (p = ⟨pos.x + off.x, pos.y + off.y⟩))
    fun _ => { color with a := 255 }

/-- `draw_canvas`: the pixels of an area of another canvas. A pixel past
the end of that canvas's memory stops the server. -/
def drawCanvas (dst : Canvas) (pos : Position) (src : Position → Option Color)
    (area : RectArea) : Option Canvas :=
  if area.positions.all fun p => (src p).isSome then
    some { dst with pixel := fun p =>
      if p ∈ RectArea.mk pos area.size then
        (src ⟨area.pos.x + (p.x - pos.x), area.pos.y + (p.y - pos.y)⟩).getD (dst.pixel p)
      else dst.pixel p }
  else none

end Canvas

/-! ## Icons -/

inductive XpmColor
  | black
  | white
  | transparent
deriving DecidableEq

structure XpmImage where
  width : Nat
  height : Nat
  bitmap : List XpmColor
deriving DecidableEq

/-- The colours of an icon as they are drawn in its source. -/
def xpmColor : Char → XpmColor
  | '.' => .black
  | 'X' => .white
  | _ => .transparent

def normalCursor : XpmImage where
  width := 24
  height := 24
  bitmap := [
    "      ..                ",
    "      .X.               ",
    "      .XX.              ",
    "      .XXX.             ",
    "      .XXXX.            ",
    "      .XXXXX.           ",
    "      .XXXXXX.          ",
    "      .XXXXXXX.         ",
    "      .XXXXXXXX.        ",
    "      .XXXXXXXXX.       ",
    "      .XXXXXXXXXX.      ",
    "      .XXXXXXXXXXX.     ",
    "      .XXXXXXXXXXXX.    ",
    "      .XXXXXXXXXXXXX.   ",
    "      .XXXXXXXX.......  ",
    "      .XXXX.XXX.        ",
    "      .XX...XXX.        ",
    "      .X.  .XXX.        ",
    "      ..    .XXX.       ",
    "            .XXX.       ",
    "            .XXX.       ",
    "             .XXX.      ",
    "             .XXX.      ",
    "              ...       "].flatMap fun row => row.toList.map xpmColor

/-- What a pixel of an icon is drawn with; a transparent one keeps what is
there. -/
def XpmColor.color : XpmColor → Option Color
  | .black => some ⟨0, 0, 0, 255⟩
  | .white => some ⟨255, 255, 255, 255⟩
  | .transparent => none

/-! ## Layers -/

/-- `LayerContent`. A surface is known by its place among the surfaces; the
title is that of the window's own toplevel object. -/
inductive LayerContent
  | window (surface : Nat) (title : String)
  | solidColor (color : Color)
  | xpmImage (image : XpmImage)
deriving DecidableEq

structure Layer where
  position : Position
  size : RectSize
  content : LayerContent
  draggable : Bool
deriving DecidableEq

def titleBarHeight : Nat := 25

def titleBarColor (active : Bool) : Color :=
  if active then ⟨70, 60, 70, 255⟩ else ⟨150, 140, 150, 255⟩

def titleColor : Color := ⟨255, 255, 255, 255⟩

/-- What surfaces have attached: the pixels of the buffer, those past the
end of its memory missing. -/
abbrev Buffers := Nat → Option (Position → Option Color)

namespace Layer

def area (layer : Layer) : RectArea := ⟨layer.position, layer.size⟩

def moveTo (layer : Layer) (newPos : Position) : Layer := { layer with position := newPos }

/-- The area of the title bar of a window. -/
def titleBar (layer : Layer) : RectArea :=
  ⟨layer.position, ⟨layer.size.width, titleBarHeight⟩⟩

/-- `render`, the part for the title bar of a window. -/
def renderTitleBar (font : Font) (layer : Layer) (title : String) (dst : Canvas)
    (damagedArea : RectArea) (active : Bool) : Option Canvas := do
  match ← layer.titleBar.overlapping damagedArea with
  | none => return dst
  | some overlapping =>
    let textPos ← layer.position.add ⟨10, 0⟩
    return (dst.drawRect overlapping (titleBarColor active)).drawText font title textPos titleColor

/-- `render`, the part for the contents of a window. -/
def renderContents (buffers : Buffers) (layer : Layer) (surface : Nat) (dst : Canvas)
    (damagedArea : RectArea) : Option Canvas := do
  let y ← usizeAdd layer.position.y titleBarHeight
  let height ← usizeSub layer.size.height titleBarHeight
  let contents : RectArea := ⟨⟨layer.position.x, y⟩, ⟨layer.size.width, height⟩⟩
  match ← contents.overlapping damagedArea with
  | none => return dst
  | some overlapping =>
    let localPos ← overlapping.pos.sub contents.pos
    match buffers surface with
    | none => return dst
    | some src => dst.drawCanvas overlapping.pos src ⟨localPos, overlapping.size⟩

def render (font : Font) (buffers : Buffers) (layer : Layer) (dst : Canvas)
    (damagedArea : RectArea) (active : Bool) : Option Canvas := do
  match ← layer.area.overlapping damagedArea with
  | none => return dst
  | some overlapping =>
    match layer.content with
    | .window surface title =>
      let dst ← layer.renderTitleBar font title dst damagedArea active
      layer.renderContents buffers surface dst damagedArea
    | .solidColor color => return dst.drawRect overlapping color
    | .xpmImage image =>
      return dst.drawPixels (fun p => decide (p ∈ overlapping)) fun p =>
        ((image.bitmap[(p.y - layer.position.y) * image.width + (p.x - layer.position.x)]?).bind
          XpmColor.color).getD (dst.pixel p)

end Layer

/-! ## The server -/

/-- `BufferObject`: a canvas in the memory of a pool, always from its
start. -/
structure Buffer where
  pool : Nat
  width : Nat
  height : Nat

/-- `SurfaceObject`. -/
structure Surface where
  objectId : ObjectId
  buffer : Option Buffer

/-- `Server`, with the surfaces its clients have made and the memory it
shares with them: for each pool the pixels it has. -/
structure Server where
  surfaces : List Surface
  pools : Nat → Nat → Option Color
  screen : Canvas
  damagedAreas : List RectArea
  cursorLayer : Layer
  backgroundLayer : Layer
  layers : List Layer
  activeLayerIndex : Option Nat
  layerInDrag : Option (Nat × Position)

inductive PointerButtonState
  | pressed
  | released

inductive PointerButton
  | left
  | right

inductive PointerMove
  | relative (yOffset xOffset : Nat)
  | absolute (newPos : Position)

/-- `Input`, those of a pointer. -/
inductive Input
  | pointerButton (state : PointerButtonState) (button : PointerButton)
  | pointerMove (move : PointerMove)

/-- The requests that change a surface or a window, each for the surface
or the window its object is. -/
inductive Request
  /-- `wl_compositor::Request::CreateSurface`. -/
  | createSurface (id : ObjectId)
  /-- `wl_surface::Request::Attach`. -/
  | attach (surface : Nat) (buffer : Option Buffer)
  /-- `wl_surface::Request::Damage`. -/
  | damage (surface : Nat) (x y width height : Int32)
  /-- `xdg_surface::Request::GetToplevel`. -/
  | getToplevel (surface : Nat)
  /-- `xdg_toplevel::Request::SetTitle`. -/
  | setTitle (index : Nat) (title : String)

/-- What happens to the screen. -/
inductive Event
  | input (input : Input)
  | request (request : Request)
  /-- A client writes a pixel of memory it shares. -/
  | write (pool offset : Nat) (color : Color)
  | render

namespace Server

def new (screen : Canvas) (pools : Nat → Nat → Option Color) : Server where
  surfaces := []
  pools := pools
  screen := screen
  damagedAreas := [⟨⟨0, 0⟩, screen.size⟩]
  cursorLayer :=
    { position := ⟨10, 10⟩
      size := ⟨normalCursor.width, normalCursor.height⟩
      content := .xpmImage normalCursor
      draggable := false }
  backgroundLayer :=
    { position := ⟨0, 0⟩
      size := screen.size
      content := .solidColor ⟨0, 128, 127, 255⟩
      draggable := false }
  layers := []
  activeLayerIndex := none
  layerInDrag := none

variable (s : Server)

/-- The pixels of the buffers the surfaces have attached. -/
def buffers : Buffers := fun surface =>
  (s.surfaces[surface]?.bind Surface.buffer).map fun buffer pos =>
    s.pools buffer.pool (pos.y * buffer.width + pos.x)

def markAsDamaged (area : RectArea) : Option Server := do
  match ← area.overlapping s.screen.area with
  | none => return s
  | some damagedArea => return { s with damagedAreas := s.damagedAreas ++ [damagedArea] }

/-- The loop of `layer_at_pointer`, over the layers from the top. -/
def topmostAt (pos : Position) : List Layer → Option (Option Nat)
  | [] => some none
  | layer :: below => do
    let hit ← if layer.draggable then layer.area.containsPosition pos else some false
    if hit then some (some below.length) else topmostAt pos below

def layerAtPointer : Option (Option Nat) :=
  topmostAt s.cursorLayer.position s.layers.reverse

/-- `process_input`, pressing the left button on a layer. -/
def pressOn (index : Nat) : Option Server := do
  let layer ← s.layers[index]?
  let relativePos ← s.cursorLayer.position.sub layer.position
  match layer.content with
  | .window _ _ =>
    let s ← { s with activeLayerIndex := some index }.markAsDamaged layer.area
    return { s with layerInDrag := some (index, relativePos) }
  | _ => return { s with layerInDrag := some (index, relativePos) }

/-- `process_input`, the left button. -/
def leftButton (state : PointerButtonState) : Option Server := do
  match state, ← s.layerAtPointer with
  | .pressed, some index => s.pressOn index
  | _, _ => return { s with layerInDrag := none }

/-- `process_input`, moving the layer that is dragged. -/
def dragTo (newCursorPos : Position) : Option Server := do
  match s.layerInDrag with
  | none => return s
  | some (index, relativePos) =>
    let newLayerPos ← newCursorPos.sub relativePos
    let layer ← s.layers[index]?
    let s ← s.markAsDamaged layer.area
    let layer := layer.moveTo newLayerPos
    { s with layers := s.layers.set index layer }.markAsDamaged layer.area

/-- `process_input`, moving the pointer to a position. -/
def moveTo (unclamped : Position) : Option Server := do
  let maxX ← usizeSub s.screen.width 1
  let maxY ← usizeSub s.screen.height 1
  let newCursorPos := unclamped.clamp ⟨0, 0⟩ ⟨maxX, maxY⟩
  let oldArea := s.cursorLayer.area
  let s ← { s with cursorLayer := s.cursorLayer.moveTo newCursorPos }.markAsDamaged oldArea
  let s ← s.markAsDamaged s.cursorLayer.area
  s.dragTo newCursorPos

/-- `process_input`. Relative moves are not implemented. -/
def processInput : Input → Option Server
  | .pointerButton state .left => s.leftButton state
  | .pointerButton _ .right => some s
  | .pointerMove (.relative _ _) => none
  | .pointerMove (.absolute newPos) => s.moveTo newPos

/-- Whether a layer is a window of a surface with an object id, whoever
the client of that surface is. -/
def hasObjectId (id : ObjectId) (layer : Layer) : Bool :=
  match layer.content with
  | .window surface _ => (s.surfaces[surface]?).any fun object => object.objectId == id
  | _ => false

/-- `process_message`, the damaged area of a surface: it is resolved by the
first window of a surface with that object id. -/
def damage (id : ObjectId) (area : RectArea) : Option Server :=
  match s.layers.find? (s.hasObjectId id) with
  | none => some s
  | some layer => do
    let pos ← layer.position.add area.pos
    s.markAsDamaged ⟨pos, area.size⟩

/-- The size of a new window for what its surface has attached. -/
def windowSize : Option Buffer → Option RectSize
  | some buffer => do return ⟨buffer.width, ← usizeAdd buffer.height titleBarHeight⟩
  | none => some ⟨0, titleBarHeight⟩

/-- The window `GetToplevel` makes. -/
def newWindow (surface : Nat) (object : Surface) : Option Layer := do
  return { position := ⟨30, 30⟩, size := ← windowSize object.buffer,
           content := .window surface "New Window", draggable := true }

/-- The layer with another title, if it is a window. -/
def retitle (title : String) (layer : Layer) : Layer :=
  match layer.content with
  | .window surface _ => { layer with content := .window surface title }
  | _ => layer

def processMessage : Request → Option Server
  | .createSurface id => some { s with surfaces := s.surfaces ++ [⟨id, none⟩] }
  | .attach surface buffer => do
    let object ← s.surfaces[surface]?
    return { s with surfaces := s.surfaces.set surface { object with buffer := buffer } }
  | .damage surface x y width height => do
    let object ← s.surfaces[surface]?
    s.damage object.objectId
      ⟨⟨asUsize x.toInt, asUsize y.toInt⟩, ⟨asUsize width.toInt, asUsize height.toInt⟩⟩
  | .getToplevel surface => do
    let object ← s.surfaces[surface]?
    let layer ← newWindow surface object
    return { s with layers := s.layers ++ [layer] }
  | .setTitle index title => do
    let layer ← s.layers[index]?
    return { s with layers := s.layers.set index (retitle title layer) }

/-- The layers from the bottom, each with whether it is drawn as active. -/
def stack : List (Layer × Bool) :=
  (s.backgroundLayer, false) ::
    (s.layers.mapIdx fun i layer => (layer, decide (s.activeLayerIndex = some i))) ++
    [(s.cursorLayer, false)]

variable (font : Font)

/-- `render`, the body of its loop. -/
def paintArea (s : Server) (dst : Canvas) (damagedArea : RectArea) : Option Canvas :=
  s.stack.foldlM (fun dst entry => entry.1.render font s.buffers dst damagedArea entry.2) dst

def render (s : Server) : Option Server := do
  let screen ← s.damagedAreas.foldlM (s.paintArea font) s.screen
  return { s with screen := screen, damagedAreas := [] }

def step (s : Server) : Event → Option Server
  | .input input => s.processInput input
  | .request request => s.processMessage request
  | .write pool offset color => some { s with
      pools := fun i j => if i = pool ∧ j = offset ∧ (s.pools i j).isSome then some color
        else s.pools i j }
  | .render => s.render font

/-- **The full repaint**: what one pass over the whole screen paints. -/
def repaint (s : Server) : Option Canvas :=
  s.paintArea font s.screen s.screen.area

end Server

end Archives.Kazari.Screen
