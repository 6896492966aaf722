import Archives.Common.Machine
import Archives.Kazari.Painting
/-!
# Kazari — what the damaged areas account for

The server repaints the areas it has recorded as damaged and no more, so
the screen shows the whole stack after `render` only if a pixel that
shows something else has been recorded before. `Tracked` says so. The
clients have their part in it: a session keeps what was on each surface
where its client last damaged it, and the windows of a session are
`Reported` if nothing else is on them now. A client may also damage first
and draw after that: then the pixel is still recorded at the `render`.

The server does not do its part. A window that becomes active is marked,
the one that was active so far is not, and keeps the title bar of an
active window. A damaged area of a surface is marked as if the contents
of its window started where the title bar does. New windows and new
titles are not marked, and a title is drawn over what lies above it.
`Careful` is what has to hold at each step to be spared all of this; a
step that meets it keeps `Tracked` (`Tracked.step`), and `render` leaves
nothing that is not seen (`Tracked.render`).
-/

namespace Archives.Kazari.Screen

open Painting List RectArea Server Layer

/-! ## Sessions -/

/-- A server, and what was on each surface at each position when its client
last damaged it there, or on its window when it was last drawn. -/
structure Session where
  server : Server
  reported : Nat → Position → Option Color

/-- The positions of a surface a request damages. -/
def InRequest (x y width height : Int32) (pos : Position) : Prop :=
  x.toInt ≤ pos.x ∧ pos.x < x.toInt + width.toInt ∧
    y.toInt ≤ pos.y ∧ pos.y < y.toInt + height.toInt
deriving Decidable

/-- The surface a layer is a window of. -/
def Layer.surface? (layer : Layer) : Option Nat :=
  match layer.content with
  | .window surface _ => some surface
  | _ => none

namespace Session

/-- The session of a server that starts. -/
def boot (screen : Canvas) (pools : Nat → Nat → Option Color) : Session where
  server := new screen pools
  reported := fun _ _ => none

/-- What has been reported after an event. -/
def report (t : Session) : Event → Nat → Position → Option Color
  | .request (.damage surface x y width height) => fun i pos =>
    if i = surface ∧ InRequest x y width height pos then t.server.buffers.content i pos
    else t.reported i pos
  | .render => fun i pos =>
    if ∃ layer ∈ t.server.layers, layer.surface? = some i then t.server.buffers.content i pos
    else t.reported i pos
  | _ => t.reported

end Session

/-- **The sessions**: events, with the account of what clients damage. -/
def sessions (font : Font) : Machine Session Event where
  step t event := (t.server.step font event).map fun server => ⟨server, t.report event⟩

/-! ## What clients owe -/

/-- What is on a window has been reported, but for what lies on certain
pixels of the screen. -/
def Layer.Reported (content reported : Nat → Position → Option Color) (except : Position → Prop)
    (layer : Layer) : Prop :=
  match layer.content with
  | .window surface _ => ∀ p, p ∈ layer.contents →
      content surface ⟨p.x - layer.contents.pos.x, p.y - layer.contents.pos.y⟩ =
        reported surface ⟨p.x - layer.contents.pos.x, p.y - layer.contents.pos.y⟩ ∨ except p
  | _ => True

instance (content reported : Nat → Position → Option Color) (except : Position → Prop)
    [DecidablePred except] (layer : Layer) :
    Decidable (layer.Reported content reported except) := by
  unfold Layer.Reported
  split <;> infer_instance

/-- **Clients have damaged what they changed**, on all windows, but for
certain pixels. -/
def Session.Reported (except : Position → Prop) (t : Session) : Prop :=
  ∀ layer ∈ t.server.layers, layer.Reported t.server.buffers.content t.reported except

instance (except : Position → Prop) [DecidablePred except] (t : Session) :
    Decidable (t.Reported except) :=
  inferInstanceAs (Decidable (∀ layer ∈ t.server.layers, _))

/-- **The runs in which clients damage every area whose content they
change**, before the next `render`. -/
def ClientsReport (t : Session) : Event → Prop
  | .render => t.Reported fun _ => False
  | _ => True

instance (t : Session) (event : Event) : Decidable (ClientsReport t event) := by
  cases event <;> unfold ClientsReport <;> infer_instance

/-! ## What the server owes -/

instance (font : Font) (layer : Layer) : Decidable (layer.Fits font) := by
  unfold Layer.Fits
  split <;> infer_instance

namespace Server

/-- The pixel is recorded as damaged. -/
def Damaged (s : Server) (p : Position) : Prop := ∃ area ∈ s.damagedAreas, p ∈ area
deriving Decidable

/-- A layer has room for what it draws, and is recorded as damaged as far
as it is on the screen. -/
def Announced (font : Font) (s : Server) (layer : Layer) : Prop :=
  layer.Fits font ∧ ∀ p, p ∈ layer.area → p ∈ s.screen.area → s.Damaged p
deriving Decidable

/-- The window that a press makes active hides the title bar of the one
active so far, or that has been recorded as damaged. -/
def ActivatesAlone (s : Server) : Prop :=
  ∀ index ∈ s.layerAtPointer.join, ∀ old ∈ s.activeLayerIndex, old ≠ index →
    ∀ oldLayer ∈ s.layers[old]?, ∀ newLayer ∈ s.layers[index]?,
      ∀ p, p ∈ oldLayer.titleBar → p ∈ s.screen.area → p ∈ newLayer.area ∨ s.Damaged p
deriving Decidable

/-- **The titles that passes over some areas draw outside of them** are
seen there in a full repaint, or a later area sets the pixel right. -/
def KeepsTitles (font : Font) (s : Server) : List RectArea → Prop
  | [] => True
  | area :: later =>
    (∀ layer ∈ s.layers, ∀ p ∈ layer.text font, layer.titleBar.overlapping area ≠ some none →
      p ∈ s.screen.area → p ∉ area →
        s.seen font s.buffers.content p = titleColor ∨ ∃ a ∈ later, p ∈ a) ∧
    s.KeepsTitles font later

instance (font : Font) (s : Server) (areas : List RectArea) :
    Decidable (s.KeepsTitles font areas) := by
  induction areas <;> unfold KeepsTitles <;> infer_instance

end Server

namespace Session

/-- **A request for damage reaches below the title bar**: a window with
something new on it at a position the request damages is the first one
for the object id, and the request goes on as many rows below the
position as a title bar has. It does not start at a negative number. -/
def DamagesBelow (t : Session) (surface : Nat) (x y width height : Int32) : Prop :=
  ∀ object ∈ t.server.surfaces[surface]?, ∀ layer ∈ t.server.layers,
    layer.surface? = some surface →
    ∀ pos, pos ∈ RectArea.mk ⟨0, 0⟩ layer.contents.size → InRequest x y width height pos →
      t.server.buffers.content surface pos ≠ t.reported surface pos →
      t.server.layers.find? (t.server.hasObjectId object.objectId) = some layer ∧
        0 ≤ x.toInt ∧ 0 ≤ y.toInt ∧ pos.y + titleBarHeight < y.toInt + height.toInt
deriving Decidable

end Session

/-- **What has to hold at a step** for the damaged areas to account for
it. -/
def Careful (font : Font) (t : Session) : Event → Prop
  | .input (.pointerButton .pressed .left) => t.server.ActivatesAlone
  | .request (.damage surface x y width height) => t.DamagesBelow surface x y width height
  | .request (.getToplevel surface) =>
    ∀ object ∈ t.server.surfaces[surface]?, ∀ layer ∈ newWindow surface object,
      t.server.Announced font layer
  | .request (.setTitle index title) =>
    ∀ layer ∈ t.server.layers[index]?, t.server.Announced font (retitle title layer)
  | .render => t.Reported t.server.Damaged ∧ t.server.KeepsTitles font t.server.damagedAreas
  | _ => True

instance (font : Font) (t : Session) (event : Event) : Decidable (Careful font t event) := by
  unfold Careful
  split <;> infer_instance

/-! ## What the recorded areas account for -/

/-- **The invariant**: a pixel that is not recorded as damaged shows what
is seen of the stack, with on each surface what was last reported. -/
structure Tracked (font : Font) (reported : Nat → Position → Option Color) (s : Server) :
    Prop extends s.Stacked font where
  tracked : ∀ p ∈ s.screen.area, ¬ s.Damaged p → s.screen.pixel p = s.seen font reported p

namespace Server

variable {font : Font} {s s' : Server} {p : Position} {area : RectArea} {layer : Layer}
  {content content' : Nat → Position → Option Color}

/-- The colours of the stack at a pixel. -/
theorem map_stack {β : Type} (g : Layer × Bool → β) :
    s.stack.map g = g (s.backgroundLayer, false) ::
      s.layers.mapIdx (fun i layer => g (layer, decide (s.activeLayerIndex = some i))) ++
      [g (s.cursorLayer, false)] := by
  simp only [stack, cons_append, map_cons, map_append, map_nil]
  congr 2
  refine ext_getElem? fun i => ?_
  simp [Function.comp_def]

/-- **Two stacks look the same at a pixel** their layers paint alike. -/
theorem seen_congr (hbackground : s'.backgroundLayer = s.backgroundLayer)
    (hcolor : ∃ color, s.backgroundLayer.content = .solidColor color)
    (hcursor : s'.cursorLayer.paints font content' false p =
      s.cursorLayer.paints font content false p) (hlength : s'.layers.length = s.layers.length)
    (hlayers : ∀ (i : Nat) (layer : Layer), s.layers[i]? = some layer →
      ∃ layer', s'.layers[i]? = some layer' ∧
        layer'.paints font content' (decide (s'.activeLayerIndex = some i)) p =
          layer.paints font content (decide (s.activeLayerIndex = some i)) p) :
    s'.seen font content' p = s.seen font content p := by
  obtain ⟨color, hcolor⟩ := hcolor
  have hlist : s'.layers.mapIdx (fun i layer =>
      layer.paints font content' (decide (s'.activeLayerIndex = some i)) p) =
      s.layers.mapIdx fun i layer =>
        layer.paints font content (decide (s.activeLayerIndex = some i)) p := by
    refine ext_getElem (by simp only [length_mapIdx, hlength]) fun i hi' hi => ?_
    rw [length_mapIdx] at hi'
    obtain ⟨l', hl', hpaints⟩ := hlayers i _ (getElem?_eq_getElem _)
    obtain rfl := Option.some.inj ((getElem?_eq_getElem hi').symm.trans hl')
    rw [getElem_mapIdx, getElem_mapIdx, hpaints]
  have hback : s'.backgroundLayer.paints font content' false p =
      s.backgroundLayer.paints font content false p := by
    rw [hbackground]
    simp only [paints, hcolor]
  simp only [seen, map_stack, hback, hcursor, hlist]

/-- **Marking an area** records its pixels on the screen, and changes
nothing else. -/
theorem markAsDamaged_eq_some (h : s.markAsDamaged area = some s') :
    ∃ areas, s' = { s with damagedAreas := areas } ∧ ∀ p ∈ s.screen.area,
      (∃ a ∈ areas, p ∈ a) ↔ s.Damaged p ∨ p ∈ area := by
  simp only [markAsDamaged, Option.bind_eq_bind, Option.bind_eq_some_iff, Option.pure_def] at h
  obtain ⟨res, hover, h⟩ := h
  rcases res with _ | common
  · cases h
    refine ⟨s.damagedAreas, rfl, fun p hp => ⟨.inl, ?_⟩⟩
    rintro (hd | hin)
    · exact hd
    · exact absurd hp (not_mem_of_overlapping hover hin)
  · cases h
    refine ⟨s.damagedAreas ++ [common], rfl, fun p hp => ?_⟩
    simp only [mem_append, mem_singleton, or_and_right, exists_or, exists_eq_left,
      mem_overlapping hover, hp, and_true, Damaged]

end Server

variable {font : Font}

/-- Whether a window is active shows on its title bar only. -/
theorem Layer.paints_active {content : Nat → Position → Option Color} {layer : Layer} {p : Position}
    (hp : p ∉ layer.titleBar) (active active' : Bool) :
    layer.paints font content active p = layer.paints font content active' p := by
  simp only [paints, hp, if_false]

namespace Tracked

variable {font : Font} {reported reported' : Nat → Position → Option Color} {s s' : Server}
  {layer : Layer} {index : Nat} {pos : Position}

section

variable (h : Tracked font reported s)

include h

/-- **A step that accounts for what it changes.** It records every pixel of
the screen at which the stack looks different after it. -/
theorem keep (hscreen : s'.screen = s.screen) (hbackground : s'.backgroundLayer = s.backgroundLayer)
    (hcursor : s'.cursorLayer.content = s.cursorLayer.content)
    (hlayers : ∀ layer ∈ s'.layers, layer.Fits font)
    (hdamaged : ∀ p ∈ s.screen.area, s.Damaged p → s'.Damaged p)
    (hseen : ∀ p ∈ s.screen.area, ¬ s'.Damaged p →
      s'.seen font reported' p = s.seen font reported p) : Tracked font reported' s' where
  background := by
    rw [hbackground, hscreen]
    exact h.background
  layers := hlayers
  cursor := by
    rw [hcursor]
    exact h.cursor
  tracked := by
    rw [hscreen]
    intro p hp hnot
    rw [hseen p hp hnot]
    exact h.tracked p hp fun hd => hnot (hdamaged p hp hd)

/-- A step that leaves the screen, the damaged areas and the stack alone. -/
theorem of_stack_eq (hscreen : s'.screen = s.screen) (hareas : s'.damagedAreas = s.damagedAreas)
    (hbackground : s'.backgroundLayer = s.backgroundLayer)
    (hcursor : s'.cursorLayer = s.cursorLayer) (hlayers : s'.layers = s.layers)
    (hactive : s'.activeLayerIndex = s.activeLayerIndex) : Tracked font reported s' := by
  refine h.keep hscreen hbackground (by rw [hcursor]) (hlayers ▸ h.layers) ?_ ?_
  · intro p _ hd
    unfold Server.Damaged
    rw [hareas]
    exact hd
  · intro p _ _
    simp only [seen, stack, hbackground, hcursor, hlayers, hactive]

/-- **Pressing on a window** that lets no title bar of another active
window show. -/
theorem pressOn (halone : ∀ old ∈ s.activeLayerIndex, old ≠ index → ∀ oldLayer ∈ s.layers[old]?,
      ∀ newLayer ∈ s.layers[index]?, ∀ p, p ∈ oldLayer.titleBar → p ∈ s.screen.area →
        p ∈ newLayer.area ∨ s.Damaged p) (hpress : s.pressOn index = some s') :
    Tracked font reported s' := by
  simp only [Server.pressOn, Option.bind_eq_bind, Option.bind_eq_some_iff,
    Option.pure_def] at hpress
  obtain ⟨layer, hlayer, relativePos, -, hpress⟩ := hpress
  split at hpress
  · obtain ⟨marked, hmark, hpress⟩ := Option.bind_eq_some_iff.mp hpress
    obtain ⟨areas, rfl, hareas⟩ := markAsDamaged_eq_some hmark
    cases hpress
    refine h.keep rfl rfl rfl h.layers (fun p hp hd => (hareas p hp).mpr (.inl hd)) ?_
    intro p hp hnot
    have hclean : ¬ (s.Damaged p ∨ p ∈ layer.area) := fun hd => hnot ((hareas p hp).mpr hd)
    refine seen_congr rfl h.background.2 rfl rfl fun i l hl => ⟨l, hl, ?_⟩
    have hfits : l.Fits font := h.layers l (mem_of_getElem? hl)
    rcases Nat.decEq i index with hi | rfl
    · by_cases hold : s.activeLayerIndex = some i
      · -- the window that was active so far
        refine paints_active (fun hbar => hclean ?_) _ _
        exact (halone i hold hi l hl layer hlayer p hbar hp).symm
      · have hne : ¬ some index = some i := fun heq => hi (Option.some.inj heq).symm
        simp only [hold, hne]
    · -- the window that becomes active
      have hout : p ∉ l.area := by
        obtain rfl : layer = l := Option.some.inj (hlayer.symm.trans hl)
        exact fun hin => hclean (.inr hin)
      rw [hfits.paints_eq_none hout, hfits.paints_eq_none hout]
  · cases hpress
    exact h.of_stack_eq rfl rfl rfl rfl rfl rfl

/-- **Changing a layer** when all of it is recorded, before and after. -/
theorem set_layer {layer' : Layer} {areas : List RectArea} (hlayer : s.layers[index]? = some layer)
    (hfits' : layer'.Fits font)
    (hdamaged : ∀ p ∈ s.screen.area, s.Damaged p ∨ p ∈ layer.area ∨ p ∈ layer'.area →
      ∃ a ∈ areas, p ∈ a) : Tracked font reported
      { s with layers := s.layers.set index layer', damagedAreas := areas } := by
  refine h.keep rfl rfl rfl ?_ (fun p hp hd => hdamaged p hp (.inl hd)) ?_
  · intro l hl
    rcases mem_or_eq_of_mem_set hl with hmem | rfl
    · exact h.layers l hmem
    · exact hfits'
  · intro p hp hnot
    refine seen_congr rfl h.background.2 rfl (length_set ..) fun i l hl => ?_
    by_cases hi : index = i
    · -- the layer that changes paints the pixel neither before nor after
      subst index
      obtain rfl : layer = l := Option.some.inj (hlayer.symm.trans hl)
      refine ⟨layer', getElem?_set_self (List.getElem?_eq_some_iff.1 hl).1, ?_⟩
      have hout : p ∉ layer.area := fun hin => hnot (hdamaged p hp (.inr (.inl hin)))
      have hout' : p ∉ layer'.area := fun hin => hnot (hdamaged p hp (.inr (.inr hin)))
      have hfits : layer.Fits font := h.layers layer (mem_of_getElem? hl)
      rw [hfits.paints_eq_none hout, hfits'.paints_eq_none hout']
    · exact ⟨l, (getElem?_set_ne hi).trans hl, rfl⟩

/-- **Dragging a layer** marks where it was and where it goes. -/
theorem dragTo (hdrag : s.dragTo pos = some s') : Tracked font reported s' := by
  simp only [Server.dragTo] at hdrag
  split at hdrag
  · cases hdrag
    exact h
  · rename_i index relativePos _
    simp only [Option.bind_eq_bind, Option.bind_eq_some_iff] at hdrag
    obtain ⟨newPos, -, layer, hlayer, marked, hmark, hdrag⟩ := hdrag
    obtain ⟨areas, rfl, hareas⟩ := markAsDamaged_eq_some hmark
    obtain ⟨areas', rfl, hareas'⟩ := markAsDamaged_eq_some hdrag
    have hfits : layer.Fits font := h.layers layer (mem_of_getElem? hlayer)
    refine h.set_layer hlayer (hfits.moveTo newPos) fun p hp hd => (hareas' p hp).mpr ?_
    exact (or_assoc.mpr hd).imp_left (hareas p hp).mpr

/-- **Moving the cursor** when it is recorded, before and after. -/
theorem set_cursor {areas : List RectArea} (hdamaged : ∀ p ∈ s.screen.area,
      s.Damaged p ∨ p ∈ s.cursorLayer.area ∨ p ∈ (s.cursorLayer.moveTo pos).area →
        ∃ a ∈ areas, p ∈ a) : Tracked font reported
      { s with cursorLayer := s.cursorLayer.moveTo pos, damagedAreas := areas } := by
  have hfits' : (s.cursorLayer.moveTo pos).Fits font := h.cursor_fits.moveTo pos
  refine h.keep rfl rfl rfl h.layers (fun p hp hd => hdamaged p hp (.inl hd)) ?_
  intro p hp hnot
  have hout : p ∉ s.cursorLayer.area := fun hin => hnot (hdamaged p hp (.inr (.inl hin)))
  have hout' : p ∉ (s.cursorLayer.moveTo pos).area :=
    fun hin => hnot (hdamaged p hp (.inr (.inr hin)))
  refine seen_congr rfl h.background.2 ?_ rfl fun i l hl => ⟨l, hl, rfl⟩
  rw [h.cursor_fits.paints_eq_none hout]
  exact hfits'.paints_eq_none hout'

/-- **Moving the pointer** marks where the cursor was and where it goes. -/
theorem moveTo (hmove : s.moveTo pos = some s') : Tracked font reported s' := by
  simp only [Server.moveTo, Option.bind_eq_bind, Option.bind_eq_some_iff] at hmove
  obtain ⟨maxX, -, maxY, -, marked, hmark, marked', hmark', hdrag⟩ := hmove
  obtain ⟨areas, rfl, hareas⟩ := markAsDamaged_eq_some hmark
  obtain ⟨areas', rfl, hareas'⟩ := markAsDamaged_eq_some hmark'
  refine dragTo (s := { s with
    cursorLayer := s.cursorLayer.moveTo (pos.clamp ⟨0, 0⟩ ⟨maxX, maxY⟩)
    damagedAreas := areas' }) (h.set_cursor fun p hp hd => (hareas' p hp).mpr ?_) hdrag
  exact (or_assoc.mpr hd).imp_left (hareas p hp).mpr

/-- **A new title**, on a window that is recorded. -/
theorem setTitle {title : String} (hlayer : s.layers[index]? = some layer)
    (hannounced : s.Announced font (retitle title layer)) :
    Tracked font reported { s with layers := s.layers.set index (retitle title layer) } := by
  have harea : (retitle title layer).area = layer.area := by
    unfold retitle
    split <;> rfl
  refine h.set_layer hlayer hannounced.1 fun p hp hd => ?_
  rw [harea, or_self] at hd
  rcases hd with hd | hin
  · exact hd
  · exact hannounced.2 p (by rw [harea]; exact hin) hp

/-- **A new window**, where the screen is recorded. -/
theorem push_layer (hannounced : s.Announced font layer) :
    Tracked font reported { s with layers := s.layers ++ [layer] } := by
  refine h.keep rfl rfl rfl ?_ (fun _ _ hd => hd) ?_
  · exact forall_mem_append.2 ⟨h.layers, forall_mem_singleton.2 hannounced.1⟩
  · intro p hp hnot
    have hout : p ∉ layer.area := fun hin => hnot (hannounced.2 p hin hp)
    simp [seen, map_stack, mapIdx_append, hannounced.1.paints_eq_none hout]

end

end Tracked

/-- A number that is not negative is kept by the cast. -/
theorem asUsize_of_nonneg {value : Int32} (h : 0 ≤ value.toInt) :
    (asUsize value.toInt : Int) = value.toInt := by
  have hlt := value.toInt_lt
  unfold asUsize
  omega

/-- What a layer paints depends on the one position of its surface that is
shown at the pixel. -/
theorem Layer.paints_content {content content' : Nat → Position → Option Color} {layer : Layer}
    {p : Position} {active : Bool}
    (h : ∀ surface title, layer.content = .window surface title → p ∈ layer.contents →
      content' surface ⟨p.x - layer.contents.pos.x, p.y - layer.contents.pos.y⟩ =
        content surface ⟨p.x - layer.contents.pos.x, p.y - layer.contents.pos.y⟩) :
    layer.paints font content' active p = layer.paints font content active p := by
  unfold paints
  split
  · rename_i surface title hcontent
    by_cases hin : p ∈ layer.contents
    · simp only [hin, if_true]
      exact h surface title hcontent hin
    · simp only [hin, if_false]
  · rfl
  · rfl

/-- A stack looks the same with other surfaces, if its windows do. -/
theorem Server.Stacked.seen_congr {s : Server} {p : Position}
    {content content' : Nat → Position → Option Color} (h : s.Stacked font)
    (hlayers : ∀ layer ∈ s.layers, ∀ surface title, layer.content = .window surface title →
      p ∈ layer.contents →
        content' surface ⟨p.x - layer.contents.pos.x, p.y - layer.contents.pos.y⟩ =
          content surface ⟨p.x - layer.contents.pos.x, p.y - layer.contents.pos.y⟩) :
    s.seen font content' p = s.seen font content p := by
  refine Server.seen_congr rfl h.background.2 ?_ rfl fun i l hl => ⟨l, hl, ?_⟩
  · obtain ⟨image, himage⟩ := h.cursor
    simp only [paints, himage]
  · exact paints_content (hlayers l (mem_of_getElem? hl))

/-- The area that a request for damage records: the one of the first window
for the object id, from where its title bar starts. -/
theorem Server.damage_eq_some {s s' : Server} {id : ObjectId} {area : RectArea}
    (h : s.damage id area = some s') : ∃ areas, s' = { s with damagedAreas := areas } ∧
      (∀ p ∈ s.screen.area, s.Damaged p → ∃ a ∈ areas, p ∈ a) ∧
      ∀ layer, s.layers.find? (s.hasObjectId id) = some layer → ∀ p ∈ s.screen.area,
        p ∈ RectArea.mk ⟨layer.position.x + area.pos.x, layer.position.y + area.pos.y⟩ area.size →
          ∃ a ∈ areas, p ∈ a := by
  unfold damage at h
  split at h
  · rename_i hnone
    cases h
    refine ⟨s.damagedAreas, rfl, fun _ _ hd => hd, fun layer hfind => ?_⟩
    rw [hnone] at hfind
    cases hfind
  · rename_i layer hfind
    simp only [Option.bind_eq_bind, Option.bind_eq_some_iff] at h
    obtain ⟨pos, hpos, hmark⟩ := h
    obtain rfl := Position.add_eq_some hpos
    obtain ⟨areas, rfl, hareas⟩ := markAsDamaged_eq_some hmark
    refine ⟨areas, rfl, fun p hp hd => (hareas p hp).mpr (.inl hd), fun l hl p hp hin => ?_⟩
    obtain rfl : layer = l := Option.some.inj (hfind.symm.trans hl)
    exact (hareas p hp).mpr (.inr hin)

/-- **A request for damage that reaches below the title bar.** -/
theorem Tracked.damage {t : Session} {s' : Server} {surface : Nat} {object : Surface}
    {x y width height : Int32} (h : Tracked font t.reported t.server)
    (hobject : t.server.surfaces[surface]? = some object)
    (hbelow : t.DamagesBelow surface x y width height) (hdamage : t.server.damage object.objectId
      ⟨⟨asUsize x.toInt, asUsize y.toInt⟩, ⟨asUsize width.toInt, asUsize height.toInt⟩⟩ = some s') :
    Tracked font (t.report (.request (.damage surface x y width height))) s' := by
  obtain ⟨areas, rfl, hdamaged, hmarked⟩ := damage_eq_some hdamage
  refine h.keep rfl rfl rfl h.layers hdamaged fun p hp hnot => ?_
  refine h.toStacked.seen_congr fun l hl σ title hcontent hin => ?_
  have hp' := mem_iff.mp hin
  simp only [Session.report]
  split
  · rename_i hreq
    obtain ⟨rfl, hreq⟩ := hreq
    -- what changed at the pixel would have been recorded
    by_contra hchanged
    have hinside : (⟨p.x - l.contents.pos.x, p.y - l.contents.pos.y⟩ : Position) ∈
        RectArea.mk ⟨0, 0⟩ l.contents.size := by
      simp only [mem_iff]
      omega
    have hshows : l.surface? = some σ := by
      simp only [surface?, hcontent]
    obtain ⟨hfind, hx, hy, hrow⟩ := hbelow object hobject l hl hshows _
      hinside hreq hchanged
    refine hnot (hmarked l hfind p hp ?_)
    obtain ⟨hx₁, hx₂, hy₁, hy₂⟩ := hreq
    have hcastX := asUsize_of_nonneg hx
    have hcastY := asUsize_of_nonneg hy
    have hcastW : (asUsize width.toInt : Int) = width.toInt := asUsize_of_nonneg (by omega)
    have hcastH : (asUsize height.toInt : Int) = height.toInt := asUsize_of_nonneg (by omega)
    simp only [mem_iff, contents] at hp' hx₁ hx₂ hy₁ hy₂ hrow ⊢
    omega
  · rfl

/-! ## Rendering -/

section Render

variable {font : Font} {t t' : Session} {s s' : Server} {p : Position}

/-- Where all has been reported, what is seen is what was reported. -/
theorem Session.Reported.seen_eq {except : Position → Prop} (h : t.Reported except)
    (hp : ¬ except p) (hstacked : t.server.Stacked font) :
    t.server.seen font t.reported p = t.server.seen font t.server.buffers.content p := by
  refine hstacked.seen_congr fun l hl surface title hcontent hin => ?_
  have hreported := h l hl
  simp only [Layer.Reported, hcontent] at hreported
  exact ((hreported p hin).resolve_right hp).symm

/-- After `render` all windows count as reported. -/
theorem Server.Stacked.seen_report_render (h : t.server.Stacked font) (p : Position) :
    t.server.seen font (t.report .render) p = t.server.seen font t.server.buffers.content p := by
  refine h.seen_congr fun l hl surface title hcontent _ => if_pos ⟨l, hl, ?_⟩
  simp only [surface?, hcontent]

/-- Passes that keep titles keep each pixel of the screen. -/
theorem Server.KeepsTitles.kept {areas : List RectArea} (h : s.KeepsTitles font areas)
    (hp : p ∈ s.screen.area) : Kept (fun area => p ∈ area)
      (fun area => (∃ layer ∈ s.layers, layer.Spills font area p) →
        s.seen font s.buffers.content p = titleColor) areas := by
  induction areas with
  | nil => exact trivial
  | cons area later ih =>
    refine ⟨?_, ih h.2⟩
    by_cases hin : p ∈ area
    · exact .inl hin
    · by_cases hlater : ∃ a ∈ later, p ∈ a
      · exact .inr (.inr hlater)
      · refine .inr (.inl ?_)
        rintro ⟨layer, hlayer, hmeets, htext⟩
        exact (h.1 layer hlayer p htext hmeets hp hin).resolve_right hlater

/-- What `render` changes. -/
theorem Server.render_eq_some (h : s.render font = some s') :
    ∃ screen, s.damagedAreas.foldlM (s.paintArea font) s.screen = some screen ∧
      s' = { s with screen := screen, damagedAreas := [] } := by
  simp only [render, Option.bind_eq_bind, Option.bind_eq_some_iff, Option.pure_def,
    Option.some.injEq] at h
  obtain ⟨screen, hpaint, rfl⟩ := h
  exact ⟨screen, hpaint, rfl⟩

/-- **After `render` the screen shows the whole stack.** -/
theorem Tracked.render (h : Tracked font t.reported t.server)
    (hreported : t.Reported t.server.Damaged)
    (hkeeps : t.server.KeepsTitles font t.server.damagedAreas)
    (hrender : t.server.render font = some s') :
    s'.screen.area = t.server.screen.area ∧ ∀ p ∈ t.server.screen.area,
      s'.screen.pixel p = t.server.seen font t.server.buffers.content p := by
  obtain ⟨screen, hpaint, rfl⟩ := render_eq_some hrender
  constructor
  · exact foldlM_inv (I := fun c : Canvas => c.area = t.server.screen.area)
      (fun _ _ _ _ hc hpass => h.area_paintArea hc hpass) rfl hpaint
  · intro p hp
    have hcovers : ∀ (area : RectArea) (c c' : Canvas), c.area = t.server.screen.area →
        t.server.paintArea font c area = some c' → p ∈ area →
          c'.pixel p = t.server.seen font t.server.buffers.content p :=
      fun _ _ _ hc hpass hin => h.paintArea_inside hc hp hin hpass
    -- a pass that does not cover the pixel leaves it, or draws a title that is seen there
    have hpasses : ∀ (area : RectArea) (c c' : Canvas), c.area = t.server.screen.area →
        t.server.paintArea font c area = some c' →
        ((∃ layer ∈ t.server.layers, layer.Spills font area p) →
          t.server.seen font t.server.buffers.content p = titleColor) →
        c.pixel p = t.server.seen font t.server.buffers.content p →
          c'.pixel p = t.server.seen font t.server.buffers.content p := by
      intro area c c' hc hpass hkeep hgood
      by_cases hin : p ∈ area
      · exact hcovers area c c' hc hpass hin
      · rcases h.paintArea_outside hc hp hin hpass with hsame | ⟨hspills, hcolor⟩
        · exact hsame.trans hgood
        · exact hcolor.trans (hkeep hspills).symm
    refine foldlM_good (I := fun c : Canvas => c.area = t.server.screen.area)
      (fun _ _ _ hc hpass => h.area_paintArea hc hpass) hcovers hpasses (hkeeps.kept hp) rfl ?_
      hpaint
    by_cases hd : t.server.Damaged p
    · exact .inr hd
    · left
      rw [h.tracked p hp hd]
      exact hreported.seen_eq hd h.toStacked

/-- The invariant after `render`. -/
theorem Tracked.of_render (h : Tracked font t.reported t.server)
    (hreported : t.Reported t.server.Damaged)
    (hkeeps : t.server.KeepsTitles font t.server.damagedAreas)
    (hrender : t.server.render font = some s') : Tracked font (t.report .render) s' := by
  obtain ⟨harea, hpixel⟩ := h.render hreported hkeeps hrender
  obtain ⟨screen, -, rfl⟩ := render_eq_some hrender
  refine ⟨⟨?_, h.layers, h.cursor⟩, fun p hp _ => ?_⟩
  · exact ⟨h.background.1.trans harea.symm, h.background.2⟩
  · rw [harea] at hp
    rw [hpixel p hp]
    exact (h.seen_report_render p).symm

end Render

/-! ## Runs -/

section Runs

variable {font : Font} {t t' : Session} {s s' : Server}

/-- A server that starts has recorded its whole screen. -/
theorem tracked_boot (screen : Canvas) (pools : Nat → Nat → Option Color) :
    Tracked font (Session.boot screen pools).reported (Session.boot screen pools).server where
  background := ⟨rfl, _, rfl⟩
  layers := fun _ hlayer => absurd hlayer not_mem_nil
  cursor := ⟨_, rfl⟩
  tracked := fun _ hp hnot => absurd ⟨_, mem_singleton_self _, hp⟩ hnot

theorem Tracked.processInput {reported : Nat → Position → Option Color} {input : Input}
    (h : Tracked font reported s)
    (hcareful : input = .pointerButton .pressed .left → s.ActivatesAlone)
    (hinput : s.processInput input = some s') : Tracked font reported s' := by
  unfold Server.processInput at hinput
  split at hinput
  · rename_i state
    simp only [leftButton, Option.bind_eq_bind, Option.bind_eq_some_iff, Option.pure_def] at hinput
    obtain ⟨target, htarget, hinput⟩ := hinput
    split at hinput
    · rename_i index
      refine h.pressOn ?_ hinput
      exact hcareful rfl index (by rw [htarget, Option.join_some]; rfl)
    · cases hinput
      exact h.of_stack_eq rfl rfl rfl rfl rfl rfl
  · cases hinput
    exact h
  · cases hinput
  · exact h.moveTo hinput

/-- **A careful step keeps the account.** -/
theorem Tracked.step {event : Event} (h : Tracked font t.reported t.server)
    (hcareful : Careful font t event) (hstep : (sessions font).step t event = some t') :
    Tracked font t'.reported t'.server := by
  obtain ⟨server, hserver, rfl⟩ := Option.map_eq_some_iff.mp hstep
  cases event with
  | input input =>
    refine h.processInput ?_ hserver
    rintro rfl
    exact hcareful
  | write pool offset color =>
    cases hserver
    exact h.of_stack_eq rfl rfl rfl rfl rfl rfl
  | render => exact h.of_render hcareful.1 hcareful.2 hserver
  | request request =>
    simp only [step, processMessage] at hserver
    split at hserver
    · cases hserver
      exact h.of_stack_eq rfl rfl rfl rfl rfl rfl
    · obtain ⟨object, -, hserver⟩ := Option.bind_eq_some_iff.mp hserver
      cases hserver
      exact h.of_stack_eq rfl rfl rfl rfl rfl rfl
    · obtain ⟨object, hobject, hserver⟩ := Option.bind_eq_some_iff.mp hserver
      exact h.damage hobject hcareful hserver
    · obtain ⟨object, hobject, hserver⟩ := Option.bind_eq_some_iff.mp hserver
      obtain ⟨layer, hlayer, hserver⟩ := Option.bind_eq_some_iff.mp hserver
      cases hserver
      exact h.push_layer (hcareful object hobject layer hlayer)
    · obtain ⟨layer, hlayer, hserver⟩ := Option.bind_eq_some_iff.mp hserver
      cases hserver
      exact h.setTitle hlayer (hcareful layer hlayer)

/-- A font with one dot for each character. -/
def dotFont : Font := fun text => (range text.length).map fun i => ⟨i, 12⟩

/-- A screen of 64 by 64 pixels, and shared memory for 24 of them. -/
def smallBoot : Session :=
  Session.boot ⟨64, 64, fun _ => ⟨0, 0, 0, 255⟩⟩ fun _ i =>
    if i < 24 then some ⟨1, 2, 3, 255⟩ else none

/-- A client makes a surface, draws it, damages it and shows it in a
window. -/
def openWindow (surface : Nat) (id : ObjectId) : List Event :=
  [.request (.createSurface id), .request (.attach surface (some ⟨0, 24, 1⟩)),
    .request (.damage surface 0 0 24 1), .request (.getToplevel surface)]

/-- The pointer takes hold of what lies at a position, and lets go of it at
another. -/
def drag (start stop : Position) : List Event :=
  [.input (.pointerMove (.absolute start)), .input (.pointerButton .pressed .left),
    .input (.pointerMove (.absolute stop)), .input (.pointerButton .released .left)]

/-- **A screen after `render` is a full repaint**, in every run whose steps
are careful: each of its pixels shows what is seen of background, windows
and cursor, and so does the pass over the whole screen. -/
theorem screen_eq_repaint_of_careful (font : Font) (screen : Canvas)
    (pools : Nat → Nat → Option Color) (t t' : Session)
    (hreach : (sessions font).ReachUnder (Careful font) (Session.boot screen pools) t)
    (hcareful : Careful font t .render) (hrender : (sessions font).step t .render = some t') :
    ∀ p ∈ t'.server.screen.area,
      t'.server.screen.pixel p = t'.server.seen font t'.server.buffers.content p ∧
        ∀ canvas, t'.server.repaint font = some canvas →
          t'.server.screen.pixel p = canvas.pixel p := by
  have htracked : Tracked font t.reported t.server :=
    hreach.invariant (I := fun t => Tracked font t.reported t.server) (tracked_boot screen pools)
      fun h hok hs => h.step hok hs
  have htracked' : Tracked font t'.reported t'.server := htracked.step hcareful hrender
  obtain ⟨server, hserver, rfl⟩ := Option.map_eq_some_iff.mp hrender
  obtain ⟨harea, hpixel⟩ := htracked.render hcareful.1 hcareful.2 hserver
  obtain ⟨screen', -, rfl⟩ := render_eq_some hserver
  intro p hp
  have hseen := hpixel p (by rw [← harea]; exact hp)
  refine ⟨hseen, fun canvas hrepaint => ?_⟩
  rw [htracked'.repaint_eq_some hp hrepaint]
  exact hseen

/-- A window is opened, dragged and rendered; then its client draws on it,
damages enough and draws once more, and the pointer moves off. -/
def oneWindow : List Event :=
  openWindow 0 1 ++ drag ⟨32, 32⟩ ⟨12, 40⟩ ++ [.render, .write 0 3 ⟨9, 9, 9, 255⟩,
    .request (.damage 0 0 0 24 40), .write 0 4 ⟨9, 9, 9, 255⟩,
    .input (.pointerMove (.absolute ⟨60, 2⟩))]

/-- A run with one window is careful. -/
theorem repaint_of_one_window :
    ∃ t t', (sessions dotFont).ReachUnder (Careful dotFont) smallBoot t ∧
      Careful dotFont t .render ∧ (sessions dotFont).step t .render = some t' ∧
      ∀ p ∈ t'.server.screen.area,
        t'.server.screen.pixel p = t'.server.seen dotFont t'.server.buffers.content p ∧
          ∀ canvas, t'.server.repaint dotFont = some canvas →
            t'.server.screen.pixel p = canvas.pixel p := by
  obtain ⟨t, hreach, hcareful, hsome⟩ : ∃ t,
      (sessions dotFont).ReachUnder (Careful dotFont) smallBoot t ∧ Careful dotFont t .render ∧
        ((sessions dotFont).step t .render).isSome :=
    Machine.exists_reachUnder oneWindow (by decide +kernel)
  obtain ⟨t', hstep⟩ := Option.isSome_iff_exists.1 hsome
  exact ⟨t, t', hreach, hcareful, hstep,
    screen_eq_repaint_of_careful dotFont _ _ t t' hreach hcareful hstep⟩

/-- Two windows, of which the upper one is dragged aside; after a first
`render` the other one is pressed on. -/
def twoWindows : List Event :=
  openWindow 0 1 ++ openWindow 1 2 ++ drag ⟨32, 32⟩ ⟨6, 32⟩ ++ [.render] ++
    [.input (.pointerMove (.absolute ⟨32, 32⟩)), .input (.pointerButton .pressed .left)]

/-- **The window that was active keeps its title bar.** Clients damage all
they change, two windows are opened and one is dragged aside; after the
other one is pressed on and the screen rendered, a pixel in the title bar
of the first is still that of an active window. -/
theorem stale_title_bar : ∃ t t' canvas, (sessions dotFont).ReachUnder ClientsReport smallBoot t ∧
      ClientsReport t .render ∧ (sessions dotFont).step t .render = some t' ∧
      t'.server.repaint dotFont = some canvas ∧ ⟨5, 31⟩ ∈ t'.server.screen.area ∧
      t'.server.screen.pixel ⟨5, 31⟩ = titleBarColor true ∧
      canvas.pixel ⟨5, 31⟩ = titleBarColor false := by
  obtain ⟨t, hreach, hreport, t', hstep, canvas, hrepaint, hpixels⟩ : ∃ t,
      (sessions dotFont).ReachUnder ClientsReport smallBoot t ∧ ClientsReport t .render ∧
        ∃ t' ∈ (sessions dotFont).step t .render, ∃ canvas ∈ t'.server.repaint dotFont,
          ⟨5, 31⟩ ∈ t'.server.screen.area ∧
            t'.server.screen.pixel ⟨5, 31⟩ = titleBarColor true ∧
            canvas.pixel ⟨5, 31⟩ = titleBarColor false :=
    Machine.exists_reachUnder twoWindows (by decide +kernel)
  exact ⟨t, t', canvas, hreach, hreport, hstep, hrepaint, hpixels⟩

end Runs

end Archives.Kazari.Screen
