import Archives.Common.Painting
import Archives.Kazari.Model.Screen
/-!
# Kazari — what a pass over an area paints

`Layer.paints` says of each pixel what a layer paints it with, without a
word about damaged areas. Within the area of a pass, `render` of a layer
paints just that; outside it draws nothing but the title, since a title
is drawn whole whenever the title bar meets the area. So a pass of the
server over an area shows, within the area, what is seen of the whole
stack (`paintArea_inside`), and may leave titles on other pixels
(`paintArea_outside`). The full repaint is the pass over the screen.
-/

namespace Archives.Kazari.Screen

open Painting List Option Layer RectArea

/-! ## Areas -/

theorem usizeAdd_eq_some {a b n : Nat} (h : usizeAdd a b = some n) : n = a + b := by
  rw [usizeAdd] at h
  split at h
  · exact (some.inj h).symm
  · cases h

theorem usizeSub_eq_some {a b n : Nat} (h : usizeSub a b = some n) : b ≤ a ∧ n = a - b := by
  rw [usizeSub] at h
  split at h
  · rename_i hle
    exact ⟨hle, (some.inj h).symm⟩
  · cases h

namespace Position

variable {pos rhs res : Position}

theorem add_eq_some (h : pos.add rhs = some res) : res = ⟨pos.x + rhs.x, pos.y + rhs.y⟩ := by
  simp only [add, bind_eq_bind, bind_eq_some_iff, Option.pure_def, some.injEq] at h
  obtain ⟨x, hx, y, hy, rfl⟩ := h
  rw [usizeAdd_eq_some hx, usizeAdd_eq_some hy]

theorem sub_eq_some (h : pos.sub rhs = some res) :
    rhs.x ≤ pos.x ∧ rhs.y ≤ pos.y ∧ res = ⟨pos.x - rhs.x, pos.y - rhs.y⟩ := by
  simp only [sub, bind_eq_bind, bind_eq_some_iff, Option.pure_def, some.injEq] at h
  obtain ⟨x, hx, y, hy, rfl⟩ := h
  obtain ⟨hlex, rfl⟩ := usizeSub_eq_some hx
  obtain ⟨hley, rfl⟩ := usizeSub_eq_some hy
  exact ⟨hlex, hley, rfl⟩

end Position

namespace RectArea

variable {area other : RectArea} {p : Position}

theorem mem_iff : p ∈ area ↔ area.pos.x ≤ p.x ∧ p.x < area.pos.x + area.size.width ∧
    area.pos.y ≤ p.y ∧ p.y < area.pos.y + area.size.height := .rfl

theorem mem_positions : p ∈ area.positions ↔ p ∈ area := by
  simp only [positions, mem_flatMap, mem_range, List.mem_map, mem_iff]
  constructor
  · rintro ⟨y, hy, x, hx, rfl⟩
    simp only
    omega
  · rintro ⟨hx, hx', hy, hy'⟩
    refine ⟨p.y - area.pos.y, by omega, p.x - area.pos.x, by omega, ?_⟩
    have hpx : area.pos.x + (p.x - area.pos.x) = p.x := by omega
    have hpy : area.pos.y + (p.y - area.pos.y) = p.y := by omega
    rw [hpx, hpy]

instance (area : RectArea) (P : Position → Prop) [DecidablePred P] :
    Decidable (∀ p, p ∈ area → P p) :=
  decidable_of_iff (∀ p ∈ area.positions, P p) (by simp only [mem_positions])

/-- What `overlapping` answers when no sum overflows. -/
theorem overlapping_eq_some {res : Option RectArea} (h : area.overlapping other = some res) :
    res = if area.pos.x + area.size.width < other.pos.x ∨
        other.pos.x + other.size.width < area.pos.x ∨ area.pos.y + area.size.height < other.pos.y ∨
        other.pos.y + other.size.height < area.pos.y then none
      else some ⟨⟨max area.pos.x other.pos.x, max area.pos.y other.pos.y⟩,
        ⟨min (area.pos.x + area.size.width) (other.pos.x + other.size.width) -
            max area.pos.x other.pos.x,
          min (area.pos.y + area.size.height) (other.pos.y + other.size.height) -
            max area.pos.y other.pos.y⟩⟩ := by
  simp only [overlapping, bind_eq_bind, bind_eq_some_iff, Option.pure_def] at h
  obtain ⟨endX, hx, h⟩ := h
  obtain rfl := usizeAdd_eq_some hx
  split at h
  · rw [if_pos (by omega)]
    exact (some.inj h).symm
  obtain ⟨otherEndX, hx', h⟩ := bind_eq_some_iff.mp h
  obtain rfl := usizeAdd_eq_some hx'
  split at h
  · rw [if_pos (by omega)]
    exact (some.inj h).symm
  obtain ⟨endY, hy, h⟩ := bind_eq_some_iff.mp h
  obtain rfl := usizeAdd_eq_some hy
  split at h
  · rw [if_pos (by omega)]
    exact (some.inj h).symm
  obtain ⟨otherEndY, hy', h⟩ := bind_eq_some_iff.mp h
  obtain rfl := usizeAdd_eq_some hy'
  split at h
  · rw [if_pos (by omega)]
    exact (some.inj h).symm
  · rw [if_neg (by omega)]
    exact (some.inj h).symm

/-- Areas without overlap have no position in common. -/
theorem not_mem_of_overlapping (h : area.overlapping other = some none) (hp : p ∈ area) :
    p ∉ other := by
  intro hq
  rw [mem_iff] at hp hq
  have hres := overlapping_eq_some h
  split at hres
  · omega
  · cases hres

/-- **The overlap of two areas** has the positions they have in common. -/
theorem mem_overlapping {common : RectArea} (h : area.overlapping other = some (some common)) :
    p ∈ common ↔ p ∈ area ∧ p ∈ other := by
  have hres := overlapping_eq_some h
  split at hres
  · cases hres
  · cases hres
    simp only [mem_iff]
    omega

end RectArea

/-! ## What a layer paints -/

/-- What is on a surface at a position, if it has that pixel. -/
def Buffers.content (buffers : Buffers) (surface : Nat) (pos : Position) : Option Color :=
  (buffers surface).bind fun src => src pos

namespace Layer

/-- The area of the contents of a window. -/
def contents (layer : Layer) : RectArea :=
  ⟨⟨layer.position.x, layer.position.y + titleBarHeight⟩,
    ⟨layer.size.width, layer.size.height - titleBarHeight⟩⟩

/-- The pixels of the title of a window. -/
def text (font : Font) (layer : Layer) : List Position :=
  match layer.content with
  | .window _ title =>
    (font title).map fun off => ⟨layer.position.x + 10 + off.x, layer.position.y + off.y⟩
  | _ => []

/-- **What a layer paints a pixel with**, if it does, for what is on the
surfaces. -/
def paints (font : Font) (content : Nat → Position → Option Color) (layer : Layer)
    (active : Bool) (p : Position) : Option Color :=
  match layer.content with
  | .window surface _ =>
    if p ∈ layer.contents then
      content surface ⟨p.x - layer.contents.pos.x, p.y - layer.contents.pos.y⟩
    else if p ∈ layer.text font then some titleColor
    else if p ∈ layer.titleBar then some (titleBarColor active)
    else none
  | .solidColor color => if p ∈ layer.area then some { color with a := 255 } else none
  | .xpmImage image =>
    if p ∈ layer.area then
      image.bitmap[(p.y - layer.position.y) * image.width + (p.x - layer.position.x)]?.bind
        XpmColor.color
    else none

/-- **What a layer draws fits into it**: a window has room for its title
bar, and the title bar for the title. -/
def Fits (font : Font) (layer : Layer) : Prop :=
  match layer.content with
  | .window _ title => titleBarHeight ≤ layer.size.height ∧
      ∀ off ∈ font title, 10 + off.x < layer.size.width ∧ off.y < titleBarHeight
  | _ => True

variable {font : Font} {layer : Layer} {p : Position} {active : Bool}
  {content : Nat → Position → Option Color}

theorem Fits.moveTo (h : layer.Fits font) (pos : Position) : (layer.moveTo pos).Fits font := h

theorem Fits.mem_titleBar (h : layer.Fits font) (hp : p ∈ layer.text font) :
    p ∈ layer.titleBar := by
  unfold Fits at h
  unfold text at hp
  split at h
  · rename_i hcontent
    simp only [hcontent, List.mem_map] at hp
    obtain ⟨off, hoff, rfl⟩ := hp
    have hin := h.2 off hoff
    simp only [mem_iff, titleBar]
    omega
  · rename_i hcontent
    split at hp
    · rename_i hwindow
      exact absurd hwindow (hcontent _ _)
    · simp at hp

/-- A layer that fits paints nothing outside its area. -/
theorem Fits.paints_eq_none (h : layer.Fits font) (hp : p ∉ layer.area) :
    layer.paints font content active p = none := by
  have htext : p ∈ layer.text font → p ∈ layer.titleBar := h.mem_titleBar
  unfold Fits at h
  unfold paints
  simp only [mem_iff, area, contents, titleBar] at hp htext ⊢
  split at h
  · rename_i hcontent
    simp only [hcontent]
    rw [if_neg (by omega), if_neg (by intro ht; have := htext ht; omega), if_neg (by omega)]
  · rename_i hcontent
    split
    · rename_i hwindow
      exact absurd hwindow (hcontent _ _)
    · rw [if_neg (by omega)]
    · rw [if_neg (by omega)]

end Layer

/-! ## Rendering a layer -/

namespace Canvas

variable {dst : Canvas} {p : Position}

theorem pixel_drawRect (area : RectArea) (color : Color) (hp : p ∈ dst.area) :
    (dst.drawRect area color).pixel p =
      if p ∈ area then { color with a := 255 } else dst.pixel p := by
  simp [drawRect, drawPixels, hp]

theorem pixel_drawText (font : Font) (text : String) (pos : Position) (color : Color)
    (hp : p ∈ dst.area) : (dst.drawText font text pos color).pixel p =
      if p ∈ (font text).map (fun off => ⟨pos.x + off.x, pos.y + off.y⟩)
      then { color with a := 255 } else dst.pixel p := by
  have hwhich : ((font text).any fun off => decide (p = ⟨pos.x + off.x, pos.y + off.y⟩)) = true ↔
      p ∈ (font text).map fun off => ⟨pos.x + off.x, pos.y + off.y⟩ := by
    rw [List.any_eq_true, List.mem_map]
    constructor
    · rintro ⟨off, hoff, heq⟩
      exact ⟨off, hoff, (of_decide_eq_true heq).symm⟩
    · rintro ⟨off, hoff, heq⟩
      exact ⟨off, hoff, decide_eq_true heq.symm⟩
  simp only [drawText, drawPixels, hp, decide_true, Bool.and_true, hwhich]

end Canvas

namespace Layer

variable {font : Font} {layer : Layer} {p : Position} {active : Bool} {buffers : Buffers}
  {surface : Nat} {title : String} {dst dst' : Canvas} {area : RectArea}

/-- **The title bar**: where it meets the damaged area it is filled within
that area, and its title is drawn, all of it. -/
theorem renderTitleBar_eq_some (hcontent : layer.content = .window surface title)
    (h : layer.renderTitleBar font title dst area active = some dst') :
    dst'.area = dst.area ∧ ∀ p ∈ dst.area,
      dst'.pixel p = if layer.titleBar.overlapping area = some none then dst.pixel p
        else if p ∈ layer.text font then titleColor
        else if p ∈ layer.titleBar ∧ p ∈ area then titleBarColor active else dst.pixel p := by
  simp only [renderTitleBar, bind_eq_bind, bind_eq_some_iff, Option.pure_def] at h
  obtain ⟨res, hover, h⟩ := h
  rcases res with _ | common
  · cases h
    simp only [hover, if_true, implies_true, and_self]
  · obtain ⟨textPos, hpos, h⟩ := bind_eq_some_iff.mp h
    cases h
    obtain rfl := Position.add_eq_some hpos
    refine ⟨rfl, fun p hp => ?_⟩
    have hp' : p ∈ (dst.drawRect common (titleBarColor active)).area := hp
    have hmeets : ¬ layer.titleBar.overlapping area = some none := by
      rw [hover]
      simp
    rw [Canvas.pixel_drawText _ _ _ _ hp', Canvas.pixel_drawRect _ _ hp, if_neg hmeets]
    simp only [text, hcontent, mem_overlapping hover, titleColor]
    cases active <;> rfl

/-- **The contents** of a window are copied within the damaged area. -/
theorem renderContents_eq_some (h : layer.renderContents buffers surface dst area = some dst') :
    dst'.area = dst.area ∧ ∀ p ∈ dst.area, dst'.pixel p = if p ∈ layer.contents ∧ p ∈ area then
          (buffers.content surface
            ⟨p.x - layer.contents.pos.x, p.y - layer.contents.pos.y⟩).getD (dst.pixel p)
        else dst.pixel p := by
  simp only [renderContents, bind_eq_bind, bind_eq_some_iff, Option.pure_def] at h
  obtain ⟨y, hy, height, hheight, res, hover, h⟩ := h
  obtain rfl := usizeAdd_eq_some hy
  obtain ⟨-, rfl⟩ := usizeSub_eq_some hheight
  have hcontents : .mk ⟨layer.position.x, layer.position.y + titleBarHeight⟩
      ⟨layer.size.width, layer.size.height - titleBarHeight⟩ = layer.contents := rfl
  rcases res with _ | common
  · cases h
    refine ⟨rfl, fun p _ => ?_⟩
    rw [if_neg]
    rintro ⟨hin, harea⟩
    exact not_mem_of_overlapping hover hin harea
  · obtain ⟨localPos, hlocal, h⟩ := bind_eq_some_iff.mp h
    obtain ⟨hx, hy', rfl⟩ := Position.sub_eq_some hlocal
    cases hsrc : buffers surface with
    | none =>
      rw [hsrc] at h
      cases h
      simp [Buffers.content, hsrc]
    | some src =>
      simp only [hsrc, Canvas.drawCanvas] at h
      split at h
      · cases h
        refine ⟨rfl, fun p _ => ?_⟩
        have hmem : p ∈ RectArea.mk common.pos common.size ↔
            p ∈ layer.contents ∧ p ∈ area := mem_overlapping hover
        simp only [hmem, Buffers.content, hsrc, bind_some]
        split
        · rename_i hin
          have hge := mem_iff.mp (hmem.mpr hin)
          have hpx : common.pos.x - layer.position.x + (p.x - common.pos.x) =
              p.x - layer.contents.pos.x := by
            dsimp only [contents] at hge hx ⊢
            omega
          have hpy : common.pos.y - (layer.position.y + titleBarHeight) +
              (p.y - common.pos.y) = p.y - layer.contents.pos.y := by
            dsimp only [contents] at hge hy' ⊢
            omega
          rw [hpx, hpy]
        · rfl
      · cases h

/-- A title that is drawn outside the area of a pass, on a pixel. -/
def Spills (font : Font) (layer : Layer) (area : RectArea) (p : Position) : Prop :=
  layer.titleBar.overlapping area ≠ some none ∧ p ∈ layer.text font

/-- **Rendering a layer that fits**: within the damaged area it paints what
the layer paints; outside nothing but the title is drawn. -/
theorem render_eq_some (hfits : layer.Fits font)
    (h : layer.render font buffers dst area active = some dst') :
    dst'.area = dst.area ∧ ∀ p ∈ dst.area, (p ∈ area → dst'.pixel p =
        (layer.paints font buffers.content active p).getD (dst.pixel p)) ∧
      (p ∉ area → dst'.pixel p = dst.pixel p ∨
        layer.Spills font area p ∧ dst'.pixel p = titleColor) := by
  simp only [render, bind_eq_bind, bind_eq_some_iff, Option.pure_def] at h
  obtain ⟨res, hover, h⟩ := h
  rcases res with _ | common
  · -- the layer does not meet the area, and paints none of its pixels
    cases h
    refine ⟨rfl, fun p _ => ⟨fun harea => ?_, fun _ => .inl rfl⟩⟩
    have hout : p ∉ layer.area := fun hin => not_mem_of_overlapping hover hin harea
    rw [hfits.paints_eq_none hout, getD_none]
  · have hcommon : ∀ p, p ∈ common ↔ p ∈ layer.area ∧ p ∈ area :=
      fun p => mem_overlapping hover
    dsimp only at h
    split at h
    · rename_i surface title hcontent
      obtain ⟨mid, hmid, h⟩ := bind_eq_some_iff.mp h
      obtain ⟨hmidArea, htitle⟩ := renderTitleBar_eq_some hcontent hmid
      obtain ⟨hdstArea, hcontents⟩ := renderContents_eq_some h
      refine ⟨hdstArea.trans hmidArea, fun p hp => ?_⟩
      rw [hcontents p (by rw [hmidArea]; exact hp), htitle p hp]
      constructor
      · intro harea
        -- a pixel of the title is one of the title bar, so the bar meets the area
        have hmeets : p ∈ layer.titleBar → ¬ layer.titleBar.overlapping area = some none :=
          fun hin hnone => not_mem_of_overlapping hnone hin harea
        simp only [paints, hcontent, harea, and_true]
        by_cases hin : p ∈ layer.contents
        · have hbar : p ∉ layer.titleBar := by
            simp only [mem_iff, contents, titleBar] at hin ⊢
            omega
          have htext : p ∉ layer.text font := fun ht => hbar (hfits.mem_titleBar ht)
          simp only [hin, hbar, htext, if_true, if_false, ite_self]
        · by_cases hbar : p ∈ layer.titleBar
          · simp only [hin, hbar, hmeets hbar, if_true, if_false]
            split <;> rfl
          · have htext : p ∉ layer.text font := fun ht => hbar (hfits.mem_titleBar ht)
            simp only [hin, hbar, htext, if_false, ite_self, getD_none]
      · intro harea
        simp only [harea, and_false, if_false]
        by_cases hspill : layer.Spills font area p
        · rw [if_neg hspill.1, if_pos hspill.2]
          exact .inr ⟨hspill, rfl⟩
        · left
          split
          · rfl
          · rename_i hmeets
            rw [if_neg fun ht => hspill ⟨hmeets, ht⟩]
    · rename_i color hcontent
      cases h
      refine ⟨rfl, fun p hp => ?_⟩
      rw [Canvas.pixel_drawRect _ _ hp]
      simp only [hcommon, paints, hcontent]
      constructor
      · intro harea
        simp only [harea, and_true]
        split <;> rfl
      · intro harea
        simp only [harea, and_false, if_false, true_or]
    · rename_i image hcontent
      cases h
      refine ⟨rfl, fun p hp => ?_⟩
      simp only [Canvas.drawPixels, hp, decide_true, Bool.and_true, decide_eq_true_eq, hcommon,
        paints, hcontent]
      constructor
      · intro harea
        simp only [harea, and_true]
        split <;> rfl
      · intro harea
        simp only [harea, and_false, if_false, true_or]

end Layer

/-! ## A pass of the server -/

namespace Server

variable {font : Font} {s : Server} {p : Position} {dst dst' : Canvas} {area : RectArea}

/-- **What is seen at a pixel** of the whole stack, for what is on the
surfaces. -/
def seen (font : Font) (content : Nat → Position → Option Color) (s : Server) (p : Position) :
    Color :=
  topmost (s.stack.map fun entry => entry.1.paints font content entry.2 p) ⟨0, 0, 0, 0⟩

/-- **The background covers the screen, every window fits, and the cursor
is an icon.** -/
structure Stacked (font : Font) (s : Server) : Prop where
  background : s.backgroundLayer.area = s.screen.area ∧
    ∃ color, s.backgroundLayer.content = .solidColor color
  layers : ∀ layer ∈ s.layers, layer.Fits font
  cursor : ∃ image, s.cursorLayer.content = .xpmImage image

namespace Stacked

variable (h : s.Stacked font)

include h

theorem cursor_fits : s.cursorLayer.Fits font := by
  obtain ⟨image, himage⟩ := h.cursor
  simp only [Layer.Fits, himage]

theorem fits : ∀ entry ∈ s.stack, entry.1.Fits font := by
  obtain ⟨color, hcolor⟩ := h.background.2
  intro entry hentry
  simp only [stack, cons_append, mem_cons, mem_append, mem_mapIdx, not_mem_nil, or_false] at hentry
  rcases hentry with rfl | ⟨i, hi, rfl⟩ | rfl
  · simp only [Layer.Fits, hcolor]
  · exact h.layers _ (getElem_mem hi)
  · exact h.cursor_fits

/-- Only the layers between background and cursor have titles. -/
theorem exists_spills (hspills : ∃ entry ∈ s.stack, entry.1.Spills font area p) :
    ∃ layer ∈ s.layers, layer.Spills font area p := by
  obtain ⟨color, hcolor⟩ := h.background.2
  obtain ⟨image, himage⟩ := h.cursor
  obtain ⟨entry, hentry, hmeets, htext⟩ := hspills
  simp only [stack, cons_append, mem_cons, mem_append, mem_mapIdx, not_mem_nil, or_false] at hentry
  rcases hentry with rfl | ⟨i, hi, rfl⟩ | rfl
  · simp [text, hcolor] at htext
  · exact ⟨_, getElem_mem hi, hmeets, htext⟩
  · simp [text, himage] at htext

/-- What was on the screen before does not matter: the background is
painted over it. -/
theorem topmost_eq_seen (hp : p ∈ s.screen.area) (content : Nat → Position → Option Color)
    (under : Color) :
    topmost (s.stack.map fun entry => entry.1.paints font content entry.2 p) under =
      s.seen font content p := by
  obtain ⟨harea, color, hcolor⟩ := h.background
  have hin : p ∈ s.backgroundLayer.area := by
    rw [harea]
    exact hp
  have hpaints : s.backgroundLayer.paints font content false p = some { color with a := 255 } := by
    simp only [paints, hcolor, hin, if_true]
  simp [seen, stack, hpaints]

/-- A pass keeps the size of the canvas. -/
theorem area_paintArea (hdst : dst.area = s.screen.area)
    (hpaint : s.paintArea font dst area = some dst') : dst'.area = s.screen.area := by
  refine foldlM_inv (I := fun c => c.area = s.screen.area) ?_ hdst hpaint
  intro entry hentry c c' hc hrender
  exact (render_eq_some (h.fits entry hentry) hrender).1.trans hc

/-- **A pass over an area, within it**, shows what is seen of the stack. -/
theorem paintArea_inside (hdst : dst.area = s.screen.area) (hp : p ∈ s.screen.area)
    (harea : p ∈ area) (hpaint : s.paintArea font dst area = some dst') :
    dst'.pixel p = s.seen font s.buffers.content p := by
  rw [← h.topmost_eq_seen hp]
  refine foldlM_eq_topmost (I := (·.area = s.screen.area)) (·.pixel p) ?_ hdst hpaint
  intro entry hentry c c' hc hrender
  obtain ⟨hsize, hpixel⟩ := render_eq_some (h.fits entry hentry) hrender
  exact ⟨hsize.trans hc, (hpixel p (by rw [hc]; exact hp)).1 harea⟩

/-- **A pass over an area, outside of it**, leaves a pixel as it was or
with a title on it. -/
theorem paintArea_outside (hdst : dst.area = s.screen.area) (hp : p ∈ s.screen.area)
    (harea : p ∉ area) (hpaint : s.paintArea font dst area = some dst') :
    dst'.pixel p = dst.pixel p ∨
      (∃ layer ∈ s.layers, layer.Spills font area p) ∧ dst'.pixel p = titleColor := by
  suffices hpass : dst'.pixel p = dst.pixel p ∨
      (∃ entry ∈ s.stack, entry.1.Spills font area p) ∧ dst'.pixel p = titleColor from
    hpass.imp_right fun hspill => ⟨h.exists_spills hspill.1, hspill.2⟩
  refine foldlM_eq_or_spilled (I := (·.area = s.screen.area)) (·.pixel p) ?_ hdst hpaint
  intro entry hentry c c' hc hrender
  obtain ⟨hsize, hpixel⟩ := render_eq_some (h.fits entry hentry) hrender
  exact ⟨hsize.trans hc, (hpixel p (by rw [hc]; exact hp)).2 harea⟩

/-- **The full repaint shows what is seen.** -/
theorem repaint_eq_some (hp : p ∈ s.screen.area) (hpaint : s.repaint font = some dst) :
    dst.pixel p = s.seen font s.buffers.content p :=
  h.paintArea_inside rfl hp hp hpaint

end Stacked

end Server

end Archives.Kazari.Screen
