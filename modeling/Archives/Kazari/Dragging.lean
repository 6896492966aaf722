import Archives.Kazari.Damage
/-!
# Kazari — dragging a window

The left button takes hold of the topmost draggable layer under the
cursor, and the server stores how far the cursor is from its corner. The
layer `Follows` the cursor from then on, whatever else happens. The
corner is never past the cursor at the press, since the layer was found
under it; but nothing keeps the cursor from being moved to where the
corner would have to leave the screen, and then the subtraction
underflows.
-/

namespace Archives.Kazari.Screen

open List Option Position

def servers (font : Font) : Machine Server Event where
  step := Server.step font

/-- What is left of a position less another, less that, is the other. -/
theorem Position.sub_sub {pos rhs res : Position} (h : pos.sub rhs = some res) :
    pos.sub res = some rhs := by
  obtain ⟨hx, hy, rfl⟩ := sub_eq_some h
  simp only [sub, usizeSub, Nat.sub_le, if_true, Option.pure_def, Option.bind_eq_bind,
    Option.bind_some, Nat.sub_sub_self hx, Nat.sub_sub_self hy]

namespace Server

variable {font : Font} {s s' : Server} {input : Input} {index : Nat} {pos : Position}

/-- **The layer that is dragged follows the cursor**: it lies where the
cursor is less the offset it was taken hold of at. -/
def Follows (s : Server) : Prop :=
  ∀ index relativePos, s.layerInDrag = some (index, relativePos) →
    ∃ layer, s.layers[index]? = some layer ∧
      s.cursorLayer.position.sub relativePos = some layer.position

theorem getElem?_append_of_some {α : Type} {l l' : List α} {a : α} (h : l[index]? = some a) :
    (l ++ l')[index]? = some a := by
  rw [getElem?_append_left (List.getElem?_eq_some_iff.1 h).1, h]

/-- Layers that stay where they are, while the cursor does. -/
theorem Follows.congr (h : s.Follows) (hcursor : s'.cursorLayer = s.cursorLayer)
    (hdrag : s'.layerInDrag = s.layerInDrag)
    (hlayers : ∀ {i : Nat} {layer : Layer}, s.layers[i]? = some layer →
      ∃ layer', s'.layers[i]? = some layer' ∧ layer'.position = layer.position) : s'.Follows := by
  intro index relativePos hindex
  obtain ⟨layer, hlayer, hpos⟩ := h index relativePos (hdrag ▸ hindex)
  obtain ⟨layer', hlayer', hsame⟩ := hlayers hlayer
  exact ⟨layer', hlayer', by rw [hcursor, hpos, hsame]⟩

theorem follows_of_leftButton {state : PointerButtonState} (h : s.leftButton state = some s') :
    s'.Follows := by
  obtain ⟨target, -, h⟩ := bind_eq_some_iff.1 h
  split at h
  next index =>
    obtain ⟨layer, hlayer, h⟩ := bind_eq_some_iff.1 h
    obtain ⟨relativePos, hrelative, h⟩ := bind_eq_some_iff.1 h
    intro i rel hdrag
    split at h
    next =>
      obtain ⟨marked, hmark, h⟩ := bind_eq_some_iff.1 h
      obtain ⟨areas, rfl, -⟩ := markAsDamaged_eq_some hmark
      cases h
      cases hdrag
      exact ⟨layer, hlayer, sub_sub hrelative⟩
    next =>
      cases h
      cases hdrag
      exact ⟨layer, hlayer, sub_sub hrelative⟩
  next =>
    cases h
    exact fun i rel hdrag => by cases hdrag

/-- The layer is moved along with the cursor. -/
theorem follows_of_dragTo (hcursor : s.cursorLayer.position = pos)
    (h : s.dragTo pos = some s') : s'.Follows := by
  unfold dragTo at h
  split at h
  next hnone =>
    cases h
    exact fun i rel hdrag => by cases hnone.symm.trans hdrag
  next index relativePos hdrag =>
    obtain ⟨newPos, hnew, h⟩ := bind_eq_some_iff.1 h
    obtain ⟨layer, hlayer, h⟩ := bind_eq_some_iff.1 h
    obtain ⟨marked, hmark, h⟩ := bind_eq_some_iff.1 h
    obtain ⟨areas, rfl, -⟩ := markAsDamaged_eq_some hmark
    obtain ⟨areas', rfl, -⟩ := markAsDamaged_eq_some h
    intro i rel hi
    cases hdrag.symm.trans hi
    refine ⟨layer.moveTo newPos, getElem?_set_self (List.getElem?_eq_some_iff.1 hlayer).1, ?_⟩
    rw [hcursor, hnew]
    rfl

theorem follows_of_moveTo (h : s.moveTo pos = some s') : s'.Follows := by
  simp only [moveTo, bind_eq_bind, bind_eq_some_iff] at h
  obtain ⟨maxX, -, maxY, -, marked, hmark, marked', hmark', h⟩ := h
  obtain ⟨areas, rfl, -⟩ := markAsDamaged_eq_some hmark
  obtain ⟨areas', rfl, -⟩ := markAsDamaged_eq_some hmark'
  exact follows_of_dragTo rfl h

theorem Follows.processMessage {request : Request} (h : s.Follows)
    (hs : s.processMessage request = some s') : s'.Follows := by
  cases request with
  | createSurface id =>
    cases hs
    exact h
  | attach surface buffer =>
    obtain ⟨object, -, hs⟩ := bind_eq_some_iff.1 hs
    cases hs
    exact h
  | damage surface x y width height =>
    obtain ⟨object, -, hs⟩ := bind_eq_some_iff.1 hs
    unfold Server.damage at hs
    split at hs
    · cases hs
      exact h
    · obtain ⟨pos, -, hs⟩ := bind_eq_some_iff.1 hs
      obtain ⟨areas, rfl, -⟩ := markAsDamaged_eq_some hs
      exact h
  | getToplevel surface =>
    obtain ⟨object, -, hs⟩ := bind_eq_some_iff.1 hs
    obtain ⟨layer, -, hs⟩ := bind_eq_some_iff.1 hs
    cases hs
    exact h.congr rfl rfl fun hlayer => ⟨_, getElem?_append_of_some hlayer, rfl⟩
  | setTitle index title =>
    obtain ⟨layer, hlayer, hs⟩ := bind_eq_some_iff.1 hs
    cases hs
    refine h.congr rfl rfl fun {i old} hold => ?_
    by_cases hi : index = i
    · subst hi
      cases hlayer.symm.trans hold
      refine ⟨_, getElem?_set_self (List.getElem?_eq_some_iff.1 hlayer).1, ?_⟩
      unfold retitle
      split <;> rfl
    · exact ⟨old, by rw [getElem?_set_ne hi, hold], rfl⟩

/-- **No event leaves the layer behind.** -/
theorem Follows.step {event : Event} (h : s.Follows) (hs : s.step font event = some s') :
    s'.Follows := by
  cases event with
  | input input =>
    simp only [Server.step, processInput] at hs
    split at hs
    · exact follows_of_leftButton hs
    · cases hs
      exact h
    · cases hs
    · exact follows_of_moveTo hs
  | request request => exact h.processMessage hs
  | write pool offset color =>
    cases hs
    exact h
  | render =>
    obtain ⟨screen, -, hs⟩ := bind_eq_some_iff.1 hs
    cases hs
    exact h

end Server

end Archives.Kazari.Screen
