import Archives.Ftl.DeviceTree
/-!
# FTL — the cells that `Node::reg` decodes with

The parents that a node is given are the nodes on the way to it, the
node itself included, so `find_parent_bus` finds the cells of the
nearest of all these (`Sits`). A node that defines cells for its own
children therefore decodes its own `reg` property with them. The result
is `decodesRegs_iff`.
-/

namespace Archives.Ftl.DeviceTree

open BigEndian Level List BitVec

/-! ## Numbers in cells -/

theorem ofNat_or_shiftLeft (acc : BitVec 64) {cell : Nat} (h : cell < 4294967296) :
    BitVec.ofNat 64 cell ||| acc <<< 32 = BitVec.ofNat 64 (acc.toNat * 4294967296 + cell) := by
  have hshift : (acc.toNat <<< 32) % 18446744073709551616 =
      4294967296 * (acc.toNat % 4294967296) := by
    omega
  have hor := Nat.two_pow_add_eq_or_of_lt (i := 32) (b := cell) h (acc.toNat % 4294967296)
  apply eq_of_toNat_eq
  rw [toNat_or, toNat_shiftLeft, toNat_ofNat, toNat_ofNat]
  rw [hshift, Nat.mod_eq_of_lt (Nat.lt_trans h (by decide)), Nat.or_comm, ← hor]
  omega

/-- What was shifted out does not matter. -/
theorem ofNat_numberFrom_toNat (n : Nat) (bytes : List UInt8) :
    BitVec.ofNat 64 (numberFrom (BitVec.ofNat 64 n).toNat bytes) =
      BitVec.ofNat 64 (numberFrom n bytes) := by
  have hmod : ∀ n m : Nat, n % 18446744073709551616 = m % 18446744073709551616 →
      numberFrom n bytes % 18446744073709551616 = numberFrom m bytes % 18446744073709551616 := by
    induction bytes with
    | nil => exact fun _ _ h => h
    | cons b bytes ih =>
      intro n m h
      exact ih _ _ (by omega)
  apply eq_of_toNat_eq
  exact hmod _ _ (Nat.mod_mod _ _)

/-- **The loop reads the number in the first cells.** By induction on
their number. -/
theorem readCells_words {n : Nat} {bytes : List UInt8} (h : 4 * n ≤ bytes.length)
    (acc : BitVec 64) : readCells n ((words bytes).map Word.get) acc =
      .ok (.ofNat 64 (numberFrom acc.toNat (bytes.take (4 * n))),
        (words (bytes.drop (4 * n))).map Word.get) := by
  induction n generalizing bytes acc with
  | zero => simp [readCells, numberFrom]
  | succ n ih =>
    obtain ⟨a, b, c, d, rest, rfl⟩ : ∃ a b c d rest, bytes = a :: b :: c :: d :: rest := by
      rcases bytes with _ | ⟨a, _ | ⟨b, _ | ⟨c, _ | ⟨d, rest⟩⟩⟩⟩
      · simp at h
      · simp at h
        omega
      · simp at h
        omega
      · simp at h
        omega
      · exact ⟨a, b, c, d, rest, rfl⟩
    simp only [length_cons] at h
    have hword : ∀ m : Nat, numberFrom m (a :: b :: c :: d :: rest.take (4 * n)) =
        numberFrom (m * 4294967296 + (⟨a, b, c, d⟩ : Word).get) (rest.take (4 * n)) :=
      fun m => numberFrom_word m ⟨a, b, c, d⟩ (rest.take (4 * n))
    simp only [words, map_cons, readCells]
    rw [ih (by omega), ofNat_or_shiftLeft acc (Word.get_lt _), ofNat_numberFrom_toNat, ← hword]
    rfl

/-- **A property is decoded with the cells as it should be**, unless
their sum overflows. -/
theorem decodeReg_eq {prop : Property} {addressCells sizeCells : Nat}
    (h : prop.value.length % 4 = 0 → addressCells + sizeCells < 4294967296) :
    decodeReg prop addressCells sizeCells =
      .ok (expectedReg (some (addressCells, sizeCells)) prop.value) := by
  unfold decodeReg Property.asU32Array expectedReg
  by_cases haligned : prop.value.length % 4 = 0
  · simp only [haligned, ne_eq, not_true_eq_false, if_false, length_map, length_words,
      if_neg (Nat.not_le.2 (h haligned))]
    by_cases hlen : prop.value.length = 4 * (addressCells + sizeCells)
    · have hcells : ¬ prop.value.length / 4 ≠ addressCells + sizeCells := by
        omega
      have hsize : 4 * sizeCells ≤ (prop.value.drop (4 * addressCells)).length := by
        rw [length_drop]
        omega
      have hall : (prop.value.drop (4 * addressCells)).take (4 * sizeCells) =
          prop.value.drop (4 * addressCells) := by
        refine take_of_length_le ?_
        rw [length_drop]
        omega
      rw [if_neg hcells, readCells_words (by omega), ok_bind]
      rw [readCells_words hsize, ok_bind, hall]
      simp [hlen, number]
    · have hcells : prop.value.length / 4 ≠ addressCells + sizeCells := by
        omega
      simp [hlen, hcells]
  · simp [haligned]

/-! ## Parents and ancestors -/

theorem cellOf_cons (name : List UInt8) (prop : Property) (props : List Property) :
    cellOf name (prop :: props) = (cellOf name props).or
      (if prop.name = name ∧ prop.value.length = 4 then some (number prop.value) else none) := by
  unfold cellOf
  rw [reverse_cons, findSome?_append]
  split <;> simp_all

/-- **The loop over the properties finds the cells they define.** By
induction on the list; what was found before stays if nothing is found
after it. -/
theorem findCells_eq {props : List Property} {cells cells' : Option Nat × Option Nat}
    (h : findCells props cells = .ok cells') :
    cells' = ((cellOf (ascii "#address-cells") props).or cells.1,
      (cellOf (ascii "#size-cells") props).or cells.2) := by
  have hne : ascii "#address-cells" ≠ ascii "#size-cells" := by decide
  induction props generalizing cells with
  | nil =>
    cases h
    rfl
  | cons prop rest ih =>
    simp only [findCells, Property.asU32] at h
    rw [cellOf_cons, cellOf_cons]
    by_cases haddress : prop.name = ascii "#address-cells"
    · rw [if_pos haddress] at h
      by_cases hlen : prop.value.length = 4
      · simp only [hlen, ne_eq, not_true_eq_false, if_false] at h
        rw [ih h]
        simp [haddress, hne, hlen]
      · simp [hlen] at h
    · rw [if_neg haddress] at h
      by_cases hsize : prop.name = ascii "#size-cells"
      · rw [if_pos hsize] at h
        by_cases hlen : prop.value.length = 4
        · simp only [hlen, ne_eq, not_true_eq_false, if_false] at h
          rw [ih h]
          simp [hsize, hne.symm, hlen]
        · simp [hlen] at h
      · rw [if_neg hsize] at h
        rw [ih h]
        simp [haddress, hsize]

/-- A node is a bus to its children if it is seen to define both. -/
theorem cells_of_opened {parents inner : List Parent} {name : List UInt8} {entries : List Entry}
    (h : opened parents name entries = .ok inner) :
    inner.map Parent.cells = parents.map Parent.cells ++ [cellsOf (visible entries)] := by
  simp only [opened, bind_eq_ok] at h
  obtain ⟨cells, hcells, h⟩ := h
  split at h
  · cases h
  · cases h
    rw [findCells_eq hcells, map_append, map_singleton]
    simp only [Option.or_none, cellsOf]
    cases cellOf (ascii "#address-cells") (visible entries) with
    | none => rfl
    | some addressCells =>
      cases cellOf (ascii "#size-cells") (visible entries) with
      | none => rfl
      | some sizeCells => rfl

/-- A node that is seen stands at a place: it has the properties seen
there, and its parents have the cells seen from there. -/
structure Sits (seen : Seen) (place : Place) : Prop where
  props : seen.props = visible place.entries
  cells : (findParentBus seen.parents).toOption = place.cellsSeen

theorem toOption_findParentBus (parents : List Parent) :
    (findParentBus parents).toOption = (parents.map Parent.cells).reverse.findSome? id := by
  unfold findParentBus
  rw [← map_reverse, findSome?_map]
  cases hfind : parents.reverse.findSome? Parent.cells with
  | none => exact hfind.symm
  | some cells => exact hfind.symm

theorem nearestCells_eq (path : List (List Property)) :
    nearestCells path = (path.map cellsOf).reverse.findSome? id := by
  rw [← map_reverse, findSome?_map]
  rfl

/-- **The parents of a node are its ancestors and itself.** By induction
on the tree. -/
theorem seen_places {level : Level} {parents : List Parent} {ancestors : List (List Entry)}
    {items : List Seen} (h : level.seen parents = .ok items)
    (hparents : parents.map Parent.cells = ancestors.map fun entries => cellsOf (visible entries)) :
    List.Forall₂ Sits items (level.places ancestors) := by
  induction level generalizing parents ancestors items with
  | nil =>
    cases h
    exact .nil
  | node nops name entries children endNops next ihc ihn =>
    obtain ⟨inner, hopened, items₁, hitems₁, items₂, hitems₂, rfl⟩ := seen_node_eq_ok.1 h
    have hinner : inner.map Parent.cells =
        (ancestors ++ [entries]).map fun entries => cellsOf (visible entries) := by
      rw [cells_of_opened hopened, hparents, map_append, map_singleton]
    refine .cons ⟨rfl, ?_⟩ (rel_append (ihc hitems₁ hinner) (ihn hitems₂ hparents))
    rw [toOption_findParentBus, hinner, Place.cellsSeen, nearestCells_eq, map_map]
    rfl

/-! ## Decoding -/

/-- A `reg` property that is seen is the first. -/
theorem regProp_of_visible {place : Place} {prop : Property}
    (h : (visible place.entries).find? (fun prop => prop.name = ascii "reg") = some prop) :
    place.regProp = some prop := by
  have hprefix : visible place.entries <+: place.entries.map Entry.property :=
    IsPrefix.map _ <| takeWhile_prefix _
  obtain ⟨rest, hrest⟩ := hprefix
  rw [Place.regProp, ← hrest, find?_append, h]
  rfl

theorem expectedReg_ne_none (cells : Option (Nat × Nat)) (value : List UInt8) :
    expectedReg cells value ≠ .ok none := by
  unfold expectedReg
  rcases cells with _ | ⟨addressCells, sizeCells⟩
  · simp
  · simp only []
    split
    · simp
    · split
      · simp
      · simp

section

variable {dtb : Dtb} {node : Node} {props : List Property} {prop : Property}
  (hprops : node.props dtb = .ok props)

include hprops

theorem reg_of_none (h : props.find? (fun prop => prop.name = ascii "reg") = none) :
    node.reg dtb = .ok (.ok none) := by
  simp only [Node.reg, hprops, ok_bind, h]
  rfl

variable (h : props.find? (fun prop => prop.name = ascii "reg") = some prop)
include h

/-- **What `Node::reg` returns** for a property that is seen, with the
cells it takes. -/
theorem reg_of_some
    {cells : Option (Nat × Nat)} (hcells : (findParentBus node.parents).toOption = cells)
    (hsum : ∀ addressCells sizeCells, cells = some (addressCells, sizeCells) →
      prop.value.length % 4 = 0 → addressCells + sizeCells < 4294967296) :
    node.reg dtb = .ok (expectedReg cells prop.value) := by
  simp only [Node.reg, hprops, ok_bind, h]
  subst hcells
  cases hbus : findParentBus node.parents with
  | error err =>
    obtain rfl : err = .missingParent := by
      unfold findParentBus at hbus
      split at hbus
      · cases hbus
      · exact (Except.error.inj hbus).symm
    rfl
  | ok cells =>
    obtain ⟨addressCells, sizeCells⟩ := cells
    exact decodeReg_eq (hsum addressCells sizeCells (by rw [hbus]; rfl))

/-- If the sum of the cells overflows, the program ends. -/
theorem reg_of_overflow {addressCells sizeCells : Nat}
    (hcells : (findParentBus node.parents).toOption = some (addressCells, sizeCells))
    (haligned : prop.value.length % 4 = 0) (hsum : 4294967296 ≤ addressCells + sizeCells) :
    node.reg dtb = .error .panic := by
  have hbus : findParentBus node.parents = .ok (addressCells, sizeCells) :=
    eq_ok_of_toOption hcells
  simp only [Node.reg, hprops, ok_bind, h, hbus, decodeReg, Property.asU32Array, haligned, ne_eq,
    not_true_eq_false, if_false, if_pos hsum]

end

/-- **A node decodes its `reg` property** exactly if it is decodable. -/
theorem decodesReg_iff {dtb : Dtb} {node : Node} {seen : Seen} {place : Place}
    (hshows : Shows dtb node seen) (hsits : Sits seen place) :
    node.DecodesReg dtb place ↔ ∀ prop, place.regProp = some prop → place.Decodable prop := by
  have hprops := hshows.props
  rw [hsits.props] at hprops
  have hcells := hsits.cells
  rw [← hshows.parents] at hcells
  refine forall₂_congr ?_
  intro prop hprop
  constructor
  · rintro ⟨htaken, hreg⟩
    have hseen : (visible place.entries).find? (fun prop => prop.name = ascii "reg") =
        some prop := by
      cases hfind : (visible place.entries).find? fun prop => prop.name = ascii "reg" with
      | none =>
        rw [reg_of_none hprops hfind] at hreg
        exact absurd (Except.ok.inj hreg).symm (expectedReg_ne_none _ _)
      | some prop' => exact (regProp_of_visible hfind).symm.trans hprop
    refine ⟨hseen, hcells.symm.trans htaken, ?_⟩
    intro addressCells sizeCells hplace haligned
    by_contra hsum
    rw [reg_of_overflow hprops hseen (htaken.trans hplace) haligned (Nat.not_lt.1 hsum)] at hreg
    cases hreg
  · intro hdecodable
    have htaken := hcells.trans hdecodable.cells
    exact ⟨htaken, reg_of_some hprops hdecodable.isSeen htaken hdecodable.sum⟩

/-- The parser gets through a tree that opens. By induction on the tree. -/
theorem exists_seen_iff {level : Level} (parents : List Parent) :
    (∃ items, level.seen parents = .ok items) ↔ level.Opens parents.length := by
  induction level generalizing parents with
  | nil => exact ⟨fun _ => trivial, fun _ => ⟨[], rfl⟩⟩
  | node nops name entries children endNops next ihc ihn =>
    constructor
    · rintro ⟨items, hitems⟩
      obtain ⟨inner, hopened, items₁, hitems₁, items₂, hitems₂, rfl⟩ := seen_node_eq_ok.1 hitems
      obtain ⟨hroom, hcells⟩ := exists_opened_iff.1 ⟨inner, hopened⟩
      have hinner := (ihc inner).1 ⟨items₁, hitems₁⟩
      rw [length_of_opened hopened] at hinner
      exact ⟨hroom, hcells, hinner, (ihn parents).1 ⟨items₂, hitems₂⟩⟩
    · rintro ⟨hroom, hcells, hchildren, hnext⟩
      obtain ⟨inner, hopened⟩ := exists_opened_iff.2 ⟨hroom, hcells⟩
      rw [← length_of_opened hopened] at hchildren
      obtain ⟨items₁, hitems₁⟩ := (ihc inner).2 hchildren
      obtain ⟨items₂, hitems₂⟩ := (ihn parents).2 hnext
      exact ⟨_, seen_node_eq_ok.2 ⟨inner, hopened, items₁, hitems₁, items₂, hitems₂, rfl⟩⟩

/-- Lists related through a third one. -/
theorem forall₂_iff_of_shows {dtb : Dtb} {nodes : List Node} {items : List Seen}
    {places : List Place} (hshows : List.Forall₂ (Shows dtb) nodes items)
    (hsits : List.Forall₂ Sits items places) : List.Forall₂ (Node.DecodesReg dtb) nodes places ↔
      ∀ place ∈ places, ∀ prop, place.regProp = some prop → place.Decodable prop := by
  induction hshows generalizing places with
  | nil =>
    cases hsits
    simp
  | cons hnode _ ih =>
    cases hsits with
    | cons hplace hrest =>
      rw [forall₂_cons, forall_mem_cons, decodesReg_iff hnode hplace, ih hrest]

namespace Blob

variable (blob : Blob)

/-- **`Node::reg` decodes with the nearest proper ancestor's cells**
exactly if the parser gets through the tree and every `reg` property is
decodable: in particular if no node with a `reg` property defines other
cells for its own children. -/
theorem decodesRegs_iff : blob.DecodesRegs ↔ blob.level.Opens 0 ∧
    ∀ place ∈ blob.level.places [], ∀ prop, place.regProp = some prop → place.Decodable prop := by
  constructor
  · rintro ⟨nodes, hnodes, hdecodes⟩
    obtain ⟨items, hitems, hshows⟩ := blob.seen_of_nodes hnodes
    exact ⟨(exists_seen_iff []).1 ⟨items, hitems⟩,
      (forall₂_iff_of_shows hshows (seen_places hitems rfl)).1 hdecodes⟩
  · rintro ⟨hopens, hplaces⟩
    obtain ⟨items, hitems⟩ := (exists_seen_iff []).2 hopens
    obtain ⟨nodes, hnodes, hshows⟩ := blob.nodes_of_seen hitems
    exact ⟨nodes, hnodes, (forall₂_iff_of_shows hshows (seen_places hitems rfl)).2 hplaces⟩

/-- The cells of a node, at the start of `cellStrings`. -/
def cellEntries (addressCells sizeCells : UInt8) : List Entry :=
  [⟨0, 0, ⟨ascii "#address-cells", [0, 0, 0, addressCells]⟩⟩,
    ⟨0, 15, ⟨ascii "#size-cells", [0, 0, 0, sizeCells]⟩⟩]

def cellStrings : List UInt8 :=
  ascii "#address-cells" ++ 0 :: (ascii "#size-cells" ++ 0 :: (ascii "reg" ++ [0]))

theorem legal_cellEntries (addressCells sizeCells : UInt8) :
    ∀ entry ∈ cellEntries addressCells sizeCells, entry.Legal cellStrings := by
  simp only [cellEntries, forall_mem_cons]
  have haddress : (0 : UInt8) ∉ ascii "#address-cells" ∧
      ascii "#address-cells" ++ [0] <+: cellStrings.drop 0 := by decide
  have hsize : (0 : UInt8) ∉ ascii "#size-cells" ∧
      ascii "#size-cells" ++ [0] <+: cellStrings.drop 15 := by decide
  exact ⟨⟨by simp, by simp, haddress.1, haddress.2⟩, ⟨by simp, by simp, hsize.1, hsize.2⟩, by simp⟩

/-- A bus with an address and a size of two words each, and on it a bridge
to a bus with an address and a size of one word each. -/
def bridge : Blob where
  nops := 0
  name := []
  entries := cellEntries 2 2
  children := .node 0 (ascii "bridge")
    (cellEntries 1 1 ++ [⟨0, 27, ⟨ascii "reg", replicate 16 0⟩⟩]) .nil 0 .nil
  endNops := 0
  trailing := 0
  strings := cellStrings
  legal := by
    refine ⟨by decide, legal_cellEntries 2 2, ⟨by decide, ?_, trivial, trivial⟩, trivial⟩
    rw [forall_mem_append]
    refine ⟨legal_cellEntries 1 1, ?_⟩
    simp only [forall_mem_cons]
    exact ⟨⟨by decide, by decide, by decide, by decide⟩, by simp⟩

/-- **The bridge decodes its own `reg` property with the cells of its
children.** -/
theorem not_decodesRegs_bridge : ¬ bridge.DecodesRegs := by
  rintro ⟨nodes, hnodes, hdecodes⟩
  obtain ⟨items, hitems, hshows⟩ := bridge.seen_of_nodes hnodes
  have hplaces := (forall₂_iff_of_shows hshows (seen_places hitems rfl)).1 hdecodes
  have hplace := hplaces ⟨[bridge.entries],
    cellEntries 1 1 ++ [⟨0, 27, ⟨ascii "reg", .replicate 16 0⟩⟩]⟩
    (mem_cons_of_mem _ mem_cons_self) _ rfl
  have hcells := hplace.cells
  revert hcells
  decide

end Blob

end Archives.Ftl.DeviceTree
