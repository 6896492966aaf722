import Archives.Ftl.Model.DeviceTree
import Mathlib.Data.List.Forall2
/-!
# FTL — what the device tree parser sees

Where the parser stands is described by the words in front of it:
`dtb.structs.drop index` is the encoding of what comes next. One lemma
for each token says what `NodeIter::next` and `PropIter::next` do there,
and by induction on the tree the nodes that come out are those of
`Level.seen`: every node with the properties in front of the first
`FDT_NOP` of its list, unless the program ends on the way. The result is
`enumerates_iff_readable`.
-/

namespace Archives.Ftl.DeviceTree

open BigEndian NodeIter Except Nat Entry Word
open List (append_assoc cons_append flatMap_cons length_append length_cons length_replicate map_cons
  nil_append)

variable {dtb : Dtb} {index : Nat} {w : Word} {ws after : List Word} {name : List UInt8}
  {entries : List Entry}

/-! ## The words in front of the parser -/

variable (h : dtb.structs.drop index = w :: ws)
include h

theorem lt_of_drop : index < dtb.structs.length := by
  by_contra hge
  rw [List.drop_of_length_le (Nat.not_lt.1 hge)] at h
  cases h

theorem getElem?_of_drop : dtb.structs[index]? = some w := by
  rw [← List.head?_drop, h]
  rfl

theorem getElem_of_drop (hlt : index < dtb.structs.length) : dtb.structs[index] = w :=
  Option.some.inj ((List.getElem?_eq_getElem hlt).symm.trans (getElem?_of_drop h))

theorem word_of_drop : dtb.word index = .ok w.get := by
  simp only [Dtb.word, getElem?_of_drop h]

omit h

/-- What is in front of the parser when it moves on. -/
theorem drop_add {xs : List Word} (h : dtb.structs.drop index = xs ++ after) :
    dtb.structs.drop (index + xs.length) = after := by
  rw [← List.drop_drop, h, List.drop_left]

theorem drop_succ (h : dtb.structs.drop index = w :: ws) : dtb.structs.drop (index + 1) = ws :=
  drop_add (show dtb.structs.drop index = [w] ++ ws from h)

theorem alignUp_div (len : Nat) : alignUp len 4 / 4 = (len + 3) / 4 := by
  unfold alignUp
  omega

/-! ## Properties -/

theorem takeWhile_name {rest : List UInt8} (hzero : (0 : UInt8) ∉ name) (h : name ++ [0] <+: rest) :
    rest.takeWhile (· ≠ 0) = name := by
  obtain ⟨tail, rfl⟩ := h
  have hall : ∀ b ∈ name, decide (b ≠ 0) = true := by
    intro b hb
    refine decide_eq_true ?_
    rintro rfl
    exact hzero hb
  rw [append_assoc, List.takeWhile_append_of_pos hall]
  simp

/-- **A property is read.** -/
theorem PropIter.next_prop {entry : Entry} (hlegal : entry.Legal dtb.strings)
    (hnops : entry.nops = 0) (h : dtb.structs.drop index = entry.encode ++ after) :
    PropIter.next dtb index = .ok (some (entry.property, index + entry.encode.length)) := by
  simp only [encode, hnops, nopWords, List.replicate_zero, nil_append, cons_append] at h
  have hlen := lt_of_drop (drop_succ h)
  have htoken := word_of_drop h
  have hsize := word_of_drop (drop_succ h)
  have hoff := word_of_drop (drop_succ (drop_succ h))
  rw [get_ofNat (by decide)] at htoken
  rw [get_ofNat hlegal.length] at hsize
  rw [get_ofNat hlegal.offset] at hoff
  have hrest : dtb.bytesFrom (index + 3) = (pad entry.property.value ++ after).flatMap bytes :=
    congrArg (List.flatMap bytes) (drop_succ (drop_succ (drop_succ h)))
  have hin : ¬ dtb.strings.length < entry.nameoff := by
    intro hlt
    have hnil := hlegal.isName
    rw [List.drop_of_length_le (Nat.le_of_lt hlt)] at hnil
    simp at hnil
  have hbytes : ¬ (dtb.bytesFrom (index + 3)).length < entry.property.value.length := by
    rw [hrest]
    exact Nat.not_lt.2 (length_le_bytes_pad _ _)
  have hvalue : (dtb.bytesFrom (index + 3)).take entry.property.value.length =
      entry.property.value := by
    rw [hrest, take_bytes_pad]
  have hend : index + 3 + alignUp entry.property.value.length 4 / 4 =
      index + entry.encode.length := by
    simp only [encode, hnops, nopWords, List.replicate_zero, nil_append,
      length_cons, length_pad, alignUp_div]
    omega
  unfold PropIter.next
  rw [if_neg (Nat.not_le.2 hlen), htoken, hsize, hoff, ← hend]
  simp only [ok_bind, ne_eq, not_true_eq_false, if_false, if_neg hin, if_neg hbytes, hvalue,
    takeWhile_name hlegal.noZero hlegal.isName]
  rfl

/-- The iterator ends at any other token. -/
theorem PropIter.next_other (h : dtb.structs.drop index = w :: ws) (hw : w.get ≠ fdtProp) :
    PropIter.next dtb index = .ok none := by
  unfold PropIter.next
  split
  · rfl
  · rw [word_of_drop h, ok_bind, if_pos hw]
    rfl

/-- **The properties of a node** up to an `FDT_NOP`. By induction on the
list; `fuel` is enough calls. -/
theorem PropIter.collect_entries (hlegal : ∀ entry ∈ entries, entry.Legal dtb.strings)
    (h : dtb.structs.drop index = entries.flatMap encode ++ w :: ws) (hw : w.get ≠ fdtProp)
    {fuel : Nat} (hfuel : entries.length < fuel) :
    PropIter.collect dtb fuel index = .ok (visible entries) := by
  induction entries generalizing index fuel with
  | nil =>
    obtain ⟨fuel, rfl⟩ := Nat.exists_eq_add_one_of_ne_zero (Nat.ne_of_gt hfuel)
    rw [PropIter.collect, PropIter.next_other h hw]
    rfl
  | cons entry rest ih =>
    obtain ⟨fuel, rfl⟩ := Nat.exists_eq_add_one_of_ne_zero (Nat.ne_of_gt (Nat.zero_lt_of_lt hfuel))
    rw [flatMap_cons, append_assoc] at h
    by_cases hnops : entry.nops = 0
    · have hrest := ih (fun e he => hlegal e (List.mem_cons_of_mem _ he)) (drop_add h)
        (lt_of_succ_lt_succ hfuel)
      rw [PropIter.collect, PropIter.next_prop (hlegal entry List.mem_cons_self) hnops h]
      simp only [ok_bind, hrest]
      simp [visible, hnops]
    · -- the list begins with an `FDT_NOP`
      obtain ⟨n, hn⟩ := exists_eq_add_one_of_ne_zero hnops
      simp only [encode, hn, nopWords, List.replicate_succ, cons_append] at h
      rw [PropIter.collect, PropIter.next_other h (by decide)]
      simp [visible, hnops]

/-! ## Tokens between nodes -/

variable {parents inner : List Parent} {level : Level}

theorem NodeIter.next_nop (h : dtb.structs.drop index = .ofNat fdtNop :: ws) :
    next dtb ⟨parents, index⟩ = next dtb ⟨parents, index + 1⟩ := by
  have hlt := lt_of_drop h
  rw [next, dif_pos hlt]
  simp only [getElem_of_drop h hlt, get_ofNat (show fdtNop < 4294967296 by decide)]
  rw [if_neg (by decide), if_neg (by decide), if_neg (by decide), if_pos trivial]

theorem NodeIter.next_nops {n : Nat} (h : dtb.structs.drop index = nopWords n ++ after) :
    next dtb ⟨parents, index⟩ = next dtb ⟨parents, index + n⟩ := by
  induction n generalizing index with
  | zero => rfl
  | succ n ih =>
    rw [next_nop h, ih (drop_succ h), Nat.add_assoc, Nat.add_comm 1 n]

theorem NodeIter.next_endNode (h : dtb.structs.drop index = .ofNat fdtEndNode :: ws) :
    next dtb ⟨parents, index⟩ = next dtb ⟨parents.dropLast, index + 1⟩ := by
  have hlt := lt_of_drop h
  rw [next, dif_pos hlt]
  simp only [getElem_of_drop h hlt, get_ofNat (show fdtEndNode < 4294967296 by decide)]
  rw [if_neg (by decide), if_pos trivial]

theorem NodeIter.next_end (h : dtb.structs.drop index = .ofNat fdtEnd :: ws) :
    next dtb ⟨parents, index⟩ = .ok (none, ⟨parents, index⟩) := by
  have hlt := lt_of_drop h
  rw [next, dif_pos hlt]
  simp only [getElem_of_drop h hlt, get_ofNat (show fdtEnd < 4294967296 by decide)]
  rw [if_neg (by decide), if_neg (by decide), if_neg (by decide), if_neg (by decide), if_pos trivial]

theorem NodeIter.next_beginNode (h : dtb.structs.drop index = .ofNat fdtBeginNode :: ws) :
    next dtb ⟨parents, index⟩ = beginNode dtb ⟨parents, index⟩ := by
  have hlt := lt_of_drop h
  rw [next, dif_pos hlt]
  simp only [getElem_of_drop h hlt, get_ofNat (show fdtBeginNode < 4294967296 by decide)]
  rw [if_pos trivial]

/-- A property is skipped, with the `FDT_NOP` tokens in front of it. -/
theorem NodeIter.next_entry {entry : Entry} (hlegal : entry.Legal dtb.strings)
    (h : dtb.structs.drop index = entry.encode ++ after) : next dtb ⟨parents, index⟩ =
      next dtb ⟨parents, index + entry.encode.length⟩ := by
  rw [encode, append_assoc] at h
  have hprop := drop_add h
  simp only [nopWords, length_replicate, cons_append] at hprop
  have hlt := lt_of_drop hprop
  have hlen := drop_succ hprop
  have hin : ¬ dtb.structs.length ≤ index + entry.nops + 2 :=
    Nat.not_le.2 (lt_of_drop (drop_succ hlen))
  have hend : index + entry.nops + (3 + alignUp entry.property.value.length 4 / 4) =
      index + entry.encode.length := by
    simp only [encode, nopWords, length_append, length_replicate,
      length_cons, length_pad, alignUp_div]
    omega
  rw [next_nops h, next, dif_pos hlt]
  simp only [getElem_of_drop hprop hlt, getElem_of_drop hlen (lt_of_drop hlen),
    get_ofNat hlegal.length, get_ofNat (show fdtProp < 4294967296 by decide),
    dif_neg hin, hend]
  rw [if_neg (by decide), if_neg (by decide), if_pos trivial]

theorem NodeIter.next_entries (hlegal : ∀ entry ∈ entries, entry.Legal dtb.strings)
    (h : dtb.structs.drop index = entries.flatMap encode ++ after) : next dtb ⟨parents, index⟩ =
      next dtb ⟨parents, index + (entries.flatMap encode).length⟩ := by
  induction entries generalizing index with
  | nil => rfl
  | cons entry rest ih =>
    rw [flatMap_cons, append_assoc] at h
    rw [next_entry (hlegal entry List.mem_cons_self) h,
      ih (fun e he => hlegal e (List.mem_cons_of_mem _ he)) (drop_add h), flatMap_cons,
      length_append, Nat.add_assoc]

/-- What the iterator gives depends on its next item only. -/
theorem NodeIter.collect_congr {iter iter' : NodeIter} (h : iter.next dtb = iter'.next dtb)
    (fuel : Nat) : collect dtb fuel iter = collect dtb fuel iter' := by
  cases fuel with
  | zero => rfl
  | succ fuel => simp only [collect, h]

theorem length_le_encode (entries : List Entry) :
    entries.length ≤ (entries.flatMap encode).length := by
  induction entries with
  | nil => exact Nat.le_refl _
  | cons entry rest ih =>
    simp only [flatMap_cons, length_append, length_cons, encode]
    omega

/-- All properties of a node up to an `FDT_NOP`. -/
theorem props_of_drop (hlegal : ∀ entry ∈ entries, entry.Legal dtb.strings)
    (h : dtb.structs.drop index = entries.flatMap encode ++ w :: ws) (hw : w.get ≠ fdtProp) :
    dtb.props index = .ok (visible entries) := by
  have hfuel : entries.length < dtb.structs.length + 1 := by
    have hlen := congrArg List.length h
    have hmany := length_le_encode entries
    simp only [List.length_drop, length_append, length_cons] at hlen
    omega
  exact PropIter.collect_entries hlegal h hw hfuel

/-! ## The beginning of a node -/

/-- **The name of a node has the length it was written with**, whatever
follows. By recursion on the name, a word at a time. -/
theorem nameLength_pad : ∀ (name : List UInt8) (_ : (0 : UInt8) ∉ name) (n : Nat),
    nameLength (pad (name ++ [0]) ++ after) n = some (n + name.length)
  | [], _, n => by simp [pad, nameLength, bytes]
  | [a], hzero, n => by
    simp only [List.mem_cons, not_or, eq_comm (a := (0 : UInt8))] at hzero
    simp [pad, nameLength, bytes, hzero]
  | [a, b], hzero, n => by
    simp only [List.mem_cons, not_or, eq_comm (a := (0 : UInt8))] at hzero
    simp [pad, nameLength, bytes, hzero]
  | [a, b, c], hzero, n => by
    simp only [List.mem_cons, not_or, eq_comm (a := (0 : UInt8))] at hzero
    simp [pad, nameLength, bytes, hzero]
  | a :: b :: c :: d :: rest, hzero, n => by
    simp only [List.mem_cons, not_or, eq_comm (a := (0 : UInt8))] at hzero
    obtain ⟨ha, hb, hc, hd, hrest⟩ := hzero
    have ih := nameLength_pad rest hrest (n + 4)
    simp only [cons_append, pad, nameLength, bytes, ne_eq, ha, hb, hc, hd,
      not_false_eq_true, decide_true, List.takeWhile_cons_of_pos, List.takeWhile_nil,
      length_cons, List.length_nil, Nat.reduceAdd, Nat.lt_irrefl, if_false]
    rw [ih]
    congr 1
    omega

/-- What `FDT_BEGIN_NODE` leads to, given the properties in front of the
first `FDT_NOP`. -/
def opened (parents : List Parent) (name : List UInt8) (entries : List Entry) :
    Except Stop (List Parent) := do
  let cells ← findCells (visible entries) (none, none)
  if maxParents ≤ parents.length then throw .panic
  return parents ++ [parentOf name cells]

/-- **A node begins.** -/
theorem NodeIter.beginNode_eq (hzero : (0 : UInt8) ∉ name)
    (hlegal : ∀ entry ∈ entries, entry.Legal dtb.strings)
    (h : dtb.structs.drop index = .ofNat fdtBeginNode ::
      (pad (name ++ [0]) ++ (entries.flatMap encode ++ w :: ws))) (hw : w.get ≠ fdtProp) :
    beginNode dtb ⟨parents, index⟩ = (opened parents name entries).map fun parents =>
      (some (.ok ⟨parents, name, index + 1 + (pad (name ++ [0])).length⟩),
        ⟨parents, index + 1 + (pad (name ++ [0])).length⟩) := by
  have hname := drop_succ h
  have hprops := drop_add hname
  have hcut : (dtb.bytesFrom (index + 1)).take name.length = name := by
    have hpad := prefix_bytes_pad (name ++ [0])
    have hfirst : name <+: dtb.bytesFrom (index + 1) := by
      rw [Dtb.bytesFrom, hname, List.flatMap_append]
      exact (List.prefix_append _ _).trans (hpad.trans (List.prefix_append _ _))
    exact (List.prefix_iff_eq_take.1 hfirst).symm
  have hindex : index + 1 + alignUp (name.length + 1) 4 / 4 =
      index + 1 + (pad (name ++ [0])).length := by
    rw [alignUp_div, length_pad, length_append, List.length_singleton]
  have hvisible := props_of_drop hlegal hprops hw
  simp only [beginNode, hname, nameLength_pad name hzero 0, Nat.zero_add, hcut, hindex,
    hvisible, ok_bind, opened]
  cases findCells (visible entries) (none, none) with
  | error stop => rfl
  | ok cells =>
    split
    · rfl
    · rfl

/-! ## Trees -/

/-- A node as the parser sees it. -/
structure Seen where
  parents : List Parent
  name : List UInt8
  props : List Property

/-- A node of the iterator is one that was seen. -/
structure Shows (dtb : Dtb) (node : Node) (seen : Seen) : Prop where
  parents : node.parents = seen.parents
  name : node.name = seen.name
  props : node.props dtb = .ok seen.props

namespace Level

/-- **What the parser sees of a tree**, below the given parents. -/
def seen : Level → List Parent → Except Stop (List Seen)
  | nil, _ => .ok []
  | node _ name entries children _ next, parents => do
    let inner ← opened parents name entries
    let below ← children.seen inner
    let rest ← next.seen parents
    return ⟨inner, name, visible entries⟩ :: (below ++ rest)

variable {level : Level}

theorem seen_node_eq_ok {nops endNops : Nat} {name : List UInt8} {entries : List Entry}
    {children next : Level} {items : List Seen} :
    (node nops name entries children endNops next).seen parents = .ok items ↔
      ∃ inner, opened parents name entries = .ok inner ∧ ∃ below, children.seen inner = .ok below ∧
        ∃ rest, next.seen parents = .ok rest ∧
          ⟨inner, name, visible entries⟩ :: (below ++ rest) = items := by
  simp only [seen, bind_eq_ok, pure_eq_ok]

theorem length_seen {items : List Seen} (h : level.seen parents = .ok items) :
    items.length = level.document.length := by
  induction level generalizing parents items with
  | nil =>
    cases h
    rfl
  | node nops name entries children endNops next ihc ihn =>
    obtain ⟨inner, -, below, hbelow, rest, hrest, rfl⟩ := seen_node_eq_ok.1 h
    simp [document, ihc hbelow, ihn hrest]

theorem length_document_le (level : Level) : level.document.length ≤ level.encode.length := by
  induction level with
  | nil => exact Nat.le_refl _
  | node nops name entries children endNops next ihc ihn =>
    simp only [document, encode, length_cons, length_append]
    omega

/-- What follows the properties of a node is no property. -/
theorem exists_encode_cons (level : Level) (n : Nat) (ws : List Word) :
    ∃ w ws', level.encode ++ (nopWords n ++ .ofNat fdtEndNode :: ws) = w :: ws' ∧
      w.get ≠ fdtProp := by
  have hnops : ∀ n (v : Word) ws, v.get ≠ fdtProp →
      ∃ w ws', nopWords n ++ v :: ws = w :: ws' ∧ w.get ≠ fdtProp := by
    intro n v ws hv
    cases n with
    | zero => exact ⟨v, ws, rfl, hv⟩
    | succ n => exact ⟨_, _, rfl, by decide⟩
  cases level with
  | nil => exact hnops n _ ws (by decide)
  | node nops name entries children endNops next =>
    simp only [encode, append_assoc, cons_append]
    exact hnops nops _ _ (by decide)

end Level

open Level

/-- An item of the iterator, and then the others. -/
theorem NodeIter.collect_item {iter iter' : NodeIter} {node : Node}
    (h : iter.next dtb = .ok (some (.ok node), iter')) (fuel : Nat) : collect dtb (fuel + 1) iter =
      (collect dtb fuel iter').map (.ok node :: ·) := by
  rw [collect, h]
  simp only [ok_bind]
  cases collect dtb fuel iter' <;> rfl

/-- **The way through a node**: its beginning, the way to its children,
and the way from them to the next node. -/
theorem NodeIter.exists_places {nops endNops : Nat} {children rest : Level}
    (hlegal : (node nops name entries children endNops rest).Legal dtb.strings)
    (h : dtb.structs.drop index = (node nops name entries children endNops rest).encode ++ after) :
    ∃ props below behind after', dtb.props props = .ok (visible entries) ∧
      dtb.structs.drop below = children.encode ++ after' ∧
      dtb.structs.drop behind = rest.encode ++ after ∧ behind + rest.encode.length =
        index + (node nops name entries children endNops rest).encode.length ∧
      (∀ parents, next dtb ⟨parents, index⟩ = (opened parents name entries).map fun inner =>
          (some (.ok ⟨inner, name, props⟩), ⟨inner, props⟩)) ∧
      (∀ inner, next dtb ⟨inner, props⟩ = next dtb ⟨inner, below⟩) ∧
      ∀ inner, next dtb ⟨inner, below + children.encode.length⟩ =
        next dtb ⟨inner.dropLast, behind⟩ := by
  obtain ⟨hzero, hentries, -, -⟩ := hlegal
  have hlength : (node nops name entries children endNops rest).encode.length =
      nops + 1 + (pad (name ++ [0])).length + (entries.flatMap Entry.encode).length +
        children.encode.length + endNops + 1 + rest.encode.length := by
    simp only [Level.encode, nopWords, length_append, length_cons, length_replicate]
    omega
  simp only [Level.encode, append_assoc, cons_append] at h
  have hbegin := drop_add h
  have hname := drop_succ hbegin
  have hprops := drop_add hname
  have hbelow := drop_add hprops
  have hclose := drop_add hbelow
  have hend := drop_add hclose
  have hbehind := drop_succ hend
  simp only [nopWords, length_replicate] at hbegin hname hprops hbelow hclose hend hbehind
  obtain ⟨w, ws, hw, hprop⟩ := children.exists_encode_cons endNops (rest.encode ++ after)
  rw [nopWords] at hw
  rw [hw] at hbegin hprops
  refine ⟨_, _, _, _, props_of_drop hentries hprops hprop, hbelow, hbehind, ?_, ?_, ?_, ?_⟩
  · rw [hlength]
    omega
  · intro parents
    rw [next_nops h, next_beginNode hbegin, beginNode_eq hzero hentries hbegin hprop]
  · intro inner
    exact next_entries hentries hprops
  · intro inner
    rw [next_nops hclose, next_endNode hend]

theorem opened_eq_ok : opened parents name entries = .ok inner ↔
    ∃ cells, findCells (visible entries) (none, none) = .ok cells ∧
      parents.length < maxParents ∧ parents ++ [parentOf name cells] = inner := by
  have hthrow (f : Unit → List Parent) : f <$> (throw .panic : Except Stop Unit) ≠ .ok inner := nofun
  simp [opened, bind_eq_ok, ite_eq_ok, hthrow]

theorem dropLast_of_opened (h : opened parents name entries = .ok inner) :
    inner.dropLast = parents := by
  obtain ⟨cells, -, -, rfl⟩ := opened_eq_ok.1 h
  exact List.dropLast_concat

/-- From the beginning of a node to its children. -/
theorem NodeIter.collect_opened {props below : Nat}
    (hopened : opened parents name entries = .ok inner)
    (hbegin : next dtb ⟨parents, index⟩ = (opened parents name entries).map fun inner =>
      (some (.ok ⟨inner, name, props⟩), ⟨inner, props⟩))
    (henter : next dtb ⟨inner, props⟩ = next dtb ⟨inner, below⟩) (fuel : Nat) :
    collect dtb (fuel + 1) ⟨parents, index⟩ =
      (collect dtb fuel ⟨inner, below⟩).map (.ok ⟨inner, name, props⟩ :: ·) := by
  rw [hopened] at hbegin
  rw [collect_item hbegin, collect_congr henter]

/-- **The iterator gives what is seen of a tree**, and goes on behind it
with the same parents. By induction on the tree. -/
theorem NodeIter.collect_seen (hlegal : level.Legal dtb.strings)
    (h : dtb.structs.drop index = level.encode ++ after) (parents : List Parent) {items : List Seen}
    (hitems : level.seen parents = .ok items) :
    ∃ nodes : List Node, List.Forall₂ (Shows dtb) nodes items ∧
      ∀ fuel, collect dtb (nodes.length + fuel) ⟨parents, index⟩ =
        (collect dtb fuel ⟨parents, index + level.encode.length⟩).map (nodes.map .ok ++ ·) := by
  induction level generalizing parents index after items with
  | nil =>
    cases hitems
    refine ⟨[], .nil, ?_⟩
    intro fuel
    simp only [Level.encode, List.length_nil, Nat.zero_add, Nat.add_zero, List.map_nil, nil_append]
    cases collect dtb fuel ⟨parents, index⟩ <;> rfl
  | node nops name entries children endNops next ihc ihn =>
    obtain ⟨props, below, behind, after', hprops, hbelow, hbehind, hend, hbegin, henter, hleave⟩ :=
      exists_places hlegal h
    obtain ⟨inner, hopened, items₁, hitems₁, items₂, hitems₂, rfl⟩ := seen_node_eq_ok.1 hitems
    obtain ⟨nodes₁, hshows₁, hcollect₁⟩ := ihc hlegal.2.2.1 hbelow inner hitems₁
    obtain ⟨nodes₂, hshows₂, hcollect₂⟩ := ihn hlegal.2.2.2 hbehind parents hitems₂
    have hout := hleave inner
    rw [dropLast_of_opened hopened] at hout
    refine ⟨⟨inner, name, props⟩ :: (nodes₁ ++ nodes₂),
      .cons ⟨rfl, rfl, hprops⟩ (List.rel_append hshows₁ hshows₂), ?_⟩
    intro fuel
    have hfuel : (⟨inner, name, props⟩ :: (nodes₁ ++ nodes₂)).length + fuel =
        nodes₁.length + (nodes₂.length + fuel) + 1 := by
      simp only [length_cons, length_append]
      omega
    rw [hfuel, collect_opened hopened (hbegin parents) (henter inner), hcollect₁,
      collect_congr hout, hcollect₂, hend]
    cases collect dtb fuel
      ⟨parents, index + (Level.node nops name entries children endNops next).encode.length⟩ with
    | error stop => rfl
    | ok more => simp [Except.map]

/-- **If the program ends in a tree, so does the iterator.** By induction
on the tree; `fuel` is enough calls. -/
theorem NodeIter.collect_stop (hlegal : level.Legal dtb.strings)
    (h : dtb.structs.drop index = level.encode ++ after) (parents : List Parent) {stop : Stop}
    (hstop : level.seen parents = .error stop) {fuel : Nat} (hfuel : level.document.length ≤ fuel) :
    collect dtb fuel ⟨parents, index⟩ = .error stop := by
  induction level generalizing parents index after fuel with
  | nil => cases hstop
  | node nops name entries children endNops next ihc ihn =>
    obtain ⟨props, below, behind, after', hprops, hbelow, hbehind, hend, hbegin, henter, hleave⟩ :=
      exists_places hlegal h
    simp only [document, length_cons, length_append] at hfuel
    obtain ⟨fuel, rfl⟩ := exists_eq_add_one_of_ne_zero (n := fuel) (by omega)
    rcases hopened : opened parents name entries with stop' | inner
    · -- at the node itself
      have hfirst := hbegin parents
      rw [hopened] at hfirst
      simp only [seen, hopened] at hstop
      obtain rfl := error.inj hstop
      rw [collect, hfirst]
      rfl
    · rw [collect_opened hopened (hbegin parents) (henter inner)]
      simp only [seen, hopened, ok_bind] at hstop
      rcases hitems : children.seen inner with stop' | items
      · -- below it
        rw [hitems] at hstop
        obtain rfl := error.inj hstop
        rw [ihc hlegal.2.2.1 hbelow inner hitems (by omega)]
        rfl
      · -- behind it
        rw [hitems, ok_bind] at hstop
        have hrest : next.seen parents = .error stop := by
          rcases hrest : next.seen parents with stop' | rest
          · rw [hrest] at hstop
            exact congrArg error (error.inj hstop)
          · rw [hrest] at hstop
            cases hstop
        obtain ⟨nodes, hshows, hcollect⟩ := collect_seen hlegal.2.2.1 hbelow inner hitems
        have hcount : nodes.length = children.document.length :=
          hshows.length_eq.trans (length_seen hitems)
        obtain ⟨fuel', rfl⟩ := Nat.exists_eq_add_of_le (m := nodes.length) (n := fuel) (by omega)
        have hout := hleave inner
        rw [dropLast_of_opened hopened] at hout
        rw [hcollect, collect_congr hout, ihn hlegal.2.2.2 hbehind parents hrest (by omega)]
        rfl

namespace Blob

variable (blob : Blob)

theorem legal_level : blob.level.Legal blob.dtb.strings := blob.legal

theorem drop_structs : blob.dtb.structs.drop 0 =
    blob.level.encode ++ (nopWords blob.trailing ++ [.ofNat fdtEnd]) := rfl

theorem length_document_le : blob.level.document.length ≤ blob.dtb.structs.length := by
  have hle := blob.level.length_document_le
  simp only [dtb, length_append]
  omega

/-- **The nodes of a blob are those that are seen.** -/
theorem nodes_of_seen {items : List Seen} (h : blob.level.seen [] = .ok items) :
    ∃ nodes : List Node, blob.dtb.nodes = .ok (nodes.map .ok) ∧
      List.Forall₂ (Shows blob.dtb) nodes items := by
  obtain ⟨nodes, hshows, hcollect⟩ :=
    collect_seen blob.legal_level blob.drop_structs [] h
  have hcount : nodes.length = blob.level.document.length :=
    hshows.length_eq.trans (length_seen h)
  have hle := blob.length_document_le
  obtain ⟨fuel, hfuel⟩ := Nat.exists_eq_add_of_le
    (show nodes.length + 1 ≤ blob.dtb.structs.length + 1 by omega)
  -- behind the root come `FDT_NOP` tokens and the end
  have htail : blob.dtb.structs.drop (0 + blob.level.encode.length) =
      nopWords blob.trailing ++ [.ofNat fdtEnd] := drop_add blob.drop_structs
  have hend := drop_add htail
  rw [nopWords, length_replicate] at hend
  have hlast : next blob.dtb ⟨[], 0 + blob.level.encode.length⟩ =
      .ok (none, ⟨[], 0 + blob.level.encode.length + blob.trailing⟩) := by
    rw [next_nops htail, next_end hend]
  refine ⟨nodes, ?_, hshows⟩
  rw [Dtb.nodes, hfuel, Nat.add_assoc, Nat.add_comm 1 fuel, hcollect, collect, hlast]
  simp [Except.map, pure, Except.pure]

/-- If the program ends in the tree, it ends. -/
theorem nodes_of_stop {stop : Stop} (h : blob.level.seen [] = .error stop) :
    blob.dtb.nodes = .error stop :=
  collect_stop blob.legal_level blob.drop_structs [] h
    (le_succ_of_le blob.length_document_le)

/-- If the iterator gives nodes only, they are those that are seen. -/
theorem seen_of_nodes {nodes : List Node} (h : blob.dtb.nodes = .ok (nodes.map .ok)) :
    ∃ items, blob.level.seen [] = .ok items ∧ List.Forall₂ (Shows blob.dtb) nodes items := by
  rcases hitems : blob.level.seen [] with stop | items
  · rw [blob.nodes_of_stop hitems] at h
    cases h
  · obtain ⟨nodes', hnodes', hshows⟩ := blob.nodes_of_seen hitems
    rw [hnodes'] at h
    obtain rfl : nodes' = nodes :=
      List.map_injective_iff.2 (fun _ _ => ok.inj) (ok.inj h)
    exact ⟨items, rfl, hshows⟩

end Blob

/-! ## Trees that are read right -/

/-- The cells are read if each is a single word. -/
theorem exists_findCells_iff {props : List Property} (cells : Option Nat × Option Nat) :
    (∃ cells', findCells props cells = .ok cells') ↔
      ∀ prop ∈ props, prop.IsCells → prop.value.length = 4 := by
  induction props generalizing cells with
  | nil => simp [findCells]
  | cons prop rest ih =>
    simp only [findCells, Property.asU32, List.forall_mem_cons]
    by_cases haddress : prop.name = ascii "#address-cells"
    · by_cases hlen : prop.value.length = 4
      · simp [haddress, hlen, ih]
      · simp [haddress, hlen, Property.IsCells]
    · by_cases hsize : prop.name = ascii "#size-cells"
      · rw [if_neg haddress, if_pos hsize]
        by_cases hlen : prop.value.length = 4
        · simp [hlen, ih]
        · simp [hsize, hlen, Property.IsCells]
      · simp [haddress, hsize, ih, Property.IsCells]

/-- All properties are seen if no `FDT_NOP` is among them. -/
theorem visible_eq_iff :
    visible entries = entries.map property ↔ ∀ entry ∈ entries, entry.nops = 0 := by
  induction entries with
  | nil => simp [visible]
  | cons entry rest ih =>
    by_cases hnops : entry.nops = 0
    · simpa [visible, hnops] using ih
    · simp [visible, hnops]

theorem exists_opened_iff : (∃ inner, opened parents name entries = .ok inner) ↔
      parents.length < maxParents ∧
        ∀ prop ∈ visible entries, prop.IsCells → prop.value.length = 4 := by
  rw [← exists_findCells_iff (none, none)]
  simp only [opened_eq_ok]
  constructor
  · rintro ⟨inner, cells, hcells, hroom, -⟩
    exact ⟨hroom, cells, hcells⟩
  · rintro ⟨hroom, cells, hcells⟩
    exact ⟨_, cells, hcells, hroom, rfl⟩

theorem length_of_opened (h : opened parents name entries = .ok inner) :
    inner.length = parents.length + 1 := by
  obtain ⟨cells, -, -, rfl⟩ := opened_eq_ok.1 h
  simp

/-- What a node that was seen shows. -/
def Seen.shown (seen : Seen) : List UInt8 × List Property := (seen.name, seen.props)

/-- **A tree is seen as it is exactly if it is readable.** By induction
on the tree. -/
theorem seen_iff_readable (parents : List Parent) :
    (∃ items, level.seen parents = .ok items ∧ items.map Seen.shown = level.document) ↔
      level.Readable parents.length := by
  induction level generalizing parents with
  | nil => exact ⟨fun _ => trivial, fun _ => ⟨[], rfl, rfl⟩⟩
  | node nops name entries children endNops next ihc ihn =>
    constructor
    · rintro ⟨items, hitems, hshown⟩
      obtain ⟨inner, hopened, items₁, hitems₁, items₂, hitems₂, rfl⟩ := seen_node_eq_ok.1 hitems
      simp only [map_cons, List.map_append, document] at hshown
      obtain ⟨hfirst, hshown⟩ := List.cons.inj hshown
      obtain ⟨hshown₁, hshown₂⟩ := List.append_inj hshown
        ((List.length_map _).trans (length_seen hitems₁))
      have hvisible : visible entries = entries.map property := (Prod.mk.inj hfirst).2
      obtain ⟨hroom, hcells⟩ := exists_opened_iff.1 ⟨inner, hopened⟩
      have hnops := visible_eq_iff.1 hvisible
      have hinner := (ihc inner).1 ⟨items₁, hitems₁, hshown₁⟩
      rw [length_of_opened hopened] at hinner
      refine ⟨hroom, ?_, hinner, (ihn parents).1 ⟨items₂, hitems₂, hshown₂⟩⟩
      intro entry hentry
      refine ⟨hnops entry hentry, hcells entry.property ?_⟩
      rw [hvisible]
      exact List.mem_map_of_mem hentry
    · rintro ⟨hroom, hentries, hchildren, hnext⟩
      have hvisible : visible entries = entries.map property :=
        visible_eq_iff.2 fun entry hentry => (hentries entry hentry).1
      have hcells : ∀ prop ∈ visible entries, prop.IsCells → prop.value.length = 4 := by
        rw [hvisible]
        intro prop hprop
        obtain ⟨entry, hentry, rfl⟩ := List.mem_map.1 hprop
        exact (hentries entry hentry).2
      obtain ⟨inner, hopened⟩ := exists_opened_iff.2 ⟨hroom, hcells⟩
      rw [← length_of_opened hopened] at hchildren
      obtain ⟨items₁, hitems₁, hshown₁⟩ := (ihc inner).2 hchildren
      obtain ⟨items₂, hitems₂, hshown₂⟩ := (ihn parents).2 hnext
      refine ⟨_, seen_node_eq_ok.2 ⟨inner, hopened, items₁, hitems₁, items₂, hitems₂, rfl⟩, ?_⟩
      simp [hshown₁, hshown₂, document, Seen.shown, hvisible]

namespace Blob

variable (blob : Blob)

/-- The tree is enumerated exactly if it is seen as it is. -/
theorem enumerates_iff_seen : blob.Enumerates ↔
    ∃ items, blob.level.seen [] = .ok items ∧ items.map Seen.shown = blob.level.document := by
  constructor
  · rintro ⟨nodes, hnodes, hshown⟩
    obtain ⟨items, hitems, hshows⟩ := blob.seen_of_nodes hnodes
    refine ⟨items, hitems, ?_⟩
    generalize blob.level.document = document at hshown
    clear hnodes hitems
    induction hshows generalizing document with
    | nil =>
      cases hshown
      rfl
    | cons hnode _ ih =>
      cases hshown with
      | cons hfirst hrest =>
        have hprops := hnode.props.symm.trans hfirst.2
        rw [map_cons, ih _ hrest, Seen.shown, ← hnode.name, hfirst.1, ok.inj hprops]
  · rintro ⟨items, hitems, hshown⟩
    obtain ⟨nodes, hnodes, hshows⟩ := blob.nodes_of_seen hitems
    refine ⟨nodes, hnodes, ?_⟩
    rw [← hshown, List.forall₂_map_right_iff]
    exact hshows.imp fun _ _ hnode => ⟨hnode.name, hnode.props⟩

/-- **The parser enumerates a tree exactly if it is readable**: not too
deep, without `FDT_NOP` tokens among properties, and with numbers of
cells that are single words. -/
theorem enumerates_iff_readable : blob.Enumerates ↔ blob.level.Readable 0 :=
  blob.enumerates_iff_seen.trans (seen_iff_readable [])

/-- A root with two properties and an `FDT_NOP` between them. -/
def nopBetween : Blob where
  nops := 0
  name := []
  entries := [⟨0, 0, ⟨ascii "model", ascii "ftl"⟩⟩, ⟨1, 6, ⟨ascii "serial", ascii "1"⟩⟩]
  children := .nil
  endNops := 0
  trailing := 0
  strings := ascii "model" ++ 0 :: (ascii "serial" ++ [0])
  legal := by
    refine ⟨by decide, ?_, trivial, trivial⟩
    simp only [List.forall_mem_cons]
    exact ⟨⟨by decide, by decide, by decide, by decide⟩,
      ⟨by decide, by decide, by decide, by decide⟩, by simp⟩

/-- **The second property is lost.** -/
theorem not_enumerates_nopBetween : ¬ nopBetween.Enumerates := by
  rw [enumerates_iff_seen]
  rintro ⟨items, hitems, hshown⟩
  cases hitems
  revert hshown
  decide

end Blob

end Archives.Ftl.DeviceTree
