import Mathlib.Data.List.Chain
import Mathlib.Data.List.TakeWhile
import Mathlib.Data.Nat.Bitwise
import Archives.Ena.Model.Strings
/-!
# ena — escape sequences, characters and searching

A string is given the size of its text with the escape sequences, and
the loop that decodes them knows three: it stays where it is at any
other. The characters of a text are counted and found as UTF-8 has them.
After a false start the search goes on at the sum of two indices.
-/

namespace Archives.Ena.Strings

open List Nat Option UInt32

variable {c next : Byte} {str s : List Byte} {fuel : Nat}

/-! ## Escape sequences -/

/-- Every backslash is followed by a byte of the `switch`; the byte
`next` follows the string. -/
def WellEscaped (next : Byte) (str : List Byte) : Prop :=
  (str ++ [next]).IsChain fun c d => c = backslash → (unescape d).isSome

theorem wellEscaped_cons : WellEscaped next (c :: str) ↔
    (c = backslash → (unescape (str.head?.getD next)).isSome) ∧ WellEscaped next str := by
  cases str <;> simp [WellEscaped, isChain_cons]

/-- No escape sequence begins at the second byte of another. -/
theorem wellEscaped_tail (h : (unescape (str.head?.getD next)).isSome) :
    WellEscaped next str.tail ↔ WellEscaped next str := by
  cases str with
  | nil => rfl
  | cons d str =>
    rw [wellEscaped_cons, tail_cons, iff_and_self]
    rintro - rfl
    cases h

/-- **When escape sequences are handled.** One that is unknown is never
left. The induction is on the fuel. -/
theorem handleEscapeSequence_isSome :
    ((handleEscapeSequence next fuel str).isSome → WellEscaped next str) ∧
      (str.length < fuel → WellEscaped next str → (handleEscapeSequence next fuel str).isSome) := by
  induction fuel generalizing str with
  | zero => exact ⟨nofun, nofun⟩
  | succ fuel ih =>
    cases str with
    | nil => exact ⟨fun _ => isChain_singleton _, fun _ _ => rfl⟩
    | cons c str =>
      rw [handleEscapeSequence, wellEscaped_cons, length_cons]
      split_ifs with hc
      · cases hd : unescape (str.head?.getD next) with
        | none => exact ⟨fun h => hd ▸ wellEscaped_cons.1 (ih.1 h), fun _ h => nomatch h.1 hc⟩
        | some d =>
          simp only [isSome_map, isSome_some, implies_true, true_and]
          rw [← wellEscaped_tail (by rw [hd]; rfl)]
          refine ⟨ih.1, fun hlt => ih.2 ?_⟩
          rw [length_tail]
          omega
      · simp only [isSome_map, hc, false_implies, true_and]
        exact ⟨ih.1, fun hlt => ih.2 (by omega)⟩

/-- The escaped form of a byte. -/
def escapeByte (c : Byte) : List Byte :=
  if c = 0x09 then [backslash, 0x74]
  else if c = 0x0a then [backslash, 0x6e]
  else if c = 0x22 then [backslash, 0x22]
  else if c = backslash then [backslash, backslash]
  else [c]

/-- The escaped form of a string: tab, newline, quote and backslash are
escaped. -/
def escape (s : List Byte) : List Byte := s.flatMap escapeByte

/-- Neither one of these four, nor a NUL. -/
def Plain (c : Byte) : Prop := c ≠ 0 ∧ escapeByte c = [c]

theorem length_escape_le : s.length ≤ (escape s).length ∧
    ((escape s).length = s.length → ∀ c ∈ s, escapeByte c = [c]) := by
  induction s with
  | nil => exact ⟨le_refl _, nofun⟩
  | cons c s ih =>
    obtain ⟨hle, hone⟩ := ih
    have hc : escapeByte c = [c] ∨ (escapeByte c).length = 2 := by
      unfold escapeByte
      split_ifs <;> simp
    rw [escape, flatMap_cons, length_append, length_cons, forall_mem_cons]
    change s.length + 1 ≤ _ + (escape s).length ∧ (_ + (escape s).length = _ → _)
    rcases hc with hc | hc
    · rw [hc, length_singleton]
      exact ⟨by omega, fun h => ⟨rfl, hone (by omega)⟩⟩
    · rw [hc]
      exact ⟨by omega, fun h => by omega⟩

theorem escape_of_plain (h : ∀ c ∈ s, Plain c) : escape s = s := by
  rw [escape, flatMap_congr fun c hc => (h c hc).2, flatMap_singleton']

theorem handleEscapeSequence_of_plain (h : ∀ c ∈ s, Plain c) :
    handleEscapeSequence next (s.length + 1) s = some s := by
  induction s with
  | nil => rfl
  | cons c s ih =>
    obtain ⟨hc, hs⟩ := forall_mem_cons.1 h
    have hne : c ≠ backslash := by
      rintro rfl
      exact absurd hc.2 (by decide)
    rw [length_cons, handleEscapeSequence, if_neg hne, ih hs, map_some]

/-- **When escape sequences are decoded.** The function comes back from
the strings whose escape sequences it knows. What it makes of the escaped
form of a string is that string, with its size, exactly if nothing in the
string had to be escaped and it has no NUL. -/
theorem escape_sequences_iff (next : Byte) :
    (∀ str, (∃ fuel, (handleEscapeSequence next fuel str).isSome) ↔ WellEscaped next str) ∧
      ∀ s, (∃ fuel, createString next fuel (escape s) = some ⟨s, s.length⟩) ↔ ∀ c ∈ s, Plain c := by
  refine ⟨fun str => ⟨?_, fun h => ?_⟩, fun s => ⟨?_, fun h => ?_⟩⟩
  · rintro ⟨fuel, h⟩
    exact handleEscapeSequence_isSome.1 h
  · exact ⟨str.length + 1, handleEscapeSequence_isSome.2 (lt_succ_self _) h⟩
  · rintro ⟨fuel, h⟩ c hc
    obtain ⟨buf, -, heq⟩ := map_eq_some_iff.1 h
    obtain ⟨hstr, hsize⟩ := EnaString.mk.inj heq
    rw [← hstr] at hc
    refine ⟨by simpa using mem_takeWhile_imp hc, ?_⟩
    exact length_escape_le.2 hsize c (hstr ▸ hc)
  · refine ⟨s.length + 1, ?_⟩
    have htake : s.takeWhile (· ≠ 0) = s :=
      takeWhile_eq_self_iff.2 fun c hc => decide_eq_true (h c hc).1
    rw [createString, escape_of_plain h, handleEscapeSequence_of_plain h, map_some, htake]

/-- **A tab is counted twice and a backslash is waited for.** -/
theorem not_decoded_of_escaped : createString 0 3 (escape [0x09]) = some ⟨[0x09], 2⟩ ∧
      ∀ fuel, handleEscapeSequence 0 fuel (escape [backslash]) = none := by
  refine ⟨by decide, fun fuel => not_isSome_iff_eq_none.1 fun h => ?_⟩
  exact absurd (handleEscapeSequence_isSome.1 h) (by unfold WellEscaped; decide)

/-! ## Characters and their bytes -/

/-- Six more bits are joined to those that are there. -/
theorem ofNat_shiftLeft_or {y : Nat} (x : Nat) (hy : y < 64) :
    ofNat x <<< 6 ||| .ofNat y = .ofNat (x * 64 + y) := by
  rw [← shiftLeft_eq x 6, shiftLeft_add_eq_or_of_lt hy, ofNat_or, ofNat_shiftLeft x 6 (by decide)]
  rfl

theorem shiftLeft_twelve (x : UInt32) : x <<< 12 = x <<< 6 <<< 6 :=
  shiftLeft_add (b := 6) (c := 6) (by decide) (by decide) (by decide)

theorem shiftLeft_eighteen (x : UInt32) : x <<< 18 = x <<< 6 <<< 6 <<< 6 :=
  (shiftLeft_add (b := 12) (c := 6) (by decide) (by decide) (by decide)).trans
    (congrArg (fun y : UInt32 => y <<< 6) (shiftLeft_twelve x))

/-- What the masks leave of the bytes of a character. -/
theorem masked {x : Nat} : (x < 64 → (UInt8.ofNat (x + 128)).toUInt32 &&& 0x3f = .ofNat x) ∧
    (x < 32 → (UInt8.ofNat (x + 192)).toUInt32 &&& 0x1f = .ofNat x) ∧
    (x < 16 → (UInt8.ofNat (x + 224)).toUInt32 &&& 0x0f = .ofNat x) ∧
    (x < 8 → (UInt8.ofNat (x + 240)).toUInt32 &&& 0x07 = .ofNat x) := by
  refine ⟨?_, ?_, ?_, ?_⟩ <;> revert x <;> decide

/-- The first byte says how many there are. -/
theorem charLen_first {x : Nat} :
    (x < 128 → charLen (.ofNat x) = 1) ∧ (x < 32 → charLen (.ofNat (x + 192)) = 2) ∧
    (x < 16 → charLen (.ofNat (x + 224)) = 3) ∧ (x < 8 → charLen (.ofNat (x + 240)) = 4) := by
  refine ⟨?_, ?_, ?_, ?_⟩ <;> revert x <;> decide

theorem toUInt32_of_ascii {x : Nat} : x < 128 →
    (UInt8.ofNat x).toInt8.toInt32.toUInt32 = .ofNat x := by
  revert x; decide

/-- **A character is found at the beginning of its bytes**, and the bytes
after them are those that follow. -/
theorem firstChar_utf8EncodeChar (c : Char) (str : List Byte) :
    ∃ b rest, String.utf8EncodeChar c ++ str = b :: rest ∧
      firstChar (b :: rest) = some c.val ∧ (b :: rest).drop (charLen b) = str := by
  have hmax : c.val.toNat < 0x110000 := by
    rcases c.valid with hc | ⟨-, hc⟩
    · exact hc.trans (by decide)
    · exact hc
  have hval : c.val = .ofNat c.val.toNat := UInt32.ofNat_toNat.symm
  have hcont : ∀ {x}, (UInt8.ofNat (x % 64 + 128)).toUInt32 &&& 0x3f = .ofNat (x % 64) :=
    masked.1 (mod_lt _ (by decide))
  unfold String.utf8EncodeChar
  generalize c.val.toNat = v at hmax hval
  rw [hval]
  simp only
  split_ifs with h₁ h₂ h₃ <;> simp only [cons_append, nil_append]
  · have hlen := charLen_first.1 (show v < 128 by omega)
    refine ⟨_, str, rfl, ?_, by rw [hlen]; rfl⟩
    simp only [firstChar, hlen, toUInt32_of_ascii (show v < 128 by omega)]
  · have hx : v / 64 % 32 < 32 := by omega
    have hlen := charLen_first.2.1 hx
    refine ⟨_, _, rfl, ?_, by rw [hlen]; rfl⟩
    simp only [firstChar, hlen, masked.2.1 hx, hcont]
    rw [ofNat_shiftLeft_or _ (by omega)]
    exact congrArg (fun n => some (ofNat n)) (by omega)
  · have hx : v / 4096 % 16 < 16 := by omega
    have hlen := charLen_first.2.2.1 hx
    refine ⟨_, _, rfl, ?_, by rw [hlen]; rfl⟩
    simp only [firstChar, hlen, masked.2.2.1 hx, hcont]
    rw [shiftLeft_twelve, ← shiftLeft_or, ofNat_shiftLeft_or _ (by omega),
      ofNat_shiftLeft_or _ (by omega)]
    exact congrArg (fun n => some (ofNat n)) (by omega)
  · have hx : v / 262144 % 8 < 8 := by omega
    have hlen := charLen_first.2.2.2 hx
    refine ⟨_, _, rfl, ?_, by rw [hlen]; rfl⟩
    simp only [firstChar, hlen, masked.2.2.2 hx, hcont]
    rw [shiftLeft_eighteen, shiftLeft_twelve, ← shiftLeft_or, ← shiftLeft_or,
      ← shiftLeft_or, ofNat_shiftLeft_or _ (by omega), ofNat_shiftLeft_or _ (by omega),
      ofNat_shiftLeft_or _ (by omega)]
    exact congrArg (fun n => some (ofNat n)) (by omega)

/-- **The characters of a string are counted and found.** The induction
is on the characters. -/
theorem utf8_characters (cs : List Char) :
    utf8Strlen (cs.flatMap String.utf8EncodeChar) = cs.length ∧ ∀ i : Fin cs.length,
        utf8CharAt (cs.flatMap String.utf8EncodeChar) i = some (cs.get i).val := by
  induction cs with
  | nil => exact ⟨by rw [flatMap_nil, utf8Strlen, length_nil], fun i => i.elim0⟩
  | cons c cs ih =>
    obtain ⟨b, rest, hbytes, hfirst, hrest⟩ :=
      firstChar_utf8EncodeChar c (cs.flatMap String.utf8EncodeChar)
    rw [flatMap_cons, hbytes]
    constructor
    · rw [utf8Strlen, hrest, ih.1, length_cons]
    · intro i
      cases i using Fin.cases with
      | zero => exact hfirst
      | succ i =>
        rw [Fin.val_succ, utf8CharAt, hrest]
        exact ih.2 i

/-! ## Searching -/

/-- The needle is at an index of the haystack. -/
def Occurs (haystack needle : List Byte) (i : Nat) : Prop := needle <+: haystack.drop i

/-- The answer is the first place from `start` on where the needle is. -/
structure Finds (haystack needle : List Byte) (start : Nat) (r : Option Nat) : Prop where
  occurs : ∀ i ∈ r, start ≤ i ∧ Occurs haystack needle i
  least : ∀ j, start ≤ j → Occurs haystack needle j → ∃ i ∈ r, i ≤ j

/-- The first byte of the needle is at `i`, and nowhere before from `p`
on. There is room for the needle, but it is not there. -/
structure FalseStart (haystack needle : List Byte) (p i : Nat) : Prop where
  le : p ≤ i
  first : haystack[i]? = needle.head?
  before : ∀ j, p ≤ j → j < i → haystack[j]? ≠ needle.head?
  fits : i + needle.length ≤ haystack.length
  not_occurs : ¬ Occurs haystack needle i

/-- **The search gets to the first occurrence.** It does not begin with a
false start. Or from a false start at `i` it goes on at `p + i`, inside
the haystack and not past an occurrence, and gets there. -/
inductive Reaches (haystack needle : List Byte) : Nat → Prop
  | direct {p : Nat} (h : ∀ i, ¬ FalseStart haystack needle p i) : Reaches haystack needle p
  | again {p i : Nat} (hfalse : FalseStart haystack needle p i)
      (hinside : p + i ≤ haystack.length)
      (hskip : ∀ j, p ≤ j → j < p + i → ¬ Occurs haystack needle j)
      (h : Reaches haystack needle (p + i)) : Reaches haystack needle p

section Search

variable {haystack rest : List Byte} {first : Byte} {fuel p i j : Nat} {r : Option Nat}

theorem Occurs.head (h : Occurs haystack (first :: rest) i) : haystack[i]? = some first := by
  obtain ⟨tail, htail⟩ := h
  rw [← head?_drop, ← htail, cons_append, head?_cons]

theorem Occurs.fits (h : Occurs haystack (first :: rest) i) :
    i + (first :: rest).length ≤ haystack.length := by
  have hlen := h.length_le
  rw [length_drop] at hlen
  rw [length_cons] at hlen ⊢
  omega

theorem FalseStart.unique {needle : List Byte} (hi : FalseStart haystack needle p i)
    (hle : p ≤ j) (hj : haystack[j]? = needle.head?)
    (hbefore : ∀ i, p ≤ i → i < j → haystack[i]? ≠ needle.head?) : i = j :=
  Nat.le_antisymm (Nat.le_of_not_lt fun hlt => hi.before j hle hlt hj)
    (Nat.le_of_not_lt fun hlt => hbefore i hi.le hlt hi.first)

/-- **One round of the search** at an index of the haystack: it ends with
the answer, or goes on after a false start. -/
theorem searchLoop_cases (haystack : List Byte) (first : Byte) (rest : List Byte)
    (fuel : Nat) (hp : p ≤ haystack.length) :
    (∃ r, searchLoop haystack (first :: rest) first (fuel + 1) p = some r ∧
      Finds haystack (first :: rest) p r ∧ ∀ i, ¬ FalseStart haystack (first :: rest) p i) ∨
    ∃ i, FalseStart haystack (first :: rest) p i ∧
      searchLoop haystack (first :: rest) first (fuel + 1) p =
        searchLoop haystack (first :: rest) first fuel (p + i) := by
  rw [searchLoop, if_neg (not_lt.2 hp)]
  cases hk : (haystack.drop p).idxOf? first with
  | none =>
    have hnone : ∀ j, p ≤ j → haystack[j]? ≠ some first := by
      intro j hj hfirst
      refine idxOf?_eq_none_iff.1 hk (mem_of_getElem? (i := j - p) ?_)
      rw [getElem?_drop, Nat.add_sub_cancel' hj, hfirst]
    refine .inl ⟨none, rfl, ⟨nofun, fun j hj hocc => absurd hocc.head (hnone j hj)⟩, ?_⟩
    exact fun i hi => hnone i hi.le hi.first
  | some k =>
    obtain ⟨hlt, hget, hmin⟩ := idxOf?_eq_some_iff.1 hk
    have hoffset : haystack[p + k]? = some first := by
      rw [← getElem?_drop, getElem?_eq_getElem hlt, hget]
    have hbefore : ∀ j, p ≤ j → j < p + k → haystack[j]? ≠ some first := by
      intro j hj hjk hfirst
      refine hmin (j - p) (by omega) ?_
      rw [← some_inj, ← getElem?_eq_getElem, getElem?_drop, Nat.add_sub_cancel' hj, hfirst]
    have hle : ∀ j, p ≤ j → Occurs haystack (first :: rest) j → p + k ≤ j :=
      fun j hj hocc => Nat.le_of_not_lt fun hjk => hbefore j hj hjk hocc.head
    have hat : ∀ i, FalseStart haystack (first :: rest) p i → i = p + k :=
      fun i hi => hi.unique (le_add_right p k) hoffset hbefore
    simp only
    split_ifs with hshort hmatch
    · refine .inl ⟨none, rfl, ⟨nofun, fun j hj hocc => ?_⟩, fun i hi => ?_⟩
      · have := hle j hj hocc
        have := hocc.fits
        omega
      · have := hat i hi
        have := hi.fits
        omega
    · have hocc : Occurs haystack (first :: rest) (p + k) := prefix_iff_eq_take.2 hmatch.symm
      refine .inl ⟨some (p + k), rfl, ⟨?_, fun j hj h => ⟨_, rfl, hle j hj h⟩⟩, fun i hi => ?_⟩
      · rintro i ⟨⟩
        exact ⟨le_add_right p k, hocc⟩
      · exact hi.not_occurs (hat i hi ▸ hocc)
    · rw [length_drop] at hlt
      refine .inr ⟨p + k, ⟨le_add_right p k, hoffset, hbefore, by omega, ?_⟩, rfl⟩
      exact fun h => hmatch (prefix_iff_eq_take.1 h).symm

variable (h : searchLoop haystack (first :: rest) first fuel p = some r)
include h

theorem le_length_of_searchLoop : p ≤ haystack.length := by
  refine Nat.le_of_not_lt fun hlt => ?_
  cases fuel with
  | zero => cases h
  | succ fuel =>
    rw [searchLoop, if_pos hlt] at h
    cases h

/-- What is found is not before the place where the search begins, and
when it is the answer the search gets there. The induction is on the
rounds. -/
theorem reaches_of_searchLoop : (∀ j ∈ r, p ≤ j) ∧
      (Finds haystack (first :: rest) p r → Reaches haystack (first :: rest) p) := by
  induction fuel generalizing p with
  | zero => cases h
  | succ fuel ih =>
    rcases searchLoop_cases haystack first rest fuel (le_length_of_searchLoop h) with
      ⟨r', hr', hfinds, hnone⟩ | ⟨i, hfalse, hagain⟩
    · obtain rfl : r' = r := some.inj (hr'.symm.trans h)
      exact ⟨fun j hj => (hfinds.occurs j hj).1, fun _ => .direct hnone⟩
    · rw [hagain] at h
      obtain ⟨hge, hreach⟩ := ih h
      refine ⟨fun j hj => le_trans (le_add_right p i) (hge j hj), fun hfinds => ?_⟩
      refine .again hfalse (le_length_of_searchLoop h) (fun j hj hlt hocc => ?_) (hreach ⟨?_, ?_⟩)
      · obtain ⟨k, hk, hkj⟩ := hfinds.least j hj hocc
        have := hge k hk
        omega
      · exact fun j hj => ⟨hge j hj, (hfinds.occurs j hj).2⟩
      · exact fun j hj => hfinds.least j (by omega)

omit h

/-- **When the search finds the first occurrence**, or that there is
none. -/
theorem search_iff (haystack : List Byte) (first : Byte) (rest : List Byte)
    (start : Fin (haystack.length + 1)) :
    (∃ fuel r, search fuel haystack start (first :: rest) = some r ∧
      Finds haystack (first :: rest) start r) ↔ Reaches haystack (first :: rest) start := by
  constructor
  · rintro ⟨fuel, r, hrun, hfinds⟩
    exact (reaches_of_searchLoop hrun).2 hfinds
  · have hstart : start.val ≤ haystack.length := le_of_lt_succ start.isLt
    generalize start.val = p at hstart
    intro h
    induction h with
    | @direct p h =>
      rcases searchLoop_cases haystack first rest 0 hstart with ⟨r, hr, hfinds, -⟩ | ⟨i, hi, -⟩
      · exact ⟨1, r, hr, hfinds⟩
      · exact absurd hi (h i)
    | @again p i hfalse hinside hskip _ ih =>
      obtain ⟨fuel, r, hr, hfinds⟩ := ih hinside
      rcases searchLoop_cases haystack first rest fuel hstart with
        ⟨-, -, -, hnone⟩ | ⟨j, hj, hagain⟩
      · exact absurd hfalse (hnone i)
      · obtain rfl := hj.unique hfalse.le hfalse.first hfalse.before
        refine ⟨fuel + 1, r, hagain.trans hr, fun k hk => ?_, fun k hk hocc => ?_⟩
        · exact ⟨le_trans (le_add_right p j) (hfinds.occurs k hk).1, (hfinds.occurs k hk).2⟩
        · exact hfinds.least k (Nat.le_of_not_lt fun hlt => hskip k hk hlt hocc) hocc

end Search

/-- **The string `ab` is in `aab`, and the search for it never ends**: at
the first `a` it goes on where it is. -/
theorem search_forever : Occurs [0x61, 0x61, 0x62] [0x61, 0x62] 1 ∧
    ∀ fuel, search fuel [0x61, 0x61, 0x62] 0 [0x61, 0x62] = none := by
  refine ⟨⟨[], rfl⟩, fun fuel => ?_⟩
  induction fuel with
  | zero => rfl
  | succ fuel ih => exact ih

end Archives.Ena.Strings
