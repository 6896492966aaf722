import Archives.Common.Except
import Archives.Kerla.Model.PageTable
/-!
# Kerla — the duplicate of a page table

The copy goes through the tables in a fixed order (`copyOrder`), and the
allocator's pages are used up in that order. `Copied` says what the memory
holds afterwards: the entries the original has, relinked to the copies,
and in all other places what the page held before. From it an address is
followed through the original and the copy at once.

An entry that is left over may lead anywhere. The worst it can do is to
lead to its own table: then its index, taken again and again, is an
address that the copy maps and the original does not.
-/

namespace Archives.Kerla.PageTable

open List Option Radix Nat Prod

variable {e : PageTableEntry} {p : PAddr} {i : Nat}

/-! ## Entries -/

/-- The address of a page has no bits in the place of the flags. -/
theorem getElem_page (hp : entryPaddr p = p) (hi : i < 64) : (p[i] && paddrBits[i]) = p[i] := by
  have := congrArg (fun x : BitVec 64 => x[i]) hp
  simpa [entryPaddr] using this

theorem entryPaddr_or_entryFlags (hp : entryPaddr p = p) : entryPaddr (p ||| entryFlags e) = p := by
  refine BitVec.eq_of_getElem_eq fun i hi => ?_
  have hbit := getElem_page hp hi
  simp only [entryPaddr, entryFlags, BitVec.getElem_and, BitVec.getElem_or, BitVec.getElem_not]
  cases hb : paddrBits[i] <;> simp_all

theorem entryFlags_or_entryFlags (hp : entryPaddr p = p) :
    entryFlags (p ||| entryFlags e) = entryFlags e := by
  refine BitVec.eq_of_getElem_eq fun i hi => ?_
  have hbit := getElem_page hp hi
  simp only [entryFlags, BitVec.getElem_and, BitVec.getElem_or, BitVec.getElem_not]
  cases hb : paddrBits[i] <;> simp_all

theorem entryPaddr_or_self : entryPaddr e ||| entryFlags e = e := by
  refine BitVec.eq_of_getElem_eq fun i hi => ?_
  simp only [entryPaddr, entryFlags, BitVec.getElem_and, BitVec.getElem_or, BitVec.getElem_not]
  cases paddrBits[i] <;> simp

theorem next_of_isNull (h : isNull e = true) : next e = none := if_pos h

theorem next_of_not_isNull (h : isNull e = false) : next e = some (entryPaddr e) :=
  if_neg (by rw [h]; exact Bool.false_ne_true)

/-- An entry that was made for a page leads to it. -/
theorem next_or_entryFlags (hp : entryPaddr p = p ∧ p ≠ 0) :
    next (p ||| entryFlags e) = some p := by
  have hnull : isNull (p ||| entryFlags e) = false := by
    rw [isNull, entryPaddr_or_entryFlags hp.1]
    exact beq_eq_false_iff_ne.2 hp.2
  rw [next_of_not_isNull hnull, entryPaddr_or_entryFlags hp.1]

/-! ## What the copy leaves in memory -/

/-- The entries of a table and of its copy `s`. The copies of what they
lead to take the pages `used` in turn. -/
def CopiedEntries (b m : Words) (level : Nat) (t s : PAddr)
    (copied : PAddr → List PAddr → Prop) : List Nat → List PAddr → Prop
  | [], used => used = []
  | i :: is, used =>
    if isNull (b t i) || isKept level i then
      m s i = (if isNull (b t i) then b s i else b t i) ∧
        CopiedEntries b m level t s copied is used
    else ∃ p us us', used = (p :: us) ++ us' ∧ m s i = p ||| entryFlags (b t i) ∧
      copied (entryPaddr (b t i)) (p :: us) ∧ CopiedEntries b m level t s copied is us'

/-- **The memory `m` holds a copy** of what the memory `b` held from a
table on, in the pages `used`. -/
def Copied (b m : Words) : Nat → PAddr → List PAddr → Prop
  | 0, t, used => ∃ s, used = [s] ∧ m s = b t
  | level + 1, t, used => ∃ s rest, used = s :: rest ∧
    CopiedEntries b m (level + 1) t s (Copied b m level) (range entriesPerTable) rest

variable {b m m' : Words} {level : Nat} {t s : PAddr} {used : List PAddr} {is : List Nat}

theorem CopiedEntries.congr {copied copied' : PAddr → List PAddr → Prop} (hs : m' s = m s)
    (hcopied : ∀ c us, us ⊆ used → copied c us → copied' c us)
    (h : CopiedEntries b m level t s copied is used) :
    CopiedEntries b m' level t s copied' is used := by
  induction is generalizing used with
  | nil => exact h
  | cons i is ih =>
    rw [CopiedEntries] at h ⊢
    split at h
    next hc =>
      rw [if_pos hc, hs]
      exact ⟨h.1, ih hcopied h.2⟩
    next hc =>
      obtain ⟨p, us, us', rfl, hentry, hcopy, hrest⟩ := h
      rw [if_neg hc, hs]
      refine ⟨p, us, us', rfl, hentry, ?_, ih ?_ hrest⟩
      · exact hcopied _ _ (subset_append_left _ _) hcopy
      · exact fun c vs hvs => hcopied c vs (subset_append_of_subset_right _ hvs)

/-- A copy stays while its pages do. -/
theorem Copied.congr (h : Copied b m level t used) (hm : ∀ p ∈ used, m' p = m p) :
    Copied b m' level t used := by
  induction level generalizing t used with
  | zero =>
    obtain ⟨s, rfl, hs⟩ := h
    exact ⟨s, rfl, (hm s mem_cons_self).trans hs⟩
  | succ level ih =>
    obtain ⟨s, rest, rfl, hrest⟩ := h
    refine ⟨s, rest, rfl, .congr (hm s mem_cons_self) ?_ hrest⟩
    intro c us hus hc
    exact ih hc fun p hp => hm p (mem_cons_of_mem s (hus hp))

/-! ## The copy is made -/

/-- The part of the order of copying that belongs to an entry. -/
def entryOrder (b : Words) (level : Nat) (t : PAddr) (i : Nat) : List (Nat × PAddr) :=
  if isNull (b t i) || isKept (level + 1) i then []
  else copyOrder b level (entryPaddr (b t i))

/-- The part that belongs to some entries. -/
def entriesOrder (b : Words) (level : Nat) (t : PAddr) (is : List Nat) : List (Nat × PAddr) :=
  is.flatMap (entryOrder b level t)

theorem entriesOrder_cons (b : Words) (level : Nat) (t : PAddr) (i : Nat) (is : List Nat) :
    entriesOrder b level t (i :: is) = entryOrder b level t i ++ entriesOrder b level t is := rfl

theorem copyOrder_succ (b : Words) (level : Nat) (t : PAddr) : copyOrder b (level + 1) t =
      (level + 1, t) :: entriesOrder b level t (.range entriesPerTable) := rfl

/-- The first pages of a list that is long enough. -/
theorem exists_first_pages {pages : List PAddr} {n : Nat} (h : n ≤ pages.length) :
    ∃ us us', pages = us ++ us' ∧ us.length = n :=
  ⟨pages.take n, pages.drop n, (take_append_drop n pages).symm, length_take_of_le h⟩

/-- What is read for a copy is where it was, and apart from the pages
that are taken; those are as they were, too. -/
structure Untouched (b m : Words) (order : List (Nat × PAddr)) (used : List PAddr) : Prop where
  nodup : used.Nodup
  length : used.length = order.length
  source : ∀ x ∈ order, m x.2 = b x.2 ∧ x.2 ∉ used
  pages : ∀ p ∈ used, m p = b p

namespace Untouched

variable {o₁ o₂ : List (Nat × PAddr)} {us us' : List PAddr}

theorem left (h : Untouched b m (o₁ ++ o₂) (us ++ us')) (hlen : us.length = o₁.length) :
    Untouched b m o₁ us where
  nodup := (nodup_append.1 h.nodup).1
  length := hlen
  source := fun x hx => by
    obtain ⟨hm, hused⟩ := h.source x (mem_append_left o₂ hx)
    exact ⟨hm, fun hmem => hused (mem_append_left us' hmem)⟩
  pages := fun p hp => h.pages p (mem_append_left us' hp)

/-- What was written for the first part does not concern the second. -/
theorem right (h : Untouched b m (o₁ ++ o₂) (us ++ us')) (hlen : us.length = o₁.length)
    (hs : s ∉ us') (hsrc : ∀ x ∈ o₂, x.2 ≠ s) (hm : ∀ p, p ∉ us → p ≠ s → m' p = m p) :
    Untouched b m' o₂ us' where
  nodup := (nodup_append.1 h.nodup).2.1
  length := by
    have := h.length
    rw [length_append, length_append] at this
    omega
  source := fun x hx => by
    obtain ⟨hmx, hused⟩ := h.source x (mem_append_right o₁ hx)
    have hus : x.2 ∉ us := fun hmem => hused (mem_append_left us' hmem)
    exact ⟨(hm x.2 hus (hsrc x hx)).trans hmx, fun hmem => hused (mem_append_right us hmem)⟩
  pages := fun p hp => by
    have hus : p ∉ us := fun hmem => (nodup_append.1 h.nodup).2.2 p hmem p hp rfl
    have hps : p ≠ s := fun heq => hs (heq ▸ hp)
    exact (hm p hus hps).trans (h.pages p (mem_append_right us hp))

end Untouched

/-- What a copy into the pages `used` gives. -/
def Makes (b m : Words) (level : Nat) (t : PAddr) (used free : List PAddr)
    (result : Except Errno (PAddr × PageState)) : Prop :=
  ∃ s rest m', used = s :: rest ∧ result = .ok (s, ⟨m', free⟩) ∧
    (∀ p, p ∉ used → m' p = m p) ∧ Copied b m' level t used

/-- The loop is about to copy some entries into the table `s`: what it
will read and write is as it was. -/
structure Ready (b m : Words) (level : Nat) (t s : PAddr) (is : List Nat) (used : List PAddr) :
    Prop where
  source : m t = b t
  source_ne : t ≠ s
  source_not_mem : t ∉ used
  table_not_mem : s ∉ used
  untouched : Untouched b m (entriesOrder b level t is) used
  order_ne : ∀ x ∈ entriesOrder b level t is, x.2 ≠ s
  slots : ∀ j ∈ is, m s j = b s j

/-- The loop copied some entries. -/
structure EntriesMade (b m m' : Words) (level : Nat) (t s : PAddr) (is : List Nat)
    (used : List PAddr) : Prop where
  frame : ∀ p, p ∉ used → p ≠ s → m' p = m p
  slots : ∀ j, j ∉ is → m' s j = m s j
  copied : CopiedEntries b m' (level + 1) t s (Copied b m' level) is used

section Entries

variable {duplicate : PAddr → PageState → Except Errno (PAddr × PageState)}
variable {i : Nat} {us us' : List PAddr} {m₁ : Words}

/-- A write to one table leaves the other pages. -/
theorem write_page_of_ne (hm₁ : ∀ p, p ∉ us → m₁ p = m p) (hp : p ∉ us) (hps : p ≠ s) :
    write m₁ s i e p = m p := by
  rw [← hm₁ p hp]
  exact funext fun j => write_of_ne hps i j e

/-- The pages of an entry are used up and the entry is written. -/
theorem Ready.next (h : Ready b m level t s (i :: is) (us ++ us')) (hi : i ∉ is)
    (hlen : us.length = (entryOrder b level t i).length) (hm₁ : ∀ p, p ∉ us → m₁ p = m p) :
    Ready b (write m₁ s i e) level t s is us' := by
  have hs : s ∉ us := fun hmem => h.table_not_mem (mem_append_left us' hmem)
  have hs' : s ∉ us' := fun hmem => h.table_not_mem (mem_append_right us hmem)
  have ht : t ∉ us := fun hmem => h.source_not_mem (mem_append_left us' hmem)
  have horder : ∀ x ∈ entriesOrder b level t is, x.2 ≠ s :=
    fun x hx => h.order_ne x (mem_append_right _ hx)
  refine ⟨?_, h.source_ne, ?_, hs', ?_, horder, ?_⟩
  · exact (write_page_of_ne hm₁ ht h.source_ne).trans h.source
  · exact fun hmem => h.source_not_mem (mem_append_right us hmem)
  · exact h.untouched.right hlen hs' horder fun p hp hps => write_page_of_ne hm₁ hp hps
  · intro j hj
    have hji : j ≠ i := fun heq => hi (heq ▸ hj)
    rw [write_of_index_ne hji, hm₁ s hs]
    exact h.slots j (mem_cons_of_mem i hj)

/-- An entry that is not copied takes no pages. -/
theorem Ready.skip (h : Ready b m level t s (i :: is) used) (hi : entryOrder b level t i = []) :
    Ready b m level t s is used := by
  have horder : entriesOrder b level t (i :: is) = entriesOrder b level t is := by
    rw [entriesOrder_cons, hi, nil_append]
  obtain ⟨hsource, hne, ht, hs, hu, hsrc, hslots⟩ := h
  rw [horder] at hu hsrc
  exact ⟨hsource, hne, ht, hs, hu, hsrc, fun j hj => hslots j (mem_cons_of_mem i hj)⟩

/-- An entry is written after its part of the copy was made, and the loop
goes on. -/
theorem EntriesMade.of_write (hs : s ∉ us) (hm₁ : ∀ p, p ∉ us → m₁ p = m p)
    (h : EntriesMade b (write m₁ s i e) m' level t s is us') :
    (∀ p, p ∉ us ++ us' → p ≠ s → m' p = m p) ∧ (∀ j, j ∉ i :: is → m' s j = m s j) := by
  constructor
  · intro p hp hps
    obtain ⟨hus, hus'⟩ := not_or.1 (mt mem_append.2 hp)
    rw [h.frame p hus' hps]
    exact write_page_of_ne hm₁ hus hps
  · intro j hj
    obtain ⟨hji, his⟩ := not_or.1 (mt mem_cons.2 hj)
    rw [h.slots j his, write_of_index_ne hji, hm₁ s hs]

/-- **The loop copies the entries**, when the pages are enough. The
induction is on the entries that are left. -/
theorem duplicateEntries_ok (free : List PAddr)
    (hdup : ∀ {c m us} free, Untouched b m (copyOrder b level c) us →
      Makes b m level c us free (duplicate c ⟨m, us ++ free⟩))
    (his : is.Nodup) (h : Ready b m level t s is used) :
    ∃ m', duplicateEntries (level + 1) duplicate t s is ⟨m, used ++ free⟩ = .ok ⟨m', free⟩ ∧
      EntriesMade b m m' level t s is used := by
  induction is generalizing m used with
  | nil =>
    obtain rfl : used = [] := eq_nil_of_length_eq_zero h.untouched.length
    exact ⟨m, rfl, fun _ _ _ => rfl, fun _ _ => rfl, rfl⟩
  | cons i is ih =>
    obtain ⟨hi, his⟩ := nodup_cons.1 his
    rw [duplicateEntries]
    simp only [h.source]
    by_cases hnull : isNull (b t i) = true
    · -- nothing is written
      have hskip : (isNull (b t i) || isKept (level + 1) i) = true := by rw [hnull]; rfl
      obtain ⟨m', hm', hmade⟩ := ih his (h.skip (if_pos hskip))
      refine ⟨m', by rw [if_pos hnull]; exact hm', hmade.frame, ?_, ?_⟩
      · exact fun j hj => hmade.slots j fun hmem => hj (mem_cons_of_mem i hmem)
      · rw [CopiedEntries, if_pos hskip, if_pos hnull, hmade.slots i hi]
        exact ⟨h.slots i mem_cons_self, hmade.copied⟩
    · rw [if_neg hnull]
      by_cases hkept : isKept (level + 1) i = true
      · have hskip : (isNull (b t i) || isKept (level + 1) i) = true := by rw [hkept, Bool.or_true]
        have hnone : entryOrder b level t i = [] := if_pos hskip
        have hready : Ready b m level t s (i :: is) ([] ++ used) := h
        obtain ⟨m', hm', hmade⟩ := ih his
          (hready.next (e := b t i) hi (congrArg length hnone).symm fun _ _ => rfl)
        obtain ⟨hframe, hslot⟩ := hmade.of_write not_mem_nil fun _ _ => rfl
        refine ⟨m', by rw [if_pos hkept, entryPaddr_or_self]; exact hm', hframe, hslot, ?_⟩
        rw [CopiedEntries, if_pos hskip, if_neg hnull, hmade.slots i hi, write_self]
        exact ⟨rfl, hmade.copied⟩
      · have hcopy : ¬ (isNull (b t i) || isKept (level + 1) i) = true := by
          rw [Bool.or_eq_true]
          exact not_or.2 ⟨hnull, hkept⟩
        have horder : entryOrder b level t i = copyOrder b level (entryPaddr (b t i)) :=
          if_neg hcopy
        -- the first pages are for what the entry leads to
        have hle : (entryOrder b level t i).length ≤ used.length := by
          rw [h.untouched.length, entriesOrder_cons, length_append]
          exact le_add_right _ _
        obtain ⟨us, us', rfl, hlen⟩ := exists_first_pages hle
        obtain ⟨p, rest, m₁, rfl, hp, hm₁, hcopied⟩ :=
          hdup (us' ++ free) (horder ▸ h.untouched.left hlen)
        obtain ⟨m', hm', hmade⟩ := ih his (h.next (e := p ||| entryFlags (b t i)) hi hlen hm₁)
        have hs : s ∉ p :: rest := fun hmem => h.table_not_mem (mem_append_left us' hmem)
        obtain ⟨hframe, hslot⟩ := hmade.of_write hs hm₁
        refine ⟨m', ?_, hframe, hslot, ?_⟩
        · rw [if_neg hkept, append_assoc, hp, ok_bind]
          exact hm'
        · rw [CopiedEntries, if_neg hcopy]
          refine ⟨p, rest, us', rfl, ?_, hcopied.congr ?_, hmade.copied⟩
          · rw [hmade.slots i hi, write_self]
          · intro q hq
            have hqus : q ∉ us' := fun hmem =>
              (nodup_append.1 h.untouched.nodup).2.2 q hq q hmem rfl
            have hqs : q ≠ s := fun heq => hs (heq ▸ hq)
            rw [hmade.frame q hqus hqs]
            exact funext fun j => write_of_ne hqs i j _

end Entries

/-- Where a table and the pages for its copy are untouched, the loop may
begin. -/
theorem Untouched.ready {rest : List PAddr}
    (h : Untouched b m (copyOrder b (level + 1) t) (s :: rest)) :
    Ready b m level t s (.range entriesPerTable) rest := by
  obtain ⟨hnodup, hlen, hsource, hpages⟩ := h
  obtain ⟨hs, hnodup⟩ := nodup_cons.1 hnodup
  obtain ⟨hm, hused⟩ := hsource (level + 1, t) mem_cons_self
  have hrest : ∀ x ∈ entriesOrder b level t (.range entriesPerTable),
      m x.2 = b x.2 ∧ x.2 ∉ s :: rest := fun x hx => hsource x (mem_cons_of_mem _ hx)
  refine ⟨hm, fun heq => hused (heq ▸ mem_cons_self), ?_, hs, ⟨hnodup, ?_, ?_, ?_⟩, ?_, ?_⟩
  · exact fun hmem => hused (mem_cons_of_mem s hmem)
  · exact succ.inj hlen
  · exact fun x hx => ⟨(hrest x hx).1, fun hmem => (hrest x hx).2 (mem_cons_of_mem s hmem)⟩
  · exact fun p hp => hpages p (mem_cons_of_mem s hp)
  · exact fun x hx heq => (hrest x hx).2 (heq ▸ mem_cons_self)
  · exact fun j _ => congrFun (hpages s mem_cons_self) j

/-- **A table is copied**, with all it leads to, when the pages are
enough. -/
theorem duplicateTable_ok (b : Words) (level : Nat) {t : PAddr} {m : Words} {us : List PAddr}
    (free : List PAddr) (h : Untouched b m (copyOrder b level t) us) :
    Makes b m level t us free (duplicateTable level t ⟨m, us ++ free⟩) := by
  induction level generalizing t m us free with
  | zero =>
    obtain ⟨s, rfl⟩ := length_eq_one_iff.1 h.length
    refine ⟨s, [], fun p => if p = s then m t else m p, rfl, rfl, ?_, s, rfl, ?_⟩
    · intro p hp
      exact if_neg fun heq : p = s => hp (heq ▸ mem_cons_self)
    · exact (if_pos rfl).trans (h.source (0, t) mem_cons_self).1
  | succ level ih =>
    obtain ⟨s, rest, rfl⟩ : ∃ s rest, us = s :: rest := by
      cases us with
      | nil => exact absurd h.length (succ_ne_zero _).symm
      | cons s rest => exact ⟨s, rest, rfl⟩
    obtain ⟨m', hm', hmade⟩ := duplicateEntries_ok free
      (fun {c m us} free hu => ih free hu) (nodup_range (n := entriesPerTable)) h.ready
    refine ⟨s, rest, m', rfl, ?_, ?_, s, rest, rfl, hmade.copied⟩
    · exact bind_eq_ok.2 ⟨_, rfl, bind_eq_ok.2 ⟨_, hm', rfl⟩⟩
    · intro p hp
      obtain ⟨hps, hrest⟩ := not_or.1 (mt mem_cons.2 hp)
      exact hmade.frame p hrest hps

/-! ## An entry and its copy -/

/-- What became of an entry that was copied: the pages `p :: us` hold
what it leads to. -/
structure EntryCopied (b m : Words) (level : Nat) (t s : PAddr)
    (copied : PAddr → List PAddr → Prop) (used : List PAddr) (i : Nat) (p : PAddr)
    (us : List PAddr) : Prop where
  not_null : isNull (b t i) = false
  not_kept : isKept (level + 1) i = false
  subset : p :: us ⊆ used
  entry : m s i = p ||| entryFlags (b t i)
  copied : copied (entryPaddr (b t i)) (p :: us)

section Lookup

variable {copied : PAddr → List PAddr → Prop}

theorem CopiedEntries.length (hlen : ∀ c us, copied c us → us.length = (copyOrder b level c).length)
    (h : CopiedEntries b m (level + 1) t s copied is used) :
    used.length = (entriesOrder b level t is).length := by
  induction is generalizing used with
  | nil =>
    obtain rfl : used = [] := h
    rfl
  | cons i is ih =>
    rw [entriesOrder_cons, entryOrder, length_append]
    rw [CopiedEntries] at h
    split at h
    next hc =>
      rw [if_pos hc, ih h.2, length_nil, Nat.zero_add]
    next hc =>
      obtain ⟨p, us, us', rfl, -, hcopied, hrest⟩ := h
      rw [if_neg hc, length_append, hlen _ _ hcopied, ih hrest]

/-- The pages of a copy are as many as what is copied. -/
theorem Copied.length (h : Copied b m level t used) :
    used.length = (copyOrder b level t).length := by
  induction level generalizing t used with
  | zero =>
    obtain ⟨s, rfl, -⟩ := h
    rfl
  | succ level ih =>
    obtain ⟨s, rest, rfl, hrest⟩ := h
    rw [copyOrder_succ, length_cons, length_cons, CopiedEntries.length (fun c us hc => ih hc) hrest]

variable (hlen : ∀ c us, copied c us → us.length = (copyOrder b level c).length)

theorem EntryCopied.of_append {i : Nat} {us us' vs : List PAddr}
    (h : EntryCopied b m level t s copied us' i p vs) :
    EntryCopied b m level t s copied (us ++ us') i p vs :=
  { h with subset := subset_append_of_subset_right us h.subset }

include hlen in
/-- **An entry of the copy.** It is one that was copied, with its part of
the pages; or it is what was there before, or the same as in the
original. -/
theorem CopiedEntries.get (h : CopiedEntries b m (level + 1) t s copied is used) {i : Nat}
    (hi : i ∈ is) : (isNull (b t i) = true ∧ m s i = b s i) ∨
    (isNull (b t i) = false ∧ isKept (level + 1) i = true ∧ m s i = b t i) ∨
    ∃ p us, EntryCopied b m level t s copied used i p us ∧
      ∀ x ∈ (copyOrder b level (entryPaddr (b t i))).zip (p :: us),
        x ∈ (entriesOrder b level t is).zip used := by
  induction is generalizing used with
  | nil => cases hi
  | cons j is ih =>
    rw [CopiedEntries] at h
    rw [entriesOrder_cons, entryOrder]
    split at h
    next hc =>
      rw [if_pos hc, nil_append]
      rcases mem_cons.1 hi with rfl | hi
      · cases hnull : isNull (b t i) with
        | true =>
          rw [hnull, if_pos rfl] at h
          exact .inl ⟨rfl, h.1⟩
        | false =>
          rw [hnull, if_neg Bool.false_ne_true] at h
          rw [hnull, Bool.false_or] at hc
          exact .inr (.inl ⟨rfl, hc, h.1⟩)
      · exact ih h.2 hi
    next hc =>
      obtain ⟨p, us, us', rfl, hentry, hcopied, hrest⟩ := h
      rw [if_neg hc, zip_append (hlen _ _ hcopied).symm]
      rcases mem_cons.1 hi with rfl | hi
      · obtain ⟨hnull, hkept⟩ := Bool.or_eq_false_iff.1 (Bool.eq_false_iff.2 hc)
        refine .inr (.inr ⟨p, us, ⟨hnull, hkept, ?_, hentry, hcopied⟩, ?_⟩)
        · exact subset_append_left _ _
        · exact fun x hx => mem_append_left _ hx
      · rcases ih hrest hi with hnull | hkept | ⟨q, vs, hq, hzip⟩
        · exact .inl hnull
        · exact .inr (.inl hkept)
        · exact .inr (.inr ⟨q, vs, hq.of_append, fun x hx => mem_append_right _ (hzip x hx)⟩)

include hlen in
/-- What is copied into one of the pages is under an entry that was
copied. -/
theorem CopiedEntries.of_mem_zip (h : CopiedEntries b m (level + 1) t s copied is used)
    {x : (Nat × PAddr) × PAddr} (hx : x ∈ (entriesOrder b level t is).zip used) :
    ∃ i ∈ is, ∃ p us, EntryCopied b m level t s copied used i p us ∧
      x ∈ (copyOrder b level (entryPaddr (b t i))).zip (p :: us) := by
  induction is generalizing used with
  | nil => cases hx
  | cons j is ih =>
    rw [CopiedEntries] at h
    rw [entriesOrder_cons, entryOrder] at hx
    split at h
    next hc =>
      rw [if_pos hc, nil_append] at hx
      obtain ⟨i, hi, p, us, hp, hmem⟩ := ih h.2 hx
      exact ⟨i, mem_cons_of_mem j hi, p, us, hp, hmem⟩
    next hc =>
      obtain ⟨p, us, us', rfl, hentry, hcopied, hrest⟩ := h
      rw [if_neg hc, zip_append (hlen _ _ hcopied).symm] at hx
      rcases mem_append.1 hx with hx | hx
      · obtain ⟨hnull, hkept⟩ := Bool.or_eq_false_iff.1 (Bool.eq_false_iff.2 hc)
        refine ⟨j, mem_cons_self, p, us, ⟨hnull, hkept, ?_, hentry, hcopied⟩, hx⟩
        exact subset_append_left _ _
      · obtain ⟨i, hi, q, vs, hq, hmem⟩ := ih hrest hx
        exact ⟨i, mem_cons_of_mem j hi, q, vs, hq.of_append, hmem⟩

end Lookup

/-! ## A path through a table and through its copy -/

/-- A path leads nowhere in both memories; or it leads to a page and to
the copy of that page, with the same flags on the way. -/
def Follows (b m : Words) (t s : PAddr) (pages : List PAddr) (path : List Nat) : Prop :=
  (trace next b t path = none ∧ trace next m s path = none) ∨
    ∃ p p' es es', trace next b t path = some (p, es) ∧
      trace next m s path = some (p', es') ∧
      es'.map entryFlags = es.map entryFlags ∧ p' ∈ pages ∧ m p' = b p

/-- The path takes no entry that is kept. -/
def Unkept (level : Nat) (path : List Nat) : Prop :=
  ∀ i rest, path = i :: rest → isKept level i = false

theorem isKept_of_lt (h : level < 4) : isKept level i = false := by
  rw [isKept, beq_eq_false_iff_ne.2 (by omega), Bool.false_and]

variable {us : List PAddr} {path : List Nat} {vaddr : Nat}

/-- One step further: an entry and its copy lead to what is followed. -/
theorem Follows.cons {c s' : PAddr} {vs : List PAddr} (h : Follows b m c s' vs path) (hvs : vs ⊆ us)
    (hb : next (b t i) = some c) (hm : next (m s i) = some s')
    (hflags : entryFlags (m s i) = entryFlags (b t i)) : Follows b m t s us (i :: path) := by
  rcases h with ⟨hn, hn'⟩ | ⟨p, p', es, es', hp, hp', hes, hmem, hcopy⟩
  · refine .inl ⟨?_, ?_⟩
    · rw [trace_cons_of_some hb, hn, map_none]
    · rw [trace_cons_of_some hm, hn', map_none]
  · refine .inr ⟨p, p', b t i :: es, m s i :: es', ?_, ?_, ?_, hvs hmem, hcopy⟩
    · rw [trace_cons_of_some hb, hp, map_some]
    · rw [trace_cons_of_some hm, hp', map_some]
    · rw [map_cons, map_cons, hflags, hes]

/-- **A path leads to the same place in a copy**, when nothing was left
in the pages it was made in. The induction is on the levels. -/
theorem Copied.follows (h : Copied b m level t (s :: us)) (hlevel : level ≤ 4)
    (hpages : ∀ p ∈ s :: us, entryPaddr p = p ∧ p ≠ 0)
    (hclean : ∀ lv u n, ((lv + 1, u), n) ∈ (copyOrder b level t).zip (s :: us) →
      ∀ i, i < entriesPerTable → isNull (b u i) = true → isNull (b n i) = true)
    (hlen : path.length = level) (hidx : ∀ i ∈ path, i < entriesPerTable)
    (hkept : Unkept level path) : Follows b m t s (s :: us) path := by
  induction level generalizing t s us path with
  | zero =>
    obtain ⟨_, ⟨⟩, hcopy⟩ := h
    obtain rfl := eq_nil_of_length_eq_zero hlen
    exact .inr ⟨t, s, [], [], rfl, rfl, rfl, mem_cons_self, hcopy⟩
  | succ level ih =>
    obtain ⟨_, _, ⟨⟩, hentries⟩ := h
    cases path with
    | nil => exact absurd hlen (succ_ne_zero level).symm
    | cons i path =>
      have hi : i < entriesPerTable := hidx i mem_cons_self
      rcases hentries.get (fun c vs hc => hc.length) (mem_range.2 hi) with
        ⟨hnull, hleft⟩ | ⟨-, hk, -⟩ | ⟨p, vs, hp, hzip⟩
      · have hnull' : isNull (m s i) = true := by
          rw [hleft]
          exact hclean level t s mem_cons_self i hi hnull
        exact .inl ⟨trace_cons_of_none (next_of_isNull hnull),
          trace_cons_of_none (next_of_isNull hnull')⟩
      · cases hk.symm.trans (hkept i path rfl)
      · have hpage := hpages p (mem_cons_of_mem s (hp.subset mem_cons_self))
        have hrest : Follows b m (entryPaddr (b t i)) p (p :: vs) path := by
          refine ih hp.copied (by omega) ?_ ?_ (succ.inj hlen) ?_ ?_
          · exact fun q hq => hpages q (mem_cons_of_mem s (hp.subset hq))
          · exact fun lv u n hn => hclean lv u n (mem_cons_of_mem _ (hzip _ hn))
          · exact fun j hj => hidx j (mem_cons_of_mem i hj)
          · exact fun j _ _ => isKept_of_lt (by omega)
        refine hrest.cons (subset_cons_of_subset s hp.subset) (next_of_not_isNull hp.not_null) ?_ ?_
        · rw [hp.entry]
          exact next_or_entryFlags hpage
        · rw [hp.entry]
          exact entryFlags_or_entryFlags hpage.1

/-- **Every table that is copied is on a path**, in the original and in
the copy, and where it has no entry its copy has what was left. -/
theorem Copied.exists_path (h : Copied b m level t (s :: us)) (hlevel : level ≤ 4)
    (hpages : ∀ p ∈ s :: us, entryPaddr p = p ∧ p ≠ 0) {lv : Nat} {u n : PAddr}
    (hmem : ((lv + 1, u), n) ∈ (copyOrder b level t).zip (s :: us)) :
    ∃ path es es', path.length + (lv + 1) = level ∧ (∀ i ∈ path, i < entriesPerTable) ∧
      Unkept level path ∧ trace next b t path = some (u, es) ∧ trace next m s path = some (n, es') ∧
      ∀ i, i < entriesPerTable → isNull (b u i) = true → m n i = b n i := by
  induction level generalizing t s us with
  | zero =>
    obtain ⟨hx, -⟩ := mk.inj (mem_singleton.1 (of_mem_zip hmem).1)
    exact absurd hx (succ_ne_zero lv)
  | succ level ih =>
    obtain ⟨_, _, ⟨⟩, hentries⟩ := h
    rcases mem_cons.1 hmem with heq | hmem
    · -- the table itself
      obtain ⟨hx, rfl⟩ := mk.inj heq
      obtain ⟨hlv, rfl⟩ := mk.inj hx
      refine ⟨[], [], [], by rw [length_nil]; omega, nofun, nofun, rfl, rfl, ?_⟩
      intro i hi hnull
      rcases hentries.get (fun c vs hc => hc.length) (mem_range.2 hi) with
        ⟨-, hleft⟩ | ⟨hnot, -, -⟩ | ⟨p, vs, hp, -⟩
      · exact hleft
      · cases hnot.symm.trans hnull
      · cases hp.not_null.symm.trans hnull
    · obtain ⟨i, hi, p, vs, hp, hx⟩ := hentries.of_mem_zip (fun c vs hc => hc.length) hmem
      have hpage := hpages p (mem_cons_of_mem s (hp.subset mem_cons_self))
      obtain ⟨path, es, es', hlen, hidx, -, hb, hm, hleft⟩ := ih hp.copied (by omega)
        (fun q hq => hpages q (mem_cons_of_mem s (hp.subset hq))) hx
      have hnext : next (m s i) = some p := by
        rw [hp.entry]
        exact next_or_entryFlags hpage
      refine ⟨i :: path, b t i :: es, m s i :: es', ?_, ?_, ?_, ?_, ?_, hleft⟩
      · rw [length_cons]
        omega
      · exact forall_mem_cons.2 ⟨mem_range.1 hi, hidx⟩
      · rintro j rest ⟨⟩
        exact hp.not_kept
      · rw [trace_cons_of_some (next_of_not_isNull hp.not_null), hb, map_some]
      · rw [trace_cons_of_some hnext, hm, map_some]

/-! ## Addresses and paths -/

/-- The index of an address at a level, without shifts. -/
theorem indices_eq (vaddr : Nat) : indices vaddr =
    [vaddr / 549755813888 % 512, vaddr / 1073741824 % 512, vaddr / 2097152 % 512,
      vaddr / 4096 % 512] := by
  simp only [indices, nthLevelTableIndex, shiftRight_eq_div_pow, reduceSub, reduceMul,
    reduceAdd, reducePow]

theorem entriesPerTable_eq : entriesPerTable = 512 := by
  rw [entriesPerTable]

theorem lt_of_mem_indices (h : i ∈ indices vaddr) : i < entriesPerTable := by
  rw [indices_eq] at h
  rw [entriesPerTable_eq]
  simp only [mem_cons, not_mem_nil, or_false] at h
  omega

/-- The entries that are kept are those of the addresses from
`0x400000000000` on. -/
theorem isKept_indices {rest : List Nat} (hv : vaddr < userEnd) (h : indices vaddr = i :: rest) :
    isKept 4 i = decide (0x400000000000 ≤ vaddr) := by
  rw [indices_eq] at h
  obtain ⟨rfl, -⟩ := cons.inj h
  simp only [isKept, userEnd, beq_self_eq_true, Bool.true_and] at hv ⊢
  rw [decide_eq_decide]
  omega

/-- The index of the PML4 is below that of the kernel. -/
def UserPath (path : List Nat) : Prop := ∀ i rest, path = i :: rest → i < 0x100

/-- A path of four indices is the path of an address. -/
theorem exists_vaddr (hlen : path.length = 4) (hidx : ∀ i ∈ path, i < entriesPerTable)
    (huser : UserPath path) : ∃ vaddr, vaddr < userEnd ∧ indices vaddr = path := by
  obtain ⟨a, b, c, d, rfl⟩ : ∃ a b c d, path = [a, b, c, d] := by
    obtain ⟨a, path, rfl⟩ := exists_cons_of_length_eq_add_one hlen
    obtain ⟨b, c, d, rfl⟩ := length_eq_three.1 (succ.inj hlen)
    exact ⟨a, b, c, d, rfl⟩
  have ha := huser a [b, c, d] rfl
  simp only [mem_cons, not_mem_nil, or_false, forall_eq_or_imp, forall_eq,
    entriesPerTable_eq] at hidx
  refine ⟨((a * 512 + b) * 512 + c) * 2097152 + d * 4096, ?_, ?_⟩
  · rw [userEnd]
    omega
  · rw [indices_eq]
    simp only [cons.injEq, and_true]
    omega

/-- A shorter path is the beginning of one. -/
theorem exists_vaddr_of_le (hlen : path.length ≤ 4) (hidx : ∀ i ∈ path, i < entriesPerTable)
    (huser : UserPath path) : ∃ vaddr, vaddr < userEnd ∧ path <+: indices vaddr := by
  have hlen' : (path ++ .replicate (4 - path.length) 0).length = 4 := by
    rw [length_append, length_replicate]
    omega
  have hidx' : ∀ i ∈ path ++ .replicate (4 - path.length) 0, i < entriesPerTable :=
    forall_mem_append.2 ⟨hidx, forall_mem_replicate.2 (.inr (by simp [entriesPerTable_eq]))⟩
  have huser' : UserPath (path ++ .replicate (4 - path.length) 0) := by
    intro i rest hrest
    cases path with
    | nil =>
      obtain ⟨rfl, -⟩ := cons.inj (show 0 :: [0, 0, 0] = i :: rest from hrest)
      omega
    | cons j path =>
      obtain ⟨rfl, -⟩ := cons.inj hrest
      exact huser j path rfl
  obtain ⟨vaddr, hv, hpath⟩ := exists_vaddr hlen' hidx' huser'
  exact ⟨vaddr, hv, hpath ▸ prefix_append _ _⟩

theorem Unkept.userPath (h : Unkept 4 path) : UserPath path := by
  intro i rest hrest
  have := h i rest hrest
  simp only [isKept, beq_self_eq_true, Bool.true_and, decide_eq_false_iff_not] at this
  omega

/-! ## The whole copy -/

/-- What is copied is on a path that is copied. -/
theorem exists_path_of_mem_copyOrder {x : Nat × PAddr} (hlevel : level ≤ 4)
    (hx : x ∈ copyOrder b level t) :
    ∃ path es, path.length ≤ level ∧ (∀ i ∈ path, i < entriesPerTable) ∧ Unkept level path ∧
      trace next b t path = some (x.2, es) := by
  induction level generalizing t with
  | zero =>
    obtain rfl := mem_singleton.1 hx
    exact ⟨[], [], le_refl _, nofun, nofun, rfl⟩
  | succ level ih =>
    rw [copyOrder_succ] at hx
    rcases mem_cons.1 hx with rfl | hx
    · exact ⟨[], [], zero_le _, nofun, nofun, rfl⟩
    · obtain ⟨i, hi, hx⟩ := mem_flatMap.1 hx
      rw [entryOrder] at hx
      split at hx
      next => cases hx
      next hc =>
        obtain ⟨hnull, hkept⟩ := Bool.or_eq_false_iff.1 (Bool.eq_false_iff.2 hc)
        obtain ⟨path, es, hlen, hidx, -, hpath⟩ := ih (by omega) hx
        refine ⟨i :: path, b t i :: es, succ_le_succ hlen, ?_, ?_, ?_⟩
        · exact forall_mem_cons.2 ⟨mem_range.1 hi, hidx⟩
        · rintro j rest ⟨⟩
          exact hkept
        · rw [trace_cons_of_some (next_of_not_isNull hnull), hpath, map_some]

/-- The order of copying depends on the tables that are copied. -/
theorem copyOrder_congr {b' : Words} (h : ∀ x ∈ copyOrder b level t, b' x.2 = b x.2) :
    copyOrder b' level t = copyOrder b level t := by
  induction level generalizing t with
  | zero => rfl
  | succ level ih =>
    rw [copyOrder_succ] at h ⊢
    have ht : b' t = b t := h (level + 1, t) mem_cons_self
    rw [copyOrder_succ]
    refine congrArg _ (flatMap_congr fun i hi => ?_)
    rw [entryOrder, entryOrder, ht]
    split
    next => rfl
    next hc =>
      refine ih fun x hx => h x (mem_cons_of_mem _ (mem_flatMap.2 ⟨i, hi, ?_⟩))
      rw [entryOrder, if_neg hc]
      exact hx

variable {mem mem₂ : Words} {pml4 new : PAddr} {free : FreePages}

/-- What is copied is in use. -/
theorem InUse.not_mem_of_copyOrder (huse : InUse mem pml4 free) {x : Nat × PAddr}
    (hx : x ∈ copyOrder mem 4 pml4) : x.2 ∉ free.pages := by
  obtain ⟨path, es, hlen, hidx, hkept, hpath⟩ := exists_path_of_mem_copyOrder (le_refl 4) hx
  obtain ⟨vaddr, hv, hprefix⟩ := exists_vaddr_of_le hlen hidx hkept.userPath
  exact huse vaddr hv path hprefix x.2 es hpath

/-- **The copy of a page table is made**, when there are pages enough. -/
theorem duplicateFrom_ok (huse : InUse mem pml4 free)
    (hroom : (copyOrder mem 4 pml4).length ≤ free.pages.length) :
    ∃ new us rest mem', free.pages = (new :: us) ++ rest ∧
      duplicateFrom pml4 ⟨mem, free.pages⟩ = .ok (new, ⟨mem', rest⟩) ∧
      (∀ p, p ∉ free.pages → mem' p = mem p) ∧ Copied mem mem' 4 pml4 (new :: us) ∧
      (copyOrder mem 4 pml4).zip free.pages = (copyOrder mem 4 pml4).zip (new :: us) := by
  obtain ⟨used, rest, hpages, hlen⟩ := exists_first_pages hroom
  have hsub : ∀ p ∈ used, p ∈ free.pages := fun p hp => hpages ▸ mem_append_left rest hp
  have hnodup : used.Nodup := (nodup_append.1 (hpages ▸ free.nodup)).1
  have hu : Untouched mem mem (copyOrder mem 4 pml4) used := by
    refine ⟨hnodup, hlen, fun x hx => ⟨rfl, fun hmem => ?_⟩, fun _ _ => rfl⟩
    exact huse.not_mem_of_copyOrder hx (hsub x.2 hmem)
  obtain ⟨new, us, mem', rfl, hok, hframe, hcopied⟩ := duplicateTable_ok mem 4 rest hu
  refine ⟨new, us, rest, mem', hpages, ?_, ?_, hcopied, ?_⟩
  · rw [hpages]
    exact hok
  · exact fun p hp => hframe p fun hmem => hp (hsub p hmem)
  · calc (copyOrder mem 4 pml4).zip free.pages
        = (copyOrder mem 4 pml4 ++ []).zip ((new :: us) ++ rest) := by
          rw [hpages, append_nil]
      _ = (copyOrder mem 4 pml4).zip (new :: us) := by
          rw [zip_append hlen.symm, zip_nil_left, append_nil]

/-- The user's part of a table leads where it did, while the pages in use
are as they were. -/
theorem trace_eq_of_inUse (huse : InUse mem pml4 free) (hv : vaddr < userEnd)
    (hm : ∀ p, p ∉ free.pages → m' p = mem p) (hpath : path <+: indices vaddr) :
    trace next m' pml4 path = trace next mem pml4 path :=
  trace_congr fun q u es hq _ hu =>
    hm u (huse vaddr hv q (hq.trans hpath) u es hu)

/-- **A kept entry leads to the same pages.** -/
theorem trace_of_kept {rest : List Nat} (huse : InUse mem pml4 free) (hv : vaddr < userEnd)
    (hm : ∀ p, p ∉ free.pages → m' p = mem p) (hpath : indices vaddr = i :: rest)
    (hentry : m' new i = mem pml4 i) :
    trace next m' new (indices vaddr) = trace next mem pml4 (indices vaddr) := by
  rw [hpath]
  cases hc : next (mem pml4 i) with
  | none => rw [trace_cons_of_none hc, trace_cons_of_none (hentry ▸ hc)]
  | some c =>
    have hrest : trace next m' c rest = trace next mem c rest := by
      refine trace_congr fun q u es hq _ hu => hm u ?_
      refine huse vaddr hv (i :: q) ?_ u (mem pml4 i :: es) ?_
      · rw [hpath]
        exact cons_prefix_cons.2 ⟨rfl, hq⟩
      · rw [trace_cons_of_some hc, hu, map_some]
    rw [trace_cons_of_some hc, trace_cons_of_some (hentry ▸ hc), hrest, hentry]

/-- The copy of a page table, entry by entry. -/
theorem Copied.get_root (h : Copied mem m' 4 pml4 (new :: us)) (hi : i < entriesPerTable) :
    (isNull (mem pml4 i) = true ∧ m' new i = mem new i) ∨
    (isNull (mem pml4 i) = false ∧ isKept 4 i = true ∧ m' new i = mem pml4 i) ∨
    isKept 4 i = false := by
  obtain ⟨_, _, ⟨⟩, hentries⟩ := h
  rcases hentries.get (fun c vs hc => hc.length) (mem_range.2 hi) with
    hnull | hkept | ⟨p, vs, hp, -⟩
  · exact .inl hnull
  · exact .inr (.inl hkept)
  · exact .inr (.inr hp.not_kept)

/-- The entry of the root for a shared page. -/
theorem exists_kept {vaddr : Nat} (hv : vaddr < userEnd) (hge : 0x400000000000 ≤ vaddr) :
    ∃ i rest, indices vaddr = i :: rest ∧ i < entriesPerTable ∧ isKept 4 i ≠ false := by
  refine ⟨_, _, rfl, lt_of_mem_indices mem_cons_self, ?_⟩
  rw [isKept_indices hv rfl, decide_eq_true hge]
  decide

/-- The root is the first that is copied. -/
theorem root_mem_zip : ((3 + 1, pml4), new) ∈ (copyOrder mem 4 pml4).zip (new :: us) := by
  exact mem_cons_self

/-- **Where nothing is left and nothing is shared, the copy is a
duplicate.** -/
theorem duplicates_of_copied (huse : InUse mem pml4 free) (hsub : ∀ p ∈ new :: us, p ∈ free.pages)
    (hm : ∀ p, p ∉ free.pages → m' p = mem p) (hcopied : Copied mem m' 4 pml4 (new :: us))
    (hzip : (copyOrder mem 4 pml4).zip free.pages = (copyOrder mem 4 pml4).zip (new :: us))
    (hleft : NothingLeft mem pml4 free) (hshared : NothingShared mem pml4) :
    Duplicates mem pml4 m' new := by
  have hpages : ∀ p ∈ new :: us, entryPaddr p = p ∧ p ≠ 0 := fun p hp => free.isPage p (hsub p hp)
  rw [NothingLeft, hzip] at hleft
  -- below the entries that are kept, a path is followed in both
  have hlow : ∀ vaddr, vaddr < 0x400000000000 →
      Follows mem m' pml4 new (new :: us) (indices vaddr) := by
    intro vaddr hv
    refine hcopied.follows (le_refl 4) hpages hleft rfl (fun i hi => lt_of_mem_indices hi) ?_
    intro i rest hrest
    rw [isKept_indices (by rw [userEnd]; omega) hrest]
    exact decide_eq_false (by omega)
  -- above, neither table maps anything
  have hhigh : ∀ vaddr, vaddr < userEnd → 0x400000000000 ≤ vaddr → mapping m' new vaddr = none := by
    intro vaddr hv hge
    have hnone := hshared vaddr hge hv
    obtain ⟨i, rest, hpath, hi, hkept⟩ := exists_kept hv hge
    rcases hcopied.get_root hi with ⟨hnull, hold⟩ | ⟨-, -, hsame⟩ | hnot
    · have hnull' := hleft 3 pml4 new root_mem_zip i hi hnull
      rw [← hold] at hnull'
      rw [mapping, hpath, trace_cons_of_none (next_of_isNull hnull'), map_none]
    · rw [mapping, trace_of_kept huse hv hm hpath hsame]
      exact hnone
    · exact absurd hnot hkept
  refine ⟨?_, ?_, ?_⟩
  · intro vaddr hv
    rcases lt_or_ge vaddr 0x400000000000 with hlt | hge
    · rcases hlow vaddr hlt with ⟨hn, hn'⟩ | ⟨p, p', es, es', hp, hp', -⟩
      · rw [mapping, mapping, hn, hn', map_none]
      · rw [mapping, mapping, hp, hp', map_some, map_some]
        exact ⟨fun _ => rfl, fun _ => rfl⟩
    · rw [hhigh vaddr hv hge, hshared vaddr hge hv]
  · intro vaddr hv p p' fs fs' hp hp'
    rcases lt_or_ge vaddr 0x400000000000 with hlt | hge
    · rw [mapping] at hp hp'
      rcases hlow vaddr hlt with ⟨hn, -⟩ | ⟨q, q', es, es', hq, hq', hes, hmem, hcopy⟩
      · rw [hn] at hp
        cases hp
      · rw [hq, map_some] at hp
        rw [hq', map_some] at hp'
        cases hp
        cases hp'
        refine ⟨?_, hes, fun i _ => congrFun hcopy i⟩
        rintro rfl
        exact huse vaddr hv (indices vaddr) prefix_rfl q' es hq (hsub q' hmem)
    · rw [hshared vaddr hge hv] at hp
      cases hp
  · intro i hge hi
    rcases hcopied.get_root hi with ⟨hnull, hold⟩ | ⟨-, -, hsame⟩ | hnot
    · refine .inr ⟨?_, hnull⟩
      rw [hold]
      exact hleft 3 pml4 new root_mem_zip i hi hnull
    · exact .inl hsame
    · simp only [isKept, beq_self_eq_true, Bool.true_and, decide_eq_false_iff_not] at hnot
      omega

/-! ## Another content of the free pages -/

theorem Refills.refl (free : FreePages) (mem : Words) : Refills free mem mem :=
  ⟨fun _ _ => rfl, fun _ _ _ h => h⟩

namespace Refills

variable (hre : Refills free mem mem₂) (huse : InUse mem pml4 free)
include hre huse

theorem inUse : InUse mem₂ pml4 free := by
  intro vaddr hv path hpath p es hp
  rw [trace_eq_of_inUse huse hv hre.1 hpath] at hp
  exact huse vaddr hv path hpath p es hp

theorem copyOrder_eq : copyOrder mem₂ 4 pml4 = copyOrder mem 4 pml4 :=
  copyOrder_congr fun _ hx => hre.1 _ (huse.not_mem_of_copyOrder hx)

theorem nothingLeft (h : NothingLeft mem pml4 free) : NothingLeft mem₂ pml4 free := by
  intro level table n hmem i hi hnull
  rw [hre.copyOrder_eq huse] at hmem
  obtain ⟨htable, hn⟩ := of_mem_zip hmem
  rw [hre.1 table (huse.not_mem_of_copyOrder htable)] at hnull
  exact hre.2 n hn i (h level table n hmem i hi hnull)

theorem nothingShared (h : NothingShared mem pml4) : NothingShared mem₂ pml4 := by
  intro vaddr hge hv
  rw [mapping, trace_eq_of_inUse huse hv hre.1 prefix_rfl]
  exact h vaddr hge hv

end Refills

/-- **A shared page is not another page.** -/
theorem nothingShared_of_duplicates (huse : InUse mem pml4 free)
    (hm : ∀ p, p ∉ free.pages → m' p = mem p) (hcopied : Copied mem m' 4 pml4 (new :: us))
    (h : Duplicates mem pml4 m' new) : NothingShared mem pml4 := by
  intro vaddr hge hv
  cases hmap : mapping mem pml4 vaddr with
  | none => rfl
  | some found =>
    obtain ⟨i, rest, hpath, hi, hkept⟩ := exists_kept hv hge
    have hsame : mapping m' new vaddr = mapping mem pml4 vaddr := by
      rcases hcopied.get_root hi with ⟨hnull, -⟩ | ⟨-, -, hentry⟩ | hnot
      · rw [mapping, hpath, trace_cons_of_none (next_of_isNull hnull)] at hmap
        cases hmap
      · rw [mapping, mapping, trace_of_kept huse hv hm hpath hentry]
      · exact absurd hnot hkept
    have hpage := h.page vaddr hv found.1 found.1 found.2 found.2 hmap (hsame.trans hmap)
    exact absurd rfl hpage.1

/-- An entry that leads to its own table leads to it for ever. -/
theorem trace_replicate {n : PAddr} (h : next (m n i) = some n) (k : Nat) :
    ∃ es, trace next m n (replicate k i) = some (n, es) := by
  induction k with
  | zero => exact ⟨[], rfl⟩
  | succ k ih =>
    obtain ⟨es, hes⟩ := ih
    refine ⟨m n i :: es, ?_⟩
    rw [replicate_succ, trace_cons_of_some h, hes, map_some]

/-- **An entry that is left in a table and leads to that table is no
duplicate of nothing.** Its index, taken for all the levels that follow,
is a mapped address; or it is an entry of the kernel. -/
theorem not_duplicates_of_self_entry (hsub : ∀ p ∈ new :: us, p ∈ free.pages)
    (hcopied : Copied mem m' 4 pml4 (new :: us)) {lv : Nat} {u n : PAddr}
    (hmem : ((lv + 1, u), n) ∈ (copyOrder mem 4 pml4).zip (new :: us)) (hi : i < entriesPerTable)
    (hnull : isNull (mem u i) = true) (hself : next (mem n i) = some n) :
    ¬ Duplicates mem pml4 m' new := by
  intro h
  have hpages : ∀ p ∈ new :: us, entryPaddr p = p ∧ p ≠ 0 := fun p hp => free.isPage p (hsub p hp)
  obtain ⟨path, es, es', hlen, hidx, hkept, hb, hm, hold⟩ :=
    hcopied.exists_path (Nat.le_refl 4) hpages hmem
  have hentry : m' n i = mem n i := hold i hi hnull
  obtain ⟨es'', hloop⟩ := trace_replicate (hentry ▸ hself) (lv + 1)
  have hnone : trace next mem pml4 (path ++ replicate (lv + 1) i) = none := by
    rw [trace_append, hb, bind_some, replicate_succ,
      trace_cons_of_none (next_of_isNull hnull), map_none]
  have hsome : trace next m' new (path ++ replicate (lv + 1) i) = some (n, es' ++ es'') := by
    rw [trace_append, hm, bind_some, hloop, map_some]
  by_cases huser : UserPath (path ++ .replicate (lv + 1) i)
  · obtain ⟨vaddr, hv, hpath⟩ := exists_vaddr (by rw [length_append, length_replicate]; exact hlen)
      (forall_mem_append.2 ⟨hidx, forall_mem_replicate.2 (.inr hi)⟩) huser
    have hmaps := (h.maps vaddr hv).1 (by rw [mapping, hpath, hsome]; rfl)
    rw [mapping, hpath, hnone] at hmaps
    cases hmaps
  · cases path with
    | cons j path =>
      refine huser ?_
      rintro k rest ⟨⟩
      exact hkept.userPath j path rfl
    | nil =>
      -- the table is the root, and the entry one of the kernel
      have hge : 0x100 ≤ i := by
        refine Nat.le_of_not_lt fun hlt => huser fun k rest hrest => ?_
        obtain ⟨rfl, -⟩ := cons.inj (show i :: replicate lv i = k :: rest from hrest)
        exact hlt
      obtain ⟨rfl, -⟩ := mk.inj (some.inj hb)
      obtain ⟨rfl, -⟩ := mk.inj (some.inj hm)
      have hnot : isNull (m' new i) ≠ true := by
        intro hyes
        rw [hentry] at hyes
        rw [next_of_isNull hyes] at hself
        cases hself
      rcases h.kernel i hge hi with heq | ⟨hyes, -⟩
      · exact hnot (heq ▸ hnull)
      · exact hnot hyes

/-- **When a page table is duplicated.** Whatever words the free pages
hold where they do not hold an empty entry, the copy is a duplicate: that
is so exactly when nothing is left in the pages the tables are copied to,
and nothing is mapped where entries are shared. -/
theorem duplicates_iff (huse : InUse mem pml4 free)
    (hroom : (copyOrder mem 4 pml4).length ≤ free.pages.length) :
    (∀ mem₂, Refills free mem mem₂ → ∃ new mem' rest,
      duplicateFrom pml4 ⟨mem₂, free.pages⟩ = .ok (new, ⟨mem', rest⟩) ∧
        Duplicates mem₂ pml4 mem' new) ↔ NothingLeft mem pml4 free ∧ NothingShared mem pml4 := by
  constructor
  · intro h
    refine ⟨?_, ?_⟩
    · intro lv table n hmem i hi hnull
      obtain ⟨htable, hn⟩ := of_mem_zip hmem
      have hpage := free.isPage n hn
      by_contra hnot
      -- the entry that is left leads to its own table
      have hre : Refills free mem (write mem n i (n ||| entryFlags 7#64)) := by
        refine ⟨fun p hp => funext fun j => write_of_ne (ne_of_mem_of_not_mem hn hp).symm i j _, ?_⟩
        intro p _ j hj
        by_cases hslot : p = n ∧ j = i
        · obtain ⟨rfl, rfl⟩ := hslot
          exact absurd hj hnot
        · rw [write, if_neg hslot]
          exact hj
      obtain ⟨new', mem', rest', hok', hdup⟩ := h _ hre
      have hroom' := hre.copyOrder_eq huse ▸ hroom
      obtain ⟨new, us, rest, m', hpages, hok, hm, hcopied, hzip⟩ :=
        duplicateFrom_ok (hre.inUse huse) hroom'
      have hsub : ∀ p ∈ new :: us, p ∈ free.pages := fun p hp => hpages ▸ mem_append_left rest hp
      cases hok.symm.trans hok'
      rw [← hre.copyOrder_eq huse, hzip] at hmem
      refine not_duplicates_of_self_entry hsub hcopied hmem hi ?_ ?_ hdup
      · rw [hre.1 table (huse.not_mem_of_copyOrder htable)]
        exact hnull
      · rw [write_self]
        exact next_or_entryFlags hpage
    · obtain ⟨new', mem', rest', hok', hdup⟩ := h mem (.refl free mem)
      obtain ⟨new, us, rest, m', hpages, hok, hm, hcopied, hzip⟩ := duplicateFrom_ok huse hroom
      cases hok.symm.trans hok'
      exact nothingShared_of_duplicates huse hm hcopied hdup
  · rintro ⟨hleft, hshared⟩ mem₂ hre
    obtain ⟨new, us, rest, m', hpages, hok, hm, hcopied, hzip⟩ :=
      duplicateFrom_ok (hre.inUse huse) (hre.copyOrder_eq huse ▸ hroom)
    refine ⟨new, m', rest, hok, ?_⟩
    refine duplicates_of_copied (hre.inUse huse) ?_ hm hcopied hzip (hre.nothingLeft huse hleft)
      (hre.nothingShared huse hshared)
    exact fun p hp => hpages ▸ mem_append_left rest hp

/-- One page mapped at the address 0, and an entry of the kernel. -/
def onePage : Words := fun p i =>
  if p = 0x1000 ∧ i = 511 then 0x9003
  else if p = 0x5000 then 0x2a
  else if i = 0 then
    if p = 0x1000 then 0x2007
    else if p = 0x2000 then 0x3007
    else if p = 0x3000 then 0x4007
    else if p = 0x4000 then 0x5007
    else 0
  else 0

/-- Five pages that hold zeros. -/
def fivePages : FreePages where
  pages := [0x10000, 0x11000, 0x12000, 0x13000, 0x14000]
  nodup := by decide
  isPage := by
    simp only [forall_mem_cons, not_mem_nil, false_implies, implies_true, and_true]
    decide

theorem next_onePage {p q : PAddr} (h : next (onePage p i) = some q) : q.toNat < 0x10000 := by
  unfold onePage at h
  repeat' split at h
  all_goals
    cases h
  all_goals decide

/-- **A page is duplicated into zeroed pages.** -/
theorem duplicates_onePage : ∃ new mem' rest,
    duplicateFrom 0x1000 ⟨onePage, fivePages.pages⟩ = .ok (new, ⟨mem', rest⟩) ∧
      Duplicates onePage 0x1000 mem' new := by
  have hfree : ∀ p ∈ fivePages.pages, 0x10000 ≤ p.toNat := by
    simp only [fivePages, forall_mem_cons, not_mem_nil, false_implies, implies_true, and_true]
    decide
  have hzero : ∀ p ∈ fivePages.pages, ∀ i, onePage p i = 0 := by
    simp only [fivePages, forall_mem_cons, onePage]
    simp
  refine (duplicates_iff ?_ (by decide +kernel)).2 ⟨?_, ?_⟩ onePage (.refl _ _)
  · intro vaddr hv path hpath p es hp hmem
    have := trace_mem (S := fun p => p.toNat < 0x10000) (fun _ _ _ => next_onePage) (by decide) hp
    have := hfree p hmem
    omega
  · intro level table new hmem i hi hnull
    rw [hzero new (of_mem_zip hmem).2 i]
    rfl
  · intro vaddr hge hv
    have hindex := indices_eq vaddr
    have hentry : onePage 0x1000 (vaddr / 549755813888 % 512) = 0 := by
      rw [userEnd] at hv
      have hlow : vaddr / 549755813888 % 512 ≠ 511 := by omega
      have hne : vaddr / 549755813888 % 512 ≠ 0 := by omega
      simp [onePage, hlow, hne]
    rw [mapping, hindex, trace_cons_of_none (next_of_isNull (by rw [hentry]; rfl)), map_none]

/-- The content of memory where a free page holds an entry that leads to
itself. -/
def leftover : Words := fun p i => if p = 0x10000 ∧ i = 0 then 0x10007 else 0

/-- **What a free page held is mapped in the copy.** The original maps
nothing. -/
theorem not_duplicates_leftover : ∃ new mem' rest,
    duplicateFrom 0x1000 ⟨leftover, [0x10000]⟩ = .ok (new, ⟨mem', rest⟩) ∧
      mapping leftover 0x1000 0 = none ∧ (mapping mem' new 0).isSome = true ∧
      ¬ Duplicates leftover 0x1000 mem' new := by
  have hrun : (duplicateFrom 0x1000 ⟨leftover, [0x10000]⟩).toOption.map
      (fun r => (mapping r.2.mem r.1 0).isSome) = some true := by decide +kernel
  have hnone : mapping leftover 0x1000 0 = none := by decide +kernel
  obtain ⟨⟨new, mem', rest⟩, hr, hsome⟩ := map_eq_some_iff.1 hrun
  refine ⟨new, mem', rest, eq_ok_of_toOption hr, hnone, hsome, fun h => ?_⟩
  have hmaps := (h.maps 0 (by decide)).1 hsome
  cases hmaps

end Archives.Kerla.PageTable
