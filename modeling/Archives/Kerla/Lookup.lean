import Archives.Common.Except
import Archives.Kerla.Model.Path
/-!
# Kerla — which absolute paths are resolved from the root

`Path::is_absolute` does not look at the first character alone: a
component `.`, `..` or an empty one makes it false, and such a path is
resolved from the working directory, such a link target from the
directory of the link. `respected_iff` shows that these are exactly the
strings that go wrong, in either role.
-/

namespace Archives.Kerla.RootFs

open List (cons_append length_append length_cons length_replicate mem_cons_of_mem mem_cons_self
  replicate_succ)
open Archives.Kerla.Path Nat

variable {fs : RootFs} {s name : Str}

/-! ## Trimming -/

theorem new_of_ne (h : s ≠ ['/']) : (new s).path = trimEnd s := by
  simp [new, h]

/-- Trimming does not change the first character of what is left. -/
theorem startsWithSlash_new (h : (new s).isEmpty = false) :
    startsWithSlash (new s).path = startsWithSlash s := by
  by_cases hs : s = ['/']
  · subst hs
    rfl
  · rw [isEmpty, new_of_ne hs] at h
    rw [new_of_ne hs]
    obtain ⟨rest, hrest⟩ : trimEnd s <+: s := List.rdropWhile_prefix _ _
    cases htrim : trimEnd s with
    | nil => simp [htrim] at h
    | cons c cs =>
      rw [htrim] at hrest
      rw [← hrest]
      rfl

/-- On plain strings the test of the source and the first character
agree. -/
theorem isAbsolute_of_plain (hs : Plain s) (hne : (new s).isEmpty = false) :
    (new s).isAbsolute = startsWithSlash (new s).path := by
  cases hslash : startsWithSlash (new s).path with
  | false =>
    rw [isAbsolute, hslash, Bool.false_and]
  | true =>
    rw [startsWithSlash_new hne] at hslash
    exact (hs hslash).resolve_left (by simp [hne])

/-! ## Plain strings are resolved from the root -/

/-- The empty path is an error from everywhere. -/
theorem doLookupPath_of_isEmpty {absolute : Path → Bool} {followSymlink : Bool} {limit : Nat}
    {lookupFrom : PathComponent} {p : Path} (h : p.isEmpty = true) :
    fs.doLookupPath absolute followSymlink limit lookupFrom p = .error .enoent := by
  cases limit <;> simp [doLookupPath, h]

/-- Other paths are walked along their components, in some way of
following links. -/
theorem doLookupPath_of_not_isEmpty (fs : RootFs) {p : Path} (absolute : Path → Bool)
    (followSymlink : Bool) (limit : Nat) (lookupFrom : PathComponent) (h : p.isEmpty = false) :
    ∃ resolve, fs.doLookupPath absolute followSymlink limit lookupFrom p =
      fs.walk absolute followSymlink resolve lookupFrom p.components := by
  cases limit with
  | zero => exact ⟨none, by simp [doLookupPath, h]⟩
  | succ limit =>
    exact ⟨some (fs.doLookupPath absolute followSymlink limit), by simp [doLookupPath, h]⟩

/-- Two walks agree where they follow links alike. By induction on the
components. -/
theorem walk_congr {a₁ a₂ : Path → Bool} {followSymlink : Bool}
    {r₁ r₂ : Option (PathComponent → Path → Except Errno PathComponent)}
    (h : ∀ parent l, follow fs a₁ r₁ parent l = follow fs a₂ r₂ parent l)
    (parent : PathComponent) (names : List Str) :
    fs.walk a₁ followSymlink r₁ parent names = fs.walk a₂ followSymlink r₂ parent names := by
  induction names generalizing parent with
  | nil => rfl
  | cons name rest ih => simp only [walk, h, ih]

/-- **Two tests that agree on the link targets resolve alike.** By
induction on the number of links that may still be followed. -/
theorem doLookupPath_congr {a₁ a₂ : Path → Bool}
    (h : ∀ l s, fs.linkedTo l = .ok s → (new s).isEmpty = false →
      a₁ (.new s) = a₂ (.new s)) (followSymlink : Bool) (limit : Nat)
    (lookupFrom : PathComponent) (p : Path) : fs.doLookupPath a₁ followSymlink limit lookupFrom p =
      fs.doLookupPath a₂ followSymlink limit lookupFrom p := by
  induction limit generalizing lookupFrom p with
  | zero =>
    have hfollow : ∀ parent l, follow fs a₁ none parent l = follow fs a₂ none parent l :=
      fun _ _ => rfl
    simp only [doLookupPath, walk_congr hfollow]
  | succ limit ih =>
    have hfollow : ∀ parent l,
        follow fs a₁ (some (fs.doLookupPath a₁ followSymlink limit)) parent l =
          follow fs a₂ (some (fs.doLookupPath a₂ followSymlink limit)) parent l := by
      intro parent l
      simp only [follow]
      rcases hl : fs.linkedTo l with e | s
      · rfl
      · simp only [ok_bind, ih]
        cases hempty : (new s).isEmpty with
        | true => rw [doLookupPath_of_isEmpty hempty, doLookupPath_of_isEmpty hempty]
        | false => rw [h l s hl hempty]
    simp only [doLookupPath, walk_congr hfollow]

/-- **Plain paths over plain targets.** -/
theorem lookupPath_of_plain (hfs : ∀ l s, fs.linkedTo l = .ok s → Plain s) (hs : Plain s)
    (hslash : startsWithSlash s = true) (cwd : PathComponent) (followSymlink : Bool) :
    fs.lookupPath cwd (.new s) followSymlink = fs.lookupFromRoot (.new s) followSymlink := by
  cases hempty : (new s).isEmpty with
  | true =>
    rw [lookupPath, lookupFromRoot, doLookupPath_of_isEmpty hempty, doLookupPath_of_isEmpty hempty]
  | false =>
    have habs : (new s).isAbsolute = true := by
      rw [isAbsolute_of_plain hs hempty, startsWithSlash_new hempty, hslash]
    rw [lookupPath, lookupFromRoot, if_pos habs]
    exact doLookupPath_congr (fun l s hl hne => isAbsolute_of_plain (hfs l s hl) hne)
      followSymlink _ _ _

/-! ## Joining names -/

/-- A name without slashes, as a component. -/
structure IsName (name : Str) : Prop where
  ne_nil : name ≠ []
  noSlash : '/' ∉ name

theorem next_append (h : IsName name) (rest : Str) :
    next (name ++ '/' :: rest) = some (name, rest) := by
  have hpos : ∀ c ∈ name, decide (c ≠ '/') = true := by
    intro c hc
    exact decide_eq_true fun hcs => h.noSlash (hcs ▸ hc)
  rw [next, if_neg (by simp), List.takeWhile_append_of_pos hpos, List.dropWhile_append_of_pos hpos]
  simp

theorem next_name (h : IsName name) : next name = some (name, []) := by
  have hpos : ∀ c ∈ name, decide (c ≠ '/') = true := by
    intro c hc
    exact decide_eq_true fun hcs => h.noSlash (hcs ▸ hc)
  rw [next, if_neg (by simpa using h.ne_nil), List.takeWhile_eq_self_iff.2 hpos,
    List.dropWhile_eq_nil_iff.2 hpos]
  rfl

/-- The names of a path, a slash before each. -/
def joined (names : List Str) : Str := names.flatMap ('/' :: ·)

/-- Joined names are cut into the names again. -/
theorem collect_joined (name : Str) (names : List Str) (h : ∀ x ∈ name :: names, IsName x)
    (n : Nat) (hn : names.length < n) : collect n (name ++ joined names) = name :: names := by
  induction names generalizing name n with
  | nil =>
    obtain ⟨n, rfl⟩ := exists_eq_succ_of_ne_zero (ne_of_gt hn)
    simp only [joined, List.flatMap_nil, List.append_nil, collect,
      next_name (h name mem_cons_self)]
    cases n <;> simp [collect, next]
  | cons name' names ih =>
    obtain ⟨n, rfl⟩ := exists_eq_succ_of_ne_zero (ne_of_gt (zero_lt_of_lt hn))
    simp only [length_cons, succ_eq_add_one] at hn
    have hjoin : joined (name' :: names) = '/' :: (name' ++ joined names) := rfl
    rw [hjoin, collect, next_append (h name mem_cons_self)]
    simp only
    rw [ih name' (fun x hx => h x (mem_cons_of_mem _ hx)) n (by omega)]

/-- Joined names end with the last of them. -/
theorem exists_joined_eq (name : Str) (names : List Str) (h : ∀ x ∈ name :: names, IsName x) :
    ∃ pre x, joined (name :: names) = pre ++ x ∧ IsName x := by
  induction names generalizing name with
  | nil => exact ⟨['/'], name, by simp [joined], h name mem_cons_self⟩
  | cons name' names ih =>
    obtain ⟨pre, x, hx, hname⟩ := ih name' fun y hy => h y (mem_cons_of_mem _ hy)
    have hjoin : joined (name :: name' :: names) = '/' :: name ++ joined (name' :: names) := rfl
    exact ⟨'/' :: name ++ pre, x, by rw [hjoin, hx, List.append_assoc], hname⟩

/-- There is nothing to trim from joined names. -/
theorem new_joined (name : Str) (names : List Str) (h : ∀ x ∈ name :: names, IsName x) :
    (new (joined (name :: names))).path = joined (name :: names) := by
  have hne : joined (name :: names) ≠ ['/'] := by
    intro heq
    have hlen := congrArg List.length heq
    have := List.length_pos_iff.2 (h name mem_cons_self).ne_nil
    simp only [joined, List.flatMap_cons, cons_append, length_cons, length_append,
      List.length_nil] at hlen
    omega
  obtain ⟨pre, x, hx, hname⟩ := exists_joined_eq name names h
  rw [new_of_ne hne, hx, trimEnd, List.rdropWhile_eq_self_iff]
  intro hl hlast
  rw [List.getLast_append_of_ne_nil _ hname.ne_nil, beq_iff_eq] at hlast
  exact hname.noSlash (hlast ▸ List.getLast_mem _)

theorem length_le_length_joined (names : List Str) : names.length ≤ (joined names).length := by
  induction names with
  | nil => exact le_refl 0
  | cons name names ih =>
    have hjoin : joined (name :: names) = '/' :: name ++ joined names := rfl
    rw [hjoin, length_append, length_cons, length_cons]
    omega

theorem components_joined (name : Str) (names : List Str) (h : ∀ x ∈ name :: names, IsName x) :
    (new (joined (name :: names))).components = name :: names := by
  have hcons : joined (name :: names) = '/' :: (name ++ joined names) := rfl
  have hlen : names.length < (name ++ joined names).length := by
    have hpos := List.length_pos_iff.2 (h name mem_cons_self).ne_nil
    have hjoin := length_le_length_joined names
    rw [length_append]
    omega
  rw [components, new_joined name names h, hcons]
  exact collect_joined name names h _ hlen

/-! ## A tree that tells where a resolution started

Two colours of directories: below the root everything has colour 0,
except what is reached through the name `down`, which has colour 1 and
stays so. In colour 1 the name `link` is a link. Both names are too long
to be a component of a string of at most `n` characters. -/

/-- The name that leads from colour 0 to colour 1. -/
def down (n : Nat) : Str := List.replicate (n + 1) 'a'

/-- The name of the link. -/
def link (n : Nat) : Str := List.replicate (n + 2) 'a'

/-- The tree, with the target of its link. -/
def coloured (n : Nat) (target : Except Errno Str) : RootFs where
  lookup := fun d name =>
    if d = 0 then if name = down n then .ok (.directory 1) else .ok (.directory 0)
    else if name = link n then .ok (.symlink 0) else .ok (.directory 1)
  inodeNo := fun d => .ok d
  linkedTo := fun _ => target
  mountPoints := fun _ => none
  rootPath := .root [] (.directory 0)
  symlinkFollowLimit := defaultSymlinkFollowMax

variable {n m : Nat} {target : Except Errno Str} {absolute : Path → Bool} {followSymlink : Bool}
  {resolve : Option (PathComponent → Path → Except Errno PathComponent)}
  {comp parent : PathComponent} {names : List Str}

/-- A component of colour 1 whose next `m` ancestors have colour 1. -/
def Deep : Nat → PathComponent → Prop
  | 0, comp => comp.inode = .directory 1
  | m + 1, comp => comp.inode = .directory 1 ∧
      ∃ parent, comp.parentDir = some parent ∧ Deep m parent

theorem Deep.inode (h : Deep m comp) : comp.inode = .directory 1 := by
  cases m with
  | zero => exact h
  | succ m => exact h.1

theorem Deep.pred (h : Deep (m + 1) comp) : Deep m comp := by
  induction m generalizing comp with
  | zero => exact h.1
  | succ m ih =>
    obtain ⟨hi, parent, hp, hd⟩ := h
    exact ⟨hi, parent, hp, ih hd⟩

theorem Deep.mono (h : Deep m comp) (hle : n ≤ m) : Deep n comp := by
  induction hle with
  | refl => exact h
  | step _ ih => exact ih h.pred

/-- A component that has colour 0 with all its ancestors. -/
def Shallow : PathComponent → Prop
  | .root _ inode => inode = .directory 0
  | .child parent _ inode => inode = .directory 0 ∧ Shallow parent

theorem Shallow.inode (h : Shallow comp) : comp.inode = .directory 0 := by
  cases comp with
  | root _ _ => exact h
  | child _ _ _ => exact h.1

/-- What is short is neither of the two names. -/
theorem ne_of_length_le (h : name.length ≤ n) : name ≠ down n ∧ name ≠ link n := by
  constructor
  · rintro rfl
    simp only [down, length_replicate] at h
    omega
  · rintro rfl
    simp only [link, length_replicate] at h
    omega

/-- A short name leads from colour 1 to colour 1, and `..` to the next
ancestor. -/
theorem entry_of_deep (hd : Deep (m + 1) parent) (hname : name.length ≤ n) :
    ∃ comp, (coloured n target).entry parent name = .ok comp ∧ Deep m comp := by
  by_cases hdots : name = dotDot
  · obtain ⟨-, up, hup, hdup⟩ := hd
    exact ⟨up, by simp [entry, hdots, hup, pure, Except.pure], hdup⟩
  · refine ⟨.child parent name (.directory 1), ?_, .pred ⟨rfl, parent, rfl, hd.pred⟩⟩
    simp [entry, hdots, hd.inode, coloured, (ne_of_length_le hname).2, throughMount, bind,
      Except.bind, pure, Except.pure]

theorem entry_of_shallow (hs : Shallow parent) (hname : name.length ≤ n) :
    ∃ comp, (coloured n target).entry parent name = .ok comp ∧ Shallow comp := by
  by_cases hdots : name = dotDot
  · refine ⟨parent.parentDir.getD (coloured n target).rootPath, ?_, ?_⟩
    · simp [entry, hdots, pure, Except.pure]
    · cases parent with
      | root _ _ => exact rfl
      | child _ _ _ => exact hs.2
  · refine ⟨.child parent name (.directory 0), ?_, rfl, hs⟩
    simp [entry, hdots, hs.inode, coloured, (ne_of_length_le hname).1, throughMount, bind,
      Except.bind, pure, Except.pure]

/-- **A short path stays in a colour** that every short name keeps. By
induction on the components. -/
theorem walk_of_stays {P : Nat → PathComponent → Prop} {colour : Nat}
    (hinode : ∀ {m comp}, P m comp → comp.inode = .directory colour)
    (hpred : ∀ {m comp}, P (m + 1) comp → P m comp)
    (hentry : ∀ {m parent name}, P (m + 1) parent → name.length ≤ n →
      ∃ comp, (coloured n target).entry parent name = .ok comp ∧ P m comp)
    (h : P names.length parent) (hnames : ∀ name ∈ names, name.length ≤ n) :
    ∃ r, (coloured n target).walk absolute followSymlink resolve parent names = .ok r ∧
      r.inode = .directory colour := by
  induction names generalizing parent with
  | nil => exact ⟨parent, rfl, hinode h⟩
  | cons name rest ih =>
    have hrest : ∀ x ∈ rest, x.length ≤ n := fun x hx => hnames x (mem_cons_of_mem _ hx)
    by_cases hdot : name = dot
    · simp only [walk, hdot, if_true]
      exact ih (hpred h) hrest
    · obtain ⟨comp, hcomp, hstays⟩ := hentry h (hnames name mem_cons_self)
      simp only [walk, hdot, if_false, hcomp, ok_bind, hinode hstays]
      split
      · exact ih hstays hrest
      · exact ⟨comp, rfl, hinode hstays⟩

/-! ### Going deep -/

/-- The component reached from the root by `down`, `k` times. -/
def tower (n : Nat) : Nat → PathComponent
  | 0 => .root [] (.directory 0)
  | k + 1 => .child (tower n k) (down n) (.directory 1)

theorem deep_tower (n k : Nat) : Deep k (tower n (k + 1)) := by
  induction k with
  | zero => rfl
  | succ k ih => exact ⟨rfl, tower n (k + 1), rfl, ih⟩

theorem isName_down (n : Nat) : IsName (down n) := ⟨by simp [down], by simp [down]⟩

theorem isName_link (n : Nat) : IsName (link n) := ⟨by simp [link], by simp [link]⟩

theorem down_ne_link (n : Nat) : down n ≠ link n := by
  intro h
  have := congrArg List.length h
  simp only [down, link, length_replicate] at this
  omega

/-- A name of `a`s is not a dot, nor two. -/
theorem replicate_ne_dots (n : Nat) :
    .replicate (n + 1) 'a' ≠ dot ∧ .replicate (n + 1) 'a' ≠ dotDot := by
  constructor <;> simp [dot, dotDot, replicate_succ]

theorem entry_tower (n k : Nat) :
    (coloured n target).entry (tower n k) (down n) = .ok (tower n (k + 1)) := by
  have hdots : down n ≠ dotDot := (replicate_ne_dots n).2
  cases k with
  | zero =>
    simp [entry, hdots, tower, PathComponent.inode, coloured, throughMount, bind, Except.bind,
      pure, Except.pure]
  | succ k =>
    simp [entry, hdots, tower, PathComponent.inode, coloured, down_ne_link, throughMount, bind,
      Except.bind, pure, Except.pure]

/-- Walking down the tower, whatever follows. -/
theorem walk_tower (n : Nat) (target : Except Errno Str) (absolute : Path → Bool)
    (followSymlink : Bool)
    (resolve : Option (PathComponent → Path → Except Errno PathComponent)) (j k : Nat)
    (rest : List Str) : (coloured n target).walk absolute followSymlink resolve (tower n j)
        (.replicate k (down n) ++ rest) =
      (coloured n target).walk absolute followSymlink resolve (tower n (j + k)) rest := by
  induction k generalizing j with
  | zero => rfl
  | succ k ih =>
    have hdot : down n ≠ dot := (replicate_ne_dots n).1
    have hsum : j + (k + 1) = j + 1 + k := by omega
    rw [replicate_succ, cons_append, walk, if_neg hdot, entry_tower, ok_bind, hsum, ← ih (j + 1)]
    simp only [tower, PathComponent.inode]
    split
    · rfl
    next h =>
      obtain ⟨hk, hrest⟩ := List.append_eq_nil_iff.1 (not_not.1 h)
      simp [hk, hrest, walk]

/-! ### Strings are short for themselves -/

theorem length_new_le (s : Str) : (new s).path.length ≤ s.length := by
  by_cases hs : s = ['/']
  · subst hs
    decide
  · rw [new_of_ne hs]
    exact List.IsPrefix.length_le <| List.rdropWhile_prefix _ _

theorem length_collect_le (n : Nat) (s : Str) : (collect n s).length ≤ n := by
  induction n generalizing s with
  | zero => simp [collect]
  | succ n ih =>
    simp only [collect]
    split
    · simp
    next name rest _ =>
      have := ih rest
      simp only [length_cons]
      omega

/-- A component is what stands before the first slash of a rest of the
string. By induction on the iterator. -/
theorem exists_of_mem_collect {n : Nat} {s : Str} (h : name ∈ collect n s) :
    ∃ t : Str, t.length ≤ s.length ∧ name = t.takeWhile (· ≠ '/') := by
  induction n generalizing s with
  | zero => simp [collect] at h
  | succ n ih =>
    simp only [collect] at h
    split at h
    · simp at h
    next name' rest hnext =>
      simp only [next] at hnext
      split at hnext
      · cases hnext
      · simp only [Option.some.injEq, Prod.mk.injEq] at hnext
        rcases List.mem_cons.1 h with rfl | h
        · exact ⟨s, le_rfl, hnext.1.symm⟩
        · obtain ⟨t, hlen, rfl⟩ := ih h
          refine ⟨t, hlen.trans ?_, rfl⟩
          rw [← hnext.2, List.length_drop]
          have := (List.dropWhile_suffix (fun c => decide (c ≠ '/')) (l := s)).length_le
          omega

theorem length_le_of_mem_collect {n : Nat} {s : Str} (h : name ∈ collect n s) :
    name.length ≤ s.length := by
  obtain ⟨t, hlen, rfl⟩ := exists_of_mem_collect h
  have hle := List.IsPrefix.length_le <| List.takeWhile_prefix (l := t) (· ≠ '/')
  exact hle.trans hlen

/-- The components of a string are no more and no longer than it has
characters. -/
theorem components_new_le (s : Str) : (new s).components.length ≤ s.length ∧
    ∀ name ∈ (new s).components, name.length ≤ s.length := by
  have hlen : ((if startsWithSlash (new s).path then (new s).path.drop 1
      else (new s).path) : Str).length ≤ s.length := by
    have := length_new_le s
    split
    · rw [List.length_drop]
      omega
    · exact this
  exact ⟨(length_collect_le _ _).trans hlen, fun name h => (length_le_of_mem_collect h).trans hlen⟩

/-! ## The strings that go wrong -/

/-- A string that starts with a slash and is not plain: there is
something to resolve, and the source does not take it for absolute. -/
theorem of_not_plain (h : ¬ Plain s) : startsWithSlash s = true ∧ (new s).isEmpty = false ∧
    (new s).isAbsolute = false := by
  simpa [Plain] using h

/-- From the top of a high tower such a string stays in colour 1. -/
theorem lookup_of_tower (followSymlink : Bool) (limit : Nat) (absolute : Path → Bool)
    (h : (new s).isEmpty = false) :
    ∃ r, (coloured s.length target).doLookupPath absolute followSymlink limit
        (tower s.length (s.length + 1)) (.new s) = .ok r ∧ r.inode = .directory 1 := by
  obtain ⟨resolve, hr⟩ := doLookupPath_of_not_isEmpty (coloured s.length target) absolute
    followSymlink limit (tower s.length (s.length + 1)) h
  obtain ⟨hlen, hnames⟩ := components_new_le s
  rw [hr]
  -- each `..` climbs one ancestor only
  exact walk_of_stays (P := Deep) Deep.inode Deep.pred entry_of_deep ((deep_tower _ _).mono hlen)
    hnames

/-- From the root it stays in colour 0. -/
theorem lookup_of_root (followSymlink : Bool) (limit : Nat) (absolute : Path → Bool)
    (h : (new s).isEmpty = false) :
    ∃ r, (coloured s.length target).doLookupPath absolute followSymlink limit
        (coloured s.length target).rootPath (.new s) = .ok r ∧ r.inode = .directory 0 := by
  obtain ⟨resolve, hr⟩ := doLookupPath_of_not_isEmpty (coloured s.length target) absolute
    followSymlink limit (coloured s.length target).rootPath h
  rw [hr]
  exact walk_of_stays (P := fun _ => Shallow) Shallow.inode id entry_of_shallow rfl
    (components_new_le s).2

/-- The two colours are different results. -/
theorem ne_of_colours {r₀ r₁ : Except Errno PathComponent}
    (h₀ : ∃ r, r₀ = .ok r ∧ r.inode = .directory 0)
    (h₁ : ∃ r, r₁ = .ok r ∧ r.inode = .directory 1) : r₁ ≠ r₀ := by
  rintro rfl
  obtain ⟨r, hr, hi⟩ := h₀
  obtain ⟨r', hr', hi'⟩ := h₁
  rw [hr, Except.ok.injEq] at hr'
  subst hr'
  simp [hi] at hi'

/-- The path down the tower and on along more names. -/
def downPath (n k : Nat) (names : List Str) : Str :=
  joined (List.replicate (k + 1) (down n) ++ names)

theorem isName_downPath (hnames : ∀ x ∈ names, IsName x) (k : Nat) :
    ∀ x ∈ down n :: (.replicate k (down n) ++ names), IsName x := by
  intro x hx
  rw [← cons_append, ← replicate_succ] at hx
  rcases List.mem_append.1 hx with hx | hx
  · rw [(List.mem_replicate.1 hx).2]
    exact isName_down n
  · exact hnames x hx

/-- Looking such a path up walks down the tower first. -/
theorem lookup_downPath (hnames : ∀ x ∈ names, IsName x) (target : Except Errno Str) (k limit : Nat)
    (absolute : Path → Bool) (followSymlink : Bool) :
    (coloured n target).doLookupPath absolute followSymlink (limit + 1)
        (coloured n target).rootPath (.new (downPath n k names)) =
      (coloured n target).walk absolute followSymlink
        (some ((coloured n target).doLookupPath absolute followSymlink limit))
        (tower n (k + 1)) names := by
  have hall := isName_downPath (n := n) hnames k
  have hne : (new (joined (down n :: (List.replicate k (down n) ++ names)))).isEmpty = false := by
    rw [isEmpty, new_joined _ _ hall]
    rfl
  rw [downPath, replicate_succ, cons_append, doLookupPath, if_neg (by simp [hne]),
    components_joined _ _ hall, ← cons_append, ← replicate_succ]
  have hwalk := walk_tower n target absolute followSymlink
    (some ((coloured n target).doLookupPath absolute followSymlink limit)) 0 (k + 1) names
  rw [Nat.zero_add] at hwalk
  exact hwalk

/-- The tower is a working directory. -/
theorem cwd_tower (n k : Nat) (target : Except Errno Str) :
    (coloured n target).Cwd (tower n (k + 1)) := by
  have hcd : (coloured n target).lookupPath (coloured n target).rootPath
      (.new (downPath n k [])) true = .ok (tower n (k + 1)) := by
    rw [lookupPath, ite_self]
    exact lookup_downPath (by simp) target k 7 isAbsolute true
  exact .chdir .root hcd

/-- **A path that is not plain depends on the working directory.** -/
theorem not_pathRespected (h : ¬ Plain s) : ¬ PathRespected s := by
  intro hresp
  obtain ⟨-, hne, habs⟩ := of_not_plain h
  have hplain : (coloured s.length (.error .enoent)).PlainTargets := by
    nofun
  have heq := (hresp (coloured s.length (.error .enoent)) hplain _ .root true).1 _
    (cwd_tower s.length s.length _)
  simp only [lookupPath, habs, Bool.false_eq_true, if_false] at heq
  exact ne_of_colours (lookup_of_root true _ isAbsolute hne) (lookup_of_tower true _ isAbsolute hne)
    heq

/-- The path to the link on top of the tower is plain. -/
theorem isAbsolute_downPath_link (n k : Nat) : (new (downPath n k [link n])).isAbsolute = true := by
  have hlink : ∀ x ∈ [link n], IsName x := by simp [isName_link]
  have hall := isName_downPath (n := n) hlink k
  have hcomp := components_joined _ _ hall
  have hpath := new_joined _ _ hall
  rw [← cons_append, ← replicate_succ] at hcomp hpath
  rw [isAbsolute, downPath, hcomp, hpath, Bool.and_eq_true]
  refine ⟨rfl, ?_⟩
  simp only [Bool.not_eq_true', List.any_eq_false, Bool.or_eq_true, beq_iff_eq, not_or]
  intro x hx
  rcases List.mem_append.1 hx with hx | hx
  · rw [(List.mem_replicate.1 hx).2]
    exact ⟨⟨(replicate_ne_dots n).2, (replicate_ne_dots n).1⟩, (isName_down n).ne_nil⟩
  · rw [List.mem_singleton.1 hx]
    exact ⟨⟨(replicate_ne_dots (n + 1)).2, (replicate_ne_dots (n + 1)).1⟩, (isName_link n).ne_nil⟩

/-- On top of the tower the link is found, and followed. -/
theorem walk_link (n k : Nat) (t : Str) (absolute : Path → Bool)
    (resolve : PathComponent → Path → Except Errno PathComponent) :
    (coloured n (.ok t)).walk absolute true (some resolve) (tower n (k + 1)) [link n] =
      resolve (if absolute (.new t) then (coloured n (.ok t)).rootPath
        else tower n (k + 1)) (.new t) := by
  have hdots : link n ≠ dotDot := (replicate_ne_dots (n + 1)).2
  have hdot : link n ≠ dot := (replicate_ne_dots (n + 1)).1
  have hentry : (coloured n (.ok t)).entry (tower n (k + 1)) (link n) =
      .ok (.child (tower n (k + 1)) (link n) (.symlink 0)) := by
    simp [entry, hdots, tower, PathComponent.inode, coloured, throughMount, bind, Except.bind,
      pure, Except.pure]
  rw [walk, if_neg hdot, hentry]
  rfl

/-- **A link target that is not plain is not resolved from the root.** -/
theorem not_targetRespected (h : ¬ Plain s) : ¬ TargetRespected s := by
  intro hresp
  obtain ⟨hslash, hne, habs⟩ := of_not_plain h
  have hlink : ∀ x ∈ [link s.length], IsName x := by simp [isName_link]
  have hpath := isAbsolute_downPath_link s.length s.length
  have heq := hresp (coloured s.length (.ok s)) (fun l t ht => .inl (by cases ht; rfl))
    _ .root true (downPath s.length s.length [link s.length]) rfl fun _ => .inr hpath
  rw [lookupPath, lookupFromRoot, if_pos hpath] at heq
  have hcode := lookup_downPath (n := s.length) hlink (.ok s) s.length 7 isAbsolute true
  have hspec := lookup_downPath (n := s.length) hlink (.ok s) s.length 7
    (fun p => startsWithSlash p.path) true
  rw [walk_link, habs, if_neg Bool.false_ne_true] at hcode
  rw [walk_link, startsWithSlash_new hne, hslash, if_pos rfl] at hspec
  exact ne_of_colours (lookup_of_root true 7 _ hne) (lookup_of_tower true 7 isAbsolute hne)
    (hcode.symm.trans (heq.trans hspec))

/-- **Which absolute strings are respected.** A path that starts with a
slash is resolved from the root, independently of the working directory,
exactly if it is plain; and so is a link target. -/
theorem respected_iff (cs : Str) : (PathRespected ('/' :: cs) ↔ Plain ('/' :: cs)) ∧
      (TargetRespected ('/' :: cs) ↔ Plain ('/' :: cs)) := by
  refine ⟨⟨fun h => by_contra fun hn => not_pathRespected hn h, fun hs => ?_⟩,
    fun h => by_contra fun hn => not_targetRespected hn h, fun ht => ?_⟩
  · intro fs hfs cwd _ followSymlink
    have hroot := lookupPath_of_plain hfs hs rfl
    exact ⟨fun cwd' _ => (hroot cwd' followSymlink).trans (hroot cwd followSymlink).symm,
      hroot cwd followSymlink⟩
  · intro fs hfs cwd _ followSymlink s hslash hs
    refine lookupPath_of_plain (fun l t hl => ?_) hs hslash cwd followSymlink
    rcases hfs l t hl with rfl | h
    · exact ht
    · exact h

/-! ## A path with a dot -/

/-- A root directory with one subdirectory, `a`. -/
def oneDirectory : RootFs where
  lookup := fun d name =>
    if d = 0 ∧ name = ['a'] then .ok (.directory 1) else .error .enoent
  inodeNo := fun d => .ok d
  linkedTo := fun _ => .error .eio
  mountPoints := fun _ => none
  rootPath := .root [] (.directory 0)
  symlinkFollowLimit := defaultSymlinkFollowMax

/-- **`/.` is the working directory.** After `chdir("/a")` the path `/.`
leads to `/a`, from the root it leads to the root. -/
theorem lookup_slash_dot_depends_on_cwd : ∃ cwd, oneDirectory.Cwd cwd ∧
      oneDirectory.lookupPath cwd (new ['/', '.']) true = .ok cwd ∧
      oneDirectory.lookupPath oneDirectory.rootPath (new ['/', '.']) true =
        .ok oneDirectory.rootPath ∧ cwd ≠ oneDirectory.rootPath := by
  refine ⟨.child (.root [] (.directory 0)) ['a'] (.directory 1), ?_, ?_, ?_, ?_⟩
  · exact .chdir .root (show oneDirectory.lookupPath _ (.new ['/', 'a']) true = _ by rfl)
  · rfl
  · rfl
  · simp [oneDirectory]

end Archives.Kerla.RootFs
