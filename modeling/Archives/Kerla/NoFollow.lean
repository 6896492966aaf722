import Archives.Common.Except
import Archives.Kerla.Model.Path
/-!
# Kerla — lookups that leave the last link

`lookup_no_symlink_follow` should follow every link but the last. The
links on the way are followed by the function itself, with the flag of
the caller: of a link that leads to a link only the first is followed,
and what it leads to is not a directory. `Straight` are the links that
do not; the lookup is right when all links on the way are straight, and
only then.
-/

namespace Archives.Kerla.RootFs

open Archives.Kerla.Path Except List

variable (fs : RootFs)

/-- `RootFs::lookup_no_symlink_follow` with the working directory `cwd`. -/
def lookupNoSymlinkFollow (cwd : PathComponent) (path : Path) : Except Errno INode := do
  let comp ← fs.lookupPath cwd path false
  pure comp.inode

/-- How links are resolved when `n` of them may be followed. -/
def resolver (followSymlink : Bool) :
    Nat → Option (PathComponent → Path → Except Errno PathComponent)
  | 0 => none
  | n + 1 => some (fs.doLookupPath isAbsolute followSymlink n)

/-- Where some names lead when all links on the way are followed, and
the last one if it is asked for. -/
def reach (followLast : Bool) (n : Nat) (parent : PathComponent)
    (names : List Str) : Except Errno PathComponent :=
  fs.walk isAbsolute followLast (fs.resolver true n) parent names

/-- Where the lookup of a path begins, or of a link in `parent`. -/
def start (parent : PathComponent) (path : Path) : PathComponent :=
  if path.isAbsolute then fs.rootPath else parent

section Straight

variable (fs : RootFs) (n : Nat) (straight : PathComponent → Nat → Prop)

/-- The links along some names, but for the last name, are straight. -/
def StraightWay : PathComponent → List Str → Prop
  | _, [] => True
  | parent, name :: rest =>
    if name = dot then StraightWay parent rest
    else rest ≠ [] → ∀ comp, fs.entry parent name = .ok comp →
      match comp.inode with
      | .directory _ => StraightWay comp rest
      | .symlink l => straight parent l ∧
        ∀ dst, follow fs isAbsolute (fs.resolver true n) parent l = .ok dst → StraightWay dst rest
      | .fileLike _ => True

end Straight

/-- **A straight link**, found in `parent`: its target is no link, and the
way to it is straight. -/
def Straight (fs : RootFs) : Nat → PathComponent → Nat → Prop
  | 0, _, _ => True
  | n + 1, parent, l => ∀ s, fs.linkedTo l = .ok s →
    fs.StraightWay n (fs.Straight n) (fs.start parent (new s)) (new s).components ∧
      ∀ comp, fs.reach false n (fs.start parent (new s)) (new s).components = .ok comp →
        ∀ l', comp.inode ≠ .symlink l'

/-! ## One step of the walk -/

section Step

variable {fs : RootFs} {f : Bool} {parent comp dst : PathComponent} {name : Str} {rest : List Str}
  {r : Option (PathComponent → Path → Except Errno PathComponent)} {d l : Nat}

/-- Follows a link to a directory. -/
def followDir (fs : RootFs) (r : Option (PathComponent → Path → Except Errno PathComponent))
    (parent : PathComponent) (l : Nat) : Except Errno PathComponent := do
  let dst ← follow fs isAbsolute r parent l
  match dst.inode with
  | .directory _ => pure dst
  | _ => .error .enotdir

theorem followDir_eq_ok : fs.followDir r parent l = .ok dst ↔
    follow fs isAbsolute r parent l = .ok dst ∧ ∃ d, dst.inode = .directory d := by
  rw [followDir, bind_eq_ok]
  constructor
  · rintro ⟨a, ha, h⟩
    split at h
    next d hd =>
      cases h
      exact ⟨ha, d, hd⟩
    next => cases h
  · rintro ⟨hdst, d, hd⟩
    exact ⟨dst, hdst, by rw [hd]; rfl⟩

theorem walk_dot : fs.walk isAbsolute f r parent (dot :: rest) =
    fs.walk isAbsolute f r parent rest := by
  rw [walk, if_pos rfl]

variable (hname : name ≠ dot) (hcomp : fs.entry parent name = .ok comp)

include hname hcomp

theorem walk_last : fs.walk isAbsolute false r parent [name] = .ok comp := by
  rw [walk, if_neg hname, hcomp, ok_bind, if_neg (by simp)]
  cases comp.inode <;> rfl

variable (hrest : rest ≠ [])

include hrest

theorem walk_directory (hd : comp.inode = .directory d) :
    fs.walk isAbsolute f r parent (name :: rest) = fs.walk isAbsolute f r comp rest := by
  rw [walk, if_neg hname, hcomp, ok_bind, if_pos hrest, hd]

theorem walk_symlink (hl : comp.inode = .symlink l) : fs.walk isAbsolute f r parent (name :: rest) =
      fs.followDir r parent l >>= (fs.walk isAbsolute f r · rest) := by
  rw [walk, if_neg hname, hcomp, ok_bind, if_pos hrest, hl, followDir]
  cases hf : follow fs isAbsolute r parent l with
  | error e => simp only [hf]; rfl
  | ok dst =>
    simp only [hf, ok_bind]
    cases dst.inode <;> rfl

end Step

variable {fs : RootFs} {n : Nat} {parent c dst : PathComponent} {names : List Str}

/-- **Induction along a walk that succeeds**: at an ancestor it goes on
from a directory, the entry or the one a link leads to. -/
@[elab_as_elim]
theorem walk_induction {f : Bool} {r : Option (PathComponent → Path → Except Errno PathComponent)}
    {motive : PathComponent → List Str → Prop} (h : fs.walk isAbsolute f r parent names = .ok c)
    (hnil : motive c []) (hdot : ∀ {parent rest}, motive parent rest → motive parent (dot :: rest))
    (hlast : ∀ {parent name comp}, name ≠ dot → fs.entry parent name = .ok comp →
      fs.walk isAbsolute f r parent [name] = .ok c → motive parent [name])
    (hdirectory : ∀ {parent name comp rest d}, name ≠ dot → fs.entry parent name = .ok comp →
      rest ≠ [] → comp.inode = .directory d → motive comp rest → motive parent (name :: rest))
    (hlink : ∀ {parent name comp rest l dst}, name ≠ dot → fs.entry parent name = .ok comp →
      rest ≠ [] → comp.inode = .symlink l → fs.followDir r parent l = .ok dst → motive dst rest →
      motive parent (name :: rest)) : motive parent names := by
  induction names generalizing parent with
  | nil => exact ok.inj h ▸ hnil
  | cons name rest ih =>
    by_cases hname : name = dot
    · subst hname
      exact hdot (ih (walk_dot ▸ h))
    obtain ⟨comp, hcomp, hstep⟩ := bind_eq_ok.1 ((if_neg hname).symm.trans h)
    by_cases hrest : rest = []
    · subst hrest
      exact hlast hname hcomp h
    cases hinode : comp.inode with
    | directory d =>
      exact hdirectory hname hcomp hrest hinode (ih (walk_directory hname hcomp hrest hinode ▸ h))
    | symlink l =>
      rw [walk_symlink hname hcomp hrest hinode, bind_eq_ok] at h
      obtain ⟨dst, hdst, h⟩ := h
      exact hlink hname hcomp hrest hinode hdst (ih h)
    | fileLike _ =>
      rw [if_pos hrest, hinode] at hstep
      cases hstep

theorem doLookupPath_eq (fs : RootFs) (f : Bool) (n : Nat) (parent : PathComponent) (p : Path) :
    fs.doLookupPath isAbsolute f n parent p = if p.isEmpty then .error .enoent
      else fs.walk isAbsolute f (fs.resolver f n) parent p.components := by
  cases n <;> rfl

/-! ## The way to a directory -/

/-- Without the last link, the names lead to what they lead to with it,
or to a link. -/
theorem exists_reach_false (h : fs.reach true n parent names = .ok dst) :
    ∃ c, fs.reach false n parent names = .ok c ∧ ((∀ l, c.inode ≠ .symlink l) → c = dst) := by
  refine walk_induction h ⟨dst, rfl, fun _ => rfl⟩ ?_ ?_ ?_ ?_
  · intro parent rest ih
    rwa [reach, walk_dot]
  · intro parent name comp hname hcomp h
    refine ⟨comp, walk_last hname hcomp, fun hnot => ?_⟩
    rw [walk, if_neg hname, hcomp, ok_bind, if_neg (by simp)] at h
    split at h
    next hl _ => exact absurd hl (hnot _)
    next => exact ok.inj h
  · intro parent name comp rest d hname hcomp hrest hd ih
    rwa [reach, walk_directory hname hcomp hrest hd]
  · intro parent name comp rest l dir hname hcomp hrest hl hdir ih
    rwa [reach, walk_symlink hname hcomp hrest hl, hdir, ok_bind]

/-- The entry of a directory that some names lead to. -/
theorem reach_append {d : Nat} {x : Str} (h : fs.reach true n parent names = .ok dst)
    (hd : dst.inode = .directory d) (hx : x ≠ dot) (hentry : fs.entry dst x = .ok c) :
    fs.reach false n parent (names ++ [x]) = .ok c := by
  refine walk_induction h (walk_last hx hentry) ?_ ?_ ?_ ?_
  · intro parent rest ih
    rwa [reach, cons_append, walk_dot]
  · intro parent name comp hname hcomp h
    rw [walk, if_neg hname, hcomp, ok_bind, if_neg (by simp)] at h
    cases hinode : comp.inode with
    | directory d =>
      rw [hinode] at h
      cases h
      exact (walk_directory hname hcomp (by simp) hinode).trans (walk_last hx hentry)
    | symlink l =>
      rw [hinode] at h
      refine (walk_symlink hname hcomp (by simp) hinode).trans ?_
      rw [followDir_eq_ok.2 ⟨h, d, hd⟩]
      exact walk_last hx hentry
    | fileLike _ =>
      rw [hinode] at h
      cases h
      cases hinode.symm.trans hd
  · intro parent name comp rest d hname hcomp hrest hd ih
    rwa [reach, cons_append, walk_directory hname hcomp (by simp) hd]
  · intro parent name comp rest l dir hname hcomp hrest hl hdir ih
    rwa [reach, cons_append, walk_symlink hname hcomp (by simp) hl, hdir, ok_bind]

/-- The code does what it should if `P` holds, and else it finds something
that is not a directory. -/
def RightIff (P : Prop) (code : Except Errno PathComponent) (c : PathComponent) : Prop :=
  (P ∧ code = .ok c) ∨ (¬ P ∧ code = .error .enotdir)

/-- Along some names, if the links on the way are followed rightly when
they are straight. -/
theorem rightIff_walk (hfollow : ∀ {parent l dst},
      fs.followDir (fs.resolver true n) parent l = .ok dst →
        RightIff (fs.Straight n parent l) (fs.followDir (fs.resolver false n) parent l) dst)
    (h : fs.reach false n parent names = .ok c) :
    RightIff (fs.StraightWay n (fs.Straight n) parent names)
      (fs.walk isAbsolute false (fs.resolver false n) parent names) c := by
  refine walk_induction h (.inl ⟨trivial, rfl⟩) ?_ ?_ ?_ ?_
  · intro parent rest ih
    rwa [StraightWay, if_pos rfl, walk_dot]
  · intro parent name comp hname hcomp h
    obtain rfl : comp = c := ok.inj ((walk_last hname hcomp).symm.trans h)
    exact .inl ⟨by simp [StraightWay, hname], walk_last hname hcomp⟩
  · intro parent name comp rest d hname hcomp hrest hd ih
    have hway : fs.StraightWay n (fs.Straight n) parent (name :: rest) ↔
        fs.StraightWay n (fs.Straight n) comp rest := by
      simp [StraightWay, hname, hrest, hcomp, hd]
    rwa [hway, walk_directory hname hcomp hrest hd]
  · intro parent name comp rest l dir hname hcomp hrest hl hdir ih
    have hway : fs.StraightWay n (fs.Straight n) parent (name :: rest) ↔
        fs.Straight n parent l ∧ fs.StraightWay n (fs.Straight n) dir rest := by
      simp [StraightWay, hname, hrest, hcomp, hl, (followDir_eq_ok.1 hdir).1]
    rw [hway, walk_symlink hname hcomp hrest hl]
    rcases hfollow hdir with ⟨hs, hcode⟩ | ⟨hs, hcode⟩
    · rwa [hcode, ok_bind, and_iff_right hs]
    · exact .inr ⟨fun h => hs h.1, by rw [hcode]; rfl⟩

/-- **A link to a directory is followed rightly if it is straight**, and
only then. By induction on the number of links that may be followed. -/
theorem rightIff_followDir {l : Nat} (h : fs.followDir (fs.resolver true n) parent l = .ok dst) :
    RightIff (fs.Straight n parent l) (fs.followDir (fs.resolver false n) parent l) dst := by
  induction n generalizing parent l dst with
  | zero => cases h
  | succ n ih =>
    obtain ⟨hfollow, d, hd⟩ := followDir_eq_ok.1 h
    obtain ⟨s, hs, hlookup⟩ := bind_eq_ok.1 hfollow
    rw [doLookupPath_eq] at hlookup
    split at hlookup
    next => cases hlookup
    next hempty =>
      obtain ⟨c, hc, hnot⟩ := exists_reach_false hlookup
      have hcode : follow fs isAbsolute (fs.resolver false (n + 1)) parent l =
          fs.walk isAbsolute false (fs.resolver false n) (fs.start parent (new s))
            (new s).components := by
        refine (congrArg (· >>= _) hs).trans ?_
        exact (doLookupPath_eq ..).trans (if_neg hempty)
      have hstraight : fs.Straight (n + 1) parent l ↔ fs.StraightWay n (fs.Straight n)
          (fs.start parent (new s)) (new s).components ∧
            ∀ l', c.inode ≠ .symlink l' := by
        change fs.reach false n (fs.start parent (new s)) _ = _ at hc
        simp [Straight, hs, hc]
      rw [hstraight, followDir, hcode]
      rcases rightIff_walk ih hc with ⟨hway, hwalk⟩ | ⟨hway, hwalk⟩
      · -- the way is straight; what is at its end decides
        rw [start, hwalk, ok_bind]
        cases hinode : c.inode with
        | directory _ =>
          obtain rfl := hnot fun l hl => by cases hinode.symm.trans hl
          exact .inl ⟨⟨hway, fun _ => INode.noConfusion⟩, rfl⟩
        | symlink l' => exact .inr ⟨fun h => h.2 l' rfl, rfl⟩
        | fileLike _ =>
          obtain rfl := hnot fun l hl => by cases hinode.symm.trans hl
          cases hinode.symm.trans hd
      · exact .inr ⟨fun h => hway h.1, by rw [start, hwalk]; rfl⟩

/-- **Which lookups yield the entry `x`** of the directory that the
components before it lead to: those on whose way every link is
straight. -/
theorem lookupNoSymlinkFollow_iff {cwd dir : PathComponent} {path : Path} {x : Str} {d : Nat}
    (hpath : path.components = names ++ [x]) (hx : x ≠ dot)
    (hdir : fs.reach true fs.symlinkFollowLimit (fs.start cwd path) names = .ok dir)
    (hd : dir.inode = .directory d) (hentry : fs.entry dir x = .ok c) :
    fs.lookupNoSymlinkFollow cwd path = .ok c.inode ↔
      fs.StraightWay fs.symlinkFollowLimit (fs.Straight fs.symlinkFollowLimit)
        (fs.start cwd path) path.components := by
  have hempty : path.isEmpty = false := by
    by_contra hnot
    have hnil : path.path = [] := by simpa [Path.isEmpty] using hnot
    simp [components, hnil, startsWithSlash, collect] at hpath
  have hright := rightIff_walk rightIff_followDir (hpath ▸ reach_append hdir hd hx hentry)
  have hlookup : fs.lookupPath cwd path false = fs.walk isAbsolute false
      (fs.resolver false fs.symlinkFollowLimit) (fs.start cwd path) path.components := by
    rw [lookupPath, doLookupPath_eq, hempty]
    rfl
  rw [lookupNoSymlinkFollow, hlookup]
  rcases hright with ⟨hway, hcode⟩ | ⟨hway, hcode⟩
  · rw [hcode]
    exact iff_of_true rfl hway
  · rw [hcode]
    exact iff_of_false nofun hway

/-- A link `a` to the link `b` to the directory `d`, and a file `x` in it. -/
def twoLinks : RootFs where
  lookup := fun d name =>
    if d = 1 then (if name = ['x'] then .ok (.fileLike 0) else .error .enoent)
    else if name = ['a'] then .ok (.symlink 0)
    else if name = ['b'] then .ok (.symlink 1)
    else if name = ['d'] then .ok (.directory 1)
    else .error .enoent
  inodeNo := fun d => .ok d
  linkedTo := fun l => .ok (if l = 0 then ['b'] else ['d'])
  mountPoints := fun _ => none
  rootPath := .root [] (.directory 0)
  symlinkFollowLimit := defaultSymlinkFollowMax

/-- The lookup of `b/x`. -/
theorem lookupNoSymlinkFollow_past_link :
    twoLinks.lookupNoSymlinkFollow twoLinks.rootPath (new ['b', '/', 'x']) = .ok (.fileLike 0) ∧
    twoLinks.StraightWay 8 (twoLinks.Straight 8) twoLinks.rootPath [['b'], ['x']] := by
  have hpath : (new ['b', '/', 'x']).components = [['b']] ++ [['x']] := rfl
  exact ⟨rfl, (lookupNoSymlinkFollow_iff hpath (by decide) rfl rfl rfl).1 rfl⟩

/-- **`a/x` is not found**: the way to it leads to the directory `d`, with
all links followed, and `x` is there. -/
theorem not_found_past_two_links : ∃ dir comp,
    twoLinks.reach true 8 twoLinks.rootPath [['a']] = .ok dir ∧ dir.inode = .directory 1 ∧
      twoLinks.entry dir ['x'] = .ok comp ∧
        twoLinks.lookupNoSymlinkFollow twoLinks.rootPath (new ['a', '/', 'x']) = .error .enotdir :=
  ⟨_, _, rfl, rfl, rfl, rfl⟩

end Archives.Kerla.RootFs
