import Archives.Common.Except
import Archives.Kerla.Model.Getdents
/-!
# Kerla — which entries a listing loses

A call writes the entries that fit, and has then fetched one more: the
entry that did not fit is lost, and no later call comes back to it. So a
listing is complete exactly when its first buffer takes all the records
at once.
-/

namespace Archives.Kerla.Getdents

open List

variable {entries rest : List DirEntry} {entry : DirEntry} {len pos dirPos : Nat}

theorem alignUp_of_aligned {n : Nat} (h : pos % 8 = 0) :
    alignUp (pos + n) 8 = pos + alignUp n 8 := by
  simp only [alignUp, alignDown]
  omega

theorem recordLen_le_reclen : entry.recordLen ≤ entry.reclen := by
  simp only [DirEntry.reclen, alignUp, alignDown]
  omega

theorem reclen_pos : 0 < entry.reclen := by
  have h : entry.recordLen ≤ entry.reclen := recordLen_le_reclen
  simp only [DirEntry.recordLen] at h
  omega

theorem reclen_mod : entry.reclen % 8 = 0 := by
  simp only [DirEntry.reclen, alignUp, alignDown]
  omega

/-- A record with room for it is written whole, and the writer stands at
the next one. -/
theorem writeDirent_eq (hpos : pos % 8 = 0) (hroom : pos + entry.reclen ≤ len) :
    writeDirent len pos entry = .ok (pos + entry.reclen) := by
  have hle : entry.recordLen ≤ entry.reclen := recordLen_le_reclen
  have hlen : entry.recordLen = 8 * 2 + 2 + 1 + entry.name.length + 1 := rfl
  have hnull : written len (written len (written len (written len (written len (written len pos 8) 8)
      2) 1) entry.name.length) 1 = pos + entry.recordLen := by
    simp only [written]
    omega
  rw [writeDirent, hnull, skipUntilAlignment, alignUp_of_aligned hpos, ← DirEntry.reclen,
    if_pos (by omega)]

/-- **What a call writes and where it leaves the directory.** The first
`k` entries are written, and the position is past them and one more. All
are written exactly when there is room for them together. -/
theorem fill_spec (hpos : pos % 8 = 0) (hlen : pos ≤ len) : ∃ records k,
    fill len pos dirPos rest = .ok ⟨records, pos + totalLen (rest.take k), dirPos + k + 1⟩ ∧
      records.map Dirent.entry = rest.take k ∧
      if pos + totalLen rest ≤ len then k = rest.length else k < rest.length := by
  induction rest generalizing pos dirPos with
  | nil => exact ⟨[], 0, rfl, rfl, by rw [if_pos (by simpa [totalLen] using hlen)]; rfl⟩
  | cons entry rest ih =>
    by_cases hroom : len < pos + entry.reclen
    · refine ⟨[], 0, ?_, rfl, ?_⟩
      · rw [fill, if_pos hroom]
        rfl
      · rw [totalLen, if_neg (by omega), length_cons]
        omega
    · have hmod : entry.reclen % 8 = 0 := reclen_mod
      obtain ⟨records, k, hfill, hmap, hk⟩ :=
        @ih (pos + entry.reclen) (dirPos + 1) (by omega) (by omega)
      refine ⟨entry.record (dirPos + 1) :: records, k + 1, ?_, ?_, ?_⟩
      · rw [fill, if_neg hroom, writeDirent_eq hpos (by omega), ok_bind, hfill, ok_bind, pure_eq_ok,
          take_succ_cons, totalLen, Nat.add_assoc, Nat.add_right_comm dirPos 1 k,
          Nat.add_assoc dirPos k 1]
      · rw [map_cons, hmap, take_succ_cons]
        rfl
      · rw [totalLen, length_cons, ← Nat.add_assoc]
        split at hk
        · rw [if_pos (by assumption), hk]
        · rw [if_neg (by assumption)]
          omega

theorem length_le_totalLen (l : List DirEntry) : l.length ≤ totalLen l := by
  induction l with
  | nil => exact Nat.le_refl _
  | cons entry l ih =>
    have hpos : 0 < entry.reclen := reclen_pos
    rw [totalLen, length_cons]
    omega

variable {lens : List Nat} {records : List Dirent}

/-- **The first call of a listing.** It lists the first `k` entries; if
that is none it was the last call, and otherwise the next one starts one
entry after them. -/
theorem collect_cons (h : collect entries dirPos (len :: lens) = .ok (some records)) : ∃ first k,
    first.map Dirent.entry = (entries.drop dirPos).take k ∧
      (if totalLen (entries.drop dirPos) ≤ len then k = (entries.drop dirPos).length
        else k < (entries.drop dirPos).length) ∧ ((first = [] ∧ records = []) ∨
        ∃ later, collect entries (dirPos + k + 1) lens = .ok (some later) ∧
          records = first ++ later) := by
  obtain ⟨first, k, hfill, hmap, hk⟩ :=
    @fill_spec (entries.drop dirPos) len 0 dirPos rfl (Nat.zero_le _)
  rw [Nat.zero_add] at hk hfill
  refine ⟨first, k, hmap, hk, ?_⟩
  rw [collect, getdents64, hfill, ok_bind] at h
  rcases ite_eq_ok.mp h with ⟨hzero, hdone⟩ | ⟨-, hmore⟩
  · left
    have hnone : totalLen ((entries.drop dirPos).take k) = 0 := hzero
    have hlen := length_le_totalLen ((entries.drop dirPos).take k)
    rw [← hmap, length_map, hmap] at hlen
    refine ⟨eq_nil_of_length_eq_zero (by omega), ?_⟩
    simpa using (pure_eq_ok.mp hdone).symm
  · right
    obtain ⟨later, hlater, hpure⟩ := bind_eq_ok.mp hmore
    obtain ⟨rest, rfl, hrest⟩ := Option.map_eq_some_iff.mp (pure_eq_ok.mp hpure)
    exact ⟨rest, hlater, hrest.symm⟩

/-- What a listing gives is part of the directory from its position on,
in its order. -/
theorem collect_sublist (h : collect entries dirPos lens = .ok (some records)) :
    (records.map Dirent.entry).Sublist (entries.drop dirPos) := by
  induction lens generalizing dirPos records with
  | nil => cases h
  | cons len lens ih =>
    obtain ⟨first, k, hfirst, -, hcase⟩ := collect_cons h
    rcases hcase with ⟨-, rfl⟩ | ⟨later, hlater, rfl⟩
    · exact nil_sublist _
    · have hrest : (entries.drop (dirPos + k + 1)).Sublist ((entries.drop dirPos).drop k) := by
        rw [drop_drop, ← drop_drop (i := 1)]
        exact drop_sublist _ _
      rw [map_append, hfirst, ← take_append_drop k (entries.drop dirPos)]
      refine List.Sublist.append ?_ ((ih hlater).trans hrest)
      rw [take_append_drop]

/-- **Which listings are complete.** The records of a sequence of calls
on a fresh descriptor, up to the call that returns 0, list every entry
of the directory exactly once if and only if the buffer of the first
call takes all the records together. -/
theorem lists_all_iff (h : collect entries 0 (len :: lens) = .ok (some records)) :
    (records.map Dirent.entry).Perm entries ↔ totalLen entries ≤ len := by
  obtain ⟨first, k, hfirst, hk, hcase⟩ := collect_cons h
  rw [drop_zero] at hfirst hk
  constructor
  · intro hperm
    by_contra hlarge
    rw [if_neg hlarge] at hk
    have hlength := hperm.length_eq
    rcases hcase with ⟨-, rfl⟩ | ⟨later, hlater, rfl⟩
    · simp only [map_nil, length_nil] at hlength
      omega
    · -- the entry after the first `k` is in neither part
      have hrest := (collect_sublist hlater).length_le
      have hlen := congrArg List.length hfirst
      rw [length_drop] at hrest
      rw [length_map, length_take] at hlen
      rw [map_append, length_append, length_map] at hlength
      omega
  · intro hroom
    rw [if_pos hroom] at hk
    rw [hk, take_length] at hfirst
    rcases hcase with ⟨rfl, rfl⟩ | ⟨later, hlater, rfl⟩
    · rw [← hfirst]
    · have hnone := collect_sublist hlater
      rw [hk, drop_eq_nil_of_le (by omega), sublist_nil] at hnone
      rw [map_append, hnone, append_nil, hfirst]

/-- Two entries, listed with room for both. -/
theorem lists_all_of_room :
    let entries : List DirEntry := [⟨1, .regular, [97]⟩, ⟨2, .directory, [98]⟩]
    ∃ records, collect entries 0 [48, 48] = .ok (some records) ∧
      (records.map Dirent.entry).Perm entries := by
  have h : collect [⟨1, .regular, [97]⟩, ⟨2, .directory, [98]⟩] 0 [48, 48] =
      .ok (some [⟨1, 1, 24, .regular, [97]⟩, ⟨2, 2, 24, .directory, [98]⟩]) := rfl
  exact ⟨_, h, (lists_all_iff h).mpr (by decide)⟩

/-- **An entry lost.** Three entries with records of 24 bytes, and
buffers of 40, so large enough for any one: the calls list the first
and the third. -/
theorem not_lists_all_of_three :
    let entries : List DirEntry := [⟨1, .regular, [97]⟩, ⟨2, .regular, [98]⟩, ⟨3, .regular, [99]⟩]
    (entries.all fun entry => decide (entry.reclen ≤ 40)) = true ∧
      ∃ records, collect entries 0 [40, 40, 40] = .ok (some records) ∧
        records.map Dirent.entry = [⟨1, .regular, [97]⟩, ⟨3, .regular, [99]⟩] ∧
        ¬ (records.map Dirent.entry).Perm entries := by
  exact ⟨by decide, _, rfl, rfl, fun h => absurd h.length_eq (by decide)⟩

end Archives.Kerla.Getdents
