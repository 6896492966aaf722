import Archives.Kerla.Model.TmpFile
/-!
# Kerla — tmpfs files as byte arrays

A write leaves the file with the length at which the write ends. So it
is a write to a growable byte array exactly when it ends at or past the
end of the file; one that ends before it cuts the rest off.
-/

namespace Archives.Kerla

open List

namespace TmpFile

variable {data bytes : List UInt8} {offset len i : Nat}

@[simp] theorem length_resize : (resize data len).length = len := by
  simp only [resize, length_append, length_take, length_replicate]
  omega

/-- A resized file: the bytes it had, then zeros. -/
theorem getElem?_resize (h : i < len) : (resize data len)[i]? = some (data[i]?.getD 0) := by
  rw [resize]
  rcases Nat.lt_or_ge i data.length with hlt | hge
  · rw [getElem?_append_left (by rw [length_take]; omega), getElem?_take_of_lt h,
      getElem?_eq_getElem hlt]
    rfl
  · rw [getElem?_append_right (by rw [length_take]; omega), getElem?_replicate,
      if_pos (by rw [length_take]; omega), getElem?_eq_none hge]
    rfl

/-- What a read gives, past the end of the file as well. -/
theorem read_eq (file : TmpFile) : file.read offset len = (file.data.drop offset).take len := by
  rw [read]
  split
  · rename_i hlt
    rw [drop_eq_nil_of_le (by omega), take_nil]
  · simp [UserBufWriter.writeBytes, UserBufWriter.ofLen, UserBufWriter.remainingLen,
      UserBufWriter.writtenLen]

/-- **What a write leaves**: the resized file up to the offset, then the
bytes. -/
theorem write_eq (file : TmpFile) : file.write offset bytes =
    (bytes.length, ⟨(resize file.data (offset + bytes.length)).take offset ++ bytes⟩) := by
  have hlen : min bytes.length (offset + bytes.length - offset) = bytes.length := by omega
  simp only [write, copyTo, length_resize, hlen, take_length]
  rw [drop_eq_nil_of_le (Nat.le_of_eq length_resize), append_nil]

theorem length_written :
    ((resize data (offset + bytes.length)).take offset ++ bytes).length = offset + bytes.length := by
  rw [length_append, length_take, length_resize]
  omega

theorem getElem?_written_of_lt (h : i < offset) :
    ((resize data (offset + bytes.length)).take offset ++ bytes)[i]? = some (data[i]?.getD 0) := by
  rw [getElem?_append_left (by rw [length_take, length_resize]; omega),
    getElem?_take_of_lt h, getElem?_resize (by omega)]

theorem getElem?_written_add :
    ((resize data (offset + bytes.length)).take offset ++ bytes)[offset + i]? = bytes[i]? := by
  have hlen : ((resize data (offset + bytes.length)).take offset).length = offset := by
    rw [length_take, length_resize]
    omega
  rw [getElem?_append_right (by omega), hlen, Nat.add_sub_cancel_left]

/-- **A write is one to a growable byte array** exactly when it ends at
or past the end of the file. -/
theorem writes_iff {file : TmpFile} :
    Writes file.data offset bytes (file.write offset bytes).2.data ↔
    file.data.length ≤ offset + bytes.length := by
  rw [write_eq]
  constructor
  · intro h
    have := h.not_shorter
    rwa [length_written] at this
  · intro h
    refine ⟨by rw [length_written]; exact h, fun i _ => getElem?_written_add, ?_, ?_, ?_⟩
    · intro i hi hout
      rw [getElem?_written_of_lt (by omega), getElem?_eq_getElem hi]
      rfl
    · intro i hge hlt _
      rw [getElem?_written_of_lt hlt, getElem?_eq_none hge]
      rfl
    · rw [length_written]
      omega

end TmpFile

namespace SharedFile

variable {s : SharedFile}

theorem perform_read {i pos : Nat} (h : s.opened[i]? = some pos) (len : Nat) :
    s.perform (.read i len) = s.readAt i pos len := by
  rw [perform, h]
  rfl

theorem perform_write {i pos : Nat} (h : s.opened[i]? = some pos) (bytes : List UInt8) :
    s.perform (.write i bytes) = s.writeAt i pos bytes := by
  rw [perform, h]
  rfl

/-- One call: reads always behave, writes where they end at or past the
end of the file. -/
theorem behaves_iff (op : FileOp) : s.Behaves op ↔ s.EndsPastEnd op := by
  cases op with
  | openAt pos => exact ⟨fun _ => trivial, fun _ => rfl⟩
  | read i len =>
    refine ⟨fun _ => trivial, fun _ pos hpos => ?_⟩
    rw [perform_read hpos, readAt, TmpFile.read_eq]
  | write i bytes =>
    refine forall_congr' fun pos => forall_congr' fun hpos => ?_
    rw [perform_write hpos, writeAt, ← TmpFile.writes_iff]
    simp [TmpFile.write_eq]

/-- **A tmpfs file over its runs.** A sequence of reads and writes,
through any opened files at any positions, goes as on a growable byte
array if and only if every write of it ends at or past the end that the
file has there. -/
theorem behaves_along_iff (ops : List FileOp) : Along Behaves s ops ↔ Along EndsPastEnd s ops := by
  induction ops generalizing s with
  | nil => exact .rfl
  | cons op ops ih => exact and_congr (behaves_iff op) ih

/-- **A file cut off.** One opened file writes six bytes, another one
byte at the start: that byte is all that is left of the file. -/
theorem not_behaves_of_overwrite :
    let ops := [.openAt 0, .openAt 0, .write 0 [97, 98, 99, 100, 101, 102], .write 1 [120]]
    ¬ Along Behaves ⟨⟨[]⟩, []⟩ ops ∧ (run ⟨⟨[]⟩, []⟩ ops).file.data = [120] := by
  refine ⟨fun h => ?_, by decide +kernel⟩
  obtain ⟨-, -, -, hwrite, -⟩ := h
  have hlen := (hwrite 0 (by decide +kernel)).2.2.not_shorter
  revert hlen
  decide +kernel

end SharedFile

end Archives.Kerla
