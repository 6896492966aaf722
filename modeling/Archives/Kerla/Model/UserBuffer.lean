import Mathlib.Data.Nat.Init
/-!
# Kerla — user buffers

`kernel/user_buffer.rs`: the cursor through which a file copies bytes to
the buffer of a `read` and from the buffer of a `write`. The buffers are
mapped and in user space, so the copies themselves do not fail.
-/

namespace Archives.Kerla

open List

/-- `UserBufWriter`: the length of a buffer and the bytes written to it
so far, from its start on. -/
structure UserBufWriter where
  bufferLen : Nat
  written : List UInt8
  fits : written.length ≤ bufferLen

namespace UserBufWriter

/-- `UserBufWriter::from`. -/
def ofLen (len : Nat) : UserBufWriter := ⟨len, [], Nat.zero_le _⟩

def writtenLen (w : UserBufWriter) : Nat := w.written.length

def remainingLen (w : UserBufWriter) : Nat := w.bufferLen - w.writtenLen

/-- `UserBufWriter::write_bytes`: as much of the source as there is room
for. -/
def writeBytes (w : UserBufWriter) (src : List UInt8) : UserBufWriter where
  bufferLen := w.bufferLen
  written := w.written ++ src.take w.remainingLen
  fits := by
    have hfits := w.fits
    simp only [length_append, length_take, remainingLen, writtenLen]
    omega

@[simp] theorem writtenLen_ofLen (len : Nat) : (ofLen len).writtenLen = 0 := rfl

@[simp] theorem remainingLen_ofLen (len : Nat) : (ofLen len).remainingLen = len := rfl

/-- A source there is room for is written whole. -/
theorem writtenLen_writeBytes {w : UserBufWriter} {src : List UInt8}
    (h : src.length ≤ w.remainingLen) :
    (w.writeBytes src).writtenLen = w.writtenLen + src.length := by
  simp only [writtenLen, writeBytes, length_append, length_take]
  omega

theorem remainingLen_writeBytes {w : UserBufWriter} {src : List UInt8}
    (h : src.length ≤ w.remainingLen) :
    (w.writeBytes src).remainingLen = w.remainingLen - src.length := by
  have hlen := writtenLen_writeBytes h
  simp only [remainingLen] at h ⊢
  rw [hlen, show (w.writeBytes src).bufferLen = w.bufferLen from rfl]
  omega

end UserBufWriter

end Archives.Kerla
