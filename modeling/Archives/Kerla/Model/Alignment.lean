import Mathlib.Data.Nat.Init
/-!
# Kerla — alignment

`utils/alignment.rs`. The alignments are powers of two, so the bit mask
of the source takes the remainder off.
-/

namespace Archives.Kerla

def alignDown (value align : Nat) : Nat := value - value % align

def alignUp (value align : Nat) : Nat := alignDown (value + align - 1) align

def isAligned (value align : Nat) : Bool := value % align == 0

end Archives.Kerla
