import SeaKernel.Lib.Contents

/-!
# Numbers and fields in bytes

Unsigned numbers as little-endian bytes, and the fields of a packed structure, given as a list of
its bytes.
-/

namespace SeaKernel

/-- The number with the bytes, the lowest first. -/
def littleEndian (bs : List UInt8) : ℕ := Nat.ofDigits 256 (bs.map UInt8.toNat)

/-- The bytes of the field at `k`, of `n` bytes. -/
def field (bs : List UInt8) (k n : ℕ) : List UInt8 := (bs.drop k).take n

theorem field_memread {buffer : ℕ → UInt8} {p k n m : ℕ} (h : k + n ≤ m) :
    field (memread buffer p m) k n = memread buffer (p + k) n := by
  refine List.ext_getElem? fun j => ?_
  rw [field, getElem?_memread, List.getElem?_take, List.getElem?_drop, getElem?_memread,
    Nat.add_assoc]
  split
  · rw [if_pos (by omega)]
  · rfl

end SeaKernel
