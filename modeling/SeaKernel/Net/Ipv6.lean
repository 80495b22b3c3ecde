import SeaKernel.Lib.Word

/-!
# IPv6 packets

The layout of the headers in a packet buffer, as `include/net/ipv6.h` declares them, and the
checksum of `net/ipv6.c`. A packet starts with the link header of the only network driver, which
has 14 bytes; the offsets below count from the start of the buffer.
-/

namespace SeaKernel.Ipv6

/-- The size of a packet buffer (`net_packet_buffer_allocate`). -/
def bufferSize : ℕ := 0x1000

/-- `headlen` of the network driver. -/
def headlen : ℕ := 14

/-- The offset of `header->data`: the link header and `struct ipv6_header`. -/
def dataOff : ℕ := headlen + 40

/-- `union ipv6_address` -/
structure Address where
  octets : List UInt8
  length_eq : octets.length = 16
  deriving DecidableEq

/-- `struct physical_address` of an Ethernet card. -/
structure PhysicalAddress where
  octets : List UInt8
  length_eq : octets.length = 6
  deriving DecidableEq

/-- `BIG_TO_HOST16` of the two bytes of a field. -/
def fromBig16 (hi lo : UInt8) : ℕ := hi.toNat * 256 + lo.toNat

/-- The bytes of `HOST_TO_BIG16`, which cuts its argument to 16 bits. -/
def toBig16 (n : ℕ) : List UInt8 := [UInt8.ofNat (n / 256), UInt8.ofNat n]

@[simp] theorem length_toBig16 (n : ℕ) : (toBig16 n).length = 2 := rfl

theorem fromBig16_lt (hi lo : UInt8) : fromBig16 hi lo < 2 ^ 16 := by
  have hhi := hi.toNat_lt
  have hlo := lo.toNat_lt
  unfold fromBig16
  omega

theorem fromBig16_toBig16 (n : ℕ) :
    fromBig16 (UInt8.ofNat (n / 256)) (UInt8.ofNat n) = n % 2 ^ 16 := by
  simp only [fromBig16, UInt8.toNat_ofNat']
  omega

/-! ## The checksum -/

/-- A 16-bit word of the buffer, as the processor loads it. -/
def load16 (data : ℕ → UInt8) (off : ℕ) : ℕ := (data off).toNat + (data (off + 1)).toNat * 2 ^ 8

/-- A 32-bit word of the buffer, as the processor loads it. -/
def load32 (data : ℕ → UInt8) (off : ℕ) : ℕ := load16 data off + load16 data (off + 2) * 2 ^ 16

/-- A 32-bit addition with the carry added back in. -/
def addCarry (sum x : ℕ) : ℕ :=
  let sum := u32 (sum + x)
  u32 (sum + if sum < x then 1 else 0)

/-- A round of the loop that folds the sum into 16 bits. Two rounds are enough for 32 bits, and
further rounds change nothing. -/
def foldSum (sum : ℕ) : ℕ := sum / 2 ^ 16 + sum % 2 ^ 16

/-- `ipv6_gen_checksum` of the packet in the buffer; `header->length` is at `headlen + 4`. -/
def ipv6GenChecksum (data : ℕ → UInt8) : ℕ :=
  let len := fromBig16 (data (headlen + 4)) (data (headlen + 5))
  let sum := (List.range 4).foldl (fun sum i =>
    addCarry (addCarry sum (load32 data (headlen + 8 + 4 * i)))
      (load32 data (headlen + 24 + 4 * i))) 0
  let sum := addCarry sum (load16 data (headlen + 4))
  let sum := addCarry sum ((data (headlen + 6)).toNat * 2 ^ 24)
  let sum := (List.range (len / 2)).foldl (fun sum i =>
    u32 (sum + load16 data (dataOff + 2 * i))) sum
  let sum := if len % 2 = 1 then u32 (sum + (data (dataOff + len - 1)).toNat) else sum
  2 ^ 16 - 1 - foldSum (foldSum sum)

end SeaKernel.Ipv6
