import Mathlib.Data.UInt

/-!
# `butil::Hash`

The hash that places tables on nodes and keys on partitions: `SuperFastHash` over the bytes of a
string, with 32-bit wrap-around arithmetic.
-/

namespace Butil

/-- The contents of a `std::string`. -/
abbrev Bytes := List UInt8

/-- Two bytes, little endian. -/
def get16bits (b₀ b₁ : UInt8) : UInt32 := (b₁.toUInt32 <<< 8) + b₀.toUInt32

/-- `(signed char)` of a byte, converted to `uint32_t`. -/
def signedChar (b : UInt8) : UInt32 := b.toInt8.toInt32.toUInt32

/-- The main loop of `SuperFastHash`, four bytes a round, and its end cases. -/
def superFastHashLoop (hash : UInt32) : Bytes → UInt32
  | b₀ :: b₁ :: b₂ :: b₃ :: rest =>
    let hash := hash + get16bits b₀ b₁
    let tmp := (get16bits b₂ b₃ <<< 11) ^^^ hash
    let hash := (hash <<< 16) ^^^ tmp
    superFastHashLoop (hash + (hash >>> 11)) rest
  | [b₀, b₁, b₂] =>
    let hash := hash + get16bits b₀ b₁
    let hash := hash ^^^ (hash <<< 16)
    -- the odd byte is read as a `signed char`, here and below
    let hash := hash ^^^ (signedChar b₂ <<< 18)
    hash + (hash >>> 11)
  | [b₀, b₁] =>
    let hash := hash + get16bits b₀ b₁
    let hash := hash ^^^ (hash <<< 11)
    hash + (hash >>> 17)
  | [b₀] =>
    let hash := hash + signedChar b₀
    let hash := hash ^^^ (hash <<< 10)
    hash + (hash >>> 1)
  | [] => hash

/-- The avalanching of the final bits. -/
def avalanche (hash : UInt32) : UInt32 :=
  let hash := hash ^^^ (hash <<< 3)
  let hash := hash + (hash >>> 5)
  let hash := hash ^^^ (hash <<< 4)
  let hash := hash + (hash >>> 17)
  let hash := hash ^^^ (hash <<< 25)
  hash + (hash >>> 6)

def superFastHash (data : Bytes) : UInt32 :=
  if data.length = 0 then 0
  else avalanche (superFastHashLoop (UInt32.ofNat data.length) data)

/-- `butil::Hash`: lengths above `INT_MAX` hash to zero. -/
def hash (str : Bytes) : UInt32 := if str.length > 2147483647 then 0 else superFastHash str

end Butil
