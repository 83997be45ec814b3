/-!
# Bytes

Little-endian words inside byte strings.
-/
namespace RandomX

/-! ## Words from bytes -/

/-- The 32-bit word with the given bytes, low byte first. -/
@[inline] def word32 (b0 b1 b2 b3 : UInt8) : UInt32 :=
  b0.toUInt32 ||| (b1.toUInt32 <<< 8) ||| (b2.toUInt32 <<< 16) ||| (b3.toUInt32 <<< 24)

/-- The 64-bit word with the given bytes, low byte first. -/
@[inline] def word64 (b0 b1 b2 b3 b4 b5 b6 b7 : UInt8) : UInt64 :=
  b0.toUInt64 ||| (b1.toUInt64 <<< 8) ||| (b2.toUInt64 <<< 16) ||| (b3.toUInt64 <<< 24)
    ||| (b4.toUInt64 <<< 32) ||| (b5.toUInt64 <<< 40) ||| (b6.toUInt64 <<< 48) ||| (b7.toUInt64 <<< 56)

/-- The byte at an index, zero past the end. -/
@[inline] def byteAt (bytes : ByteArray) (i : Nat) : UInt8 :=
  if h : i < bytes.size then bytes[i] else 0

@[inline] def word32At (bytes : ByteArray) (i : Nat) : UInt32 :=
  word32 (byteAt bytes i) (byteAt bytes (i + 1)) (byteAt bytes (i + 2)) (byteAt bytes (i + 3))

@[inline] def word64At (bytes : ByteArray) (i : Nat) : UInt64 :=
  word64 (byteAt bytes i) (byteAt bytes (i + 1)) (byteAt bytes (i + 2)) (byteAt bytes (i + 3))
    (byteAt bytes (i + 4)) (byteAt bytes (i + 5)) (byteAt bytes (i + 6)) (byteAt bytes (i + 7))

/-! ## Bytes from words -/

/-- The byte of a 32-bit word that lies `shift` bits up. -/
@[inline] def byte32 (w shift : UInt32) : UInt8 :=
  (w >>> shift).toUInt8

/-- The byte of a 64-bit word that lies `shift` bits up. -/
@[inline] def byte64 (w shift : UInt64) : UInt8 :=
  (w >>> shift).toUInt8

/-- Appends the four bytes of a word, low byte first. -/
@[inline] def pushWord32 (out : ByteArray) (w : UInt32) : ByteArray :=
  (((out.push (byte32 w 0)).push (byte32 w 8)).push (byte32 w 16)).push (byte32 w 24)

/-- Appends the eight bytes of a word, low byte first. -/
def pushWord64 (out : ByteArray) (w : UInt64) : ByteArray :=
  (((((((out.push (byte64 w 0)).push (byte64 w 8)).push (byte64 w 16)).push (byte64 w 24)).push
    (byte64 w 32)).push (byte64 w 40)).push (byte64 w 48)).push (byte64 w 56)

/-- Words in order, each with its low byte first. -/
def bytesOfWords (ws : List UInt64) : ByteArray :=
  ws.foldl pushWord64 ByteArray.empty

def bytesOfVector {n : Nat} (v : Vector UInt8 n) : ByteArray :=
  ⟨v.toArray⟩

end RandomX
