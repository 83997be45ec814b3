import RandomX.Aes.Field
import RandomX.Bytes

/-!
# Cipher rounds

One full round of encryption or decryption with the round key added last. Tables hold, for every byte, the
column that the byte contributes after substitution and mixing.
-/
namespace RandomX.Aes

/-- A state of sixteen bytes as four columns, each with its first row in the low byte. -/
structure State where
  (c0 c1 c2 c3 : UInt32)
  deriving DecidableEq, Inhabited

/-! ## Tables -/

/-- One entry for each value of a byte. -/
abbrev Table := Vector UInt32 256

/-- The column that a byte of the first row contributes to a round of encryption. -/
def encryptColumn (b : UInt8) : UInt32 :=
  let s := substitute b
  word32 (mul s 2) s s (mul s 3)

/-- The column that a byte of the first row contributes to a round of decryption. -/
def decryptColumn (b : UInt8) : UInt32 :=
  let s := unsubstitute b
  word32 (mul s 14) (mul s 9) (mul s 13) (mul s 11)

/-- Moves the rows of a column down by a count of bits, with wrap. -/
def turn (w n : UInt32) : UInt32 :=
  (w <<< n) ||| (w >>> (32 - n))

/-- The table of a row: a byte contributes the column of the first row turned by as many rows. -/
def tableOf (column : UInt8 → UInt32) (n : UInt32) : Table :=
  Vector.ofFn fun i => turn (column (UInt8.ofNat i)) n

def encrypt0 : Table := tableOf encryptColumn 0
def encrypt1 : Table := tableOf encryptColumn 8
def encrypt2 : Table := tableOf encryptColumn 16
def encrypt3 : Table := tableOf encryptColumn 24
def decrypt0 : Table := tableOf decryptColumn 0
def decrypt1 : Table := tableOf decryptColumn 8
def decrypt2 : Table := tableOf decryptColumn 16
def decrypt3 : Table := tableOf decryptColumn 24

@[inline] def entry (t : Table) (b : UInt8) : UInt32 :=
  t.get b.toFin

/-! ## Rounds -/

/-- A column of an encryption round from the columns that its rows come from. -/
@[inline] def encryptFrom (a b c d key : UInt32) : UInt32 :=
  entry encrypt0 (byte32 a 0) ^^^ entry encrypt1 (byte32 b 8) ^^^ entry encrypt2 (byte32 c 16)
    ^^^ entry encrypt3 (byte32 d 24) ^^^ key

/-- A column of a decryption round from the columns that its rows come from. -/
@[inline] def decryptFrom (a b c d key : UInt32) : UInt32 :=
  entry decrypt0 (byte32 a 0) ^^^ entry decrypt1 (byte32 b 8) ^^^ entry decrypt2 (byte32 c 16)
    ^^^ entry decrypt3 (byte32 d 24) ^^^ key

/-- One round of encryption: row `n` moves `n` columns to the left. -/
def State.encrypt (s key : State) : State :=
  ⟨encryptFrom s.c0 s.c1 s.c2 s.c3 key.c0,
   encryptFrom s.c1 s.c2 s.c3 s.c0 key.c1,
   encryptFrom s.c2 s.c3 s.c0 s.c1 key.c2,
   encryptFrom s.c3 s.c0 s.c1 s.c2 key.c3⟩

/-- One round of decryption: row `n` moves `n` columns to the right. -/
def State.decrypt (s key : State) : State :=
  ⟨decryptFrom s.c0 s.c3 s.c2 s.c1 key.c0,
   decryptFrom s.c1 s.c0 s.c3 s.c2 key.c1,
   decryptFrom s.c2 s.c1 s.c0 s.c3 key.c2,
   decryptFrom s.c3 s.c2 s.c1 s.c0 key.c3⟩

end RandomX.Aes
