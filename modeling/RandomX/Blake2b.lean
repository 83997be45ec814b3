import RandomX.Bytes
import RandomX.Word

/-!
# Blake2b

The unkeyed hash at its two lengths. The length of the digest is part of the initial state, so the short digest
is no prefix of the long one.
-/
namespace RandomX.Blake2b

abbrev Chain := Vector UInt64 8

/-- Sixteen words: a message block or the state inside a compression. -/
abbrev Words := Vector UInt64 16

/-- The fractional parts of the square roots of the first eight primes. -/
def initial : Chain :=
  #v[0x6a09e667f3bcc908, 0xbb67ae8584caa73b, 0x3c6ef372fe94f82b, 0xa54ff53a5f1d36f1,
    0x510e527fade682d1, 0x9b05688c2b3e6c1f, 0x1f83d9abfb41bd6b, 0x5be0cd19137e2179]

/-- The order in which a round takes the words of the message. -/
def schedule : List (Vector (Fin 16) 16) :=
  [#v[0, 1, 2, 3, 4, 5, 6, 7, 8, 9, 10, 11, 12, 13, 14, 15],
   #v[14, 10, 4, 8, 9, 15, 13, 6, 1, 12, 0, 2, 11, 7, 5, 3],
   #v[11, 8, 12, 0, 5, 2, 15, 13, 10, 14, 3, 6, 7, 1, 9, 4],
   #v[7, 9, 3, 1, 13, 12, 11, 14, 2, 6, 5, 10, 4, 0, 15, 8],
   #v[9, 0, 5, 7, 2, 4, 10, 15, 14, 1, 11, 12, 6, 8, 3, 13],
   #v[2, 12, 6, 10, 0, 11, 8, 3, 4, 13, 7, 5, 15, 14, 1, 9],
   #v[12, 5, 1, 15, 14, 13, 4, 10, 0, 7, 6, 3, 9, 2, 8, 11],
   #v[13, 11, 7, 14, 12, 1, 3, 9, 5, 0, 15, 4, 8, 6, 2, 10],
   #v[6, 15, 14, 9, 11, 3, 0, 8, 12, 2, 13, 7, 1, 4, 10, 5],
   #v[10, 2, 8, 4, 7, 6, 1, 5, 15, 11, 9, 14, 3, 12, 13, 0],
   #v[0, 1, 2, 3, 4, 5, 6, 7, 8, 9, 10, 11, 12, 13, 14, 15],
   #v[14, 10, 4, 8, 9, 15, 13, 6, 1, 12, 0, 2, 11, 7, 5, 3]]

/-! ## Compression -/

/-- Mixes two message words into four words of the state. -/
def mix (v : Words) (a b c d : Fin 16) (x y : UInt64) : Words :=
  let wa := v.get a + v.get b + x
  let wd := rotateRight (v.get d ^^^ wa) 32
  let wc := v.get c + wd
  let wb := rotateRight (v.get b ^^^ wc) 24
  let wa := wa + wb + y
  let wd := rotateRight (wd ^^^ wa) 16
  let wc := wc + wd
  let wb := rotateRight (wb ^^^ wc) 63
  (((v.set a wa).set b wb).set c wc).set d wd

/-- Mixes the columns of the state, then its diagonals. -/
def round (m v : Words) (s : Vector (Fin 16) 16) : Words :=
  let word (i : Fin 16) : UInt64 := m.get (s.get i)
  let v := mix v 0 4 8 12 (word 0) (word 1)
  let v := mix v 1 5 9 13 (word 2) (word 3)
  let v := mix v 2 6 10 14 (word 4) (word 5)
  let v := mix v 3 7 11 15 (word 6) (word 7)
  let v := mix v 0 5 10 15 (word 8) (word 9)
  let v := mix v 1 6 11 12 (word 10) (word 11)
  let v := mix v 2 7 8 13 (word 12) (word 13)
  mix v 3 4 9 14 (word 14) (word 15)

/-- Chains one message block. `length` counts the bytes up to its end. -/
def compress (h : Chain) (m : Words) (length : Nat) (isLast : Bool) : Chain :=
  let v : Words := h ++ initial
  let v := v.set 12 (v.get 12 ^^^ length.toUInt64)
  let v := v.set 13 (v.get 13 ^^^ (length >>> 64).toUInt64)
  let v := if isLast then v.set 14 (v.get 14 ^^^ 0xFFFFFFFFFFFFFFFF) else v
  let v := schedule.foldl (round m) v
  Vector.ofFn fun i => h.get i ^^^ v.get (i.castLE (by decide)) ^^^ v.get (i.natAdd 8)

/-! ## Digests -/

/-- The message block at an index, padded with zeros. -/
def blockAt (data : ByteArray) (i : Nat) : Words :=
  Vector.ofFn fun j => word64At data (128 * i + 8 * j)

/-- The number of message blocks; the empty message has one. -/
def blockCount (data : ByteArray) : Nat :=
  max 1 ((data.size + 127) / 128)

/-- The last chained words for a digest of `size` bytes. -/
def chain (size : Nat) (data : ByteArray) : Chain :=
  let n := blockCount data
  let start := initial.set 0 (initial.get 0 ^^^ 0x01010000 ^^^ size.toUInt64)
  (List.range n).foldl
    (fun h i => compress h (blockAt data i) (min (128 * (i + 1)) data.size) (i + 1 == n)) start

def digestByte (h : Chain) (i : Fin 64) : UInt8 :=
  byte64 (h.get ⟨i / 8, by omega⟩) (8 * (i.val % 8).toUInt64)

def hash512 (data : ByteArray) : Vector UInt8 64 :=
  let h := chain 64 data
  Vector.ofFn (digestByte h)

def hash256 (data : ByteArray) : Vector UInt8 32 :=
  let h := chain 32 data
  Vector.ofFn fun i => digestByte h (i.castLE (by decide))

end RandomX.Blake2b
