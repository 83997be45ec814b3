/-!
# Argon2 blocks

A block is a square of sixteen-byte cells, held as eight rows of sixteen words. The compression of two blocks
mixes the rows of their sum, then its columns, and adds the sum again.
-/
namespace RandomX.Argon2

/-- One row of a block: eight cells of two words. -/
structure Row where
  (w0 w1 w2 w3 w4 w5 w6 w7 w8 w9 w10 w11 w12 w13 w14 w15 : UInt64)
  deriving DecidableEq, Inhabited

/-- A memory block of 1024 bytes. -/
structure Block where
  (r0 r1 r2 r3 r4 r5 r6 r7 : Row)
  deriving DecidableEq, Inhabited

/-- Four words in the course of one mixing step. -/
structure Quarter where
  (a b c d : UInt64)

/-! ## Rows -/

namespace Row

def zero : Row :=
  ⟨0, 0, 0, 0, 0, 0, 0, 0, 0, 0, 0, 0, 0, 0, 0, 0⟩

/-- The row whose word `j` is `f j`. -/
@[inline] def ofFn (f : Nat → UInt64) : Row :=
  ⟨f 0, f 1, f 2, f 3, f 4, f 5, f 6, f 7, f 8, f 9, f 10, f 11, f 12, f 13, f 14, f 15⟩

/-- The words in order, in front of others. -/
def append (r : Row) (rest : List UInt64) : List UInt64 :=
  r.w0 :: r.w1 :: r.w2 :: r.w3 :: r.w4 :: r.w5 :: r.w6 :: r.w7 :: r.w8 :: r.w9 :: r.w10 :: r.w11 :: r.w12 :: r.w13
    :: r.w14 :: r.w15 :: rest

theorem append_ofFn (f : Nat → UInt64) (rest : List UInt64) : (ofFn f).append rest = (List.range 16).map f ++ rest :=
  rfl

@[simp] theorem length_append (r : Row) (rest : List UInt64) : (r.append rest).length = rest.length + 16 :=
  rfl

theorem append_inj {r s : Row} {l m : List UInt64} (h : r.append l = s.append m) : r = s ∧ l = m := by
  cases r
  cases s
  simpa only [append, List.cons.injEq, mk.injEq, and_assoc] using h

@[inline] def xor (x y : Row) : Row :=
  ⟨x.w0 ^^^ y.w0, x.w1 ^^^ y.w1, x.w2 ^^^ y.w2, x.w3 ^^^ y.w3,
   x.w4 ^^^ y.w4, x.w5 ^^^ y.w5, x.w6 ^^^ y.w6, x.w7 ^^^ y.w7,
   x.w8 ^^^ y.w8, x.w9 ^^^ y.w9, x.w10 ^^^ y.w10, x.w11 ^^^ y.w11,
   x.w12 ^^^ y.w12, x.w13 ^^^ y.w13, x.w14 ^^^ y.w14, x.w15 ^^^ y.w15⟩

end Row

/-- Addition hardened by twice the product of the low halves. -/
@[inline] def mulAdd (x y : UInt64) : UInt64 :=
  x + y + 2 * ((x &&& 0xFFFFFFFF) * (y &&& 0xFFFFFFFF))

/-- Rotation to the right by a count between 1 and 63. -/
@[inline] def rotate (x n : UInt64) : UInt64 :=
  (x >>> n) ||| (x <<< (64 - n))

@[inline] def mix (a b c d : UInt64) : Quarter :=
  let a := mulAdd a b
  let d := rotate (d ^^^ a) 32
  let c := mulAdd c d
  let b := rotate (b ^^^ c) 24
  let a := mulAdd a b
  let d := rotate (d ^^^ a) 16
  let c := mulAdd c d
  let b := rotate (b ^^^ c) 63
  ⟨a, b, c, d⟩

/-- Mixes the sixteen words of a row: its four columns, then its four diagonals. -/
def Row.permute (r : Row) : Row :=
  let p0 := mix r.w0 r.w4 r.w8 r.w12
  let p1 := mix r.w1 r.w5 r.w9 r.w13
  let p2 := mix r.w2 r.w6 r.w10 r.w14
  let p3 := mix r.w3 r.w7 r.w11 r.w15
  let q0 := mix p0.a p1.b p2.c p3.d
  let q1 := mix p1.a p2.b p3.c p0.d
  let q2 := mix p2.a p3.b p0.c p1.d
  let q3 := mix p3.a p0.b p1.c p2.d
  ⟨q0.a, q1.a, q2.a, q3.a, q3.b, q0.b, q1.b, q2.b, q2.c, q3.c, q0.c, q1.c, q1.d, q2.d, q3.d, q0.d⟩

/-! ## Blocks -/

namespace Block

def zero : Block :=
  ⟨.zero, .zero, .zero, .zero, .zero, .zero, .zero, .zero⟩

/-- The block whose word `i` is `f i`. -/
@[inline] def ofFn (f : Nat → UInt64) : Block :=
  let row (k : Nat) : Row := .ofFn fun j => f (16 * k + j)
  ⟨row 0, row 1, row 2, row 3, row 4, row 5, row 6, row 7⟩

/-- The words in the order of the memory, row by row. -/
def words (b : Block) : List UInt64 :=
  b.r0.append (b.r1.append (b.r2.append (b.r3.append (b.r4.append (b.r5.append (b.r6.append (b.r7.append [])))))))

@[simp] theorem length_words (b : Block) : b.words.length = 128 := by
  simp [words]

theorem words_ofFn (f : Nat → UInt64) : (ofFn f).words = (List.range 128).map f := by
  have hrange : List.range 128 = (List.range 8).flatMap fun k => (List.range 16).map (16 * k + ·) := by decide
  rw [hrange, List.map_flatMap]
  simp only [words, ofFn, Row.append_ofFn, List.map_map]
  rfl

theorem words_inj {a b : Block} (h : a.words = b.words) : a = b := by
  rw [words, words] at h
  obtain ⟨h0, h⟩ := Row.append_inj h
  obtain ⟨h1, h⟩ := Row.append_inj h
  obtain ⟨h2, h⟩ := Row.append_inj h
  obtain ⟨h3, h⟩ := Row.append_inj h
  obtain ⟨h4, h⟩ := Row.append_inj h
  obtain ⟨h5, h⟩ := Row.append_inj h
  obtain ⟨h6, h⟩ := Row.append_inj h
  obtain ⟨h7, -⟩ := Row.append_inj h
  cases a
  cases b
  simp only [mk.injEq]
  exact ⟨h0, h1, h2, h3, h4, h5, h6, h7⟩

@[inline] def xor (x y : Block) : Block :=
  ⟨x.r0.xor y.r0, x.r1.xor y.r1, x.r2.xor y.r2, x.r3.xor y.r3,
   x.r4.xor y.r4, x.r5.xor y.r5, x.r6.xor y.r6, x.r7.xor y.r7⟩

@[inline] def permuteRows (b : Block) : Block :=
  ⟨b.r0.permute, b.r1.permute, b.r2.permute, b.r3.permute, b.r4.permute, b.r5.permute, b.r6.permute, b.r7.permute⟩

/-- Exchanges rows and columns of the square of cells. -/
@[inline] def transpose (b : Block) : Block :=
  ⟨⟨b.r0.w0, b.r0.w1, b.r1.w0, b.r1.w1, b.r2.w0, b.r2.w1, b.r3.w0, b.r3.w1,
    b.r4.w0, b.r4.w1, b.r5.w0, b.r5.w1, b.r6.w0, b.r6.w1, b.r7.w0, b.r7.w1⟩,
   ⟨b.r0.w2, b.r0.w3, b.r1.w2, b.r1.w3, b.r2.w2, b.r2.w3, b.r3.w2, b.r3.w3,
    b.r4.w2, b.r4.w3, b.r5.w2, b.r5.w3, b.r6.w2, b.r6.w3, b.r7.w2, b.r7.w3⟩,
   ⟨b.r0.w4, b.r0.w5, b.r1.w4, b.r1.w5, b.r2.w4, b.r2.w5, b.r3.w4, b.r3.w5,
    b.r4.w4, b.r4.w5, b.r5.w4, b.r5.w5, b.r6.w4, b.r6.w5, b.r7.w4, b.r7.w5⟩,
   ⟨b.r0.w6, b.r0.w7, b.r1.w6, b.r1.w7, b.r2.w6, b.r2.w7, b.r3.w6, b.r3.w7,
    b.r4.w6, b.r4.w7, b.r5.w6, b.r5.w7, b.r6.w6, b.r6.w7, b.r7.w6, b.r7.w7⟩,
   ⟨b.r0.w8, b.r0.w9, b.r1.w8, b.r1.w9, b.r2.w8, b.r2.w9, b.r3.w8, b.r3.w9,
    b.r4.w8, b.r4.w9, b.r5.w8, b.r5.w9, b.r6.w8, b.r6.w9, b.r7.w8, b.r7.w9⟩,
   ⟨b.r0.w10, b.r0.w11, b.r1.w10, b.r1.w11, b.r2.w10, b.r2.w11, b.r3.w10, b.r3.w11,
    b.r4.w10, b.r4.w11, b.r5.w10, b.r5.w11, b.r6.w10, b.r6.w11, b.r7.w10, b.r7.w11⟩,
   ⟨b.r0.w12, b.r0.w13, b.r1.w12, b.r1.w13, b.r2.w12, b.r2.w13, b.r3.w12, b.r3.w13,
    b.r4.w12, b.r4.w13, b.r5.w12, b.r5.w13, b.r6.w12, b.r6.w13, b.r7.w12, b.r7.w13⟩,
   ⟨b.r0.w14, b.r0.w15, b.r1.w14, b.r1.w15, b.r2.w14, b.r2.w15, b.r3.w14, b.r3.w15,
    b.r4.w14, b.r4.w15, b.r5.w14, b.r5.w15, b.r6.w14, b.r6.w15, b.r7.w14, b.r7.w15⟩⟩

/-- Compresses two blocks into one. -/
def compress (x y : Block) : Block :=
  let sum := x.xor y
  sum.xor sum.permuteRows.transpose.permuteRows.transpose

end Block

end RandomX.Argon2
