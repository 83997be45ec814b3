/-!
# Text

How numbers and bytes are read and written: hexadecimal digits of fixed width, decimal numbers, bytes as quoted
characters, and texts without the white space at their ends.
-/
namespace RandomX

/-! ## Hexadecimal digits -/

namespace Hex

def digit (n : Nat) : Char :=
  Nat.digitChar n

/-- The last `width` digits of a number. -/
def digits (width n : Nat) : String :=
  String.ofList ((List.range width).map fun i => digit (n / .pow 16 (width - 1 - i) % 16))

def word (w : UInt64) : String :=
  digits 16 w.toNat

/-- Two digits for each byte. -/
def encode (bytes : ByteArray) : String :=
  bytes.foldl (fun s b => (s.push (digit (b.toNat / 16))).push (digit (b.toNat % 16))) ""

inductive ReadError where
  | oddLength
  /-- A byte that is no digit, and its position. -/
  | invalidByte (byte : UInt8) (position : Nat)
  deriving DecidableEq, Inhabited

/-- The value of a digit of either case. -/
def value? (b : UInt8) : Option UInt8 :=
  if 48 ≤ b ∧ b ≤ 57 then some (b - 48)
  else if 97 ≤ b ∧ b ≤ 102 then some (b - 87)
  else if 65 ≤ b ∧ b ≤ 70 then some (b - 55)
  else none

/-- Reads the digits in pairs, the first of which lies at `position`. -/
def decodePairs : (position : Nat) → List UInt8 → ByteArray → Except ReadError ByteArray
  | position, high :: low :: rest, out =>
    match value? high, value? low with
    | some h, some l => decodePairs (position + 2) rest (out.push (h * 16 + l))
    | none, _ => .error (.invalidByte high position)
    | _, none => .error (.invalidByte low (position + 1))
  | _, _, out => .ok out

/-- Reads a text of digits. An odd length is reported before any wrong digit. -/
def decode (text : String) : Except ReadError ByteArray :=
  let bytes := text.toUTF8.toList
  if bytes.length % 2 = 0 then decodePairs 0 bytes .empty else .error .oddLength

end Hex

/-! ## Decimal numbers -/

namespace Number

/-- The value of a text of one or more digits. -/
def digits? (cs : List Char) : Option Nat :=
  if cs.isEmpty then none
  else cs.foldl (fun acc c => do
    let n ← acc
    if c.isDigit then some (10 * n + (c.toNat - 48)) else none) (some 0)

/-- A whole number without sign or with a plus, not above `bound`. -/
def natural? (bound : Nat) (s : String) : Option Nat := do
  let n ← match s.toList with
    | '+' :: cs => digits? cs
    | cs => digits? cs
  if n ≤ bound then some n else none

/-- A whole number with an optional sign, from zero up to `bound`. -/
def signed? (bound : Nat) (s : String) : Option Nat :=
  match s.toList with
  | '-' :: cs => (digits? cs).bind fun n => if n = 0 then some 0 else none
  | _ => natural? bound s

/-- Groups the digits by threes from the right, given in reverse. -/
def groupReversed : List Char → List Char
  | a :: b :: c :: d :: rest => a :: b :: c :: ',' :: groupReversed (d :: rest)
  | cs => cs

/-- A number with a comma between groups of three digits. -/
def grouped (n : Nat) : String :=
  String.ofList (groupReversed (Nat.toDigits 10 n).reverse).reverse

/-- A number of units of `10 ^ -places`, with that many places. -/
def withPlaces (places n : Nat) : String :=
  let rest := Nat.toDigits 10 (n % .pow 10 places)
  s!"{n / .pow 10 places}." ++ String.ofList (List.replicate (places - rest.length) '0' ++ rest)

/-- The quotient rounded to the nearest whole number. -/
def roundDiv (n d : Nat) : Nat :=
  (2 * n + d) / (2 * d)

end Number

/-! ## Quoted bytes -/

namespace Quoted

/-- Control characters, the no-break space and the soft hyphen do not show. -/
def isVisible (b : UInt8) : Bool :=
  32 ≤ b && b ≠ 127 && (b < 128 || 160 < b) && b ≠ 173

/-- The byte's number in hexadecimal digits, without leading zeros. -/
def number (b : UInt8) : String :=
  String.ofList (Nat.toDigits 16 b.toNat)

/-- The character of a byte as it stands between the quotes. -/
def escape (b : UInt8) : String :=
  if b = 0 then "\\0"
  else if b = 9 then "\\t"
  else if b = 10 then "\\n"
  else if b = 13 then "\\r"
  else if b = 39 then "\\'"
  else if b = 92 then "\\\\"
  else if isVisible b then String.singleton (Char.ofNat b.toNat)
  else "\\u\x7b" ++ number b ++ "\x7d"

def render (b : UInt8) : String :=
  "'" ++ escape b ++ "'"

end Quoted

/-! ## White space -/

namespace Blank

/-- White space: tab to carriage return, the spaces of all widths, and the separators of lines and paragraphs. -/
def isBlank (c : Char) : Bool :=
  let n := c.toNat
  (9 ≤ n && n ≤ 13) || n == 0x20 || n == 0x85 || n == 0xA0 || n == 0x1680 || (0x2000 ≤ n && n ≤ 0x200A)
    || n == 0x2028 || n == 0x2029 || n == 0x202F || n == 0x205F || n == 0x3000

/-- A text without the white space at its ends. -/
def trim (s : String) : String :=
  String.ofList (((s.toList.dropWhile isBlank).reverse.dropWhile isBlank).reverse)

end Blank

end RandomX
