import RandomX.Aes.Round

/-!
# Four lanes

Sixty-four bytes as four cipher states, and rounds in which neighbouring lanes run in opposite directions.
-/
namespace RandomX.Aes

/-- Four cipher states side by side. -/
structure Lanes where
  (l0 l1 l2 l3 : State)
  deriving DecidableEq, Inhabited

/-! ## Bytes -/

/-- The state whose byte `i` is `f i`. -/
@[inline] def State.ofBytes (f : Nat → UInt8) : State :=
  ⟨word32 (f 0) (f 1) (f 2) (f 3), word32 (f 4) (f 5) (f 6) (f 7),
   word32 (f 8) (f 9) (f 10) (f 11), word32 (f 12) (f 13) (f 14) (f 15)⟩

/-- Appends the sixteen bytes of a state. -/
@[inline] def State.push (out : ByteArray) (s : State) : ByteArray :=
  pushWord32 (pushWord32 (pushWord32 (pushWord32 out s.c0) s.c1) s.c2) s.c3

namespace Lanes

/-- The lanes whose byte `i` is `f i`. -/
@[inline] def ofBytes (f : Nat → UInt8) : Lanes :=
  ⟨.ofBytes f, .ofBytes fun i => f (16 + i), .ofBytes fun i => f (32 + i), .ofBytes fun i => f (48 + i)⟩

def ofVector (v : Vector UInt8 64) : Lanes :=
  ofBytes fun i => v.toArray.getD i 0

/-- The lanes in the bytes of a string from an index on. -/
def ofByteArray (data : ByteArray) (start : Nat) : Lanes :=
  ofBytes fun i => byteAt data (start + i)

def push (out : ByteArray) (l : Lanes) : ByteArray :=
  State.push (State.push (State.push (State.push out l.l0) l.l1) l.l2) l.l3

def byte (l : Lanes) (i : Fin 64) : UInt8 :=
  let lane := match i.val / 16 with
    | 0 => l.l0
    | 1 => l.l1
    | 2 => l.l2
    | _ => l.l3
  let column := match i.val % 16 / 4 with
    | 0 => lane.c0
    | 1 => lane.c1
    | 2 => lane.c2
    | _ => lane.c3
  byte32 column (8 * (i.val % 4).toUInt32)

def toVector (l : Lanes) : Vector UInt8 64 :=
  Vector.ofFn l.byte

/-! ## Rounds -/

/-- Decrypts the even lanes and encrypts the odd ones. -/
@[inline] def decryptFirst (l key : Lanes) : Lanes :=
  ⟨l.l0.decrypt key.l0, l.l1.encrypt key.l1, l.l2.decrypt key.l2, l.l3.encrypt key.l3⟩

/-- Encrypts the even lanes and decrypts the odd ones. -/
@[inline] def encryptFirst (l key : Lanes) : Lanes :=
  ⟨l.l0.encrypt key.l0, l.l1.decrypt key.l1, l.l2.encrypt key.l2, l.l3.decrypt key.l3⟩

def all (s : State) : Lanes :=
  ⟨s, s, s, s⟩

end Lanes

end RandomX.Aes
