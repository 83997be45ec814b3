import RandomX.Error
import RandomX.KeyMaterial

/-!
# Generators and hash

A generator steps its lanes and writes them out, block after block. The hash takes the blocks of its input as round
keys. The rounds are those of the tables throughout: a processor's own round instructions, which a flag may ask for,
have no model here, since they give the same bytes.
-/
namespace RandomX.Aes

/-! ## Generators -/

/-- Steps the lanes and appends them, a number of times. -/
@[specialize] def generate (step : Lanes → Lanes) : (blocks : Nat) → Lanes → ByteArray → ByteArray × Lanes
  | 0, l, out => (out, l)
  | n + 1, l, out =>
    let l := step l
    generate step n l (l.push out)

theorem size_pushWord32 (out : ByteArray) (w : UInt32) : (pushWord32 out w).size = out.size + 4 := by
  simp [pushWord32, ByteArray.size_push]

theorem size_push (out : ByteArray) (l : Lanes) : (l.push out).size = out.size + 64 := by
  simp [Lanes.push, State.push, size_pushWord32]

theorem size_generate (step : Lanes → Lanes) (n : Nat) (l : Lanes) (out : ByteArray) :
    (generate step n l out).1.size = out.size + 64 * n := by
  induction n generalizing l out with
  | zero => rfl
  | succ n ih =>
    simp only [generate, ih, size_push]
    omega

def step1 (l : Lanes) : Lanes :=
  l.decryptFirst KeyMaterial.generator1

/-- The two keys of a round, each for two lanes. -/
def keyPair (low high : State) : Lanes :=
  ⟨low, low, high, high⟩

/-- The step of four rounds. -/
def step4 (l : Lanes) : Lanes :=
  let low := KeyMaterial.generator4Low
  let high := KeyMaterial.generator4High
  let l := l.decryptFirst (keyPair low.l0 high.l0)
  let l := l.decryptFirst (keyPair low.l1 high.l1)
  let l := l.decryptFirst (keyPair low.l2 high.l2)
  l.decryptFirst (keyPair low.l3 high.l3)

/-- Writes `n` bytes with one round for each block, and returns the advanced state. -/
def fill1 (state : Vector UInt8 64) (n : Nat) : Except Error (ByteArray × Vector UInt8 64) :=
  if n % 64 = 0 then
    let (out, l) := generate step1 (n / 64) (.ofVector state) (.emptyWithCapacity n)
    .ok (out, l.toVector)
  else
    .error .partialOutput

/-- Writes `n` bytes with four rounds for each block. -/
def fill4 (state : Vector UInt8 64) (n : Nat) : Except Error ByteArray :=
  if n % 64 = 0 then
    .ok (generate step4 (n / 64) (.ofVector state) (.emptyWithCapacity n)).1
  else
    .error .partialOutput

/-! ## Hash -/

/-- Takes the blocks of the data up to its end as round keys. -/
def absorb (data : ByteArray) : (blocks : Nat) → Lanes → Lanes
  | 0, l => l
  | n + 1, l => absorb data n (l.encryptFirst (.ofByteArray data (data.size - 64 * (n + 1))))

def finish (l : Lanes) : Lanes :=
  (l.encryptFirst (.all KeyMaterial.hashFinish0)).encryptFirst (.all KeyMaterial.hashFinish1)

/-- The hash of the whole blocks that the data ends with. -/
def hashBlocks (data : ByteArray) : Vector UInt8 64 :=
  (finish (absorb data (data.size / 64) KeyMaterial.hashStart)).toVector

/-- The hash of data that are whole blocks. -/
def hash (data : ByteArray) : Except Error (Vector UInt8 64) :=
  if data.size % 64 = 0 then .ok (hashBlocks data) else .error .partialInput

end RandomX.Aes
