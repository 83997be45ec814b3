import RandomX.Aes.Lanes
import RandomX.Blake2b
import RandomX.Line

/-!
# Key material

The fixed keys and constants, which are digests of labels.
-/
namespace RandomX.KeyMaterial

open Aes

/-- The digest of a label as four cipher states. -/
def lanesOfLabel (label : String) : Lanes :=
  Lanes.ofVector (Blake2b.hash512 label.toUTF8)

/-- Round keys of the generator with one round for each block. -/
def generator1 : Lanes :=
  lanesOfLabel "RandomX AesGenerator1R keys"

/-- The first four round keys of the generator with four rounds for each block. -/
def generator4Low : Lanes :=
  lanesOfLabel "RandomX AesGenerator4R keys 0-3"

/-- The last four round keys of the generator with four rounds for each block. -/
def generator4High : Lanes :=
  lanesOfLabel "RandomX AesGenerator4R keys 4-7"

/-- The state from which the hash starts. -/
def hashStart : Lanes :=
  lanesOfLabel "RandomX AesHash1R state"

/-- The digest that holds the two finishing keys. -/
def hashFinish : Vector UInt8 32 :=
  Blake2b.hash256 "RandomX AesHash1R xkeys".toUTF8

/-- The key of the first finishing round. -/
def hashFinish0 : State :=
  .ofBytes fun i => hashFinish.toArray.getD i 0

/-- The key of the second finishing round. -/
def hashFinish1 : State :=
  .ofBytes fun i => hashFinish.toArray.getD (16 + i) 0

/-- The constants from which the registers of a dataset item start: the multiplier of Knuth's generator, then words
of a digest, two of them shifted. -/
def superscalar : Line :=
  let bytes := bytesOfVector (Blake2b.hash512 "RandomX SuperScalarHash initialize".toUTF8)
  { w0 := 6364136223846793005
    w1 := word64At bytes 8 + 8589935292
    w2 := word64At bytes 16
    w3 := word64At bytes 24 + 16384
    w4 := word64At bytes 32
    w5 := word64At bytes 40
    w6 := word64At bytes 48
    w7 := word64At bytes 56 }

end RandomX.KeyMaterial
