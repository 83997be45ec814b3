import RandomX.Main
import RandomX.Proofs.Outcome
import RandomX.Proofs.Word
import RandomX.Proofs.Scratchpad.Bounds
import RandomX.Proofs.Program.Step
import RandomX.Proofs.Program.Branch
import RandomX.Proofs.Program.Resolve
import RandomX.Proofs.Program.Compiled
import RandomX.Proofs.Program.Path
import RandomX.Proofs.Program.Termination
import RandomX.Proofs.Program.Target
import RandomX.Proofs.Program.Lanes
import RandomX.Proofs.Superscalar.Draws
import RandomX.Proofs.Superscalar.Candidate
import RandomX.Proofs.Superscalar.Generate
import RandomX.Proofs.Superscalar.Reciprocal
import RandomX.Proofs.Superscalar.WellFormed
import RandomX.Proofs.Dataset.Cache
import RandomX.Proofs.Dataset.View
import RandomX.Proofs.Machine.Iteration
import RandomX.Proofs.Machine.Footprint
import RandomX.Proofs.Dataset.Build
import RandomX.Proofs.Machine.Mode
import RandomX.Proofs.Machine.Reachable
import RandomX.Proofs.Binary64.Value
import RandomX.Proofs.Binary64.Rounding
import RandomX.Proofs.Binary64.Masks
import RandomX.Proofs.Binary64.Sum
import RandomX.Proofs.Binary64.Level
import RandomX.Proofs.Binary64.Directed
import RandomX.Proofs.Binary64.Product
import RandomX.Proofs.Binary64.Exact
import RandomX.Proofs.Binary64.Root
import RandomX.Proofs.Machine.Groups
import RandomX.Proofs.Superscalar.Writers
import RandomX.Proofs.Dataset.Key
import RandomX.Proofs.Machine.Calls
import RandomX.Proofs.Program.Decoding
import RandomX.Proofs.Aes.Field
import RandomX.Proofs.Aes.Substitution
import RandomX.Proofs.Program.Flow
import RandomX.Proofs.Aes.Round
import RandomX.Proofs.Aes.Lanes
import RandomX.Proofs.Aes.Generator
import RandomX.Proofs.Aes.Resume
import RandomX.Proofs.Superscalar.Passes
import RandomX.Proofs.Superscalar.Chains
import RandomX.Proofs.Superscalar.Readiness
import RandomX.Proofs.Superscalar.Splits
import RandomX.Proofs.Dataset.Ranges
import RandomX.Proofs.Entropy
import RandomX.Proofs.Divisors
import RandomX.Proofs.Machine.WriteBack
import RandomX.Proofs.Dataset.Item
import RandomX.Proofs.Superscalar.Bookings
import RandomX.Proofs.Scratchpad.Stores
