import EndorsedChain.Header.VeriBlock
import EndorsedChain.Network.Parameters

/-!
# Retargeting

The difficulty of the next header is a linearly weighted moving average over the chain before it:
the later a solve time, the more it weighs.
-/

namespace EndorsedChain.Retarget

open VeriBlock

/-- How many headers the calculation looks back. -/
def period : Nat := 100

/-- The intended time between two headers, in seconds. -/
def targetBlockTime : Nat := 30

/-- No solve time counts for more than six intended ones, forwards or backwards. -/
def solveTime (older newer : Header) : Int :=
  min 180 (max (-180) ((newer.timestamp.toNat : Int) - older.timestamp.toNat))

/-- The weighted solve times and the summed difficulties of a chain, oldest header first. The
oldest header only gives the time from which the second one was solved. -/
def accumulate : Nat → List Header → Except Compact.Error (Int × Nat)
  | weight, older :: newer :: rest => do
    let work ← newer.work
    let (time, total) ← accumulate (weight + 1) (newer :: rest)
    return (weight * solveTime older newer + time, work + total)
  | _, [_] | _, [] => return (0, 0)

/-- The sum of the weights 1 to `n`, in intended solve times. -/
def expectedTime (n : Nat) : Nat := n * (n + 1) * targetBlockTime / 2

/-- The difficulty after `context`, the newest header first. -/
def next (params : NetworkParameters) : List Header → Except Compact.Error Nat
  | [] => return params.minimumDifficulty.toNat
  | [only] => only.work
  | context => do
    let (time, total) ← accumulate 1 context.reverse
    let n := context.length - 1
    let expected := expectedTime n
    let time := max (max time (expected / 10 : Nat)) 1
    return max (total * expected / (n * time.toNat)) params.minimumDifficulty.toNat

@[simp] theorem next_nil (params : NetworkParameters) :
    next params [] = .ok params.minimumDifficulty.toNat := rfl

@[simp] theorem next_singleton (params : NetworkParameters) (h : Header) :
    next params [h] = h.work := rfl

end EndorsedChain.Retarget
