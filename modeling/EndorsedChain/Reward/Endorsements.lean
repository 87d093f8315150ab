/-! # Endorsements of one block -/

namespace EndorsedChain.Reward

/-- A transaction that endorses a block, and the address its miner is paid to. -/
structure Endorsement where
  miner : String
  txid : String
deriving DecidableEq, Repr

/-- The endorsements of a block by the height of the VeriBlock block that holds them. -/
structure Endorsements where
  /-- In the order of the heights. -/
  groups : List (Nat × List Endorsement) := []
deriving DecidableEq, Repr

namespace Endorsements

def empty : Endorsements := {}

/-- Adds to the group of a height, which keeps the order of arrival. -/
def insert (height : Nat) (e : Endorsement) :
    List (Nat × List Endorsement) → List (Nat × List Endorsement)
  | [] => [(height, [e])]
  | (h, group) :: rest =>
    if height < h then (height, [e]) :: (h, group) :: rest
    else if height = h then (h, group ++ [e]) :: rest
    else (h, group) :: insert height e rest

def add (es : Endorsements) (height : Nat) (e : Endorsement) : Endorsements :=
  ⟨insert height e es.groups⟩

def ofList (es : List (Nat × Endorsement)) : Endorsements :=
  es.foldl (fun acc (height, e) => acc.add height e) empty

/-- The height of the earliest endorsement. -/
def lowest? (es : Endorsements) : Option Nat := es.groups.head?.map (·.1)

def size (es : Endorsements) : Nat := (es.groups.flatMap (·.2)).length

def isEmpty (es : Endorsements) : Bool := es.groups.all (·.2.isEmpty)

@[simp] theorem size_empty : empty.size = 0 := rfl

theorem size_insert (height : Nat) (e : Endorsement) (groups : List (Nat × List Endorsement)) :
    (Endorsements.mk (insert height e groups)).size = (Endorsements.mk groups).size + 1 := by
  unfold size
  induction groups with
  | nil => rfl
  | cons g rest ih =>
    unfold insert
    split
    · simp
    · split
      · simp; omega
      · simp at ih ⊢; omega

end Endorsements

end EndorsedChain.Reward
