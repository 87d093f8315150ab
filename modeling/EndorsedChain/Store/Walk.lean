import EndorsedChain.Store.Basic

/-! # Walks from parent to parent -/

namespace EndorsedChain.Store

variable {β ι : Type} [DecidableEq ι] [BlockId ι] [Linked β ι]

/-- At most `count` blocks back from `id`, newest first. The walk ends at an origin or where a
parent is missing. -/
def chain (s : Store β ι) : ι → Nat → List β
  | _, 0 => []
  | id, count + 1 =>
    match s.get id with
    | none => []
    | some b =>
      b :: if BlockId.isZero (Linked.parent b) then [] else s.chain (Linked.parent b) count

/-- The block `ago` blocks before the block `id`. -/
def fromChain (s : Store β ι) (id : ι) (ago : Nat) : Option β := (s.chain id (ago + 1))[ago]?

/-- Looks for `id` at a block and at most `steps` blocks before it. -/
def scanFrom (s : Store β ι) (id : ι) : Nat → β → Option β
  | steps, b =>
    if BlockId.designates id (Linked.id b) then some b
    else if BlockId.isZero (Linked.parent b) then none
    else
      match steps, s.get (Linked.parent b) with
      | 0, _ | _, none => none
      | steps + 1, some parent => s.scanFrom id steps parent

/-- Looks for `id` from the head back to the origin. A walk that meets no block twice takes fewer
steps than there are blocks. -/
def scanBest (s : Store β ι) (id : ι) : Option β := s.head.bind (s.scanFrom id s.size)

@[simp] theorem chain_zero (s : Store β ι) (id : ι) : s.chain id 0 = [] := rfl

theorem chain_of_get_none {s : Store β ι} {id : ι} (h : s.get id = none) (count : Nat) :
    s.chain id (count + 1) = [] := by
  rw [chain, h]

theorem chain_of_get_some {s : Store β ι} {id : ι} {b : β} (h : s.get id = some b) (count : Nat) :
    s.chain id (count + 1) =
      b :: if BlockId.isZero (Linked.parent b) then [] else s.chain (Linked.parent b) count := by
  rw [chain, h]

theorem scanFrom_zero (s : Store β ι) (id : ι) (b : β) :
    s.scanFrom id 0 b = if BlockId.designates id (Linked.id b) then some b else none := by
  unfold scanFrom
  split
  · rfl
  · split <;> rfl

theorem scanFrom_succ (s : Store β ι) (id : ι) (steps : Nat) (b : β) :
    s.scanFrom id (steps + 1) b =
      if BlockId.designates id (Linked.id b) then some b
      else if BlockId.isZero (Linked.parent b) then none
      else (s.get (Linked.parent b)).bind (s.scanFrom id steps) := by
  conv => lhs; unfold scanFrom
  cases s.get (Linked.parent b) <;> rfl

theorem length_chain_le (s : Store β ι) (id : ι) (count : Nat) :
    (s.chain id count).length ≤ count := by
  induction count generalizing id with
  | zero => simp
  | succ count ih =>
    unfold chain
    split
    · simp
    · split
      · simp
      · simpa using ih _

end EndorsedChain.Store
