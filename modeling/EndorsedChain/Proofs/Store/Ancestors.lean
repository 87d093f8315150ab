import EndorsedChain.Proofs.Steps
import EndorsedChain.Proofs.Store.Listing
import EndorsedChain.Store.Walk

/-!
# Ancestors

The block at position `n` of a chain is the one that `n` steps to the parent lead to, and the chain
goes on as far as there is a parent and there is room (`getElem?_chain`).  So a chain is the
beginning of every longer one.  Where blocks are found by their own identifiers, the ancestors of
an ancestor are ancestors, at the sum of the distances, also if the parents go round in a circle.
-/

namespace EndorsedChain.Store

variable {β ι : Type} [DecidableEq ι] [BlockId ι] [Linked β ι] {s : Store β ι} {b x : β} {id : ι}

/-! ## Parents -/

/-- The block before a block, unless that one is an origin or its parent is missing. -/
def parent? (s : Store β ι) (b : β) : Option β :=
  if BlockId.isZero (Linked.parent b) then none else s.get (Linked.parent b)

theorem bind_parent? {α : Type} (s : Store β ι) (b : β) (f : β → Option α) :
    (s.parent? b).bind f =
      if BlockId.isZero (Linked.parent b) then none else (s.get (Linked.parent b)).bind f := by
  unfold parent?
  split <;> rfl

/-- Whatever is found is stored, in any store whatsoever. -/
theorem mem_blocks_of_get (hget : s.get id = some b) : b ∈ s.blocks := by
  have hbucket : b ∈ s.bucket (BlockId.storeKey id) := List.mem_of_find?_eq_some hget
  unfold bucket at hbucket
  cases hl : s.buckets.lookup (BlockId.storeKey id) with
  | none => rw [hl] at hbucket; cases hbucket
  | some l =>
    rw [hl] at hbucket
    obtain ⟨front, back, hsplit, -⟩ := List.lookup_eq_some_iff.mp hl
    refine List.mem_flatMap.mpr ⟨(BlockId.storeKey id, l), ?_, hbucket⟩
    rw [hsplit]
    exact List.mem_append_right _ List.mem_cons_self

theorem mem_blocks_of_parent? (h : s.parent? b = some x) : x ∈ s.blocks := by
  unfold parent? at h
  split at h
  · cases h
  · exact mem_blocks_of_get h

theorem mem_blocks_of_steps {n : Nat} (h : steps s.parent? n (s.get id) = some x) :
    x ∈ s.blocks := by
  cases hget : s.get id with
  | none => rw [hget, steps_none] at h; cases h
  | some b =>
    rw [hget] at h
    exact steps_mem s.parent? (fun _ _ _ ↦ mem_blocks_of_parent?) n (mem_blocks_of_get hget) h

/-! ## Positions in a chain -/

theorem getElem?_chain (s : Store β ι) (id : ι) (count n : Nat) :
    (s.chain id count)[n]? = if n < count then steps s.parent? n (s.get id) else none := by
  induction count generalizing id n with
  | zero => rfl
  | succ count ih =>
    cases hget : s.get id with
    | none => rw [chain_of_get_none hget, steps_none, ite_self, List.getElem?_nil]
    | some b =>
      rw [chain_of_get_some hget]
      cases n with
      | zero => rfl
      | succ n =>
        rw [List.getElem?_cons_succ, steps_succ, parent?]
        by_cases hzero : BlockId.isZero (Linked.parent b) = true
        · rw [if_pos hzero, if_pos hzero, steps_none, ite_self, List.getElem?_nil]
        · rw [if_neg hzero, if_neg hzero, ih]
          exact if_congr (Nat.succ_lt_succ_iff).symm rfl rfl

theorem chain_eq_take (s : Store β ι) (id : ι) {m n : Nat} (hle : m ≤ n) :
    s.chain id m = (s.chain id n).take m := by
  refine List.ext_getElem? fun i ↦ ?_
  rw [List.getElem?_take, getElem?_chain, getElem?_chain]
  by_cases hi : i < m
  · rw [if_pos hi, if_pos hi, if_pos (by omega)]
  · rw [if_neg hi, if_neg hi]

theorem fromChain_eq (s : Store β ι) (id : ι) (ago : Nat) :
    s.fromChain id ago = steps s.parent? ago (s.get id) := by
  rw [fromChain, getElem?_chain, if_pos (Nat.lt_succ_self ago)]

/-! ## Walks that follow each other -/

/-- How the chains of a store and the blocks on them belong together. -/
structure WalksCompose (s : Store β ι) : Prop where
  /-- A chain begins with what the identifier designates. -/
  first : ∀ id n, (s.chain id (n + 1))[0]? = s.get id
  /-- It goes on with the parent, unless there is none or the chain is as long as it may be. -/
  next : ∀ id n i b, i + 1 < n → (s.chain id n)[i]? = some b →
    (s.chain id n)[i + 1]? =
      if BlockId.isZero (Linked.parent b) then none else s.get (Linked.parent b)
  take : ∀ id m n, m ≤ n → s.chain id m = (s.chain id n).take m
  length : ∀ id m n, m ≤ n → (s.chain id m).length = min m (s.chain id n).length
  /-- A block of a chain can be asked for by its position. -/
  position : ∀ id a n, a < n → s.fromChain id a = (s.chain id n)[a]?
  add : ∀ id a b,
    s.fromChain id (a + b) = (s.fromChain id a).bind fun x ↦ s.fromChain (Linked.id x) b

/-- It is enough that blocks are found by their own identifiers. -/
theorem walksCompose (hself : ∀ b ∈ s.blocks, s.get (Linked.id b) = some b) : s.WalksCompose where
  first id n := by
    rw [getElem?_chain, if_pos n.succ_pos]
    rfl
  next id n i b hi hb := by
    rw [getElem?_chain, if_pos (by omega)] at hb
    rw [getElem?_chain, if_pos hi, steps_succ_last, hb]
    rfl
  take id m n hle := chain_eq_take s id hle
  length id m n hle := by rw [chain_eq_take s id hle, List.length_take]
  position id a n hlt := by rw [fromChain_eq, getElem?_chain, if_pos hlt]
  add id a b := by
    rw [fromChain_eq, fromChain_eq, Nat.add_comm, steps_add]
    cases hx : steps s.parent? a (s.get id) with
    | none => exact steps_none _ b
    | some x => rw [Option.bind_some, fromChain_eq, hself x (mem_blocks_of_steps hx)]

theorem Keyed.get_id_digest {s : Store β Digest} [Linked β Digest] (h : s.Keyed)
    (hb : b ∈ s.blocks) : s.get (Linked.id b) = some b :=
  h.get_id hb (decide_eq_true rfl) fun _ _ hdesignates ↦ (of_decide_eq_true hdesignates).symm

/-- Hashes of one length stand for each other only if they are equal. -/
theorem Keyed.get_id_vblake {s : Store β VBlake} [Linked β VBlake] (h : s.Keyed) {n : Nat}
    (hlength : ∀ b ∈ s.blocks, (Linked.id b).length = n) (hb : b ∈ s.blocks) :
    s.get (Linked.id b) = some b := by
  refine h.get_id hb (VBlake.agrees_self _) fun x hx hagrees ↦ ?_
  exact ((VBlake.agrees_iff_eq ((hlength b hb).trans (hlength x hx).symm)).mp hagrees).symm

/-- The walks of every store compose whose identifiers have all one length, as digests have. -/
theorem walks_compose :
    (∀ (β : Type) [Linked β Digest] (reqs : List (Request β Digest)),
      ((.empty : Store β Digest).after reqs).WalksCompose) ∧
    ∀ (β : Type) [Linked β VBlake] (reqs : List (Request β VBlake)) (n : Nat),
      (∀ b ∈ ((.empty : Store β VBlake).after reqs).blocks, (Linked.id b).length = n) →
        ((.empty : Store β VBlake).after reqs).WalksCompose := by
  constructor
  · intro β _ reqs
    exact walksCompose fun b hb ↦ (Keyed.empty.after reqs).get_id_digest hb
  · intro β _ reqs n hlength
    exact walksCompose fun b hb ↦ (Keyed.empty.after reqs).get_id_vblake hlength hb

def circularHash (byte : UInt8) : VBlake := ⟨List.replicate 24 byte, by simp, by simp⟩

/-- Two blocks that are each the parent of the other. -/
def circularRequests : List (Request (Link VBlake) VBlake) :=
  [.put ⟨circularHash 1, (circularHash 2).toPrevious, 0⟩,
    .put ⟨circularHash 2, (circularHash 1).toPrevious, 0⟩]

/-- From a reference of 9 bytes, five blocks back is three blocks back from the block two back. -/
theorem circular_walks_compose :
    (∀ b ∈ (Store.empty.after circularRequests).blocks, (Linked.id b).length = 24) ∧
      (Store.empty.after circularRequests).fromChain (circularHash 1).toKeystone (2 + 3) =
        some ⟨circularHash 2, (circularHash 1).toPrevious, 0⟩ ∧
      (Store.empty.after circularRequests).fromChain (circularHash 1).toKeystone (2 + 3) =
        (Store.empty.after circularRequests).fromChain (circularHash 1) 3 := by
  have hlength : ∀ b ∈ (Store.empty.after circularRequests).blocks,
      (Linked.id b).length = 24 := by decide +kernel
  have htwo : (Store.empty.after circularRequests).fromChain (circularHash 1).toKeystone 2 =
      some ⟨circularHash 1, (circularHash 2).toPrevious, 0⟩ := by decide +kernel
  have hadd := (walks_compose.2 (Link VBlake) circularRequests 24 hlength).add
    (circularHash 1).toKeystone 2 3
  rw [htwo, Option.bind_some] at hadd
  exact ⟨hlength, by decide +kernel, hadd⟩

end EndorsedChain.Store
