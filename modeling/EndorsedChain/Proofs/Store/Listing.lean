import EndorsedChain.Proofs.Hash.Agreement
import EndorsedChain.Proofs.Store.Buckets
import Mathlib.Data.List.Find

/-!
# Stores as lists

A store answers as if it kept its blocks in one list, in the order in which they were first put,
and searched this list from its beginning.  Its buckets are the parts of the list that share a key.
A look-up misses nothing outside its bucket if identifiers stand for blocks of their own key only
(`KeepsKey`), as digests do, and truncated hashes that are no shorter than a key.
-/

namespace EndorsedChain

/-- Blocks in the order in which they were first put. -/
structure Listing (β ι : Type) where
  blocks : List β := []
  headId : Option ι := none

namespace Listing

variable {β ι : Type} [DecidableEq ι] [BlockId ι] [Linked β ι]

/-- The first block that `id` stands for. -/
def get (l : Listing β ι) (id : ι) : Option β :=
  l.blocks.find? fun b ↦ BlockId.designates id (Linked.id b)

def contains (l : Listing β ι) (id : ι) : Bool := (l.get id).isSome

/-- Overwrites the block with the same identifier, or appends. -/
def put (l : Listing β ι) (block : β) : Listing β ι where
  blocks :=
    if ∃ b ∈ l.blocks, Linked.id b = Linked.id block then
      l.blocks.map fun b ↦ if Linked.id b = Linked.id block then block else b
    else l.blocks ++ [block]
  headId := l.headId

/-- Deletes the first block that `id` stands for. -/
def remove (l : Listing β ι) (id : ι) : Option β × Listing β ι :=
  (l.get id, { l with blocks := l.blocks.eraseP fun b ↦ BlockId.designates id (Linked.id b) })

def head (l : Listing β ι) : Option β := l.headId.bind l.get

def setHead (l : Listing β ι) (block : β) : Except Store.Error (Option β × Listing β ι) :=
  if l.contains (Linked.id block) then
    .ok (l.head, { l with headId := some (Linked.id block) })
  else .error (.chainHeadNotStored (BlockId.toHex (Linked.id block)))

def unsetHead (l : Listing β ι) : Option β × Listing β ι := (l.head, { l with headId := none })

def size (l : Listing β ι) : Nat := l.blocks.length

end Listing

namespace Store

/-! ## Requests -/

inductive Request (β ι : Type) where
  | put (block : β)
  | get (id : ι)
  | contains (id : ι)
  | remove (id : ι)
  | head
  | setHead (block : β)
  | unsetHead
  | clear
  | size
  | isEmpty

inductive Answer (β : Type) where
  | done
  | block (found : Option β)
  /-- The head before, unless the new one is not stored. -/
  | moved (prior : Except Error (Option β))
  | flag (holds : Bool)
  | count (blocks : Nat)
deriving DecidableEq

section Machines

variable {β ι : Type} [DecidableEq ι] [BlockId ι] [Linked β ι]

omit [DecidableEq ι] [BlockId ι] in
/-- The identifiers that are handed to a store. -/
def Request.ids : Request β ι → List ι
  | .put block | .setHead block => [Linked.id block]
  | .get id | .contains id | .remove id => [id]
  | .head | .unsetHead | .clear | .size | .isEmpty => []

/-- The answer of a store, and the store after it. -/
def step (s : Store β ι) : Request β ι → Answer β × Store β ι
  | .put block => (.done, s.put block)
  | .get id => (.block (s.get id), s)
  | .contains id => (.flag (s.contains id), s)
  | .remove id => (.block (s.remove id).1, (s.remove id).2)
  | .head => (.block s.head, s)
  | .setHead block =>
    match s.setHead block with
    | .ok (prior, s) => (.moved (.ok prior), s)
    | .error e => (.moved (.error e), s)
  | .unsetHead => (.block s.unsetHead.1, s.unsetHead.2)
  | .clear => (.done, .empty)
  | .size => (.count s.size, s)
  | .isEmpty => (.flag s.isEmpty, s)

def answers (s : Store β ι) : List (Request β ι) → List (Answer β)
  | [] => []
  | req :: reqs => (s.step req).1 :: (s.step req).2.answers reqs

/-- The store after some requests. -/
def after (s : Store β ι) (reqs : List (Request β ι)) : Store β ι :=
  reqs.foldl (fun s req ↦ (s.step req).2) s

theorem Keyed.step {s : Store β ι} (h : s.Keyed) (req : Request β ι) : (s.step req).2.Keyed := by
  cases req with
  | put b => exact h.put b
  | remove id => exact h.remove id
  | setHead b =>
    unfold Store.step
    dsimp only
    split
    · rename_i hset
      exact h.setHead hset
    · exact h
  | unsetHead => exact h.congr rfl
  | clear => exact .empty
  | get | contains | head | size | isEmpty => exact h

theorem Keyed.after {s : Store β ι} (h : s.Keyed) (reqs : List (Request β ι)) :
    (s.after reqs).Keyed := by
  induction reqs generalizing s with
  | nil => exact h
  | cons req reqs ih => exact ih (h.step req)

end Machines

end Store

namespace Listing

variable {β ι : Type} [DecidableEq ι] [BlockId ι] [Linked β ι]

open Store

/-- The answer of a list, and the list after it. -/
def step (l : Listing β ι) : Request β ι → Answer β × Listing β ι
  | .put block => (.done, l.put block)
  | .get id => (.block (l.get id), l)
  | .contains id => (.flag (l.contains id), l)
  | .remove id => (.block (l.remove id).1, (l.remove id).2)
  | .head => (.block l.head, l)
  | .setHead block =>
    match l.setHead block with
    | .ok (prior, l) => (.moved (.ok prior), l)
    | .error e => (.moved (.error e), l)
  | .unsetHead => (.block l.unsetHead.1, l.unsetHead.2)
  | .clear => (.done, {})
  | .size => (.count l.size, l)
  | .isEmpty => (.flag (decide (l.size = 0)), l)

def answers (l : Listing β ι) : List (Request β ι) → List (Answer β)
  | [] => []
  | req :: reqs => (l.step req).1 :: (l.step req).2.answers reqs

end Listing

namespace Store

/-! ## The part of a list that shares a key -/

section Parts

variable {β ι : Type} [DecidableEq ι] [BlockId ι] [Linked β ι] {b : β} {key : ι} {l : List β}

omit [BlockId ι] in
theorem putIn_eq (h : (l.map Linked.id).Nodup) :
    putIn b l = if ∃ x ∈ l, Linked.id x = Linked.id b then
      l.map fun x ↦ if Linked.id x = Linked.id b then b else x else l ++ [b] := by
  induction l with
  | nil => simp [putIn]
  | cons a l ih =>
    rw [List.map_cons, List.nodup_cons] at h
    unfold putIn
    by_cases ha : Linked.id a = Linked.id b
    · have hl : (l.map fun x ↦ if Linked.id x = Linked.id b then b else x) = l.map id := by
        refine List.map_congr_left fun x hx ↦ if_neg fun hid ↦ h.1 ?_
        exact List.mem_map.mpr ⟨x, hx, hid.trans ha.symm⟩
      rw [if_pos ha, if_pos ⟨a, List.mem_cons_self, ha⟩, List.map_cons, if_pos ha, hl, List.map_id]
    · have hexists : (∃ x ∈ a :: l, Linked.id x = Linked.id b) ↔
          ∃ x ∈ l, Linked.id x = Linked.id b := by simp [ha]
      rw [if_neg ha, ih h.2, List.map_cons, if_neg ha]
      simp only [hexists]
      split <;> rfl

theorem filter_putIn : (putIn b l).filter (keyOf · = key) =
    if key = keyOf b then putIn b (l.filter (keyOf · = key)) else l.filter (keyOf · = key) := by
  induction l with
  | nil =>
    by_cases hkey : key = keyOf b
    · simp [putIn, hkey]
    · simp [putIn, hkey, Ne.symm hkey]
  | cons a l ih =>
    by_cases ha : Linked.id a = Linked.id b
    · -- the block that is overwritten is in the same part
      have hkey : keyOf a = keyOf b := congrArg BlockId.storeKey ha
      rw [putIn, if_pos ha]
      by_cases hb : key = keyOf b
      · rw [if_pos hb, List.filter_cons_of_pos (by simp [hb]),
          List.filter_cons_of_pos (by simp [hb, hkey]), putIn, if_pos ha]
      · rw [if_neg hb, List.filter_cons_of_neg (by simpa using Ne.symm hb),
          List.filter_cons_of_neg (by simpa [hkey] using Ne.symm hb)]
    · rw [putIn, if_neg ha, List.filter_cons, List.filter_cons, ih]
      split
      · split
        · rw [putIn, if_neg ha]
        · rfl
      · rfl

theorem filter_eraseP {p : β → Bool} {k : ι} (hp : ∀ x ∈ l, p x = true → keyOf x = k) :
    (l.eraseP p).filter (keyOf · = key) =
      if key = k then (l.filter (keyOf · = key)).eraseP p else l.filter (keyOf · = key) := by
  induction l with
  | nil => simp
  | cons a l ih =>
    rw [List.forall_mem_cons] at hp
    cases ha : p a with
    | true =>
      have hkey : keyOf a = k := hp.1 ha
      rw [List.eraseP_cons_of_pos ha, List.filter_cons, hkey]
      by_cases hk : key = k
      · rw [if_pos hk, if_pos (by simp [hk]), List.eraseP_cons_of_pos ha]
      · rw [if_neg hk, if_neg (by simpa using Ne.symm hk)]
    | false =>
      have ha' : ¬p a = true := by simp [ha]
      rw [List.eraseP_cons_of_neg ha', List.filter_cons, List.filter_cons, ih hp.2]
      split
      · split
        · rw [List.eraseP_cons_of_neg ha']
        · rfl
      · rfl

end Parts

/-! ## The list behind a store -/

section Lists

variable {β ι : Type} [DecidableEq ι] [BlockId ι] [Linked β ι] {P : ι → Prop} {s : Store β ι}
  {l : Listing β ι} {b : β} {id : ι}

/-- Identifiers of this kind stand for blocks of their own key only. -/
def KeepsKey (P : ι → Prop) : Prop :=
  ∀ a b, P a → P b → BlockId.designates a b = true → BlockId.storeKey b = BlockId.storeKey a

/-- The buckets of the store are the parts of the list, and all identifiers are of one kind. -/
structure Lists (P : ι → Prop) (s : Store β ι) (l : Listing β ι) : Prop where
  keyed : s.Keyed
  bucket : ∀ key, s.bucket key = l.blocks.filter (keyOf · = key)
  headId : s.headId = l.headId
  nodup_ids : (l.blocks.map Linked.id).Nodup
  blocks_ok : ∀ b ∈ l.blocks, P (Linked.id b)
  head_ok : ∀ id, l.headId = some id → P id

namespace Lists

theorem empty : Lists P (.empty : Store β ι) {} where
  keyed := Keyed.empty
  bucket _ := rfl
  headId := rfl
  nodup_ids := List.nodup_nil
  blocks_ok _ hb := absurd hb List.not_mem_nil
  head_ok _ hid := by cases hid

/-- What an identifier stands for has its key. -/
theorem keyOf_eq (hP : KeepsKey P) (h : Lists P s l) (hid : P id) :
    ∀ b ∈ l.blocks, BlockId.designates id (Linked.id b) = true → keyOf b = BlockId.storeKey id :=
  fun b hb ↦ hP id (Linked.id b) hid (h.blocks_ok b hb)

theorem get (hP : KeepsKey P) (h : Lists P s l) (hid : P id) : s.get id = l.get id := by
  unfold Store.get Listing.get
  rw [h.bucket, List.find?_filter]
  refine List.find?_congr fun b hb ↦ ?_
  cases hdesignates : BlockId.designates id (Linked.id b) with
  | true => simpa using h.keyOf_eq hP hid b hb hdesignates
  | false => simp

theorem head (hP : KeepsKey P) (h : Lists P s l) : s.head = l.head := by
  unfold Store.head Listing.head
  rw [h.headId]
  cases hid : l.headId with
  | none => rfl
  | some id => exact h.get hP (h.head_ok id hid)

theorem size (h : Lists P s l) : s.size = l.size := by
  have hmem (b : β) : b ∈ s.blocks ↔ b ∈ l.blocks := by
    rw [mem_blocks h.keyed, h.bucket, List.mem_filter]
    simp
  exact ((List.perm_ext_iff_of_nodup h.keyed.nodup_blocks h.nodup_ids.of_map).mpr hmem).length_eq

theorem isEmpty (h : Lists P s l) : s.isEmpty = decide (l.size = 0) := by
  rw [Bool.eq_iff_iff, isEmpty_iff h.keyed, decide_eq_true_eq, ← h.size, Store.size,
    List.length_eq_zero_iff]

theorem put (h : Lists P s l) (hb : P (Linked.id b)) : Lists P (s.put b) (l.put b) := by
  have hblocks : (l.put b).blocks = putIn b l.blocks := (putIn_eq h.nodup_ids).symm
  refine ⟨h.keyed.put b, fun key ↦ ?_, h.headId, ?_, fun x hx ↦ ?_, h.head_ok⟩
  · rw [bucket_put, h.bucket, hblocks, filter_putIn]
  · rw [hblocks]
    exact nodup_ids_putIn h.nodup_ids
  · rw [hblocks] at hx
    rcases (mem_putIn h.nodup_ids).mp hx with rfl | ⟨hx, -⟩
    · exact hb
    · exact h.blocks_ok x hx

theorem remove (hP : KeepsKey P) (h : Lists P s l) (hid : P id) :
    Lists P (s.remove id).2 (l.remove id).2 where
  keyed := h.keyed.remove id
  bucket key := by
    rw [bucket_remove h.keyed, h.bucket]
    exact (filter_eraseP (h.keyOf_eq hP hid)).symm
  headId := h.headId
  nodup_ids := h.nodup_ids.sublist (List.eraseP_sublist.map _)
  blocks_ok b hb := h.blocks_ok b (List.eraseP_subset hb)
  head_ok := h.head_ok

theorem setHeadId (h : Lists P s l) {headId : Option ι} (hid : ∀ id, headId = some id → P id) :
    Lists P { s with headId } { l with headId } where
  keyed := h.keyed.congr rfl
  bucket := h.bucket
  headId := rfl
  nodup_ids := h.nodup_ids
  blocks_ok := h.blocks_ok
  head_ok := hid

/-- Store and list answer a request alike, and stay alike. -/
theorem step (hP : KeepsKey P) (h : Lists P s l) (req : Request β ι) (hids : ∀ id ∈ req.ids, P id) :
    (s.step req).1 = (l.step req).1 ∧ Lists P (s.step req).2 (l.step req).2 := by
  cases req with
  | put b => exact ⟨rfl, h.put (hids _ (List.mem_singleton_self _))⟩
  | get id => exact ⟨congrArg Answer.block (h.get hP (hids _ (List.mem_singleton_self _))), h⟩
  | contains id =>
    have hget := h.get hP (hids _ (List.mem_singleton_self _))
    exact ⟨congrArg (fun found : Option β ↦ Answer.flag found.isSome) hget, h⟩
  | remove id =>
    have hid := hids _ (List.mem_singleton_self _)
    exact ⟨congrArg Answer.block (h.get hP hid), h.remove hP hid⟩
  | head => exact ⟨congrArg Answer.block (h.head hP), h⟩
  | setHead b =>
    have hid := hids _ (List.mem_singleton_self _)
    have hcontains : s.contains (Linked.id b) = l.contains (Linked.id b) :=
      congrArg Option.isSome (h.get hP hid)
    simp only [Store.step, Listing.step, Store.setHead, Listing.setHead, hcontains, h.head hP]
    cases l.contains (Linked.id b) with
    | true => exact ⟨rfl, h.setHeadId fun id heq ↦ Option.some.inj heq ▸ hid⟩
    | false => exact ⟨rfl, h⟩
  | unsetHead =>
    exact ⟨congrArg Answer.block (h.head hP), h.setHeadId fun _ heq ↦ absurd heq (by simp)⟩
  | clear => exact ⟨rfl, .empty⟩
  | size => exact ⟨congrArg Answer.count h.size, h⟩
  | isEmpty => exact ⟨congrArg Answer.flag h.isEmpty, h⟩

theorem answers (hP : KeepsKey P) (h : Lists P s l) {reqs : List (Request β ι)}
    (hids : ∀ req ∈ reqs, ∀ id ∈ req.ids, P id) : s.answers reqs = l.answers reqs := by
  induction reqs generalizing s l with
  | nil => rfl
  | cons req reqs ih =>
    rw [List.forall_mem_cons] at hids
    obtain ⟨hanswer, hnext⟩ := h.step hP req hids.1
    rw [Store.answers, Listing.answers, hanswer, ih hnext hids.2]

end Lists

end Lists

/-! ## Identifiers that keep their key -/

theorem keepsKey_digest : KeepsKey fun _ : Digest ↦ True :=
  fun _ _ _ _ h ↦ (of_decide_eq_true h).symm

theorem keepsKey_vblake : KeepsKey fun h : VBlake ↦ 9 ≤ h.length :=
  fun _ _ ha hb hagrees ↦ (VBlake.storeKey_eq_of_agrees ha hb hagrees).symm

/-- From the empty store on, all answers are those of a list, whatever is put and removed and
wherever the head is moved. -/
theorem answers_as_list :
    (∀ (β : Type) [Linked β Digest] (reqs : List (Request β Digest)),
      (Store.empty : Store β Digest).answers reqs = ({} : Listing β Digest).answers reqs) ∧
    ∀ (β : Type) [Linked β VBlake] (reqs : List (Request β VBlake)),
      (∀ req ∈ reqs, ∀ id ∈ req.ids, 9 ≤ id.length) →
        (Store.empty : Store β VBlake).answers reqs = ({} : Listing β VBlake).answers reqs :=
  ⟨fun _ _ _ ↦ Lists.empty.answers keepsKey_digest fun _ _ _ _ ↦ trivial,
    fun _ _ _ hids ↦ Lists.empty.answers keepsKey_vblake hids⟩

def zeroLink : Link VBlake := ⟨VBlake.zero, VBlake.zero, 0⟩

/-- Hashes that differ in their first byte only. -/
def twinHash (first : UInt8) : VBlake := ⟨first :: List.replicate 23 1, by simp, by simp⟩

def twinLink (first : UInt8) : Link VBlake := ⟨twinHash first, VBlake.zero, 0⟩

/-- Two of three blocks share a key. -/
def truncatedRequests : List (Request (Link VBlake) VBlake) :=
  [.put (twinLink 1), .put zeroLink, .put (twinLink 2), .size, .get (twinHash 2).toKeystone,
    .get (twinHash 2), .setHead (twinLink 2), .remove (twinHash 2).toPrevious, .head,
    .remove (twinHash 1), .remove (twinHash 1).toKeystone, .head, .setHead (twinLink 2), .size,
    .get zeroLink.id.toKeystone]

/-- References of 9 and of 12 bytes stand for the twin that was put first, whole identifiers for
one of them only. -/
theorem truncated_answers_as_list :
    (∀ req ∈ truncatedRequests, ∀ id ∈ req.ids, 9 ≤ id.length) ∧
      Store.empty.answers truncatedRequests =
        ({} : Listing (Link VBlake) VBlake).answers truncatedRequests ∧
      Store.empty.answers truncatedRequests = [.done, .done, .done, .count 3,
        .block (some (twinLink 1)), .block (some (twinLink 2)), .moved (.ok none),
        .block (some (twinLink 1)), .block (some (twinLink 2)), .block none,
        .block (some (twinLink 2)), .block none,
        .moved (.error (.chainHeadNotStored (twinHash 2).toHex)), .count 1,
        .block (some zeroLink)] := by
  have hids : ∀ req ∈ truncatedRequests, ∀ id ∈ req.ids, 9 ≤ id.length := by decide +kernel
  exact ⟨hids, answers_as_list.2 (Link VBlake) truncatedRequests hids, by decide +kernel⟩

end Store

end EndorsedChain
