import EndorsedChain.Store.Linked

/-!
# Block stores

A store keeps blocks in buckets, one for each key of an identifier, and points to the head of its
chain. It checks nothing about its blocks.
-/

namespace EndorsedChain

structure Store (β : Type) (ι : Type) where
  /-- The blocks of each key, in the order in which they were first put. -/
  buckets : List (ι × List β) := []
  /-- The head may have been removed since it was set. -/
  headId : Option ι := none
deriving DecidableEq, Repr

namespace Store

variable {β ι : Type}

inductive Error where
  | chainHeadNotStored (id : String)
deriving DecidableEq, Repr

def Error.message : Error → String
  | .chainHeadNotStored id =>
    "chain head should reference existing block, `" ++ id ++ "` is not stored"

def empty : Store β ι := {}

instance : Inhabited (Store β ι) := ⟨empty⟩

def blocks (s : Store β ι) : List β := s.buckets.flatMap (·.2)

def size (s : Store β ι) : Nat := s.blocks.length

def isEmpty (s : Store β ι) : Bool := s.buckets.isEmpty

section

variable [DecidableEq ι]

/-- Applies `f` to the bucket of a key, a missing bucket being empty. -/
def updateBucket (f : List β → List β) (key : ι) : List (ι × List β) → List (ι × List β)
  | [] => [(key, f [])]
  | (k, bucket) :: rest =>
    if k = key then (k, f bucket) :: rest else (k, bucket) :: updateBucket f key rest

/-- Deletes the first block of a bucket for which `p` holds, and the bucket if nothing is left. -/
def discard (p : β → Bool) (key : ι) : List (ι × List β) → List (ι × List β)
  | [] => []
  | (k, bucket) :: rest =>
    if k = key then
      match bucket.eraseP p with
      | [] => rest
      | left => (k, left) :: rest
    else (k, bucket) :: discard p key rest

end

variable [DecidableEq ι] [BlockId ι] [Linked β ι]

/-- Takes the place of the block with the same identifier, or the last place. -/
def putIn (block : β) : List β → List β
  | [] => [block]
  | b :: bucket => if Linked.id b = Linked.id block then block :: bucket else b :: putIn block bucket

def bucket (s : Store β ι) (key : ι) : List β := (s.buckets.lookup key).getD []

/-- The first block put that `id` stands for. -/
def get (s : Store β ι) (id : ι) : Option β :=
  (s.bucket (BlockId.storeKey id)).find? fun b => BlockId.designates id (Linked.id b)

def contains (s : Store β ι) (id : ι) : Bool := (s.get id).isSome

def put (s : Store β ι) (block : β) : Store β ι :=
  { s with
    buckets := updateBucket (putIn block) (BlockId.storeKey (Linked.id block)) s.buckets }

/-- Deletes the block that `id` stands for. -/
def remove (s : Store β ι) (id : ι) : Option β × Store β ι :=
  (s.get id,
   { s with
     buckets :=
       discard (fun b => BlockId.designates id (Linked.id b)) (BlockId.storeKey id) s.buckets })

/-- The head of the chain, unless it was never set or is no longer stored. -/
def head (s : Store β ι) : Option β := s.headId.bind s.get

/-- Moves the head to a stored block. The result comes with the head before. -/
def setHead (s : Store β ι) (block : β) : Except Error (Option β × Store β ι) :=
  let id := Linked.id block
  if s.contains id then .ok (s.head, { s with headId := some id })
  else .error (.chainHeadNotStored (BlockId.toHex id))

/-- Forgets the head. The result comes with the head before. -/
def unsetHead (s : Store β ι) : Option β × Store β ι := (s.head, { s with headId := none })

@[simp] theorem headId_put (s : Store β ι) (block : β) : (s.put block).headId = s.headId := rfl

@[simp] theorem headId_remove (s : Store β ι) (id : ι) : (s.remove id).2.headId = s.headId := rfl

@[simp] theorem fst_remove (s : Store β ι) (id : ι) : (s.remove id).1 = s.get id := rfl

end Store

end EndorsedChain
