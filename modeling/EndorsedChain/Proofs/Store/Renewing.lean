import EndorsedChain.Proofs.Store.Ancestors

/-!
# Blocks that are taken out and put in again

A proof is attached to a block, or taken back from it, by deleting the block and putting another
version of it in.  The block then comes last in its bucket.  A reference that stands for several
blocks finds the one that was put first, so it no longer finds the renewed block
(`Store.get_renew`).  All other references find what they found before.
-/

namespace EndorsedChain.Store

variable {β ι : Type} [DecidableEq ι] [Linked β ι] {b c x : β} {l : List β}

/-! ## One bucket -/

section Bucket

/-- Only one block has a given identifier. -/
theorem eraseP_eq_filter {p : β → Bool} (hnodup : (l.map Linked.id).Nodup)
    (hp : ∀ x ∈ l, p x = true ↔ Linked.id x = Linked.id b) :
    l.eraseP p = l.filter (Linked.id · ≠ Linked.id b) := by
  induction l with
  | nil => rfl
  | cons a l ih =>
    rw [List.map_cons, List.nodup_cons] at hnodup
    rw [List.forall_mem_cons] at hp
    by_cases ha : Linked.id a = Linked.id b
    · have hl : ∀ x ∈ l, Linked.id x ≠ Linked.id b := fun x hx hid ↦
        hnodup.1 (List.mem_map.mpr ⟨x, hx, hid.trans ha.symm⟩)
      rw [List.eraseP_cons_of_pos (hp.1.mpr ha), List.filter_cons_of_neg (by simpa using ha),
        List.filter_eq_self.mpr fun x hx ↦ decide_eq_true (hl x hx)]
    · rw [List.eraseP_cons_of_neg (mt hp.1.mp ha), List.filter_cons_of_pos (by simpa using ha),
        ih hnodup.2 hp.2]

theorem putIn_of_ne (h : ∀ x ∈ l, Linked.id x ≠ Linked.id c) : putIn c l = l ++ [c] := by
  induction l with
  | nil => rfl
  | cons a l ih =>
    rw [List.forall_mem_cons] at h
    rw [putIn, if_neg h.1, ih h.2, List.cons_append]

/-- A block that is left behind may be found first. -/
theorem find?_moved_of_pos {p : ι → Bool} (hc : Linked.id c = Linked.id b)
    (hb : p (Linked.id b) = true) :
    (l.filter (Linked.id · ≠ Linked.id c) ++ [c]).find? (fun x ↦ p (Linked.id x)) =
      ((l.filter (Linked.id · ≠ Linked.id b)).find? fun x ↦ p (Linked.id x)).or (some c) := by
  rw [List.find?_append, hc, List.find?_singleton, hc, if_pos hb]

/-- What was found before the block that goes to the end is still found. -/
theorem find?_moved_of_ne {p : ι → Bool} (hnodup : (l.map Linked.id).Nodup) (hb : b ∈ l)
    (hc : Linked.id c = Linked.id b) (hne : l.find? (fun x ↦ p (Linked.id x)) ≠ some b) :
    (l.filter (Linked.id · ≠ Linked.id c) ++ [c]).find? (fun x ↦ p (Linked.id x)) =
      l.find? fun x ↦ p (Linked.id x) := by
  rw [List.find?_append, hc]
  cases hfind : l.find? fun x ↦ p (Linked.id x) with
  | none =>
    have hnone := List.find?_eq_none.mp hfind
    have hpc : ¬p (Linked.id c) = true := by
      rw [hc]
      exact hnone b hb
    rw [List.find?_eq_none.mpr fun x hx ↦ hnone x (List.mem_filter.mp hx).1, List.find?_singleton,
      if_neg hpc, Option.none_or]
  | some x =>
    have hid : Linked.id x ≠ Linked.id b := by
      intro hid
      refine hne (hfind.trans (congrArg some ?_))
      exact List.inj_on_of_nodup_map hnodup (List.mem_of_find?_eq_some hfind) hb hid
    obtain ⟨hpx, before, after, rfl, hbefore⟩ := List.find?_eq_some_iff_append.mp hfind
    have hkept : ((before ++ x :: after).filter (Linked.id · ≠ Linked.id b)).find?
        (fun x ↦ p (Linked.id x)) = some x := by
      rw [List.filter_append, List.filter_cons_of_pos (by simpa using hid)]
      exact List.find?_eq_some_iff_append.mpr
        ⟨hpx, _, _, rfl, fun a ha ↦ hbefore a (List.mem_filter.mp ha).1⟩
    rw [hkept, Option.some_or]

end Bucket

variable [BlockId ι] {s : Store β ι} {ref : ι}

/-! ## Stores -/

/-- Deletes the stored version of a block and puts another one in. -/
def renew (s : Store β ι) (block : β) : Store β ι := (s.remove (Linked.id block)).2.put block

/-- Whether a reference finds a block, but stands for another stored block as well. -/
def Contested (s : Store β ι) (b : β) (ref : ι) : Prop :=
  s.get ref = some b ∧
    ∃ x ∈ s.blocks, Linked.id x ≠ Linked.id b ∧ BlockId.designates ref (Linked.id x) = true

/-- The identifier of a block stands for no other stored block. -/
def Exact (s : Store β ι) (b : β) : Prop :=
  ∀ x ∈ s.blocks, BlockId.designates (Linked.id b) (Linked.id x) = true ↔
    Linked.id x = Linked.id b

/-- The first of the other blocks put that a reference stands for. -/
def getOther (s : Store β ι) (b : β) (ref : ι) : Option β :=
  ((s.bucket (BlockId.storeKey ref)).filter (Linked.id · ≠ Linked.id b)).find? fun x ↦
    BlockId.designates ref (Linked.id x)

/-- The new version of a block comes last in its bucket. -/
theorem bucket_renew (hs : s.Keyed) (hexact : s.Exact c) (key : ι) :
    (s.renew c).bucket key =
      if key = keyOf c then (s.bucket key).filter (Linked.id · ≠ Linked.id c) ++ [c]
      else s.bucket key := by
  rw [renew, bucket_put, bucket_remove hs]
  change (if key = keyOf c then putIn c (if key = keyOf c then _ else _)
    else if key = keyOf c then _ else _) = _
  split
  · rw [eraseP_eq_filter (hs.nodup_ids_bucket key) fun x hx ↦
      hexact x (mem_blocks_of_mem_bucket hs hx)]
    exact putIn_of_ne fun x hx ↦ of_decide_eq_true (List.mem_filter.mp hx).2
  · rfl

section Renewed

variable (hs : s.Keyed) (hexact : s.Exact c) (hc : Linked.id c = Linked.id b)

include hs hexact hc

/-- A reference that found the renewed block finds the next one that it stands for. -/
theorem get_renew_of_found (hfound : s.get ref = some b) :
    (s.renew c).get ref = (s.getOther b ref).or (some c) := by
  have hkey : BlockId.storeKey ref = keyOf c := by
    rw [keyOf, hc]
    exact (hs.keyOf_of_mem_bucket (List.mem_of_find?_eq_some hfound)).symm
  rw [Store.get, bucket_renew hs hexact, if_pos hkey]
  exact find?_moved_of_pos hc (List.find?_some (p := fun x ↦ BlockId.designates ref _) hfound)

theorem get_renew_of_ne (hb : b ∈ s.blocks) (hne : s.get ref ≠ some b) :
    (s.renew c).get ref = s.get ref := by
  rw [Store.get, bucket_renew hs hexact]
  split
  · rename_i hkey
    have hmem : b ∈ s.bucket (BlockId.storeKey ref) := by
      rw [hkey, keyOf, hc]
      exact (mem_blocks hs).mp hb
    exact find?_moved_of_ne (hs.nodup_ids_bucket _) hmem hc hne
  · rfl

end Renewed

theorem getOther_ne_none_iff (hs : s.Keyed)
    (hkey : ∀ x ∈ s.blocks, BlockId.designates ref (Linked.id x) = true →
      keyOf x = BlockId.storeKey ref) :
    s.getOther b ref ≠ none ↔ ∃ x ∈ s.blocks, Linked.id x ≠ Linked.id b ∧
      BlockId.designates ref (Linked.id x) = true := by
  rw [getOther, Option.ne_none_iff_isSome, List.find?_isSome]
  constructor
  · rintro ⟨x, hx, hdesignates⟩
    obtain ⟨hx, hne⟩ := List.mem_filter.mp hx
    exact ⟨x, mem_blocks_of_mem_bucket hs hx, of_decide_eq_true hne, hdesignates⟩
  · rintro ⟨x, hx, hne, hdesignates⟩
    have hbucket : x ∈ s.bucket (BlockId.storeKey ref) := by
      rw [← hkey x hx hdesignates]
      exact (mem_blocks hs).mp hx
    exact ⟨x, List.mem_filter.mpr ⟨hbucket, decide_eq_true hne⟩, hdesignates⟩

/-- Only a contested reference notices that a block was taken out and put in again. -/
theorem get_renew_eq_iff (hs : s.Keyed) (hexact : s.Exact b) (hb : b ∈ s.blocks)
    (hkey : ∀ x ∈ s.blocks, BlockId.designates ref (Linked.id x) = true →
      keyOf x = BlockId.storeKey ref) :
    (s.renew b).get ref = s.get ref ↔ ¬s.Contested b ref := by
  by_cases hfound : s.get ref = some b
  · rw [get_renew_of_found hs hexact rfl hfound, hfound, Contested, and_iff_right hfound,
      ← getOther_ne_none_iff hs hkey, not_ne_iff]
    cases hother : s.getOther b ref with
    | none => exact iff_of_true rfl rfl
    | some x =>
      have hne : Linked.id x ≠ Linked.id b :=
        of_decide_eq_true (List.mem_filter.mp (List.mem_of_find?_eq_some hother)).2
      refine iff_of_false (fun heq ↦ hne ?_) nofun
      rw [Option.some_or, Option.some.injEq] at heq
      rw [heq]
  · exact iff_of_true (get_renew_of_ne hs hexact rfl hb hfound) fun h ↦ hfound h.1

/-! ## Truncated hashes -/

/-- In a store of full hashes, taking a block out and putting it in again changes what a reference
finds exactly if the reference found that block and stands for another stored block too.  The other
one that was put first is then found instead, whichever version of the block is put in. -/
theorem renewing_moves_last {β : Type} [Linked β VBlake] {reqs : List (Request β VBlake)}
    {s : Store β VBlake} (hs : s = Store.empty.after reqs)
    (hlength : ∀ b ∈ s.blocks, (Linked.id b).length = 24) {b : β} (hb : b ∈ s.blocks)
    (ref : VBlake) (href : 9 ≤ ref.length) :
    (s.remove (Linked.id b)).1 = some b ∧
      ((s.renew b).get ref = s.get ref ↔ ¬s.Contested b ref) ∧
      ∀ c : β, Linked.id c = Linked.id b →
        (s.get ref = some b → (s.renew c).get ref = (s.getOther b ref).or (some c)) ∧
        (s.get ref ≠ some b → (s.renew c).get ref = s.get ref) := by
  have hkeyed : s.Keyed := hs ▸ Keyed.empty.after reqs
  have hexact {c : β} (hc : Linked.id c = Linked.id b) : s.Exact c := by
    intro x hx
    rw [hc, eq_comm (a := Linked.id x)]
    exact VBlake.agrees_iff_eq ((hlength b hb).trans (hlength x hx).symm)
  have hkey : ∀ x ∈ s.blocks, BlockId.designates ref (Linked.id x) = true →
      keyOf x = BlockId.storeKey ref := fun x hx ↦
    keepsKey_vblake ref (Linked.id x) href (Nat.le_trans (by decide) (hlength x hx).ge)
  refine ⟨hkeyed.get_id_vblake hlength hb, get_renew_eq_iff hkeyed (hexact rfl) hb hkey,
    fun c hc ↦ ⟨?_, ?_⟩⟩
  · exact get_renew_of_found hkeyed (hexact hc) hc
  · exact get_renew_of_ne hkeyed (hexact hc) hc hb

/-- Two blocks with the same last bytes. -/
def twinRequests : List (Request (Link VBlake) VBlake) := [.put (twinLink 1), .put (twinLink 2)]

/-- By its full hash the renewed block is still found, by its last bytes the other one is. -/
theorem twin_found_by_full_hash_only :
    (∀ b ∈ (Store.empty.after twinRequests).blocks, (Linked.id b).length = 24) ∧
      twinLink 1 ∈ (Store.empty.after twinRequests).blocks ∧
      ((Store.empty.after twinRequests).renew (twinLink 1)).get (twinHash 1) =
        (Store.empty.after twinRequests).get (twinHash 1) ∧
      ((Store.empty.after twinRequests).renew (twinLink 1)).get (twinHash 1).toKeystone =
        some (twinLink 2) := by
  have hlength : ∀ b ∈ (Store.empty.after twinRequests).blocks, (Linked.id b).length = 24 := by
    decide +kernel
  have hmem : twinLink 1 ∈ (Store.empty.after twinRequests).blocks := by decide +kernel
  have hfull : ¬(Store.empty.after twinRequests).Contested (twinLink 1) (twinHash 1) := by
    rintro ⟨-, hother⟩
    revert hother
    decide +kernel
  obtain ⟨-, hunchanged, -⟩ :=
    renewing_moves_last rfl hlength hmem (twinHash 1) (by decide)
  obtain ⟨-, -, hrenewed⟩ :=
    renewing_moves_last rfl hlength hmem (twinHash 1).toKeystone (by decide)
  refine ⟨hlength, hmem, hunchanged.mpr hfull, ?_⟩
  rw [(hrenewed (twinLink 1) rfl).1 (by decide +kernel)]
  decide +kernel

/-- A block that is taken out and put in again is no longer found by its last bytes. -/
theorem renewed_twin_is_lost :
    (∀ b ∈ (Store.empty.after twinRequests).blocks, (Linked.id b).length = 24) ∧
      twinLink 1 ∈ (Store.empty.after twinRequests).blocks ∧
      (Store.empty.after twinRequests).get (twinHash 1).toKeystone = some (twinLink 1) ∧
      (((Store.empty.after twinRequests).remove (Linked.id (twinLink 1))).2.put (twinLink 1)).get
        (twinHash 1).toKeystone = some (twinLink 2) := by
  decide +kernel

end EndorsedChain.Store
