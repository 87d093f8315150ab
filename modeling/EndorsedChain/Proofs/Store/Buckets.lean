import EndorsedChain.Store.Basic
import Mathlib.Data.List.Nodup

/-!
# The buckets of a store

A store is *keyed* if each key has one bucket, which is not empty and holds blocks of that key with
different identifiers.  Every store made by `put`, `remove` and moves of the head is keyed, and
the blocks of a keyed store change under these operations as the elements of a set do:
`mem_blocks_put` and `mem_blocks_remove`.
-/

namespace EndorsedChain.Store

/-! ## Tables with one row for each key -/

section Table

variable {β ι : Type} [DecidableEq ι] {bs : List (ι × List β)} {k key : ι}

theorem lookup_cons_eq (k' : ι) (l : List β) :
    ((k', l) :: bs).lookup k = if k = k' then some l else bs.lookup k := by
  by_cases hk : k = k'
  · simp [hk]
  · have hbeq : (k == k') = false := beq_eq_false_iff_ne.mpr hk
    rw [List.lookup_cons, hbeq, if_neg hk]

theorem mem_iff_lookup (h : (bs.map Prod.fst).Nodup) {l : List β} :
    (k, l) ∈ bs ↔ bs.lookup k = some l := by
  induction bs with
  | nil => simp
  | cons p rest ih =>
    obtain ⟨k', l'⟩ := p
    simp only [List.map_cons, List.nodup_cons] at h
    rw [lookup_cons_eq, List.mem_cons, ih h.2]
    split
    · rename_i hk
      subst hk
      have hnot : rest.lookup k ≠ some l := fun hl ↦
        h.1 (List.mem_map.mpr ⟨(k, l), (ih h.2).mpr hl, rfl⟩)
      simp [hnot, eq_comm]
    · rename_i hk
      simp [hk]

theorem lookup_updateBucket (f : List β → List β) :
    (updateBucket f key bs).lookup k =
      if k = key then some (f ((bs.lookup key).getD [])) else bs.lookup k := by
  induction bs with
  | nil => rw [updateBucket, lookup_cons_eq]; rfl
  | cons p rest ih =>
    obtain ⟨k', l'⟩ := p
    unfold updateBucket
    split
    · rename_i hkey
      subst hkey
      rw [lookup_cons_eq, lookup_cons_eq, lookup_cons_eq, if_pos rfl, Option.getD_some]
      split <;> rfl
    · rename_i hkey
      rw [lookup_cons_eq, lookup_cons_eq, lookup_cons_eq, ih, if_neg (Ne.symm hkey)]
      split
      · rename_i hk
        rw [if_neg (hk ▸ hkey)]
      · rfl

theorem mem_keys_updateBucket (f : List β → List β) :
    k ∈ (updateBucket f key bs).map Prod.fst ↔ k = key ∨ k ∈ bs.map Prod.fst := by
  induction bs with
  | nil => simp [updateBucket]
  | cons p rest ih =>
    obtain ⟨k', l'⟩ := p
    unfold updateBucket
    split
    · rename_i hkey
      simp [hkey]
    · rw [List.map_cons, List.mem_cons, ih, List.map_cons, List.mem_cons]
      exact or_left_comm

theorem nodup_keys_updateBucket (f : List β → List β) (h : (bs.map Prod.fst).Nodup) :
    ((updateBucket f key bs).map Prod.fst).Nodup := by
  induction bs with
  | nil => simp [updateBucket]
  | cons p rest ih =>
    obtain ⟨k', l'⟩ := p
    simp only [List.map_cons, List.nodup_cons] at h
    unfold updateBucket
    split
    · simpa using h
    · rename_i hkey
      rw [List.map_cons, List.nodup_cons]
      refine ⟨?_, ih h.2⟩
      intro hmem
      rcases (mem_keys_updateBucket f).mp hmem with hk | hmem
      · exact hkey hk
      · exact h.1 hmem

theorem keys_discard_sublist (p : β → Bool) :
    ((discard p key bs).map Prod.fst).Sublist (bs.map Prod.fst) := by
  induction bs with
  | nil => exact List.Sublist.refl _
  | cons q rest ih =>
    obtain ⟨k', l'⟩ := q
    unfold discard
    split
    · split
      · exact List.sublist_cons_self _ _
      · exact List.Sublist.refl _
    · exact ih.cons_cons _

/-- A bucket of which nothing is left is no longer there. -/
theorem lookup_discard (p : β → Bool) (h : (bs.map Prod.fst).Nodup) :
    (discard p key bs).lookup k =
      if k = key then ((bs.lookup key).map (List.eraseP p)).filter (!·.isEmpty)
      else bs.lookup k := by
  induction bs with
  | nil => simp [discard]
  | cons q rest ih =>
    obtain ⟨k', l'⟩ := q
    simp only [List.map_cons, List.nodup_cons] at h
    unfold discard
    split
    · rename_i hkey
      subst hkey
      have hnone : rest.lookup k' = none := by
        rw [List.lookup_eq_none_iff]
        intro q hq
        exact bne_iff_ne.mpr fun hk ↦ h.1 (List.mem_map.mpr ⟨q, hq, hk.symm⟩)
      rw [lookup_cons_eq, lookup_cons_eq, if_pos rfl, Option.map_some]
      split
      · rename_i hnil
        rw [hnil]
        split
        · rename_i hk
          rw [hk, hnone]; rfl
        · rfl
      · rename_i hleft
        rw [lookup_cons_eq]
        split
        · cases hl : l'.eraseP p with
          | nil => exact absurd hl hleft
          | cons b bucket => rfl
        · rfl
    · rename_i hkey
      rw [lookup_cons_eq, lookup_cons_eq, lookup_cons_eq, ih h.2, if_neg (Ne.symm hkey)]
      split
      · rename_i hk
        rw [if_neg (hk ▸ hkey)]
      · rfl

theorem discard_eq_self {p : β → Bool}
    (h : ∀ l, bs.lookup key = some l → l ≠ [] ∧ ∀ b ∈ l, p b = false) :
    discard p key bs = bs := by
  induction bs with
  | nil => rfl
  | cons q rest ih =>
    obtain ⟨k', l'⟩ := q
    rw [lookup_cons_eq] at h
    unfold discard
    split
    · rename_i hkey
      rw [if_pos hkey.symm] at h
      obtain ⟨hne, hp⟩ := h l' rfl
      rw [List.eraseP_of_forall_not fun b hb ↦ Bool.eq_false_iff.mp (hp b hb)]
      split
      · exact absurd rfl hne
      · rfl
    · rename_i hkey
      rw [if_neg (Ne.symm hkey)] at h
      rw [ih h]

/-- What is not discarded is still found, whether or not the keys are distinct. -/
theorem mem_lookup_discard {p : β → Bool} {x : β} (hx : x ∈ (bs.lookup k).getD [])
    (hp : p x = false) : x ∈ ((discard p key bs).lookup k).getD [] := by
  induction bs with
  | nil => exact hx
  | cons q rest ih =>
    obtain ⟨k', l'⟩ := q
    rw [lookup_cons_eq] at hx
    unfold discard
    split
    · rename_i hkey
      by_cases hk : k = k'
      · rw [if_pos hk, Option.getD_some] at hx
        have hleft : x ∈ l'.eraseP p := (List.mem_eraseP_of_neg (by simp [hp])).mpr hx
        split
        · rename_i hnil
          exact absurd (hnil ▸ hleft) List.not_mem_nil
        · rwa [lookup_cons_eq, if_pos hk, Option.getD_some]
      · rw [if_neg hk] at hx
        split
        · exact hx
        · rwa [lookup_cons_eq, if_neg hk]
    · rw [lookup_cons_eq]
      by_cases hk : k = k'
      · rwa [if_pos hk] at hx ⊢
      · rw [if_neg hk] at hx ⊢
        exact ih hx

theorem mem_eraseP {l : List β} (h : l.Nodup) {p : β → Bool} {x : β} :
    x ∈ l.eraseP p ↔ x ∈ l ∧ l.find? p ≠ some x := by
  induction l with
  | nil => simp
  | cons b l ih =>
    rw [List.nodup_cons] at h
    by_cases hp : p b = true
    · rw [List.eraseP_cons_of_pos hp, List.find?_cons_of_pos hp, List.mem_cons, ne_eq,
        Option.some.injEq]
      constructor
      · exact fun hx ↦ ⟨.inr hx, fun hb ↦ h.1 (hb ▸ hx)⟩
      · rintro ⟨hx | hx, hne⟩
        · exact absurd hx.symm hne
        · exact hx
    · rw [List.eraseP_cons_of_neg hp, List.find?_cons_of_neg hp, List.mem_cons, List.mem_cons,
        ih h.2]
      constructor
      · rintro (hx | ⟨hx, hne⟩)
        · refine ⟨.inl hx, ?_⟩
          intro hfind
          exact h.1 (hx ▸ List.mem_of_find?_eq_some hfind)
        · exact ⟨.inr hx, hne⟩
      · rintro ⟨hx | hx, hne⟩
        · exact .inl hx
        · exact .inr ⟨hx, hne⟩

end Table

/-! ## One bucket -/

section Bucket

variable {β ι : Type} [DecidableEq ι] [Linked β ι] {b x : β}

theorem mem_ids_putIn {l : List β} {id : ι} :
    id ∈ (putIn b l).map Linked.id ↔ id = Linked.id b ∨ id ∈ l.map Linked.id := by
  induction l with
  | nil => simp [putIn]
  | cons a l ih =>
    unfold putIn
    split
    · rename_i ha
      simp [ha]
    · rw [List.map_cons, List.mem_cons, ih, List.map_cons, List.mem_cons]
      exact or_left_comm

theorem nodup_ids_putIn {l : List β} (h : (l.map Linked.id).Nodup) :
    ((putIn b l).map Linked.id).Nodup := by
  induction l with
  | nil => simp [putIn]
  | cons a l ih =>
    rw [List.map_cons, List.nodup_cons] at h
    unfold putIn
    split
    · rename_i ha
      rw [List.map_cons, List.nodup_cons, ← ha]
      exact h
    · rename_i ha
      rw [List.map_cons, List.nodup_cons]
      refine ⟨?_, ih h.2⟩
      intro hmem
      rcases mem_ids_putIn.mp hmem with hid | hmem
      · exact ha hid
      · exact h.1 hmem

theorem mem_putIn {l : List β} (h : (l.map Linked.id).Nodup) :
    x ∈ putIn b l ↔ x = b ∨ x ∈ l ∧ Linked.id x ≠ Linked.id b := by
  induction l with
  | nil => simp [putIn]
  | cons a l ih =>
    rw [List.map_cons, List.nodup_cons] at h
    unfold putIn
    split
    · rename_i ha
      have hl : ∀ y ∈ l, Linked.id y ≠ Linked.id b := fun y hy hid ↦
        h.1 (List.mem_map.mpr ⟨y, hy, hid.trans ha.symm⟩)
      rw [List.mem_cons, List.mem_cons]
      constructor
      · rintro (hx | hx)
        · exact .inl hx
        · exact .inr ⟨.inr hx, hl x hx⟩
      · rintro (hx | ⟨hx | hx, hne⟩)
        · exact .inl hx
        · exact absurd (hx ▸ ha) hne
        · exact .inr hx
    · rename_i ha
      rw [List.mem_cons, ih h.2, List.mem_cons]
      constructor
      · rintro (hx | hx | ⟨hx, hne⟩)
        · exact .inr ⟨.inl hx, hx ▸ ha⟩
        · exact .inl hx
        · exact .inr ⟨.inr hx, hne⟩
      · rintro (hx | ⟨hx | hx, hne⟩)
        · exact .inr (.inl hx)
        · exact .inl hx
        · exact .inr (.inr ⟨hx, hne⟩)

end Bucket

variable {β ι : Type} [DecidableEq ι] [BlockId ι] [Linked β ι] {s : Store β ι} {b x : β}

/-- The key under which a block is stored. -/
def keyOf (b : β) : ι := BlockId.storeKey (Linked.id b)

/-- What the bucket of a key holds. -/
structure Filed (key : ι) (bucket : List β) : Prop where
  ne_nil : bucket ≠ []
  keyOf_eq : ∀ b ∈ bucket, keyOf b = key
  nodup_ids : (bucket.map Linked.id).Nodup

theorem Filed.putIn {key : ι} {l : List β} (hkey : ∀ b ∈ l, keyOf b = key)
    (hnodup : (l.map Linked.id).Nodup) (hb : keyOf b = key) : Filed key (putIn b l) where
  ne_nil := List.ne_nil_of_mem ((mem_putIn hnodup).mpr (.inl rfl))
  keyOf_eq x hx := by
    rcases (mem_putIn hnodup).mp hx with rfl | ⟨hx, -⟩
    · exact hb
    · exact hkey x hx
  nodup_ids := nodup_ids_putIn hnodup

omit [DecidableEq ι] in
theorem Filed.eraseP {key : ι} {l : List β} (h : Filed key l) {p : β → Bool}
    (hne : l.eraseP p ≠ []) : Filed key (l.eraseP p) where
  ne_nil := hne
  keyOf_eq x hx := h.keyOf_eq x (List.eraseP_subset hx)
  nodup_ids := h.nodup_ids.sublist (List.eraseP_sublist.map _)

/-! ## Keyed stores -/

/-- Each key has one bucket. -/
structure Keyed (s : Store β ι) : Prop where
  nodup_keys : (s.buckets.map Prod.fst).Nodup
  filed : ∀ key bucket, s.buckets.lookup key = some bucket → Filed key bucket

theorem Keyed.empty : (empty : Store β ι).Keyed where
  nodup_keys := List.nodup_nil
  filed key bucket h := by cases h

/-- Moving the head does not touch the blocks. -/
theorem Keyed.congr {t : Store β ι} (h : s.Keyed) (hbuckets : t.buckets = s.buckets) :
    t.Keyed where
  nodup_keys := hbuckets ▸ h.nodup_keys
  filed key bucket hl := h.filed key bucket (hbuckets ▸ hl)

/-- The bucket of a key holds blocks of that key, also if it is missing. -/
theorem Keyed.keyOf_of_mem_bucket (h : s.Keyed) {key : ι} (hb : b ∈ s.bucket key) :
    keyOf b = key := by
  unfold bucket at hb
  cases hl : s.buckets.lookup key with
  | none => rw [hl] at hb; cases hb
  | some l => rw [hl] at hb; exact (h.filed key l hl).keyOf_eq b hb

theorem Keyed.nodup_ids_bucket (h : s.Keyed) (key : ι) :
    ((s.bucket key).map Linked.id).Nodup := by
  unfold bucket
  cases hl : s.buckets.lookup key with
  | none => exact List.nodup_nil
  | some l => exact (h.filed key l hl).nodup_ids

theorem Keyed.put (h : s.Keyed) (b : β) : (s.put b).Keyed where
  nodup_keys := nodup_keys_updateBucket _ h.nodup_keys
  filed key bucket hl := by
    rw [Store.put, lookup_updateBucket] at hl
    split at hl
    · rename_i hkey
      cases hl
      exact Filed.putIn (fun x hx ↦ (h.keyOf_of_mem_bucket hx).trans hkey.symm)
        (h.nodup_ids_bucket _) hkey.symm
    · exact h.filed key bucket hl

theorem Keyed.remove (h : s.Keyed) (id : ι) : (s.remove id).2.Keyed where
  nodup_keys := h.nodup_keys.sublist (keys_discard_sublist _)
  filed key bucket hl := by
    rw [Store.remove, lookup_discard _ h.nodup_keys] at hl
    split at hl
    · rename_i hkey
      obtain ⟨hmap, hne⟩ := Option.filter_eq_some_iff.mp hl
      obtain ⟨l, hlookup, rfl⟩ := Option.map_eq_some_iff.mp hmap
      exact hkey ▸ (h.filed _ l hlookup).eraseP (by simpa using hne)
    · exact h.filed key bucket hl

theorem Keyed.setHead {prior : Option β} {t : Store β ι} (h : s.Keyed)
    (hset : s.setHead b = .ok (prior, t)) : t.Keyed := by
  unfold Store.setHead at hset
  dsimp only at hset
  split at hset
  · cases hset
    exact h.congr rfl
  · cases hset

/-! ## Blocks -/

theorem bucket_put (s : Store β ι) (b : β) (key : ι) :
    (s.put b).bucket key = if key = keyOf b then putIn b (s.bucket key) else s.bucket key := by
  change ((updateBucket (putIn b) (keyOf b) s.buckets).lookup key).getD [] = _
  rw [lookup_updateBucket]
  by_cases hkey : key = keyOf b
  · rw [if_pos hkey, if_pos hkey, Option.getD_some, hkey, bucket]
  · rw [if_neg hkey, if_neg hkey, bucket]

theorem mem_ids_bucket_put (s : Store β ι) (b : β) {id key : ι}
    (h : id ∈ (s.bucket key).map Linked.id) : id ∈ ((s.put b).bucket key).map Linked.id := by
  rw [bucket_put]
  split
  · exact mem_ids_putIn.mpr (.inr h)
  · exact h

theorem mem_ids_bucket_put_self (s : Store β ι) (b : β) :
    Linked.id b ∈ ((s.put b).bucket (keyOf b)).map Linked.id := by
  rw [bucket_put, if_pos rfl]
  exact mem_ids_putIn.mpr (.inl rfl)

theorem mem_ids_bucket_remove (s : Store β ι) {id key removed : ι}
    (h : id ∈ (s.bucket key).map Linked.id) (hne : BlockId.designates removed id = false) :
    id ∈ ((s.remove removed).2.bucket key).map Linked.id := by
  obtain ⟨b, hb, rfl⟩ := List.mem_map.mp h
  exact List.mem_map_of_mem (mem_lookup_discard hb hne)

theorem bucket_remove (h : s.Keyed) (id : ι) (key : ι) :
    (s.remove id).2.bucket key =
      if key = BlockId.storeKey id then
        (s.bucket key).eraseP fun b ↦ BlockId.designates id (Linked.id b)
      else s.bucket key := by
  unfold bucket remove
  rw [lookup_discard _ h.nodup_keys]
  split
  · rename_i hkey
    rw [hkey]
    cases s.buckets.lookup (BlockId.storeKey id) with
    | none => rfl
    | some l =>
      rw [Option.map_some, Option.getD_some]
      cases l.eraseP fun b ↦ BlockId.designates id (Linked.id b) with
      | nil => rfl
      | cons => rfl
  · rfl

theorem mem_blocks (h : s.Keyed) : b ∈ s.blocks ↔ b ∈ s.bucket (keyOf b) := by
  unfold blocks
  rw [List.mem_flatMap]
  constructor
  · rintro ⟨⟨key, l⟩, hp, hb⟩
    have hl := (mem_iff_lookup h.nodup_keys).mp hp
    rw [bucket, (h.filed key l hl).keyOf_eq b hb, hl]
    exact hb
  · intro hb
    unfold bucket at hb
    cases hl : s.buckets.lookup (keyOf b) with
    | none => rw [hl] at hb; cases hb
    | some l =>
      rw [hl] at hb
      exact ⟨(keyOf b, l), (mem_iff_lookup h.nodup_keys).mpr hl, hb⟩

theorem mem_blocks_of_mem_bucket (h : s.Keyed) {key : ι} (hb : b ∈ s.bucket key) :
    b ∈ s.blocks := by
  rw [mem_blocks h, h.keyOf_of_mem_bucket hb]
  exact hb

/-- Stored blocks are told apart by their identifiers. -/
theorem Keyed.nodup_ids (h : s.Keyed) : (s.blocks.map Linked.id).Nodup := by
  unfold blocks
  rw [List.map_flatMap, List.nodup_flatMap]
  constructor
  · rintro ⟨key, l⟩ hp
    exact (h.filed key l ((mem_iff_lookup h.nodup_keys).mp hp)).nodup_ids
  · have hkeys : s.buckets.Pairwise fun p q ↦ p.1 ≠ q.1 := List.pairwise_map.mp h.nodup_keys
    refine hkeys.imp_of_mem fun {p q} hp hq hne ↦ ?_
    apply List.disjoint_left.mpr
    intro id hidp hidq
    obtain ⟨a, ha, rfl⟩ := List.mem_map.mp hidp
    obtain ⟨b, hb, hid⟩ := List.mem_map.mp hidq
    have hpkey := (h.filed p.1 p.2 ((mem_iff_lookup h.nodup_keys).mp hp)).keyOf_eq a ha
    have hqkey := (h.filed q.1 q.2 ((mem_iff_lookup h.nodup_keys).mp hq)).keyOf_eq b hb
    exact hne (by rw [← hpkey, ← hqkey, keyOf, keyOf, hid])

theorem Keyed.nodup_blocks (h : s.Keyed) : s.blocks.Nodup := h.nodup_ids.of_map

theorem Keyed.eq_of_id_eq (h : s.Keyed) (hb : b ∈ s.blocks) (hx : x ∈ s.blocks)
    (hid : Linked.id b = Linked.id x) : b = x :=
  List.inj_on_of_nodup_map h.nodup_ids hb hx hid

/-- `put` takes the place of the block with the same identifier. -/
theorem mem_blocks_put (h : s.Keyed) :
    x ∈ (s.put b).blocks ↔ x = b ∨ x ∈ s.blocks ∧ Linked.id x ≠ Linked.id b := by
  rw [mem_blocks (h.put b), bucket_put, mem_blocks h]
  split
  · exact mem_putIn (h.nodup_ids_bucket _)
  · rename_i hkey
    have hne : x ≠ b := fun hx ↦ hkey (hx ▸ rfl)
    have hid : Linked.id x ≠ Linked.id b := fun hid ↦ hkey (congrArg BlockId.storeKey hid)
    simp [hne, hid]

theorem get_mem (h : s.Keyed) {id : ι} (hget : s.get id = some b) : b ∈ s.blocks :=
  mem_blocks_of_mem_bucket h (List.mem_of_find?_eq_some hget)

/-- An identifier that stands for its own block only finds it. -/
theorem Keyed.get_id (h : s.Keyed) (hb : b ∈ s.blocks)
    (hself : BlockId.designates (Linked.id b) (Linked.id b) = true)
    (honly : ∀ x ∈ s.blocks, BlockId.designates (Linked.id b) (Linked.id x) = true →
      Linked.id x = Linked.id b) : s.get (Linked.id b) = some b := by
  have hbucket : b ∈ s.bucket (BlockId.storeKey (Linked.id b)) := (mem_blocks h).mp hb
  obtain ⟨x, hx⟩ : ∃ x, s.get (Linked.id b) = some x :=
    Option.isSome_iff_exists.mp (List.find?_isSome.mpr ⟨b, hbucket, hself⟩)
  have hdesignates : BlockId.designates (Linked.id b) (Linked.id x) = true :=
    List.find?_some (p := fun x ↦ BlockId.designates (Linked.id b) (Linked.id x)) hx
  rw [hx, h.eq_of_id_eq (get_mem h hx) hb (honly x (get_mem h hx) hdesignates)]

/-- `remove` deletes the block that `get` finds, and nothing else. -/
theorem mem_blocks_remove (h : s.Keyed) {id : ι} :
    x ∈ (s.remove id).2.blocks ↔ x ∈ s.blocks ∧ s.get id ≠ some x := by
  rw [mem_blocks (h.remove id), bucket_remove h, mem_blocks h]
  split
  · rename_i hkey
    rw [mem_eraseP (h.nodup_ids_bucket _).of_map, hkey]
    rfl
  · rename_i hkey
    refine ⟨fun hx ↦ ⟨hx, fun hget ↦ hkey ?_⟩, And.left⟩
    exact h.keyOf_of_mem_bucket (List.mem_of_find?_eq_some hget)

/-- Removing changes nothing exactly if nothing is found. -/
theorem remove_eq_self_iff (h : s.Keyed) {id : ι} : (s.remove id).2 = s ↔ s.get id = none := by
  constructor
  · intro hsame
    cases hget : s.get id with
    | none => rfl
    | some b =>
      have hb := get_mem h hget
      rw [← hsame, mem_blocks_remove h] at hb
      exact absurd hget hb.2
  · intro hget
    have hbuckets : discard (fun b ↦ BlockId.designates id (Linked.id b)) (BlockId.storeKey id)
        s.buckets = s.buckets := by
      apply discard_eq_self
      intro l hl
      refine ⟨(h.filed _ l hl).ne_nil, fun b hb ↦ ?_⟩
      simpa using List.find?_eq_none.mp hget b (by rw [bucket, hl]; exact hb)
    rw [remove, hbuckets]

theorem isEmpty_iff (h : s.Keyed) : s.isEmpty = true ↔ s.blocks = [] := by
  unfold isEmpty blocks
  rw [List.isEmpty_iff, List.flatMap_eq_nil_iff]
  constructor
  · intro hnil
    simp [hnil]
  · intro hall
    rw [List.eq_nil_iff_forall_not_mem]
    rintro ⟨key, l⟩ hp
    exact (h.filed key l ((mem_iff_lookup h.nodup_keys).mp hp)).ne_nil (hall _ hp)

end EndorsedChain.Store
