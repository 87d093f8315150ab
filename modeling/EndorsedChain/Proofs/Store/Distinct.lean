import EndorsedChain.Entry.VeriBlock
import EndorsedChain.Proofs.Hash.Agreement
import EndorsedChain.Proofs.Store.Buckets
import Mathlib.Data.Set.Operations

/-!
# Stores of headers with distinct keys

As long as no two of the headers in play share a store key, a store is a set of entries: a
reference stands for at most one of them (`get_eq_some_iff`), and two stores that hold the same
entries answer every look-up alike (`Same.get`), in whatever order they were filled.
-/

namespace EndorsedChain

open VeriBlock

/-- No two different headers share a store key. -/
def KeysDistinct (known : Set Header) : Prop := known.InjOn fun h ↦ h.hash.storeKey

instance (hs : List Header) : Decidable (KeysDistinct {h | h ∈ hs}) :=
  decidable_of_iff (∀ a ∈ hs, ∀ b ∈ hs, a.hash.storeKey = b.hash.storeKey → a = b)
    ⟨fun h a ha b hb ↦ h a ha b hb, fun h _ ha _ hb ↦ h ha hb⟩

/-- The same header with the same work.  The proofs may differ. -/
structure VeriBlock.Entry.Alike (a b : Entry) : Prop where
  header : a.header = b.header
  work : a.work = b.work

namespace VeriBlock.Entry.Alike

variable {a b c : Entry}

theorem refl (a : Entry) : a.Alike a := ⟨rfl, rfl⟩

theorem symm (h : a.Alike b) : b.Alike a := ⟨h.header.symm, h.work.symm⟩

theorem trans (h : a.Alike b) (h' : b.Alike c) : a.Alike c :=
  ⟨h.header.trans h'.header, h.work.trans h'.work⟩

end VeriBlock.Entry.Alike

theorem VeriBlock.Entry.hash_agrees_iff {a b : Entry} :
    a.hash.agrees b.hash = true ↔ a.hash = b.hash := VBlake.agrees_iff_eq (by simp [Entry.hash])

/-- Whether a store looks a reference up where the header with the given hash is, and takes that
header for it. -/
def VBlake.StandsFor (ref hash : VBlake) : Prop :=
  ref.storeKey = hash.storeKey ∧ ref.agrees hash = true

instance (ref hash : VBlake) : Decidable (ref.StandsFor hash) := inferInstanceAs (Decidable (_ ∧ _))

theorem VBlake.standsFor_toPrevious (hash : VBlake) : hash.toPrevious.StandsFor hash :=
  ⟨VBlake.toKeystone_toPrevious hash, VBlake.agrees_iff.mpr (.inl (bytes_trim_suffix hash 12))⟩

theorem VBlake.standsFor_toKeystone (hash : VBlake) : hash.toKeystone.StandsFor hash :=
  ⟨VBlake.storeKey_toKeystone hash, VBlake.toKeystone_agrees hash⟩

namespace Store

section Same

variable {β ι : Type} {s t u : Store β ι}

/-- The same blocks, in any order, and the same head. -/
structure Same (s t : Store β ι) : Prop where
  perm : s.blocks.Perm t.blocks
  headId : s.headId = t.headId

theorem Same.refl (s : Store β ι) : Same s s := ⟨List.Perm.refl _, rfl⟩

theorem Same.symm (h : Same s t) : Same t s := ⟨h.perm.symm, h.headId.symm⟩

theorem Same.trans (h : Same s t) (h' : Same t u) : Same s u :=
  ⟨h.perm.trans h'.perm, h.headId.trans h'.headId⟩

theorem Same.mem_iff (h : Same s t) {b : β} : b ∈ s.blocks ↔ b ∈ t.blocks := h.perm.mem_iff

theorem Same.size (h : Same s t) : s.size = t.size := h.perm.length_eq

end Same

/-- A store into which headers of `known` were put. -/
structure Holds (known : Set Header) (s : Store Entry VBlake) : Prop where
  keyed : s.Keyed
  mem_known : ∀ e ∈ s.blocks, e.header ∈ known

variable {known : Set Header} {s t : Store Entry VBlake} {e x : Entry} {ref : VBlake}

theorem Same.of_mem_iff (hs : s.Holds known) (ht : t.Holds known)
    (hmem : ∀ e, e ∈ s.blocks ↔ e ∈ t.blocks) (hhead : s.headId = t.headId) : Same s t where
  perm := (List.perm_ext_iff_of_nodup hs.keyed.nodup_blocks ht.keyed.nodup_blocks).mpr hmem
  headId := hhead

theorem Holds.eq_of_header_eq (hs : s.Holds known) (he : e ∈ s.blocks) (hx : x ∈ s.blocks)
    (h : e.header = x.header) : e = x :=
  hs.keyed.eq_of_id_eq he hx (congrArg Header.hash h)

theorem Holds.eq_of_key_eq (hk : KeysDistinct known) (hs : s.Holds known) (he : e ∈ s.blocks)
    (hx : x ∈ s.blocks) (h : e.hash.storeKey = x.hash.storeKey) : e = x :=
  hs.eq_of_header_eq he hx (hk (hs.mem_known e he) (hs.mem_known x hx) h)

/-- What a reference stands for. -/
theorem get_eq_some_iff (hk : KeysDistinct known) (hs : s.Holds known) :
    s.get ref = some e ↔ e ∈ s.blocks ∧ ref.StandsFor e.hash := by
  constructor
  · intro hget
    have hbucket : e ∈ s.bucket ref.storeKey := List.mem_of_find?_eq_some hget
    have hagrees := List.find?_some (p := fun x : Entry ↦ ref.agrees x.hash) hget
    exact ⟨get_mem hs.keyed hget, (hs.keyed.keyOf_of_mem_bucket hbucket).symm, hagrees⟩
  · rintro ⟨he, hkey, hagrees⟩
    have hbucket : e ∈ s.bucket ref.storeKey := by
      rw [hkey]
      exact (mem_blocks hs.keyed).mp he
    obtain ⟨x, hx⟩ : ∃ x, s.get ref = some x :=
      Option.isSome_iff_exists.mp (List.find?_isSome.mpr ⟨e, hbucket, hagrees⟩)
    have hxkey : x.hash.storeKey = ref.storeKey :=
      hs.keyed.keyOf_of_mem_bucket (List.mem_of_find?_eq_some hx)
    rw [hx, hs.eq_of_key_eq hk (get_mem hs.keyed hx) he (hxkey.trans hkey)]

/-- Full hashes tell stored entries apart, whether or not their keys do. -/
theorem get_hash (hs : s.Keyed) (he : e ∈ s.blocks) : s.get e.hash = some e :=
  hs.get_id he (VBlake.agrees_self e.hash) fun _ _ hagrees ↦ (Entry.hash_agrees_iff.mp hagrees).symm

/-- In any store whatsoever, a hash that the bucket of its key holds is found. -/
theorem contains_of_mem_ids (he : e.hash ∈ (s.bucket e.hash.storeKey).map Entry.hash) :
    s.contains e.hash = true := by
  obtain ⟨x, hx, hhash⟩ := List.mem_map.mp he
  refine List.find?_isSome.mpr ⟨x, hx, ?_⟩
  rw [show Linked.id x = e.hash from hhash]
  exact VBlake.agrees_self _

theorem get_eq_none_iff (hk : KeysDistinct known) (hs : s.Holds known) :
    s.get ref = none ↔ ∀ e ∈ s.blocks, ¬ref.StandsFor e.hash := by
  rw [Option.eq_none_iff_forall_ne_some]
  apply forall_congr'
  intro e
  rw [ne_eq, get_eq_some_iff hk hs, not_and]

/-- A hash is found exactly if a header with that hash is stored. -/
theorem get_hash_eq_none_iff (hs : s.Keyed) {h : Header} :
    s.get h.hash = none ↔ ∀ e ∈ s.blocks, e.hash ≠ h.hash := by
  constructor
  · intro hnone e he hhash
    rw [← hhash, get_hash hs he] at hnone
    cases hnone
  · intro hall
    refine Option.eq_none_iff_forall_ne_some.mpr fun e hget ↦ hall e (get_mem hs hget) ?_
    have hagrees := List.find?_some (p := fun x : Entry ↦ h.hash.agrees x.hash) hget
    exact ((VBlake.agrees_iff_eq (by simp [Entry.hash])).mp hagrees).symm

theorem Same.get (hk : KeysDistinct known) (hs : s.Holds known) (ht : t.Holds known)
    (h : Same s t) (ref : VBlake) : s.get ref = t.get ref := by
  apply Option.ext
  intro e
  rw [get_eq_some_iff hk hs, get_eq_some_iff hk ht, h.mem_iff]

theorem mem_bucket_iff (hs : s.Keyed) {key : VBlake} :
    e ∈ s.bucket key ↔ e ∈ s.blocks ∧ e.hash.storeKey = key := by
  constructor
  · intro he
    exact ⟨mem_blocks_of_mem_bucket hs he, hs.keyOf_of_mem_bucket he⟩
  · rintro ⟨he, rfl⟩
    exact (mem_blocks hs).mp he

/-- A bucket holds one entry at most, so there is no order in which it could differ. -/
theorem Same.bucket (hk : KeysDistinct known) (hs : s.Holds known) (ht : t.Holds known)
    (h : Same s t) : s.bucket = t.bucket := by
  funext key
  have hperm : (s.bucket key).Perm (t.bucket key) := by
    apply (List.perm_ext_iff_of_nodup (hs.keyed.nodup_ids_bucket key).of_map
      (ht.keyed.nodup_ids_bucket key).of_map).mpr
    intro e
    rw [mem_bucket_iff hs.keyed, mem_bucket_iff ht.keyed, h.mem_iff]
  have hsingle (e x : Entry) (he : e ∈ s.bucket key) (hx : x ∈ t.bucket key) : e = x := by
    obtain ⟨he, hekey⟩ := (mem_bucket_iff hs.keyed).mp he
    obtain ⟨hx, hxkey⟩ := (mem_bucket_iff ht.keyed).mp hx
    exact hs.eq_of_key_eq hk he (h.mem_iff.mpr hx) (hekey.trans hxkey.symm)
  have hany (l : List Entry) : l.Pairwise fun _ _ ↦ True :=
    List.pairwise_of_forall fun _ _ ↦ trivial
  exact hperm.eq_of_pairwise (fun e x he hx _ _ ↦ hsingle e x he hx) (hany _) (hany _)

theorem Same.head (hk : KeysDistinct known) (hs : s.Holds known) (ht : t.Holds known)
    (h : Same s t) : s.head = t.head := by
  unfold Store.head
  rw [h.headId]
  exact congrArg _ (funext (h.get hk hs ht))

theorem Holds.empty : (Store.empty : Store Entry VBlake).Holds known :=
  ⟨Keyed.empty, fun _ he ↦ absurd he (List.not_mem_nil)⟩

theorem Holds.put (hs : s.Holds known) (he : e.header ∈ known) : (s.put e).Holds known where
  keyed := hs.keyed.put e
  mem_known x hx := by
    rcases (mem_blocks_put hs.keyed).mp hx with rfl | ⟨hx, -⟩
    · exact he
    · exact hs.mem_known x hx

theorem Holds.remove (hs : s.Holds known) (id : VBlake) : (s.remove id).2.Holds known where
  keyed := hs.keyed.remove id
  mem_known x hx := hs.mem_known x ((mem_blocks_remove hs.keyed).mp hx).1

theorem Holds.setHeadId (hs : s.Holds known) (headId : Option VBlake) :
    ({ s with headId } : Store Entry VBlake).Holds known :=
  ⟨hs.keyed.congr rfl, hs.mem_known⟩

/-- Removing an entry and putting another one with the same header in its place. -/
theorem mem_blocks_replace (hs : s.Keyed) {prior : Entry} (hprior : prior ∈ s.blocks)
    (hheader : e.header = prior.header) :
    x ∈ ((s.remove prior.hash).2.put e).blocks ↔ x = e ∨ x ∈ s.blocks ∧ x ≠ prior := by
  rw [mem_blocks_put (hs.remove _), mem_blocks_remove hs, get_hash hs hprior, ne_eq,
    Option.some.injEq]
  refine or_congr_right ⟨fun ⟨⟨hx, hne⟩, _⟩ ↦ ⟨hx, Ne.symm hne⟩, fun ⟨hx, hne⟩ ↦ ?_⟩
  refine ⟨⟨hx, Ne.symm hne⟩, fun hid ↦ hne (hs.eq_of_id_eq hx hprior ?_)⟩
  exact hid.trans (congrArg Header.hash hheader)

/-! ## Look-ups after an edit -/

/-- What was found is still found, perhaps with another proof. -/
def Keeps (s t : Store Entry VBlake) : Prop :=
  ∀ ref x, s.get ref = some x → ∃ y, t.get ref = some y ∧ x.Alike y

theorem Keeps.refl (s : Store Entry VBlake) : Keeps s s := fun _ x hx ↦ ⟨x, hx, .refl x⟩

theorem Keeps.trans {u : Store Entry VBlake} (h : Keeps s t) (h' : Keeps t u) : Keeps s u := by
  intro ref x hx
  obtain ⟨y, hy, hxy⟩ := h ref x hx
  obtain ⟨z, hz, hyz⟩ := h' ref y hy
  exact ⟨z, hz, hxy.trans hyz⟩

theorem get_put (hk : KeysDistinct known) (hs : s.Holds known) (he : e.header ∈ known)
    (ref : VBlake) :
    (s.put e).get ref = if ref.StandsFor e.hash then some e else s.get ref := by
  split
  · rename_i hstands
    exact (get_eq_some_iff hk (hs.put he)).mpr ⟨(mem_blocks_put hs.keyed).mpr (.inl rfl), hstands⟩
  · rename_i hstands
    apply Option.ext
    intro x
    rw [get_eq_some_iff hk (hs.put he), get_eq_some_iff hk hs, mem_blocks_put hs.keyed]
    constructor
    · rintro ⟨rfl | ⟨hx, -⟩, hxstands⟩
      · exact absurd hxstands hstands
      · exact ⟨hx, hxstands⟩
    · rintro ⟨hx, hxstands⟩
      have hid : Linked.id x ≠ Linked.id e := fun hid ↦ by
        rw [show x.hash = e.hash from hid] at hxstands
        exact hstands hxstands
      exact ⟨.inr ⟨hx, hid⟩, hxstands⟩

theorem get_replace (hk : KeysDistinct known) (hs : s.Holds known) {prior : Entry}
    (hprior : prior ∈ s.blocks) (hheader : e.header = prior.header) (ref : VBlake) :
    ((s.remove prior.hash).2.put e).get ref =
      if ref.StandsFor e.hash then some e else s.get ref := by
  have hhash : e.hash = prior.hash := congrArg Header.hash hheader
  rw [get_put hk (hs.remove _) (hheader ▸ hs.mem_known prior hprior)]
  split
  · rfl
  · rename_i hstands
    apply Option.ext
    intro x
    rw [get_eq_some_iff hk (hs.remove _), get_eq_some_iff hk hs, mem_blocks_remove hs.keyed,
      get_hash hs.keyed hprior, ne_eq, Option.some.injEq]
    constructor
    · rintro ⟨⟨hx, -⟩, hxstands⟩
      exact ⟨hx, hxstands⟩
    · rintro ⟨hx, hxstands⟩
      exact ⟨⟨hx, fun heq ↦ hstands (hhash ▸ heq ▸ hxstands)⟩, hxstands⟩

/-- A new entry takes the place of no other one. -/
theorem keeps_put (hk : KeysDistinct known) (hs : s.Holds known) (he : e.header ∈ known)
    (hfresh : ∀ x ∈ s.blocks, x.hash ≠ e.hash) : Keeps s (s.put e) := by
  intro ref x hget
  obtain ⟨hx, hstands⟩ := (get_eq_some_iff hk hs).mp hget
  refine ⟨x, ?_, .refl x⟩
  rw [get_put hk hs he, if_neg, hget]
  intro hstands'
  have hheader : x.header = e.header :=
    hk (hs.mem_known x hx) he (hstands.1.symm.trans hstands'.1)
  exact hfresh x hx (congrArg Header.hash hheader)

theorem keeps_replace (hk : KeysDistinct known) (hs : s.Holds known) {prior : Entry}
    (hprior : prior ∈ s.blocks) (halike : prior.Alike e) :
    Keeps s ((s.remove prior.hash).2.put e) := by
  intro ref x hget
  rw [get_replace hk hs hprior halike.header.symm]
  split
  · rename_i hstands
    obtain ⟨hx, hxstands⟩ := (get_eq_some_iff hk hs).mp hget
    have hkey : x.hash.storeKey = prior.hash.storeKey := by
      rw [← hxstands.1, hstands.1, Entry.hash, ← halike.header]
      rfl
    exact ⟨e, rfl, hs.eq_of_key_eq hk hx hprior hkey ▸ halike⟩
  · exact ⟨x, hget, .refl x⟩

end Store

end EndorsedChain
