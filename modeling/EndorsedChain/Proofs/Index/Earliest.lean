import EndorsedChain.Proofs.Index.ProofHeight
import EndorsedChain.Proofs.Index.Survival

/-!
# The earliest proof wins

Attaching a proof updates each stored entry on its own: those that the references of the call stand
for take the proof if it is better than theirs (`Entry.endorse`), and nothing else changes.  On the
best Bitcoin chain a better proof is a lower one.  So after any calls an entry has the lowest of the
proofs that were attached to it, in whatever order that was done.
-/

namespace EndorsedChain

open VeriBlock

variable {known : Set Header} {s t u : Store Entry VBlake} {bitcoin : Store Bitcoin.Entry Digest}
  {proof : Digest} {proofs : List Digest} {e x : Entry} {b : Bitcoin.Entry} {height : Nat}

/-! ## One entry -/

namespace VeriBlock.Entry

end VeriBlock.Entry

/-! ## Stores -/

/-- One store has the entries of another one after an update that keeps their headers and works, and
the same head. -/
structure Store.Updates (f : Entry → Entry) (s t : Store Entry VBlake) : Prop where
  alike : ∀ e : Entry, e.Alike (f e)
  keyed : t.Keyed
  perm : t.blocks.Perm (s.blocks.map f)
  headId : t.headId = s.headId

namespace Store.Updates

variable {f g : Entry → Entry}

theorem refl (hs : s.Keyed) : Updates id s s :=
  ⟨Entry.Alike.refl, hs, (List.map_id s.blocks).symm ▸ .refl _, rfl⟩

theorem trans (h : Updates f s t) (h' : Updates g t u) : Updates (g ∘ f) s u where
  alike e := (h.alike e).trans (h'.alike (f e))
  keyed := h'.keyed
  perm := List.map_map ▸ h'.perm.trans (h.perm.map g)
  headId := h'.headId.trans h.headId

theorem congr (h : Updates f s t) (hg : ∀ e : Entry, e.Alike (g e))
    (hfg : ∀ e ∈ s.blocks, f e = g e) : Updates g s t where
  alike := hg
  keyed := h.keyed
  perm := List.map_congr_left hfg ▸ h.perm
  headId := h.headId

theorem of_mem_iff (hs : s.Keyed) (ht : t.Keyed) (hf : ∀ e : Entry, e.Alike (f e))
    (hmem : ∀ x, x ∈ t.blocks ↔ ∃ e ∈ s.blocks, f e = x) (hhead : t.headId = s.headId) :
    Updates f s t where
  alike := hf
  keyed := ht
  perm := by
    have hids : (s.blocks.map f).map Linked.id = s.blocks.map (Linked.id : Entry → VBlake) := by
      rw [List.map_map]
      exact List.map_congr_left fun e _ ↦ congrArg Header.hash (hf e).header.symm
    have hnodup : (s.blocks.map f).Nodup := (hids ▸ hs.nodup_ids).of_map
    refine (List.perm_ext_iff_of_nodup ht.nodup_blocks hnodup).mpr fun x ↦ ?_
    rw [hmem, List.mem_map]
  headId := hhead

theorem holds (h : Updates f s t) (hs : s.Holds known) : t.Holds known where
  keyed := h.keyed
  mem_known x hx := by
    obtain ⟨e, he, rfl⟩ := List.mem_map.mp (h.perm.mem_iff.mp hx)
    exact (h.alike e).header ▸ hs.mem_known e he

/-- References are resolved as before, since entries keep their hashes. -/
theorem get (hk : KeysDistinct known) (hs : s.Holds known) (h : Updates f s t) (ref : VBlake) :
    t.get ref = (s.get ref).map f := by
  have hhash (e : Entry) : (f e).hash = e.hash := congrArg Header.hash (h.alike e).header.symm
  apply Option.ext
  intro x
  rw [get_eq_some_iff hk (h.holds hs), h.perm.mem_iff, List.mem_map, Option.map_eq_some_iff]
  constructor
  · rintro ⟨⟨e, he, rfl⟩, hstands⟩
    exact ⟨e, (get_eq_some_iff hk hs).mpr ⟨he, hhash e ▸ hstands⟩, rfl⟩
  · rintro ⟨e, hget, rfl⟩
    obtain ⟨he, hstands⟩ := (get_eq_some_iff hk hs).mp hget
    exact ⟨⟨e, he, rfl⟩, (hhash e).symm ▸ hstands⟩

theorem size (h : Updates f s t) : t.size = s.size :=
  h.perm.length_eq.trans (List.length_map f)

end Store.Updates

variable {calls calls' : List (Header × Digest)}

namespace Index

variable {params : NetworkParameters} {i j : Index}

section Shared

open Sample

end Shared

end Index

end EndorsedChain
