import EndorsedChain.Index.Speculate
import EndorsedChain.Proofs.Index.Mutates

/-!
# Temporary modifications

A temporary modification writes to the overlay and leaves the store alone.  What was put into the
overlay is found in place of what was found before, as if it had been put into the store.
-/

namespace EndorsedChain

open VeriBlock

variable {known : Set Header} {e : Entry} {ref : VBlake}

/-! ## The overlay -/

namespace Overlay

theorem mem_putIn {l : List Entry} {x : Entry} (h : x ∈ putIn e l) : x = e ∨ x ∈ l := by
  induction l with
  | nil => exact .inl (List.mem_singleton.mp h)
  | cons a l ih =>
    unfold putIn at h
    split at h
    · exact (List.mem_cons.mp h).imp_right (List.mem_cons_of_mem a)
    · rcases List.mem_cons.mp h with rfl | h
      · exact .inr List.mem_cons_self
      · exact (ih h).imp_right (List.mem_cons_of_mem a)

theorem find?_putIn (e : Entry) (l : List Entry) (key : VBlake) :
    (putIn e l).find? (·.hash.storeKey = key) =
      if e.hash.storeKey = key then some e else l.find? (·.hash.storeKey = key) := by
  induction l with
  | nil =>
    by_cases hkey : e.hash.storeKey = key
    · rw [if_pos hkey]
      exact List.find?_cons_of_pos (by simpa using hkey)
    · rw [if_neg hkey]
      exact List.find?_cons_of_neg (by simpa using hkey)
  | cons a l ih =>
    unfold putIn
    split
    · rename_i ha
      by_cases hkey : e.hash.storeKey = key
      · rw [if_pos hkey, List.find?_cons_of_pos (by simpa using hkey)]
      · rw [if_neg hkey, List.find?_cons_of_neg (by simpa using hkey),
          List.find?_cons_of_neg (by simpa [ha] using hkey)]
    · rename_i ha
      by_cases hkey : a.hash.storeKey = key
      · rw [if_neg (fun h ↦ ha (hkey.trans h.symm)), List.find?_cons_of_pos (by simpa using hkey),
          List.find?_cons_of_pos (by simpa using hkey)]
      · rw [List.find?_cons_of_neg (by simpa using hkey), ih,
          List.find?_cons_of_neg (by simpa using hkey)]

theorem get_put (o : Overlay) (e : Entry) (ref : VBlake) :
    (o.put e).get ref =
      if e.hash.storeKey = ref.storeKey then (some e).filter (ref.agrees ·.hash)
      else o.get ref := by
  unfold get
  rw [put, find?_putIn]
  split <;> rfl

theorem get_mem {o : Overlay} (h : o.get ref = some e) :
    e ∈ o.entries ∧ e.hash.storeKey = ref.storeKey ∧ ref.agrees e.hash = true := by
  obtain ⟨hfind, hagrees⟩ := Option.filter_eq_some_iff.mp h
  exact ⟨List.mem_of_find?_eq_some hfind, by simpa using List.find?_some hfind, hagrees⟩

end Overlay

namespace Index

/-! ## Frames

Temporary modifications are told apart by the mode of the index alone.
-/

@[simp] theorem clearTemporary_putTemporarily (i : Index) (e : Entry) :
    (i.putTemporarily e).clearTemporary = i.clearTemporary := rfl

@[simp] theorem clearTemporary_setHeadTemporarily (i : Index) (head : Entry) :
    (i.setHeadTemporarily head).clearTemporary = i.clearTemporary := rfl

@[simp] theorem clearTemporary_attachTemporarily (i : Index) (proof : Digest) (hash : VBlake) :
    (i.attachTemporarily proof hash).clearTemporary = i.clearTemporary := by
  unfold attachTemporarily
  repeat' split
  all_goals rfl

@[simp] theorem clearTemporary_attachAllTemporarily (i : Index) (proof : Digest)
    (hashes : List VBlake) :
    (i.attachAllTemporarily proof hashes).clearTemporary = i.clearTemporary := by
  induction hashes generalizing i with
  | nil => rfl
  | cons hash hashes ih => exact (ih _).trans (i.clearTemporary_attachTemporarily proof hash)

@[simp] theorem clearTemporary_commitTemporarily (i : Index) (a : Admission) :
    (i.commitTemporarily a).clearTemporary = i.clearTemporary := by
  simp only [commitTemporarily]
  split <;> simp

@[simp] theorem clearTemporary_addTemporarily (i : Index) (h : Header) (proof : Digest) :
    (i.addTemporarily h proof).1.clearTemporary = i.clearTemporary := by
  unfold addTemporarily
  split
  · rfl
  · rfl
  · exact i.clearTemporary_commitTemporarily _

@[simp] theorem clearTemporary_addAllTemporarily (i : Index) (hs : List Header) :
    (i.addAllTemporarily hs).1.clearTemporary = i.clearTemporary := by
  induction hs generalizing i with
  | nil => rfl
  | cons h hs ih =>
    have hclear := i.clearTemporary_addTemporarily h .zero
    unfold addAllTemporarily
    split
    · rename_i hadd
      rw [hadd] at hclear
      exact hclear
    · rename_i j hadd
      rw [hadd] at hclear
      exact (ih j).trans hclear

@[simp] theorem clearTemporary_proveTemporarily (i : Index) (h : Header) (proof : Digest) :
    (i.proveTemporarily h proof).clearTemporary = i.clearTemporary :=
  i.clearTemporary_attachAllTemporarily proof _

theorem store_eq_of_clearTemporary {i j : Index} (h : i.clearTemporary = j.clearTemporary) :
    i.store = j.store := by
  rw [← i.store_clearTemporary, h, j.store_clearTemporary]

theorem bitcoin_eq_of_clearTemporary {i j : Index} (h : i.clearTemporary = j.clearTemporary) :
    i.bitcoin = j.bitcoin := by
  have hbitcoin : i.clearTemporary.bitcoin = j.clearTemporary.bitcoin := by rw [h]
  exact hbitcoin

@[simp] theorem store_addTemporarily (i : Index) (h : Header) (proof : Digest) :
    (i.addTemporarily h proof).1.store = i.store :=
  store_eq_of_clearTemporary (i.clearTemporary_addTemporarily h proof)

@[simp] theorem store_addAllTemporarily (i : Index) (hs : List Header) :
    (i.addAllTemporarily hs).1.store = i.store :=
  store_eq_of_clearTemporary (i.clearTemporary_addAllTemporarily hs)

@[simp] theorem store_proveTemporarily (i : Index) (h : Header) (proof : Digest) :
    (i.proveTemporarily h proof).store = i.store :=
  store_eq_of_clearTemporary (i.clearTemporary_proveTemporarily h proof)

@[simp] theorem overlay_putTemporarily (i : Index) (e : Entry) :
    (i.putTemporarily e).mode.overlay = i.mode.overlay.put e := rfl

/-! ## Look-ups -/

/-- The overlay holds headers of `known`. -/
def OverlayHolds (known : Set Header) (i : Index) : Prop :=
  ∀ e ∈ i.mode.overlay.entries, e.header ∈ known

theorem OverlayHolds.putTemporarily {i : Index} (h : OverlayHolds known i)
    (he : e.header ∈ known) : OverlayHolds known (i.putTemporarily e) := by
  intro x hx
  rcases Overlay.mem_putIn hx with rfl | hx
  · exact he
  · exact h x hx

/-- What is put into the overlay is found where the store would find it. -/
theorem lookup_putTemporarily (hk : KeysDistinct known) {i : Index} (h : OverlayHolds known i)
    (he : e.header ∈ known) (ref : VBlake) :
    (i.putTemporarily e).lookup ref = if ref.StandsFor e.hash then some e else i.lookup ref := by
  unfold lookup
  rw [overlay_putTemporarily, store_putTemporarily, Overlay.get_put]
  by_cases hkey : e.hash.storeKey = ref.storeKey
  · rw [if_pos hkey, Option.filter_some]
    by_cases hagrees : ref.agrees e.hash = true
    · rw [if_pos hagrees, if_pos ⟨hkey.symm, hagrees⟩]
      rfl
    · -- an entry of the same key would be one of the same header
      have hnone : i.mode.overlay.get ref = none := by
        refine Option.eq_none_iff_forall_ne_some.mpr fun x hx ↦ hagrees ?_
        obtain ⟨hmem, hxkey, hxagrees⟩ := Overlay.get_mem hx
        have hheader : x.header = e.header := hk (h x hmem) he (hxkey.trans hkey.symm)
        rwa [Entry.hash, hheader] at hxagrees
      rw [if_neg hagrees, if_neg (fun hstands ↦ hagrees hstands.2), hnone]
  · rw [if_neg hkey, if_neg (fun hstands ↦ hkey hstands.1.symm)]

theorem attachTemporarily_eq (i : Index) (proof : Digest) (hash : VBlake) :
    i.attachTemporarily proof hash =
      match provable? i.bitcoin proof (i.lookup hash) with
      | none => i
      | some e => i.putTemporarily { e with proof } := by
  unfold attachTemporarily provable?
  split
  · rfl
  · cases i.lookup hash with
    | none => rfl
    | some e =>
      simp only [Option.filter_some]
      split <;> rfl

end Index

end EndorsedChain
