import EndorsedChain.Proofs.Index.Temporary
import EndorsedChain.Proofs.Session.Rewind
import Mathlib.Data.List.Perm.Subperm

/-!
# Known headers

In the store or in the overlay, an index only ever holds headers that were handed to it.  As long
as their keys are distinct, every reference that stands for a known header finds the same entry.
-/

namespace EndorsedChain

open VeriBlock

variable {known : Set Header} {e : Entry} {ref other : VBlake}

theorem Overlay.get_of_standsFor {o : Overlay} (h : o.get other = some e)
    (hstands : ref.StandsFor e.hash) : o.get ref = some e := by
  obtain ⟨hfind, -⟩ := Option.filter_eq_some_iff.mp h
  have hkey : ref.storeKey = other.storeKey := hstands.1.trans (Overlay.get_mem h).2.1
  exact Option.filter_eq_some_iff.mpr ⟨by rw [hkey]; exact hfind, hstands.2⟩

namespace Index

variable {i : Index}

/-- All entries are of headers of `known`. -/
structure Knows (known : Set Header) (i : Index) : Prop where
  store : i.store.Holds known
  overlay : OverlayHolds known i

namespace Knows

theorem lookup_mem (hk : KeysDistinct known) (h : Knows known i) (hlookup : i.lookup ref = some e) :
    e.header ∈ known ∧ ref.StandsFor e.hash := by
  rcases Option.or_eq_some_iff.mp hlookup with hoverlay | ⟨-, hstore⟩
  · obtain ⟨hmem, hkey, hagrees⟩ := Overlay.get_mem hoverlay
    exact ⟨h.overlay e hmem, hkey.symm, hagrees⟩
  · obtain ⟨hmem, hstands⟩ := (Store.get_eq_some_iff hk h.store).mp hstore
    exact ⟨h.store.mem_known e hmem, hstands⟩

/-- What one reference finds is found by every other reference to it. -/
theorem lookup_of_standsFor (hk : KeysDistinct known) (h : Knows known i)
    (hlookup : i.lookup other = some e) (hstands : ref.StandsFor e.hash) :
    i.lookup ref = some e := by
  rcases Option.or_eq_some_iff.mp hlookup with hoverlay | ⟨hnone, hstore⟩
  · exact Option.or_eq_some_iff.mpr (.inl (Overlay.get_of_standsFor hoverlay hstands))
  · obtain ⟨hmem, hother⟩ := (Store.get_eq_some_iff hk h.store).mp hstore
    have hget : i.store.get ref = some e := (Store.get_eq_some_iff hk h.store).mpr ⟨hmem, hstands⟩
    refine Option.or_eq_some_iff.mpr (.inr ⟨?_, hget⟩)
    apply Option.eq_none_iff_forall_ne_some.mpr
    intro x hx
    -- an overlaid copy would have been found in the first place
    obtain ⟨hxmem, hxkey, -⟩ := Overlay.get_mem hx
    have hheader : x.header = e.header :=
      hk (h.overlay x hxmem) (h.store.mem_known e hmem) (hxkey.trans hstands.1)
    have hfound : i.mode.overlay.get other = some x :=
      Overlay.get_of_standsFor hx (by rwa [Entry.hash, hheader])
    rw [hnone] at hfound
    cases hfound

/-- A known header is found by every reference that stands for it. -/
theorem exists_lookup (hk : KeysDistinct known) (h : Knows known i) {hd : Header}
    (hget : i.get hd.hash = some hd) (hstands : ref.StandsFor hd.hash) :
    ∃ e, i.lookup ref = some e ∧ e.header = hd := by
  obtain ⟨e, hlookup, rfl⟩ := Option.map_eq_some_iff.mp hget
  exact ⟨e, h.lookup_of_standsFor hk hlookup hstands, rfl⟩

theorem get_keystone (hk : KeysDistinct known) (h : Knows known i) {hd : Header}
    (hget : i.get hd.hash = some hd) :
    ∃ e, i.lookup hd.hash.toKeystone = some e ∧ e.header = hd :=
  h.exists_lookup hk hget (VBlake.standsFor_toKeystone hd.hash)

theorem get_previous (hk : KeysDistinct known) (h : Knows known i) {hd : Header}
    (hget : i.get hd.hash = some hd) : i.get hd.hash.toPrevious = some hd :=
  Option.map_eq_some_iff.mpr (h.exists_lookup hk hget (VBlake.standsFor_toPrevious hd.hash))

theorem mem_of_get (hk : KeysDistinct known) (h : Knows known i) {hd : Header}
    (hget : i.get hd.hash = some hd) : hd ∈ known := by
  obtain ⟨e, hlookup, rfl⟩ := Option.map_eq_some_iff.mp hget
  exact (h.lookup_mem hk hlookup).1

/-- Different headers that are found are counted. -/
theorem length_le_knownCount {l : List Header} (hnodup : l.Nodup)
    (hknown : ∀ hd ∈ l, i.get hd.hash = some hd) (h : Knows known i) :
    l.length ≤ i.knownCount := by
  have hsub : l ⊆ (i.store.blocks ++ i.mode.overlay.entries).map (·.header) := by
    intro hd hmem
    obtain ⟨e, hlookup, rfl⟩ := Option.map_eq_some_iff.mp (hknown hd hmem)
    refine List.mem_map_of_mem (List.mem_append.mpr ?_)
    rcases Option.or_eq_some_iff.mp hlookup with hoverlay | ⟨-, hstore⟩
    · exact .inr (Overlay.get_mem hoverlay).1
    · exact .inl (Store.get_mem h.store.keyed hstore)
  have hle := (hnodup.subperm hsub).length_le
  rwa [List.length_map, List.length_append] at hle

/-! ## Temporary modifications -/

theorem putTemporarily (h : Knows known i) (he : e.header ∈ known) :
    Knows known (i.putTemporarily e) := ⟨h.store, h.overlay.putTemporarily he⟩

theorem attachTemporarily (hk : KeysDistinct known) (h : Knows known i) (proof : Digest)
    (hash : VBlake) : Knows known (i.attachTemporarily proof hash) := by
  rw [attachTemporarily_eq]
  cases hprovable : provable? i.bitcoin proof (i.lookup hash) with
  | none => exact h
  | some e =>
    have hmem : e.header ∈ known := (h.lookup_mem hk (mem_of_provable? hprovable)).1
    exact h.putTemporarily (e := { e with proof }) hmem

theorem attachAllTemporarily (hk : KeysDistinct known) (h : Knows known i) (proof : Digest)
    (hashes : List VBlake) : Knows known (i.attachAllTemporarily proof hashes) := by
  induction hashes generalizing i with
  | nil => exact h
  | cons hash hashes ih => exact ih (h.attachTemporarily hk proof hash)

theorem commitTemporarily (hk : KeysDistinct known) (h : Knows known i) {a : Admission}
    (ha : a.entry.header ∈ known) : Knows known (i.commitTemporarily a) := by
  have hattached := (h.putTemporarily ha).attachAllTemporarily hk a.entry.proof
    a.entry.header.provenKeystones
  simp only [Index.commitTemporarily]
  split
  · exact ⟨hattached.store, hattached.overlay⟩
  · exact hattached

theorem addTemporarily (hk : KeysDistinct known) (h : Knows known i) {hd : Header}
    (hmem : hd ∈ known) (proof : Digest) : Knows known (i.addTemporarily hd proof).1 := by
  unfold Index.addTemporarily
  cases haccept : i.accept i.currentHead hd proof with
  | error e => exact h
  | ok admission =>
    cases admission with
    | none => exact h
    | some a =>
      have ha : a.entry.header = hd := by
        obtain ⟨work, -, ⟨-, rfl⟩ | ⟨-, -, p, -, rfl⟩⟩ := accept_eq_ok_some haccept <;> rfl
      exact h.commitTemporarily hk (ha ▸ hmem)

theorem addAllTemporarily (hk : KeysDistinct known) (h : Knows known i) {hs : List Header}
    (hmem : ∀ hd ∈ hs, hd ∈ known) : Knows known (i.addAllTemporarily hs).1 := by
  induction hs generalizing i with
  | nil => exact h
  | cons hd hs ih =>
    rw [List.forall_mem_cons] at hmem
    have hadd := h.addTemporarily hk hmem.1 .zero
    unfold Index.addAllTemporarily
    split
    · rename_i hfail
      rwa [hfail] at hadd
    · rename_i j hok
      rw [hok] at hadd
      exact ih hadd hmem.2

end Knows

theorem mode_rewind (i : Index) (changes : List Change) : (i.rewind changes).1.mode = i.mode := by
  unfold Index.rewind
  split
  · rfl
  · rfl

end Index

/-! ## Sessions -/

namespace Session

variable {a b : Session} {r : Reply} {c : Call} {calls : List Call}

theorem overlay_call (hk : KeysDistinct known) (hbacked : Backed known a.journal a.index.store)
    (hmem : ∀ h ∈ c.headers, h ∈ known) (hcall : a.call c = some r)
    (h : Index.OverlayHolds known a.index) : Index.OverlayHolds known r.session.index := by
  have hknows : Index.Knows known a.index := ⟨hbacked.headed.toHolds, h⟩
  cases hpersistent : c.isPersistent with
  | true =>
    have hmode := (call_persistent hbacked.headed hmem hpersistent hcall).1
    intro e he
    rw [hmode] at he
    exact h e he
  | false =>
    cases c with
    | add | addAll | prove | setBitcoin => cases hpersistent
    | addTemporarily hd proof =>
      cases hcall
      exact (hknows.addTemporarily hk (hmem hd List.mem_cons_self) proof).overlay
    | addAllTemporarily hs =>
      cases hcall
      exact (hknows.addAllTemporarily hk hmem).overlay
    | proveTemporarily hd proof =>
      cases hcall
      exact (hknows.attachAllTemporarily hk proof hd.proofTargets).overlay
    | clearTemporary =>
      cases hcall
      exact fun e he ↦ absurd he List.not_mem_nil
    | rewind count =>
      have hmode := a.index.mode_rewind (a.journal.take count).reverse.flatten
      intro e he
      simp only [call] at hcall
      split at hcall
      · rename_i j hrewind
        cases hcall
        rw [hrewind] at hmode
        exact h e (hmode ▸ he)
      · rename_i j error hrewind
        cases hcall
        rw [hrewind] at hmode
        exact h e (hmode ▸ he)

theorem overlay_run (hk : KeysDistinct known) (hbacked : Backed known a.journal a.index.store)
    (hmem : ∀ h ∈ calls.flatMap Call.headers, h ∈ known) (hrun : a.run calls = some b)
    (h : Index.OverlayHolds known a.index) : Index.OverlayHolds known b.index := by
  induction calls generalizing a with
  | nil => cases hrun; exact h
  | cons c calls ih =>
    rw [run, Option.bind_eq_some_iff] at hrun
    obtain ⟨r, hcall, hrun⟩ := hrun
    rw [List.flatMap_cons] at hmem
    have hfirst : ∀ h ∈ c.headers, h ∈ known := fun h hh ↦ hmem h (List.mem_append_left _ hh)
    exact ih (backed_call hbacked hfirst hcall) (fun h hh ↦ hmem h (List.mem_append_right _ hh))
      hrun (overlay_call hk hbacked hfirst hcall h)

theorem knows_run {params : NetworkParameters} (hk : KeysDistinct known)
    (hmem : ∀ h ∈ calls.flatMap Call.headers, h ∈ known)
    (hrun : (start params).run calls = some a) : Index.Knows known a.index where
  store := (backed_run (backed_start params) hmem hrun).headed.toHolds
  overlay := overlay_run hk (backed_start params) hmem hrun nofun

end Session

end EndorsedChain
