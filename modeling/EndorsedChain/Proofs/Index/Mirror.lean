import EndorsedChain.Proofs.Index.Congruence
import EndorsedChain.Proofs.Index.Temporary

/-!
# Speculation mirrors the store

A speculating index *mirrors* another one that is written to for good if both find the same
entries and their heads differ at most in their proofs.  Each mutation keeps this relation to the
corresponding temporary modification, and is refused for the same reason or not at all.  The walks
of both indexes cross the same headers, although the speculating one leaves the overlay for a
store whose copies of some entries are out of date.
-/

namespace EndorsedChain

open VeriBlock

variable {known : Set Header} {s t : Store Entry VBlake} {e : Entry}

namespace Store

theorem Sound.head_alike (hs : s.Sound known) (hkeeps : Keeps s t)
    (hheadId : t.headId = s.headId) : Option.Rel Entry.Alike s.head t.head := by
  cases hhead : s.head with
  | none =>
    have ht : t.head = none := by
      rw [head, hheadId, hs.head_eq_none_iff.mp hhead, Option.bind_none]
    rw [ht]
    exact .none
  | some e =>
    obtain ⟨id, hid, hget⟩ := Option.bind_eq_some_iff.mp hhead
    obtain ⟨x, hx, halike⟩ := hkeeps id e hget
    have ht : t.head = some x := by rw [head, hheadId, hid, Option.bind_some, hx]
    rw [ht]
    exact .some halike

end Store

/-! ## Chains -/

namespace Index

variable {overlay : Overlay} {ref : VBlake}

theorem chainThrough_of_get_none (h : overlay.get ref = none) (count : Nat) :
    chainThrough overlay s ref (count + 1) = s.chain ref (count + 1) := by
  rw [chainThrough, h]

theorem chainThrough_of_get_some (h : overlay.get ref = some e) (count : Nat) :
    chainThrough overlay s ref (count + 1) =
      e :: if e.header.previousBlock.isZero then []
        else chainThrough overlay s e.header.previousBlock count := by
  rw [chainThrough, h]

theorem chainThrough_empty (ref : VBlake) (count : Nat) :
    chainThrough .empty s ref count = s.chain ref count := by
  cases count with
  | zero => rfl
  | succ count => exact chainThrough_of_get_none (Overlay.get_empty ref) count

end Index

theorem rel_alike_trans {a b c : Option Entry} (h : Option.Rel Entry.Alike a b)
    (h' : Option.Rel Entry.Alike b c) : Option.Rel Entry.Alike a c := by
  cases h with
  | none => exact h'
  | some h =>
    cases h' with
    | some h' => exact .some (h.trans h')

theorem rel_alike_symm {a b : Option Entry} (h : Option.Rel Entry.Alike a b) :
    Option.Rel Entry.Alike b a := by
  cases h with
  | none => exact .none
  | some h => exact .some h.symm

namespace Index

/-- The second index speculates what the first one has stored. -/
structure Mirrors (known : Set Header) (p t : Index) : Prop where
  idle : p.isSpeculating = false
  agrees : Agrees p t
  head : Option.Rel Entry.Alike p.store.head t.currentHead
  sound : p.store.Sound known
  base : t.store.Holds known
  overlay : OverlayHolds known t
  keeps : Store.Keeps t.store p.store

namespace Mirrors

variable {p t : Index}

theorem get_eq (h : Mirrors known p t) (ref : VBlake) : p.store.get ref = t.lookup ref := by
  rw [← lookup_of_idle h.idle, h.agrees.lookup]

/-- At the start of a speculation nothing is in the overlay. -/
theorem refl (hidle : p.isSpeculating = false) (hs : p.store.Sound known) : Mirrors known p p where
  idle := hidle
  agrees := ⟨rfl, rfl, rfl⟩
  head := by
    have hhead : p.currentHead = p.store.head := by
      rw [currentHead, overlay_of_idle hidle]
      rfl
    rw [hhead]
    exact hs.head_alike (.refl _) rfl
  sound := hs
  base := hs.toHolds
  overlay e he := by
    rw [overlay_of_idle hidle] at he
    exact absurd he List.not_mem_nil
  keeps := .refl _

/-! ## Writing an entry -/

/-- An entry is written to the store of the one index and to the overlay of the other. -/
theorem write (hk : KeysDistinct known) (h : Mirrors known p t) (hs : s.Sound known)
    (hkeeps : Store.Keeps p.store s) (hheadId : s.headId = p.store.headId)
    (he : e.header ∈ known)
    (hget : ∀ ref, s.get ref = if ref.StandsFor e.hash then some e else p.store.get ref) :
    Mirrors known { p with store := s } (t.putTemporarily e) where
  idle := h.idle
  agrees := by
    refine ⟨h.agrees.params, h.agrees.bitcoin, ?_⟩
    funext ref
    rw [lookup_putTemporarily hk h.overlay he, ← h.get_eq, ← hget]
    exact lookup_of_idle (i := { p with store := s }) h.idle ref
  head := rel_alike_trans (rel_alike_symm (h.sound.head_alike hkeeps hheadId)) h.head
  sound := hs
  base := h.base
  overlay := h.overlay.putTemporarily he
  keeps := h.keeps.trans hkeeps

theorem put (hk : KeysDistinct known) (h : Mirrors known p t)
    (hfits : (Edit.addBlock e).Fits known p.store) :
    Mirrors known { p with store := p.store.put e } (t.putTemporarily e) := by
  have hsound := hfits.apply_sound h.sound
  cases hfits with
  | addBlock hknown _ hfresh =>
    exact h.write hk hsound (Store.keeps_put hk h.sound.toHolds hknown hfresh) rfl hknown
      (Store.get_put hk h.sound.toHolds hknown)

theorem attach (hk : KeysDistinct known) (h : Mirrors known p t) (proof : Digest)
    (hash : VBlake) :
    Mirrors known { p with store := (EndorsedChain.attach p.bitcoin proof p.store hash).1 }
      (t.attachTemporarily proof hash) := by
  rw [attach_eq h.sound.keyed, attachTemporarily_eq, ← h.agrees.bitcoin, ← h.get_eq]
  cases hprovable : provable? p.bitcoin proof (p.store.get hash) with
  | none => exact h
  | some e =>
    have he : e ∈ p.store.blocks := Store.get_mem h.sound.keyed (mem_of_provable? hprovable)
    have hfits : (Edit.setProof e { e with proof }).Fits known p.store := .setProof he proof
    exact h.write hk (hfits.apply_sound h.sound)
      (Store.keeps_replace hk h.sound.toHolds he ⟨rfl, rfl⟩) rfl (h.sound.mem_known e he)
      (Store.get_replace hk h.sound.toHolds he rfl)

theorem attachAll (hk : KeysDistinct known) (h : Mirrors known p t) (proof : Digest)
    (hashes : List VBlake) :
    Mirrors known { p with store := (EndorsedChain.attachAll p.bitcoin proof p.store hashes).1 }
      (t.attachAllTemporarily proof hashes) := by
  induction hashes generalizing p t with
  | nil => exact h
  | cons hash hashes ih => exact ih (h.attach hk proof hash)

/-- The head is moved to an entry that was written before. -/
theorem setHead (h : Mirrors known p t) {x : Entry} (hget : p.store.get e.hash = some x)
    (halike : e.Alike x) (hs : ({ p.store with headId := some e.hash } :
      Store Entry VBlake).Sound known) :
    Mirrors known { p with store := { p.store with headId := some e.hash } }
      (t.setHeadTemporarily e) where
  idle := h.idle
  agrees := by
    refine ⟨h.agrees.params, h.agrees.bitcoin, ?_⟩
    funext ref
    have hlookup : (t.setHeadTemporarily e).lookup ref = t.lookup ref := rfl
    rw [hlookup, ← h.get_eq]
    exact lookup_of_idle (i := { p with store := { p.store with headId := some e.hash } })
      h.idle ref
  head := by
    have hhead : ({ p.store with headId := some e.hash } : Store Entry VBlake).head = some x :=
      hget
    rw [hhead]
    exact .some halike.symm
  sound := hs
  base := h.base
  overlay := h.overlay
  keeps := h.keeps

/-! ## Walks -/

/-- The store below the overlay holds whole chains: where one ends, the other index knows no more
either. -/
def Closed (p t : Index) : Prop :=
  ∀ e ∈ t.store.blocks, t.store.get e.header.previousBlock = none →
    p.store.get e.header.previousBlock = none

theorem headers_chain_store (h : Mirrors known p t) (hclosed : Closed p t) {ref : VBlake}
    (href : t.store.get ref = none → p.store.get ref = none) (count : Nat) :
    (t.store.chain ref count).map (·.header) = (p.store.chain ref count).map (·.header) := by
  induction count generalizing ref with
  | zero => rfl
  | succ count ih =>
    cases hget : t.store.get ref with
    | none => rw [Store.chain_of_get_none hget, Store.chain_of_get_none (href hget)]
    | some e =>
      obtain ⟨x, hx, halike⟩ := h.keeps ref e hget
      have hparent : (Linked.parent x : VBlake) = Linked.parent e :=
        congrArg (·.previousBlock) halike.header.symm
      rw [Store.chain_of_get_some hget, Store.chain_of_get_some hx, List.map_cons, List.map_cons,
        halike.header, hparent]
      refine congrArg _ ?_
      split
      · rfl
      · exact ih (hclosed e (Store.get_mem h.base.keyed hget))

/-- Both indexes see the same headers behind a reference. -/
theorem sameChains (h : Mirrors known p t) (hclosed : Closed p t) : SameChains p t := by
  intro ref count
  rw [chain, chain, overlay_of_idle h.idle, chainThrough_empty]
  induction count generalizing ref with
  | zero => rfl
  | succ count ih =>
    cases hget : t.mode.overlay.get ref with
    | none =>
      -- from here on the walk does not come back to the overlay
      rw [chainThrough_of_get_none hget]
      refine (h.headers_chain_store hclosed (fun hnone ↦ ?_) _).symm
      rw [h.get_eq, lookup, hget, hnone]
      rfl
    | some e =>
      have hp : p.store.get ref = some e := by
        rw [h.get_eq, lookup, hget]
        rfl
      have hchain : p.store.chain ref (count + 1) =
          e :: if e.header.previousBlock.isZero then []
            else p.store.chain e.header.previousBlock count := Store.chain_of_get_some hp count
      rw [chainThrough_of_get_some hget, hchain, List.map_cons, List.map_cons]
      refine congrArg _ ?_
      split
      · rfl
      · exact ih _

/-- No entry is known to the one index only. -/
theorem size_le (h : Mirrors known p t) :
    p.store.blocks.length ≤ t.knownCount := by
  have hsub : p.store.blocks ⊆ t.store.blocks ++ t.mode.overlay.entries := by
    intro e he
    have hlookup : t.lookup e.hash = some e := by
      rw [← h.get_eq]
      exact Store.get_hash h.sound.keyed he
    rcases Option.or_eq_some_iff.mp hlookup with hoverlay | ⟨-, hstore⟩
    · exact List.mem_append_right _ (Overlay.get_mem hoverlay).1
    · exact List.mem_append_left _ (Store.get_mem h.base.keyed hstore)
  have hle := (h.sound.keyed.nodup_blocks.subperm hsub).length_le
  rwa [List.length_append] at hle

theorem knownCount_of_idle (hidle : p.isSpeculating = false) : p.knownCount = p.store.size := by
  rw [knownCount, overlay_of_idle hidle]
  rfl

theorem promotes (h : Mirrors known p t) (a : Admission) :
    p.promotes p.store.head a = t.promotes t.currentHead a := by
  have hknown : ∀ ref e, p.lookup ref = some e → e ∈ p.store.blocks := by
    intro ref e hlookup
    rw [lookup_of_idle h.idle] at hlookup
    exact Store.get_mem h.sound.keyed hlookup
  have hle : p.store.blocks.length ≤ p.knownCount := Nat.le_of_eq (knownCount_of_idle h.idle).symm
  exact promotes_congr h.agrees hknown hle h.size_le h.head a

end Mirrors

/-! ## Mutations -/

/-- How a mutation of the one index and a temporary modification of the other come out. -/
inductive Mirrored (known : Set Header) (p t : Index) :
    Index × Except Error (List Edit) → Index × Except Error Unit → Prop
  | refused (e : Error) : Mirrored known p t (p, .error e) (t, .error e)
  | done {p' t' : Index} (edits : List Edit) (h : Mirrors known p' t') :
    Mirrored known p t (p', .ok edits) (t', .ok ())

namespace Mirrors

variable {p t : Index}

theorem commit (hk : KeysDistinct known) (h : Mirrors known p t) {a : Admission}
    (hfits : (Edit.addBlock a.entry).Fits known p.store) :
    Mirrored known p t (p.commit a) (t.commitTemporarily a, .ok ()) := by
  have hattached : Mirrors known { p with store := (p.attachAdmitted a).1 }
      ((t.putTemporarily a.entry).attachAllTemporarily a.entry.proof
        a.entry.header.provenKeystones) :=
    (h.put hk hfits).attachAll hk a.entry.proof a.entry.header.provenKeystones
  have hpromotes := hattached.promotes a
  rw [commit_eq]
  simp only [commitTemporarily, ← hpromotes]
  split
  · obtain ⟨x, hx, hget, halike⟩ :=
      (proves_attachAdmitted h.sound.keyed a).get_new h.sound.keyed
    have hfitsHead : (Edit.setHead (p.attachAdmitted a).1.head a.entry).Fits known
        (p.attachAdmitted a).1 := .setHead hx (congrArg Header.hash halike.header.symm)
    exact .done _ (hattached.setHead hget halike (hfitsHead.apply_sound hattached.sound))
  · exact .done _ hattached

theorem addEdits (hk : KeysDistinct known) (h : Mirrors known p t) (hs : p.store.Headed known)
    (hclosed : Closed p t) {hd : Header} (hmem : hd ∈ known) (proof : Digest) :
    Mirrored known p t (p.addEdits hd proof) (t.addTemporarily hd proof) := by
  have haccept := accept_congr h.agrees (h.sameChains hclosed) h.head hd proof
  unfold Index.addEdits addTemporarily
  rw [if_neg (by rw [h.idle]; decide), ← haccept]
  cases hadmission : p.accept p.store.head hd proof with
  | error e => exact .refused e
  | ok admission =>
    cases admission with
    | none => exact .done [] h
    | some a => exact h.commit hk (admits_of_accept h.idle hs hmem hadmission).1

theorem proveEdits (hk : KeysDistinct known) (h : Mirrors known p t) (hd : Header)
    (proof : Digest) :
    Mirrored known p t (p.proveEdits hd proof) (t.proveTemporarily hd proof, .ok ()) := by
  unfold Index.proveEdits proveTemporarily
  rw [if_neg (by rw [h.idle]; decide)]
  exact .done _ (h.attachAll hk proof hd.proofTargets)

end Mirrors

end Index

end EndorsedChain
