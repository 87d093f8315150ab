import EndorsedChain.Proofs.Index.Reachable
import EndorsedChain.Proofs.Sample.Openings

/-!
# The height of attached proofs

A proof gives way to one that is earlier in the Bitcoin store.  Where that one is on the best
Bitcoin chain as well, a header that was proven on this chain stays proven on it, and not any
later: one target after the other (`attach_provenBy`), and so all targets of a call.
-/

namespace EndorsedChain

open VeriBlock

/-! ## Looking for a Bitcoin header -/

namespace Store

variable {β : Type} [Linked β Digest] {s : Store β Digest} {id : Digest} {b found : β}

theorem id_of_get (h : s.get id = some b) : Linked.id b = id :=
  (of_decide_eq_true (List.find?_some (p := fun x ↦ decide (id = Linked.id x)) h)).symm

theorem get_of_scanFrom (hb : s.get (Linked.id b) = some b) {steps : Nat}
    (h : s.scanFrom id steps b = some found) : s.get id = some found := by
  induction steps generalizing b with
  | zero =>
    rw [scanFrom_zero] at h
    split at h
    · rename_i hid
      cases h
      rwa [of_decide_eq_true hid]
    · cases h
  | succ steps ih =>
    rw [scanFrom_succ] at h
    split at h
    · rename_i hid
      cases h
      rwa [of_decide_eq_true hid]
    · split at h
      · cases h
      · obtain ⟨parent, hparent, h⟩ := Option.bind_eq_some_iff.mp h
        exact ih ((id_of_get hparent).symm ▸ hparent) h

/-- What is on the best chain is in the store. -/
theorem get_of_scanBest (h : s.scanBest id = some found) : s.get id = some found := by
  obtain ⟨head, hhead, hscan⟩ := Option.bind_eq_some_iff.mp h
  obtain ⟨headId, -, hget⟩ := Option.bind_eq_some_iff.mp hhead
  exact get_of_scanFrom ((id_of_get hget).symm ▸ hget) hscan

end Store

/-! ## Attaching a proof -/

variable {s : Store Entry VBlake} {bitcoin : Store Bitcoin.Entry Digest} {proof : Digest}
  {e x : Entry} {height : UInt32}

/-- The proof of an entry is on the best Bitcoin chain, at the given height or below it. -/
structure VeriBlock.Entry.ProvenBy (bitcoin : Store Bitcoin.Entry Digest) (height : UInt32)
    (e : Entry) : Prop where
  hasProof : e.hasProof = true
  found : ∃ b, bitcoin.scanBest e.proof = some b ∧ b.height ≤ height

/-- If the Bitcoin store holds the given header below the height, then on the best chain. -/
def OnBestBelow (bitcoin : Store Bitcoin.Entry Digest) (proof : Digest) (height : UInt32) : Prop :=
  ∀ b, bitcoin.get proof = some b → b.height < height → (bitcoin.scanBest proof).isSome = true

/-- A proof on the best chain gives way to an earlier one only. -/
theorem earlier_of_isBetterProof (h : isBetterProof bitcoin e proof = true)
    (hproven : e.ProvenBy bitcoin height) :
    ∃ b, bitcoin.get proof = some b ∧ b.height < height := by
  obtain ⟨hasProof, incumbent, hincumbent, hle⟩ := hproven
  rw [isBetterProof, if_pos hasProof] at h
  cases hget : bitcoin.get proof with
  | none => rw [hget] at h; cases h
  | some candidate =>
    rw [hget, hincumbent] at h
    exact ⟨candidate, rfl, UInt32.lt_of_lt_of_le (of_decide_eq_true h) hle⟩

theorem provenBy_of_isBetterProof (hproof : proof.isZero = false)
    (hbest : OnBestBelow bitcoin proof height) (h : isBetterProof bitcoin e proof = true)
    (hproven : e.ProvenBy bitcoin height) : Entry.ProvenBy bitcoin height { e with proof } := by
  obtain ⟨b, hget, hlt⟩ := earlier_of_isBetterProof h hproven
  obtain ⟨found, hfound⟩ := Option.isSome_iff_exists.mp (hbest b hget hlt)
  have heq : found = b := Option.some.inj ((Store.get_of_scanBest hfound).symm.trans hget)
  refine ⟨by simp [Entry.hasProof, hproof], found, hfound, ?_⟩
  exact heq ▸ UInt32.le_of_lt hlt

/-- The header of an entry is stored with the same work, and proven. -/
def StaysProven (bitcoin : Store Bitcoin.Entry Digest) (height : UInt32) (e : Entry)
    (s : Store Entry VBlake) : Prop :=
  ∃ x ∈ s.blocks, e.Alike x ∧ x.ProvenBy bitcoin height

theorem attach_staysProven (hs : s.Keyed) (hbest : OnBestBelow bitcoin proof height)
    (h : StaysProven bitcoin height e s) (hash : VBlake) :
    StaysProven bitcoin height e (attach bitcoin proof s hash).1 := by
  rw [attach_eq hs]
  cases hprovable : provable? bitcoin proof (s.get hash) with
  | none => exact h
  | some target =>
    obtain ⟨hzero, hget, hbetter⟩ := provable?_eq_some_iff.mp hprovable
    have hmem : target ∈ s.blocks := Store.get_mem hs hget
    obtain ⟨x, hx, halike, hproven⟩ := h
    by_cases heq : x = target
    · -- the entry gives way to its copy with the new proof
      subst heq
      exact ⟨_, (Edit.mem_setProof hs hmem proof).mpr (.inl rfl), ⟨halike.header, halike.work⟩,
        provenBy_of_isBetterProof hzero hbest hbetter hproven⟩
    · exact ⟨x, (Edit.mem_setProof hs hmem proof).mpr (.inr ⟨hx, heq⟩), halike, hproven⟩

theorem attachAll_staysProven (hs : s.Keyed) (hbest : OnBestBelow bitcoin proof height)
    (h : StaysProven bitcoin height e s) (hashes : List VBlake) :
    StaysProven bitcoin height e (attachAll bitcoin proof s hashes).1 := by
  induction hashes generalizing s with
  | nil => exact h
  | cons hash hashes ih =>
    exact ih (keyed_attach hs bitcoin proof hash) (attach_staysProven hs hbest h hash)

namespace Index

variable {params : NetworkParameters} {i j : Index} {h : Header}

theorem prove_staysProven (hs : i.store.Keyed) (hbest : OnBestBelow i.bitcoin proof height)
    (hproven : StaysProven i.bitcoin height e i.store) :
    StaysProven (i.prove h proof).1.bitcoin height e (i.prove h proof).1.store := by
  change StaysProven (i.proveEdits h proof).1.bitcoin height e (i.proveEdits h proof).1.store
  unfold proveEdits
  split
  · exact hproven
  · exact attachAll_staysProven hs hbest hproven h.proofTargets

/-- A new header is put beside the stored ones. -/
theorem commit_staysProven (hs : i.store.Keyed) {a : Admission}
    (hbest : OnBestBelow i.bitcoin a.entry.proof height)
    (hfresh : ∀ x ∈ i.store.blocks, x.hash ≠ a.entry.hash)
    (hproven : StaysProven i.bitcoin height e i.store) :
    StaysProven (i.commit a).1.bitcoin height e (i.commit a).1.store := by
  have hput : StaysProven i.bitcoin height e (i.store.put a.entry) := by
    obtain ⟨x, hx, hx'⟩ := hproven
    exact ⟨x, (Store.mem_blocks_put hs).mpr (.inr ⟨hx, hfresh x hx⟩), hx'⟩
  have hattached := attachAll_staysProven (hs.put a.entry) hbest hput a.entry.header.provenKeystones
  rw [commit_eq]
  split
  · exact hattached
  · exact hattached

theorem add_staysProven (hs : i.store.Keyed) (hbest : OnBestBelow i.bitcoin proof height)
    (hnew : i.store.head = none → i.store.get h.hash = none)
    (hproven : StaysProven i.bitcoin height e i.store) :
    StaysProven (i.add h proof).1.bitcoin height e (i.add h proof).1.store := by
  change StaysProven (i.addEdits h proof).1.bitcoin height e (i.addEdits h proof).1.store
  rcases i.addEdits_cases h proof with ⟨e, hadd⟩ | hadd | ⟨a, -, haccept, hadd⟩
  · rwa [hadd]
  · rwa [hadd]
  · rw [hadd]
    obtain ⟨-, -, ⟨hhead, rfl⟩ | ⟨-, hlookup, p, -, rfl⟩⟩ := accept_eq_ok_some haccept
    · exact commit_staysProven hs hbest ((Store.get_hash_eq_none_iff hs).mp (hnew hhead)) hproven
    · exact commit_staysProven hs hbest
        ((Store.get_hash_eq_none_iff hs).mp (Option.or_eq_none_iff.mp hlookup).2) hproven

/-- As long as the given Bitcoin header is not below a proof on the best chain without being on this
chain itself, such a proof gives way to an earlier one on the best chain at most.  A store without a
head must not hold the header that is added. -/
theorem proof_never_worsens (hi : i.Reachable params)
    (hcall : j = (i.prove h proof).1 ∨
      j = (i.add h proof).1 ∧ (i.store.head = none → i.store.get h.hash = none))
    (he : e ∈ i.store.blocks) (hproof : e.hasProof = true) {b : Bitcoin.Entry}
    (hb : i.bitcoin.scanBest e.proof = some b)
    (hbest : ∀ c, i.bitcoin.get proof = some c → c.height < b.height →
      (i.bitcoin.scanBest proof).isSome = true) :
    ∃ x ∈ j.store.blocks, x.header = e.header ∧ x.work = e.work ∧ x.hasProof = true ∧
      ∃ c, j.bitcoin.scanBest x.proof = some c ∧ c.height ≤ b.height := by
  have hproven : StaysProven i.bitcoin b.height e i.store :=
    ⟨e, he, .refl e, hproof, b, hb, UInt32.le_refl _⟩
  have hstays : StaysProven j.bitcoin b.height e j.store := by
    rcases hcall with rfl | ⟨rfl, hnew⟩
    · exact prove_staysProven hi.keyed hbest hproven
    · exact add_staysProven hi.keyed hbest hnew hproven
  obtain ⟨x, hx, halike, hasProof, c, hc, hle⟩ := hstays
  exact ⟨x, hx, halike.header.symm, halike.work.symm, hasProof, c, hc, hle⟩

/-! ## A Bitcoin header off the best chain -/

section Stray

open Sample

def strayBitcoin : Store Bitcoin.Entry Digest where
  buckets := (((Store.empty.put bitcoinFirst).put bitcoinTip).put bitcoinStray).buckets
  headId := some bitcoinTip.hash

/-- The first VeriBlock header is proven by the tip of the best Bitcoin chain. -/
def provenByTip : Index :=
  (({ params := .testnet, bitcoin := strayBitcoin } : Index).add genesis bitcoinTip.hash).1

theorem reachable_provenByTip : provenByTip.Reachable .testnet :=
  (Reachable.start.setBitcoin strayBitcoin).add genesis bitcoinTip.hash

theorem blocks_provenByTip :
    provenByTip.store.blocks = [⟨genesis, 100000000, bitcoinTip.hash⟩] := by decide +kernel

theorem scanBest_tip : provenByTip.bitcoin.scanBest bitcoinTip.hash = some bitcoinTip := by
  decide +kernel

/-- An earlier header of the best chain takes the place of its tip. -/
theorem first_replaces_tip : ∃ x ∈ (provenByTip.prove genesis bitcoinFirst.hash).1.store.blocks,
    x.header = genesis ∧ x.hasProof = true ∧
      ∃ c, (provenByTip.prove genesis bitcoinFirst.hash).1.bitcoin.scanBest x.proof = some c ∧
        c.height ≤ bitcoinTip.height := by
  have hfirst : (provenByTip.bitcoin.scanBest bitcoinFirst.hash).isSome = true := by decide +kernel
  have hgenesis : ⟨genesis, 100000000, bitcoinTip.hash⟩ ∈ provenByTip.store.blocks := by
    rw [blocks_provenByTip]
    exact List.mem_singleton_self _
  obtain ⟨x, hx, hheader, -, hproven⟩ := proof_never_worsens reachable_provenByTip (.inl rfl)
    hgenesis (by decide +kernel) scanBest_tip (fun _ _ _ ↦ hfirst)
  exact ⟨x, hx, hheader, hproven⟩

/-- So does a header that is not on the best chain, and no proof is found there from then on. -/
theorem stray_replaces_tip : provenByTip.Reachable .testnet ∧
    provenByTip.store.blocks = [⟨genesis, 100000000, bitcoinTip.hash⟩] ∧
    bitcoinTip.hash.isZero = false ∧
    provenByTip.bitcoin.scanBest bitcoinTip.hash = some bitcoinTip ∧
    (provenByTip.prove genesis bitcoinStray.hash).1.store.blocks =
      [⟨genesis, 100000000, bitcoinStray.hash⟩] ∧
    (provenByTip.prove genesis bitcoinStray.hash).1.bitcoin = provenByTip.bitcoin ∧
    provenByTip.bitcoin.scanBest bitcoinStray.hash = none :=
  ⟨reachable_provenByTip, blocks_provenByTip, by decide +kernel, scanBest_tip, by decide +kernel,
    rfl, by decide +kernel⟩

end Stray

end Index

end EndorsedChain
