import EndorsedChain.Proofs.Index.Mirror
import EndorsedChain.Proofs.Session.Ancestry
import EndorsedChain.Proofs.Session.Known
import EndorsedChain.Proofs.Store.Ancestors

/-!
# Chains across the overlay

The chain behind a reference is read from the overlay, and from the first header that is not in the
overlay on from the store alone.  Further down there may be headers again whose proven copies are in
the overlay.  No header is lost by that, nor does one come up that is not looked up: headers of one
key are the same header, and where a chain of the store ends, at the first header that was added,
the overlay has nothing to go on with.
-/

namespace EndorsedChain

open VeriBlock Sample

variable {known : Set Header} {i : Index} {e : Entry} {ref : VBlake} {o : Header}

namespace Index

/-- The header before a header, looked up in the overlay first, unless the header is an origin or
the one before it is unknown. -/
def headerBefore? (i : Index) (h : Header) : Option Header :=
  if h.previousBlock.isZero then none else i.get h.previousBlock

/-- Where a chain of the store ends, the overlay does not go on with it. -/
def Grounded (i : Index) : Prop :=
  ∀ e ∈ i.store.blocks, i.store.get e.header.previousBlock = none →
    i.get e.header.previousBlock = none

namespace Knows

/-- A copy in the overlay is one of the same header. -/
theorem get_of_store (hk : KeysDistinct known) (h : Knows known i)
    (hget : i.store.get ref = some e) : i.get ref = some e.header := by
  obtain ⟨hmem, hstands⟩ := (Store.get_eq_some_iff hk h.store).mp hget
  rw [Index.get, lookup]
  cases hoverlay : i.mode.overlay.get ref with
  | none => rw [Option.none_or, hget, Option.map_some]
  | some x =>
    obtain ⟨hxmem, hxkey, -⟩ := Overlay.get_mem hoverlay
    have hheader : x.header = e.header :=
      hk (h.overlay x hxmem) (h.store.mem_known e hmem) (hxkey.trans hstands.1)
    rw [Option.some_or, Option.map_some, hheader]

theorem map_parent? (hk : KeysDistinct known) (h : Knows known i) (hgrounded : i.Grounded)
    (he : e ∈ i.store.blocks) :
    (i.store.parent? e).map (·.header) = i.headerBefore? e.header := by
  change (if e.header.previousBlock.isZero then none
    else i.store.get e.header.previousBlock).map (·.header) = i.headerBefore? e.header
  unfold headerBefore?
  split
  · rfl
  · cases hget : i.store.get e.header.previousBlock with
    | none => rw [hgrounded e he hget, Option.map_none]
    | some p => rw [h.get_of_store hk hget, Option.map_some]

/-- In the store alone the same headers come up. -/
theorem map_steps_parent? (hk : KeysDistinct known) (h : Knows known i) (hgrounded : i.Grounded)
    (n : Nat) (he : e ∈ i.store.blocks) :
    (steps i.store.parent? n (some e)).map (·.header) =
      steps i.headerBefore? n (some e.header) :=
  map_steps _ (fun _ _ _ ↦ Store.mem_blocks_of_parent?) (fun _ ↦ h.map_parent? hk hgrounded) n he

theorem getElem?_chain (hk : KeysDistinct known) (h : Knows known i) (hgrounded : i.Grounded)
    (hash : VBlake) (count n : Nat) :
    ((i.chain hash count)[n]?).map (·.header) =
      if n < count then steps i.headerBefore? n (i.get hash) else none := by
  unfold chain
  induction count generalizing hash n with
  | zero => rfl
  | succ count ih =>
    cases hoverlay : i.mode.overlay.get hash with
    | none =>
      -- from here on the store is not left any more
      have hlookup : i.lookup hash = i.store.get hash := by rw [lookup, hoverlay, Option.none_or]
      rw [chainThrough_of_get_none hoverlay, Store.getElem?_chain, Index.get, hlookup]
      by_cases hn : n < count + 1
      · rw [if_pos hn, if_pos hn]
        cases hget : i.store.get hash with
        | none => simp only [steps_none, Option.map_none]
        | some e => exact h.map_steps_parent? hk hgrounded n (Store.mem_blocks_of_get hget)
      · rw [if_neg hn, if_neg hn, Option.map_none]
    | some e =>
      have hget : i.get hash = some e.header := by rw [Index.get, lookup, hoverlay]; rfl
      rw [chainThrough_of_get_some hoverlay, hget]
      cases n with
      | zero => rfl
      | succ n =>
        rw [List.getElem?_cons_succ, steps_succ, headerBefore?]
        by_cases hzero : e.header.previousBlock.isZero = true
        · rw [if_pos hzero, if_pos hzero, steps_none, ite_self, List.getElem?_nil, Option.map_none]
        · rw [if_neg hzero, if_neg hzero, ih]
          exact if_congr Nat.succ_lt_succ_iff.symm rfl rfl

end Knows

/-- The chains of a store end at the first header, whose parent no known header stands for. -/
theorem grounded_of_rooted (hk : KeysDistinct known) (h : Knows known i) (hrooted : Rooted o i.store)
    (horigin : ∀ h ∈ known, h.hash.endsWith o.previousBlock = false) : i.Grounded := by
  intro e he hnone
  by_cases heq : e.header = o
  · refine Option.eq_none_iff_forall_ne_some.mpr fun x hx ↦ ?_
    obtain ⟨p, hlookup, rfl⟩ := Option.map_eq_some_iff.mp hx
    obtain ⟨hmem, -, hagrees⟩ := h.lookup_mem hk hlookup
    rw [heq] at hagrees
    have hle : o.previousBlock.length ≤ p.hash.length := by
      rw [Entry.hash, Header.length_hash]
      exact o.previousBlock.length_le
    have hends := (VBlake.agrees_iff_endsWith hle).mp hagrees
    rw [Entry.hash, horigin p.header hmem] at hends
    cases hends
  · obtain ⟨p, -, hget, -⟩ := hrooted.parent e he heq
    rw [hnone] at hget
    cases hget

end Index

namespace Session

/-- A chain consists of the first headers of the walk that looks up one header after the other. -/
theorem chain_follows_lookups {params : NetworkParameters} {calls : List Call} {s : Session}
    (hkeys : KeysDistinct {h | h ∈ calls.flatMap Call.headers})
    (hrun : (start params).run calls = some s)
    (horigin : ∀ o, s.origin? = some o →
      ∀ h ∈ calls.flatMap Call.headers, h.hash.endsWith o.previousBlock = false)
    (hash : VBlake) (count n : Nat) :
    ((s.index.chain hash count)[n]?).map (·.header) =
      if n < count then steps s.index.headerBefore? n (s.index.get hash) else none := by
  have hbacked : Backed {h | h ∈ calls.flatMap Call.headers} s.journal s.index.store :=
    backed_run (backed_start params) (fun h hh ↦ hh) hrun
  have hknows := knows_run hkeys (fun h hh ↦ hh) hrun
  refine hknows.getElem?_chain hkeys (fun e he ↦ ?_) hash count n
  obtain ⟨o, ho, hrooted⟩ := (hbacked.rootedBy hkeys).rooted he
  exact Index.grounded_of_rooted hkeys hknows hrooted (horigin o ho) e he

/-- Two headers are stored, and a third one and a proof for the first one are temporary. -/
def overlaidCalls : List Call :=
  [.add genesis .zero, .add second .zero, .addTemporarily third .zero,
    .proveTemporarily genesis (.sha256 [])]

/-- The chain of the third header takes the first one from the store, where it has no proof. -/
theorem third_follows_lookups : ∃ s, (start .testnet).run overlaidCalls = some s ∧
    s.index.chain third.hash 5 = [thirdEntry, secondEntry, genesisEntry] ∧
    s.index.lookup genesis.hash = some { genesisEntry with proof := .sha256 [] } ∧
    ∀ n, ([third, second, genesis][n]? : Option Header) =
      if n < 5 then steps s.index.headerBefore? n (some third) else none := by
  have hmap : ((start .testnet).run overlaidCalls).map (fun s ↦
      (s.origin?, s.index.chain third.hash 5, s.index.lookup genesis.hash,
        s.index.get third.hash)) =
      some (some genesis, [thirdEntry, secondEntry, genesisEntry],
        some { genesisEntry with proof := .sha256 [] }, some third) := by
    decide +kernel
  obtain ⟨s, hrun, hs⟩ := Option.map_eq_some_iff.mp hmap
  simp only [Prod.mk.injEq] at hs
  obtain ⟨horigin, hchain, hlookup, hthird⟩ := hs
  refine ⟨s, hrun, hchain, hlookup, fun n ↦ ?_⟩
  have hwalk := chain_follows_lookups (by decide +kernel) hrun (fun o ho ↦ by
    rw [horigin, Option.some.injEq] at ho
    subst ho
    decide) third.hash 5 n
  rw [hchain, hthird, ← List.getElem?_map] at hwalk
  exact hwalk

end Session

end EndorsedChain
