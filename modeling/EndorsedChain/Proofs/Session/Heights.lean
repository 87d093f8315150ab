import EndorsedChain.Proofs.Sample.Leaps
import EndorsedChain.Proofs.Session.Ancestry
import EndorsedChain.Proofs.Session.Known

/-!
# Heights are positions

Where the keystones are, which of them a header goes back to and how keystones are paired in fork
choice is all read off the heights that headers state.  Nothing checks them, so a header at height
20 may come right after one at height 0.  As long as no header on the branch of a stored header does
so, its height is its distance from the first one.
-/

namespace EndorsedChain

open VeriBlock Relation Sample

variable {known : Set Header} {s : Store Entry VBlake} {i : Index} {b p o : Entry} {ref : VBlake}

/-- Among the known headers, `p` is one that `h` refers to as the header before it. -/
def RefersTo (known : Set Header) (h p : Header) : Prop :=
  p ∈ known ∧ h.previousBlock.StandsFor p.hash

/-- On the branch that ends with a header, each header states the height that comes after the one of
the header it refers to.  Headers that are not on it may state what they like. -/
def StatesPositions (known : Set Header) (h : Header) : Prop :=
  ∀ e p, ReflTransGen (RefersTo known) h e → RefersTo known e p →
    e.height.toNat = p.height.toNat + 1

namespace StatesPositions

variable {h p : Header}

theorem of_refersTo (hh : StatesPositions known h) (href : RefersTo known h p) :
    StatesPositions known p := fun e q he ↦ hh e q (.head href he)

/-- It is enough to look at headers that lead to each other. -/
theorem of_closed {l : List Header} (hh : h ∈ l) (hclosed : ∀ e ∈ l, ∀ p ∈ known,
    e.previousBlock.StandsFor p.hash → p ∈ l ∧ e.height.toNat = p.height.toNat + 1) :
    StatesPositions known h := by
  have hmem {e : Header} (he : ReflTransGen (RefersTo known) h e) : e ∈ l := by
    induction he with
    | refl => exact hh
    | tail _ href ih => exact (hclosed _ ih _ href.1 href.2).1
  exact fun e p he href ↦ (hclosed e (hmem he) p href.1 href.2).2

end StatesPositions

theorem Store.Extends.refersTo (hk : KeysDistinct known) (hs : s.Holds known)
    (h : s.Extends b p) : RefersTo known b.header p.header := by
  obtain ⟨hp, hstands⟩ := (Store.get_eq_some_iff hk hs).mp h
  exact ⟨hs.mem_known p hp, hstands⟩

namespace StatesPositions

variable (hk : KeysDistinct known)

include hk

theorem of_extends (h : StatesPositions known b.header) (hs : s.Holds known)
    (hextends : s.Extends b p) : b.height.toNat = p.height.toNat + 1 :=
  h _ _ .refl (hextends.refersTo hk hs)

/-- Temporary headers are no exception. -/
theorem of_lookup (h : StatesPositions known b.header) (hknows : i.Knows known)
    (hp : i.lookup b.header.previousBlock = some p) : b.height.toNat = p.height.toNat + 1 :=
  h _ _ .refl (hknows.lookup_mem hk hp)

/-- Along a walk from parent to parent, heights go down one by one. -/
theorem height_add_one (h : StatesPositions known b.header) (hs : s.Holds known)
    {walk : List Entry} (hhead : walk.head? = some b) (hlast : walk.getLast? = some o)
    (hchain : walk.IsChain s.Extends) : b.height.toNat + 1 = o.height.toNat + walk.length := by
  induction walk generalizing b with
  | nil => cases hhead
  | cons e rest ih =>
    cases hhead
    cases rest with
    | nil =>
      cases hlast
      rfl
    | cons p rest =>
      obtain ⟨hextends, hchain⟩ := List.isChain_cons_cons.mp hchain
      have hheight := h.of_extends hk hs hextends
      have hbelow := ih (h.of_refersTo (hextends.refersTo hk hs)) rfl hlast hchain
      rw [List.length_cons]
      omega

end StatesPositions

namespace Session

/-- If the headers on the branch of a header, among those that were handed in, state the height
after that of the header they refer to, then it comes right after the one before it, whether it is
stored or looked up, and the height of a stored header is that of the first one plus the number of
headers between them. -/
theorem height_is_position {params : NetworkParameters} {calls : List Call} {s : Session}
    (hkeys : KeysDistinct {h | h ∈ calls.flatMap Call.headers})
    (hrun : (start params).run calls = some s) :
    (∀ ref b p, s.index.lookup ref = some b →
      StatesPositions {h | h ∈ calls.flatMap Call.headers} b.header →
        s.index.lookup b.header.previousBlock = some p → b.height.toNat = p.height.toNat + 1) ∧
    ∀ b ∈ s.index.store.blocks,
      StatesPositions {h | h ∈ calls.flatMap Call.headers} b.header →
        (∀ p, s.index.store.Extends b p → b.height.toNat = p.height.toNat + 1) ∧
        ∃ o ∈ s.index.store.blocks, s.origin? = some o.header ∧
          ∃ walk : List Entry, walk.head? = some b ∧ walk.getLast? = some o ∧
            walk.IsChain s.index.store.Extends ∧
              b.height.toNat + 1 = o.height.toNat + walk.length := by
  have hbacked : Backed {h | h ∈ calls.flatMap Call.headers} s.journal s.index.store :=
    backed_run (backed_start params) (fun h hh ↦ hh) hrun
  have hs := hbacked.headed.toHolds
  have hknows := knows_run hkeys (fun h hh ↦ hh) hrun
  refine ⟨fun _ _ _ _ hpositions ↦ hpositions.of_lookup hkeys hknows,
    fun b hb hpositions ↦ ⟨fun p ↦ hpositions.of_extends hkeys hs, ?_⟩⟩
  obtain ⟨_, horigin, hrooted⟩ := (hbacked.rootedBy hkeys).rooted hb
  obtain ⟨o, ho, rfl, -⟩ := hrooted.origin
  obtain ⟨walk, hhead, hlast, hchain⟩ := hrooted.walk hs ho rfl hb
  have hextends : walk.IsChain s.index.store.Extends := hchain.imp fun _ _ ↦ And.left
  exact ⟨o, ho, horigin, walk, hhead, hlast, hextends,
    hpositions.height_add_one hkeys hs hhead hlast hextends⟩

/-- Another header that follows the first one states a height that is far off. -/
def leapingCalls : List Call :=
  [.add genesis .zero, .add second .zero, .add leap .zero, .add third .zero]

/-- The third header is two above the first one, whatever is stated on the other branch. -/
theorem third_is_two_above_genesis : ∃ s, (start .testnet).run leapingCalls = some s ∧
    leapEntry .zero ∈ s.index.store.blocks ∧
    StatesPositions {h | h ∈ leapingCalls.flatMap Call.headers} third ∧
    ¬StatesPositions {h | h ∈ leapingCalls.flatMap Call.headers} leap ∧
    thirdEntry.height.toNat = secondEntry.height.toNat + 1 ∧
    ∃ walk : List Entry, walk.head? = some thirdEntry ∧ walk.getLast? = some genesisEntry ∧
      walk.IsChain s.index.store.Extends ∧ walk.length = 3 := by
  have hmap : ((start .testnet).run leapingCalls).map (fun s ↦ (s.origin?, s.index.store.blocks,
      s.index.store.get third.previousBlock)) = some (some genesis,
        [genesisEntry, secondEntry, leapEntry .zero, thirdEntry], some secondEntry) := by
    decide +kernel
  obtain ⟨s, hrun, hs⟩ := Option.map_eq_some_iff.mp hmap
  simp only [Prod.mk.injEq] at hs
  obtain ⟨horigin, hblocks, hsecond⟩ := hs
  have hmem : thirdEntry ∈ s.index.store.blocks := by rw [hblocks]; decide
  have hkeys : KeysDistinct {h | h ∈ leapingCalls.flatMap Call.headers} := by decide +kernel
  have hclosed : ∀ e ∈ [third, second, genesis], ∀ p ∈ leapingCalls.flatMap Call.headers,
      e.previousBlock.StandsFor p.hash →
        p ∈ [third, second, genesis] ∧ e.height.toNat = p.height.toNat + 1 := by decide +kernel
  have hpositions : StatesPositions {h | h ∈ leapingCalls.flatMap Call.headers} third :=
    .of_closed List.mem_cons_self hclosed
  have hleap : ¬StatesPositions {h | h ∈ leapingCalls.flatMap Call.headers} leap := by
    intro hleap
    have href : genesis ∈ leapingCalls.flatMap Call.headers ∧
        leap.previousBlock.StandsFor genesis.hash := by decide +kernel
    exact absurd (hleap leap genesis .refl href) (by decide)
  obtain ⟨hstored, o, ho, hfirst, walk, hhead, hlast, hchain, hheight⟩ :=
    (height_is_position hkeys hrun).2 thirdEntry hmem hpositions
  obtain rfl : genesisEntry = o := by
    have hgenesis : genesisEntry ∈ s.index.store.blocks := by rw [hblocks]; decide
    have hs := (knows_run hkeys (fun h hh ↦ hh) hrun).store
    exact hs.eq_of_header_eq hgenesis ho (Option.some.inj (horigin.symm.trans hfirst))
  refine ⟨s, hrun, by rw [hblocks]; decide, hpositions, hleap, hstored secondEntry hsecond, walk,
    hhead, hlast, hchain, ?_⟩
  have hheight' : 2 + 1 = 0 + walk.length := hheight
  omega

/-- A header at height 20 is stored right after the header at height 0. -/
theorem leap_skips_heights : ∃ s,
    (start .testnet).run [.add genesis .zero, .add leap .zero] = some s ∧
    KeysDistinct {h | h ∈ [genesis, leap]} ∧
    leapEntry .zero ∈ s.index.store.blocks ∧ genesisEntry ∈ s.index.store.blocks ∧
    s.index.store.get leap.previousBlock = some genesisEntry ∧
    (leapEntry .zero).height.toNat = 20 ∧ genesisEntry.height.toNat = 0 := by
  have hmap : ((start .testnet).run [.add genesis .zero, .add leap .zero]).map (fun s ↦
      (s.index.store.blocks, s.index.store.get leap.previousBlock)) =
        some ([genesisEntry, leapEntry .zero], some genesisEntry) := by decide +kernel
  obtain ⟨s, hrun, hs⟩ := Option.map_eq_some_iff.mp hmap
  obtain ⟨hblocks, hget⟩ := Prod.mk.inj hs
  refine ⟨s, hrun, by decide +kernel, ?_, ?_, hget, rfl, rfl⟩
  · rw [hblocks]
    decide
  · rw [hblocks]
    decide

end Session

end EndorsedChain
