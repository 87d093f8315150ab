import EndorsedChain.Proofs.Fork.Halting
import EndorsedChain.Proofs.Sample.Openings
import EndorsedChain.Proofs.Session.Rooted
import Mathlib.Logic.Relation

/-!
# Whose keystones a fork walk collects

A header names its keystone in a field of its own, and the index asks no more of it than that the
named keystone is known.  Right after a keystone the reference to the previous header decides, so
that the keystone is the parent.  Elsewhere it is an ancestor as long as each header of the branch
goes back to the same keystone as the header before it, whatever the headers of other branches say.
Then all that fork choice collects for a branch belongs to it.  A single header that names a rival
breaks this.
-/

namespace EndorsedChain

open VeriBlock Relation Sample

variable {known : Set Header} {s : Store Entry VBlake} {b e k p : Entry} {o : Header}
  {ref hash : VBlake}

/-- A shorter reference stands for the same header. -/
theorem VBlake.StandsFor.toKeystone (h : ref.StandsFor hash) : ref.toKeystone.StandsFor hash where
  left := (VBlake.storeKey_toKeystone ref).trans h.1
  right := by
    have htrimmed : ref.toKeystone.bytes <:+ ref.bytes := VBlake.bytes_trim_suffix ref 9
    apply VBlake.agrees_iff.mpr
    rcases VBlake.agrees_iff.mp h.2 with hsuffix | hsuffix
    · exact .inl (htrimmed.trans hsuffix)
    · exact List.suffix_or_suffix_of_suffix htrimmed hsuffix

/-! ## Branches -/

namespace Store

/-- The header of `p` comes right before that of `b`. -/
def Extends (s : Store Entry VBlake) (b p : Entry) : Prop :=
  s.get b.header.previousBlock = some p

/-- The second entry is below the first one on its branch. -/
def HasAncestor (s : Store Entry VBlake) : Entry → Entry → Prop := TransGen s.Extends

/-- The second entry is on the branch that ends with the first one. -/
def Along (s : Store Entry VBlake) : Entry → Entry → Prop := ReflTransGen s.Extends

/-- On the branch of an entry, each header goes back to the same keystone as the header before it,
unless that one is the keystone. -/
def InheritsKeystones (s : Store Entry VBlake) (b : Entry) : Prop :=
  ∀ e p, s.Along b e → s.Extends e p → e.header.roundIndex ≠ 1 →
    e.header.previousKeystone = p.header.effectivePreviousKeystone

theorem InheritsKeystones.of_along (h : s.InheritsKeystones b) (he : s.Along b e) :
    s.InheritsKeystones e := fun x y hx ↦ h x y (ReflTransGen.trans he hx)

/-- It is enough to look at entries that lead to each other. -/
theorem InheritsKeystones.of_closed {l : List Entry} (hb : b ∈ l)
    (hclosed : ∀ e ∈ l, ∀ p, s.Extends e p → p ∈ l ∧
      (e.header.roundIndex ≠ 1 → e.header.previousKeystone = p.header.effectivePreviousKeystone)) :
    s.InheritsKeystones b := by
  have hmem {e : Entry} (halong : s.Along b e) : e ∈ l := by
    induction halong with
    | refl => exact hb
    | tail _ hextends ih => exact (hclosed _ ih _ hextends).1
  exact fun e p halong hextends ↦ (hclosed e (hmem halong) p hextends).2

theorem mem_of_along (hs : s.Keyed) (hb : b ∈ s.blocks) (h : s.Along b e) : e ∈ s.blocks := by
  induction h with
  | refl => exact hb
  | tail _ hextends _ => exact get_mem hs hextends

/-- Right after a keystone, the reference to the previous header stands for the keystone. -/
theorem Extends.keystone_eq (hk : KeysDistinct known) (hs : s.Holds known) (h : s.Extends b p)
    (hround : b.header.roundIndex = 1)
    (hkeystone : s.get b.header.effectivePreviousKeystone = some k) : k = p := by
  rw [Header.effectivePreviousKeystone, if_pos hround] at hkeystone
  obtain ⟨hp, hstands⟩ := (get_eq_some_iff hk hs).mp h
  rw [(get_eq_some_iff hk hs).mpr ⟨hp, hstands.toKeystone⟩] at hkeystone
  exact (Option.some.inj hkeystone).symm

end Store

namespace Rooted

variable (hk : KeysDistinct known) (hs : s.Holds known) (h : Rooted o s)
  (horigin : s.get o.effectivePreviousKeystone = none)

include hk hs h horigin

theorem parent_of_keystone (hb : b ∈ s.blocks) (hround : b.header.roundIndex = 1)
    (hkeystone : s.get b.header.effectivePreviousKeystone = some k) : s.Extends b k := by
  have hne : b.header ≠ o := by
    rintro rfl
    rw [horigin] at hkeystone
    cases hkeystone
  obtain ⟨p, -, hextends, -⟩ := h.parent b hb hne
  rw [Store.Extends.keystone_eq hk hs hextends hround hkeystone]
  exact hextends

/-- By induction on the work: the keystone of a header is that of its parent, or the parent. -/
theorem ancestor_of_keystone (hb : b ∈ s.blocks) (hinherits : s.InheritsKeystones b)
    (hkeystone : s.get b.header.effectivePreviousKeystone = some k) : s.HasAncestor b k := by
  induction hwork : b.work using Nat.strong_induction_on generalizing b with
  | _ n ih =>
    by_cases hround : b.header.roundIndex = 1
    · exact .single (h.parent_of_keystone hk hs horigin hb hround hkeystone)
    have hne : b.header ≠ o := by
      rintro rfl
      rw [horigin] at hkeystone
      cases hkeystone
    obtain ⟨p, -, hextends, -⟩ := h.parent b hb hne
    have hlt : p.work < n := hwork ▸ h.work_lt hb hne hextends
    have hinherited := hinherits b p .refl hextends hround
    rw [Header.effectivePreviousKeystone, if_neg hround, hinherited] at hkeystone
    exact .head hextends (ih p.work hlt (Store.get_mem hs.keyed hextends)
      (hinherits.of_along (.single hextends)) hkeystone rfl)

/-- From anywhere on a branch, the next keystone is on it too. -/
theorem along_of_keystone (hb : b ∈ s.blocks) (hinherits : s.InheritsKeystones b)
    (halong : s.Along b e) (hkeystone : s.get e.header.effectivePreviousKeystone = some k) :
    s.Along b k :=
  .trans halong (h.ancestor_of_keystone hk hs horigin (Store.mem_of_along hs.keyed hb halong)
    (hinherits.of_along halong) hkeystone).to_reflTransGen

end Rooted

/-! ## What a fork walk collects -/

namespace ForkWalk

variable {lookup : VBlake → Option Entry} {A B : Entry → Prop} {v w next : ForkWalk} {n : Nat}

/-- What was met on both sides. -/
structure Collects (A B : Entry → Prop) (w : ForkWalk) : Prop where
  incumbent : A w.incumbent
  candidate : B w.candidate
  incumbents : ∀ e ∈ w.incumbents, A e
  candidates : ∀ e ∈ w.candidates, B e

theorem collects_start {head candidate : Entry} (hA : A head) (hB : B candidate) :
    (start head candidate).Collects A B := by
  refine ⟨hA, hB, ?_, ?_⟩
  · intro e he
    simp only [start] at he
    split at he
    · exact List.mem_singleton.mp he ▸ hA
    · cases he
  · intro e he
    simp only [start] at he
    split at he
    · exact List.mem_singleton.mp he ▸ hB
    · cases he

section

variable (hA : ∀ c e, A c → lookup c.header.effectivePreviousKeystone = some e → A e)
  (hB : ∀ c e, B c → lookup c.header.effectivePreviousKeystone = some e → B e)

include hA hB

theorem Collects.step (h : w.Collects A B) (hstep : w.step lookup = some next) :
    next.Collects A B := by
  rw [step_eq] at hstep
  split_ifs at hstep
  · obtain ⟨e, hlookup, rfl⟩ := Option.map_eq_some_iff.mp hstep
    have he := hA w.incumbent e h.incumbent hlookup
    exact ⟨he, h.candidate, List.forall_mem_append.mpr
      ⟨h.incumbents, List.forall_mem_singleton.mpr he⟩, h.candidates⟩
  · obtain ⟨e, hlookup, rfl⟩ := Option.map_eq_some_iff.mp hstep
    have he := hB w.candidate e h.candidate hlookup
    exact ⟨h.incumbent, he, h.incumbents, List.forall_mem_append.mpr
      ⟨h.candidates, List.forall_mem_singleton.mpr he⟩⟩
  · obtain ⟨d, hlookup, hstep⟩ := Option.bind_eq_some_iff.mp hstep
    obtain ⟨e, hlookup', rfl⟩ := Option.map_eq_some_iff.mp hstep
    have hd := hA w.incumbent d h.incumbent hlookup
    have he := hB w.candidate e h.candidate hlookup'
    exact ⟨hd, he,
      List.forall_mem_append.mpr ⟨h.incumbents, List.forall_mem_singleton.mpr hd⟩,
      List.forall_mem_append.mpr ⟨h.candidates, List.forall_mem_singleton.mpr he⟩⟩

theorem Collects.run (h : w.Collects A B) (hrun : ForkWalk.run lookup n w = .met v) :
    v.Collects A B :=
  (run_invariant (P := Collects A B) (fun h hstep ↦ h.step hA hB hstep) h hrun).1

end

end ForkWalk

/-! ## Sessions -/

namespace Session

/-- The keystone of a stored header is an ancestor of it if the headers of its branch inherit their
keystones, and right after a keystone in any case; all that fork choice then collects for a branch
is on it.  The first header that was added must not name a stored header for its keystone. -/
theorem keystone_is_ancestor {params : NetworkParameters} {calls : List Call} {s : Session}
    (hkeys : KeysDistinct {h | h ∈ calls.flatMap Call.headers})
    (hrun : (start params).run calls = some s)
    (horigin : ∀ o, s.origin? = some o → s.index.store.get o.effectivePreviousKeystone = none) :
    (∀ b ∈ s.index.store.blocks, ∀ k,
      s.index.store.get b.header.effectivePreviousKeystone = some k →
        (b.header.roundIndex = 1 → s.index.store.Extends b k) ∧
        (s.index.store.InheritsKeystones b → s.index.store.HasAncestor b k)) ∧
      (s.index.isSpeculating = false →
        ∀ head ∈ s.index.store.blocks, ∀ candidate ∈ s.index.store.blocks,
          s.index.store.InheritsKeystones head → s.index.store.InheritsKeystones candidate →
            ∀ n walk, ForkWalk.run s.index.lookup n (.start head candidate) = .met walk →
              (∀ e ∈ walk.incumbents, s.index.store.Along head e) ∧
              ∀ e ∈ walk.candidates, s.index.store.Along candidate e) := by
  have hbacked : Backed {h | h ∈ calls.flatMap Call.headers} s.journal s.index.store :=
    backed_run (backed_start params) (fun h hh ↦ hh) hrun
  have hs := hbacked.headed.toHolds
  constructor
  · intro b hb k hkeystone
    obtain ⟨o, ho, hrooted⟩ := (hbacked.rootedBy hkeys).rooted hb
    exact ⟨fun hround ↦ hrooted.parent_of_keystone hkeys hs (horigin o ho) hb hround hkeystone,
      fun hinherits ↦ hrooted.ancestor_of_keystone hkeys hs (horigin o ho) hb hinherits hkeystone⟩
  · intro hidle head hhead candidate hcandidate hinherits hinherits' n walk hmet
    obtain ⟨o, ho, hrooted⟩ := (hbacked.rootedBy hkeys).rooted hhead
    have hlookup : s.index.lookup = s.index.store.get := funext (Index.lookup_of_idle hidle)
    rw [hlookup] at hmet
    have hstart : (ForkWalk.start head candidate).Collects (s.index.store.Along head)
        (s.index.store.Along candidate) := ForkWalk.collects_start .refl .refl
    have hcollects := hstart.run
      (fun _ _ ↦ hrooted.along_of_keystone hkeys hs (horigin o ho) hhead hinherits)
      (fun _ _ ↦ hrooted.along_of_keystone hkeys hs (horigin o ho) hcandidate hinherits') hmet
    exact ⟨hcollects.incumbents, hcollects.candidates⟩

/-! ## A header that names the rival of its parent -/

def disputedCalls : List Call :=
  [.add genesis .zero, .add second .zero, .add rival .zero, .add third .zero, .add impostor .zero]

def genesisEntry : Entry := ⟨genesis, 100000000, .zero⟩

def secondEntry : Entry := ⟨second, 200000000, .zero⟩

def thirdEntry : Entry := ⟨third, 300000000, .zero⟩

def impostorEntry : Entry := ⟨impostor, 300000000, .zero⟩

def rivalEntry : Entry := ⟨rival, 25700000000, .zero⟩

/-- All five headers are stored, and what they refer to is found. -/
theorem exists_disputed : ∃ s, (start .testnet).run disputedCalls = some s ∧
    s.origin? = some genesis ∧
    s.index.store.blocks = [genesisEntry, secondEntry, rivalEntry, thirdEntry, impostorEntry] ∧
    s.index.store.get genesis.previousBlock = none ∧
    s.index.store.get second.previousBlock = some genesisEntry ∧
    s.index.store.get third.previousBlock = some secondEntry ∧
    s.index.store.get genesis.effectivePreviousKeystone = none ∧
    s.index.store.get third.effectivePreviousKeystone = some genesisEntry ∧
    s.index.store.get impostor.effectivePreviousKeystone = some rivalEntry := by
  have hmap : ((start .testnet).run disputedCalls).map (fun s ↦
      (s.origin?, s.index.store.blocks,
        [genesis, second, third].map fun h ↦ s.index.store.get h.previousBlock,
        [genesis, third, impostor].map fun h ↦ s.index.store.get h.effectivePreviousKeystone)) =
      some (some genesis, [genesisEntry, secondEntry, rivalEntry, thirdEntry, impostorEntry],
        [none, some genesisEntry, some secondEntry],
        [none, some genesisEntry, some rivalEntry]) := by
    decide +kernel
  obtain ⟨s, hrun, hs⟩ := Option.map_eq_some_iff.mp hmap
  simp only [Prod.mk.injEq, List.map_cons, List.map_nil, List.cons.injEq, and_true, and_assoc] at hs
  exact ⟨s, hrun, hs⟩

/-- The keystone of the third header is its ancestor, whatever its competitor says. -/
theorem genesis_is_ancestor_of_third : ∃ s, (start .testnet).run disputedCalls = some s ∧
    thirdEntry ∈ s.index.store.blocks ∧ impostorEntry ∈ s.index.store.blocks ∧
    s.index.store.get third.effectivePreviousKeystone = some genesisEntry ∧
    s.index.store.InheritsKeystones thirdEntry ∧
    s.index.store.HasAncestor thirdEntry genesisEntry := by
  obtain ⟨s, hrun, horigin, hblocks, hgenesis, hsecond, hthird, hkeystone, hthirdKeystone, -⟩ :=
    exists_disputed
  have hmem : thirdEntry ∈ s.index.store.blocks := by rw [hblocks]; decide
  have himpostor : impostorEntry ∈ s.index.store.blocks := by rw [hblocks]; decide
  have hinherits : s.index.store.InheritsKeystones thirdEntry := by
    apply Store.InheritsKeystones.of_closed (l := [thirdEntry, secondEntry, genesisEntry])
      List.mem_cons_self
    intro e he p hextends
    simp only [List.mem_cons, List.not_mem_nil, or_false] at he
    rcases he with rfl | rfl | rfl
    · cases hthird.symm.trans hextends
      decide
    · cases hsecond.symm.trans hextends
      decide
    · cases hgenesis.symm.trans hextends
  have hancestor := (keystone_is_ancestor (by decide +kernel) hrun fun o ho ↦ by
    rw [horigin, Option.some.injEq] at ho
    exact ho ▸ hkeystone).1 thirdEntry hmem genesisEntry hthirdKeystone
  exact ⟨s, hrun, hmem, himpostor, hthirdKeystone, hinherits, hancestor.2 hinherits⟩

/-- The keystone of the impostor is known, but it is not on the branch of the impostor. -/
theorem rival_is_no_ancestor_of_impostor : ∃ s, (start .testnet).run disputedCalls = some s ∧
    KeysDistinct {h | h ∈ disputedCalls.flatMap Call.headers} ∧
    impostorEntry ∈ s.index.store.blocks ∧ rivalEntry ∈ s.index.store.blocks ∧
    s.index.store.get impostor.effectivePreviousKeystone = some rivalEntry ∧
    ¬s.index.store.HasAncestor impostorEntry rivalEntry := by
  obtain ⟨s, hrun, -, hblocks, hgenesis, hsecond, himpostor, -, -, hkeystone⟩ := exists_disputed
  refine ⟨s, hrun, by decide +kernel, by rw [hblocks]; decide, by rw [hblocks]; decide, hkeystone,
    fun hancestor ↦ ?_⟩
  have hancestors : ∀ e, s.index.store.HasAncestor impostorEntry e →
      e = secondEntry ∨ e = genesisEntry := by
    intro e he
    induction he with
    | single hextends =>
      -- the impostor has the parent of the third header
      cases himpostor.symm.trans hextends
      exact .inl rfl
    | tail _ hextends ih =>
      rcases ih with rfl | rfl
      · cases hsecond.symm.trans hextends
        exact .inr rfl
      · cases hgenesis.symm.trans hextends
  rcases hancestors rivalEntry hancestor with heq | heq
  · exact absurd heq (by decide)
  · exact absurd heq (by decide)

end Session

end EndorsedChain
