import EndorsedChain.Proofs.Fork.Descent
import EndorsedChain.Proofs.Fork.Scoring
import EndorsedChain.Proofs.Sample.Branches
import EndorsedChain.Proofs.Session.Known
import Mathlib.Tactic.Ring

/-!
# Fork choice between branches

Two branches that were grown from one first header are compared while an index knows all their
headers.  The cursors of fork choice then meet at a common keystone, and the scores of the
keystones from there on decide, unless exactly one of both headers is in the first period: above
the first header and below the keystone after it.  Then the walk misses the first header and gives
up, and the candidate can only be preferred for its work.
-/

namespace EndorsedChain

open VeriBlock Sample

/-- The keystones of a chain up to a height, from the one with the number `m` on. -/
def Sample.VeriBlockChain.keystones (c : VeriBlockChain) (m height : Nat) : List Header :=
  (List.range' m (height / keystoneInterval + 1 - m)).filterMap
    fun p ↦ c.headers[keystoneInterval * p]?

namespace Index

/-- A grown chain that is known to an index, and an entry of its header at height `x`. -/
structure OnBranch (i : Index) (c : VeriBlockChain) (e : Entry) (x : Nat) : Prop where
  grown : Grown c
  /-- Heights have four bytes. -/
  size_le : c.headers.size ≤ UInt32.size
  known : ∀ h ∈ c.headers, i.get h.hash = some h
  header : c.headers[x]? = some e.header

/-- The way down from an entry of a chain, over the keystones of that chain. -/
structure WayDown (i : Index) (c : VeriBlockChain) (e : Entry) (x : Nat) (entry : Nat → Entry) :
    Prop extends Descent i.lookup entry (x / 20) ((x + 19) / 20) where
  tip_eq : entry ((x + 19) / 20) = e
  header : ∀ p ≤ x / 20, c.headers[20 * p]? = some (entry p).header

variable {known : Set Header} {i : Index} {b c : VeriBlockChain} {e head candidate : Entry}
  {x y m : Nat}

namespace OnBranch

theorem lt_size (h : i.OnBranch c e x) : x < c.headers.size :=
  (Array.getElem?_eq_some_iff.mp h.header).1

theorem placed (h : i.OnBranch c e x) {n : Nat} {hd : Header} (hn : c.headers[n]? = some hd) :
    Placed c n hd := h.grown.placed h.size_le hn

theorem mem (hk : KeysDistinct known) (hknows : Knows known i) (h : i.OnBranch c e x) {n : Nat}
    {hd : Header} (hn : c.headers[n]? = some hd) : hd ∈ known :=
  hknows.mem_of_get hk (h.known hd (Array.mem_of_getElem? hn))

/-- The headers of a chain are different ones, so that all of them count. -/
theorem size_le_knownCount (hknows : Knows known i) (h : i.OnBranch c e x) :
    c.headers.size ≤ i.knownCount := by
  have hnodup : c.headers.toList.Nodup := by
    apply List.pairwise_iff_getElem.mpr
    intro m n hm hn hlt heq
    have hplaced := h.placed (n := m) (Array.getElem?_eq_getElem (by simpa using hm))
    have hplaced' := h.placed (n := n) (Array.getElem?_eq_getElem (by simpa using hn))
    have hheight := hplaced.height
    have hheight' := hplaced'.height
    simp only [Array.getElem_toList] at heq
    rw [heq] at hheight
    omega
  exact hknows.length_le_knownCount hnodup fun hd hmem ↦ h.known hd (Array.mem_toList_iff.mp hmem)

/-- The keystones below a header are found, each one by the reference to it. -/
theorem exists_keystone (hk : KeysDistinct known) (hknows : Knows known i)
    (h : i.OnBranch c e x) {n : Nat} (hn : n ≤ x) : ∃ d, c.headers[n]? = some d.header ∧
      i.lookup d.hash.toKeystone = some d := by
  have hlt : n < c.headers.size := Nat.lt_of_le_of_lt hn h.lt_size
  obtain ⟨d, hlookup, hheader⟩ := hknows.get_keystone hk (h.known _ (Array.getElem_mem hlt))
  refine ⟨d, ?_, ?_⟩
  · rw [hheader, Array.getElem?_eq_getElem hlt]
  · rw [Entry.hash, hheader, hlookup]

theorem exists_wayDown (hk : KeysDistinct known) (hknows : Knows known i)
    (h : i.OnBranch c e x) : ∃ entry, i.WayDown c e x entry := by
  have hexists : ∀ p, ∃ d, c.headers[min (20 * p) x]? = some d.header ∧
      (p = (x + 19) / 20 → d = e) ∧
      (p < (x + 19) / 20 → i.lookup d.hash.toKeystone = some d) := by
    intro p
    by_cases hlt : p < (x + 19) / 20
    · obtain ⟨d, hd, hlookup⟩ := h.exists_keystone hk hknows (Nat.min_le_right (20 * p) x)
      exact ⟨d, hd, fun heq ↦ absurd heq (Nat.ne_of_lt hlt), fun _ ↦ hlookup⟩
    · rw [Nat.min_eq_right (by omega)]
      exact ⟨e, h.header, fun _ ↦ rfl, fun hlt' ↦ absurd hlt' hlt⟩
  choose entry hheader htip hlookup using hexists
  have hplaced (p : Nat) : Placed c (min (20 * p) x) (entry p).header := h.placed (hheader p)
  refine ⟨entry, ⟨⟨by omega, ?_, ?_, ?_⟩, htip _ rfl, ?_⟩⟩
  · intro p hp
    exact (hplaced p).height.trans (by omega)
  · intro htop
    have hheight : (entry ((x + 19) / 20)).height.toNat = min (20 * ((x + 19) / 20)) x :=
      (hplaced _).height
    omega
  · intro p hp
    obtain ⟨keystone, hkeystone, heq⟩ := (hplaced (p + 1)).next (by omega)
    have hbelow : keystoneBelow (min (20 * (p + 1)) x) = min (20 * p) x := by
      unfold keystoneBelow keystoneInterval
      omega
    rw [hbelow, hheader p, Option.some.injEq] at hkeystone
    rw [heq, ← hkeystone]
    exact hlookup p hp
  · intro p hp
    rw [← hheader p, Nat.min_eq_left (by omega)]

end OnBranch

/-! ## The keystones that are compared -/

namespace WayDown

variable {a a' : Nat → Entry}

theorem mem (hk : KeysDistinct known) (hknows : Knows known i) (h : i.WayDown c e x a)
    (hc : i.OnBranch c e x) {p : Nat} (hp : p ≤ (x + 19) / 20) : (a p).header ∈ known := by
  by_cases hle : p ≤ x / 20
  · exact hc.mem hk hknows (h.header p hle)
  · obtain rfl : p = (x + 19) / 20 := by omega
    rw [h.tip_eq]
    exact hc.mem hk hknows hc.header

theorem byHeight_visited (h : i.WayDown c e x a) :
    byHeight (visited a (x / 20) m) = (List.range' m (x / 20 + 1 - m)).map a := by
  refine byHeight_eq_of_perm (List.reverse_perm _) (List.pairwise_map.mpr ?_)
  apply (List.pairwise_lt_range' (s := m) (n := x / 20 + 1 - m)).imp_of_mem
  intro p q hp hq hlt
  rw [List.mem_range'_1] at hp hq
  rw [UInt32.lt_iff_toNat_lt, h.keystone _ (by omega), h.keystone _ (by omega)]
  omega

theorem map_header (h : i.WayDown c e x a) :
    ((List.range' m (x / 20 + 1 - m)).map a).map (·.header) = c.keystones m x := by
  rw [List.map_map, VeriBlockChain.keystones, ← List.filterMap_eq_map]
  apply List.filterMap_congr
  intro p hp
  rw [List.mem_range'_1] at hp
  exact (h.header p (by omega)).symm

theorem visited_start (h : i.WayDown c e x a) :
    visited a (x / 20) ((x + 19) / 20) = if e.header.isKeystone then [e] else [] := by
  have hmod := h.height_mod_eq_zero_iff (Nat.le_refl _)
  have hkeystone : e.header.isKeystone = true ↔ (x + 19) / 20 ≤ x / 20 := by
    rw [← hmod, h.tip_eq, Header.isKeystone, beq_iff_eq]
    rfl
  unfold visited
  by_cases hle : (x + 19) / 20 ≤ x / 20
  · rw [if_pos (hkeystone.mpr hle), show x / 20 + 1 - (x + 19) / 20 = 1 by omega,
      List.range'_one, List.map_singleton, List.reverse_singleton, h.tip_eq]
  · rw [if_neg (mt hkeystone.mp hle), show x / 20 + 1 - (x + 19) / 20 = 0 by omega]
    rfl

theorem start_eq_between (h : i.WayDown b head x a) (h' : i.WayDown c candidate y a') :
    ForkWalk.start head candidate =
      ForkWalk.between a a' (x / 20) (y / 20) ((x + 19) / 20) ((y + 19) / 20) := by
  rw [ForkWalk.between, h.visited_start, h'.visited_start, h.tip_eq, h'.tip_eq]
  rfl

/-- Ways down from two headers that share the first header. -/
theorem descents (hk : KeysDistinct known) (hknows : Knows known i) (hb : i.OnBranch b head x)
    (hc : i.OnBranch c candidate y) (hfirst : b.headers[0]? = c.headers[0]?)
    (h : i.WayDown b head x a) (h' : i.WayDown c candidate y a') :
    ForkWalk.Descents i.lookup a a' (x / 20) (y / 20) ((x + 19) / 20) ((y + 19) / 20) where
  left := h.toDescent
  right := h'.toDescent
  header_eq p hp q hq heq :=
    hk (h.mem hk hknows hb hp) (h'.mem hk hknows hc hq) (congrArg VBlake.storeKey heq)
  genesis := by
    have hheader := h.header 0 (Nat.zero_le _)
    rw [Nat.mul_zero, hfirst, ← Nat.mul_zero 20, h'.header 0 (Nat.zero_le _)] at hheader
    exact congrArg Header.hash (Option.some.inj hheader).symm

end WayDown

/-! ## How the walk comes out -/

/-- Whether a height is above the first keystone and below the second one. -/
def InFirstPeriod (height : Nat) : Prop := 0 < height ∧ height < keystoneInterval

instance (height : Nat) : Decidable (InFirstPeriod height) :=
  inferInstanceAs (Decidable (_ ∧ _))

/-- The walk has steps to spare. -/
theorem le_forkSteps (hknows : Knows known i) (hb : i.OnBranch b head x)
    (hc : i.OnBranch c candidate y) : (x + 19) / 20 + (y + 19) / 20 + 1 ≤ i.forkSteps := by
  have hx := hb.lt_size
  have hy := hc.lt_size
  have hxcount := hb.size_le_knownCount hknows
  have hycount := hc.size_le_knownCount hknows
  have hsquare : i.forkSteps = i.knownCount * i.knownCount + 2 * i.knownCount + 1 := by
    unfold forkSteps
    ring
  omega

section TwoBranches

variable (hk : KeysDistinct known) (hknows : Knows known i) (hb : i.OnBranch b head x)
  (hc : i.OnBranch c candidate y) (hfirst : b.headers[0]? = c.headers[0]?)
  (hother : head.header ≠ candidate.header)

include hk hknows hb hc hfirst hother

theorem exists_descents : ∃ a a', i.WayDown b head x a ∧ i.WayDown c candidate y a' ∧
    ForkWalk.Descents i.lookup a a' (x / 20) (y / 20) ((x + 19) / 20) ((y + 19) / 20) ∧
    (a ((x + 19) / 20)).hash ≠ (a' ((y + 19) / 20)).hash := by
  obtain ⟨a, ha⟩ := hb.exists_wayDown hk hknows
  obtain ⟨a', ha'⟩ := hc.exists_wayDown hk hknows
  refine ⟨a, a', ha, ha', ha.descents hk hknows hb hc hfirst ha', fun heq ↦ hother ?_⟩
  rw [ha.tip_eq, ha'.tip_eq] at heq
  exact hk (hb.mem hk hknows hb.header) (hc.mem hk hknows hc.header) (congrArg VBlake.storeKey heq)

theorem run_met (hperiod : InFirstPeriod x ↔ InFirstPeriod y) :
    ∃ walk m, ForkWalk.run i.lookup i.forkSteps (.start head candidate) = .met walk ∧
      20 * m ≤ x ∧ 20 * m ≤ y ∧ b.headers[20 * m]? = some walk.incumbent.header ∧
      c.headers[20 * m]? = some walk.incumbent.header ∧
      (byHeight walk.incumbents).map (·.header) = b.keystones m x ∧
      (byHeight walk.candidates).map (·.header) = c.keystones m y := by
  obtain ⟨a, a', ha, ha', hdescents, hne⟩ := exists_descents hk hknows hb hc hfirst hother
  unfold InFirstPeriod keystoneInterval at hperiod
  obtain ⟨m, hm, hm', hhash, hends⟩ := hdescents.meet hne (by omega)
  have hsteps := le_forkSteps hknows hb hc
  refine ⟨ForkWalk.between a a' (x / 20) (y / 20) m m, m, ?_, by omega, by omega,
    ha.header m hm, ?_, ?_, ?_⟩
  · rw [ha.start_eq_between ha']
    exact hends _ (by omega)
  · rw [ha'.header m hm']
    exact congrArg some (hdescents.header_eq m (by omega) m (by omega) hhash).symm
  · exact ha.byHeight_visited.symm ▸ ha.map_header
  · exact ha'.byHeight_visited.symm ▸ ha'.map_header

theorem run_lost (hperiod : ¬(InFirstPeriod x ↔ InFirstPeriod y))
    (hzero : i.lookup VBlake.zero.toKeystone = none) :
    ForkWalk.run i.lookup i.forkSteps (.start head candidate) = .lost := by
  obtain ⟨a, a', ha, ha', hdescents, hne⟩ := exists_descents hk hknows hb hc hfirst hother
  have hbottom : i.lookup (a 0).header.effectivePreviousKeystone = none := by
    rw [(hb.placed (ha.header 0 (Nat.zero_le _))).first rfl, hzero]
  have hbottom' : i.lookup (a' 0).header.effectivePreviousKeystone = none := by
    rw [(hc.placed (ha'.header 0 (Nat.zero_le _))).first rfl, hzero]
  have hsteps := le_forkSteps hknows hb hc
  rw [ha.start_eq_between ha']
  unfold InFirstPeriod keystoneInterval at hperiod
  by_cases hx : 0 < x ∧ x < 20
  · exact hdescents.lost hne hbottom' (by omega) (by omega) _ (by omega)
  · -- the candidate's cursor drives the other one below the first header
    exact (hdescents.symm.lost hne.symm hbottom (by omega) (by omega)).swap _ (by omega)

end TwoBranches

end Index

namespace Session

open Index

/-- On two branches of a tree, the cursors of fork choice meet at a common keystone, and the
candidate is preferred if it has more work above the same keystone or if its keystones score more.
If exactly one of both headers is in the first period, the walk gives up, and only more work
counts. -/
theorem prefers_on_branches {params : NetworkParameters} {calls : List Call} {s : Session}
    {b c : VeriBlockChain} {head candidate : Entry} {x y : Nat}
    (hkeys : KeysDistinct {h | h ∈ calls.flatMap Call.headers})
    (hrun : (start params).run calls = some s) (hhead : s.index.OnBranch b head x)
    (hcandidate : s.index.OnBranch c candidate y) (hfirst : b.headers[0]? = c.headers[0]?)
    (hother : head.header ≠ candidate.header) :
    ((InFirstPeriod x ↔ InFirstPeriod y) → ∃ walk m,
      ForkWalk.run s.index.lookup s.index.forkSteps (.start head candidate) = .met walk ∧
        20 * m ≤ x ∧ 20 * m ≤ y ∧ b.headers[20 * m]? = some walk.incumbent.header ∧
        c.headers[20 * m]? = some walk.incumbent.header ∧
        (byHeight walk.incumbents).map (·.header) = b.keystones m x ∧
        (byHeight walk.candidates).map (·.header) = c.keystones m y ∧
        (s.index.prefers head candidate = true ↔ Outworks candidate head ∨
          s.index.score (byHeight walk.incumbents) (byHeight walk.candidates) <
            s.index.score (byHeight walk.candidates) (byHeight walk.incumbents))) ∧
      (¬(InFirstPeriod x ↔ InFirstPeriod y) → s.index.lookup VBlake.zero.toKeystone = none →
        ForkWalk.run s.index.lookup s.index.forkSteps (.start head candidate) = .lost ∧
          (s.index.prefers head candidate = true ↔ Outworks candidate head)) := by
  have hknows := knows_run hkeys (fun h hh ↦ hh) hrun
  constructor
  · intro hperiod
    obtain ⟨walk, m, hmet, hm, hm', hb, hc, hincumbents, hcandidates⟩ :=
      run_met hkeys hknows hhead hcandidate hfirst hother hperiod
    refine ⟨walk, m, hmet, hm, hm', hb, hc, hincumbents, hcandidates, ?_⟩
    rw [prefers_eq_true_iff, hmet]
    apply or_congr_right
    constructor
    · rintro ⟨_, hwalk, hscore⟩
      cases hwalk
      exact hscore
    · intro hscore
      exact ⟨walk, rfl, hscore⟩
  · intro hperiod hzero
    have hlost := run_lost hkeys hknows hhead hcandidate hfirst hother hperiod hzero
    refine ⟨hlost, ?_⟩
    rw [prefers_eq_true_iff, hlost]
    apply or_iff_left
    rintro ⟨_, hwalk, -⟩
    cases hwalk

def openingCalls : List Call := [.add genesis .zero, .add second .zero, .add rival .zero]

/-- A second header is preferred for its work to another one, which the first header is not. -/
theorem rival_preferred_to_second : ∃ s walk, (start .testnet).run openingCalls = some s ∧
    ForkWalk.run s.index.lookup s.index.forkSteps
      (.start ⟨second, 200000000, .zero⟩ ⟨rival, 25700000000, .zero⟩) = .met walk ∧
    (byHeight walk.candidates).map (·.header) = [genesis] ∧
    s.index.prefers ⟨second, 200000000, .zero⟩ ⟨rival, 25700000000, .zero⟩ = true ∧
    s.index.prefers ⟨second, 200000000, .zero⟩ ⟨genesis, 100000000, .zero⟩ = false := by
  have hmap : ((start .testnet).run openingCalls).map
      (fun s ↦ (s.index.get genesis.hash, s.index.get second.hash, s.index.get rival.hash,
        s.index.lookup VBlake.zero.toKeystone)) =
          some (some genesis, some second, some rival, none) := by decide +kernel
  obtain ⟨s, hrun, hs⟩ := Option.map_eq_some_iff.mp hmap
  simp only [Prod.mk.injEq] at hs
  obtain ⟨hgenesis, hsecond, hrival, hzero⟩ := hs
  have hregular {x : Nat} {e : Entry} (hx : regular.headers[x]? = some e.header) :
      s.index.OnBranch regular e x := by
    refine ⟨grown_regular, by decide, ?_, hx⟩
    intro h hh
    obtain rfl | rfl : h = genesis ∨ h = second := by simpa [regular] using hh
    · exact hgenesis
    · exact hsecond
  have hcompeting : s.index.OnBranch competing ⟨rival, 25700000000, .zero⟩ 1 := by
    refine ⟨grown_competing, by decide, ?_, rfl⟩
    intro h hh
    obtain rfl | rfl : h = genesis ∨ h = rival := by simpa [competing] using hh
    · exact hgenesis
    · exact hrival
  have hkeys : KeysDistinct {h | h ∈ openingCalls.flatMap Call.headers} := by decide +kernel
  have hsecond : s.index.OnBranch regular ⟨second, 200000000, .zero⟩ 1 := hregular rfl
  have hgenesis : s.index.OnBranch regular ⟨genesis, 100000000, .zero⟩ 0 := hregular rfl
  obtain ⟨hmet, -⟩ :=
    prefers_on_branches hkeys hrun hsecond hcompeting rfl (by decide +kernel)
  obtain ⟨-, hlost⟩ :=
    prefers_on_branches hkeys hrun hsecond hgenesis rfl (by decide +kernel)
  obtain ⟨walk, m, hwalk, hm, -, -, -, -, hcandidates, hprefers⟩ := hmet Iff.rfl
  obtain rfl : m = 0 := by omega
  refine ⟨s, walk, hrun, hwalk, hcandidates, hprefers.mpr (.inl ⟨rfl, by decide⟩), ?_⟩
  rw [← Bool.not_eq_true, (hlost (by decide) hzero).2]
  rintro ⟨-, hwork⟩
  exact absurd hwork (by decide)

/-- The first header is known, but the walk from the second one down to it misses it. -/
theorem walk_misses_genesis : ∃ s, (start .testnet).run openingCalls = some s ∧
    s.index.get genesis.hash = some genesis ∧ s.index.get second.hash = some second ∧
    second.effectivePreviousKeystone.agrees genesis.hash = true ∧
    ForkWalk.run s.index.lookup s.index.forkSteps
      (.start ⟨second, 200000000, .zero⟩ ⟨genesis, 100000000, .zero⟩) = .lost := by
  have hmap : ((start .testnet).run openingCalls).map
      (fun s ↦ (s.index.get genesis.hash, s.index.get second.hash,
        ForkWalk.run s.index.lookup s.index.forkSteps
          (.start ⟨second, 200000000, .zero⟩ ⟨genesis, 100000000, .zero⟩))) =
            some (some genesis, some second, .lost) := by decide +kernel
  obtain ⟨s, hrun, hs⟩ := Option.map_eq_some_iff.mp hmap
  simp only [Prod.mk.injEq] at hs
  exact ⟨s, hrun, hs.1, hs.2.1, by decide, hs.2.2⟩

end Session

end EndorsedChain
