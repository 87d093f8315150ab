import EndorsedChain.Proofs.Index.Steady
import EndorsedChain.Proofs.Sample.Openings
import Mathlib.Data.List.Dedup

/-!
# Adding a tree in any order

The headers of a tree of steady chains can be added in one call and in any order, with repetitions.
They are sorted by their heights, so that each header comes after all headers below it on each
branch, and each of them is stored once.
-/

namespace EndorsedChain

open VeriBlock Sample

variable {params : NetworkParameters} {bits : UInt32} {work n : Nat} {g h x : Header}
  {branches : List VeriBlockChain} {b : VeriBlockChain} {hs done rest : List Header} {i j : Index}

/-! ## Trees -/

/-- Headers of steady chains that branch out from one genesis. -/
structure SteadyTree (bits : UInt32) (branches : List VeriBlockChain) (g : Header)
    (hs : List Header) : Prop where
  steady : ∀ b ∈ branches, Steady bits b
  genesis : ∀ b ∈ branches, b.headers[0]? = some g
  mem_iff : ∀ h, h ∈ hs ↔ ∃ b ∈ branches, h ∈ b.headers

/-- The timestamps of the headers do not overflow. -/
def Timely (branches : List VeriBlockChain) : Prop :=
  ∀ b ∈ branches, ∀ n < b.headers.size, genesisTimestamp.toNat + 30 * n < UInt32.size

namespace SteadyTree

variable (htree : SteadyTree bits branches g hs) (htimely : Timely branches)

include htree htimely

theorem regular (hb : b ∈ branches) (hn : b.headers[n]? = some h) : Regular bits b n h :=
  (htree.steady b hb).regular hn (htimely b hb n (Array.getElem?_eq_some_iff.mp hn).1)

/-- Each header is on a branch at its height. -/
theorem exists_branch (hh : h ∈ hs) : ∃ b ∈ branches, b.headers[h.height.toNat]? = some h := by
  obtain ⟨b, hb, hmem⟩ := (htree.mem_iff h).mp hh
  obtain ⟨n, hn⟩ := Array.mem_iff_getElem?.mp hmem
  exact ⟨b, hb, by rw [(htree.regular htimely hb hn).height, hn]⟩

theorem eq_genesis (hh : h ∈ hs) (hheight : h.height.toNat = 0) : h = g := by
  obtain ⟨b, hb, hget⟩ := htree.exists_branch htimely hh
  rw [hheight, htree.genesis b hb] at hget
  exact (Option.some.inj hget).symm

theorem packable (hpackable : ∀ b ∈ branches, Packable (b.headers.size * work)) (hh : h ∈ hs) :
    Packable (steadyEntry 0 work h).work := by
  obtain ⟨b, hb, hget⟩ := htree.exists_branch htimely hh
  exact (hpackable b hb).mono (Nat.mul_le_mul_right work (Array.getElem?_eq_some_iff.mp hget).1)

/-- In the order of their heights, a header comes after the headers below it. -/
theorem hasBelow (hsorted : (done ++ h :: rest).Pairwise fun a b ↦ a.height ≤ b.height)
    (hperm : (done ++ h :: rest).Perm hs) (hb : b ∈ branches) (hn : b.headers[n]? = some h) :
    HasBelow {h | h ∈ hs} bits 0 b n done where
  regular m x _ hx := htree.regular htimely hb hx
  mem_known m x _ hx := (htree.mem_iff x).mpr ⟨b, hb, Array.mem_of_getElem? hx⟩
  present m x _ hlt hx := by
    have hxheight := (htree.regular htimely hb hx).height
    have hheight := (htree.regular htimely hb hn).height
    have hmem : x ∈ done ++ h :: rest :=
      hperm.mem_iff.mpr ((htree.mem_iff x).mpr ⟨b, hb, Array.mem_of_getElem? hx⟩)
    rcases List.mem_append.mp hmem with hx | hx
    · exact hx
    · have hle : h.height ≤ x.height := by
        rcases List.mem_cons.mp hx with rfl | hx
        · exact UInt32.le_refl _
        · exact (List.pairwise_cons.mp (List.pairwise_append.mp hsorted).2.1).1 x hx
      rw [UInt32.le_iff_toNat_le, hheight, hxheight] at hle
      omega
  absent m x hlt := absurd hlt (Nat.not_lt_zero m)

end SteadyTree

/-! ## Adding a tree -/

namespace Filled

variable {known : Set Header} {first : Nat}

theorem head_eq_none_iff (hfilled : Filled known params first work hs i) :
    i.store.head = none ↔ hs = [] := by
  rw [← hfilled.headed.blocks_eq_nil_iff, List.eq_nil_iff_forall_not_mem,
    List.eq_nil_iff_forall_not_mem]
  constructor
  · intro hnone h hh
    exact hnone _ (hfilled.mem hh)
  · intro hnone e he
    exact hnone _ (hfilled.header_mem he)

/-- A repeated header changes nothing. -/
theorem repeated (hfilled : Filled known params first work hs i) (hh : h ∈ hs) :
    Filled known params first work (hs ++ [h]) i where
  params_eq := hfilled.params_eq
  idle := hfilled.idle
  headed := hfilled.headed
  mem_iff e := by
    rw [hfilled.mem_iff]
    have hsame (x : Header) : x ∈ hs ++ [h] ↔ x ∈ hs := by
      rw [List.mem_append, List.mem_singleton]
      exact or_iff_left_of_imp fun heq ↦ heq ▸ hh
    simp only [hsame]

/-- A new header takes one more place. -/
theorem blocks_perm (hi : Filled known params first work hs i)
    (hj : Filled known params first work (hs ++ [h]) j) (hnew : h ∉ hs) :
    j.store.blocks.Perm (i.store.blocks ++ [steadyEntry first work h]) := by
  have hfresh : steadyEntry first work h ∉ i.store.blocks := fun hmem ↦ hnew (hi.header_mem hmem)
  refine (List.perm_ext_iff_of_nodup hj.headed.keyed.nodup_blocks ?_).mpr fun e ↦ ?_
  · exact hi.headed.keyed.nodup_blocks.append (List.nodup_singleton _)
      (List.disjoint_singleton.mpr hfresh)
  · rw [hj.mem_iff, List.mem_append, List.mem_singleton, hi.mem_iff]
    constructor
    · rintro ⟨x, hx, rfl⟩
      rcases List.mem_append.mp hx with hx | hx
      · exact .inl ⟨x, hx, rfl⟩
      · exact .inr (List.mem_singleton.mp hx ▸ rfl)
    · rintro (⟨x, hx, rfl⟩ | rfl)
      · exact ⟨x, List.mem_append_left [h] hx, rfl⟩
      · exact ⟨h, List.mem_append_right hs (List.mem_singleton_self h), rfl⟩

end Filled

namespace SteadyTree

section

variable (htree : SteadyTree bits branches g hs) (htimely : Timely branches)
  (hcanonical : Canonical params bits work) (hkeys : KeysDistinct {h | h ∈ hs})

include htree htimely hcanonical hkeys

/-- The genesis is admitted because there is no head yet, and every other header because the index
has all that is below it on its branch. -/
theorem accept (hfilled : Filled {h | h ∈ hs} params 0 work done i)
    (hsorted : (done ++ h :: rest).Pairwise fun a b ↦ a.height ≤ b.height)
    (hperm : (done ++ h :: rest).Perm hs) (hnew : h ∉ done) :
    ∃ parent?, i.accept i.store.head h .zero = .ok (some ⟨steadyEntry 0 work h, parent?⟩) := by
  have hh : h ∈ hs := hperm.mem_iff.mp (List.mem_append_right done List.mem_cons_self)
  obtain ⟨b, hb, hn⟩ := htree.exists_branch htimely hh
  have hbelow := htree.hasBelow htimely hsorted hperm hb hn
  cases hhead : i.store.head with
  | none =>
    have hnil : done = [] := hfilled.head_eq_none_iff.mp hhead
    have hregular := htree.regular htimely hb hn
    have hheight : h.height.toNat = 0 := by
      by_contra hne
      have hpresent := hbelow.present 0 g (Nat.le_refl 0) (by omega) (htree.genesis b hb)
      rw [hnil] at hpresent
      cases hpresent
    have hwork : h.work = .ok work := by rw [Header.work, hregular.difficulty, hcanonical.decode]
    exact ⟨none, i.accept_first hwork hheight⟩
  | some head =>
    have hpos : 0 < h.height.toNat := by
      by_contra hzero
      have hne : done ≠ [] := fun hnil ↦ by
        rw [hfilled.head_eq_none_iff.mpr hnil] at hhead
        cases hhead
      obtain ⟨x, hx⟩ := List.exists_mem_of_ne_nil done hne
      have hle : x.height ≤ h.height :=
        (List.pairwise_append.mp hsorted).2.2 x hx h List.mem_cons_self
      rw [UInt32.le_iff_toNat_le] at hle
      -- both are the genesis
      have hx' : x = g := htree.eq_genesis htimely
        (hperm.mem_iff.mp (List.mem_append_left _ hx)) (by omega)
      have hh' : h = g := htree.eq_genesis htimely hh (by omega)
      exact hnew (hh'.trans hx'.symm ▸ hx)
    have hsize := (Array.getElem?_eq_some_iff.mp hn).1
    obtain ⟨p, hp⟩ : ∃ p, b.headers[h.height.toNat - 1]? = some p :=
      ⟨_, Array.getElem?_eq_getElem (by omega)⟩
    exact ⟨some p.hash, hfilled.accept_next hkeys hbelow hn hpos hcanonical hnew hp⟩

/-- A header is known already, or it is stored and one change says so. -/
theorem add (hpackable : ∀ b ∈ branches, Packable (b.headers.size * work))
    (hfilled : Filled {h | h ∈ hs} params 0 work done i)
    (hsorted : (done ++ h :: rest).Pairwise fun a b ↦ a.height ≤ b.height)
    (hperm : (done ++ h :: rest).Perm hs) :
    ∃ j changes, i.add h .zero = (j, .ok changes) ∧
      Filled {h | h ∈ hs} params 0 work (done ++ [h]) j ∧
        (j.store.blocks.map some).Perm (i.store.blocks.map some ++ additions changes) := by
  have hh : h ∈ hs := hperm.mem_iff.mp (List.mem_append_right done List.mem_cons_self)
  by_cases hdone : h ∈ done
  · obtain ⟨b, hb, hn⟩ := htree.exists_branch htimely hh
    have hwork : h.work = .ok work := by
      rw [Header.work, (htree.regular htimely hb hn).difficulty, hcanonical.decode]
    obtain ⟨head, hhead⟩ : ∃ head, i.store.head = some head :=
      Option.ne_none_iff_exists'.mp fun hnone ↦
        List.ne_nil_of_mem hdone (hfilled.head_eq_none_iff.mp hnone)
    have hadd : i.addEdits h .zero = (i, .ok []) := by
      rw [Index.addEdits, if_neg (by rw [hfilled.not_speculating]; exact Bool.false_ne_true), hhead,
        hfilled.accept_known hkeys hdone hwork]
    refine ⟨i, [], ?_, hfilled.repeated hdone, ?_⟩
    · rw [Index.add, hadd]
      rfl
    · exact List.Perm.of_eq (List.append_nil _).symm
  · obtain ⟨parent?, haccept⟩ :=
      htree.accept htimely hcanonical hkeys hfilled hsorted hperm hdone
    have hpacked : ∀ x ∈ h :: done, Packable (steadyEntry 0 work x).work := by
      intro x hx
      refine htree.packable htimely hpackable (hperm.mem_iff.mp ?_)
      rcases List.mem_cons.mp hx with rfl | hx
      · exact List.mem_append_right done List.mem_cons_self
      · exact List.mem_append_left _ hx
    obtain ⟨j, changes, hadd, hnext, hadditions, -⟩ := hfilled.add hh haccept hpacked
    refine ⟨j, changes, hadd, hnext, ?_⟩
    rw [hadditions]
    simpa using (hfilled.blocks_perm hnext hdone).map some

/-- By induction on the headers that are left. -/
theorem addEach (hpackable : ∀ b ∈ branches, Packable (b.headers.size * work))
    (hfilled : Filled {h | h ∈ hs} params 0 work done i)
    (hsorted : (done ++ rest).Pairwise fun a b ↦ a.height ≤ b.height)
    (hperm : (done ++ rest).Perm hs) :
    ∃ j changes, i.addEach rest = (j, .ok changes) ∧
      Filled {h | h ∈ hs} params 0 work (done ++ rest) j ∧
        (j.store.blocks.map some).Perm (i.store.blocks.map some ++ additions changes) := by
  induction rest generalizing done i with
  | nil =>
    refine ⟨i, [], rfl, ?_, ?_⟩
    · rwa [List.append_nil]
    · exact List.Perm.of_eq (List.append_nil _).symm
  | cons h rest ih =>
    obtain ⟨j, changes, hadd, hnext, hblocks⟩ :=
      htree.add htimely hcanonical hkeys hpackable hfilled hsorted hperm
    have happend : done ++ h :: rest = (done ++ [h]) ++ rest := by simp
    rw [happend] at hsorted hperm
    obtain ⟨k, more, hrest, hlast, hmore⟩ := ih hnext hsorted hperm
    refine ⟨k, changes ++ more, ?_, ?_, ?_⟩
    · rw [Index.addEach, hadd]
      dsimp only
      rw [hrest]
      rfl
    · rwa [happend]
    · rw [additions_append, ← List.append_assoc]
      exact hmore.trans (hblocks.append_right _)

end

end SteadyTree

/-- All headers of a tree of steady chains are stored by one call, in whatever order they are given,
each of them once and with the work of its branch, and each of them is added by one change. -/
theorem Index.addAll_in_any_order (htree : SteadyTree bits branches g hs)
    (htimely : Timely branches) (hcanonical : Canonical params bits work)
    (hkeys : KeysDistinct {h | h ∈ hs})
    (hpackable : ∀ b ∈ branches, Packable (b.headers.size * work)) :
    ∃ i changes, ({ params } : Index).addAll hs = (i, .ok changes) ∧
      i.store.blocks.Perm (hs.dedup.map fun h ↦ ⟨h, (h.height.toNat + 1) * work, .zero⟩) ∧
      (additions changes).Perm
        (hs.dedup.map fun h ↦ some ⟨h, (h.height.toNat + 1) * work, .zero⟩) := by
  have hperm := List.mergeSort_perm hs fun a b => decide (a.height ≤ b.height)
  have hsorted : (hs.mergeSort fun a b => decide (a.height ≤ b.height)).Pairwise
      fun a b ↦ a.height ≤ b.height := by
    refine (List.pairwise_mergeSort ?_ ?_ hs).imp of_decide_eq_true
    · intro a b c hab hbc
      exact decide_eq_true (UInt32.le_trans (of_decide_eq_true hab) (of_decide_eq_true hbc))
    · intro a b
      rw [Bool.or_eq_true, decide_eq_true_iff, decide_eq_true_iff]
      exact UInt32.le_total a.height b.height
  obtain ⟨i, changes, hadd, hfilled, hblocks⟩ := htree.addEach htimely hcanonical hkeys hpackable
    (Filled.start _ params 0 work) hsorted hperm
  have hstored : i.store.blocks.Perm (hs.dedup.map (steadyEntry 0 work)) := by
    have hinj : Function.Injective (steadyEntry 0 work) := fun a b heq ↦ congrArg Entry.header heq
    refine (List.perm_ext_iff_of_nodup hfilled.headed.keyed.nodup_blocks
      (hs.nodup_dedup.map hinj)).mpr fun e ↦ ?_
    rw [hfilled.mem_iff, List.mem_map]
    simp only [List.nil_append, List.mem_mergeSort, List.mem_dedup, eq_comm]
  refine ⟨i, changes, hadd, hstored, hblocks.symm.trans ?_⟩
  have hmap := hstored.map some
  rw [List.map_map] at hmap
  exact hmap

/-- The second header and its twin are given before their parent, and one of them twice. -/
theorem Index.twins_added_before_genesis :
    SteadyTree defaultDifficulty [regular, forked] genesis [twin, second, genesis, second] ∧
    Timely [regular, forked] ∧ Canonical .testnet defaultDifficulty 100000000 ∧
    KeysDistinct {h | h ∈ [twin, second, genesis, second]} ∧
    (∀ b ∈ [regular, forked], Packable (b.headers.size * 100000000)) ∧
    ∃ i changes, ({ params := .testnet } : Index).addAll [twin, second, genesis, second] =
        (i, .ok changes) ∧
      i.store.blocks.Perm
        [⟨twin, 200000000, .zero⟩, ⟨genesis, 100000000, .zero⟩, ⟨second, 200000000, .zero⟩] ∧
      (additions changes).Perm [some ⟨twin, 200000000, .zero⟩, some ⟨genesis, 100000000, .zero⟩,
        some ⟨second, 200000000, .zero⟩] := by
  have htree : SteadyTree defaultDifficulty [regular, forked] genesis
      [twin, second, genesis, second] := by
    refine ⟨?_, ?_, ?_⟩
    · simp only [List.forall_mem_cons]
      exact ⟨steady_regular, steady_forked, List.forall_mem_nil _⟩
    · decide +kernel
    · intro h
      simp [regular, forked]
      tauto
  have htimely : Timely [regular, forked] := by
    unfold Timely
    decide +kernel
  have hcanonical : Canonical .testnet defaultDifficulty 100000000 :=
    ⟨by decide, by decide, by decide⟩
  have hkeys : KeysDistinct {h | h ∈ [twin, second, genesis, second]} := by decide +kernel
  have hpackable : ∀ b ∈ [regular, forked], Packable (b.headers.size * 100000000) := by
    decide +kernel
  have hdedup : [twin, second, genesis, second].dedup = [twin, genesis, second] := by
    decide +kernel
  have hadded := Index.addAll_in_any_order htree htimely hcanonical hkeys hpackable
  rw [hdedup] at hadded
  exact ⟨htree, htimely, hcanonical, hkeys, hpackable, hadded⟩

end EndorsedChain
