import EndorsedChain.Proofs.Hash.Agreement
import EndorsedChain.Sample.VeriBlockChain

/-!
# Branches of sample chains

However a sample chain was grown and forked, a header refers to the one right before it and to the
last keystone strictly below it, and the first header to none.
-/

namespace EndorsedChain.Sample

open VeriBlock

/-- The chains that can be grown from nothing, at any difficulty, with forks. -/
inductive Grown : VeriBlockChain → Prop
  | empty (c : VeriBlockChain) (hempty : c.headers = #[]) : Grown c
  | grow {c d : VeriBlockChain} {timestamp : UInt32} (hc : Grown c)
    (hgrow : c.growAt? timestamp = some d) : Grown d
  | difficulty {c : VeriBlockChain} (hc : Grown c) (difficulty : UInt32) :
    Grown { c with difficulty }
  | fork {c : VeriBlockChain} (hc : Grown c) (salt : UInt32) : Grown (c.fork salt)

/-- The height of the last keystone below a header. -/
def keystoneBelow (height : Nat) : Nat := (height - 1) / keystoneInterval * keystoneInterval

/-- What a header on a chain says about its height and the keystone below it. -/
structure Placed (c : VeriBlockChain) (n : Nat) (h : Header) : Prop where
  height : h.height.toNat = n
  first : n = 0 → h.effectivePreviousKeystone = VBlake.zero.toKeystone
  next : n ≠ 0 → ∃ keystone, c.headers[keystoneBelow n]? = some keystone ∧
    h.effectivePreviousKeystone = keystone.hash.toKeystone

theorem growAt?_eq_some {c d : VeriBlockChain} {timestamp : UInt32}
    (h : c.growAt? timestamp = some d) :
    ∃ header, (c.nextDraft timestamp).seal = .ok header ∧ d.headers = c.headers.push header ∧
      d.spacing = c.spacing ∧ d.difficulty = c.difficulty := by
  unfold VeriBlockChain.growAt? VeriBlockChain.peekAt at h
  cases hseal : (c.nextDraft timestamp).seal with
  | error e => rw [hseal] at h; cases h
  | ok header =>
    rw [hseal] at h
    obtain ⟨_, hok, h⟩ := Option.bind_eq_some_iff.mp h
    cases hok
    obtain ⟨work, -, h⟩ := Option.bind_eq_some_iff.mp h
    cases h
    exact ⟨header, rfl, rfl, rfl, rfl⟩

/-- The reference to the keystone below, as it is drafted. -/
theorem keystoneHash_eq {c : VeriBlockChain} {height : Nat} {keystone : Header}
    (h : c.headers[height]? = some keystone) : c.keystoneHash (some height) = keystone.hash := by
  rw [VeriBlockChain.keystoneHash, Option.bind_some, h]

theorem previousKeystoneHeight?_eq {n : Nat} (hne : n ≠ 0) (hround : n % 20 ≠ 1) :
    previousKeystoneHeight? n = some (keystoneBelow n) := by
  unfold previousKeystoneHeight? keystoneBelow keystoneInterval
  rw [if_neg (by omega)]
  congr 1
  omega

theorem previousBlock_nextDraft (c : VeriBlockChain) (timestamp : UInt32) :
    (c.nextDraft timestamp).previousBlock =
      (c.tip?.map (·.hash)).getD VBlake.zero.toPrevious := rfl

theorem previousKeystone_nextDraft (c : VeriBlockChain) (timestamp : UInt32) :
    (c.nextDraft timestamp).previousKeystone =
      c.keystoneHash (previousKeystoneHeight? c.headers.size) := rfl

/-- The next header is placed at the end of the chain. -/
theorem placed_next {c d : VeriBlockChain} {timestamp : UInt32} {h : Header}
    (hseal : (c.nextDraft timestamp).seal = .ok h) (hsize : c.headers.size < UInt32.size)
    (hd : d.headers = c.headers.push h) : Placed d c.headers.size h := by
  have hdraft := toDraft_of_seal hseal
  have hprevious : h.previousBlock = (c.nextDraft timestamp).previousBlock.toPrevious := by
    rw [hdraft]
  have hkeystone : h.previousKeystone = (c.nextDraft timestamp).previousKeystone.toKeystone := by
    rw [hdraft]
  have hn : h.height.toNat = c.headers.size := by
    rw [hdraft]
    exact UInt32.toNat_ofNat_of_lt' hsize
  have hround : h.roundIndex = c.headers.size % 20 := by
    rw [Header.roundIndex, hn]
    rfl
  refine ⟨hn, ?_, ?_⟩
  · intro hzero
    rw [Header.effectivePreviousKeystone, hround, if_neg (by omega), hkeystone,
      previousKeystone_nextDraft, hzero]
    show VBlake.zero.toKeystone.toKeystone = VBlake.zero.toKeystone
    decide
  · intro hne
    have hbelow : keystoneBelow c.headers.size < c.headers.size := by
      unfold keystoneBelow keystoneInterval
      omega
    refine ⟨c.headers[keystoneBelow c.headers.size], ?_, ?_⟩
    · rw [hd, Array.getElem?_push_lt hbelow]
    · have hget : c.headers[keystoneBelow c.headers.size]? =
          some c.headers[keystoneBelow c.headers.size] := Array.getElem?_eq_getElem hbelow
      rw [Header.effectivePreviousKeystone, hround]
      split
      · rename_i hfirst
        have htip : c.tip? = some c.headers[keystoneBelow c.headers.size] := by
          rw [VeriBlockChain.tip?, Array.back?_eq_getElem?, ← hget]
          congr 1
          unfold keystoneBelow keystoneInterval
          omega
        rw [hprevious, VBlake.toKeystone_toPrevious, previousBlock_nextDraft, htip,
          Option.map_some, Option.getD_some]
      · rename_i hfirst
        rw [hkeystone, previousKeystone_nextDraft, previousKeystoneHeight?_eq hne hfirst,
          keystoneHash_eq hget]

theorem Placed.congr {c d : VeriBlockChain} {n : Nat} {h : Header} (hp : Placed c n h)
    (hheaders : ∀ m < n, d.headers[m]? = c.headers[m]?) : Placed d n h where
  height := hp.height
  first := hp.first
  next hne := by
    obtain ⟨keystone, hget, heq⟩ := hp.next hne
    refine ⟨keystone, ?_, heq⟩
    rw [hheaders, hget]
    unfold keystoneBelow keystoneInterval
    omega

/-- What the next header fulfils, and what does not depend on the headers from its own height on,
holds of all headers of a grown chain. -/
theorem Grown.of_next {P : VeriBlockChain → Nat → Header → Prop}
    (hnext : ∀ {c d : VeriBlockChain} {timestamp : UInt32} {h : Header},
      (c.nextDraft timestamp).seal = .ok h → c.headers.size < UInt32.size →
        d.headers = c.headers.push h → P d c.headers.size h)
    (hcongr : ∀ {c d : VeriBlockChain} {n : Nat} {h : Header}, P c n h →
      (∀ m < n, d.headers[m]? = c.headers[m]?) → P d n h)
    {c : VeriBlockChain} (hc : Grown c) (hsize : c.headers.size ≤ UInt32.size) {n : Nat}
    {h : Header} (hn : c.headers[n]? = some h) : P c n h := by
  induction hc generalizing n h with
  | empty c hempty =>
    rw [hempty] at hn
    cases hn
  | @grow c d timestamp hc hgrow ih =>
    obtain ⟨header, hseal, hheaders, -⟩ := growAt?_eq_some hgrow
    rw [hheaders, Array.size_push] at hsize
    have hpush : ∀ m < c.headers.size, d.headers[m]? = c.headers[m]? := fun m hm ↦ by
      rw [hheaders, Array.getElem?_push_lt hm, Array.getElem?_eq_getElem hm]
    by_cases hlt : n < c.headers.size
    · rw [hpush n hlt] at hn
      exact hcongr (ih (by omega) hn) fun m hm ↦ hpush m (by omega)
    · rw [hheaders, Array.getElem?_push] at hn
      split at hn
      · rename_i heq
        cases hn
        exact heq ▸ hnext hseal (by omega) hheaders
      · rw [Array.getElem?_eq_none (by omega)] at hn
        cases hn
  | difficulty _ _ ih => exact hcongr (ih hsize hn) fun _ _ ↦ rfl
  | fork _ _ ih => exact hcongr (ih hsize hn) fun _ _ ↦ rfl

/-- All headers of a grown chain are in their place. -/
theorem Grown.placed {c : VeriBlockChain} (hc : Grown c) (hsize : c.headers.size ≤ UInt32.size)
    {n : Nat} {h : Header} (hn : c.headers[n]? = some h) : Placed c n h :=
  hc.of_next placed_next Placed.congr hsize hn

/-- A header refers to the one right before it on a chain. -/
def Follows (c : VeriBlockChain) (n : Nat) (h : Header) : Prop :=
  ∀ m p, n = m + 1 → c.headers[m]? = some p → h.previousBlock = p.hash.toPrevious

theorem follows_next {c d : VeriBlockChain} {timestamp : UInt32} {h : Header}
    (hseal : (c.nextDraft timestamp).seal = .ok h) (_ : c.headers.size < UInt32.size)
    (hd : d.headers = c.headers.push h) : Follows d c.headers.size h := by
  intro m p hm hp
  have htip : c.tip? = some p := by
    rw [hd, Array.getElem?_push_lt (by omega)] at hp
    rw [VeriBlockChain.tip?, Array.back?_eq_getElem?, hm, Nat.add_sub_cancel, ← hp,
      Array.getElem?_eq_getElem]
  have hprevious : h.previousBlock = (c.nextDraft timestamp).previousBlock.toPrevious := by
    rw [toDraft_of_seal hseal]
  rw [hprevious, previousBlock_nextDraft, htip, Option.map_some, Option.getD_some]

theorem Follows.congr {c d : VeriBlockChain} {n : Nat} {h : Header} (hf : Follows c n h)
    (hheaders : ∀ m < n, d.headers[m]? = c.headers[m]?) : Follows d n h :=
  fun m p hm hp ↦ hf m p hm ((hheaders m (by omega)).symm.trans hp)

theorem Grown.follows {c : VeriBlockChain} (hc : Grown c) (hsize : c.headers.size ≤ UInt32.size)
    {n : Nat} {h : Header} (hn : c.headers[n]? = some h) : Follows c n h :=
  hc.of_next follows_next Follows.congr hsize hn

end EndorsedChain.Sample
