import EndorsedChain.Index.Checks
import EndorsedChain.Proofs.Sample.Branches

/-!
# Steady chains

A steady chain grows at one difficulty with the intended time between its headers, possibly as a
fork of a chain that did.  Each of its headers was the next one of the chain below it.  So it comes
at its time, and it refers to the header before it and to the two keystones that the index looks for
at `keystoneDistance`, wherever the header is in the keystone period.
-/

namespace EndorsedChain.Sample

open VeriBlock

variable {bits : UInt32} {b c d : VeriBlockChain} {n : Nat} {h : Header}

/-- The chains that grow from nothing at one difficulty with regular spacing, with forks. -/
inductive Steady (bits : UInt32) : VeriBlockChain → Prop
  | empty (salt : UInt32) : Steady bits { difficulty := bits, salt }
  | grow {c d : VeriBlockChain} (hc : Steady bits c) (hgrow : c.grow? = some d) : Steady bits d
  | fork {c : VeriBlockChain} (hc : Steady bits c) (salt : UInt32) : Steady bits (c.fork salt)

theorem Steady.grown (hc : Steady bits c) : Grown c := by
  induction hc with
  | empty salt => exact .empty _ rfl
  | grow _ hgrow ih => exact .grow ih hgrow
  | fork _ salt ih => exact .fork ih salt

/-- The chain `b` is what the chain `c` was before it got the header at height `n`. -/
structure Before (bits : UInt32) (c : VeriBlockChain) (n : Nat) (b : VeriBlockChain) : Prop where
  size : b.headers.size = n
  headers : ∀ m < n, b.headers[m]? = c.headers[m]?
  spacing : b.spacing = 30
  difficulty : b.difficulty = bits

theorem Before.congr (hb : Before bits c n b) (hheaders : ∀ m < n, c.headers[m]? = d.headers[m]?) :
    Before bits d n b where
  size := hb.size
  headers m hm := (hb.headers m hm).trans (hheaders m hm)
  spacing := hb.spacing
  difficulty := hb.difficulty

theorem Steady.rate (hc : Steady bits c) : c.spacing = 30 ∧ c.difficulty = bits := by
  induction hc with
  | empty => exact ⟨rfl, rfl⟩
  | grow _ hgrow ih =>
    obtain ⟨-, -, -, hspacing, hdifficulty⟩ := growAt?_eq_some hgrow
    exact ⟨hspacing.trans ih.1, hdifficulty.trans ih.2⟩
  | fork _ _ ih => exact ih

theorem Steady.before_next (hc : Steady bits c) : Before bits c c.headers.size c where
  size := rfl
  headers _ _ := rfl
  spacing := hc.rate.1
  difficulty := hc.rate.2

/-- Each header was the next one of the chain below it. -/
theorem Steady.exists_before (hc : Steady bits c) (hn : c.headers[n]? = some h) :
    ∃ b, Before bits c n b ∧ b.peek = .ok h := by
  induction hc generalizing n h with
  | empty => cases hn
  | @grow c d hc hgrow ih =>
    obtain ⟨next, hpeek, hheaders, -⟩ := growAt?_eq_some hgrow
    have hpush : ∀ m < c.headers.size, c.headers[m]? = d.headers[m]? := fun m hm ↦ by
      rw [hheaders, Array.getElem?_push_lt hm, Array.getElem?_eq_getElem hm]
    by_cases hlt : n < c.headers.size
    · rw [← hpush n hlt] at hn
      obtain ⟨b, hb, hnext⟩ := ih hn
      exact ⟨b, hb.congr fun m hm ↦ hpush m (by omega), hnext⟩
    · rw [hheaders, Array.getElem?_push] at hn
      split at hn
      · rename_i heq
        cases hn
        exact ⟨c, heq ▸ hc.before_next.congr hpush, hpeek⟩
      · rw [Array.getElem?_eq_none (by omega)] at hn
        cases hn
  | fork _ _ ih =>
    obtain ⟨b, hb, hnext⟩ := ih hn
    exact ⟨b, hb.congr fun _ _ ↦ rfl, hnext⟩

/-! ## What a header of a steady chain says -/

/-- A header that comes at its time and place in a chain. -/
structure Regular (bits : UInt32) (c : VeriBlockChain) (n : Nat) (h : Header) : Prop where
  height : h.height.toNat = n
  timestamp : h.timestamp.toNat = genesisTimestamp.toNat + 30 * n
  difficulty : h.difficulty = bits
  origin : n = 0 → h.previousBlock.isZero = true
  previous : ∀ p, n ≠ 0 → c.headers[n - 1]? = some p → h.previousBlock = p.hash.toPrevious
  keystone : ∀ keystone, h.keystoneDistance ≤ n →
    c.headers[n - h.keystoneDistance]? = some keystone →
      h.previousKeystone = keystone.hash.toKeystone
  secondKeystone : ∀ keystone, h.keystoneDistance + keystoneInterval ≤ n →
    c.headers[n - (h.keystoneDistance + keystoneInterval)]? = some keystone →
      h.secondPreviousKeystone = keystone.hash.toKeystone

theorem keystoneDistance_eq (hheight : h.height.toNat = n) :
    h.keystoneDistance = if n % 20 = 0 then 20 else if n % 20 = 1 then 21 else n % 20 := by
  have hround : h.roundIndex = n % 20 := by rw [Header.roundIndex, hheight]; rfl
  unfold Header.keystoneDistance
  rw [hround]
  split <;> simp_all [keystoneInterval]

theorem keystoneDistance_pos (h : Header) : 0 < h.keystoneDistance := by
  rw [keystoneDistance_eq rfl]
  split_ifs <;> omega

/-- A sample chain refers to the keystone where the index looks for it. -/
theorem previousKeystoneHeight?_eq_sub (hheight : h.height.toNat = n)
    (hdistance : h.keystoneDistance ≤ n) :
    previousKeystoneHeight? n = some (n - h.keystoneDistance) := by
  have hsub : 2 ≤ n ∧ (n - 2) / 20 * 20 = n - h.keystoneDistance := by
    rw [keystoneDistance_eq hheight] at hdistance ⊢
    split_ifs at hdistance ⊢ <;> omega
  unfold previousKeystoneHeight? keystoneInterval
  rw [if_neg (by omega), hsub.2]

/-- The references of the next header, when there are headers for them to refer to. -/
theorem Before.references (hb : Before bits c n b) (timestamp : UInt32) :
    (∀ p, n ≠ 0 → c.headers[n - 1]? = some p →
      (b.nextDraft timestamp).previousBlock = p.hash) ∧
    ∀ height keystone, height < n → c.headers[height]? = some keystone →
      b.keystoneHash (some height) = keystone.hash := by
  constructor
  · intro p hne hp
    have htip : b.tip? = some p := by
      rw [VeriBlockChain.tip?, Array.back?_eq_getElem?, hb.size, hb.headers _ (by omega), hp]
    rw [previousBlock_nextDraft, htip, Option.map_some, Option.getD_some]
  · intro height keystone hlt hkeystone
    exact keystoneHash_eq ((hb.headers height hlt).trans hkeystone)

theorem Before.nextTimestamp (hb : Before bits c n b)
    (htime : genesisTimestamp.toNat + 30 * n < UInt32.size) :
    b.nextTimestamp.toNat = genesisTimestamp.toNat + 30 * n := by
  have hmul : (UInt32.ofNat n * 30).toNat = 30 * n := by
    rw [UInt32.toNat_mul, UInt32.toNat_ofNat_of_lt' (by omega), Nat.mul_comm]
    exact Nat.mod_eq_of_lt (Nat.lt_of_le_of_lt (Nat.le_add_left _ _) htime)
  rw [VeriBlockChain.nextTimestamp, hb.size, hb.spacing, UInt32.toNat_add, hmul]
  exact Nat.mod_eq_of_lt htime

/-- All headers of a steady chain come at their time and place. -/
theorem Steady.regular (hc : Steady bits c) (hn : c.headers[n]? = some h)
    (htime : genesisTimestamp.toNat + 30 * n < UInt32.size) : Regular bits c n h := by
  obtain ⟨b, hb, hpeek⟩ := hc.exists_before hn
  have hdraft := toDraft_of_seal hpeek
  obtain ⟨hprevious, hreference⟩ := hb.references b.nextTimestamp
  have hheight : h.height.toNat = n := by
    rw [hdraft]
    show (UInt32.ofNat b.headers.size).toNat = n
    rw [hb.size, UInt32.toNat_ofNat_of_lt' (by omega)]
  have hpos := keystoneDistance_pos h
  refine ⟨hheight, ?_, ?_, ?_, ?_, ?_, ?_⟩
  · rw [hdraft]
    exact hb.nextTimestamp htime
  · rw [hdraft]
    exact hb.difficulty
  · intro hzero
    have hempty : b.tip? = none := by
      rw [VeriBlockChain.tip?, Array.back?_eq_getElem?, Array.getElem?_eq_none]
      rw [hb.size, hzero]
    rw [hdraft]
    show (b.nextDraft _).previousBlock.toPrevious.isZero = true
    rw [previousBlock_nextDraft, hempty]
    decide
  · intro p hne hp
    rw [hdraft]
    exact congrArg VBlake.toPrevious (hprevious p hne hp)
  · intro keystone hdistance hkeystone
    have hheight? := previousKeystoneHeight?_eq_sub hheight hdistance
    rw [hdraft]
    show (b.nextDraft _).previousKeystone.toKeystone = _
    rw [previousKeystone_nextDraft, hb.size, hheight?, hreference _ _ (by omega) hkeystone]
  · intro keystone hdistance hkeystone
    have hheight? := previousKeystoneHeight?_eq_sub hheight (Nat.le_of_add_right_le hdistance)
    have hguard : (do
        let height ← previousKeystoneHeight? n
        guard (keystoneInterval ≤ height)
        return height - keystoneInterval : Option Nat) =
          some (n - (h.keystoneDistance + keystoneInterval)) := by
      have hle : keystoneInterval ≤ n - h.keystoneDistance := Nat.le_sub_of_add_le' hdistance
      simp only [hheight?, Option.bind_eq_bind, Option.bind_some, guard, if_pos hle,
        Option.pure_def, Nat.sub_sub]
    rw [hdraft]
    show (b.keystoneHash _).toKeystone = _
    rw [hb.size, hguard, hreference _ _ (by omega) hkeystone]

end EndorsedChain.Sample
