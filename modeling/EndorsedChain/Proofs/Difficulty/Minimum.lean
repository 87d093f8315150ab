import EndorsedChain.Proofs.Difficulty.Bounds
import EndorsedChain.Proofs.Difficulty.Rounding
import EndorsedChain.Proofs.Difficulty.Steady
import EndorsedChain.Proofs.Sample.Openings
import Mathlib.Algebra.Group.Action.Defs
import Mathlib.Algebra.Order.BigOperators.Group.List

/-!
# The minimum difficulty

The minimum is applied to the exact value that retargeting gives.  What a header has to state is the
compact form of this value, which rounds down.  So the minimum is kept exactly if it has a compact
form itself; otherwise a header is accepted that states the minimum rounded down.  Nothing that is
accepted lies between the two, or lower.
-/

namespace EndorsedChain

open VeriBlock

variable {params : NetworkParameters} {context : List Entry} {h : Header} {work : Nat}

/-- The next difficulty is not below the minimum, and has at most one byte too many for a compact
form. -/
theorem Retarget.next_range {context : List Header} {difficulty : Nat}
    (hlength : 2 ≤ context.length) (hworks : ∀ x ∈ context, ∃ work, x.work = .ok work)
    (hnext : next params context = .ok difficulty) :
    params.minimumDifficulty.toNat ≤ difficulty ∧ Compact.signedWidth difficulty ≤ 256 := by
  obtain ⟨works, hworks⟩ := exists_haveWorks hworks
  obtain ⟨d, hd, hlow, hhigh⟩ := exists_next params hlength hworks
  obtain rfl : d = difficulty := Except.ok.inj (hd.symm.trans hnext)
  refine ⟨(le_max_left _ _).trans hlow, (BigEndian.width_le_iff (by decide)).mpr ?_⟩
  have hwork : ∀ w ∈ works.dropLast, w ≤ 256 ^ 255 / 2 := by
    intro w hw
    obtain ⟨x, -, hx⟩ := hworks.exists_of_mem (List.dropLast_subset _ hw)
    have hlt := Compact.two_mul_lt_of_decode hx
    omega
  have hsum : works.dropLast.sum ≤ (context.length - 1) * (256 ^ 255 / 2) := by
    have hcard := List.sum_le_card_nsmul _ _ hwork
    rwa [List.length_dropLast, ← hworks.length_eq, smul_eq_mul] at hcard
  have hmean : 10 * works.dropLast.sum / (context.length - 1) ≤ 10 * (256 ^ 255 / 2) := by
    refine Nat.div_le_of_le_mul ?_
    rw [Nat.mul_left_comm]
    exact Nat.mul_le_mul_left 10 hsum
  have hminimum : params.minimumDifficulty.toNat < 256 ^ 8 := params.minimumDifficulty.toNat_lt
  have hpow : 256 ^ 8 ≤ 256 ^ 255 := Nat.pow_le_pow_right (by decide) (by decide)
  rw [Nat.pow_succ 256 255]
  omega

/-- A header is accepted behind a context that is long enough for its difficulty to be checked. -/
structure Retargeted (params : NetworkParameters) (context : List Entry) (h : Header) (work : Nat) :
    Prop where
  length : Retarget.period ≤ context.length
  works : ∀ e ∈ context, ∃ work, e.header.work = .ok work
  accepted : checkDifficulty params h context = .ok ()
  work : h.work = .ok work

/-- What the header states is a value rounded down that is not below the minimum. -/
theorem Retargeted.exists_rounded (haccepted : Retargeted params context h work) :
    ∃ difficulty, params.minimumDifficulty.toNat ≤ difficulty ∧
      work = Compact.rounded difficulty := by
  obtain ⟨hlength, hworks, haccepted, hwork⟩ := haccepted
  obtain ⟨difficulty, hnext, hdifficulty⟩ := (checkDifficulty_eq_ok_iff hlength).mp haccepted
  obtain ⟨hminimum, hwidth⟩ :=
    Retarget.next_range (two_le_length_recent hlength) (forall_mem_recent hworks) hnext
  have hdecode : Compact.decode (Compact.encode difficulty) = .ok work := hdifficulty ▸ hwork
  rcases Nat.eq_zero_or_pos difficulty with rfl | hpos
  · cases hdecode
  · exact ⟨difficulty, hminimum, Compact.eq_rounded_of_decode hpos hwidth hdecode⟩

theorem Retargeted.rounded_minimum_le (haccepted : Retargeted params context h work) :
    Compact.rounded params.minimumDifficulty.toNat ≤ work := by
  obtain ⟨difficulty, hminimum, rfl⟩ := haccepted.exists_rounded
  exact Compact.rounded_mono hminimum

/-- No rounded value lies between the minimum rounded down and the minimum. -/
theorem Retargeted.minimum_le_or_eq (haccepted : Retargeted params context h work) :
    params.minimumDifficulty.toNat ≤ work ∨
      work = Compact.rounded params.minimumDifficulty.toNat := by
  have hlow := haccepted.rounded_minimum_le
  obtain ⟨difficulty, -, rfl⟩ := haccepted.exists_rounded
  rcases Nat.lt_or_ge (Compact.rounded difficulty) params.minimumDifficulty.toNat with hlt | hge
  · have hhigh := Compact.rounded_mono hlt.le
    rw [Compact.rounded_rounded] at hhigh
    exact .inr (Nat.le_antisymm hhigh hlow)
  · exact .inl hge

/-! ## The minimum rounded down -/

/-- The minimum has 64 bits, which is far from too many for a compact form. -/
theorem signedWidth_minimum_le : Compact.signedWidth params.minimumDifficulty.toNat ≤ 255 := by
  refine (BigEndian.width_le_iff (by decide)).mpr ?_
  have hlt : params.minimumDifficulty.toNat < 256 ^ 8 := params.minimumDifficulty.toNat_lt
  have hpow : 256 ^ 9 ≤ 256 ^ 255 := Nat.pow_le_pow_right (by decide) (by decide)
  omega

theorem rounded_minimum_eq_iff :
    Compact.rounded params.minimumDifficulty.toNat = params.minimumDifficulty.toNat ↔
      params.minimumDifficulty = 0 ∨
        ∃ bits, Compact.decode bits = .ok params.minimumDifficulty.toNat := by
  rcases eq_or_ne params.minimumDifficulty 0 with hzero | hne
  · rw [hzero]
    exact iff_of_true rfl (.inl rfl)
  · have hpos : 0 < params.minimumDifficulty.toNat :=
      Nat.pos_of_ne_zero fun hzero ↦ hne (UInt64.toNat_inj.mp hzero)
    rw [← Compact.exists_decode_iff hpos signedWidth_minimum_le, or_iff_right hne]

/-- The same header with another difficulty. -/
def VeriBlock.Header.withDifficulty (h : Header) (difficulty : UInt32) : Header where
  toDraft := { h.toDraft with difficulty }
  length_previousBlock := h.length_previousBlock
  length_previousKeystone := h.length_previousKeystone
  length_secondPreviousKeystone := h.length_secondPreviousKeystone
  hash := VBlake.digest (Draft.pack { h.toDraft with difficulty })
  hash_eq := rfl

/-- Headers that state a difficulty of 1, all at the same time. -/
def idleContext : List Entry :=
  List.replicate Retarget.period ⟨Sample.genesis.withDifficulty 0x01010000, 1, .zero⟩

/-- Where nothing but the minimum counts. -/
theorem next_idleContext (hminimum : 10 ≤ params.minimumDifficulty.toNat) :
    Retarget.next params ((idleContext.take Retarget.period).map (·.header)) =
      .ok params.minimumDifficulty.toNat := by
  have hcontext : (idleContext.take Retarget.period).map (·.header) =
      List.replicate Retarget.period (Sample.genesis.withDifficulty 0x01010000) := by
    rw [idleContext, List.take_replicate, Nat.min_self, List.map_replicate]
  have hworks : ∀ x ∈ List.replicate Retarget.period (Sample.genesis.withDifficulty 0x01010000),
      x.work = .ok 1 := by
    intro x hx
    rw [List.eq_of_mem_replicate hx]
    rfl
  obtain ⟨difficulty, hnext, hlow, hhigh⟩ :=
    Retarget.exists_next params (by decide) (Retarget.haveWorks_replicate hworks)
  have hbound : 10 * (List.replicate Retarget.period 1).dropLast.sum / (Retarget.period - 1) ≤
      params.minimumDifficulty.toNat := hminimum
  rw [List.length_replicate] at hhigh
  rw [hcontext, hnext]
  exact congrArg _ (Nat.le_antisymm (hhigh.trans (max_le le_rfl hbound))
    ((le_max_left _ _).trans hlow))

/-- A minimum of ten or more can be reached. -/
theorem retargeted_idleContext (hminimum : 10 ≤ params.minimumDifficulty.toNat) :
    Retargeted params idleContext
      (Sample.genesis.withDifficulty (Compact.encode params.minimumDifficulty.toNat))
      (Compact.rounded params.minimumDifficulty.toNat) where
  length := by simp [idleContext]
  works := by
    intro e he
    rw [List.eq_of_mem_replicate he]
    exact ⟨1, rfl⟩
  accepted :=
    (checkDifficulty_eq_ok_iff (by simp [idleContext])).mpr ⟨_, next_idleContext hminimum, rfl⟩
  work := Compact.decode_encode (by omega) signedWidth_minimum_le

/-- An accepted difficulty is not below the minimum, or it is the minimum rounded down, which is not
lower by more than a `2 ^ 15`th.  None of them is below the minimum exactly if this has a compact
form or is zero. -/
theorem minimum_kept_iff (params : NetworkParameters) :
    (∀ context h work, Retargeted params context h work →
      (params.minimumDifficulty.toNat ≤ work ∨
        work = Compact.rounded params.minimumDifficulty.toNat) ∧
      params.minimumDifficulty.toNat * 2 ^ 15 ≤ work * (2 ^ 15 + 1)) ∧
    ((∀ context h work, Retargeted params context h work →
        params.minimumDifficulty.toNat ≤ work) ↔
      params.minimumDifficulty = 0 ∨
        ∃ bits, Compact.decode bits = .ok params.minimumDifficulty.toNat) := by
  rw [← rounded_minimum_eq_iff]
  refine ⟨?near, ?kept, ?fixed⟩
  case near =>
    intro context h work haccepted
    have hrounded := Compact.mul_le_rounded_mul params.minimumDifficulty.toNat
    exact ⟨haccepted.minimum_le_or_eq,
      hrounded.trans (Nat.mul_le_mul_right _ haccepted.rounded_minimum_le)⟩
  case kept =>
    intro hkept
    rcases Nat.lt_or_ge params.minimumDifficulty.toNat 10 with hsmall | hminimum
    · refine Compact.rounded_eq_self ((BigEndian.width_le_iff (by decide)).mpr ?_)
      omega
    · exact Nat.le_antisymm (Compact.rounded_le _)
        (hkept _ _ _ (retargeted_idleContext hminimum))
  case fixed =>
    intro hfixed context h work haccepted
    exact hfixed ▸ haccepted.rounded_minimum_le

example : ∃ bits, Compact.decode bits = .ok NetworkParameters.testnet.minimumDifficulty.toNat :=
  ⟨Sample.defaultDifficulty, rfl⟩

/-- The minimum of the main network has no compact form. -/
theorem accepted_below_minimum :
    Retargeted .mainnet idleContext (Sample.genesis.withDifficulty 0x0600d18c) 899996975104 ∧
      899996975104 < NetworkParameters.mainnet.minimumDifficulty.toNat :=
  ⟨retargeted_idleContext (by decide), by decide⟩

end EndorsedChain
