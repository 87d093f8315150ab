import EndorsedChain.Proofs.Index.Steady
import EndorsedChain.Proofs.Sample.Openings

/-!
# Starting at any height

An index need not be told a chain from its beginning.  Given the headers of a steady chain from any
height on, one after the other, it accepts each of them and moves its head along.
-/

namespace EndorsedChain

open VeriBlock Sample

variable {params : NetworkParameters} {bits : UInt32} {c : VeriBlockChain}
  {first stop work m : Nat} {h x : Header}

/-! ## Stretches of a chain -/

/-- The headers of a chain from the height `first` to before the height `stop`. -/
def stretch (c : VeriBlockChain) (first stop : Nat) : List Header :=
  (c.headers.extract first stop).toList

theorem mem_stretch : h ∈ stretch c first stop ↔
    ∃ m, first ≤ m ∧ m < stop ∧ c.headers[m]? = some h := by
  unfold stretch
  rw [Array.mem_toList_iff, Array.mem_extract_iff_getElem]
  constructor
  · rintro ⟨k, hlt, hget⟩
    exact ⟨first + k, by omega, by omega, Array.getElem?_eq_some_iff.mpr ⟨by omega, hget⟩⟩
  · rintro ⟨m, hle, hlt, hget⟩
    obtain ⟨hsize, rfl⟩ := Array.getElem?_eq_some_iff.mp hget
    refine ⟨m - first, by omega, ?_⟩
    congr 1
    omega

theorem stretch_self (c : VeriBlockChain) (first : Nat) : stretch c first first = [] := by
  unfold stretch
  rw [Array.extract_empty_of_stop_le_start (Nat.le_refl first)]

theorem stretch_succ (hle : first ≤ stop) (hget : c.headers[stop]? = some h) :
    stretch c first (stop + 1) = stretch c first stop ++ [h] := by
  obtain ⟨hsize, rfl⟩ := Array.getElem?_eq_some_iff.mp hget
  unfold stretch
  rw [Array.extract_succ_right (Nat.lt_succ_of_le hle) hsize, Array.toList_push]

/-- The last header of a stretch is the one below its end. -/
theorem getLast?_stretch (hlt : first < stop) (hget : c.headers[stop - 1]? = some h) :
    (stretch c first stop).getLast? = some h := by
  obtain ⟨last, rfl⟩ : ∃ last, stop = last + 1 := ⟨stop - 1, by omega⟩
  rw [stretch_succ (Nat.le_of_lt_succ hlt) hget, List.getLast?_concat]

theorem height_of_mem_stretch (hsteady : Steady bits c)
    (htime : genesisTimestamp.toNat + 30 * stop < UInt32.size) (hmem : h ∈ stretch c first stop) :
    first ≤ h.height.toNat ∧ h.height.toNat < stop := by
  obtain ⟨m, hle, hlt, hget⟩ := mem_stretch.mp hmem
  rw [(hsteady.regular hget (by omega)).height]
  exact ⟨hle, hlt⟩

theorem hasBelow_stretch (hsteady : Steady bits c)
    (htime : genesisTimestamp.toNat + 30 * stop < UInt32.size) :
    HasBelow {h | h ∈ c.headers} bits first c stop (stretch c first stop) where
  regular m x hm hx := hsteady.regular hx (by omega)
  mem_known m x _ hx := Array.mem_of_getElem? hx
  present m x hle hlt hx := mem_stretch.mpr ⟨m, hle, hlt, hx⟩
  absent m x hlt hx hmem := by
    obtain ⟨hle, hstop⟩ := height_of_mem_stretch hsteady htime hmem
    have hm : x.height.toNat = m := (hsteady.regular hx (by omega)).height
    omega

namespace Session

theorem run_append (s : Session) (cs ds : List Call) :
    s.run (cs ++ ds) = (s.run cs).bind (·.run ds) := by
  induction cs generalizing s with
  | nil => rfl
  | cons c cs ih =>
    rw [List.cons_append, run, run]
    cases s.call c with
    | none => rfl
    | some r => exact ih r.session

/-- What the changes of a header say that becomes the head. -/
def accepted (first work : Nat) (h : Header) : List (Operation × Option Entry) :=
  [(.addBlock, some (steadyEntry first work h)), (.setHead, some (steadyEntry first work h))]

/-- A session that got a stretch of a chain. -/
structure Got (params : NetworkParameters) (c : VeriBlockChain) (first stop work : Nat)
    (s : Session) : Prop where
  filled : Filled {h | h ∈ c.headers} params first work (stretch c first stop) s.index
  head : s.index.store.head = (stretch c first stop).getLast?.map (steadyEntry first work)
  journal : s.journal.reverse.map (·.map Change.outline) =
    (stretch c first stop).map (accepted first work)

theorem got_start (params : NetworkParameters) (c : VeriBlockChain) (first work : Nat) :
    Got params c first first work (start params) := by
  refine ⟨?_, ?_, ?_⟩
  · rw [stretch_self]
    exact Filled.start _ params first work
  · rw [stretch_self]
    rfl
  · rw [stretch_self]
    rfl

section

variable (hsteady : Steady bits c) (hcanonical : Canonical params bits work)
  (hkeys : KeysDistinct {h | h ∈ c.headers})

include hsteady hcanonical hkeys

/-- The next header is admitted: the first one because there is no head yet. -/
theorem Got.accept {s : Session} (hgot : Got params c first stop work s) (hle : first ≤ stop)
    (hget : c.headers[stop]? = some h)
    (htime : genesisTimestamp.toNat + 30 * stop < UInt32.size) :
    s.index.accept s.index.store.head h .zero =
      .ok (some ⟨steadyEntry first work h, s.index.store.head.map (·.hash)⟩) := by
  have hbelow : HasBelow {h | h ∈ c.headers} bits first c stop (stretch c first stop) :=
    hasBelow_stretch hsteady htime
  have hregular := hsteady.regular hget htime
  rcases Nat.eq_or_lt_of_le hle with rfl | hlt
  · have hhead := hgot.head
    rw [stretch_self] at hhead
    rw [hhead]
    exact Index.accept_first s.index
      (by rw [Header.work, hregular.difficulty, hcanonical.decode]) hregular.height
  · have hsize := (Array.getElem?_eq_some_iff.mp hget).1
    obtain ⟨p, hp⟩ : ∃ p, c.headers[stop - 1]? = some p :=
      ⟨_, Array.getElem?_eq_getElem (by omega)⟩
    have hnew : h ∉ stretch c first stop := fun hmem ↦ by
      have hstop := (height_of_mem_stretch hsteady htime hmem).2
      rw [hregular.height] at hstop
      exact Nat.lt_irrefl stop hstop
    rw [hgot.head, getLast?_stretch hlt hp]
    exact hgot.filled.accept_next hkeys hbelow hget hlt hcanonical hnew hp

theorem Got.call {s : Session} (hgot : Got params c first stop work s) (hle : first ≤ stop)
    (hget : c.headers[stop]? = some h)
    (htime : genesisTimestamp.toNat + 30 * stop < UInt32.size)
    (hpackable : Packable ((stop + 1 - first) * work)) :
    ∃ r, s.call (.add h .zero) = some r ∧ Got params c first (stop + 1) work r.session := by
  have haccept := hgot.accept hsteady hcanonical hkeys hle hget htime
  have hpacked : ∀ x ∈ h :: stretch c first stop, Packable (steadyEntry first work x).work := by
    intro x hx
    have hx : x.height.toNat ≤ stop := by
      rcases List.mem_cons.mp hx with rfl | hx
      · exact Nat.le_of_eq (hsteady.regular hget htime).height
      · exact Nat.le_of_lt (height_of_mem_stretch hsteady htime hx).2
    exact hpackable.mono (Nat.mul_le_mul_right work (by omega))
  obtain ⟨j, changes, hadd, hfilled, -, hmoves⟩ :=
    hgot.filled.add (Array.mem_of_getElem? hget) haccept hpacked
  obtain ⟨houtlines, hhead⟩ := hmoves rfl
  have hsucc := stretch_succ hle hget
  refine ⟨⟨.ok (), ⟨j, changes :: s.journal⟩⟩, ?_, hsucc ▸ hfilled, ?_, ?_⟩
  · rw [Session.call, hadd]
    rfl
  · rw [hsucc, List.getLast?_concat]
    exact hhead
  · rw [hsucc, List.reverse_cons, List.map_append, hgot.journal, List.map_append,
      List.map_singleton, List.map_singleton, houtlines]
    rfl

/-- By induction on the height at which the stretch ends. -/
theorem exists_got (hle : first ≤ stop) (hstop : stop ≤ c.headers.size)
    (htime : genesisTimestamp.toNat + 30 * stop < UInt32.size + 30)
    (hpackable : Packable ((stop - first) * work)) :
    ∃ s, (start params).run ((stretch c first stop).map (.add · .zero)) = some s ∧
      Got params c first stop work s := by
  induction stop, hle using Nat.le_induction with
  | base =>
    rw [stretch_self]
    exact ⟨start params, rfl, got_start params c first work⟩
  | succ stop hle ih =>
    obtain ⟨s, hrun, hgot⟩ := ih (by omega) (by omega)
      (hpackable.mono (Nat.mul_le_mul_right work (by omega)))
    have hget : c.headers[stop]? = some c.headers[stop] := Array.getElem?_eq_getElem hstop
    obtain ⟨r, hcall, hnext⟩ := hgot.call hsteady hcanonical hkeys hle hget (by omega) hpackable
    refine ⟨r.session, ?_, hnext⟩
    rw [stretch_succ hle hget, List.map_append, run_append, hrun, Option.bind_some,
      List.map_singleton, run, hcall]
    rfl

end

/-- The headers of a steady chain from the height `first` to the height `last` are all accepted by a
new index: each of them returns the change that adds it and the one that moves the head to it. -/
theorem starts_at_any_height {last : Nat} (hsteady : Steady bits c)
    (hcanonical : Canonical params bits work) (hkeys : KeysDistinct {h | h ∈ c.headers})
    (hle : first ≤ last) (hlast : last < c.headers.size)
    (htime : genesisTimestamp.toNat + 30 * last < UInt32.size)
    (hpackable : Packable ((last + 1 - first) * work)) :
    ∃ s, (start params).run ((stretch c first (last + 1)).map (.add · .zero)) = some s ∧
      s.journal.reverse.map (·.map Change.outline) =
        (stretch c first (last + 1)).map (accepted first work) ∧
      s.index.store.head = c.headers[last]?.map (steadyEntry first work) := by
  obtain ⟨s, hrun, hgot⟩ := exists_got hsteady hcanonical hkeys (by omega) hlast
    (by omega) hpackable
  refine ⟨s, hrun, hgot.journal, ?_⟩
  have hget : c.headers[last]? = some c.headers[last] := Array.getElem?_eq_getElem hlast
  rw [hgot.head, getLast?_stretch (Nat.lt_succ_of_le hle) hget, hget]

/-- The third header is accepted after the second one, although its keystone is not known. -/
theorem starts_at_second : Steady defaultDifficulty lengthened ∧
    Canonical .testnet defaultDifficulty 100000000 ∧ KeysDistinct {h | h ∈ lengthened.headers} ∧
    Packable ((2 + 1 - 1) * 100000000) ∧
    ∃ s, (start .testnet).run [.add second .zero, .add third .zero] = some s ∧
      s.journal.reverse.map (·.map Change.outline) =
        [accepted 1 100000000 second, accepted 1 100000000 third] ∧
      s.index.store.head = some ⟨third, 200000000, .zero⟩ := by
  have hkeys : KeysDistinct {h | h ∈ [genesis, second, third]} := by decide +kernel
  have hkeys : KeysDistinct {h | h ∈ lengthened.headers} := by simpa [lengthened] using hkeys
  have hcanonical : Canonical .testnet defaultDifficulty 100000000 :=
    ⟨by decide, by decide, by decide⟩
  have hpackable : Packable ((2 + 1 - 1) * 100000000) := by decide
  exact ⟨steady_lengthened, hcanonical, hkeys, hpackable,
    starts_at_any_height steady_lengthened hcanonical hkeys (by decide) (by decide) (by decide)
      hpackable⟩

end Session

end EndorsedChain
