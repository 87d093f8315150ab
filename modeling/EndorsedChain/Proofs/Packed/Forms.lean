import EndorsedChain.Entry.Bitcoin
import EndorsedChain.Proofs.Bytes.Recognizes
import EndorsedChain.Proofs.Entry.Packing
import EndorsedChain.Reward.Amount

/-!
# The forms of packed values

Each packed value has one form, with the exception of entries: the work in an entry may have leading
zeros, and zero may have no bytes at all.  Packing such an entry again gives its form with the
shortest work (`FramesWork.frame`).
-/

namespace EndorsedChain

open Reader BigEndian

/-! ## Hashes and amounts -/

theorem mapError_eq_ok {ε ε' α : Type} {f : ε → ε'} {x : Except ε α} {a : α} :
    x.mapError f = .ok a ↔ x = .ok a := by
  cases x <;> simp [Except.mapError]

theorem Digest.bytes_of_ofBytes {bytes : List UInt8} {d : Digest} (h : ofBytes bytes = .ok d) :
    d.bytes = bytes := by
  unfold ofBytes at h
  split at h
  · cases h
    rfl
  · cases h

theorem Digest.recognizes_read : Digest.read.Recognizes fun d bytes ↦ bytes = d.pack where
  reads := by
    rintro d _ rfl
    exact d.reads_read
  accepts h := by
    obtain ⟨front, _, htake, h⟩ := bind_eq_ok h
    obtain ⟨hbytes, rfl⟩ := ofExcept_eq_ok h
    exact ⟨_, rfl, by rw [pack, bytes_of_ofBytes (mapError_eq_ok.mp hbytes), (take_eq_ok htake).2]⟩

theorem Digest.takes_read : Digest.read.Takes 32 fun _ ↦ True :=
  (takes_take 32).bind (n := 0) fun front hlength ↦
    Takes.ofExcept (a := ⟨front, hlength⟩) (by rw [ofBytes, dif_pos hlength]; rfl) trivial

theorem MerkleRoot.recognizes_read : MerkleRoot.read.Recognizes fun m bytes ↦ bytes = m.bytes where
  reads := by
    rintro m _ rfl
    exact m.reads_read
  accepts {m bytes rest} h := by
    unfold MerkleRoot.read at h
    split at h
    · cases h
    · cases h
      exact ⟨_, rfl, (List.take_append_drop 16 bytes).symm⟩

theorem MerkleRoot.takes_read : MerkleRoot.read.Takes 16 fun _ ↦ True := fun bytes hle ↦
  ⟨⟨bytes.take 16, List.length_take_of_le hle⟩, trivial, dif_neg (Nat.not_lt.mpr hle)⟩

namespace VBlake

theorem bytes_of_ofPacked {front bytes rest : List UInt8} {h : VBlake}
    (hread : ofPacked front bytes = (.ok h, rest)) : h.bytes = front ∧ bytes = rest := by
  obtain ⟨hbytes, hrest⟩ := ofExcept_eq_ok hread
  have hbytes := mapError_eq_ok.mp hbytes
  unfold ofBytes at hbytes
  split at hbytes
  · cases hbytes
    exact ⟨rfl, hrest⟩
  · cases hbytes

theorem recognizes_readFixed (size : Nat) :
    (readFixed size).Recognizes fun h bytes ↦ h.length = size ∧ bytes = h.bytes where
  reads := by
    rintro h _ ⟨hsize, rfl⟩
    exact reads_readFixed hsize
  accepts hread := by
    obtain ⟨front, _, htake, hread⟩ := bind_eq_ok hread
    obtain ⟨rfl, rfl⟩ := bytes_of_ofPacked hread
    obtain ⟨hsize, hbytes⟩ := take_eq_ok htake
    exact ⟨_, ⟨hsize, rfl⟩, hbytes⟩

theorem takes_readFixed {size : Nat} (hsize : 0 < size ∧ size ≤ 24) :
    (readFixed size).Takes size (·.length = size) :=
  (takes_take size).bind (n := 0) fun front hlength ↦
    have hbounds : 0 < front.length ∧ front.length ≤ 24 := hlength.symm ▸ hsize
    Takes.ofExcept (a := VBlake.mk front hbounds.1 hbounds.2)
      (by rw [ofBytes, dif_pos hbounds]; rfl) hlength

theorem packSized?_bytes (h : VBlake) : packSized? h.bytes = some h.pack :=
  if_pos (Nat.le_trans h.length_le (by decide))

theorem recognizes_read : VBlake.read.Recognizes fun h bytes ↦ bytes = h.pack where
  reads := by
    rintro h _ rfl
    refine (recognizes_sized.reads h.packSized?_bytes).bind_nil (Reads.ofExcept ?_)
    rw [ofBytes, dif_pos ⟨h.length_pos, h.length_le⟩]
    rfl
  accepts hread := by
    obtain ⟨front, _, hsized, hread⟩ := bind_eq_ok hread
    obtain ⟨rfl, rfl⟩ := bytes_of_ofPacked hread
    obtain ⟨packed, hpacked, hbytes⟩ := recognizes_sized.accepts hsized
    rw [packSized?_bytes] at hpacked
    exact ⟨packed, (Option.some.inj hpacked).symm, hbytes⟩

end VBlake

theorem Amount.recognizes_read : Amount.read.Recognizes fun a bytes ↦ bytes = a.pack where
  reads := by
    rintro a _ rfl
    exact (recognizes_u64.reads rfl).bind_nil (Reads.pure a)
  accepts h := by
    obtain ⟨units, _, hunits, h⟩ := bind_eq_ok h
    cases h
    exact recognizes_u64.accepts hunits

/-! ## Headers -/

namespace VeriBlock.Header

theorem toDraft_eq_of_seal {d : Draft} {h : Header} (hseal : d.seal = .ok h)
    (hprevious : d.previousBlock.length = 12) (hkeystone : d.previousKeystone.length = 9)
    (hsecond : d.secondPreviousKeystone.length = 9) : h.toDraft = d := by
  rw [toDraft_of_seal hseal, VBlake.toPrevious, VBlake.toKeystone, VBlake.toKeystone,
    VBlake.trim_of_le hprevious.le, VBlake.trim_of_le hkeystone.le, VBlake.trim_of_le hsecond.le]

theorem exists_seal {d : Draft} (hprevious : 12 ≤ d.previousBlock.length)
    (hkeystone : 9 ≤ d.previousKeystone.length) (hsecond : 9 ≤ d.secondPreviousKeystone.length) :
    ∃ h, d.seal = .ok h := by
  unfold Draft.seal
  rw [dif_neg (by omega), dif_neg (by omega), dif_neg (by omega)]
  exact ⟨_, rfl⟩

theorem recognizes_read : Header.read.Recognizes fun h bytes ↦ bytes = h.pack where
  reads := by
    rintro h _ rfl
    exact h.reads_read
  accepts hread := by
    obtain ⟨height, _, hheight, hread⟩ := bind_eq_ok hread
    obtain ⟨version, _, hversion, hread⟩ := bind_eq_ok hread
    obtain ⟨previous, _, hprevious, hread⟩ := bind_eq_ok hread
    obtain ⟨keystone, _, hkeystone, hread⟩ := bind_eq_ok hread
    obtain ⟨second, _, hsecond, hread⟩ := bind_eq_ok hread
    obtain ⟨merkleRoot, _, hroot, hread⟩ := bind_eq_ok hread
    obtain ⟨timestamp, _, htimestamp, hread⟩ := bind_eq_ok hread
    obtain ⟨difficulty, _, hdifficulty, hread⟩ := bind_eq_ok hread
    obtain ⟨nonce, _, hnonce, hread⟩ := bind_eq_ok hread
    obtain ⟨hseal, rfl⟩ := ofExcept_eq_ok hread
    obtain ⟨_, rfl, rfl⟩ := recognizes_u32.accepts hheight
    obtain ⟨_, rfl, rfl⟩ := recognizes_u16.accepts hversion
    obtain ⟨_, ⟨hlength, rfl⟩, rfl⟩ := (VBlake.recognizes_readFixed 12).accepts hprevious
    obtain ⟨_, ⟨hlength', rfl⟩, rfl⟩ := (VBlake.recognizes_readFixed 9).accepts hkeystone
    obtain ⟨_, ⟨hlength'', rfl⟩, rfl⟩ := (VBlake.recognizes_readFixed 9).accepts hsecond
    obtain ⟨_, rfl, rfl⟩ := MerkleRoot.recognizes_read.accepts hroot
    obtain ⟨_, rfl, rfl⟩ := recognizes_u32.accepts htimestamp
    obtain ⟨_, rfl, rfl⟩ := recognizes_u32.accepts hdifficulty
    obtain ⟨_, rfl, rfl⟩ := recognizes_u32.accepts hnonce
    refine ⟨_, rfl, ?_⟩
    rw [pack, toDraft_eq_of_seal (mapError_eq_ok.mp hseal) hlength hlength' hlength'', Draft.pack]
    simp only [List.append_assoc]

theorem takes_read : Header.read.Takes headerSize fun _ ↦ True := by
  have hread : Header.read.Takes
      (4 + (2 + (12 + (9 + (9 + (16 + (4 + (4 + (4 + 0))))))))) fun _ ↦ True := by
    refine takes_u32.bind fun height _ ↦ takes_u16.bind fun version _ ↦ ?_
    refine (VBlake.takes_readFixed (by decide)).bind fun previous hprevious ↦ ?_
    refine (VBlake.takes_readFixed (by decide)).bind fun keystone hkeystone ↦ ?_
    refine (VBlake.takes_readFixed (by decide)).bind fun second hsecond ↦ ?_
    refine MerkleRoot.takes_read.bind fun merkleRoot _ ↦ takes_u32.bind fun timestamp _ ↦ ?_
    refine takes_u32.bind fun difficulty _ ↦ takes_u32.bind fun nonce _ ↦ ?_
    obtain ⟨h, hseal⟩ := exists_seal (d := ⟨height, version, previous, keystone, second, merkleRoot,
      timestamp, difficulty, nonce⟩) hprevious.ge hkeystone.ge hsecond.ge
    exact Takes.ofExcept (by rw [hseal]; rfl) (trivial : True)
  exact hread

end VeriBlock.Header

namespace Bitcoin.Header

theorem ext_draft {a b : Header} (h : a.toDraft = b.toDraft) : a = b := by
  have hhash : a.hash = b.hash := by rw [a.hash_eq, b.hash_eq, h]
  cases a; cases b
  cases h; cases hhash
  rfl

theorem recognizes_read : Header.read.Recognizes fun h bytes ↦ bytes = h.pack where
  reads := by
    rintro h _ rfl
    simp only [pack, Draft.pack, List.append_assoc]
    refine (reads_u32 _).bind (h.previousBlock.reads_read.bind (h.merkleRoot.reads_read.bind ?_))
    refine (reads_u32 _).bind ((reads_u32 _).bind ((reads_u32 _).bind_nil ?_))
    rw [show h = Draft.seal h.toDraft from ext_draft rfl]
    exact Reads.pure _
  accepts hread := by
    obtain ⟨version, _, hversion, hread⟩ := bind_eq_ok hread
    obtain ⟨previous, _, hprevious, hread⟩ := bind_eq_ok hread
    obtain ⟨merkleRoot, _, hroot, hread⟩ := bind_eq_ok hread
    obtain ⟨timestamp, _, htimestamp, hread⟩ := bind_eq_ok hread
    obtain ⟨bits, _, hbits, hread⟩ := bind_eq_ok hread
    obtain ⟨nonce, _, hnonce, hread⟩ := bind_eq_ok hread
    cases hread
    obtain ⟨_, rfl, rfl⟩ := recognizes_u32.accepts hversion
    obtain ⟨_, rfl, rfl⟩ := Digest.recognizes_read.accepts hprevious
    obtain ⟨_, rfl, rfl⟩ := Digest.recognizes_read.accepts hroot
    obtain ⟨_, rfl, rfl⟩ := recognizes_u32.accepts htimestamp
    obtain ⟨_, rfl, rfl⟩ := recognizes_u32.accepts hbits
    obtain ⟨_, rfl, rfl⟩ := recognizes_u32.accepts hnonce
    exact ⟨_, rfl, by simp only [pack, Draft.seal, Draft.pack, List.append_assoc]⟩

theorem takes_read : Header.read.Takes headerSize fun _ ↦ True := by
  have hread : Header.read.Takes (4 + (32 + (32 + (4 + (4 + (4 + 0)))))) fun _ ↦ True :=
    takes_u32.bind fun _ _ ↦ Digest.takes_read.bind fun _ _ ↦ Digest.takes_read.bind fun _ _ ↦
      takes_u32.bind fun _ _ ↦ takes_u32.bind fun _ _ ↦ takes_u32.bind fun _ _ ↦
        Takes.pure trivial
  exact hread

end Bitcoin.Header

/-! ## Changes -/

theorem ChainName.magic_of_ofMagic? {magic : List UInt8} {c : ChainName}
    (h : ofMagic? magic = some c) : magic = c.magic := by
  unfold ofMagic? at h
  split at h
  · cases h
    assumption
  · split at h
    · cases h
      assumption
    · cases h

theorem Operation.tag_of_ofTag? {tag : UInt8} {o : Operation} (h : ofTag? tag = some o) :
    tag = o.tag := by
  unfold ofTag? at h
  split at h
  · cases h
    assumption
  · split at h
    · cases h
      assumption
    · split at h
      · cases h
        assumption
      · cases h

namespace Change

/-- The lengths of the values can be written in four bytes. -/
def Fits (c : Change) : Prop := c.oldValue.length < 2 ^ 32 ∧ c.newValue.length < 2 ^ 32

instance (c : Change) : Decidable c.Fits := inferInstanceAs (Decidable (_ ∧ _))

theorem recognizes_readChain : readChain.Recognizes fun c bytes ↦ bytes = c.magic where
  reads := by
    rintro c _ rfl
    refine (reads_take_of_length c.length_magic).bind_nil ?_
    rw [ChainName.ofMagic?_magic]
    exact Reads.pure c
  accepts h := by
    obtain ⟨magic, _, htake, h⟩ := bind_eq_ok h
    cases hchain : ChainName.ofMagic? magic with
    | none =>
      rw [hchain] at h
      cases h
    | some chain =>
      rw [hchain] at h
      cases h
      exact ⟨_, rfl, ChainName.magic_of_ofMagic? hchain ▸ (take_eq_ok htake).2⟩

theorem recognizes_readOperation :
    readOperation.Recognizes fun o bytes ↦ bytes = BigEndian.u8 o.tag where
  reads := by
    rintro o _ rfl
    refine (reads_u8 o.tag).bind_nil ?_
    rw [Operation.ofTag?_tag]
    exact Reads.pure o
  accepts h := by
    obtain ⟨tag, _, htag, h⟩ := bind_eq_ok h
    cases hoperation : Operation.ofTag? tag with
    | none =>
      rw [hoperation] at h
      cases h
    | some operation =>
      rw [hoperation] at h
      cases h
      rw [Operation.tag_of_ofTag? hoperation] at htag
      exact recognizes_u8.accepts htag

theorem recognizes_readValue : readValue.Recognizes fun value bytes ↦
    value.length < 2 ^ 32 ∧ bytes = encode 4 value.length ++ value where
  reads := by
    rintro value _ ⟨hlt, rfl⟩
    have hlength : (UInt32.ofNat value.length).toNat = value.length :=
      UInt32.toNat_ofNat_of_lt' hlt
    have hsize := reads_u32 (UInt32.ofNat value.length)
    rw [BigEndian.u32, hlength] at hsize
    exact hsize.bind (reads_take_of_length hlength.symm)
  accepts h := by
    obtain ⟨size, _, hsize, htake⟩ := bind_eq_ok h
    obtain ⟨_, rfl, rfl⟩ := recognizes_u32.accepts hsize
    obtain ⟨hlength, rfl⟩ := take_eq_ok htake
    refine ⟨_, ⟨hlength ▸ size.toNat_lt, rfl⟩, ?_⟩
    rw [hlength, BigEndian.u32, List.append_assoc]

theorem recognizes_read : Change.read.Recognizes fun c bytes ↦ c.Fits ∧ bytes = c.pack where
  reads := by
    rintro c _ ⟨⟨hold, hnew⟩, rfl⟩
    rw [pack, List.append_assoc _ (encode 4 c.newValue.length),
      List.append_assoc _ (encode 4 c.oldValue.length), List.append_assoc, List.append_assoc]
    refine (recognizes_readChain.reads rfl).bind ((recognizes_readOperation.reads rfl).bind ?_)
    refine (recognizes_readValue.reads ⟨hold, rfl⟩).bind ?_
    exact (recognizes_readValue.reads ⟨hnew, rfl⟩).bind_nil (Reads.pure c)
  accepts h := by
    obtain ⟨chain, _, hchain, h⟩ := bind_eq_ok h
    obtain ⟨operation, _, hoperation, h⟩ := bind_eq_ok h
    obtain ⟨oldValue, _, hold, h⟩ := bind_eq_ok h
    obtain ⟨newValue, _, hnew, h⟩ := bind_eq_ok h
    cases h
    obtain ⟨_, rfl, rfl⟩ := recognizes_readChain.accepts hchain
    obtain ⟨_, rfl, rfl⟩ := recognizes_readOperation.accepts hoperation
    obtain ⟨_, ⟨hlt, rfl⟩, rfl⟩ := recognizes_readValue.accepts hold
    obtain ⟨_, ⟨hlt', rfl⟩, rfl⟩ := recognizes_readValue.accepts hnew
    exact ⟨_, ⟨⟨hlt, hlt'⟩, rfl⟩, by simp only [pack, List.append_assoc]⟩

end Change

end EndorsedChain
