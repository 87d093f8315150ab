import EndorsedChain.Index.Rewind
import EndorsedChain.Proofs.Bytes.Reads
import EndorsedChain.Proofs.Hash.Agreement

/-!
# Reading packed entries back

The references of a header have their final sizes, so sealing it again changes nothing
(`Header.seal_toDraft`), and a packed entry is read back as it was, its hash included.
-/

namespace EndorsedChain

open Reader

theorem Digest.reads_read (d : Digest) : Digest.read.Reads d.pack d := by
  refine (reads_take_of_length d.length_eq).bind_nil (Reads.ofExcept ?_)
  rw [Digest.ofBytes, dif_pos d.length_eq]
  rfl

theorem MerkleRoot.reads_read (m : MerkleRoot) : MerkleRoot.read.Reads m.bytes m := by
  intro rest
  have hlen := m.length_eq
  unfold MerkleRoot.read
  rw [dif_neg (by rw [List.length_append]; omega)]
  have htake : (m.bytes ++ rest).take 16 = m.bytes := List.take_left' hlen
  have hdrop : (m.bytes ++ rest).drop 16 = rest := List.drop_left' hlen
  simp only [htake, hdrop]

theorem VBlake.reads_readFixed {h : VBlake} {size : Nat} (hsize : h.length = size) :
    (VBlake.readFixed size).Reads h.bytes h := by
  refine (reads_take_of_length hsize).bind_nil (Reads.ofExcept ?_)
  rw [VBlake.ofBytes, dif_pos ⟨h.length_pos, h.length_le⟩]
  rfl

namespace VeriBlock

theorem Header.seal_toDraft (h : Header) : h.toDraft.seal = .ok h := by
  unfold Draft.seal
  rw [dif_neg (by rw [h.length_previousBlock]; decide),
    dif_neg (by rw [h.length_previousKeystone]; decide),
    dif_neg (by rw [h.length_secondPreviousKeystone]; decide)]
  have h₁ : h.previousBlock.toPrevious = h.previousBlock :=
    VBlake.trim_of_le (Nat.le_of_eq h.length_previousBlock)
  have h₂ : h.previousKeystone.toKeystone = h.previousKeystone :=
    VBlake.trim_of_le (Nat.le_of_eq h.length_previousKeystone)
  have h₃ : h.secondPreviousKeystone.toKeystone = h.secondPreviousKeystone :=
    VBlake.trim_of_le (Nat.le_of_eq h.length_secondPreviousKeystone)
  refine congrArg Except.ok (Header.ext_draft ?_)
  simp only [h₁, h₂, h₃]

theorem Header.reads_read (h : Header) : Header.read.Reads h.pack h := by
  simp only [Header.pack, Draft.pack, List.append_assoc]
  refine (reads_u32 _).bind ((reads_u16 _).bind ?_)
  refine (VBlake.reads_readFixed h.length_previousBlock).bind ?_
  refine (VBlake.reads_readFixed h.length_previousKeystone).bind ?_
  refine (VBlake.reads_readFixed h.length_secondPreviousKeystone).bind ?_
  refine (MerkleRoot.reads_read _).bind ((reads_u32 _).bind ((reads_u32 _).bind ?_))
  refine (reads_u32 _).bind_nil (Reads.ofExcept ?_)
  exact congrArg (Except.mapError _) h.seal_toDraft

theorem Entry.reads_read {e : Entry} {bytes : List UInt8} (h : e.pack? = some bytes) :
    Entry.read.Reads bytes e := by
  simp only [Entry.pack?, Option.bind_eq_bind, Option.bind_eq_some_iff] at h
  obtain ⟨work, hwork, hbytes⟩ := h
  cases hbytes
  rw [List.append_assoc]
  refine e.header.reads_read.bind ((reads_sized hwork).bind ?_)
  have hentry : (⟨e.header, BigEndian.decode (BigEndian.minimal e.work), e.proof⟩ : Entry) = e := by
    rw [BigEndian.decode_minimal]
  refine (Digest.reads_read e.proof).bind_nil ?_
  rw [hentry]
  exact Reads.pure e

end VeriBlock

/-- The values of a journaled change are the entries that were packed. -/
theorem decodeEntry_of_pack {e : VeriBlock.Entry} {bytes : List UInt8}
    (h : e.pack? = some bytes) : decodeEntry bytes = .ok e := by
  rw [decodeEntry, (VeriBlock.Entry.reads_read h).readAll]
  rfl

end EndorsedChain
