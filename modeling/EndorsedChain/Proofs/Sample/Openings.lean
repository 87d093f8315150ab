import EndorsedChain.Proofs.Sample.Steady
import EndorsedChain.Sample.BitcoinChain

/-!
# How sample chains begin

The first headers of the regular sample chain, and headers that compete with the second and the
third of them; the first headers of a chain with as much work as a header can have; two headers of a
Bitcoin chain, and one that is not on it.  Their hashes are written out.
-/

namespace EndorsedChain.Sample

open VeriBlock

def genesisDraft : Draft where
  height := 0
  version := 2
  previousBlock := VBlake.zero.toPrevious
  previousKeystone := VBlake.zero.toKeystone
  secondPreviousKeystone := VBlake.zero.toKeystone
  merkleRoot :=
    { bytes := [223, 63, 97, 152, 4, 169, 47, 219, 64, 87, 25, 45, 196, 61, 215, 72]
      length_eq := rfl }
  timestamp := genesisTimestamp
  difficulty := defaultDifficulty
  nonce := 0

def genesis : Header where
  toDraft := genesisDraft
  length_previousBlock := rfl
  length_previousKeystone := rfl
  length_secondPreviousKeystone := rfl
  hash :=
    { bytes := [223, 119, 46, 91, 173, 203, 235, 190, 203, 57, 56, 123, 29, 54, 27, 160, 221, 154,
        123, 146, 96, 101, 13, 106]
      length_pos := by decide
      length_le := by decide }
  hash_eq := by decide +kernel

def secondDraft (difficulty salt : UInt32) : Draft where
  height := 1
  version := 2
  previousBlock := genesis.hash.toPrevious
  previousKeystone := VBlake.zero.toKeystone
  secondPreviousKeystone := VBlake.zero.toKeystone
  merkleRoot :=
    { bytes := [180, 7, 17, 168, 140, 112, 57, 117, 111, 184, 167, 56, 39, 234, 190, 44]
      length_eq := rfl }
  timestamp := genesisTimestamp + 30
  difficulty
  nonce := salt

def second : Header where
  toDraft := secondDraft defaultDifficulty 0
  length_previousBlock := rfl
  length_previousKeystone := rfl
  length_secondPreviousKeystone := rfl
  hash :=
    { bytes := [116, 41, 238, 45, 174, 192, 26, 220, 82, 169, 114, 242, 181, 59, 16, 7, 207, 40, 72,
        185, 177, 85, 116, 82]
      length_pos := by decide
      length_le := by decide }
  hash_eq := by decide +kernel

def rival : Header where
  toDraft := secondDraft 0x0505f5e1 1
  length_previousBlock := rfl
  length_previousKeystone := rfl
  length_secondPreviousKeystone := rfl
  hash :=
    { bytes := [184, 255, 190, 65, 54, 240, 100, 100, 91, 210, 208, 216, 251, 235, 41, 29, 18, 10,
        124, 203, 243, 194, 216, 217]
      length_pos := by decide
      length_le := by decide }
  hash_eq := by decide +kernel

/-- As the second header, but on a fork. -/
def twin : Header where
  toDraft := secondDraft defaultDifficulty 1
  length_previousBlock := rfl
  length_previousKeystone := rfl
  length_secondPreviousKeystone := rfl
  hash :=
    { bytes := [103, 16, 133, 248, 23, 56, 93, 133, 101, 175, 143, 126, 46, 247, 93, 77, 171, 86,
        153, 72, 150, 180, 218, 16]
      length_pos := by decide
      length_le := by decide }
  hash_eq := by decide +kernel

def thirdDraft (previousKeystone : VBlake) : Draft where
  height := 2
  version := 2
  previousBlock := second.hash.toPrevious
  previousKeystone
  secondPreviousKeystone := VBlake.zero.toKeystone
  merkleRoot :=
    { bytes := [67, 62, 191, 91, 192, 61, 255, 163, 133, 54, 103, 50, 7, 162, 18, 129]
      length_eq := rfl }
  timestamp := genesisTimestamp + 60
  difficulty := defaultDifficulty
  nonce := 0

def third : Header where
  toDraft := thirdDraft genesis.hash.toKeystone
  length_previousBlock := rfl
  length_previousKeystone := rfl
  length_secondPreviousKeystone := rfl
  hash :=
    { bytes := [2, 30, 88, 244, 199, 82, 237, 114, 212, 81, 55, 66, 116, 192, 120, 23, 15, 45, 246,
        224, 146, 45, 233, 209]
      length_pos := by decide
      length_le := by decide }
  hash_eq := by decide +kernel

/-- As the third header, but with the rival of its parent for a keystone. -/
def impostor : Header where
  toDraft := thirdDraft rival.hash.toKeystone
  length_previousBlock := rfl
  length_previousKeystone := rfl
  length_secondPreviousKeystone := rfl
  hash :=
    { bytes := [19, 63, 11, 220, 100, 17, 93, 179, 40, 226, 187, 38, 126, 59, 111, 171, 128, 178,
        61, 112, 244, 25, 86, 116]
      length_pos := by decide
      length_le := by decide }
  hash_eq := by decide +kernel

/-! ## Headers with the most work -/

def widestDifficulty : UInt32 := 0xff7fffff

def widestGenesis : Header where
  toDraft := { genesisDraft with difficulty := widestDifficulty }
  length_previousBlock := rfl
  length_previousKeystone := rfl
  length_secondPreviousKeystone := rfl
  hash :=
    { bytes := [79, 237, 191, 238, 219, 90, 77, 103, 83, 212, 77, 156, 34, 35, 52, 90, 12, 30, 115,
        204, 204, 160, 133, 247]
      length_pos := by decide
      length_le := by decide }
  hash_eq := by decide +kernel

def widestSecond : Header where
  toDraft :=
    { secondDraft widestDifficulty 0 with previousBlock := widestGenesis.hash.toPrevious }
  length_previousBlock := rfl
  length_previousKeystone := rfl
  length_secondPreviousKeystone := rfl
  hash :=
    { bytes := [115, 56, 210, 76, 148, 29, 91, 92, 215, 44, 220, 108, 4, 164, 168, 249, 43, 14, 100,
        33, 76, 116, 43, 212]
      length_pos := by decide
      length_le := by decide }
  hash_eq := by decide +kernel

def widestThird : Header where
  toDraft :=
    { thirdDraft widestGenesis.hash.toKeystone with
      previousBlock := widestSecond.hash.toPrevious
      difficulty := widestDifficulty }
  length_previousBlock := rfl
  length_previousKeystone := rfl
  length_secondPreviousKeystone := rfl
  hash :=
    { bytes := [179, 93, 217, 6, 6, 32, 150, 76, 121, 222, 46, 220, 52, 237, 198, 77, 157, 56, 208,
        206, 34, 114, 71, 108]
      length_pos := by decide
      length_le := by decide }
  hash_eq := by decide +kernel

/-! ## Bitcoin headers -/

def bitcoinDraft (height : UInt32) (previousBlock merkleRoot : Digest) (nonce : UInt32) :
    Bitcoin.Draft where
  version := 0x20000000
  previousBlock
  merkleRoot
  timestamp := genesisTimestamp + height * 600
  bits := bitcoinBits
  nonce

/-- The merkle root of sample headers at height 100. -/
def hundredthMerkleRoot : Digest where
  bytes := [54, 85, 202, 89, 183, 213, 102, 174, 6, 41, 124, 32, 15, 152, 208, 77, 162, 232, 232,
    152, 18, 214, 39, 188, 41, 41, 124, 37, 219, 96, 54, 45]
  length_eq := rfl

def bitcoinFirst : Bitcoin.Entry where
  header :=
    { toDraft := bitcoinDraft 100 .zero hundredthMerkleRoot 100
      hash :=
        { bytes := [11, 152, 147, 107, 240, 133, 27, 62, 207, 32, 173, 89, 89, 187, 137, 184, 28,
            49, 170, 144, 253, 60, 177, 214, 17, 118, 7, 214, 79, 33, 168, 212]
          length_eq := rfl }
      hash_eq := by decide +kernel }
  work := bitcoinWork
  height := 100

def bitcoinTip : Bitcoin.Entry where
  header :=
    { toDraft := bitcoinDraft 101 bitcoinFirst.hash
        { bytes := [31, 95, 248, 133, 206, 181, 191, 19, 80, 196, 68, 147, 22, 183, 215, 3, 3, 76,
            18, 120, 171, 37, 188, 201, 35, 213, 52, 118, 69, 160, 17, 126]
          length_eq := rfl } 101
      hash :=
        { bytes := [23, 176, 63, 119, 36, 71, 207, 106, 207, 12, 106, 134, 9, 33, 46, 189, 31, 217,
            169, 171, 86, 221, 15, 241, 234, 170, 92, 46, 115, 211, 204, 239]
          length_eq := rfl }
      hash_eq := by decide +kernel }
  work := 2 * bitcoinWork
  height := 101

/-- As low as the first header, but nothing follows it. -/
def bitcoinStray : Bitcoin.Entry where
  header :=
    { toDraft := bitcoinDraft 100 .zero hundredthMerkleRoot 7
      hash :=
        { bytes := [164, 110, 112, 130, 62, 130, 38, 181, 55, 49, 77, 241, 152, 173, 3, 166, 162,
            188, 231, 50, 156, 156, 202, 134, 109, 54, 96, 78, 250, 144, 153, 193]
          length_eq := rfl }
      hash_eq := by decide +kernel }
  work := bitcoinWork
  height := 100

/-! ## Chains -/

def opening : VeriBlockChain := { headers := #[genesis], work := 100000000 }

def regular : VeriBlockChain := { headers := #[genesis, second], work := 200000000 }

def lengthened : VeriBlockChain := { headers := #[genesis, second, third], work := 300000000 }

def forked : VeriBlockChain := { headers := #[genesis, twin], work := 200000000, salt := 1 }

def competing : VeriBlockChain where
  headers := #[genesis, rival]
  work := 25700000000
  difficulty := 0x0505f5e1
  salt := 1

theorem steady_opening : Steady defaultDifficulty opening := by
  have hgrow : ({} : VeriBlockChain).grow? = some opening := by decide +kernel
  exact (Steady.empty 0).grow hgrow

theorem steady_regular : Steady defaultDifficulty regular := by
  have hgrow : opening.grow? = some regular := by decide +kernel
  exact steady_opening.grow hgrow

theorem steady_lengthened : Steady defaultDifficulty lengthened := by
  have hgrow : regular.grow? = some lengthened := by decide +kernel
  exact steady_regular.grow hgrow

theorem steady_forked : Steady defaultDifficulty forked := by
  have hgrow : (opening.fork 1).grow? = some forked := by decide +kernel
  exact (steady_opening.fork 1).grow hgrow

theorem grown_opening : Grown opening := steady_opening.grown

theorem grown_regular : Grown regular := steady_regular.grown

theorem grown_competing : Grown competing := by
  have hgrow : ({ opening.fork 1 with difficulty := 0x0505f5e1 } : VeriBlockChain).grow? =
      some competing := by decide +kernel
  exact ((grown_opening.fork 1).difficulty 0x0505f5e1).grow hgrow

end EndorsedChain.Sample
