import EndorsedChain.Bytes.BigEndian
import EndorsedChain.Bytes.Hex
import EndorsedChain.Bytes.Reader
import EndorsedChain.Difficulty.Compact
import EndorsedChain.Difficulty.Retarget
import EndorsedChain.Document.Layout
import EndorsedChain.Document.Reading
import EndorsedChain.Document.Rendering
import EndorsedChain.Entry.Bitcoin
import EndorsedChain.Entry.VeriBlock
import EndorsedChain.Hash.Blake2b
import EndorsedChain.Hash.Digest
import EndorsedChain.Hash.Error
import EndorsedChain.Hash.Sha256
import EndorsedChain.Hash.VBlake
import EndorsedChain.Header.Bitcoin
import EndorsedChain.Header.VeriBlock
import EndorsedChain.Index.Add
import EndorsedChain.Index.Basic
import EndorsedChain.Index.Checks
import EndorsedChain.Index.Error
import EndorsedChain.Index.Fork
import EndorsedChain.Index.Overlay
import EndorsedChain.Index.Proof
import EndorsedChain.Index.Rewind
import EndorsedChain.Index.Speculate
import EndorsedChain.Journal.Auditor
import EndorsedChain.Journal.Change
import EndorsedChain.Journal.Edit
import EndorsedChain.Network.Document
import EndorsedChain.Network.Parameters
import EndorsedChain.Proofs.Bytes.Reads
import EndorsedChain.Proofs.Bytes.Recognizes
import EndorsedChain.Proofs.Difficulty.Steady
import EndorsedChain.Proofs.Entry.Packing
import EndorsedChain.Proofs.Fork.Descent
import EndorsedChain.Proofs.Fork.Freshness
import EndorsedChain.Proofs.Fork.Halting
import EndorsedChain.Proofs.Fork.Scoring
import EndorsedChain.Proofs.Hash.Agreement
import EndorsedChain.Proofs.Index.AnyOrder
import EndorsedChain.Proofs.Index.Congruence
import EndorsedChain.Proofs.Index.Mirror
import EndorsedChain.Proofs.Index.Mutates
import EndorsedChain.Proofs.Index.ProofHeight
import EndorsedChain.Proofs.Index.Reachable
import EndorsedChain.Proofs.Index.Search
import EndorsedChain.Proofs.Index.Steady
import EndorsedChain.Proofs.Index.Temporary
import EndorsedChain.Proofs.Index.Works
import EndorsedChain.Proofs.Journal.Packable
import EndorsedChain.Proofs.Journal.Undo
import EndorsedChain.Proofs.Packed.Entries
import EndorsedChain.Proofs.Packed.Forms
import EndorsedChain.Proofs.Packed.Kinds
import EndorsedChain.Proofs.Reward.Checked
import EndorsedChain.Proofs.Reward.Decimal
import EndorsedChain.Proofs.Reward.Endorsements
import EndorsedChain.Proofs.Reward.Split
import EndorsedChain.Proofs.Reward.Tariff
import EndorsedChain.Proofs.Sample.Branches
import EndorsedChain.Proofs.Sample.Leaps
import EndorsedChain.Proofs.Sample.Openings
import EndorsedChain.Proofs.Sample.Steady
import EndorsedChain.Proofs.Session.Ancestry
import EndorsedChain.Proofs.Session.Archive
import EndorsedChain.Proofs.Session.Backed
import EndorsedChain.Proofs.Session.Basic
import EndorsedChain.Proofs.Session.Bootstrap
import EndorsedChain.Proofs.Session.ForkChoice
import EndorsedChain.Proofs.Session.Heights
import EndorsedChain.Proofs.Session.Known
import EndorsedChain.Proofs.Session.Refusal
import EndorsedChain.Proofs.Session.Rewind
import EndorsedChain.Proofs.Session.Rooted
import EndorsedChain.Proofs.Session.Speculation
import EndorsedChain.Proofs.Session.Tip
import EndorsedChain.Proofs.Store.Buckets
import EndorsedChain.Proofs.Store.Distinct
import EndorsedChain.Proofs.Store.Listing
import EndorsedChain.Reward.Amount
import EndorsedChain.Reward.Config
import EndorsedChain.Reward.Curve
import EndorsedChain.Reward.Decimal
import EndorsedChain.Reward.Document
import EndorsedChain.Reward.Endorsements
import EndorsedChain.Reward.Error
import EndorsedChain.Reward.Payout
import EndorsedChain.Reward.Round
import EndorsedChain.Sample.BitcoinChain
import EndorsedChain.Sample.VeriBlockChain
import EndorsedChain.Store.Basic
import EndorsedChain.Store.Linked
import EndorsedChain.Store.Walk
import EndorsedChain.Yaml.Atom
import EndorsedChain.Yaml.Binary64
import EndorsedChain.Yaml.Cursor
import EndorsedChain.Yaml.Node
import EndorsedChain.Yaml.Scalar
import EndorsedChain.Yaml.Token
import EndorsedChain.Proofs.Fork.Asymmetry
import EndorsedChain.Proofs.Journal.Redo
import EndorsedChain.Proofs.Session.Replay
import EndorsedChain.Proofs.Index.Discard
import EndorsedChain.Proofs.Index.Survival
import EndorsedChain.Proofs.Index.Earliest
import EndorsedChain.Proofs.Index.HeadWork
import EndorsedChain.Proofs.Journal.Ledger
import EndorsedChain.Proofs.Reward.Positions
import EndorsedChain.Proofs.Reward.Growth
import EndorsedChain.Proofs.Session.Batch
import EndorsedChain.Proofs.Journal.Atomicity
import EndorsedChain.Proofs.Difficulty.Quotient
import EndorsedChain.Proofs.Difficulty.Bounds
import EndorsedChain.Proofs.Difficulty.Rounding
import EndorsedChain.Proofs.Difficulty.Minimum
import EndorsedChain.Proofs.Difficulty.Forms
import EndorsedChain.Proofs.Steps
import EndorsedChain.Proofs.Store.Ancestors
import EndorsedChain.Proofs.Store.BestChain
import EndorsedChain.Proofs.Store.Renewing
import EndorsedChain.Proofs.Index.MedianTime
import EndorsedChain.Proofs.Fork.Tally
import EndorsedChain.Proofs.Session.Keystones
import EndorsedChain.Proofs.Reward.Proportion
import EndorsedChain.Proofs.Reward.Arrival
import EndorsedChain.Proofs.Reward.Periods
import EndorsedChain.Proofs.Reward.Numerals
import EndorsedChain.Proofs.Reward.Rounding
import EndorsedChain.Proofs.Session.Chains
import EndorsedChain.Proofs.Fork.Rounds
import EndorsedChain.Proofs.Hash.Padding
