import EndorsedChain.Proofs.Packed.Entries

/-!
# Packed values delimit themselves

Values of all kinds are written one after another without marks between them.  Each is read back
from its packed form in front of whatever follows (`Kind.recognizes_read`), so a sequence of them is
read back in order, given their kinds.
-/

namespace EndorsedChain

open Reader

/-- The kinds of values with a packed form. -/
inductive Kind where
  | vblake
  | digest
  | amount
  | veriBlockHeader
  | bitcoinHeader
  | veriBlockEntry
  | bitcoinEntry
  | change
deriving DecidableEq, Repr

namespace Kind

/-- The values of a kind. -/
@[reducible] def Value : Kind → Type
  | .vblake => VBlake
  | .digest => Digest
  | .amount => Amount
  | .veriBlockHeader => VeriBlock.Header
  | .bitcoinHeader => Bitcoin.Header
  | .veriBlockEntry => VeriBlock.Entry
  | .bitcoinEntry => Bitcoin.Entry
  | .change => Change

def pack? : (k : Kind) → k.Value → Option (List UInt8)
  | .vblake, h => some h.pack
  | .digest, d => some d.pack
  | .amount, a => some a.pack
  | .veriBlockHeader, h => some h.pack
  | .bitcoinHeader, h => some h.pack
  | .veriBlockEntry, e => e.pack?
  | .bitcoinEntry, e => e.pack?
  | .change, c => some c.pack

def read : (k : Kind) → Reader k.Value
  | .vblake => VBlake.read
  | .digest => Digest.read
  | .amount => Amount.read
  | .veriBlockHeader => VeriBlock.Header.read
  | .bitcoinHeader => Bitcoin.Header.read
  | .veriBlockEntry => VeriBlock.Entry.read
  | .bitcoinEntry => Bitcoin.Entry.read
  | .change => Change.read

/-- Whether the lengths in a packed value have room for it: one byte counts the bytes of a work, and
four bytes count those of the values of a change. -/
def Fits : (k : Kind) → k.Value → Prop
  | .veriBlockEntry, e => Packable e.work
  | .bitcoinEntry, e => Packable e.work
  | .change, c => c.Fits
  | _, _ => True

/-- All byte strings that are read as a value. -/
def Form : (k : Kind) → k.Value → List UInt8 → Prop
  | .vblake, h, bytes => bytes = h.pack
  | .digest, d, bytes => bytes = d.pack
  | .amount, a, bytes => bytes = a.pack
  | .veriBlockHeader, h, bytes => bytes = h.pack
  | .bitcoinHeader, h, bytes => bytes = h.pack
  | .veriBlockEntry, e, bytes => FramesWork e.header.pack e.proof.pack e.work bytes
  | .bitcoinEntry, e, bytes => FramesWork e.header.pack (BigEndian.u32 e.height) e.work bytes
  | .change, c, bytes => c.Fits ∧ bytes = c.pack

theorem recognizes_read (k : Kind) : k.read.Recognizes k.Form := by
  cases k with
  | vblake => exact VBlake.recognizes_read
  | digest => exact Digest.recognizes_read
  | amount => exact Amount.recognizes_read
  | veriBlockHeader => exact VeriBlock.Header.recognizes_read
  | bitcoinHeader => exact Bitcoin.Header.recognizes_read
  | veriBlockEntry => exact VeriBlock.Entry.recognizes_read
  | bitcoinEntry => exact Bitcoin.Entry.recognizes_read
  | change => exact Change.recognizes_read

/-- What fits is packed to one of its forms. -/
theorem exists_pack? (k : Kind) {x : k.Value} (h : k.Fits x) :
    ∃ bytes, k.pack? x = some bytes ∧ k.Form x bytes := by
  cases k with
  | vblake | digest | amount | veriBlockHeader | bitcoinHeader => exact ⟨_, rfl, rfl⟩
  | change => exact ⟨_, rfl, h, rfl⟩
  | veriBlockEntry =>
    obtain ⟨bytes, hframe, hform⟩ := exists_frame? x.header.pack x.proof.pack h
    exact ⟨bytes, x.pack?_eq_frame?.trans hframe, hform⟩
  | bitcoinEntry =>
    obtain ⟨bytes, hframe, hform⟩ := exists_frame? x.header.pack (BigEndian.u32 x.height) h
    exact ⟨bytes, x.pack?_eq_frame?.trans hframe, hform⟩

end Kind

/-! ## Sequences -/

/-- A value of some kind. -/
abbrev Item : Type := (k : Kind) × k.Value

/-- The packed forms one after another. -/
def packEach? : List Item → Option (List UInt8)
  | [] => some []
  | ⟨k, x⟩ :: items => do return (← k.pack? x) ++ (← packEach? items)

/-- Reads values of the given kinds one after another. -/
def readEach : List Kind → Reader (List Item)
  | [] => return []
  | k :: kinds => do
    let x ← k.read
    let items ← readEach kinds
    return ⟨k, x⟩ :: items

theorem reads_readEach {items : List Item} (h : ∀ i ∈ items, i.1.Fits i.2) :
    ∃ bytes, packEach? items = some bytes ∧ (readEach (items.map (·.1))).Reads bytes items := by
  induction items with
  | nil => exact ⟨[], rfl, Reads.pure []⟩
  | cons i items ih =>
    obtain ⟨k, x⟩ := i
    rw [List.forall_mem_cons] at h
    obtain ⟨first, hfirst, hform⟩ := k.exists_pack? h.1
    obtain ⟨others, hothers, hreads⟩ := ih h.2
    refine ⟨first ++ others, by rw [packEach?, hfirst, hothers]; rfl, ?_⟩
    exact (k.recognizes_read.reads hform).bind (hreads.bind_nil (Reads.pure _))

/-- A packed value is read back in front of whatever follows, which is left unread.  So it is read
back where it is all there is, it is refused where it is cut short or continued, different values
are packed to different bytes, and values packed one after another are read back in order. -/
theorem packed_values_delimit :
    (∀ (k : Kind) (x : k.Value), k.Fits x → ∃ bytes, k.pack? x = some bytes ∧
      (∀ rest, k.read (bytes ++ rest) = (.ok x, rest)) ∧
      k.read.readAll bytes = .ok x ∧
      (∀ front, front <+: bytes → front ≠ bytes → ∃ e, k.read.readAll front = .error e) ∧
      ∀ rest, rest ≠ [] →
        k.read.readAll (bytes ++ rest) = .error (.unconsumedData rest.length)) ∧
    (∀ (k : Kind) (x y : k.Value), k.Fits x → k.Fits y → k.pack? x = k.pack? y → x = y) ∧
    ∀ items : List Item, (∀ i ∈ items, i.1.Fits i.2) → ∃ bytes, packEach? items = some bytes ∧
      ∀ rest, readEach (items.map (·.1)) (bytes ++ rest) = (.ok items, rest) := by
  refine ⟨fun k x hfits ↦ ?_, fun k x y hx hy heq ↦ ?_, fun items hfits ↦ reads_readEach hfits⟩
  · obtain ⟨bytes, hpack, hform⟩ := k.exists_pack? hfits
    have hread := k.recognizes_read
    exact ⟨bytes, hpack, hread.reads hform, hread.readAll_eq_ok_iff.mpr hform,
      fun front ↦ hread.readAll_of_prefix hform, fun rest ↦ hread.readAll_append hform⟩
  · obtain ⟨bytes, hpack, hform⟩ := k.exists_pack? hx
    obtain ⟨bytes', hpack', hform'⟩ := k.exists_pack? hy
    rw [hpack, hpack', Option.some.injEq] at heq
    exact k.recognizes_read.eq_of_form hform (heq ▸ hform')

/-- A change, an entry and a hash. -/
def mixedItems : List Item :=
  [⟨.change, ⟨.bitcoin, .setHead, [], [7]⟩⟩, ⟨.veriBlockEntry, Edit.placeholder⟩,
    ⟨.vblake, VBlake.zero.toKeystone⟩]

/-- They are read back, and a byte behind them is left. -/
theorem mixed_items_read_back : ∃ bytes, packEach? mixedItems = some bytes ∧
    readEach [.change, .veriBlockEntry, .vblake] (bytes ++ [0]) = (.ok mixedItems, [0]) := by
  have hfits : ∀ i ∈ mixedItems, i.1.Fits i.2 := by
    rintro i hi
    simp only [mixedItems, List.mem_cons, List.not_mem_nil, or_false] at hi
    rcases hi with rfl | rfl | rfl
    · exact show Change.Fits _ by decide
    · exact show Packable _ by decide
    · exact trivial
  obtain ⟨bytes, hpack, hread⟩ := packed_values_delimit.2.2 mixedItems hfits
  exact ⟨bytes, hpack, hread [0]⟩

end EndorsedChain
