import EndorsedChain.Proofs.Journal.Packable
import EndorsedChain.Proofs.Packed.Forms

/-!
# The forms of packed entries

An entry is packed as its header, the work behind a length, and one more field.  Reading does not
ask for the shortest work: leading zeros are accepted, and so is zero without any byte.  Packing the
entry again gives its shortest form, and that is the form that was read exactly if its work was
minimal (`FramesWork.frame`).  All other values have one form only, so that what is read is packed
to the same bytes again.
-/

namespace EndorsedChain

open Reader BigEndian

variable {front back bytes : List UInt8} {work : Nat}

/-- The forms of a work between what stands before and behind it. -/
def FramesWork (front back : List UInt8) (work : Nat) (bytes : List UInt8) : Prop :=
  ∃ field packed, packSized? field = some packed ∧ decode field = work ∧
    bytes = front ++ (packed ++ back)

/-- The shortest of them. -/
def frame? (front back : List UInt8) (work : Nat) : Option (List UInt8) :=
  (packSized? (minimal work)).map fun packed ↦ front ++ (packed ++ back)

/-- The bytes of the work in a packed entry whose header has a given size. -/
def workField (headerSize : Nat) (bytes : List UInt8) : List UInt8 :=
  (bytes.drop (headerSize + 1)).take (bytes.getD headerSize 0).toNat

theorem framesWork_of_frame? (h : frame? front back work = some bytes) :
    FramesWork front back work bytes := by
  obtain ⟨packed, hpacked, rfl⟩ := Option.map_eq_some_iff.mp h
  exact ⟨minimal work, packed, hpacked, decode_minimal work, rfl⟩

theorem exists_frame? (front back : List UInt8) (h : Packable work) :
    ∃ bytes, frame? front back work = some bytes ∧ FramesWork front back work bytes := by
  have hle : (minimal work).length ≤ 255 := (length_minimal work).symm ▸ h
  have hframe : frame? front back work =
      some (front ++ (UInt8.ofNat (minimal work).length :: minimal work ++ back)) := by
    rw [frame?, packSized?, if_pos hle]
    rfl
  exact ⟨_, hframe, framesWork_of_frame? hframe⟩

theorem length_le_of_packSized? {field packed : List UInt8} (h : packSized? field = some packed) :
    field.length ≤ 255 ∧ packed = UInt8.ofNat field.length :: field := by
  unfold packSized? at h
  split at h
  · rename_i hle
    exact ⟨hle, (Option.some.inj h).symm⟩
  · cases h

theorem workField_frame {field packed : List UInt8} (h : packSized? field = some packed) :
    workField front.length (front ++ (packed ++ back)) = field := by
  obtain ⟨hle, rfl⟩ := length_le_of_packSized? h
  have hsize : (UInt8.ofNat field.length).toNat = field.length := by
    rw [UInt8.toNat_ofNat', Nat.mod_eq_of_lt (by omega)]
  have hget : (front ++ (UInt8.ofNat field.length :: field ++ back)).getD front.length 0 =
      UInt8.ofNat field.length := by
    rw [List.getD_eq_getElem?_getD, List.getElem?_append_right le_rfl, Nat.sub_self]
    rfl
  rw [workField, hget, hsize, ← List.drop_drop, List.drop_left, List.cons_append,
    List.drop_succ_cons, List.drop_zero, List.take_left]

/-- What has a form has a shortest one.  It is the given one exactly if the work there is
minimal. -/
theorem FramesWork.frame (h : FramesWork front back work bytes) :
    ∃ bytes', frame? front back work = some bytes' ∧
      (bytes' = bytes ↔ IsMinimal (workField front.length bytes)) := by
  obtain ⟨field, packed, hpacked, rfl, rfl⟩ := h
  obtain ⟨hle, hfield⟩ := length_le_of_packSized? hpacked
  have hwidth := width_decode_le field
  have hshort : packSized? (minimal (decode field)) =
      some (UInt8.ofNat (minimal (decode field)).length :: minimal (decode field)) :=
    if_pos (by rw [length_minimal]; omega)
  refine ⟨_, by rw [frame?, hshort]; rfl, ?_⟩
  rw [workField_frame hpacked, ← minimal_decode_eq_iff, hfield]
  constructor
  · intro heq
    exact (List.cons.inj (List.append_cancel_right (List.append_cancel_left heq))).2
  · intro heq
    rw [heq]

/-- What is read in one of the forms is packed to the shortest, which is read as the same value. -/
theorem exists_packed_again {α : Type} {read : Reader α} {pack? : α → Option (List UInt8)}
    {front back : α → List UInt8} {work : α → Nat} {a : α}
    (hread : read.Recognizes fun a ↦ FramesWork (front a) (back a) (work a))
    (hpack : pack? a = frame? (front a) (back a) (work a)) (h : read.readAll bytes = .ok a) :
    ∃ again, pack? a = some again ∧ read.readAll again = .ok a ∧
      (again = bytes ↔ IsMinimal (workField (front a).length bytes)) := by
  obtain ⟨again, hframe, hminimal⟩ := (hread.readAll_eq_ok_iff.mp h).frame
  refine ⟨again, hpack.trans hframe, ?_, hminimal⟩
  exact hread.readAll_eq_ok_iff.mpr (framesWork_of_frame? hframe)

namespace VeriBlock.Entry

theorem pack?_eq_frame? (e : Entry) : e.pack? = frame? e.header.pack e.proof.pack e.work := by
  unfold Entry.pack? frame?
  cases packSized? (minimal e.work) with
  | none => rfl
  | some packed => exact congrArg some (List.append_assoc ..)

theorem recognizes_read : Entry.read.Recognizes fun e bytes ↦
    FramesWork e.header.pack e.proof.pack e.work bytes where
  reads := by
    rintro ⟨header, work, proof⟩ _ ⟨field, packed, hpacked, rfl, rfl⟩
    refine header.reads_read.bind ((reads_sized hpacked).bind ?_)
    exact proof.reads_read.bind_nil (Reads.pure _)
  accepts h := by
    obtain ⟨header, _, hheader, h⟩ := bind_eq_ok h
    obtain ⟨field, _, hfield, h⟩ := bind_eq_ok h
    obtain ⟨proof, _, hproof, h⟩ := bind_eq_ok h
    cases h
    obtain ⟨_, rfl, rfl⟩ := Header.recognizes_read.accepts hheader
    obtain ⟨packed, hpacked, rfl⟩ := recognizes_sized.accepts hfield
    obtain ⟨_, rfl, rfl⟩ := Digest.recognizes_read.accepts hproof
    exact ⟨_, ⟨field, packed, hpacked, rfl, rfl⟩, by simp only [List.append_assoc]⟩

end VeriBlock.Entry

namespace Bitcoin.Entry

theorem pack?_eq_frame? (e : Entry) :
    e.pack? = frame? e.header.pack (BigEndian.u32 e.height) e.work := by
  unfold Entry.pack? frame?
  cases packSized? (minimal e.work) with
  | none => rfl
  | some packed => exact congrArg some (List.append_assoc ..)

theorem recognizes_read : Entry.read.Recognizes fun e bytes ↦
    FramesWork e.header.pack (BigEndian.u32 e.height) e.work bytes where
  reads := by
    rintro ⟨header, work, height⟩ _ ⟨field, packed, hpacked, rfl, rfl⟩
    refine (Header.recognizes_read.reads rfl).bind ((reads_sized hpacked).bind ?_)
    exact (reads_u32 height).bind_nil (Reads.pure _)
  accepts h := by
    obtain ⟨header, _, hheader, h⟩ := bind_eq_ok h
    obtain ⟨field, _, hfield, h⟩ := bind_eq_ok h
    obtain ⟨height, _, hheight, h⟩ := bind_eq_ok h
    cases h
    obtain ⟨_, rfl, rfl⟩ := Header.recognizes_read.accepts hheader
    obtain ⟨packed, hpacked, rfl⟩ := recognizes_sized.accepts hfield
    obtain ⟨_, rfl, rfl⟩ := recognizes_u32.accepts hheight
    exact ⟨_, ⟨field, packed, hpacked, rfl, rfl⟩, by simp only [List.append_assoc]⟩

end Bitcoin.Entry

/-- Exactly the byte strings of their sizes are read as headers.  What is read as a header, a change
or a hash is packed to the same bytes again.  What is read as an entry is packed to bytes that are
read as the same entry, and to the same bytes exactly if its work is minimal there. -/
theorem decoding_accepts_forms (bytes : List UInt8) :
    ((∃ h, VeriBlock.Header.read.readAll bytes = .ok h) ↔ bytes.length = 64) ∧
    (∀ h, VeriBlock.Header.read.readAll bytes = .ok h → h.pack = bytes) ∧
    ((∃ h, Bitcoin.Header.read.readAll bytes = .ok h) ↔ bytes.length = 80) ∧
    (∀ h, Bitcoin.Header.read.readAll bytes = .ok h → h.pack = bytes) ∧
    (∀ c, Change.read.readAll bytes = .ok c → c.pack = bytes) ∧
    (∀ h, VBlake.read.readAll bytes = .ok h → h.pack = bytes) ∧
    (∀ e, VeriBlock.Entry.read.readAll bytes = .ok e →
      ∃ again, e.pack? = some again ∧ VeriBlock.Entry.read.readAll again = .ok e ∧
        (again = bytes ↔ IsMinimal (workField 64 bytes))) ∧
    (∀ e, Bitcoin.Entry.read.readAll bytes = .ok e →
      ∃ again, e.pack? = some again ∧ Bitcoin.Entry.read.readAll again = .ok e ∧
        (again = bytes ↔ IsMinimal (workField 80 bytes))) := by
  refine ⟨?_, ?_, ?_, ?_, ?_, ?_, ?_, ?_⟩
  · refine VeriBlock.Header.takes_read.exists_readAll_iff VeriBlock.Header.recognizes_read ?_
    rintro h _ rfl
    exact h.length_pack
  · exact fun h hread ↦ (VeriBlock.Header.recognizes_read.readAll_eq_ok_iff.mp hread).symm
  · refine Bitcoin.Header.takes_read.exists_readAll_iff Bitcoin.Header.recognizes_read ?_
    rintro h _ rfl
    exact h.length_pack
  · exact fun h hread ↦ (Bitcoin.Header.recognizes_read.readAll_eq_ok_iff.mp hread).symm
  · exact fun c hread ↦ (Change.recognizes_read.readAll_eq_ok_iff.mp hread).2.symm
  · exact fun h hread ↦ (VBlake.recognizes_read.readAll_eq_ok_iff.mp hread).symm
  · intro e hread
    have hagain := exists_packed_again VeriBlock.Entry.recognizes_read e.pack?_eq_frame? hread
    rwa [e.header.length_pack] at hagain
  · intro e hread
    have hagain := exists_packed_again Bitcoin.Entry.recognizes_read e.pack?_eq_frame? hread
    rwa [e.header.length_pack] at hagain

/-- The placeholder, with a zero before its work. -/
def paddedPlaceholder : List UInt8 :=
  Edit.placeholder.header.pack ++ ([2, 0, 1] ++ Digest.zero.pack)

/-- The zero is accepted, and gone when the placeholder is packed again. -/
theorem padding_is_dropped :
    VeriBlock.Entry.read.readAll paddedPlaceholder = .ok Edit.placeholder ∧
      ∃ again, Edit.placeholder.pack? = some again ∧
        VeriBlock.Entry.read.readAll again = .ok Edit.placeholder ∧ again ≠ paddedPlaceholder := by
  have hread : VeriBlock.Entry.read.readAll paddedPlaceholder = .ok Edit.placeholder :=
    VeriBlock.Entry.recognizes_read.readAll_eq_ok_iff.mpr ⟨[0, 1], [2, 0, 1], rfl, rfl, rfl⟩
  obtain ⟨-, -, -, -, -, -, hentry, -⟩ := decoding_accepts_forms paddedPlaceholder
  obtain ⟨again, hpack, hagain, hminimal⟩ := hentry _ hread
  have hpadded : ¬IsMinimal (workField 64 paddedPlaceholder) := by decide
  exact ⟨hread, again, hpack, hagain, fun heq ↦ hpadded (hminimal.mp heq)⟩

end EndorsedChain
