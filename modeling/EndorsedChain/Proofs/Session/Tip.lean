import EndorsedChain.Proofs.Sample.Openings
import EndorsedChain.Proofs.Session.Rooted

/-!
# The head is a tip

A header becomes the head when it is stored, or by taking back what came after it.  Nothing stored
can come right after a header that is new, and what is stored right after the head becomes the
head.  Both are read off the mutations that back a store, so that rewinds and whatever is done
temporarily need no argument of their own.
-/

namespace EndorsedChain

open VeriBlock

variable {known : Set Header} {s t : Store Entry VBlake} {e p q x : Entry} {o : Header}
  {ref : VBlake} {edits : List Edit} {changes more : List Change} {journal : List (List Change)}

/-- What was found before has the same hash as what is found now. -/
theorem Store.Keeps.hash_eq (h : Store.Keeps s t) (hp : s.get ref = some p)
    (hq : t.get ref = some q) : q.hash = p.hash := by
  obtain ⟨y, hy, halike⟩ := h ref p hp
  rw [hq, Option.some.injEq] at hy
  subst hy
  exact congrArg Header.hash halike.header.symm

/-- Attaching proofs stores no new header. -/
theorem Proves.header_mem (hs : s.Holds known) (h : Proves s edits t) (hx : x ∈ t.blocks) :
    ∃ y ∈ s.blocks, y.header = x.header := by
  refine h.preserves (P := fun t ↦ ∀ x ∈ t.blocks, ∃ y ∈ s.blocks, y.header = x.header)
    (fun {t prior} proof ht hprior hsub x hx ↦ ?_) hs (fun x hx ↦ ⟨x, hx, rfl⟩) x hx
  rcases (Edit.mem_setProof ht.keyed hprior proof).mp hx with rfl | ⟨hx, -⟩
  · exact hsub prior hprior
  · exact hsub x hx

/-- No stored header comes right after the head, unless it is the given one. -/
def Tipped (o : Header) (s : Store Entry VBlake) : Prop :=
  ∀ e ∈ s.blocks, e.header ≠ o → ∀ p, s.get e.header.previousBlock = some p →
    s.headId ≠ some p.hash

namespace Tipped

theorem of_blocks_eq_nil (h : s.blocks = []) : Tipped o s :=
  fun _ he ↦ absurd he (h ▸ List.not_mem_nil)

theorem of_same (hk : KeysDistinct known) (h : Tipped o s) (hs : s.Holds known)
    (ht : t.Holds known) (hsame : Store.Same t s) : Tipped o t := by
  intro e he hne p hget
  rw [hsame.get hk ht hs] at hget
  rw [hsame.headId]
  exact h e (hsame.mem_iff.mp he) hne p hget

theorem setProof (hk : KeysDistinct known) (hs : s.Holds known) (hrooted : Rooted o s)
    (h : Tipped o s) {prior : Entry} (hprior : prior ∈ s.blocks) (proof : Digest) :
    Tipped o ((Edit.setProof prior { prior with proof }).apply s) := by
  intro e he hne q hq
  obtain ⟨x, hx, hheader⟩ : ∃ x ∈ s.blocks, x.header = e.header := by
    rcases (Edit.mem_setProof hs.keyed hprior proof).mp he with rfl | ⟨he, -⟩
    · exact ⟨prior, hprior, rfl⟩
    · exact ⟨e, he, rfl⟩
  rw [← hheader] at hne hq
  obtain ⟨p, -, hp, -⟩ := hrooted.parent x hx hne
  have hkeeps := Store.keeps_replace hk hs (e := { prior with proof }) hprior ⟨rfl, rfl⟩
  rw [hkeeps.hash_eq hp hq]
  exact h x hx hne p hp

theorem proves (hk : KeysDistinct known) (hs : s.Holds known) (hrooted : Rooted o s)
    (h : Tipped o s) (hproves : Proves s edits t) : Tipped o t :=
  (hproves.preserves (P := fun s ↦ Rooted o s ∧ Tipped o s)
    (fun proof hs hprior hP ↦
      ⟨hP.1.setProof hk hs hprior proof, hP.2.setProof hk hs hP.1 hprior proof⟩)
    hs ⟨hrooted, h⟩).2

/-- A new header that does not come right after the head. -/
theorem put (hk : KeysDistinct known) (hs : s.Holds known) (hrooted : Rooted o s) (h : Tipped o s)
    (hfits : (Edit.addBlock e).Fits known s) (hprevious : s.get e.header.previousBlock = some p)
    (hstays : s.headId ≠ some p.hash) : Tipped o (s.put e) := by
  cases hfits with
  | addBlock hknown _ hfresh =>
    have hkeeps := Store.keeps_put hk hs hknown hfresh
    intro x hx hne q hq
    rcases (Store.mem_blocks_put hs.keyed).mp hx with rfl | ⟨hx, -⟩
    · rw [hkeeps.hash_eq hprevious hq]
      exact hstays
    · obtain ⟨p, -, hp, -⟩ := hrooted.parent x hx hne
      rw [hkeeps.hash_eq hp hq]
      exact h x hx hne p hp

/-- A new header has nothing after it, so the head can move to it. -/
theorem promote (hk : KeysDistinct known) (hs : s.Holds known) (hrooted : Rooted o s)
    (hfits : (Edit.addBlock e).Fits known s) (hprevious : s.get e.header.previousBlock = some p)
    (hproves : Proves (s.put e) edits t) :
    Tipped o ({ t with headId := some e.hash } : Store Entry VBlake) := by
  cases hfits with
  | addBlock hknown _ hfresh =>
    have hkeeps : Store.Keeps s t :=
      (Store.keeps_put hk hs hknown hfresh).trans (hproves.keeps hk (hs.put hknown))
    intro x hx hne q hq hid
    -- whatever comes before a stored header was there before the new one
    obtain ⟨y, hy, hyget⟩ : ∃ y ∈ s.blocks, s.get x.header.previousBlock = some y := by
      obtain ⟨z, hz, hheader⟩ := hproves.header_mem (hs.put hknown) hx
      rw [← hheader] at hne ⊢
      rcases (Store.mem_blocks_put hs.keyed).mp hz with rfl | ⟨hz, -⟩
      · exact ⟨p, Store.get_mem hs.keyed hprevious, hprevious⟩
      · obtain ⟨y, -, hy, -⟩ := hrooted.parent z hz hne
        exact ⟨y, Store.get_mem hs.keyed hy, hy⟩
    exact hfresh y hy ((hkeeps.hash_eq hyget hq).symm.trans (Option.some.inj hid).symm)

/-- A store that holds a single header. -/
theorem first (hempty : s.blocks = []) (hs : s.Holds known) (hknown : e.header ∈ known)
    (hproves : Proves (s.put e) edits t) (headId : Option VBlake) :
    Tipped e.header ({ t with headId } : Store Entry VBlake) := by
  intro x hx hne
  obtain ⟨y, hy, hheader⟩ := hproves.header_mem (hs.put hknown) hx
  rcases (Store.mem_blocks_put hs.keyed).mp hy with rfl | ⟨hy, -⟩
  · exact absurd hheader.symm hne
  · exact absurd hy (hempty ▸ List.not_mem_nil)

/-- What a mutation does to a store that grew from the first header of a journal. -/
theorem mutates (hk : KeysDistinct known) (hs : s.Headed known) (hmutates : Mutates known s edits t)
    (hrooted : RootedBy changes s) (h : ∀ o, originOf? changes = some o → Tipped o s)
    (hmore : edits.mapM Edit.toChange? = some more) :
    ∀ o, originOf? (changes ++ more) = some o → Tipped o t := by
  have hgrown {e : Entry} (he : e ∈ s.blocks) :
      ∃ o, originOf? (changes ++ more) = some o ∧ Rooted o s ∧ Tipped o s := by
    obtain ⟨o, horigin, hrooted⟩ := hrooted.rooted he
    exact ⟨o, originOf?_append horigin more, hrooted, h o horigin⟩
  intro o ho
  cases hmutates with
  | prove hproves =>
    by_cases hempty : s.blocks = []
    · refine of_blocks_eq_nil (List.eq_nil_iff_forall_not_mem.mpr fun x hx ↦ ?_)
      obtain ⟨y, hy, -⟩ := hproves.header_mem hs.toHolds hx
      exact List.not_mem_nil (hempty ▸ hy)
    · obtain ⟨e, he⟩ := List.exists_mem_of_ne_nil _ hempty
      obtain ⟨o', ho', hrooted, h⟩ := hgrown he
      obtain rfl : o' = o := Option.some.inj (ho'.symm.trans ho)
      exact h.proves hk hs.toHolds hrooted hproves
  | store hfits hadmits hhead hstays hproves =>
    cases hadmits with
    | first hnone => exact absurd hnone hhead
    | next _ hprevious hheader hwork =>
      obtain ⟨o', ho', hrooted, h⟩ := hgrown (Store.get_mem hs.keyed hprevious)
      obtain rfl : o' = o := Option.some.inj (ho'.symm.trans ho)
      have hput : (s.put _).Holds known := (hfits.apply_sound hs.toSound).toHolds
      exact (h.put hk hs.toHolds hrooted hfits hprevious (hstays _ hprevious)).proves hk hput
        (hrooted.put hk hs.toHolds hfits hprevious hheader hwork) hproves
  | promote hfits hadmits hproves =>
    cases hadmits with
    | first _ hempty =>
      obtain rfl := hrooted.eq_nil hempty
      obtain rfl := Option.some.inj (ho.symm.trans (originOf?_addBlock hmore))
      cases hfits with
      | addBlock hknown => exact first hempty hs.toHolds hknown hproves _
    | next _ hprevious =>
      obtain ⟨o', ho', hrooted, -⟩ := hgrown (Store.get_mem hs.keyed hprevious)
      obtain rfl : o' = o := Option.some.inj (ho'.symm.trans ho)
      exact promote hk hs.toHolds hrooted hfits hprevious hproves

end Tipped

theorem Backed.tipped (hk : KeysDistinct known) (h : Backed known journal s) :
    ∀ o, originOf? journal.reverse.flatten = some o → Tipped o s := by
  have hpreserved := h.preserves
    (P := fun changes s ↦ RootedBy changes s ∧ ∀ o, originOf? changes = some o → Tipped o s)
    (fun hblocks ↦ ⟨.inl ⟨rfl, hblocks⟩, nofun⟩)
    (fun hs hmutates hmore hP ↦
      ⟨hP.1.mutates hk hs hmutates hmore, Tipped.mutates hk hs hmutates hP.1 hP.2 hmore⟩)
    fun hs ht hsame hP ↦
      ⟨hP.1.of_same hk hs ht hsame, fun o ho ↦ (hP.2 o ho).of_same hk hs ht hsame⟩
  exact hpreserved.2

namespace Session

/-- No stored header refers to the head as the header before it. -/
theorem head_is_tip {params : NetworkParameters} {calls : List Call} {s : Session}
    (hkeys : KeysDistinct {h | h ∈ calls.flatMap Call.headers})
    (hrun : (start params).run calls = some s)
    (horigin : ∀ o, s.origin? = some o →
      ∀ h ∈ calls.flatMap Call.headers, h.hash.endsWith o.previousBlock = false) :
    ∀ head, s.index.store.head = some head → ∀ b ∈ s.index.store.blocks,
      s.index.store.get b.header.previousBlock ≠ some head := by
  have hbacked : Backed {h | h ∈ calls.flatMap Call.headers} s.journal s.index.store :=
    backed_run (backed_start params) (fun h hh ↦ hh) hrun
  intro head hhead b hb hget
  obtain ⟨o, ho, -⟩ := (hbacked.rootedBy hkeys).rooted hb
  by_cases hbo : b.header = o
  · have hnone := Store.get_eq_none_of_endsWith hkeys hbacked.headed.toHolds
      b.header.previousBlock.length_le (hbo ▸ horigin o ho)
    rw [hget] at hnone
    cases hnone
  · have hid := (hbacked.headed.head_eq_some_iff.mp hhead).2
    exact hbacked.tipped hkeys o ho b hb hbo head hget hid

open Sample in
/-- The third header is stored while the rival of its parent is the head, and again after both were
taken back. -/
def detourCalls : List Call :=
  [.add genesis .zero, .add second .zero, .add rival .zero, .add third .zero, .rewind 2,
    .add third .zero, .addTemporarily rival .zero]

open Sample in
/-- The third header ends up as the head, and nothing comes after it. -/
theorem third_is_tip : ∃ s, (start .testnet).run detourCalls = some s ∧
    s.index.isSpeculating = true ∧ s.index.store.head = some ⟨third, 300000000, .zero⟩ ∧
      ∀ b ∈ s.index.store.blocks,
        s.index.store.get b.header.previousBlock ≠ some ⟨third, 300000000, .zero⟩ := by
  have hmap : ((start .testnet).run detourCalls).map (fun s ↦
      (s.origin?, s.index.isSpeculating, s.index.store.head)) =
        some (some genesis, true, some ⟨third, 300000000, .zero⟩) := by decide +kernel
  obtain ⟨s, hrun, hs⟩ := Option.map_eq_some_iff.mp hmap
  simp only [Prod.mk.injEq] at hs
  obtain ⟨horigin, hspeculating, hhead⟩ := hs
  refine ⟨s, hrun, hspeculating, hhead, head_is_tip (by decide +kernel) hrun ?_ _ hhead⟩
  intro o ho h hh
  rw [horigin, Option.some.injEq] at ho
  subst ho
  revert h
  decide

end Session

end EndorsedChain
