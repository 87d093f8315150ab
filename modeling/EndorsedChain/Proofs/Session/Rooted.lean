import EndorsedChain.Proofs.Session.Rewind

/-!
# The tree of stored headers

The stored headers form a tree.  Its root is the first header that was added and not rewound, every
other header has its parent in the store, and works add up along the way from the root.
-/

namespace EndorsedChain

open VeriBlock

variable {known : Set Header} {s t : Store Entry VBlake} {e p prior : Entry} {o : Header}
  {ref : VBlake} {edits : List Edit} {changes more : List Change} {journal : List (List Change)}

/-! ## Rooted stores -/

/-- A reference that no known hash ends with stands for nothing. -/
theorem Store.get_eq_none_of_endsWith (hk : KeysDistinct known) (hs : s.Holds known)
    (href : ref.length ≤ 24) (hends : ∀ h ∈ known, h.hash.endsWith ref = false) :
    s.get ref = none := by
  apply (get_eq_none_iff hk hs).mpr
  intro e he hstands
  have hle : ref.length ≤ e.hash.length := by rwa [Entry.hash, Header.length_hash]
  have htrue := (VBlake.agrees_iff_endsWith hle).mp hstands.2
  rw [Entry.hash, hends e.header (hs.mem_known e he)] at htrue
  cases htrue

/-- All headers but the first one extend the chain of a stored header. -/
structure Rooted (o : Header) (s : Store Entry VBlake) : Prop where
  origin : ∃ e ∈ s.blocks, e.header = o ∧ o.work = .ok e.work
  parent : ∀ e ∈ s.blocks, e.header ≠ o → ∃ p work, s.get e.header.previousBlock = some p ∧
    e.header.work = .ok work ∧ e.work = p.work + work

namespace Rooted

theorem of_same (hk : KeysDistinct known) (h : Rooted o s) (hs : s.Holds known)
    (ht : t.Holds known) (hsame : Store.Same t s) : Rooted o t where
  origin := by
    obtain ⟨e, he, heq⟩ := h.origin
    exact ⟨e, hsame.mem_iff.mpr he, heq⟩
  parent e he hne := by
    obtain ⟨p, work, hget, hwork⟩ := h.parent e (hsame.mem_iff.mp he) hne
    exact ⟨p, work, (hsame.get hk ht hs _).trans hget, hwork⟩

/-- Where the head is does not matter. -/
theorem setHeadId (h : Rooted o s) (headId : Option VBlake) :
    Rooted o ({ s with headId } : Store Entry VBlake) := ⟨h.origin, h.parent⟩

theorem first (hempty : s.blocks = []) (hs : s.Keyed) (hwork : e.header.work = .ok e.work) :
    Rooted e.header (s.put e) where
  origin := ⟨e, (Store.mem_blocks_put hs).mpr (.inl rfl), rfl, hwork⟩
  parent x hx hne := by
    rcases (Store.mem_blocks_put hs).mp hx with rfl | ⟨hx, -⟩
    · exact absurd rfl hne
    · exact absurd hx (hempty ▸ List.not_mem_nil)

theorem put (hk : KeysDistinct known) (hs : s.Holds known) (h : Rooted o s)
    (hfits : (Edit.addBlock e).Fits known s) {work : Nat}
    (hprevious : s.get e.header.previousBlock = some p) (hheader : e.header.work = .ok work)
    (hwork : e.work = p.work + work) : Rooted o (s.put e) := by
  cases hfits with
  | addBlock hknown _ hfresh =>
    constructor
    · obtain ⟨x, hx, hxo, hxwork⟩ := h.origin
      exact ⟨x, (Store.mem_blocks_put hs.keyed).mpr (.inr ⟨hx, hfresh x hx⟩), hxo, hxwork⟩
    · intro x hx hne
      rcases (Store.mem_blocks_put hs.keyed).mp hx with rfl | ⟨hx, -⟩
      · obtain ⟨q, hq, hpq⟩ := Store.keeps_put hk hs hknown hfresh _ p hprevious
        exact ⟨q, work, hq, hheader, hpq.work ▸ hwork⟩
      · obtain ⟨p, work, hget, hheader, hwork⟩ := h.parent x hx hne
        obtain ⟨q, hq, hpq⟩ := Store.keeps_put hk hs hknown hfresh _ p hget
        exact ⟨q, work, hq, hheader, hpq.work ▸ hwork⟩

theorem setProof (hk : KeysDistinct known) (hs : s.Holds known) (hprior : prior ∈ s.blocks)
    (h : Rooted o s) (proof : Digest) :
    Rooted o ((Edit.setProof prior { prior with proof }).apply s) := by
  have hmem {x : Entry} (hx : x ∈ s.blocks) :
      ∃ y ∈ ((Edit.setProof prior { prior with proof }).apply s).blocks,
        y.header = x.header ∧ y.work = x.work := by
    by_cases heq : x = prior
    · subst heq
      exact ⟨_, (Edit.mem_setProof hs.keyed hprior proof).mpr (.inl rfl), rfl, rfl⟩
    · exact ⟨x, (Edit.mem_setProof hs.keyed hprior proof).mpr (.inr ⟨hx, heq⟩), rfl, rfl⟩
  have hparent {x : Entry} (hx : x ∈ s.blocks) (hne : x.header ≠ o) :
      ∃ p work, ((Edit.setProof prior { prior with proof }).apply s).get x.header.previousBlock =
        some p ∧ x.header.work = .ok work ∧ x.work = p.work + work := by
    obtain ⟨p, work, hget, hheader, hwork⟩ := h.parent x hx hne
    obtain ⟨q, hq, hpq⟩ :=
      Store.keeps_replace hk hs (e := { prior with proof }) hprior ⟨rfl, rfl⟩ _ p hget
    exact ⟨q, work, hq, hheader, hpq.work ▸ hwork⟩
  constructor
  · obtain ⟨x, hx, hxo, hxwork⟩ := h.origin
    obtain ⟨y, hy, hheader, hwork⟩ := hmem hx
    exact ⟨y, hy, hheader.trans hxo, hwork ▸ hxwork⟩
  · intro x hx hne
    rcases (Edit.mem_setProof hs.keyed hprior proof).mp hx with rfl | ⟨hx, -⟩
    · exact hparent (x := prior) hprior hne
    · exact hparent hx hne

theorem proves (hk : KeysDistinct known) (hs : s.Holds known) (h : Rooted o s)
    (hproves : Proves s edits t) : Rooted o t :=
  hproves.preserves (fun proof hs hprior h ↦ h.setProof hk hs hprior proof) hs h

/-- Work grows from a header to the next. -/
theorem work_lt (h : Rooted o s) (he : e ∈ s.blocks) (hne : e.header ≠ o)
    (hget : s.get e.header.previousBlock = some p) : p.work < e.work := by
  obtain ⟨q, work, hq, hheader, hwork⟩ := h.parent e he hne
  rw [hget, Option.some.injEq] at hq
  subst hq
  have hpos : 0 < work := Compact.decode_pos hheader
  omega

theorem parent_of_ne (hs : s.Holds known) (h : Rooted o s) {x : Entry} (hx : x ∈ s.blocks)
    (hxo : x.header = o) (he : e ∈ s.blocks) (hne : e ≠ x) :
    ∃ p ∈ s.blocks, ∃ work, s.get e.header.previousBlock = some p ∧ e.header.work = .ok work ∧
      e.work = p.work + work ∧ p.work < e.work := by
  have hneo : e.header ≠ o := fun heq ↦ hne (hs.eq_of_header_eq he hx (heq.trans hxo.symm))
  obtain ⟨p, work, hget, hheader, hwork⟩ := h.parent e he hneo
  exact ⟨p, Store.get_mem hs.keyed hget, work, hget, hheader, hwork, h.work_lt he hneo hget⟩

/-- From every header the first one is reached. -/
theorem walk (hs : s.Holds known) (h : Rooted o s) {x : Entry} (hx : x ∈ s.blocks)
    (hxo : x.header = o) (he : e ∈ s.blocks) :
    ∃ walk : List Entry, walk.head? = some e ∧ walk.getLast? = some x ∧
      walk.IsChain fun b p ↦ s.get b.header.previousBlock = some p ∧ p.work < b.work := by
  induction hwork : e.work using Nat.strong_induction_on generalizing e with
  | _ n ih =>
    by_cases hne : e = x
    · exact ⟨[e], rfl, congrArg some hne, .singleton e⟩
    · obtain ⟨p, hp, -, hget, -, -, hlt⟩ := h.parent_of_ne hs hx hxo he hne
      obtain ⟨walk, hhead, hlast, hchain⟩ := ih p.work (hwork ▸ hlt) hp rfl
      obtain ⟨rest, rfl⟩ := List.head?_eq_some_iff.mp hhead
      exact ⟨e :: p :: rest, rfl, hlast, .cons_cons ⟨hget, hlt⟩ hchain⟩

end Rooted

/-! ## The first header of a journal -/

/-- The header that was stored by the first change. -/
def originOf? (changes : List Change) : Option Header :=
  changes.head?.bind fun c ↦ (decodeEntry c.newValue).toOption.map (·.header)

/-- The store grew from the header that was stored by the first change. -/
def RootedBy (changes : List Change) (s : Store Entry VBlake) : Prop :=
  changes = [] ∧ s.blocks = [] ∨ ∃ o, originOf? changes = some o ∧ Rooted o s

theorem originOf?_append {changes : List Change} (h : originOf? changes = some o)
    (more : List Change) : originOf? (changes ++ more) = some o := by
  cases changes with
  | nil => cases h
  | cons c cs => exact h

theorem originOf?_addBlock (h : (Edit.addBlock e :: edits).mapM Edit.toChange? = some changes) :
    originOf? changes = some e.header := by
  simp only [List.mapM_cons, Option.bind_eq_bind, Option.bind_eq_some_iff, Option.pure_def,
    Option.some.injEq, Edit.toChange?] at h
  obtain ⟨_, ⟨bytes, hpack, rfl⟩, cs, -, rfl⟩ := h
  simp only [originOf?, List.head?_cons, Option.bind_some, decodeEntry_of_pack hpack]
  rfl

namespace RootedBy

theorem of_same (hk : KeysDistinct known) (h : RootedBy changes s) (hs : s.Holds known)
    (ht : t.Holds known) (hsame : Store.Same t s) : RootedBy changes t := by
  rcases h with ⟨hchanges, hblocks⟩ | ⟨o, horigin, hrooted⟩
  · exact .inl ⟨hchanges, List.eq_nil_iff_forall_not_mem.mpr fun e he ↦
      List.not_mem_nil (hblocks ▸ hsame.mem_iff.mp he)⟩
  · exact .inr ⟨o, horigin, hrooted.of_same hk hs ht hsame⟩

theorem rooted (h : RootedBy changes s) (he : e ∈ s.blocks) :
    ∃ o, originOf? changes = some o ∧ Rooted o s := by
  rcases h with ⟨-, hblocks⟩ | h
  · exact absurd he (hblocks ▸ List.not_mem_nil)
  · exact h

theorem eq_nil (h : RootedBy changes s) (hempty : s.blocks = []) : changes = [] := by
  rcases h with ⟨hnil, -⟩ | ⟨o, -, hrooted⟩
  · exact hnil
  · obtain ⟨x, hx, -⟩ := hrooted.origin
    exact absurd hx (hempty ▸ List.not_mem_nil)

/-- Storing an admitted header and attaching its proof. -/
theorem store (hk : KeysDistinct known) (h : RootedBy changes s) (hs : s.Headed known)
    (hfits : (Edit.addBlock e).Fits known s) (hadmits : Admits s e)
    (hproves : Proves (s.put e) edits t) {rest : List Edit}
    (hmore : (Edit.addBlock e :: rest).mapM Edit.toChange? = some more) :
    ∃ o, originOf? (changes ++ more) = some o ∧ Rooted o t := by
  have hput : (s.put e).Holds known := (hfits.apply_sound hs.toSound).toHolds
  cases hadmits with
  | first hhead hempty hwork =>
    obtain rfl := h.eq_nil hempty
    exact ⟨e.header, originOf?_addBlock hmore,
      (Rooted.first hempty hs.keyed hwork).proves hk hput hproves⟩
  | next hhead hprevious hheader hwork =>
    obtain ⟨o, horigin, hrooted⟩ := h.rooted (Store.get_mem hs.keyed hprevious)
    have hrooted' := hrooted.put hk hs.toHolds hfits hprevious hheader hwork
    exact ⟨o, originOf?_append horigin more, hrooted'.proves hk hput hproves⟩

theorem mutates (hk : KeysDistinct known) (h : RootedBy changes s) (hs : s.Headed known)
    (hmutates : Mutates known s edits t) (hmore : edits.mapM Edit.toChange? = some more) :
    RootedBy (changes ++ more) t := by
  cases hmutates with
  | prove hproves =>
    rcases h with ⟨rfl, hblocks⟩ | ⟨o, horigin, hrooted⟩
    · cases hproves with
      | nil => cases hmore; exact .inl ⟨rfl, hblocks⟩
      | cons hprior => exact absurd hprior (hblocks ▸ List.not_mem_nil)
    · exact .inr ⟨o, originOf?_append horigin more, hrooted.proves hk hs.toHolds hproves⟩
  | store hfits hadmits _ _ hproves => exact .inr (h.store hk hs hfits hadmits hproves hmore)
  | promote hfits hadmits hproves =>
    obtain ⟨o, horigin, hrooted⟩ := h.store hk hs hfits hadmits hproves hmore
    exact .inr ⟨o, horigin, hrooted.setHeadId _⟩

end RootedBy

theorem Backed.rootedBy (hk : KeysDistinct known) (h : Backed known journal s) :
    RootedBy journal.reverse.flatten s :=
  h.preserves (P := RootedBy) (fun hblocks ↦ .inl ⟨rfl, hblocks⟩)
    (fun hs hmutates hmore hrooted ↦ hrooted.mutates hk hs hmutates hmore)
    fun hs ht hsame hrooted ↦ hrooted.of_same hk hs ht hsame

namespace Session

/-- The first header that was added and not rewound. -/
def origin? (s : Session) : Option Header := originOf? s.journal.reverse.flatten

/-- A store without a head is empty.  Any other store is a tree in which work grows from parent to
child, and its root is the first header that was added. -/
theorem store_is_tree {params : NetworkParameters} {calls : List Call} {s : Session}
    (hkeys : KeysDistinct {h | h ∈ calls.flatMap Call.headers})
    (hrun : (start params).run calls = some s)
    (horigin : ∀ o, s.origin? = some o →
      ∀ h ∈ calls.flatMap Call.headers, h.hash.endsWith o.previousBlock = false) :
    (s.index.store.isEmpty = true ↔ s.index.store.head = none) ∧
      (s.index.store.isEmpty = false →
        (∃ head ∈ s.index.store.blocks, s.index.store.head = some head) ∧
        ∃ o ∈ s.index.store.blocks, s.origin? = some o.header ∧ o.header.work = .ok o.work ∧
          (∀ b ∈ s.index.store.blocks,
            s.index.store.get b.header.previousBlock = none ↔ b = o) ∧
          (∀ b ∈ s.index.store.blocks, b ≠ o → ∃ p ∈ s.index.store.blocks, ∃ work,
            s.index.store.get b.header.previousBlock = some p ∧ b.header.work = .ok work ∧
              b.work = p.work + work ∧ p.work < b.work) ∧
          ∀ b ∈ s.index.store.blocks, ∃ walk : List Entry,
            walk.head? = some b ∧ walk.getLast? = some o ∧
              walk.IsChain fun b p ↦
                s.index.store.get b.header.previousBlock = some p ∧ p.work < b.work) := by
  have hbacked : Backed {h | h ∈ calls.flatMap Call.headers} s.journal s.index.store :=
    backed_run (backed_start params) (fun h hh ↦ hh) hrun
  have hheaded := hbacked.headed
  have hholds := hheaded.toHolds
  rw [Store.isEmpty_iff hholds.keyed, ← Bool.not_eq_true, Store.isEmpty_iff hholds.keyed]
  refine ⟨hheaded.blocks_eq_nil_iff, ?_⟩
  intro hne
  obtain ⟨head, hhead⟩ := Option.ne_none_iff_exists'.mp
    (mt hheaded.blocks_eq_nil_iff.mpr hne)
  have hheadMem := (hheaded.toSound.head_eq_some_iff.mp hhead).1
  obtain ⟨_, hsessionOrigin, hrooted⟩ := (hbacked.rootedBy hkeys).rooted hheadMem
  obtain ⟨x, hx, rfl, hxwork⟩ := hrooted.origin
  have hxnone := Store.get_eq_none_of_endsWith hkeys hholds
    x.header.previousBlock.length_le (horigin x.header hsessionOrigin)
  have hparent {b : Entry} := hrooted.parent_of_ne hholds hx rfl (e := b)
  refine ⟨⟨head, hheadMem, hhead⟩, x, hx, hsessionOrigin, hxwork, ?_,
    fun b hb hbx ↦ hparent hb hbx, fun b hb ↦ hrooted.walk hholds hx rfl hb⟩
  intro b hb
  constructor
  · intro hnone
    by_contra hbx
    obtain ⟨p, -, -, hget, -⟩ := hparent hb hbx
    rw [hnone] at hget
    cases hget
  · rintro rfl
    exact hxnone

open Sample in
/-- Two headers follow the first one, one of them with a successor that is taken back and added
again.  A proof is attached, and a third branch is temporary. -/
def branchingCalls : List Call :=
  [.add genesis .zero, .add second .zero, .add rival .zero, .add third .zero, .rewind 1,
    .addAll [third], .prove second (.sha256 []), .addTemporarily twin .zero]

open Sample in
/-- Both branches lead down to the first header, along which works add up. -/
theorem genesis_is_root : ∃ s, (start .testnet).run branchingCalls = some s ∧
    s.index.isSpeculating = true ∧ s.index.store.size = 4 ∧
      ∃ o ∈ s.index.store.blocks, o.header = genesis ∧ o.header.work = .ok o.work ∧
        (∀ b ∈ s.index.store.blocks, s.index.store.get b.header.previousBlock = none ↔ b = o) ∧
        (∀ b ∈ s.index.store.blocks, b ≠ o → ∃ p ∈ s.index.store.blocks, ∃ work,
          s.index.store.get b.header.previousBlock = some p ∧ b.header.work = .ok work ∧
            b.work = p.work + work ∧ p.work < b.work) ∧
        ∀ h ∈ [third, rival], ∃ (b : Entry) (walk : List Entry), b.header = h ∧
          walk.head? = some b ∧ walk.getLast? = some o ∧ walk.IsChain fun b p ↦
            s.index.store.get b.header.previousBlock = some p ∧ p.work < b.work := by
  have hmap : ((start .testnet).run branchingCalls).map (fun s ↦
      (s.origin?, s.index.isSpeculating, s.index.store.isEmpty, s.index.store.size,
        s.index.store.blocks.map (·.header))) =
          some (some genesis, true, false, 4, [rival, third, second, genesis]) := by
    decide +kernel
  obtain ⟨s, hrun, hs⟩ := Option.map_eq_some_iff.mp hmap
  simp only [Prod.mk.injEq] at hs
  obtain ⟨horigin, hspeculating, hne, hsize, hheaders⟩ := hs
  have htree := store_is_tree (by decide +kernel) hrun (fun o ho h hh ↦ by
    rw [horigin, Option.some.injEq] at ho
    subst ho
    revert h
    decide)
  obtain ⟨-, o, ho, hoOrigin, hwork, hroot, hparent, hwalk⟩ := htree.2 hne
  have hgenesis : o.header = genesis := Option.some.inj (hoOrigin.symm.trans horigin)
  refine ⟨s, hrun, hspeculating, hsize, o, ho, hgenesis, hwork, hroot, hparent, fun h hh ↦ ?_⟩
  have hmem : h ∈ s.index.store.blocks.map (·.header) := by
    rw [hheaders]
    revert h
    decide
  obtain ⟨b, hb, hheader⟩ := List.mem_map.mp hmem
  obtain ⟨walk, hhead, hlast, hchain⟩ := hwalk b hb
  exact ⟨b, walk, hheader, hhead, hlast, hchain⟩

end Session

end EndorsedChain
