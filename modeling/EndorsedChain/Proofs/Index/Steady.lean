import EndorsedChain.Proofs.Difficulty.Steady
import EndorsedChain.Proofs.Index.Mirror
import EndorsedChain.Proofs.Index.Works
import EndorsedChain.Proofs.Sample.Steady

/-!
# Adding the headers of steady chains

A header of a steady chain passes all checks if the index has what the chain has below it, from some
height on.  What is missing below that height is never asked for, since the index looks for a
keystone only if it knows the chain down to it.  So an index that got some headers of steady chains
is described by the list of them alone (`Filled`).
-/

namespace EndorsedChain

open VeriBlock Sample

variable {known : Set Header} {params : NetworkParameters} {bits : UInt32} {first work : Nat}
  {c : VeriBlockChain} {n m : Nat} {h x : Header} {hs : List Header} {i : Index} {e : Entry}

/-! ## What changes say -/

/-- The operation of a change and the entry that it leads to. -/
def Change.outline (c : Change) : Operation × Option Entry :=
  (c.operation, (decodeEntry c.newValue).toOption)

def Edit.outline (edit : Edit) : Operation × Option Entry := (edit.operation, some edit.after)

/-- The entries that changes have added. -/
def additions (changes : List Change) : List (Option Entry) :=
  ((changes.map Change.outline).filter (·.1 = .addBlock)).map (·.2)

theorem additions_append (cs ds : List Change) :
    additions (cs ++ ds) = additions cs ++ additions ds := by
  simp only [additions, List.map_append, List.filter_append]

theorem Edit.outline_toChange? {edit : Edit} {c : Change} (h : edit.toChange? = some c) :
    c.outline = edit.outline := by
  obtain ⟨hoperation, hafter, -⟩ := decode_of_toChange? h
  rw [Change.outline, Edit.outline, hoperation, hafter]
  rfl

theorem Edit.outlines_mapM {edits : List Edit} {changes : List Change}
    (h : edits.mapM Edit.toChange? = some changes) :
    changes.map Change.outline = edits.map Edit.outline := by
  induction edits generalizing changes with
  | nil =>
    cases h
    rfl
  | cons edit edits ih =>
    simp only [List.mapM_cons, Option.bind_eq_bind, Option.bind_eq_some_iff, Option.pure_def,
      Option.some.injEq] at h
    obtain ⟨d, hd, ds, hds, rfl⟩ := h
    rw [List.map_cons, List.map_cons, outline_toChange? hd, ih hds]

/-! ## What an index has of a chain -/

/-- A compact difficulty that retargeting gives back. -/
structure Canonical (params : NetworkParameters) (bits : UInt32) (work : Nat) : Prop where
  decode : Compact.decode bits = .ok work
  encode : Compact.encode work = bits
  minimum : params.minimumDifficulty.toNat ≤ work

/-- What an index makes of a header of a steady chain that it has from the height `first` on. -/
def steadyEntry (first work : Nat) (h : Header) : Entry :=
  ⟨h, (h.height.toNat + 1 - first) * work, .zero⟩

/-- An index that got headers of steady chains. -/
structure Filled (known : Set Header) (params : NetworkParameters) (first work : Nat)
    (hs : List Header) (i : Index) : Prop where
  params_eq : i.params = params
  idle : i.mode = .idle
  headed : i.store.Headed known
  mem_iff : ∀ e, e ∈ i.store.blocks ↔ ∃ h ∈ hs, e = steadyEntry first work h

/-- Of the headers of a chain below the height `n`, exactly those from `first` on are in a list. All
of them are regular, and so is the one at this height. -/
structure HasBelow (known : Set Header) (bits : UInt32) (first : Nat) (c : VeriBlockChain) (n : Nat)
    (hs : List Header) : Prop where
  regular : ∀ m h, m ≤ n → c.headers[m]? = some h → Regular bits c m h
  mem_known : ∀ m h, m ≤ n → c.headers[m]? = some h → h ∈ known
  present : ∀ m h, first ≤ m → m < n → c.headers[m]? = some h → h ∈ hs
  absent : ∀ m h, m < first → c.headers[m]? = some h → h ∉ hs

namespace Filled

variable (hk : KeysDistinct known) (hfilled : Filled known params first work hs i)

theorem start (known : Set Header) (params : NetworkParameters) (first work : Nat) :
    Filled known params first work [] { params } where
  params_eq := rfl
  idle := rfl
  headed := Store.Headed.empty
  mem_iff e := by simp [Store.empty, Store.blocks]

include hfilled

theorem not_speculating : i.isSpeculating = false := by
  rw [Index.isSpeculating, hfilled.idle]
  rfl

theorem lookup (ref : VBlake) : i.lookup ref = i.store.get ref :=
  Index.lookup_of_idle hfilled.not_speculating ref

theorem chain (ref : VBlake) (count : Nat) : i.chain ref count = i.store.chain ref count := by
  unfold Index.chain
  rw [hfilled.idle]
  exact Index.chainThrough_empty ref count

theorem mem (hh : h ∈ hs) : steadyEntry first work h ∈ i.store.blocks :=
  (hfilled.mem_iff _).mpr ⟨h, hh, rfl⟩

theorem header_mem (he : e ∈ i.store.blocks) : e.header ∈ hs := by
  obtain ⟨h, hh, rfl⟩ := (hfilled.mem_iff e).mp he
  exact hh

include hk

theorem lookup_eq_some {ref : VBlake} (hh : h ∈ hs) (hstands : ref.StandsFor h.hash) :
    i.lookup ref = some (steadyEntry first work h) := by
  rw [hfilled.lookup]
  exact (Store.get_eq_some_iff hk hfilled.headed.toHolds).mpr ⟨hfilled.mem hh, hstands⟩

theorem lookup_eq_none (hknown : h ∈ known) (hnew : h ∉ hs) : i.lookup h.hash = none := by
  rw [hfilled.lookup, Store.get_hash_eq_none_iff hfilled.headed.keyed]
  intro e he hhash
  have hheader : e.header = h :=
    hk (hfilled.headed.mem_known e he) hknown (congrArg VBlake.storeKey hhash)
  exact hnew (hheader ▸ hfilled.header_mem he)

section Below

variable (hbelow : HasBelow known bits first c n hs)

include hbelow

/-- What is found before a header of the chain is the header before it, unless that one is below
`first`. -/
theorem header_of_previous (hm : m ≤ n) (hne : m ≠ 0) (hx : c.headers[m]? = some x)
    (hget : i.store.get x.previousBlock = some e) :
    first < m ∧ c.headers[m - 1]? = some e.header := by
  have hlt : m - 1 < c.headers.size := by
    have hsize := (Array.getElem?_eq_some_iff.mp hx).1
    omega
  obtain ⟨p, hp⟩ : ∃ p, c.headers[m - 1]? = some p := ⟨_, Array.getElem?_eq_getElem hlt⟩
  obtain ⟨he, hstands⟩ := (Store.get_eq_some_iff hk hfilled.headed.toHolds).mp hget
  have hkey : e.hash.storeKey = p.hash.storeKey := by
    rw [← hstands.1, (hbelow.regular m x hm hx).previous p hne hp]
    exact (VBlake.standsFor_toPrevious p.hash).1
  have hheader : e.header = p :=
    hk (hfilled.headed.mem_known e he) (hbelow.mem_known (m - 1) p (by omega) hp) hkey
  refine ⟨?_, hheader ▸ hp⟩
  refine Nat.lt_of_not_le fun hle ↦ hbelow.absent (m - 1) p (by omega) hp ?_
  exact hheader ▸ hfilled.header_mem he

/-- The context of a header of the chain is a part of the chain. -/
theorem getElem?_chain (hm : m ≤ n) (hne : m ≠ 0) (hx : c.headers[m]? = some x) {count j : Nat}
    (hget : (i.store.chain x.previousBlock count)[j]? = some e) :
    first + j < m ∧ c.headers[m - 1 - j]? = some e.header := by
  induction count generalizing m x j with
  | zero => cases hget
  | succ count ih =>
    unfold Store.chain at hget
    split at hget
    · cases hget
    · rename_i b hb
      obtain ⟨hlt, hheader⟩ := hfilled.header_of_previous hk hbelow hm hne hx hb
      cases j with
      | zero =>
        cases hget
        exact ⟨hlt, hheader⟩
      | succ j =>
        rw [List.getElem?_cons_succ] at hget
        split at hget
        · cases hget
        · rename_i hzero
          have hpred : m - 1 ≠ 0 := fun heq ↦
            hzero ((hbelow.regular (m - 1) b.header (by omega) hheader).origin heq)
          obtain ⟨hlt', hheader'⟩ := ih (by omega) hpred hheader hget
          exact ⟨by omega, (show m - 1 - (j + 1) = m - 1 - 1 - j by omega) ▸ hheader'⟩

variable (hn : c.headers[n]? = some h) (hfirst : first < n)

include hn hfirst

theorem length_chain_le (count : Nat) :
    (i.store.chain h.previousBlock count).length ≤ n - first := by
  by_contra hlong
  have hlt : n - first < (i.store.chain h.previousBlock count).length := by omega
  have hbound := (hfilled.getElem?_chain hk hbelow (Nat.le_refl n) (by omega) hn
    (List.getElem?_eq_getElem hlt)).1
  omega

/-- A keystone is known if the chain is known down to it. -/
theorem lookup_keystone {ref : VBlake} {ago : Nat} (hpos : 0 < ago)
    (href : ∀ keystone, ago ≤ n → c.headers[n - ago]? = some keystone →
      ref = keystone.hash.toKeystone) :
    ((i.lookup ref).isNone && i.knowsAgo h ago) = false := by
  rw [Bool.and_eq_false_imp]
  intro hnone
  refine Bool.eq_false_iff.mpr fun hknows ↦ ?_
  rw [Index.knowsAgo, hfilled.chain, beq_iff_eq] at hknows
  have hle := hfilled.length_chain_le hk hbelow hn hfirst ago
  have hlt : n - ago < c.headers.size := by
    have hsize := (Array.getElem?_eq_some_iff.mp hn).1
    omega
  obtain ⟨keystone, hkeystone⟩ : ∃ keystone, c.headers[n - ago]? = some keystone :=
    ⟨_, Array.getElem?_eq_getElem hlt⟩
  have hpresent : keystone ∈ hs := hbelow.present (n - ago) keystone (by omega) (by omega) hkeystone
  rw [href keystone (by omega) hkeystone,
    hfilled.lookup_eq_some hk hpresent (VBlake.standsFor_toKeystone keystone.hash)] at hnone
  cases hnone

theorem checkConnectivity {p : Header} (hp : c.headers[n - 1]? = some p) :
    i.checkConnectivity h = .ok (steadyEntry first work p) := by
  have hregular := hbelow.regular n h (Nat.le_refl n) hn
  have hprevious : i.lookup h.previousBlock = some (steadyEntry first work p) := by
    rw [hregular.previous p (by omega) hp]
    exact hfilled.lookup_eq_some hk (hbelow.present (n - 1) p (by omega) (by omega) hp)
      (VBlake.standsFor_toPrevious p.hash)
  have hpos := keystoneDistance_pos h
  unfold Index.checkConnectivity
  rw [hprevious]
  dsimp only
  rw [hfilled.lookup_keystone hk hbelow hn hfirst hpos hregular.keystone,
    if_neg Bool.false_ne_true,
    hfilled.lookup_keystone hk hbelow hn hfirst (by omega) hregular.secondKeystone,
    if_neg Bool.false_ne_true]

omit hfirst in
theorem steadyContext (hne : n ≠ 0) (hwork : Compact.decode bits = .ok work) (count : Nat) :
    SteadyContext work h (i.chain h.previousBlock count) := by
  have hregular := hbelow.regular n h (Nat.le_refl n) hn
  have hplace {j : Nat} {e : Entry} (hget : (i.chain h.previousBlock count)[j]? = some e) :
      first + j < n ∧ Regular bits c (n - 1 - j) e.header := by
    rw [hfilled.chain] at hget
    obtain ⟨hlt, hheader⟩ := hfilled.getElem?_chain hk hbelow (Nat.le_refl n) hne hn hget
    exact ⟨hlt, hbelow.regular (n - 1 - j) e.header (by omega) hheader⟩
  refine ⟨fun e he ↦ ?_, fun e he ↦ ?_, ?_⟩
  · obtain ⟨j, hget⟩ := List.mem_iff_getElem?.mp he
    rw [Header.work, (hplace hget).2.difficulty, hwork]
  · obtain ⟨j, hget⟩ := List.mem_iff_getElem?.mp he
    obtain ⟨hlt, hplaced⟩ := hplace hget
    rw [UInt32.lt_iff_toNat_lt, hplaced.timestamp, hregular.timestamp]
    omega
  · refine List.isChain_iff_getElem.mpr fun j hj ↦ ?_
    obtain ⟨-, hnewer⟩ := hplace (List.getElem?_eq_getElem (Nat.lt_of_succ_lt hj))
    obtain ⟨hlt, holder⟩ := hplace (List.getElem?_eq_getElem hj)
    rw [Retarget.solveTime, hnewer.timestamp, holder.timestamp]
    omega

/-- The next header of a chain is admitted. -/
theorem accept_next (hcanonical : Canonical params bits work) (hnew : h ∉ hs) {head : Entry}
    {p : Header} (hp : c.headers[n - 1]? = some p) :
    i.accept (some head) h .zero = .ok (some ⟨steadyEntry first work h, some p.hash⟩) := by
  have hregular := hbelow.regular n h (Nat.le_refl n) hn
  have hwork : h.work = .ok work := by rw [Header.work, hregular.difficulty, hcanonical.decode]
  have hcontext := hfilled.steadyContext hk hbelow hn (by omega) hcanonical.decode Retarget.period
  have hpos : 0 < h.timestamp := by
    rw [UInt32.lt_iff_toNat_lt, hregular.timestamp]
    exact Nat.lt_of_lt_of_le (by decide) (Nat.le_add_right _ _)
  have hcheck : i.checkContext h = .ok () := by
    unfold Index.checkContext
    dsimp only
    rw [hcontext.checkTimestamp hpos, hfilled.params_eq,
      hcontext.checkDifficulty hcanonical.minimum
        (hcanonical.encode.trans hregular.difficulty.symm)]
    rfl
  have hsum : (steadyEntry first work p).work + work = (steadyEntry first work h).work := by
    have hheight := (hbelow.regular (n - 1) p (by omega) hp).height
    simp only [steadyEntry, hheight, hregular.height]
    rw [← Nat.succ_mul]
    congr 1
    omega
  have hunknown := hfilled.lookup_eq_none hk (hbelow.mem_known n h (Nat.le_refl n) hn) hnew
  unfold Index.accept
  rw [hwork, hunknown, hfilled.checkConnectivity hk hbelow hn hfirst hp, hcheck]
  simp only [Except.mapError, bind, Except.bind, hsum]
  rfl

end Below

/-- A header that the index got before is not admitted again. -/
theorem accept_known (hh : h ∈ hs) (hwork : h.work = .ok work) {head : Entry} :
    i.accept (some head) h .zero = .ok none := by
  have hknown := hfilled.lookup_eq_some hk hh ⟨rfl, VBlake.agrees_self h.hash⟩
  rw [Index.accept, hwork, hknown]
  rfl

end Filled

/-! ## Adding a header -/

namespace Index

/-- Without a head any header is admitted, at whatever height. -/
theorem accept_first (i : Index) (hwork : h.work = .ok work) (hheight : h.height.toNat = first) :
    i.accept none h .zero = .ok (some ⟨steadyEntry first work h, none⟩) := by
  have hone : steadyEntry first work h = ⟨h, work, .zero⟩ := by
    rw [steadyEntry, hheight, Nat.add_sub_cancel_left, Nat.one_mul]
  rw [hone, accept, hwork]
  rfl

theorem attachAll_zero (bitcoin : Store Bitcoin.Entry Digest) (s : Store Entry VBlake)
    (hashes : List VBlake) : attachAll bitcoin .zero s hashes = (s, []) := by
  induction hashes with
  | nil => rfl
  | cons hash hashes ih =>
    have hzero : attach bitcoin .zero s hash = (s, []) := if_pos (by decide)
    rw [attachAll, hzero]
    dsimp only
    rw [ih]
    rfl

theorem attachAdmitted_zero {a : Admission} (hproof : a.entry.proof = .zero) :
    i.attachAdmitted a = (i.store.put a.entry, []) := by
  rw [attachAdmitted, hproof, attachAll_zero]

/-- A new entry does not take the head away. -/
theorem head_put {s : Store Entry VBlake} (hs : s.Sound known)
    (hfits : (Edit.addBlock e).Fits known s) : (s.put e).head = s.head := by
  have hput : (s.put e).Sound known := hfits.apply_sound hs
  cases hhead : s.head with
  | none => exact hput.head_eq_none_iff.mpr (hs.head_eq_none_iff.mp hhead)
  | some x =>
    obtain ⟨hx, hid⟩ := hs.head_eq_some_iff.mp hhead
    cases hfits with
    | addBlock _ _ hfresh =>
      exact hput.head_eq_some_iff.mpr ⟨(Store.mem_blocks_put hs.keyed).mpr (.inr ⟨hx, hfresh x hx⟩),
        hid⟩

/-- A header without a proof is stored, and it becomes the head if it follows the head. -/
theorem commit_unproven (hs : i.store.Sound known) {a : Admission}
    (hfits : (Edit.addBlock a.entry).Fits known i.store) (hproof : a.entry.proof = .zero) :
    ∃ t edits, i.commit a = ({ i with store := t }, .ok edits) ∧
      t.blocks = (i.store.put a.entry).blocks ∧
        ((∃ prior, edits = [.addBlock a.entry, .setHead prior a.entry]) ∧
            t.headId = some a.entry.hash ∨
          edits = [.addBlock a.entry] ∧ i.store.head.map (·.hash) ≠ a.parent?) := by
  rw [commit_eq, attachAdmitted_zero hproof]
  dsimp only
  rw [head_put hs hfits]
  split
  · exact ⟨_, _, rfl, rfl, .inl ⟨⟨_, rfl⟩, rfl⟩⟩
  · rename_i hpromotes
    refine ⟨_, _, rfl, rfl, .inr ⟨rfl, fun hfollows ↦ hpromotes ?_⟩⟩
    unfold promotes
    cases hhead : i.store.head with
    | none => rfl
    | some head =>
      rw [hhead, Option.map_some] at hfollows
      rw [Bool.or_eq_true_iff]
      exact .inl (decide_eq_true hfollows)

theorem Outcome.headed {result : Index × Except Error (List Edit)} (hs : i.store.Headed known)
    (h : Outcome known i result) : result.1.store.Headed known := by
  cases h with
  | refused => exact hs
  | carriedOut hmutates => exact hmutates.headed hs

end Index

namespace Filled

variable (hfilled : Filled known params first work hs i)

include hfilled

theorem works (hpackable : ∀ x ∈ hs, Packable (steadyEntry first work x).work) :
    i.store.Works Packable where
  keyed := hfilled.headed.keyed
  work e he := by
    obtain ⟨x, hx, rfl⟩ := (hfilled.mem_iff e).mp he
    exact hpackable x hx

theorem mem_put_iff (hfits : (Edit.addBlock (steadyEntry first work h)).Fits known i.store) :
    e ∈ (i.store.put (steadyEntry first work h)).blocks ↔
      ∃ x ∈ hs ++ [h], e = steadyEntry first work x := by
  rw [Store.mem_blocks_put hfilled.headed.keyed]
  constructor
  · rintro (rfl | ⟨he, -⟩)
    · exact ⟨h, List.mem_append_right hs (List.mem_singleton_self h), rfl⟩
    · obtain ⟨x, hx, rfl⟩ := (hfilled.mem_iff e).mp he
      exact ⟨x, List.mem_append_left [h] hx, rfl⟩
  · rintro ⟨x, hx, rfl⟩
    rcases List.mem_append.mp hx with hx | hx
    · cases hfits with
      | addBlock _ _ hfresh => exact .inr ⟨hfilled.mem hx, hfresh _ (hfilled.mem hx)⟩
    · exact .inl (List.mem_singleton.mp hx ▸ rfl)

/-- An admitted header is added to the list, with one change that adds its entry, and with another
one that makes it the head if it follows the head. -/
theorem add {parent? : Option VBlake} (hknown : h ∈ known)
    (haccept : i.accept i.store.head h .zero =
      .ok (some ⟨steadyEntry first work h, parent?⟩))
    (hpackable : ∀ x ∈ h :: hs, Packable (steadyEntry first work x).work) :
    ∃ j changes, i.add h .zero = (j, .ok changes) ∧ Filled known params first work (hs ++ [h]) j ∧
      additions changes = [some (steadyEntry first work h)] ∧
        (i.store.head.map (·.hash) = parent? →
          changes.map Change.outline =
              [(.addBlock, some (steadyEntry first work h)),
                (.setHead, some (steadyEntry first work h))] ∧
            j.store.head = some (steadyEntry first work h)) := by
  obtain ⟨hsmall, hpacked⟩ := List.forall_mem_cons.mp hpackable
  obtain ⟨hfits, -⟩ :=
    Index.admits_of_accept hfilled.not_speculating hfilled.headed hknown haccept
  obtain ⟨t, edits, hcommit, hblocks, hedits⟩ :=
    Index.commit_unproven hfilled.headed.toSound hfits rfl
  have hadd : i.addEdits h .zero = ({ i with store := t }, .ok edits) := by
    rw [Index.addEdits_of_accept hfilled.not_speculating haccept, hcommit]
  have hheaded : (i.addEdits h .zero).1.store.Headed known :=
    (Index.outcome_addEdits hfilled.headed hknown .zero).headed hfilled.headed
  rw [hadd] at hheaded
  have hmem (x : Entry) : x ∈ t.blocks ↔ ∃ y ∈ hs ++ [h], x = steadyEntry first work y := by
    rw [hblocks]
    exact hfilled.mem_put_iff hfits
  have hcarries := Index.carries_addEdits (hfilled.works hpacked)
    (Index.not_exceeds_of_accept haccept hsmall)
  rw [hadd] at hcarries
  obtain ⟨changes, hchanges⟩ := Option.isSome_iff_exists.mp
    (Edit.isSome_mapM_toChange?_iff.mpr (hcarries.edits edits rfl))
  have houtlines := Edit.outlines_mapM hchanges
  refine ⟨{ i with store := t }, changes, ?_, ⟨hfilled.params_eq, hfilled.idle, hheaded, hmem⟩,
    ?_, fun hfollows ↦ ?_⟩
  · rw [Index.add, hadd]
    simp only [Index.journal, hchanges]
  · rw [additions, houtlines]
    rcases hedits with ⟨⟨prior, rfl⟩, -⟩ | ⟨rfl, -⟩ <;> rfl
  · rcases hedits with ⟨⟨prior, rfl⟩, hid⟩ | ⟨-, hstays⟩
    · refine ⟨houtlines, (Store.Sound.head_eq_some_iff hheaded.toSound).mpr ⟨?_, hid⟩⟩
      exact (hmem _).mpr ⟨h, List.mem_append_right hs (List.mem_singleton_self h), rfl⟩
    · exact absurd hfollows hstays

end Filled

end EndorsedChain
