import EndorsedChain.Proofs.Store.Ancestors

/-!
# Searching the best chain

A search goes back from the head until it finds what it looks for or there is no parent.  Nothing in
it bounds its steps: it ends if the walk from the head meets no block twice, as it then takes fewer
steps than there are blocks (`MeetsOnce.bestAt_eq_none`).  Its answer is the first block of that walk that the
identifier stands for, and any chain from the head that is as long as the store is this walk.
-/

namespace EndorsedChain.Store

variable {β ι : Type} [DecidableEq ι] [BlockId ι] [Linked β ι] {s : Store β ι} {b : β}
  {id ref headId : ι} {k m n : Nat} {found found' : Option β}

/-- What stands `n` steps back from the head. -/
def bestAt (s : Store β ι) (n : Nat) : Option β := steps s.parent? n s.head

/-- The walk from the head meets no block twice. -/
def MeetsOnce (s : Store β ι) : Prop :=
  ∀ m n b, s.bestAt m = some b → s.bestAt n = some b → m = n

/-- A search from a block ends after `n` steps to the parent, with what it has found. -/
inductive Scans (s : Store β ι) (id : ι) : β → Nat → Option β → Prop
  | found {b : β} (hb : BlockId.designates id (Linked.id b) = true) : Scans s id b 0 (some b)
  | lost {b : β} (hb : BlockId.designates id (Linked.id b) = false) (hparent : s.parent? b = none) :
    Scans s id b 0 none
  | back {b p : β} {n : Nat} {found : Option β}
    (hb : BlockId.designates id (Linked.id b) = false) (hparent : s.parent? b = some p)
    (hscans : Scans s id p n found) : Scans s id b (n + 1) found

/-! ## The end of a search -/

theorem Scans.unique (h : Scans s id b m found) (h' : Scans s id b n found') :
    m = n ∧ found = found' := by
  induction h generalizing n with
  | found hb =>
    cases h' with
    | found => exact ⟨rfl, rfl⟩
    | lost hb' | back hb' => rw [hb] at hb'; cases hb'
  | lost hb hparent =>
    cases h' with
    | found hb' => rw [hb] at hb'; cases hb'
    | lost => exact ⟨rfl, rfl⟩
    | back _ hparent' => rw [hparent] at hparent'; cases hparent'
  | back hb hparent _ ih =>
    cases h' with
    | found hb' => rw [hb] at hb'; cases hb'
    | lost _ hparent' => rw [hparent] at hparent'; cases hparent'
    | back _ hparent' hscans' =>
      rw [hparent] at hparent'
      cases hparent'
      obtain ⟨rfl, rfl⟩ := ih hscans'
      exact ⟨rfl, rfl⟩

/-- A search does not go back further than the parents do. -/
theorem Scans.steps_ne_none (h : Scans s id b n found) : steps s.parent? n (some b) ≠ none := by
  induction h with
  | found | lost => exact Option.some_ne_none _
  | back _ hparent _ ih => rwa [steps_succ, hparent]

/-- Where the parents come to an end, so does the search, with the answer that as many steps
give. -/
theorem exists_scans (hend : steps s.parent? (k + 1) (some b) = none) :
    ∃ n, Scans s id b n (s.scanFrom id k b) := by
  induction k generalizing b with
  | zero =>
    rw [scanFrom_zero]
    split
    · rename_i hb
      exact ⟨0, .found hb⟩
    · rename_i hb
      exact ⟨0, .lost (Bool.eq_false_iff.mpr hb) hend⟩
  | succ k ih =>
    rw [scanFrom_succ, ← bind_parent?]
    split
    · rename_i hb
      exact ⟨0, .found hb⟩
    · rename_i hb
      have hb : BlockId.designates id (Linked.id b) = false := Bool.eq_false_iff.mpr hb
      cases hparent : s.parent? b with
      | none => exact ⟨0, .lost hb hparent⟩
      | some p =>
        rw [steps_succ, hparent] at hend
        obtain ⟨n, hscans⟩ := ih hend
        exact ⟨n + 1, .back hb hparent hscans⟩

/-- With a bound on its steps, a search is one of the chain of that length. -/
theorem scanFrom_eq_find? (hget : s.get ref = some b) (n : Nat) :
    s.scanFrom id n b =
      (s.chain ref (n + 1)).find? fun b ↦ BlockId.designates id (Linked.id b) := by
  induction n generalizing ref b with
  | zero =>
    rw [scanFrom_zero, chain_of_get_some hget, chain_zero, ite_self, List.find?_cons,
      List.find?_nil]
    cases BlockId.designates id (Linked.id b) <;> rfl
  | succ n ih =>
    rw [scanFrom_succ, chain_of_get_some hget, List.find?_cons]
    cases BlockId.designates id (Linked.id b) with
    | true => rfl
    | false =>
      by_cases hzero : BlockId.isZero (Linked.parent b) = true
      · rw [if_pos hzero, if_pos hzero]
        rfl
      · rw [if_neg hzero, if_neg hzero]
        cases hparent : s.get (Linked.parent b) with
        | none =>
          rw [chain_of_get_none hparent]
          rfl
        | some p => exact ih hparent

/-! ## The walk from the head -/

/-- A walk that meets no block twice takes fewer steps than there are blocks. -/
theorem MeetsOnce.bestAt_eq_none (h : s.MeetsOnce) (hn : s.size ≤ n) : s.bestAt n = none := by
  unfold MeetsOnce at h
  unfold bestAt at h ⊢
  cases hhead : s.head with
  | none => exact steps_none _ n
  | some b =>
    rw [hhead] at h
    obtain ⟨headId, -, hget⟩ := Option.bind_eq_some_iff.mp hhead
    exact steps_eq_none_of_le _ hn (steps_eq_none_of_once s.parent?
      (fun _ _ _ ↦ mem_blocks_of_parent?) (mem_blocks_of_get hget) h)

/-- Chains of the head that are as long as the store hold the whole walk. -/
theorem MeetsOnce.getElem?_chain (h : s.MeetsOnce) (hhead : s.headId = some headId)
    (hk : s.size ≤ k) (n : Nat) : (s.chain headId k)[n]? = s.bestAt n := by
  have hbest : s.bestAt n = steps s.parent? n (s.get headId) := by
    rw [bestAt, head, hhead, Option.bind_some]
  rw [Store.getElem?_chain, ← hbest]
  split
  · rfl
  · exact (h.bestAt_eq_none (by omega)).symm

theorem MeetsOnce.scanBest_eq_find? (h : s.MeetsOnce) (hhead : s.headId = some headId)
    (hk : s.size ≤ k) : s.scanBest id =
      (s.chain headId k).find? fun b ↦ BlockId.designates id (Linked.id b) := by
  have hchain : s.chain headId k = s.chain headId (s.size + 1) := by
    refine List.ext_getElem? fun n ↦ ?_
    rw [h.getElem?_chain hhead hk, h.getElem?_chain hhead (Nat.le_succ _)]
  rw [scanBest, head, hhead, Option.bind_some, hchain]
  cases hget : s.get headId with
  | none => rw [chain_of_get_none hget, Option.bind_none, List.find?_nil]
  | some b => exact scanFrom_eq_find? hget s.size

theorem find?_eq_some_iff_getElem? {l : List β} {q : β → Bool} :
    l.find? q = some b ↔
      ∃ n : Nat, l[n]? = some b ∧ q b = true ∧
        ∀ m < n, ∀ x, l[m]? = some x → q x = false := by
  rw [List.find?_eq_some_iff_getElem]
  constructor
  · rintro ⟨hb, n, hn, hget, hbefore⟩
    refine ⟨n, List.getElem?_eq_some_iff.mpr ⟨hn, hget⟩, hb, fun m hm x hx ↦ ?_⟩
    obtain ⟨hlt, rfl⟩ := List.getElem?_eq_some_iff.mp hx
    simpa using hbefore m hm
  · rintro ⟨n, hget, hb, hbefore⟩
    obtain ⟨hn, hget⟩ := List.getElem?_eq_some_iff.mp hget
    refine ⟨hb, n, hn, hget, fun m hm ↦ ?_⟩
    simpa using hbefore m hm _ (List.getElem?_eq_getElem (hm.trans hn))

/-- The walk as a list, in which the search is a search. -/
theorem MeetsOnce.exists_walk (h : s.MeetsOnce) :
    ∃ walk : List β, (∀ n : Nat, walk[n]? = s.bestAt n) ∧
      ∀ id, s.scanBest id = walk.find? fun b ↦ BlockId.designates id (Linked.id b) := by
  cases hhead : s.headId with
  | none =>
    have hnone : s.head = none := by rw [head, hhead, Option.bind_none]
    refine ⟨[], fun n ↦ ?_, fun id ↦ ?_⟩
    · rw [bestAt, hnone, steps_none, List.getElem?_nil]
    · rw [scanBest, hnone, Option.bind_none, List.find?_nil]
  | some headId =>
    -- as many blocks as the store has are enough for the whole walk
    exact ⟨s.chain headId s.size, h.getElem?_chain hhead le_rfl,
      fun _ ↦ h.scanBest_eq_find? hhead le_rfl⟩

theorem MeetsOnce.scans_iff (h : s.MeetsOnce) (hhead : s.head = some b) (id : ι) :
    ∃ n < s.size, ∀ m found, Scans s id b m found ↔ m = n ∧ found = s.scanBest id := by
  have hbest (n : Nat) (hn : s.size ≤ n) : steps s.parent? n (some b) = none := by
    rw [← hhead]
    exact h.bestAt_eq_none hn
  obtain ⟨n, hscans⟩ : ∃ n, Scans s id b n (s.scanFrom id s.size b) :=
    exists_scans (hbest _ (Nat.le_succ _))
  have hanswer : s.scanBest id = s.scanFrom id s.size b := by
    rw [scanBest, hhead, Option.bind_some]
  rw [← hanswer] at hscans
  refine ⟨n, Nat.lt_of_not_le fun hn ↦ hscans.steps_ne_none (hbest n hn), fun m found ↦ ?_⟩
  constructor
  · exact fun hscans' ↦ hscans'.unique hscans
  · rintro ⟨rfl, rfl⟩
    exact hscans

/-- Searching ends, and with the first block of the walk that the identifier stands for. -/
theorem scanBest_searches_walk (s : Store β ι) (h : s.MeetsOnce) (id : ι) :
    (∀ b, s.head = some b → ∃ n < s.size, ∀ m found,
      Scans s id b m found ↔ m = n ∧ found = s.scanBest id) ∧
    (∀ b, s.scanBest id = some b ↔ ∃ n, s.bestAt n = some b ∧
      BlockId.designates id (Linked.id b) = true ∧
      ∀ m < n, ∀ x, s.bestAt m = some x → BlockId.designates id (Linked.id x) = false) ∧
    (s.scanBest id = none ↔ s.head = none ∨
      ∀ n x, s.bestAt n = some x → BlockId.designates id (Linked.id x) = false) ∧
    ∀ headId, s.headId = some headId → ∀ k, s.size ≤ k → s.scanBest id =
      (s.chain headId k).find? fun b ↦ BlockId.designates id (Linked.id b) := by
  obtain ⟨walk, hwalk, hsearch⟩ := h.exists_walk
  refine ⟨fun b hhead ↦ h.scans_iff hhead id, ?found, ?lost,
    fun headId hhead k hk ↦ h.scanBest_eq_find? hhead hk⟩
  case found =>
    intro b
    simp only [hsearch, ← hwalk]
    exact find?_eq_some_iff_getElem?
  case lost =>
    have hempty : s.head = none →
        ∀ n x, s.bestAt n = some x → BlockId.designates id (Linked.id x) = false := by
      intro hnone n x hx
      rw [bestAt, hnone, steps_none] at hx
      cases hx
    rw [or_iff_right_of_imp hempty, hsearch, List.find?_eq_none]
    constructor
    · intro hall n x hx
      rw [← hwalk] at hx
      exact Bool.eq_false_iff.mpr (hall x (List.mem_of_getElem? hx))
    · intro hall x hx
      obtain ⟨n, hn⟩ := List.mem_iff_getElem?.mp hx
      rw [hwalk] at hn
      exact Bool.eq_false_iff.mp (hall n x hn)

/-! ## A fork -/

/-- It is enough to look at the walk up to its end. -/
theorem meetsOnce_of_nodup (last : Nat) (hend : s.bestAt last = none)
    (hnodup : ((List.range last).map s.bestAt).Nodup) : s.MeetsOnce := by
  have hlt {n : Nat} {b : β} (hb : s.bestAt n = some b) : n ∈ List.range last := by
    refine List.mem_range.mpr (Nat.lt_of_not_le fun hle ↦ ?_)
    rw [bestAt, steps_eq_none_of_le _ hle hend] at hb
    cases hb
  intro m n b hm hn
  exact List.inj_on_of_nodup_map hnodup (hlt hm) (hlt hn) (hm.trans hn.symm)

def forkOrigin : Link VBlake := ⟨circularHash 1, VBlake.zero, 0⟩

def forkMiddle : Link VBlake := ⟨circularHash 2, forkOrigin.id.toPrevious, 1⟩

def forkTip : Link VBlake := ⟨circularHash 3, forkMiddle.id.toPrevious, 2⟩

/-- Another child of the origin. -/
def forkRival : Link VBlake := ⟨circularHash 4, forkOrigin.id.toPrevious, 1⟩

/-- The head is on one of two branches. -/
def forked : Store (Link VBlake) VBlake :=
  Store.empty.after
    [.put forkOrigin, .put forkMiddle, .put forkRival, .put forkTip, .setHead forkTip]

/-- A reference of 9 bytes finds a block on the best chain.  The search for a block that is stored,
but not on it, ends as well. -/
theorem middle_found_rival_lost :
    forked.MeetsOnce ∧ forked.scanBest forkMiddle.id.toKeystone = some forkMiddle ∧
      (∀ k, 4 ≤ k → some forkMiddle = (forked.chain forkTip.id k).find? fun b ↦
        BlockId.designates forkMiddle.id.toKeystone (Linked.id b)) ∧
      forked.get forkRival.id = some forkRival ∧ (∃ n, Scans forked forkRival.id forkTip n none) ∧
      ∀ n x, forked.bestAt n = some x →
        BlockId.designates forkRival.id (Linked.id x) = false := by
  have honce : forked.MeetsOnce :=
    meetsOnce_of_nodup 3 (by decide +kernel) (by decide +kernel)
  have hhead : forked.head = some forkTip := by decide +kernel
  have hmiddle : forked.scanBest forkMiddle.id.toKeystone = some forkMiddle := by decide +kernel
  have hrival : forked.scanBest forkRival.id = none := by decide +kernel
  obtain ⟨-, -, -, hchain⟩ := scanBest_searches_walk forked honce forkMiddle.id.toKeystone
  obtain ⟨hends, -, hlost, -⟩ := scanBest_searches_walk forked honce forkRival.id
  refine ⟨honce, hmiddle, ?chain, by decide +kernel, ?ends, ?lost⟩
  case chain =>
    intro k hk
    rw [← hmiddle]
    exact hchain forkTip.id (by decide +kernel) k hk
  case ends =>
    obtain ⟨n, -, hn⟩ := hends forkTip hhead
    exact ⟨n, (hn n none).mpr ⟨rfl, hrival.symm⟩⟩
  case lost =>
    refine (hlost.mp hrival).resolve_left ?_
    rw [hhead]
    exact Option.some_ne_none forkTip

end EndorsedChain.Store
