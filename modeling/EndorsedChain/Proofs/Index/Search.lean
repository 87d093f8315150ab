import EndorsedChain.Proofs.Index.Mirror
import Mathlib.Data.List.Count

/-!
# Searching the best chain

A search goes from the head from parent to parent.  Where work decreases on the way it meets no
entry twice, so the number of known entries is enough steps, and two indexes that mirror each
other find the same headers.
-/

namespace EndorsedChain.Index

open VeriBlock

variable {known : Set Header} {i j p t : Index} {hash : VBlake} {e e' : Entry} {l : List Entry}

/-! ## One step -/

theorem searchFrom_zero (i : Index) (hash : VBlake) (e : Entry) :
    i.searchFrom hash 0 e = if hash.agrees e.hash then some e else none := by
  unfold searchFrom
  split
  · rfl
  · split <;> rfl

theorem searchFrom_succ (i : Index) (hash : VBlake) (steps : Nat) (e : Entry) :
    i.searchFrom hash (steps + 1) e =
      if hash.agrees e.hash then some e
      else if e.header.previousBlock.isZero then none
      else (i.lookup e.header.previousBlock).bind (i.searchFrom hash steps) := by
  conv_lhs => unfold searchFrom
  cases i.lookup e.header.previousBlock <;> rfl

/-- A search of the store is a search of the index, as long as there is no overlay. -/
theorem scanFrom_eq_searchFrom (hidle : i.isSpeculating = false) (hash : VBlake) (steps : Nat)
    (e : Entry) : i.store.scanFrom hash steps e = i.searchFrom hash steps e := by
  induction steps generalizing e with
  | zero => exact (Store.scanFrom_zero i.store hash e).trans (searchFrom_zero i hash e).symm
  | succ steps ih =>
    rw [searchFrom_succ, lookup_of_idle hidle, Store.scanFrom_succ, funext ih]
    rfl

/-- The best chain is searched in the same way with and without an overlay. -/
theorem searchBest_eq (i : Index) (hash : VBlake) :
    i.searchBest hash =
      (i.currentHead.bind (i.searchFrom hash i.knownCount)).map (·.header) := by
  unfold searchBest
  cases hidle : i.isSpeculating with
  | true => rfl
  | false =>
    have hhead : i.currentHead = i.store.head := by
      rw [currentHead, overlay_of_idle hidle]
      rfl
    have hcount : i.knownCount = i.store.size := by
      rw [knownCount, overlay_of_idle hidle]
      rfl
    rw [hhead, hcount]
    have hscan : i.store.scanBest hash = i.store.head.bind (i.searchFrom hash i.store.size) :=
      congrArg _ (funext (scanFrom_eq_searchFrom hidle hash i.store.size))
    rw [← hscan]
    rfl

/-! ## Enough steps -/

/-- Work decreases from parent to parent, within a list of entries. -/
def Descends (i : Index) (l : List Entry) : Prop :=
  ∀ e ∈ l, ∀ p, i.lookup e.header.previousBlock = some p → p ∈ l ∧ p.work < e.work

theorem countP_lt_of_work_lt {p : Entry} (hp : p ∈ l) (hlt : p.work < e.work) :
    l.countP (·.work < p.work) < l.countP (·.work < e.work) := by
  have hsub : (l.filter (·.work < p.work)).Sublist (l.filter (·.work < e.work)) := by
    apply List.monotone_filter_right l
    intro x hx
    exact decide_eq_true (Nat.lt_trans (of_decide_eq_true hx) hlt)
  rw [List.countP_eq_length_filter, List.countP_eq_length_filter]
  apply Nat.lt_of_le_of_ne hsub.length_le
  intro hlength
  have hmem : p ∈ l.filter (·.work < e.work) := List.mem_filter.mpr ⟨hp, decide_eq_true hlt⟩
  rw [← hsub.eq_of_length hlength] at hmem
  exact Nat.lt_irrefl p.work (of_decide_eq_true (List.mem_filter.mp hmem).2)

theorem Descends.lookup_eq_none (hdescends : Descends i l) (he : e ∈ l)
    (hleast : l.countP (·.work < e.work) = 0) : i.lookup e.header.previousBlock = none := by
  apply Option.eq_none_iff_forall_ne_some.mpr
  intro p hp
  obtain ⟨hmem, hlt⟩ := hdescends e he p hp
  have hcount := countP_lt_of_work_lt hmem hlt
  omega

/-- As many steps as there are entries with less work are enough. -/
theorem searchFrom_eq_of_le (hdescends : Descends i l) (he : e ∈ l) {m n : Nat}
    (hm : l.countP (·.work < e.work) ≤ m) (hn : l.countP (·.work < e.work) ≤ n) :
    i.searchFrom hash m e = i.searchFrom hash n e := by
  induction m generalizing e n with
  | zero =>
    cases n with
    | zero => rfl
    | succ n =>
      rw [searchFrom_zero, searchFrom_succ, hdescends.lookup_eq_none he (by omega),
        Option.bind_none, ite_self]
  | succ m ih =>
    cases n with
    | zero =>
      rw [searchFrom_zero, searchFrom_succ, hdescends.lookup_eq_none he (by omega),
        Option.bind_none, ite_self]
    | succ n =>
      rw [searchFrom_succ, searchFrom_succ]
      refine if_congr Iff.rfl rfl (if_congr Iff.rfl rfl ?_)
      cases hlookup : i.lookup e.header.previousBlock with
      | none => rfl
      | some p =>
        obtain ⟨hmem, hlt⟩ := hdescends e he p hlookup
        have hcount := countP_lt_of_work_lt hmem hlt
        exact ih hmem (by omega) (by omega)

/-! ## Mirrors -/

/-- The headers found depend on the look-ups and on the header where the search starts. -/
theorem headers_searchFrom_congr (hlookup : i.lookup = j.lookup) (h : e.header = e'.header)
    (hash : VBlake) (steps : Nat) :
    (i.searchFrom hash steps e).map (·.header) = (j.searchFrom hash steps e').map (·.header) := by
  induction steps generalizing e e' with
  | zero =>
    rw [searchFrom_zero, searchFrom_zero, Entry.hash, Entry.hash, h]
    split
    · exact congrArg some h
    · rfl
  | succ steps ih =>
    rw [searchFrom_succ, searchFrom_succ, Entry.hash, Entry.hash, h, hlookup]
    split
    · exact congrArg some h
    · split
      · rfl
      · cases j.lookup e'.header.previousBlock with
        | none => rfl
        | some p => exact ih rfl

theorem Mirrors.searchBest (h : Mirrors known p t)
    (hdescends : Descends p p.store.blocks) (hash : VBlake) :
    p.searchBest hash = t.searchBest hash := by
  have hhead := h.head
  have hp : p.currentHead = p.store.head := by
    rw [currentHead, overlay_of_idle h.idle]
    rfl
  rw [searchBest_eq, searchBest_eq, hp]
  cases hphead : p.store.head with
  | none =>
    rw [hphead] at hhead
    cases hthead : t.currentHead with
    | none => rfl
    | some x => rw [hthead] at hhead; cases hhead
  | some e =>
    rw [hphead] at hhead
    cases hthead : t.currentHead with
    | none => rw [hthead] at hhead; cases hhead
    | some x =>
      rw [hthead] at hhead
      cases hhead with
      | some halike =>
        have he : e ∈ p.store.blocks := (h.sound.head_eq_some_iff.mp hphead).1
        have hsize := h.size_le
        have hcount := List.countP_le_length (l := p.store.blocks) (p := (·.work < e.work))
        have hknown : p.knownCount = p.store.blocks.length := Mirrors.knownCount_of_idle h.idle
        rw [Option.bind_some, Option.bind_some,
          searchFrom_eq_of_le hdescends he (n := t.knownCount) (by omega) (by omega)]
        exact headers_searchFrom_congr h.agrees.lookup halike.header hash _

end EndorsedChain.Index
