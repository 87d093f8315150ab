import EndorsedChain.Proofs.Session.Ancestry
import EndorsedChain.Proofs.Session.ForkChoice

/-!
# Which keystones fork choice compares

Fork choice pairs the keystones of two branches by their positions in two lists.  If both branches
were grown from one first header, each list holds exactly the keystones of its branch, each one
once, from the header at which the cursors meet up to the tip.  The header at position `p` is then
`p` periods above the common one on either side, so that keystones of equal heights are compared.

A walk between a header in the first period and one that is not goes on below the first header,
whose reference is nine zero bytes.  It can only meet if a known hash ends with them.
-/

namespace EndorsedChain

open VeriBlock Relation Sample

namespace Index

variable {known : Set Header} {i : Index} {b c : VeriBlockChain} {e head candidate : Entry}
  {l : List Entry} {h p : Header} {x y m n : Nat}

/-- The header `p` comes right before `h`. -/
def Extends (i : Index) (h p : Header) : Prop := i.get h.previousBlock = some p

/-- The second header is on the branch that ends with the first one. -/
def Along (i : Index) : Header → Header → Prop := ReflTransGen i.Extends

/-- The list holds the keystones of a chain from one height up to another, each one once, and in
the order of their heights. -/
structure KeystonesUp (c : VeriBlockChain) (low high : Nat) (l : List Entry) : Prop where
  mem_iff (h : Header) : h ∈ l.map (·.header) ↔
    h.isKeystone = true ∧ ∃ n, low ≤ n ∧ n ≤ high ∧ c.headers[n]? = some h
  nodup : (l.map (·.header)).Nodup
  height (p : Nat) (e : Entry) : l[p]? = some e → e.height.toNat = low + keystoneInterval * p

namespace OnBranch

/-! ## Ancestors -/

theorem extends_of_succ (hk : KeysDistinct known) (hknows : Knows known i)
    (hc : i.OnBranch c e x) (hp : c.headers[n]? = some p) (hh : c.headers[n + 1]? = some h) :
    i.Extends h p := by
  rw [Extends, hc.grown.follows hc.size_le hh n p rfl hp]
  exact hknows.get_previous hk (hc.known p (Array.mem_of_getElem? hp))

/-- By induction on the distance to the tip. -/
theorem along (hk : KeysDistinct known) (hknows : Knows known i) (hc : i.OnBranch c e x)
    (hle : n ≤ x) (hh : c.headers[n]? = some h) : i.Along e.header h := by
  obtain ⟨k, rfl⟩ := Nat.exists_eq_add_of_le hle
  clear hle
  induction k generalizing n h with
  | zero =>
    cases hc.header.symm.trans hh
    exact .refl
  | succ k ih =>
    have hlt : n + 1 < c.headers.size := by
      have := hc.lt_size
      omega
    have hnext := Array.getElem?_eq_getElem hlt
    rw [Nat.add_comm k 1, ← Nat.add_assoc] at hc
    exact (ih hnext hc).tail (hc.extends_of_succ hk hknows hh hnext)

/-! ## The keystones of a branch -/

theorem isKeystone_iff (hc : i.OnBranch c e x) (hh : c.headers[n]? = some h) :
    h.isKeystone = true ↔ n % 20 = 0 := by
  rw [Header.isKeystone, beq_iff_eq, Header.roundIndex, (hc.placed hh).height]
  rfl

theorem mem_keystones (hc : i.OnBranch c e x) : h ∈ c.keystones m x ↔
    h.isKeystone = true ∧ ∃ n, 20 * m ≤ n ∧ n ≤ x ∧ c.headers[n]? = some h := by
  unfold VeriBlockChain.keystones keystoneInterval
  simp only [List.mem_filterMap, List.mem_range'_1]
  constructor
  · rintro ⟨p, hp, hh⟩
    exact ⟨(hc.isKeystone_iff hh).mpr (by omega), 20 * p, by omega, by omega, hh⟩
  · rintro ⟨hkeystone, n, hlow, hhigh, hh⟩
    have hmod := (hc.isKeystone_iff hh).mp hkeystone
    refine ⟨n / 20, by omega, ?_⟩
    rw [show 20 * (n / 20) = n by omega]
    exact hh

/-- Different heights have different headers. -/
theorem nodup_keystones (hc : i.OnBranch c e x) : (c.keystones m x).Nodup := by
  refine List.Nodup.filterMap ?_ List.nodup_range'
  intro p q h hp hq
  have heq := (hc.placed hp).height.symm.trans (hc.placed hq).height
  exact Nat.eq_of_mul_eq_mul_left (by decide) heq

theorem getElem?_keystones (hk : KeysDistinct known) (hknows : Knows known i)
    (hc : i.OnBranch c e x) (hh : (c.keystones m x)[n]? = some h) :
    c.headers[20 * (m + n)]? = some h := by
  obtain ⟨entry, hdown⟩ := hc.exists_wayDown hk hknows
  rw [← hdown.map_header, List.map_map, List.getElem?_map] at hh
  obtain ⟨p, hp, rfl⟩ := Option.map_eq_some_iff.mp hh
  obtain ⟨hlt, rfl⟩ := List.getElem?_eq_some_iff.mp hp
  rw [List.length_range'] at hlt
  rw [List.getElem_range', Nat.one_mul]
  exact hdown.header (m + n) (by omega)

theorem keystonesUp (hk : KeysDistinct known) (hknows : Knows known i) (hc : i.OnBranch c e x)
    (hl : l.map (·.header) = c.keystones m x) : KeystonesUp c (20 * m) x l where
  mem_iff h := by
    rw [hl]
    exact hc.mem_keystones
  nodup := by
    rw [hl]
    exact hc.nodup_keystones
  height p d hd := by
    have hget : (c.keystones m x)[p]? = some d.header := by
      rw [← hl, List.getElem?_map, hd, Option.map_some]
    rw [keystoneInterval, ← Nat.mul_add]
    exact (hc.placed (hc.getElem?_keystones hk hknows hget)).height

end OnBranch

namespace KeystonesUp

variable {d : Entry} {l' : List Entry} {low high high' : Nat}

/-- The lowest keystone is the first one. -/
theorem getElem?_zero (hl : KeystonesUp c low high l) (hc : i.OnBranch c e x)
    (hkeystone : h.isKeystone = true) (hh : c.headers[low]? = some h) (hle : low ≤ high) :
    l[0]?.map (·.header) = some h := by
  have hmem : h ∈ l.map (·.header) := (hl.mem_iff h).mpr ⟨hkeystone, low, le_rfl, hle, hh⟩
  obtain ⟨d, hd, rfl⟩ := List.mem_map.mp hmem
  obtain ⟨p, hp⟩ := List.mem_iff_getElem?.mp hd
  have hheight : low + keystoneInterval * p = low :=
    (hl.height p d hp).symm.trans (hc.placed hh).height
  obtain rfl : p = 0 := by
    unfold keystoneInterval at hheight
    omega
  rw [hp, Option.map_some]

theorem height_eq (hl : KeystonesUp b low high l) (hl' : KeystonesUp c low high' l')
    (hd : l[n]? = some d) (he : l'[n]? = some e) : d.height = e.height :=
  UInt32.toNat_inj.mp ((hl.height n d hd).trans (hl'.height n e he).symm)

end KeystonesUp

/-- The cursors stand on a common keystone, and the lists that are compared are the keystones of
both branches from there up to the tips. -/
structure PairsUp (i : Index) (b c : VeriBlockChain) (head candidate : Entry) (x y : Nat)
    (walk : ForkWalk) (m : Header) : Prop where
  incumbent_eq : walk.incumbent.header = m
  candidate_eq : walk.candidate.header = m
  isKeystone : m.isKeystone = true
  along_head : i.Along head.header m
  along_candidate : i.Along candidate.header m
  incumbents : KeystonesUp b m.height.toNat x (byHeight walk.incumbents)
  candidates : KeystonesUp c m.height.toNat y (byHeight walk.candidates)
  first_incumbent : (byHeight walk.incumbents)[0]?.map (·.header) = some m
  first_candidate : (byHeight walk.candidates)[0]?.map (·.header) = some m
  /-- The same positions have the same heights. -/
  height_eq (p : Nat) (d e : Entry) : (byHeight walk.incumbents)[p]? = some d →
    (byHeight walk.candidates)[p]? = some e → d.height = e.height

/-! ## Walks that end -/

section TwoBranches

variable {walk : ForkWalk}
  (hk : KeysDistinct known) (hknows : Knows known i) (hb : i.OnBranch b head x)
  (hc : i.OnBranch c candidate y)

include hk hknows hb hc

theorem header_eq_of_met (hmet : ForkWalk.run i.lookup n (.start head candidate) = .met walk) :
    walk.candidate.header = walk.incumbent.header := by
  have hlookup (d e : Entry) (_ : d.header ∈ known)
      (he : i.lookup d.header.effectivePreviousKeystone = some e) : e.header ∈ known :=
    (hknows.lookup_mem hk he).1
  have hstart : (ForkWalk.start head candidate).Collects (·.header ∈ known) (·.header ∈ known) :=
    ForkWalk.collects_start (hb.mem hk hknows hb.header) (hc.mem hk hknows hc.header)
  have hwalk := hstart.run hlookup hlookup hmet
  have hhash : walk.incumbent.hash = walk.candidate.hash :=
    (ForkWalk.run_invariant (P := fun _ ↦ True) (fun _ _ ↦ trivial) trivial hmet).2
  exact hk hwalk.candidate hwalk.incumbent (congrArg VBlake.storeKey hhash.symm)

theorem pairsUp_of_met (hfirst : b.headers[0]? = c.headers[0]?)
    (hother : head.header ≠ candidate.header) (hperiod : InFirstPeriod x ↔ InFirstPeriod y)
    (hmet : ForkWalk.run i.lookup n (.start head candidate) = .met walk) :
    i.PairsUp b c head candidate x y walk walk.incumbent.header := by
  have hheader := header_eq_of_met hk hknows hb hc hmet
  obtain ⟨walk', m, hmet', hm, hm', hbm, hcm, hincumbents, hcandidates⟩ :=
    run_met hk hknows hb hc hfirst hother hperiod
  -- a walk with steps to spare ends where this one does
  cases ForkWalk.eq_of_ended hmet hmet' nofun nofun
  have hheight : walk.incumbent.header.height.toNat = 20 * m := (hb.placed hbm).height
  have hkeystone := (hb.isKeystone_iff hbm).mpr (Nat.mul_mod_right 20 m)
  have hleft := hb.keystonesUp hk hknows hincumbents
  have hright := hc.keystonesUp hk hknows hcandidates
  rw [← hheight] at hm hm' hbm hcm hleft hright
  exact ⟨rfl, hheader, hkeystone, hb.along hk hknows hm hbm, hc.along hk hknows hm' hcm, hleft,
    hright, hleft.getElem?_zero hb hkeystone hbm hm, hright.getElem?_zero hc hkeystone hcm hm',
    fun p d e ↦ hleft.height_eq hright⟩

/-- If exactly one of both headers is in the first period, cursors only meet after a step below the
first header. -/
theorem exists_zero_of_met (hfirst : b.headers[0]? = c.headers[0]?)
    (hother : head.header ≠ candidate.header) (hperiod : ¬(InFirstPeriod x ↔ InFirstPeriod y))
    (hmet : ForkWalk.run i.lookup n (.start head candidate) = .met walk) :
    ∃ z, i.lookup VBlake.zero.toKeystone = some z := by
  by_contra hnone
  have hzero : i.lookup VBlake.zero.toKeystone = none :=
    Option.eq_none_iff_forall_ne_some.mpr fun z hz ↦ hnone ⟨z, hz⟩
  have hlost := run_lost hk hknows hb hc hfirst hother hperiod hzero
  cases ForkWalk.eq_of_ended hmet hlost nofun nofun

end TwoBranches

end Index

namespace Session

open Index

/-- Where the cursors of fork choice meet on two branches of a tree, there is a common keystone,
and the lists that are compared are the keystones of the branches from there up to the tips.  If
exactly one of both headers is in the first period, the cursors only meet if some header has a hash
that ends with nine zero bytes. -/
theorem keystones_pair_up {params : NetworkParameters} {calls : List Call} {s : Session}
    {b c : VeriBlockChain} {head candidate : Entry} {x y n : Nat} {walk : ForkWalk}
    (hkeys : KeysDistinct {h | h ∈ calls.flatMap Call.headers})
    (hrun : (start params).run calls = some s) (hhead : s.index.OnBranch b head x)
    (hcandidate : s.index.OnBranch c candidate y) (hfirst : b.headers[0]? = c.headers[0]?)
    (hother : head.header ≠ candidate.header)
    (hmet : ForkWalk.run s.index.lookup n (.start head candidate) = .met walk) :
    ((InFirstPeriod x ↔ InFirstPeriod y) →
        ∃ m, s.index.PairsUp b c head candidate x y walk m) ∧
      (¬(InFirstPeriod x ↔ InFirstPeriod y) →
        ∃ h ∈ calls.flatMap Call.headers, h.hash.endsWith VBlake.zero.toKeystone = true) := by
  have hknows := knows_run hkeys (fun h hh ↦ hh) hrun
  constructor
  · intro hperiod
    exact ⟨_, pairsUp_of_met hkeys hknows hhead hcandidate hfirst hother hperiod hmet⟩
  · intro hperiod
    obtain ⟨z, hz⟩ := exists_zero_of_met hkeys hknows hhead hcandidate hfirst hother hperiod hmet
    obtain ⟨hmem, -, hagrees⟩ := hknows.lookup_mem hkeys hz
    have hle : VBlake.zero.toKeystone.length ≤ z.hash.length :=
      VBlake.zero.toKeystone.length_le.trans_eq z.header.length_hash.symm
    exact ⟨z.header, hmem, (VBlake.agrees_iff_endsWith hle).mp hagrees⟩

end Session

end EndorsedChain
