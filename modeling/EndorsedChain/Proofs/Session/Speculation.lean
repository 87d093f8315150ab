import EndorsedChain.Proofs.Index.Search
import EndorsedChain.Proofs.Session.Rooted

/-!
# Speculating is committing

Adding headers and attaching proofs can be done for good or temporarily.  As long as nothing
panics, both ways give the same answers, and after each step both sessions find the same entries
and the same best chain.
-/

namespace EndorsedChain

open VeriBlock

/-- What can be done for good and temporarily. -/
inductive Step where
  | add (h : Header) (proof : Digest)
  | prove (h : Header) (proof : Digest)

namespace Step

def committed : Step → Call
  | add h proof => .add h proof
  | prove h proof => .prove h proof

def speculated : Step → Call
  | add h proof => .addTemporarily h proof
  | prove h proof => .proveTemporarily h proof

end Step

namespace Session

variable {known : Set Header} {o : Header} {c t : Session} {r : Reply}

theorem origin?_call (hbacked : Backed known c.journal c.index.store)
    {call : Call} (hmem : ∀ h ∈ call.headers, h ∈ known) (hpersistent : call.isPersistent = true)
    (hcall : c.call call = some r) (ho : c.origin? = some o) : r.session.origin? = some o := by
  obtain ⟨-, ⟨hjournal, -⟩ | ⟨changes, -, hjournal, -⟩⟩ :=
    call_persistent hbacked.headed hmem hpersistent hcall
  · rwa [origin?, hjournal]
  · rw [origin?, hjournal, List.reverse_cons, List.flatten_append]
    exact originOf?_append ho _

/-- One session speculates from where the other one goes on. -/
structure Follows (known : Set Header) (c t : Session) : Prop where
  backed : Backed known c.journal c.index.store
  mirrors : Index.Mirrors known c.index t.index
  /-- Chains below the overlay end at the origin. -/
  roots : ∀ e ∈ t.index.store.blocks, t.index.store.get e.header.previousBlock = none →
    c.origin? = some e.header

theorem Follows.refl (hk : KeysDistinct known) (hbacked : Backed known c.journal c.index.store)
    (hidle : c.index.isSpeculating = false) : Follows known c c where
  backed := hbacked
  mirrors := .refl hidle hbacked.headed.toSound
  roots e he hnone := by
    obtain ⟨o, horigin, hrooted⟩ := (hbacked.rootedBy hk).rooted he
    rw [origin?, horigin]
    by_contra hne
    obtain ⟨p, -, hget, -⟩ := hrooted.parent e he fun heq ↦ hne (congrArg some heq.symm)
    rw [hnone] at hget
    cases hget

theorem Follows.closed (hk : KeysDistinct known) (h : Follows known c t)
    (horigin : ∀ o, c.origin? = some o → ∀ h ∈ known, h.hash.endsWith o.previousBlock = false) :
    Index.Mirrors.Closed c.index t.index := fun e he hnone ↦
  Store.get_eq_none_of_endsWith hk h.backed.headed.toHolds e.header.previousBlock.length_le
    (horigin e.header (h.roots e he hnone))

/-- The answers to a mutation and to the corresponding temporary modification. -/
theorem Follows.reply (h : Follows known c t) {result : Index × Except Index.Error (List Edit)}
    {result' : Index × Except Index.Error Unit}
    (hmirrored : Index.Mirrored known c.index t.index result result')
    (hkeep : c.keep (result.1, Index.journal result.2) = some r) :
    r.result = result'.2 ∧ Index.Mirrors known r.session.index result'.1 := by
  cases hmirrored with
  | refused e =>
    cases hkeep
    exact ⟨rfl, h.mirrors⟩
  | done edits hmirrors =>
    cases hjournal : Index.journal (.ok edits) with
    | ok changes =>
      rw [hjournal] at hkeep
      cases hkeep
      exact ⟨rfl, hmirrors⟩
    | error f =>
      cases f with
      | rejected e => cases Index.journal_eq_rejected hjournal
      | workTooWide => rw [hjournal] at hkeep; cases hkeep

theorem Follows.step (hk : KeysDistinct known) (h : Follows known c t) (step : Step)
    (hmem : ∀ h ∈ step.committed.headers, h ∈ known) (hcall : c.call step.committed = some r)
    (horigin : ∀ o, r.session.origin? = some o →
      ∀ h ∈ known, h.hash.endsWith o.previousBlock = false) :
    ∃ r', t.call step.speculated = some r' ∧ r.result = r'.result ∧
      Follows known r.session r'.session := by
  have hpersistent : step.committed.isPersistent = true := by cases step <;> rfl
  have hpersists {o : Header} (ho : c.origin? = some o) : r.session.origin? = some o :=
    origin?_call h.backed hmem hpersistent hcall ho
  have hclosed := h.closed hk fun o ho ↦ horigin o (hpersists ho)
  have hbacked := backed_call h.backed hmem hcall
  cases step with
  | add hd proof =>
    have hmirrored := h.mirrors.addEdits hk h.backed.headed hclosed
      (hmem hd List.mem_cons_self) proof
    obtain ⟨hresult, hmirrors⟩ := h.reply hmirrored hcall
    refine ⟨_, rfl, hresult, hbacked, hmirrors, fun e he hnone ↦ hpersists ?_⟩
    have hstore := t.index.store_addTemporarily hd proof
    exact h.roots e (hstore ▸ he) (hstore ▸ hnone)
  | prove hd proof =>
    obtain ⟨hresult, hmirrors⟩ := h.reply (h.mirrors.proveEdits hk hd proof) hcall
    refine ⟨_, rfl, hresult, hbacked, hmirrors, fun e he hnone ↦ hpersists ?_⟩
    have hstore := t.index.store_proveTemporarily hd proof
    exact h.roots e (hstore ▸ he) (hstore ▸ hnone)

/-- Works decrease towards the origin, whose parent is unknown. -/
theorem Follows.descends (hk : KeysDistinct known) (h : Follows known c t)
    (horigin : ∀ o, c.origin? = some o → ∀ h ∈ known, h.hash.endsWith o.previousBlock = false) :
    c.index.Descends c.index.store.blocks := by
  intro e he p hlookup
  have hholds := h.backed.headed.toHolds
  rw [Index.lookup_of_idle h.mirrors.idle] at hlookup
  obtain ⟨o, ho, hrooted⟩ := (h.backed.rootedBy hk).rooted he
  refine ⟨Store.get_mem hholds.keyed hlookup, hrooted.work_lt he ?_ hlookup⟩
  rintro rfl
  have hnone := Store.get_eq_none_of_endsWith hk hholds e.header.previousBlock.length_le
    (horigin e.header ho)
  rw [hnone] at hlookup
  cases hlookup

/-- Two replies that cannot be told apart: by what is answered, by what is found afterwards, or by
the best chain. -/
structure SameReply (r r' : Reply) : Prop where
  result : r.result = r'.result
  lookup : ∀ hash, r.session.index.lookup hash = r'.session.index.lookup hash
  searchBest : ∀ hash, r.session.index.searchBest hash = r'.session.index.searchBest hash

theorem Follows.trace (hk : KeysDistinct known) (h : Follows known c t) {steps : List Step}
    (hmem : ∀ h ∈ (steps.map Step.committed).flatMap Call.headers, h ∈ known)
    {committed : List Reply} (htrace : c.trace (steps.map Step.committed) = some committed)
    (horigin : ∀ r ∈ committed, ∀ o, r.session.origin? = some o →
      ∀ h ∈ known, h.hash.endsWith o.previousBlock = false) :
    ∃ speculated, t.trace (steps.map Step.speculated) = some speculated ∧
      List.Forall₂ SameReply committed speculated := by
  induction steps generalizing c t committed with
  | nil =>
    cases htrace
    exact ⟨[], rfl, .nil⟩
  | cons step steps ih =>
    rw [List.map_cons, Session.trace, Option.bind_eq_some_iff] at htrace
    obtain ⟨r, hcall, hrest⟩ := htrace
    obtain ⟨rs, hrs, rfl⟩ := Option.map_eq_some_iff.mp hrest
    rw [List.map_cons, List.flatMap_cons] at hmem
    rw [List.forall_mem_cons] at horigin
    obtain ⟨r', hcall', hresult, hfollows⟩ :=
      h.step hk step (fun h hh ↦ hmem h (List.mem_append_left _ hh)) hcall horigin.1
    obtain ⟨rs', hrest', hsame⟩ :=
      ih hfollows (fun h hh ↦ hmem h (List.mem_append_right _ hh)) hrs horigin.2
    refine ⟨r' :: rs', ?_, .cons ⟨hresult, ?_, ?_⟩ hsame⟩
    · rw [List.map_cons, Session.trace, hcall', Option.bind_some, hrest', Option.map_some]
    · exact congrFun hfollows.mirrors.agrees.lookup
    · exact hfollows.mirrors.searchBest (hfollows.descends hk horigin.1)

/-- Speculating gives step by step what committing gives. -/
theorem speculation_matches_commitment {params : NetworkParameters} {before : List Call}
    {steps : List Step} {s : Session} {committed : List Reply}
    (hkeys : KeysDistinct
      {h | h ∈ (before ++ steps.map Step.committed).flatMap Call.headers})
    (hbefore : (start params).run before = some s) (hidle : s.index.isSpeculating = false)
    (hcommitted : s.trace (steps.map Step.committed) = some committed)
    (horigin : ∀ r ∈ committed, ∀ o, r.session.origin? = some o →
      ∀ h ∈ (before ++ steps.map Step.committed).flatMap Call.headers,
        h.hash.endsWith o.previousBlock = false) :
    ∃ speculated, s.trace (steps.map Step.speculated) = some speculated ∧
      List.Forall₂ SameReply committed speculated := by
  rw [List.flatMap_append] at hkeys horigin
  have hfollows := Follows.refl hkeys
    (backed_run (backed_start params) (fun h hh ↦ List.mem_append_left _ hh) hbefore) hidle
  exact hfollows.trace hkeys (fun h hh ↦ List.mem_append_right _ hh) hcommitted horigin

open Sample in
/-- The third header of the fork is refused as long as its keystone is unknown. -/
def forkingSteps : List Step :=
  [.add second .zero, .add impostor .zero, .add rival .zero, .prove second (.sha256 []),
    .add impostor .zero]

open Sample in
/-- Both sessions refuse the same header, and both fork. -/
theorem forking_steps_match : ∃ s committed speculated,
    (start .testnet).run [.add genesis .zero] = some s ∧
      s.trace (forkingSteps.map Step.committed) = some committed ∧
      s.trace (forkingSteps.map Step.speculated) = some speculated ∧
      committed.map (·.result.isOk) = [true, false, true, true, true] ∧
      committed.map (·.session.index.store.size) = [2, 2, 3, 3, 4] ∧
      List.Forall₂ SameReply committed speculated := by
  have hmap : ((start .testnet).run [.add genesis .zero]).bind (fun s ↦
      (s.trace (forkingSteps.map Step.committed)).map fun committed ↦
        (s.index.isSpeculating, committed.map (·.result.isOk),
          committed.map (·.session.index.store.size),
          committed.map (·.session.origin?))) =
      some (false, [true, false, true, true, true], [2, 2, 3, 3, 4],
        List.replicate 5 (some genesis)) := by
    decide +kernel
  obtain ⟨s, hbefore, hs⟩ := Option.bind_eq_some_iff.mp hmap
  obtain ⟨committed, hcommitted, hreplies⟩ := Option.map_eq_some_iff.mp hs
  simp only [Prod.mk.injEq] at hreplies
  obtain ⟨hidle, hresults, hsizes, horigins⟩ := hreplies
  have horigin (r : Reply) (hr : r ∈ committed) : r.session.origin? = some genesis :=
    List.eq_of_mem_replicate (horigins ▸ List.mem_map_of_mem hr)
  obtain ⟨speculated, hspeculated, hsame⟩ := speculation_matches_commitment
    (by decide +kernel) hbefore hidle hcommitted fun r hr o ho h hh ↦ by
      rw [horigin r hr, Option.some.injEq] at ho
      subst ho
      revert h
      decide
  exact ⟨s, committed, speculated, hbefore, hcommitted, hspeculated, hresults, hsizes, hsame⟩

end Session

end EndorsedChain
