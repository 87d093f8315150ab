import EndorsedChain.Proofs.Sample.Openings
import EndorsedChain.Proofs.Session.Backed

/-!
# Refused calls

Before a header is stored everything about it is checked.  What comes after cannot fail, whatever
else the store holds: the header is still stored when its keystones have got their proofs, so that
it can become the head.  Hence a call that is refused has written nothing.
-/

namespace EndorsedChain

open VeriBlock

namespace Index

variable {i : Index} {h : Header} {proof : Digest} {e : Error}

/-- The steps after the first write always come to their end. -/
theorem exists_commit_ok (i : Index) (a : Admission) : ∃ edits, (i.commit a).2 = .ok edits := by
  rw [commit_eq]
  split
  · exact ⟨_, rfl⟩
  · exact ⟨_, rfl⟩

/-- A header is refused during speculation or by a check, and for no other reason. -/
theorem addEdits_eq_error_iff (i : Index) (h : Header) (proof : Digest) (e : Error) :
    (i.addEdits h proof).2 = .error e ↔
      i.isSpeculating = true ∧ e = .precondition .addBlock ∨
        i.isSpeculating = false ∧ i.accept i.store.head h proof = .error e := by
  unfold addEdits
  cases hspeculating : i.isSpeculating with
  | true => simp [eq_comm]
  | false =>
    rw [if_neg Bool.false_ne_true]
    cases haccept : i.accept i.store.head h proof with
    | error e' => simp
    | ok admission =>
      cases admission with
      | none => simp
      | some a =>
        obtain ⟨edits, hedits⟩ := i.exists_commit_ok a
        simp [hedits]

theorem addEdits_of_error (herror : (i.addEdits h proof).2 = .error e) :
    (i.addEdits h proof).1 = i := by
  rcases (addEdits_eq_error_iff i h proof e).mp herror with ⟨hspeculating, -⟩ | ⟨hidle, haccept⟩
  · rw [addEdits, if_pos hspeculating]
  · rw [addEdits, if_neg (by simp [hidle]), haccept]

theorem proveEdits_of_error (herror : (i.proveEdits h proof).2 = .error e) :
    (i.proveEdits h proof).1 = i := by
  unfold proveEdits at herror ⊢
  split
  · rfl
  · rename_i hidle
    rw [if_neg hidle] at herror
    cases herror

theorem addTemporarily_of_error (herror : (i.addTemporarily h proof).2 = .error e) :
    (i.addTemporarily h proof).1 = i := by
  unfold addTemporarily at herror ⊢
  cases haccept : i.accept i.currentHead h proof with
  | error e' => rfl
  | ok admission => rw [haccept] at herror; cases admission <;> cases herror

end Index

namespace Session

variable {s : Session} {r : Reply} {e : Index.Error}

theorem keep_of_error {result : Index × Except Index.Error (List Edit)}
    (hsame : ∀ e, result.2 = .error e → result.1 = s.index)
    (hkeep : s.keep (result.1, Index.journal result.2) = some r) (herror : r.result = .error e) :
    r.session = s := by
  cases hjournal : Index.journal result.2 with
  | ok changes =>
    rw [hjournal] at hkeep
    cases hkeep
    cases herror
  | error f =>
    cases f with
    | workTooWide => rw [hjournal] at hkeep; cases hkeep
    | rejected e' =>
      rw [hjournal, hsame e' (Index.journal_eq_rejected hjournal)] at hkeep
      cases hkeep
      rfl

/-- A refused call leaves the session as it was, its store with the head, the Bitcoin store and the
overlay included.  Adding a header is refused before the first write or not at all. -/
theorem refusal_changes_nothing (s : Session) (h : Header) (proof : Digest) :
    (∀ c ∈ [Call.add h proof, .prove h proof, .addTemporarily h proof, .proveTemporarily h proof],
      ∀ r e, s.call c = some r → r.result = .error e → r.session = s) ∧
      (∀ e, (s.index.addEdits h proof).2 = .error e ↔
        s.index.isSpeculating = true ∧ e = .precondition .addBlock ∨
          s.index.isSpeculating = false ∧
            s.index.accept s.index.store.head h proof = .error e) ∧
      ∀ a, ∃ edits, (s.index.commit a).2 = .ok edits := by
  refine ⟨?_, s.index.addEdits_eq_error_iff h proof, s.index.exists_commit_ok⟩
  intro c hc r e hcall herror
  simp only [List.mem_cons, List.not_mem_nil, or_false] at hc
  rcases hc with rfl | rfl | rfl | rfl
  · exact keep_of_error (fun e ↦ Index.addEdits_of_error) hcall herror
  · exact keep_of_error (fun e ↦ Index.proveEdits_of_error) hcall herror
  · cases hcall
    exact congrArg (Session.mk · s.journal) (Index.addTemporarily_of_error herror)
  · cases hcall
    cases herror

/-- A header whose parent is unknown is refused by a session that has a head. -/
theorem refusal_of_orphan : ∃ s r e, (start .testnet).run [.add Sample.second .zero] = some s ∧
    s.call (.add Sample.genesis .zero) = some r ∧ r.result = .error e ∧ r.session = s := by
  have hmap : (((start .testnet).run [.add Sample.second .zero]).bind fun s ↦
      (s.call (.add Sample.genesis .zero)).map fun r ↦ r.result.toBool) = some false := by
    decide +kernel
  obtain ⟨s, hrun, hcall⟩ := Option.bind_eq_some_iff.mp hmap
  obtain ⟨r, hcall, hresult⟩ := Option.map_eq_some_iff.mp hcall
  cases herror : r.result with
  | ok _ => rw [herror] at hresult; cases hresult
  | error e =>
    exact ⟨s, r, e, hrun, hcall, herror, (refusal_changes_nothing s Sample.genesis .zero).1
      _ List.mem_cons_self r e hcall herror⟩

end Session

end EndorsedChain
