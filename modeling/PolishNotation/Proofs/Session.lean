import PolishNotation.Proofs.Memo
import PolishNotation.Session

namespace PolishNotation

namespace Request

variable {memo : Memo} {requests : List Request} {request : Request} {index : Nat}

theorem memoAfter_cons (memo : Memo) (request : Request) (rest : List Request) :
    memoAfter memo (request :: rest) = memoAfter (request.run memo).memo rest := rfl

theorem memoAfter_append_singleton (memo : Memo) (requests : List Request) (request : Request) :
    memoAfter memo (requests ++ [request]) = (request.run (memoAfter memo requests)).memo := by
  simp [memoAfter]

/-- Every request runs with the memo that all requests before it left. -/
theorem getElem?_runAll (memo : Memo) (requests : List Request) (index : Nat) :
    (runAll memo requests)[index]? =
      requests[index]?.map fun request => request.run (memoAfter memo (requests.take index)) := by
  induction requests generalizing memo index with
  | nil => rfl
  | cons request rest ih =>
      cases index with
      | zero => rfl
      | succ index =>
          rw [runAll_cons, List.getElem?_cons_succ, List.getElem?_cons_succ, ih, List.take_succ_cons,
            memoAfter_cons]

theorem runAll_append_singleton (memo : Memo) (requests : List Request) (request : Request) :
    runAll memo (requests ++ [request]) =
      runAll memo requests ++ [request.run (memoAfter memo requests)] := by
  induction requests generalizing memo with
  | nil => rfl
  | cons first rest ih =>
      rw [List.cons_append, runAll_cons, runAll_cons, ih, memoAfter_cons, List.cons_append]

/-- A request keeps the memo faithful. -/
theorem isFaithful_run (faithful : memo.IsFaithful) (request : Request) :
    (request.run memo).memo.IsFaithful := by
  cases request with
  | convert source => exact faithful.of_converts (memo.converts_convert source)
  | restore source => exact faithful
  | trace source => exact faithful
  | read source => exact faithful
  | forget => exact Memo.isFaithful_empty

theorem isFaithful_memoAfter (faithful : memo.IsFaithful) (requests : List Request) :
    (memoAfter memo requests).IsFaithful := by
  induction requests generalizing memo with
  | nil => exact faithful
  | cons request rest ih => exact ih (isFaithful_run faithful request)

end Request

variable {requests : List Request} {index : Nat} {request : Request} {source : Text}

theorem getElem?_session (made : requests[index]? = some request) :
    (session requests)[index]? = some (request.run (memoBefore requests index)) := by
  rw [session, Request.getElem?_runAll, made]
  rfl

theorem session_append_singleton (requests : List Request) (request : Request) :
    session (requests ++ [request]) =
      session requests ++ [request.run (Request.memoAfter .empty requests)] :=
  Request.runAll_append_singleton _ _ _

theorem isFaithful_memoBefore (requests : List Request) (index : Nat) :
    (memoBefore requests index).IsFaithful :=
  Request.isFaithful_memoAfter Memo.isFaithful_empty _

/-- The memo before the next request is the memo of the reply. -/
theorem memoBefore_succ (made : requests[index]? = some request) :
    memoBefore requests (index + 1) = (request.run (memoBefore requests index)).memo := by
  rw [memoBefore, List.take_add_one, made, Option.toList_some, Request.memoAfter_append_singleton,
    memoBefore]

/-- A faithful memo cannot be noticed in the answer. -/
theorem answer_run_convert {memo : Memo} (faithful : memo.IsFaithful) (source : Text) :
    (Request.run memo (.convert source)).answer = .text (toPostfix source) :=
  congrArg Answer.text (faithful.result_eq (memo.converts_convert source))

/-- A reply is a hit if the memo before it knows the source. -/
theorem isHit_run_convert_iff (memo : Memo) (source : Text) :
    (Request.run memo (.convert source)).IsHit memo ↔ (memo.find? source).isSome := by
  have converts := memo.converts_convert source
  refine ⟨fun hit => ?_, fun known => (converts.of_isSome known).1⟩
  cases found : memo.find? source with
  | some output => rfl
  | none =>
      have kept := (converts.of_eq_none found).1
      exact absurd (kept.symm.trans hit) (Nat.ne_of_lt (Nat.lt_succ_self _))

/-- A refused source is counted as a miss and changes nothing else in the memo. -/
theorem memo_run_convert_of_refused {memo : Memo} {fault : Fault}
    (refused : (Request.run memo (.convert source)).answer = .text (.error fault)) :
    (Request.run memo (.convert source)).memo = ⟨memo.entries, memo.hits, memo.misses + 1⟩ := by
  have result : (memo.convert source).1.result = .error fault := Answer.text.inj refused
  have converts := memo.converts_convert source
  show (memo.convert source).2 = _
  generalize memo.convert source = outcome at converts result
  obtain ⟨report, next⟩ := outcome
  cases converts with
  | hit => cases result
  | miss => cases result
  | refusal => rfl

/-- A conversion in a session answers like one without a memo. A refused source changes no entry and
is refused again, a hit reports nothing, and a miss reports what its conversion reports. -/
theorem session_convert (asked : requests[index]? = some (.convert source)) :
    ∃ reply, (session requests)[index]? = some reply ∧
      reply.answer = .text ((Conversion.ofText source).map Conversion.output) ∧
      (∀ fault, reply.answer = .text (.error fault) →
        reply.memo.entries = (memoBefore requests index).entries ∧
          ∀ again : Nat, requests[again]? = some (.convert source) →
            ∃ other, (session requests)[again]? = some other ∧
              other.answer = .text (.error fault)) ∧
      (reply.IsHit (memoBefore requests index) → reply.events = []) ∧
      (¬ reply.IsHit (memoBefore requests index) → reply.events = Conversion.events source) := by
  have answered (place : Nat) : (Request.run (memoBefore requests place) (.convert source)).answer =
      .text (toPostfix source) := answer_run_convert (isFaithful_memoBefore requests place) source
  have converts := (memoBefore requests index).converts_convert source
  refine ⟨_, getElem?_session asked, answered index, fun fault refused => ⟨?_, ?_⟩, ?_, ?_⟩
  · rw [memo_run_convert_of_refused refused]
  · intro again repeated
    exact ⟨_, getElem?_session repeated, (answered again).trans ((answered index).symm.trans refused)⟩
  · intro hit
    exact (converts.of_isSome ((isHit_run_convert_iff _ source).1 hit)).2
  · intro miss
    rw [isHit_run_convert_iff] at miss
    exact (converts.of_eq_none (by simpa using miss)).2

/-- The refused source is refused again behind a hit. -/
theorem session_convert_refused :
    let requests : List Request :=
      [.convert "A+".toList, .convert "A*B".toList, .convert "A*B".toList, .convert "A+".toList]
    requests[3]? = some (.convert "A+".toList) ∧
      ∃ reply, (session requests)[3]? = some reply ∧
        reply.answer = .text (.error (.located .missingLastOperand 2)) ∧
        reply.memo.entries = (memoBefore requests 3).entries ∧
        ¬ reply.IsHit (memoBefore requests 3) ∧ reply.events = Conversion.events "A+".toList := by
  intro requests
  have asked : requests[3]? = some (.convert "A+".toList) := rfl
  obtain ⟨reply, replied, answer, refused, -, miss⟩ := session_convert asked
  have fault : reply.answer = .text (.error (.located .missingLastOperand 2)) := answer
  have unknown : ¬ reply.IsHit (memoBefore requests 3) := by
    rw [getElem?_session asked] at replied
    cases replied
    decide
  exact ⟨asked, reply, replied, fault, (refused _ fault).1, unknown, miss unknown⟩

end PolishNotation
