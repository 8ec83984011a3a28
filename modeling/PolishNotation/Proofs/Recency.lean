import Mathlib.Data.Finset.Card
import PolishNotation.Proofs.Session

namespace PolishNotation

/-- Every source stands in the place of its latest use, and the latest source stands first. -/
def latestFirst : List Text → List Text
  | [] => []
  | source :: older => source :: (latestFirst older).filter (· ≠ source)

variable {source : Text}

theorem mem_latestFirst_iff {sources : List Text} : source ∈ latestFirst sources ↔ source ∈ sources := by
  induction sources with
  | nil => rfl
  | cons latest older ih =>
      by_cases same : source = latest <;> simp [latestFirst, ih, same]

theorem nodup_latestFirst (sources : List Text) : (latestFirst sources).Nodup := by
  induction sources with
  | nil => exact List.nodup_nil
  | cons latest older ih =>
      rw [latestFirst, List.nodup_cons]
      exact ⟨by simp, ih.filter _⟩

theorem length_latestFirst (sources : List Text) :
    (latestFirst sources).length = sources.toFinset.card := by
  rw [← List.toFinset_card_of_nodup (nodup_latestFirst sources)]
  congr 1
  ext source
  rw [List.mem_toFinset, List.mem_toFinset, mem_latestFirst_iff]

/-- Older sources follow the newer ones unless they are used again. -/
theorem latestFirst_append (newer older : List Text) :
    latestFirst (newer ++ older) =
      latestFirst newer ++ (latestFirst older).filter (· ∉ newer) := by
  induction newer with
  | nil => simp [latestFirst]
  | cons latest newer ih =>
      rw [List.cons_append, latestFirst, latestFirst, ih, List.filter_append, List.filter_filter,
        List.cons_append]
      simp only [List.mem_cons, not_or, Bool.decide_and]

/-- The sources that are used after a source stand in front of it. -/
theorem mem_take_latestFirst_append_iff {newer older : List Text} {capacity : Nat}
    (other : source ∉ newer) :
    source ∈ (latestFirst (newer ++ source :: older)).take capacity ↔
      newer.toFinset.card < capacity := by
  have absent : source ∉ latestFirst newer := fun member => other (mem_latestFirst_iff.1 member)
  rw [latestFirst_append, latestFirst, List.filter_cons_of_pos (by simpa using other),
    ← length_latestFirst]
  constructor
  · intro member
    by_contra full
    rw [List.take_append_of_le_length (by omega)] at member
    exact absent (List.mem_of_mem_take member)
  · intro room
    obtain ⟨more, rfl⟩ := Nat.exists_eq_add_of_lt room
    rw [Nat.add_assoc, List.take_length_add_append]
    exact List.mem_append_right _ List.mem_cons_self

/-- A source is among the first if few others are used after its latest use. -/
theorem mem_take_latestFirst_iff {sources : List Text} {capacity : Nat} :
    source ∈ (latestFirst sources).take capacity ↔
      ∃ newer older, sources = newer ++ source :: older ∧ source ∉ newer ∧
        newer.toFinset.card < capacity := by
  constructor
  · intro member
    have used := mem_latestFirst_iff.1 (List.mem_of_mem_take member)
    obtain ⟨newer, older, rfl, other⟩ := List.eq_append_cons_of_mem used
    exact ⟨newer, older, rfl, other, (mem_take_latestFirst_append_iff other).1 member⟩
  · rintro ⟨newer, older, rfl, other, room⟩
    exact (mem_take_latestFirst_append_iff other).2 room

/-- Taking one source out of a list that holds each source once lets at most one more in. -/
theorem take_filter_take {sources : List Text} (nodup : sources.Nodup) (count : Nat) :
    ((sources.take (count + 1)).filter (· ≠ source)).take count =
      (sources.filter (· ≠ source)).take count := by
  induction sources generalizing count with
  | nil => rfl
  | cons first rest ih =>
      obtain ⟨absent, nodup⟩ := List.nodup_cons.1 nodup
      rw [List.take_succ_cons]
      by_cases same : first = source
      · subst same
        -- The source stands in front, so both sides only lose it.
        have others {sources : List Text} (part : sources ⊆ rest) :
            sources.filter (· ≠ first) = sources :=
          List.filter_eq_self.2 fun other member =>
            decide_eq_true fun same => absent (same ▸ part member)
        rw [List.filter_cons_of_neg (by simp), List.filter_cons_of_neg (by simp),
          others (List.take_subset _ _), others (List.Subset.refl _), List.take_take, Nat.min_self]
      · rw [List.filter_cons_of_pos (by simpa using same),
          List.filter_cons_of_pos (by simpa using same)]
        cases count with
        | zero => rfl
        | succ count => rw [List.take_succ_cons, List.take_succ_cons, ih nodup]

namespace Memo

variable {memo : Memo}

theorem isSome_find?_iff : (memo.find? source).isSome ↔ source ∈ memo.entries.map Prod.fst := by
  rw [find?, List.lookup_isSome_iff, List.mem_map]
  simp

/-- A use takes its source out of the other entries. -/
theorem eraseP_eq_filter {sources : List Text} (nodup : sources.Nodup) :
    (sources.eraseP fun other => other = source) = sources.filter (· ≠ source) := by
  have erased := nodup.erase_eq_filter source
  rw [List.erase_eq_eraseP'] at erased
  simpa [bne, beq_eq_decide] using erased

/-- A use moves its source to the front. -/
theorem map_fst_touch {sources : List Text} (nodup : sources.Nodup)
    (entries : memo.entries.map Prod.fst = sources.take capacity) (source output : Text) :
    (memo.touch source output).map Prod.fst =
      (source :: sources.filter (· ≠ source)).take capacity := by
  have others : (memo.entries.eraseP fun entry => entry.1 = source).map Prod.fst =
      (sources.take capacity).filter (· ≠ source) := by
    rw [← eraseP_eq_filter (nodup.sublist (List.take_sublist _ _)), ← entries, List.eraseP_map]
    rfl
  rw [touch, List.map_take, List.map_cons, others, capacity, List.take_succ_cons,
    List.take_succ_cons, take_filter_take nodup]

end Memo

namespace History

variable {memo : Memo} {past : List Request} {request : Request}

/-- A request to forget ends the recent steps, and every other request adds one. -/
theorem recentSteps_append_singleton (past : List Request) (request : Request) :
    recentSteps (past ++ [request]) =
      if request = .forget then []
      else (request, request.run (Request.memoAfter .empty past)) :: recentSteps past := by
  have length : past.length = (session past).length := (Request.length_runAll _ _).symm
  rw [recentSteps, session_append_singleton, List.zip_append length, List.reverse_append]
  by_cases forgets : request = .forget <;> simp [forgets, recentSteps]

theorem recentSteps_forget (past : List Request) : recentSteps (past ++ [.forget]) = [] := by
  rw [recentSteps_append_singleton, if_pos rfl]

/-- A request that leaves the memo as it is adds no source. -/
theorem recent_of_convertedSource?_eq_none (past : List Request) (kept : request ≠ .forget)
    (none : request.convertedSource? = none) :
    recentlyAsked (past ++ [request]) = recentlyAsked past ∧
      recentlyAnswered (past ++ [request]) = recentlyAnswered past := by
  rw [recentlyAsked, recentlyAnswered, recentSteps_append_singleton, if_neg kept]
  simp [recentlyAsked, recentlyAnswered, none]

theorem recentlyAsked_convert (past : List Request) (source : Text) :
    recentlyAsked (past ++ [.convert source]) = source :: recentlyAsked past := by
  rw [recentlyAsked, recentSteps_append_singleton, if_neg nofun]
  rfl

theorem recentlyAnswered_convert (past : List Request) (source : Text) :
    recentlyAnswered (past ++ [.convert source]) =
      if (Request.run (Request.memoAfter .empty past) (.convert source)).answer.isResult then
        source :: recentlyAnswered past
      else recentlyAnswered past := by
  rw [recentlyAnswered, recentSteps_append_singleton, if_neg nofun, List.filterMap_cons]
  cases (Request.run (Request.memoAfter .empty past) (.convert source)).answer.isResult <;> rfl

/-- The entries of the memo are the latest answered sources, and every recent request to convert is
counted. -/
structure Matches (past : List Request) (memo : Memo) : Prop where
  entries : memo.entries.map Prod.fst =
    (latestFirst (recentlyAnswered past)).take Memo.capacity
  counts : memo.hits + memo.misses = (recentlyAsked past).length

/-- A conversion keeps the memo in step with the history. -/
theorem Matches.convert (agrees : Matches past (Request.memoAfter .empty past)) (source : Text) :
    Matches (past ++ [.convert source])
      (Request.run (Request.memoAfter .empty past) (.convert source)).memo := by
  have answered := recentlyAnswered_convert past source
  generalize Request.memoAfter .empty past = memo at agrees answered ⊢
  have touched := Memo.map_fst_touch (nodup_latestFirst (recentlyAnswered past)) agrees.entries source
  have converts := memo.converts_convert source
  have counts : (memo.convert source).2.hits + (memo.convert source).2.misses =
      (recentlyAsked (past ++ [.convert source])).length := by
    rw [converts.hits_add_misses, agrees.counts, recentlyAsked_convert, List.length_cons]
  refine ⟨?_, counts⟩
  rw [answered]
  show (memo.convert source).2.entries.map Prod.fst = _
  have result : (Request.run memo (.convert source)).answer = .text (memo.convert source).1.result :=
    rfl
  rw [result]
  generalize memo.convert source = outcome at converts
  obtain ⟨report, next⟩ := outcome
  cases converts with
  | hit => exact touched _
  | miss => exact touched _
  | refusal => exact agrees.entries

/-- Every request keeps the memo in step with the history. -/
theorem Matches.run (agrees : Matches past (Request.memoAfter .empty past)) (request : Request) :
    Matches (past ++ [request]) (request.run (Request.memoAfter .empty past)).memo := by
  have unchanged (kept : request ≠ .forget) (none : request.convertedSource? = none) :
      Matches (past ++ [request]) (Request.memoAfter .empty past) := by
    obtain ⟨asked, answered⟩ := recent_of_convertedSource?_eq_none past kept none
    exact ⟨answered ▸ agrees.entries, asked ▸ agrees.counts⟩
  cases request with
  | convert source => exact agrees.convert source
  | restore source => exact unchanged nofun rfl
  | trace source => exact unchanged nofun rfl
  | read source => exact unchanged nofun rfl
  | forget =>
      constructor
      · rw [recentlyAnswered, recentSteps_forget]
        rfl
      · rw [recentlyAsked, recentSteps_forget]
        rfl

theorem matches_memoAfter (past : List Request) : Matches past (Request.memoAfter .empty past) := by
  induction past using List.reverseRecOn with
  | nil => exact ⟨rfl, rfl⟩
  | append_singleton past request ih =>
      rw [Request.memoAfter_append_singleton]
      exact ih.run request

/-- The memo never holds more sources than were answered. -/
theorem Matches.size_eq (agrees : Matches past memo) :
    memo.size = min Memo.capacity (recentlyAnswered past).toFinset.card := by
  have length := congrArg List.length agrees.entries
  rwa [List.length_map, List.length_take, length_latestFirst] at length

/-- A source is known while few others are answered after it. -/
theorem Matches.isSome_find?_iff (agrees : Matches past memo) :
    (memo.find? source).isSome ↔
      ∃ newer older, recentlyAnswered past = newer ++ source :: older ∧ source ∉ newer ∧
        newer.toFinset.card < Memo.capacity := by
  rw [Memo.isSome_find?_iff, agrees.entries, mem_take_latestFirst_iff]

/-- A conversion is a hit exactly if its source was answered since all results were forgotten and fewer
other sources than the capacity were answered after that, and a refused one is a miss. The memo counts
every conversion since then and holds as many sources as were answered, up to the capacity. -/
theorem isHit_iff_of_session {requests : List Request} {index : Nat}
    (made : requests[index]? = some request) :
    ∃ reply, (session requests)[index]? = some reply ∧
      (∀ source, request = .convert source →
        (reply.IsHit (memoBefore requests index) ↔
          ∃ newer older, recentlyAnswered (requests.take index) = newer ++ source :: older ∧
            source ∉ newer ∧ newer.toFinset.card < Memo.capacity) ∧
        ∀ fault, reply.answer = .text (.error fault) →
          reply.memo.hits = (memoBefore requests index).hits ∧
            reply.memo.misses = (memoBefore requests index).misses + 1) ∧
      reply.memo.hits + reply.memo.misses = (recentlyAsked (requests.take (index + 1))).length ∧
      reply.memo.size =
        min Memo.capacity (recentlyAnswered (requests.take (index + 1))).toFinset.card := by
  refine ⟨_, getElem?_session made, ?_⟩
  have after := matches_memoAfter (requests.take (index + 1))
  rw [← memoBefore, memoBefore_succ made] at after
  refine ⟨?_, after.counts, after.size_eq⟩
  rintro source rfl
  constructor
  · rw [isHit_run_convert_iff]
    exact (matches_memoAfter (requests.take index)).isSome_find?_iff
  · intro fault refused
    rw [memo_run_convert_of_refused refused]
    exact ⟨rfl, rfl⟩

/-- A source stays known behind another answered source and a refused one. -/
theorem isHit_iff_of_session_interrupted :
    let requests : List Request :=
      [.convert "A*B".toList, .forget, .convert "A+B".toList, .convert "A".toList,
        .convert "A)".toList, .convert "A+B".toList]
    requests[5]? = some (.convert "A+B".toList) ∧
      ∃ reply, (session requests)[5]? = some reply ∧ reply.IsHit (memoBefore requests 5) ∧
        reply.memo.hits + reply.memo.misses = 4 ∧ reply.memo.size = 2 := by
  intro requests
  have asked : requests[5]? = some (.convert "A+B".toList) := rfl
  obtain ⟨reply, replied, hit, counts, size⟩ := isHit_iff_of_session asked
  have answered : recentlyAnswered (requests.take 5) = ["A".toList, "A+B".toList] := by decide
  have known : reply.IsHit (memoBefore requests 5) :=
    (hit _ rfl).1.2 ⟨["A".toList], [], answered, by decide, by decide⟩
  have asks : recentlyAsked (requests.take 6) =
      ["A+B".toList, "A)".toList, "A".toList, "A+B".toList] := by decide
  have answers : recentlyAnswered (requests.take 6) =
      ["A+B".toList, "A".toList, "A+B".toList] := by decide
  rw [asks] at counts
  rw [answers] at size
  exact ⟨asked, reply, replied, known, counts, size⟩

end History

end PolishNotation
