import PolishNotation.Memo
import PolishNotation.Phrase

namespace PolishNotation

/-- A request asks for one result or forgets all results. The conversion has two names, and a request
for it stands for both, because they share the memo. -/
inductive Request where
  | convert (source : Text)
  | restore (source : Text)
  | trace (source : Text)
  | read (source : Text)
  | forget
  deriving DecidableEq

/-- An answer has the form that its request asks for. -/
inductive Answer where
  | text (result : Except Fault Text)
  | restored (result : Except StackFault Text)
  | expression (result : Except Fault Expression)
  | forgotten

/-- A reply shows the answer, the events of the request and the memo after it. -/
structure Reply where
  answer : Answer
  events : List Event
  memo : Memo

namespace Request

/-- An expression that is read is one event. -/
def readEvents (source : Text) : Except Fault Expression → List Event
  | .ok found => [.scanned source found]
  | .error _ => []

/-- Only a conversion and a request to forget change the memo. -/
def run (memo : Memo) : Request → Reply
  | convert source =>
      let (report, next) := memo.convert source
      ⟨.text report.result, report.events, next⟩
  | restore source => ⟨.restored (toInfix source), [], memo⟩
  | trace source =>
      let report := Conversion.report source
      ⟨.text (report.result.map Conversion.output), report.events, memo⟩
  | read source =>
      let result := Expression.ofText source
      ⟨.expression result, readEvents source result, memo⟩
  | forget => ⟨.forgotten, [], .empty⟩

/-- Every request starts with the memo that the one before it left. -/
def runAll (memo : Memo) : List Request → List Reply
  | [] => []
  | request :: rest =>
      let reply := request.run memo
      reply :: runAll reply.memo rest

theorem runAll_cons (memo : Memo) (request : Request) (rest : List Request) :
    runAll memo (request :: rest) =
      request.run memo :: runAll (request.run memo).memo rest := rfl

/-- Every request has one reply. -/
theorem length_runAll (memo : Memo) (requests : List Request) :
    (runAll memo requests).length = requests.length := by
  induction requests generalizing memo with
  | nil => rfl
  | cons request rest ih => simp [runAll_cons, ih]

end Request

/-- A session starts with an empty memo. -/
def session (requests : List Request) : List Reply :=
  Request.runAll .empty requests

/-- Every request hands its memo to the next one. -/
def Request.memoAfter (memo : Memo) (requests : List Request) : Memo :=
  requests.foldl (fun before request => (request.run before).memo) memo

/-- Only a request to convert has its source looked up in the memo. -/
def Request.convertedSource? : Request → Option Text
  | .convert source => some source
  | _ => none

/-- A result is a text and no fault. -/
def Answer.isResult : Answer → Bool
  | .text (.ok _) => true
  | _ => false

/-- A reply is a hit if its memo counts one more hit than the memo before it. -/
def Reply.IsHit (reply : Reply) (before : Memo) : Prop :=
  reply.memo.hits = before.hits + 1

instance (reply : Reply) (before : Memo) : Decidable (reply.IsHit before) :=
  inferInstanceAs (Decidable (_ = _))

/-- The session reaches a request with this memo. -/
def memoBefore (requests : List Request) (index : Nat) : Memo :=
  Request.memoAfter .empty (requests.take index)

namespace History

/-- These steps of a session followed the last request to forget, and the latest step stands first. -/
def recentSteps (requests : List Request) : List (Request × Reply) :=
  (requests.zip (session requests)).reverse.takeWhile fun step => step.1 ≠ .forget

/-- The recent steps asked to convert these sources. -/
def recentlyAsked (requests : List Request) : List Text :=
  (recentSteps requests).filterMap fun step => step.1.convertedSource?

/-- The recent steps converted these sources without a fault. -/
def recentlyAnswered (requests : List Request) : List Text :=
  (recentSteps requests).filterMap fun step =>
    if step.2.answer.isResult then step.1.convertedSource? else none

end History

end PolishNotation
