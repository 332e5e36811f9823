import TestCoverage.Time

/-!
# Recording sessions

A session names a stretch of recording and says when it began and when it was dumped, in
milliseconds since 1970.
-/

namespace TestCoverage

/-- A stretch of recording. -/
structure Session where
  id : String
  start : Int64
  dump : Int64
deriving DecidableEq, Repr, Inhabited

namespace Session

/-- The session without a name, at time zero. -/
def anonymous : Session := ⟨"", 0, 0⟩

/-- How long the session took. A session that was dumped before it began took no time, and
the difference of two times is cut off at the largest 64-bit number. -/
def duration (session : Session) : Duration :=
  .ofMillis (min (session.dump.toInt - session.start.toInt) Int64.maxValue.toInt).toNat

/-- A session of this name from the earliest beginning to the latest dump. Without sessions
both are zero. -/
def spanning (id : String) : List Session → Session
  | [] => ⟨id, 0, 0⟩
  | first :: others =>
    ⟨id, others.foldl (fun earliest s => min earliest s.start) first.start,
      others.foldl (fun latest s => max latest s.dump) first.dump⟩

end Session

end TestCoverage
