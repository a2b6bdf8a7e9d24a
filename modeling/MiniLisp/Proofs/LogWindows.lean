import MiniLisp.Log
import Mathlib.Data.List.DropRight

/-! A memory sink keeps a window of its history: the last records, as many as fit, none from before
it was last cleared. A stream given the same entries renders them under the same numbers. -/
namespace MiniLisp

inductive LogCall where
  | log (e : Entry)
  | clear
  deriving DecidableEq, Repr

namespace LogCall

def isLog : LogCall → Bool
  | log _ => true
  | clear => false

def entry? : LogCall → Option Entry
  | log e => some e
  | clear => none

end LogCall

def logged (calls : List LogCall) : List Entry := calls.filterMap LogCall.entry?

/-- Those logged since the sink was last cleared. -/
def loggedSinceClear (calls : List LogCall) : List Entry := logged (calls.rtakeWhile LogCall.isLog)

def numbered (es : List Entry) : List Record := es.mapIdx fun i e => ⟨e, i + 1⟩

section

variable (calls : List LogCall) (es : List Entry) (e : Entry)

theorem logged_append_log : logged (calls ++ [.log e]) = logged calls ++ [e] := by
  simp [logged, LogCall.entry?]

theorem logged_append_clear : logged (calls ++ [.clear]) = logged calls := by
  simp [logged, LogCall.entry?]

theorem loggedSinceClear_append_log :
    loggedSinceClear (calls ++ [.log e]) = loggedSinceClear calls ++ [e] := by
  rw [loggedSinceClear, List.rtakeWhile_concat_pos _ _ _ (by rfl), logged_append_log]
  rfl

theorem loggedSinceClear_append_clear : loggedSinceClear (calls ++ [.clear]) = [] := by
  rw [loggedSinceClear, List.rtakeWhile_concat_neg _ _ _ (by simp [LogCall.isLog])]
  rfl

theorem loggedSinceClear_suffix : loggedSinceClear calls <:+ logged calls :=
  (List.rtakeWhile_suffix _ _).filterMap _

theorem numbered_append : numbered (es ++ [e]) = numbered es ++ [⟨e, es.length + 1⟩] := by
  simp [numbered]

@[simp] theorem length_numbered : (numbered es).length = es.length := by simp [numbered]

end

/-- A ring keeps the latest records of its history, none from before it was last cleared. -/
structure Ring.Windows (capacity : Nat) (calls : List LogCall) (r : Ring) : Prop where
  room : r.capacity = capacity
  written : r.written = (logged calls).length
  records : r.records =
    (numbered (logged calls)).rtake (min capacity (loggedSinceClear calls).length)

namespace Ring.Windows

variable {capacity : Nat} {calls : List LogCall} {r : Ring}

theorem empty : (Ring.empty capacity).Windows capacity [] :=
  ⟨rfl, rfl, by simp [Ring.empty, Ring.records, logged, numbered, List.rtake]⟩

theorem size (h : r.Windows capacity calls) :
    r.size = min capacity (loggedSinceClear calls).length := by
  have within := (loggedSinceClear_suffix calls).length_le
  rw [← r.length_records, h.records, List.rtake, List.length_drop, length_numbered]
  omega

theorem write (h : r.Windows capacity calls) (e : Entry) :
    (r.write e).Windows capacity (calls ++ [.log e]) := by
  have within := (loggedSinceClear_suffix calls).length_le
  refine ⟨by rw [Ring.capacity_write, h.room], ?_, ?_⟩
  · rw [logged_append_log, List.length_append, ← h.written, Ring.written_write]
    rfl
  · rw [Ring.records_write, h.records, h.size, h.room, h.written, logged_append_log,
      loggedSinceClear_append_log, numbered_append, List.rtake, List.rtake, List.length_append,
      List.length_append, length_numbered, ← List.drop_append_of_le_length (by simp),
      List.drop_drop, List.length_singleton, List.length_singleton]
    -- where the window has no more room it moves by one record, else it grows by one
    congr 1
    omega

theorem clear (h : r.Windows capacity calls) : r.clear.Windows capacity (calls ++ [.clear]) := by
  refine ⟨h.room, ?_, ?_⟩
  · rw [logged_append_clear]
    exact h.written
  · rw [loggedSinceClear_append_clear]
    simp [Ring.clear, Ring.records, List.rtake]

end Ring.Windows

end MiniLisp
