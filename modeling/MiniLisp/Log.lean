import MiniLisp.Text.Decimal

/-! A log numbers its records from one. Records that a ring drops, or never has room for, use up
their numbers all the same, so a ring and a stream number the same history alike. -/
namespace MiniLisp

inductive Level where
  | debug | info | warn | error
  deriving DecidableEq, Repr

def Level.name : Level → Text
  | debug => ascii "debug"
  | info => ascii "info"
  | warn => ascii "warn"
  | error => ascii "error"

structure Entry where
  level : Level
  category : Text
  message : Text
  deriving DecidableEq, Repr

structure Record extends Entry where
  sequence : Nat
  deriving DecidableEq, Repr

structure Ring where
  capacity : Nat
  written : Nat
  kept : Array Record
  fits : kept.size ≤ capacity
  deriving DecidableEq, Repr

namespace Ring

def empty (capacity : Nat) : Ring := ⟨capacity, 0, #[], Nat.zero_le _⟩

/-- Numbers a record and keeps it. The oldest record goes when there is no room for both. -/
def write (r : Ring) (e : Entry) : Ring :=
  let written := r.written + 1
  if none : r.capacity = 0 then { r with written }
  else
    { r with
      written
      kept := (if full : r.kept.size = r.capacity then r.kept.eraseIdx 0 else r.kept).push
        ⟨e, written⟩
      fits := by
        have := r.fits
        rw [Array.size_push]
        split
        · rw [Array.size_eraseIdx]
          omega
        · omega }

def clear (r : Ring) : Ring := { r with kept := #[], fits := Nat.zero_le _ }

def records (r : Ring) : List Record := r.kept.toList

def size (r : Ring) : Nat := r.kept.size

@[simp] theorem length_records (r : Ring) : r.records.length = r.size := Array.length_toList

@[simp] theorem capacity_write (r : Ring) (e : Entry) : (r.write e).capacity = r.capacity := by
  rw [write]
  split <;> rfl

@[simp] theorem written_write (r : Ring) (e : Entry) : (r.write e).written = r.written + 1 := by
  rw [write]
  split <;> rfl

/-- A write adds its record behind the others, of which the oldest goes when there is no room. -/
theorem records_write (r : Ring) (e : Entry) : (r.write e).records =
    (r.records ++ [Record.mk e (r.written + 1)]).drop (r.size + 1 - r.capacity) := by
  have fits := r.fits
  rw [write, size]
  split
  · rename_i none
    have empty : r.kept = #[] := Array.eq_empty_of_size_eq_zero (by omega)
    simp [records, empty, none]
  · simp only [records, Array.toList_push]
    split
    · rename_i full
      rw [Array.toList_eraseIdx, full, Nat.add_sub_cancel_left,
        List.drop_append_of_le_length (by rw [Array.length_toList]; omega), List.eraseIdx_zero,
        List.drop_one]
    · rw [Nat.sub_eq_zero_of_le (by omega), List.drop_zero]

end Ring

def Record.line (r : Record) : Text :=
  ascii "[" ++ Text.ofNat r.sequence ++ ascii "] " ++ r.level.name ++ ascii " " ++ r.category ++
    ascii ": " ++ r.message ++ ascii "\n"

structure LineLog where
  written : Nat
  text : Text
  deriving DecidableEq, Repr

namespace LineLog

def empty : LineLog := ⟨0, .empty⟩

def write (l : LineLog) (e : Entry) : LineLog :=
  ⟨l.written + 1, l.text ++ Record.line ⟨e, l.written + 1⟩⟩

def clear (l : LineLog) : LineLog := { l with text := .empty }

end LineLog

inductive Sink where
  | memory (ring : Ring)
  | stream (log : LineLog)
  deriving DecidableEq, Repr

namespace Sink

def write (e : Entry) : Sink → Sink
  | memory ring => memory (ring.write e)
  | stream log => stream (log.write e)

def clear : Sink → Sink
  | memory ring => memory ring.clear
  | stream log => stream log.clear

end Sink

end MiniLisp
