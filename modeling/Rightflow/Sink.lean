import Rightflow.Fault

/-!
# Sinks

A sink takes the text that a program writes, piece by piece.  It may have a limit: a piece that does
not fit into what is left of it is refused as a whole.  An empty piece is never given to a sink.

Flushing a sink may fail too.

A sink that refuses nothing has been given the whole text (`written_of_writeAll`), and one without a
limit never refuses (`writeAll_of_unlimited`).  What has been written stays (`Sink.Extends`).
-/

namespace Rightflow

structure Sink where
  /-- How many bytes the sink takes until it is emptied. -/
  limit? : Option Nat := none
  flushFails : Bool := false
  /-- What has been written since the sink was emptied. -/
  written : String := ""
deriving Repr

namespace Sink

/-- Whether a piece may be written. -/
def fits (s : Sink) (piece : String) : Bool :=
  match s.limit? with
  | none => true
  | some limit => s.written.utf8ByteSize + piece.utf8ByteSize ≤ limit

/-- Writes a piece, unless it is refused. -/
def write? (s : Sink) (piece : String) : Option Sink :=
  if piece = "" then some s
  else if s.fits piece then some { s with written := s.written ++ piece }
  else none

/-- Writes pieces up to the first one that is refused, and answers whether none was. -/
def writeAll (s : Sink) : List String → Bool × Sink
  | [] => (true, s)
  | piece :: rest =>
    match s.write? piece with
    | some s' => s'.writeAll rest
    | none => (false, s)

/-- Takes out what has been written. -/
def empty (s : Sink) : Sink := { s with written := "" }

theorem written_of_write? {s t : Sink} {piece : String} (h : s.write? piece = some t) :
    t.written = s.written ++ piece := by
  unfold write? at h
  split at h
  next hp => cases h; simp [hp]
  next => split at h <;> cases h; rfl

theorem written_of_writeAll {s t : Sink} {pieces : List String}
    (h : s.writeAll pieces = (true, t)) : t.written = s.written ++ String.join pieces := by
  induction pieces generalizing s with
  | nil => cases h; simp
  | cons piece rest ih =>
    simp only [writeAll] at h
    split at h
    next u hu => rw [ih h, written_of_write? hu, String.join_cons, String.append_assoc]
    next => cases h

theorem write?_of_unlimited {s : Sink} (h : s.limit? = none) (piece : String) :
    s.write? piece = some { s with written := s.written ++ piece } := by
  by_cases hp : piece = ""
  · simp [write?, hp]
  · simp [write?, hp, fits, h]

theorem writeAll_of_unlimited {s : Sink} (h : s.limit? = none) (pieces : List String) :
    s.writeAll pieces = (true, { s with written := s.written ++ String.join pieces }) := by
  induction pieces generalizing s with
  | nil => simp [writeAll]
  | cons piece rest ih =>
    have later := @ih { s with written := s.written ++ piece } h
    simp only [writeAll, write?_of_unlimited h, later, String.join_cons, String.append_assoc]

end Sink

/-! ## Sinks that are written to -/

/-- A later state of a sink: more may have been written. -/
def Sink.Extends (s s' : Sink) : Prop := ∃ text, s' = { s with written := s.written ++ text }

namespace Sink.Extends

variable {s s' s'' : Sink}

theorem refl (s : Sink) : s.Extends s := ⟨"", by rw [String.append_empty]⟩

theorem trans (first : s.Extends s') (second : s'.Extends s'') : s.Extends s'' := by
  obtain ⟨text, rfl⟩ := first
  obtain ⟨more, rfl⟩ := second
  exact ⟨text ++ more, by rw [String.append_assoc]⟩

theorem write? {piece : String} (taken : s.write? piece = some s') : s.Extends s' := by
  unfold Sink.write? at taken
  split at taken
  · cases taken
    exact refl s
  · split at taken
    · cases taken
      exact ⟨piece, rfl⟩
    · cases taken

theorem writeAll (s : Sink) (pieces : List String) : s.Extends (s.writeAll pieces).2 := by
  induction pieces generalizing s with
  | nil => exact refl s
  | cons piece rest inductionHypothesis =>
    unfold Sink.writeAll
    split
    next s' taken => exact (write? taken).trans (inductionHypothesis s')
    next => exact refl s

end Sink.Extends

end Rightflow
