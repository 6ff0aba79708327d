import Rightflow.Proofs.Cursors

/-!
# Readers keep their place

Every call changes the count, the position and the memory of a reader a little.  Whatever is asked
of it and in whatever order, as many characters lie behind it as have been read and not taken back,
it stands at the position that scanning them reaches, and what it takes back is the character that
was read last (`readers_keep_their_place`).

There are two halves.  `Reader.Valid` is about a reader alone, and every call keeps it because the
memory belongs to the count that is smaller by one.  The other half is about the calls that were
made: `Reader.Pending` tells from them, without looking at the memory, whether there is anything to
take back.

What a reader sees is what lies ahead of a `Cursor`, which never goes back, behind as many
characters (`Reader.Valid.cursor_eq`).
-/

namespace Rightflow

namespace Reader

/-! ## Calls -/

/-- What can be asked of a reader. -/
inductive Call where
  | next
  | peek
  | unget
  | position
  | isAtEnd
deriving DecidableEq, Repr

/-- The reader that a call leaves.  Only reading and taking back leave another one. -/
def serve (r : Reader) : Call → Reader
  | .next => r.next.2
  | .unget => r.unget
  | .peek | .position | .isAtEnd => r

/-- The reader of a text behind some calls, of which the latest is listed first. -/
def behind (source : String) : List Call → Reader
  | [] => .ofString source
  | call :: earlier => (behind source earlier).serve call

/-- The call reads a character. -/
def Reads (r : Reader) (call : Call) : Prop :=
  call = .next ∧ r.next.1 ≠ none

instance (r : Reader) (call : Call) : Decidable (r.Reads call) :=
  inferInstanceAs (Decidable (_ ∧ _))

section

variable (source : String)

/-- How many calls have read a character. -/
def readCount : List Call → Nat
  | [] => 0
  | call :: earlier =>
    readCount earlier + if (behind source earlier).Reads call then 1 else 0

/-- A character has been read since the last `unget` that had an effect, so that an `unget` has one
now. -/
def Pending : List Call → Prop
  | [] => False
  | call :: earlier =>
    (behind source earlier).Reads call ∨ (Pending earlier ∧ ¬ (call = .unget ∧ Pending earlier))

instance decidablePending : (calls : List Call) → Decidable (Pending source calls)
  | [] => inferInstanceAs (Decidable False)
  | _ :: earlier =>
    have := decidablePending earlier
    inferInstanceAs (Decidable (_ ∨ (_ ∧ ¬ (_ ∧ _))))

/-- How many calls of `unget` have had an effect. -/
def ungetCount : List Call → Nat
  | [] => 0
  | call :: earlier =>
    ungetCount earlier + if call = .unget ∧ Pending source earlier then 1 else 0

/-- The reader as it was when the character that has been read last was still ahead. -/
def beforeLastRead? : List Call → Option Reader
  | [] => none
  | call :: earlier =>
    if (behind source earlier).Reads call then some (behind source earlier)
    else beforeLastRead? earlier

end

variable {source : String} {r : Reader} {call : Call} {earlier calls : List Call}

theorem reads_next {c : Char} (ahead : r.peek? = some c) : r.Reads .next :=
  ⟨rfl, by rw [next_fst, ahead]; exact Option.some_ne_none c⟩

theorem not_reads_unget : ¬ r.Reads .unget := fun reads => nomatch reads.1

/-- A call reads the character ahead, or takes one back, or leaves the reader as it is. -/
theorem serve_cases (r : Reader) (call : Call) :
    (∃ c, call = .next ∧ r.peek? = some c) ∨ call = .unget ∨
      (r.serve call = r ∧ ¬ r.Reads call ∧ call ≠ .unget) := by
  cases call with
  | next =>
    cases ahead : r.peek? with
    | some c => exact .inl ⟨c, rfl, rfl⟩
    | none =>
      -- At the end of the text reading is but a look at it.
      have unread : ¬ r.Reads .next := fun reads => reads.2 (by rw [next_fst, ahead])
      exact .inr (.inr ⟨by rw [serve, next_of_none ahead], unread, nofun⟩)
  | unget => exact .inr (.inl rfl)
  | peek | position | isAtEnd => exact .inr (.inr ⟨rfl, (fun reads => nomatch reads.1), nofun⟩)

/-! ## Readers in their text -/

/-- A reader of a text stands in it, at the position that the characters behind it reach.  What it
remembers is the position that all of them but the last reach. -/
structure Valid (source : String) (r : Reader) : Prop where
  source_eq : r.source = source.toList.toArray
  index_le : r.index ≤ source.length
  position_eq : r.position = Position.start.after (source.toList.take r.index)
  back : ∀ p, r.back? = some p →
    0 < r.index ∧ p = Position.start.after (source.toList.take (r.index - 1))

theorem valid_ofString (source : String) : Valid source (.ofString source) where
  source_eq := rfl
  index_le := Nat.zero_le _
  position_eq := rfl
  back := nofun

theorem Valid.peek?_eq (valid : Valid source r) : r.peek? = source.toList[r.index]? := by
  rw [peek?, valid.source_eq, List.getElem?_toArray]

theorem Valid.isAtEnd_iff (valid : Valid source r) :
    r.isAtEnd = true ↔ r.index = source.length := by
  have size : r.source.size = source.length := by
    rw [valid.source_eq, List.size_toArray, String.length_toList]
  rw [isAtEnd, decide_eq_true_eq, size]
  exact ⟨Nat.le_antisymm valid.index_le, fun atEnd => Nat.le_of_eq atEnd.symm⟩

theorem Valid.next (valid : Valid source r) : Valid source r.next.2 := by
  cases ahead : r.peek? with
  | none => rwa [next_of_none ahead]
  | some c =>
    have read : source.toList[r.index]? = some c := valid.peek?_eq ▸ ahead
    rw [next_of_some ahead]
    refine ⟨valid.source_eq, ?_, ?_, ?_⟩
    · rw [← String.length_toList]
      exact (List.getElem?_eq_some_iff.1 read).1
    -- One character more has been scanned, and it is the one that was ahead.
    · show r.position.advance c = _
      rw [List.take_add_one, read, Position.after_append, ← valid.position_eq]
      rfl
    · rintro _ ⟨⟩
      exact ⟨Nat.succ_pos _, valid.position_eq⟩

theorem Valid.unget (valid : Valid source r) : Valid source r.unget := by
  cases memory : r.back? with
  | none => rwa [unget_of_none memory]
  | some p =>
    rw [unget_of_some memory]
    have inside : r.index - 1 ≤ source.length := Nat.le_trans (Nat.sub_le _ _) valid.index_le
    exact ⟨valid.source_eq, inside, (valid.back p memory).2, nofun⟩

theorem Valid.serve (valid : Valid source r) (call : Call) : Valid source (r.serve call) :=
  match call with
  | .next => valid.next
  | .unget => valid.unget
  | .peek | .position | .isAtEnd => valid

/-- Whatever has been asked of it, a reader stands in its text. -/
theorem valid_behind (source : String) (calls : List Call) :
    Valid source (behind source calls) := by
  induction calls with
  | nil => exact valid_ofString source
  | cons call earlier inductionHypothesis => exact inductionHypothesis.serve call

/-- A reader sees what a cursor sees that has gone over as many characters. -/
theorem Valid.cursor_eq (valid : Valid source r) :
    r.cursor = (Cursor.ofString source).skip r.index := by
  rw [cursor, valid.source_eq, valid.position_eq]
  rfl

/-! ## What is taken back -/

theorem not_pending_unget : ¬ Pending source (.unget :: earlier) := by
  simp [Pending, not_reads_unget]

theorem pending_cons_of_not_reads (unread : ¬ (behind source earlier).Reads call)
    (keeps : call ≠ .unget) : Pending source (call :: earlier) ↔ Pending source earlier := by
  simp [Pending, unread, keeps]

/-- When there is nothing to take back, nothing is remembered. -/
theorem back?_of_not_pending (spent : ¬ Pending source calls) :
    (behind source calls).back? = none := by
  induction calls with
  | nil => rfl
  | cons call earlier inductionHypothesis =>
    obtain ⟨c, rfl, ahead⟩ | rfl | ⟨same, unread, keeps⟩ := (behind source earlier).serve_cases call
    · exact absurd (.inl (reads_next ahead)) spent
    -- With or without effect, an `unget` leaves no memory.
    · exact back?_unget _
    · rw [behind, same]
      exact inductionHypothesis fun pending =>
        spent ((pending_cons_of_not_reads unread keeps).2 pending)

/-- When there is a character to take back, the reader stands right behind it and remembers where it
stands. -/
theorem exists_beforeLastRead (pending : Pending source calls) :
    ∃ before, beforeLastRead? source calls = some before ∧
      (behind source calls).index = before.index + 1 ∧
      (behind source calls).back? = some before.position := by
  induction calls with
  | nil => exact pending.elim
  | cons call earlier inductionHypothesis =>
    obtain ⟨c, rfl, ahead⟩ | rfl | ⟨same, unread, keeps⟩ := (behind source earlier).serve_cases call
    -- A character that is read replaces the one before it, which can no longer be taken back.
    · refine ⟨behind source earlier, if_pos (reads_next ahead), ?_⟩
      rw [behind, serve, next_of_some ahead]
      exact ⟨rfl, rfl⟩
    · exact absurd pending not_pending_unget
    · rw [beforeLastRead?, if_neg unread, behind, same]
      exact inductionHypothesis ((pending_cons_of_not_reads unread keeps).1 pending)

/-- What has been read lies behind, but for what has been taken back. -/
theorem index_add_ungetCount (source : String) (calls : List Call) :
    (behind source calls).index + ungetCount source calls = readCount source calls := by
  induction calls with
  | nil => rfl
  | cons call earlier inductionHypothesis =>
    rw [readCount, ungetCount, behind]
    obtain ⟨c, rfl, ahead⟩ | rfl | ⟨same, unread, keeps⟩ := (behind source earlier).serve_cases call
    · rw [if_pos (reads_next ahead), if_neg (fun back => nomatch back.1), serve, next_of_some ahead]
      show _ + 1 + _ = _
      omega
    · rw [if_neg not_reads_unget, serve]
      by_cases pending : Pending source earlier
      -- The character to take back lies behind, so the count can go down.
      · obtain ⟨before, -, place, memory⟩ := exists_beforeLastRead pending
        rw [if_pos ⟨rfl, pending⟩, unget_of_some memory]
        show _ - 1 + _ = _
        omega
      · rw [if_neg (fun back => pending back.2), unget_of_none (back?_of_not_pending pending)]
        exact inductionHypothesis
    · rw [if_neg unread, if_neg (fun back => keeps back.1), same]
      exact inductionHypothesis

end Reader

/-- A reader keeps its place, whatever is asked of it and in whatever order.  It never leaves its
text, and it has as many characters behind it as calls have read one, less the calls of `unget` that
had an effect.  It stands at the position that scanning just these characters reaches.  Reading and
looking ahead give the character there, and nothing at the end of the text only.  If a character has
been read since the last `unget` that had an effect, then an `unget` moves the reader back by one,
to where it stood before the character that was read last; if not, then it changes nothing. -/
theorem readers_keep_their_place (source : String) (calls : List Reader.Call) :
    let r := Reader.behind source calls
    r.index ≤ source.length ∧
    r.index + Reader.ungetCount source calls = Reader.readCount source calls ∧
    r.position = Position.start.after (source.toList.take r.index) ∧
    r.next.1 = source.toList[r.index]? ∧ r.peek? = source.toList[r.index]? ∧
    (r.isAtEnd = true ↔ r.index = source.length) ∧
    (Reader.Pending source calls → r.unget.index + 1 = r.index ∧
      ∃ before, Reader.beforeLastRead? source calls = some before ∧
        r.unget.index = before.index ∧ r.unget.position = before.position) ∧
    (¬ Reader.Pending source calls → r.unget = r) := by
  intro r
  have valid : r.Valid source := Reader.valid_behind source calls
  have read : r.next.1 = source.toList[r.index]? := r.next_fst.trans valid.peek?_eq
  refine ⟨valid.index_le, Reader.index_add_ungetCount source calls, valid.position_eq, read,
    valid.peek?_eq, valid.isAtEnd_iff, fun pending => ?_, fun spent => ?_⟩
  · obtain ⟨before, last, place, memory⟩ := Reader.exists_beforeLastRead pending
    have restored : r.index - 1 = before.index := Nat.sub_eq_of_eq_add place
    rw [Reader.unget_of_some memory]
    exact ⟨Nat.sub_add_cancel (valid.back _ memory).1, before, last, restored, rfl⟩
  · exact Reader.unget_of_none (Reader.back?_of_not_pending spent)

/-- Behind a read that found nothing a line feed is taken back, once. -/
theorem newline_is_taken_back_at_the_end :
    let calls : List Reader.Call := [.next, .next, .next]
    let r := Reader.behind "a\n" calls
    r.next.1 = none ∧ r.position = ⟨2, 1⟩ ∧
    Reader.Pending "a\n" calls ∧ r.unget.index + 1 = r.index ∧
    (∃ before, Reader.beforeLastRead? "a\n" calls = some before ∧
      r.unget.index = before.index ∧ r.unget.position = before.position) ∧
    r.unget.position = ⟨1, 2⟩ ∧
    ¬ Reader.Pending "a\n" (.unget :: calls) ∧ r.unget.unget = r.unget := by
  intro calls r
  obtain ⟨-, -, -, -, -, -, taken, -⟩ := readers_keep_their_place "a\n" calls
  obtain ⟨-, -, -, -, -, -, -, spent⟩ := readers_keep_their_place "a\n" (.unget :: calls)
  have pending : Reader.Pending "a\n" calls := by decide
  obtain ⟨back, before⟩ := taken pending
  exact ⟨by decide, by decide, pending, back, before, by decide, by decide, spent (by decide)⟩

end Rightflow
