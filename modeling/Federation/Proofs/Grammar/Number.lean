import Federation.Proofs.Grammar.Spelling
import Federation.Schema.Value

/-!
# Numbers

A literal is a whole part without zeros before it, and perhaps a fraction and an exponent. Each part is read up to where
the next one starts. An integer is written as a whole part alone, and a floating-point number always with a fraction or
an exponent, so that one token of its kind is read.
-/

namespace Federation

/-! ## The digits of a number above zero -/

namespace Decimal

theorem power_pos {base : Nat} (positive : 0 < base) (exponent : Int) : 0 < power base exponent :=
  Nat.pow_pos positive

theorem Digits.trimmed_ne_zero {d : Digits} (nonzero : d.digits ≠ 0) : d.trimmed.digits ≠ 0 := by
  induction d using Digits.trimmed.induct with
  | case1 d more ih =>
    rw [trimmed, dif_pos more]
    exact ih (by dsimp only; omega)
  | case2 d last =>
    rw [trimmed, dif_neg last]
    exact nonzero

/-- Zero is below every number that rounds to one above zero. -/
theorem ne_zero_of_onGrid? {significand below : Nat} {exponent scale : Int} {even : Bool} {d : Digits}
    (above : below < 4 * significand) (found : onGrid? significand exponent scale even below = some d) :
    d.digits ≠ 0 := by
  unfold onGrid? at found
  extract_lets quarter unit measure value low high inside lower upper at found
  have positive : 0 < low :=
    Nat.mul_pos (by omega) (Nat.mul_pos (power_pos (by decide) _) (power_pos (by decide) _))
  -- Only the lower neighbour can be zero, and then it is not among the numbers looked for.
  have nonzero {n : Nat} (here : inside n = true) : n ≠ 0 := by
    rintro rfl
    have least : low = 0 := by
      cases even with
      | false => simp [inside] at here
      | true => simpa [inside] using here
    omega
  split at found
  · next here _ =>
    split at found
    · obtain rfl := Option.some.inj found
      exact nonzero here
    · obtain rfl := Option.some.inj found
      exact Nat.succ_ne_zero lower
  · next here _ =>
    obtain rfl := Option.some.inj found
    exact nonzero here
  · obtain rfl := Option.some.inj found
    exact Nat.succ_ne_zero lower
  · cases found

theorem shortest_ne_zero {significand : Nat} (positive : significand ≠ 0) (exponent : Int) :
    (shortest significand exponent).digits ≠ 0 := by
  refine Digits.trimmed_ne_zero ?_
  cases tried : List.findSome? _ _ with
  | none => exact positive
  | some d =>
    obtain ⟨scale, -, found⟩ := List.exists_of_findSome?_eq_some tried
    refine ne_zero_of_onGrid? ?_ found
    split <;> omega

end Decimal

namespace Grammar.Token

open Schema (Value)

/-! ## Parts of a literal -/

structure IsDigits (ds : List Char) : Prop where
  some_digit : ds ≠ []
  digits : ∀ c ∈ ds, c.isDigit = true

/-- The digits of a whole part. -/
structure IsWhole (ds : List Char) : Prop extends IsDigits ds where
  noZero : ds.head? = some '0' → ds = ['0']

/-- A number is written without zeros before it. -/
theorem head?_toDigits {n : Nat} (nonzero : n ≠ 0) : (Nat.toDigits 10 n).head? ≠ some '0' := by
  induction n using Nat.strongRecOn with
  | _ n ih =>
    by_cases small : n < 10
    · rw [Nat.toDigits_of_lt_base small]
      have : ∀ d < 10, d ≠ 0 → [Nat.digitChar d].head? ≠ some '0' := by decide
      exact this n small nonzero
    · rw [Nat.toDigits_of_base_le (by decide) (by omega)]
      have shorter := ih (n / 10) (by omega) (by omega)
      have written : Nat.toDigits 10 (n / 10) ≠ [] := Nat.toDigits_ne_nil
      rwa [List.head?_append_of_ne_nil _ written]

theorem isDigits_toDigits (n : Nat) : IsDigits (Nat.toDigits 10 n) :=
  ⟨Nat.toDigits_ne_nil, fun _ h => Nat.isDigit_of_mem_toDigits (by decide) (by decide) h⟩

theorem isWhole_toDigits (n : Nat) : IsWhole (Nat.toDigits 10 n) where
  toIsDigits := isDigits_toDigits n
  noZero first := by
    rcases Nat.eq_zero_or_pos n with rfl | positive
    · rfl
    · exact absurd first (head?_toDigits (Nat.ne_of_gt positive))

theorem natOfDigits_toDigits (n : Nat) : natOfDigits (Nat.toDigits 10 n) = n :=
  Nat.ofDigitChars_toDigits (by decide) (by decide)

theorem isNamePart_of_isDigit {c : Char} (digit : c.isDigit = true) : isNamePart c = true := by
  simp [isNamePart, Char.isAlphanum, digit]

variable {ds rest : List Char}

theorem digits?_append (digits : IsDigits ds) (stops : ∀ c ∈ rest.head?, c.isDigit = false) :
    digits? (ds ++ rest) = some (ds, rest) := by
  obtain ⟨taken, left⟩ := span_of_all digits.digits stops
  simp [digits?, taken, left, digits.some_digit]

theorem whole?_append (whole : IsWhole ds) (stops : ∀ c ∈ rest.head?, c.isDigit = false) :
    whole? (ds ++ rest) = some (ds, rest) := by
  rw [whole?, digits?_append whole.toIsDigits stops]
  split
  · -- Several digits that start with a zero are no whole part.
    next second more _ same =>
    obtain rfl : ds = '0' :: second :: more := (Prod.mk.inj (Option.some.inj same)).1
    cases whole.noZero rfl
  · rfl

def fractionChars : Option (List Char) → List Char
  | none => []
  | some ds => '.' :: ds

def exponentChars : Option Int → List Char
  | none => []
  | some n => 'e' :: (toString n).toList

/-- What a fraction or a whole part is followed by: neither a digit nor a point. -/
def EndsFraction (rest : List Char) : Prop := ∀ c ∈ rest.head?, c.isDigit = false ∧ c ≠ '.'

theorem Apart.endsFraction (apart : Apart rest) : EndsFraction rest :=
  fun c first => ⟨apart.head (fun _ => isNamePart_of_isDigit) c first, (apart c first).2.1⟩

theorem endsFraction_exponentChars (exponent : Option Int) (apart : Apart rest) :
    EndsFraction (exponentChars exponent ++ rest) := by
  cases exponent with
  | none => exact apart.endsFraction
  | some n => simp [exponentChars, EndsFraction]

variable {places : Option (List Char)} {exponent : Option Int}

theorem isDigit_head?_fractionChars (ends : EndsFraction rest) :
    ∀ c ∈ (fractionChars places ++ rest).head?, c.isDigit = false := by
  cases places with
  | none => exact fun c first => (ends c first).1
  | some ds => simp [fractionChars]

theorem fraction?_append (digits : ∀ ds ∈ places, IsDigits ds) (ends : EndsFraction rest) :
    fraction? (fractionChars places ++ rest) = some (places, rest) := by
  cases places with
  | none =>
    rw [fractionChars, List.nil_append]
    unfold fraction?
    split
    · exact absurd rfl (ends _ rfl).2
    · rfl
  | some ds =>
    rw [fractionChars, List.cons_append, fraction?, digits?_append (digits ds rfl) fun c first => (ends c first).1]
    rfl

/-- The sign and the digits of an exponent. -/
theorem exponentSign_append (n : Int) (rest : List Char) : exponentSign ((toString n).toList ++ rest) =
    (decide (n < 0), Nat.toDigits 10 n.natAbs ++ rest) := by
  cases n with
  | ofNat n =>
    have written : (toString (Int.ofNat n)).toList = Nat.toDigits 10 n := Nat.toList_repr
    rw [written]
    cases digits : Nat.toDigits 10 n with
    | nil => exact absurd digits Nat.toDigits_ne_nil
    | cons c cs =>
      have digit : c.isDigit = true := (isDigits_toDigits n).digits c (digits ▸ List.mem_cons_self)
      unfold exponentSign
      split <;> simp_all
  | negSucc n =>
    have written : (toString (Int.negSucc n)).toList = '-' :: Nat.toDigits 10 (n + 1) := by
      simp [Int.toString_eq_repr, Int.repr, Nat.toList_repr]
    rw [written, List.cons_append, exponentSign, decide_eq_true (Int.negSucc_lt_zero n), Int.natAbs_negSucc]

theorem exponent?_append (apart : Apart rest) :
    exponent? (exponentChars exponent ++ rest) = some (exponent, rest) := by
  cases exponent with
  | none =>
    cases rest with
    | nil => rfl
    | cons c cs =>
      have noLetter : isNameStart c = false := apart.head (fun _ => isNamePart_of_isNameStart) c rfl
      rw [exponentChars, List.nil_append, exponent?, if_neg]
      rintro (rfl | rfl) <;> revert noLetter <;> decide
  | some n =>
    have stops : ∀ c ∈ rest.head?, c.isDigit = false := apart.head fun _ => isNamePart_of_isDigit
    rw [exponentChars, List.cons_append, exponent?, if_pos (.inl rfl), exponentSign_append]
    dsimp only
    rw [digits?_append (isDigits_toDigits n.natAbs) stops, Option.map_some, natOfDigits_toDigits]
    split
    · next negative =>
      have negative : n < 0 := of_decide_eq_true negative
      simp only [Int.ofNat_eq_natCast]
      rw [show -(n.natAbs : Int) = n by omega]
    · next positive =>
      have positive : ¬ n < 0 := of_decide_eq_false (Bool.eq_false_iff.mpr positive)
      rw [show (n.natAbs : Int) = n by omega]

/-! ## Literals -/

def literalChars (whole : List Char) (places : Option (List Char)) (exponent : Option Int) : List Char :=
  whole ++ (fractionChars places ++ exponentChars exponent)

theorem clings_of_apart (apart : Apart rest) : clings rest = false := by
  cases rest with
  | nil => rfl
  | cons c cs =>
    have noLetter : isNameStart c = false := apart.head (fun _ => isNamePart_of_isNameStart) c rfl
    simp [clings, noLetter, (apart c rfl).2.1]

theorem unsigned?_literal (negative : Bool) {whole : List Char} (isWhole : IsWhole whole)
    (digits : ∀ ds ∈ places, IsDigits ds) (apart : Apart rest) :
    unsigned? negative (literalChars whole places exponent ++ rest) =
      some (number negative whole places exponent, rest) := by
  have ends := endsFraction_exponentChars exponent apart
  rw [literalChars, List.append_assoc, List.append_assoc, unsigned?,
    whole?_append isWhole (isDigit_head?_fractionChars ends)]
  simp [fraction?_append digits ends, exponent?_append apart, clings_of_apart apart]

theorem isNameStart_of_isDigit {c : Char} (digit : c.isDigit = true) : isNameStart c = false := by
  have noUnderscore : c ≠ '_' := by rintro rfl; revert digit; decide
  -- Digits and letters are told apart by the ranges of their code points.
  simp only [Char.isDigit, Bool.and_eq_true, decide_eq_true_eq, UInt32.le_iff_toNat_le] at digit
  have letters : isNameStart c = (decide (c.val ≥ 65 ∧ c.val ≤ 90) || c.val ≥ 97 && c.val ≤ 122 || c = '_') := rfl
  simp only [letters, Bool.or_eq_false_iff, Bool.and_eq_false_iff, decide_eq_false_iff_not, ge_iff_le,
    UInt32.le_iff_toNat_le]
  simp [noUnderscore] at digit ⊢
  omega

/-- Where a text starts with a digit, only a number can be read. -/
theorem next?_of_isDigit {c : Char} (digit : c.isDigit = true) (cs : List Char) :
    next? (c :: cs) = unsigned? false (c :: cs) := by
  obtain ⟨-, noMark, -, noPoint, noQuote, noMinus⟩ := kept_of_isNamePart (isNamePart_of_isDigit digit)
  rw [next?]
  · rw [if_neg (by simp [noMark]), if_neg (by simp [isNameStart_of_isDigit digit])]
  · rintro rest rfl; contradiction
  · rintro rest rfl; contradiction
  · rintro rfl; contradiction
  · rintro rfl; contradiction

/-- A literal is read as its number, with a sign before it or without. -/
theorem spells_literal (negative : Bool) {s : String} {whole : List Char} (isWhole : IsWhole whole)
    (digits : ∀ ds ∈ places, IsDigits ds) (written : s.toList = literalChars whole places exponent) :
    Spells ((if negative then "-" else "") ++ s) [number negative whole places exponent] := by
  intro rest apart
  have read : unsigned? negative (literalChars whole places exponent ++ rest) = _ :=
    unsigned?_literal negative isWhole digits apart
  cases negative with
  | true =>
    have chars : ((if true then "-" else "") ++ s).toList ++ rest =
        '-' :: (literalChars whole places exponent ++ rest) := by
      simp [written]
    rw [chars]
    apply scan_of_next? (by decide) (by decide)
    rw [next?, read]
  | false =>
    have chars : ((if false then "-" else "") ++ s).toList ++ rest = literalChars whole places exponent ++ rest := by
      simp [written]
    -- Without a sign the number is told by the first digit of its whole part.
    obtain ⟨c, ds, rfl⟩ := List.exists_cons_of_ne_nil isWhole.some_digit
    have digit : c.isDigit = true := isWhole.digits c List.mem_cons_self
    obtain ⟨kept, -, noComment, -⟩ := kept_of_isNamePart (isNamePart_of_isDigit digit)
    rw [chars]
    exact scan_of_next? kept noComment ((next?_of_isDigit digit _).trans read)

theorem spells_int (n : Int) : Spells (toString n) [.int n] := by
  have unsigned (negative : Bool) (n : Nat) : Spells ((if negative then "-" else "") ++ n.repr)
      [number negative (Nat.toDigits 10 n) none none] :=
    spells_literal negative (isWhole_toDigits n) nofun <| by
      simp [literalChars, fractionChars, exponentChars, Nat.toList_repr]
  cases n with
  | ofNat n =>
    have spelled := unsigned false n
    rwa [number, natOfDigits_toDigits] at spelled
  | negSucc n =>
    have spelled := unsigned true (n + 1)
    rwa [number, natOfDigits_toDigits] at spelled

/-! ## Floating-point numbers -/

/-- A literal with a fraction or an exponent. -/
inductive IsReal (s : String) : Prop
  | fraction {whole ds : List Char} (exponent : Option Int) (isWhole : IsWhole whole) (digits : IsDigits ds)
      (written : s.toList = literalChars whole (some ds) exponent)
  | exponent {whole : List Char} (n : Int) (isWhole : IsWhole whole)
      (written : s.toList = literalChars whole none (some n))

theorem IsReal.spells {s : String} (real : IsReal s) (negative : Bool) :
    ∃ x, Spells ((if negative then "-" else "") ++ s) [.float x] := by
  cases real with
  | fraction exponent isWhole digits written =>
    have spelled := spells_literal negative isWhole (fun _ given => Option.some.inj given ▸ digits) written
    cases exponent <;> exact ⟨_, spelled⟩
  | exponent n isWhole written => exact ⟨_, spells_literal negative isWhole (by simp) written⟩

theorem toList_pushn (s : String) (c : Char) (count : Nat) :
    (s.pushn c count).toList = s.toList ++ List.replicate count c := by
  rw [String.pushn_eq_repeat_push]
  induction count with
  | zero => simp [Nat.repeat]
  | succ count ih => rw [Nat.repeat, String.toList_push, ih, List.append_assoc, List.replicate_succ']

/-- A part of a run of digits is one too, with or without zeros added. -/
theorem IsDigits.of_subset {es : List Char} (isDigits : IsDigits ds) (some_digit : es ≠ [])
    (among : ∀ c ∈ es, c ∈ ds ∨ c = '0') : IsDigits es := by
  refine ⟨some_digit, fun c h => ?_⟩
  rcases among c h with inside | rfl
  · exact isDigits.digits c inside
  · rfl

theorem isWhole_zero : IsWhole ['0'] := isWhole_toDigits 0

section Written

variable {digits : String} (isDigits : IsDigits digits.toList) (first : digits.toList.head? ≠ some '0') (place : Int)

include isDigits first

theorem isReal_positionalText : IsReal (Value.positionalText digits place) := by
  unfold Value.positionalText
  extract_lets count whole
  split
  · -- All digits stand behind the point.
    have places : IsDigits (List.replicate ((-place).toNat - 1) '0' ++ digits.toList) := by
      refine isDigits.of_subset (List.append_ne_nil_of_right_ne_nil _ isDigits.some_digit) fun c h => ?_
      exact (List.mem_append.mp h).symm.imp_right List.eq_of_mem_replicate
    refine .fraction none isWhole_zero places ?_
    simp [literalChars, fractionChars, exponentChars, toList_pushn]
  · split
    · -- All digits stand before the point.
      have whole : IsWhole (digits.toList ++ List.replicate (whole - count) '0') := by
        refine ⟨isDigits.of_subset (List.append_ne_nil_of_left_ne_nil isDigits.some_digit _) fun c h => ?_, ?_⟩
        · exact (List.mem_append.mp h).imp_right List.eq_of_mem_replicate
        · rw [List.head?_append_of_ne_nil _ isDigits.some_digit]
          exact fun zero => absurd zero first
      refine .fraction none whole isWhole_zero.toIsDigits ?_
      simp [literalChars, fractionChars, exponentChars, toList_pushn]
    · next more =>
      have longer : whole < digits.toList.length := by rw [String.length_toList]; omega
      have before : IsWhole (digits.toList.take whole) := by
        refine ⟨isDigits.of_subset ?_ fun c h => .inl (List.mem_of_mem_take h), ?_⟩
        · exact List.ne_nil_of_length_pos (by rw [List.length_take]; omega)
        · rw [List.head?_take, if_neg (Nat.succ_ne_zero _)]
          exact fun zero => absurd zero first
      have behind : IsDigits (digits.toList.drop whole) := by
        refine isDigits.of_subset ?_ fun c h => .inl (List.mem_of_mem_drop h)
        exact List.ne_nil_of_length_pos (by rw [List.length_drop]; omega)
      refine .fraction none before behind ?_
      simp [literalChars, fractionChars, exponentChars]

theorem isReal_scientificText : IsReal (Value.scientificText digits place) := by
  unfold Value.scientificText
  cases chars : digits.toList with
  | nil => exact absurd chars isDigits.some_digit
  | cons c cs =>
    rw [chars] at isDigits first
    have leading : IsWhole [c] :=
      ⟨isDigits.of_subset (List.cons_ne_nil _ _) fun d h => .inl (List.mem_singleton.mp h ▸ List.mem_cons_self),
        fun zero => absurd zero first⟩
    cases cs with
    | nil =>
      refine .exponent place leading ?_
      simp [literalChars, fractionChars, exponentChars]
    | cons d ds =>
      have behind : IsDigits (d :: ds) :=
        isDigits.of_subset (List.cons_ne_nil _ _) fun e h => .inl (List.mem_cons_of_mem c h)
      refine .fraction (some place) leading behind ?_
      simp [literalChars, fractionChars, exponentChars]

end Written

/-- A floating-point number that is not too large is written as a token of its kind. -/
theorem exists_spells_floatText (negative : Bool) (significand : Nat) (exponent : Int) :
    ∃ x, Spells (Value.floatText (.finite negative significand exponent)) [.float x] := by
  cases significand with
  | zero =>
    have zero : IsReal "0.0" := .fraction none isWhole_zero isWhole_zero.toIsDigits rfl
    exact zero.spells negative
  | succ n =>
    -- Either layout is one of digits that do not start with a zero.
    have laidOut {m : Nat} (nonzero : m ≠ 0) (positional : Prop) [Decidable positional] (place : Int) :
        IsReal (if positional then Value.positionalText (toString m) place
          else Value.scientificText (toString m) place) := by
      have digits : (toString m).toList = Nat.toDigits 10 m := Nat.toList_repr
      have first := digits ▸ head?_toDigits nonzero
      split
      · exact isReal_positionalText (digits ▸ isDigits_toDigits m) first place
      · exact isReal_scientificText (digits ▸ isDigits_toDigits m) first place
    exact (laidOut (Decimal.shortest_ne_zero (Nat.succ_ne_zero n) exponent) _ _).spells negative

end Grammar.Token

end Federation
