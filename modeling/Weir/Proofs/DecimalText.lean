import Mathlib.Algebra.Order.Field.Rat
import Mathlib.Data.List.TakeWhile
import Weir.Decimal.Basic

/-!
# Text of decimals

Positional notation keeps the number: reading the text of a decimal gives a decimal of the same
value, though zeros at the end may have moved from the exponent to the digits. The text is made of
digits, with at most one point among them.

## Key results

- `Decimal.ofDigits_repr`: the digits of a natural number have its value
- `Decimal.ofChars?_positional`: reading positional notation
- `Decimal.toRat_of_positional_eq`: decimals with the same text have the same value
-/

namespace Weir.Decimal

/-! ## Digits -/

/-- The value of a row of digits is that of its parts, moved by the length of the second one. -/
private theorem ofDigits_append (cs ds : List Char) :
    ofDigits (cs ++ ds) = ofDigits cs * 10 ^ ds.length + ofDigits ds := by
  have happend : ofDigits (cs ++ ds) = Nat.ofDigitChars 10 ds (ofDigits cs) :=
    Nat.ofDigitChars_append 0
  rw [happend, Nat.ofDigitChars_eq_ofDigitChars_zero, Nat.mul_comm]
  rfl

/-- Zeros add nothing to a number. -/
private theorem ofDigits_zeros (k : Nat) : ofDigits (List.replicate k '0') = 0 :=
  Nat.ofDigitChars_replicate_zero.trans (Nat.mul_zero _)

/-- The decimal notation of a number is read as the number. -/
theorem ofDigits_repr (n : Nat) : ofDigits n.repr.toList = n := by
  rw [Nat.toList_repr]
  exact Nat.ofDigitChars_ten_toDigits

/-- The decimal notation of a number has digits only. -/
theorem isDigit_of_mem_repr {n : Nat} {c : Char} (h : c ∈ n.repr.toList) : c.isDigit := by
  rw [Nat.toList_repr] at h
  exact Nat.isDigit_of_mem_toDigits (by decide) (by decide) h

private theorem isDigit_of_mem_zeros {k : Nat} {c : Char} (h : c ∈ List.replicate k '0') :
    c.isDigit := by
  rw [List.eq_of_mem_replicate h]
  rfl

/-! ## Positional notation -/

/-- Digits without a point are read as they are. -/
private theorem ofChars?_digits {cs : List Char} (hcs : ∀ c ∈ cs, c.isDigit) (hne : cs ≠ []) :
    ofChars? cs = some ⟨ofDigits cs, 0⟩ := by
  have htake : cs.takeWhile Char.isDigit = cs := List.takeWhile_eq_self_iff.2 hcs
  have hdrop : cs.dropWhile Char.isDigit = [] := List.dropWhile_eq_nil_iff.2 hcs
  simp [ofChars?, htake, hdrop, hne, exponentOfChars?]

/-- Digits behind a point count as that many places. -/
private theorem ofChars?_point {cs ds : List Char} (hcs : ∀ c ∈ cs, c.isDigit)
    (hds : ∀ c ∈ ds, c.isDigit) (hne : cs ≠ []) :
    ofChars? (cs ++ '.' :: ds) = some ⟨ofDigits (cs ++ ds), -ds.length⟩ := by
  have hpoint : Char.isDigit '.' = false := rfl
  have htake : (cs ++ '.' :: ds).takeWhile Char.isDigit = cs := by
    rw [List.takeWhile_append_of_pos hcs, List.takeWhile_cons, hpoint]
    simp
  have hdrop : (cs ++ '.' :: ds).dropWhile Char.isDigit = '.' :: ds := by
    rw [List.dropWhile_append_of_pos hcs, List.dropWhile_cons, hpoint]
    simp
  have htake' : ds.takeWhile Char.isDigit = ds := List.takeWhile_eq_self_iff.2 hds
  have hdrop' : ds.dropWhile Char.isDigit = [] := List.dropWhile_eq_nil_iff.2 hds
  simp [ofChars?, htake, hdrop, htake', hdrop', hne, exponentOfChars?]

/-- The digits of a decimal with as many zeros in front that there is one before the point. -/
private def padded (d : Decimal) : List Char :=
  List.replicate ((-d.exponent).toNat + 1 - d.digits.repr.length) '0' ++ d.digits.repr.toList

private theorem isDigit_of_mem_padded {d : Decimal} {c : Char} (h : c ∈ d.padded) : c.isDigit := by
  rcases List.mem_append.1 h with hzero | hdigit
  · exact isDigit_of_mem_zeros hzero
  · exact isDigit_of_mem_repr hdigit

/-- Zeros in front do not change a number. -/
private theorem ofDigits_padded (d : Decimal) : ofDigits d.padded = d.digits := by
  rw [padded, ofDigits_append, ofDigits_zeros, ofDigits_repr]
  omega

/-- There are enough digits for the point to stand between two of them. -/
private theorem length_padded (d : Decimal) : (-d.exponent).toNat < d.padded.length := by
  rw [padded, List.length_append, List.length_replicate, String.length_toList]
  omega

/-- The text is the digits, with zeros behind them or with a point among them. -/
private theorem positional_cases (d : Decimal) :
    (0 ≤ d.exponent ∧ d.positional.toList =
      d.digits.repr.toList ++ List.replicate d.exponent.toNat '0') ∨
    ∃ whole places, whole ≠ [] ∧ whole ++ places = d.padded ∧
      d.exponent = -(places.length : Int) ∧ d.positional.toList = whole ++ '.' :: places := by
  unfold positional
  dsimp only
  split
  -- Without places after the point, there is no point.
  next hplaces =>
    refine .inl ⟨by omega, ?_⟩
    rw [String.toList_append, String.toList_ofList]
  next hplaces =>
    have hlength := length_padded d
    refine .inr ⟨_, _, ?_, List.take_append_drop _ _, ?_, String.toList_ofList⟩
    · refine List.ne_nil_of_length_pos ?_
      rw [List.length_take]
      change 0 < min (d.padded.length - _) d.padded.length
      omega
    · rw [List.length_drop]
      change d.exponent = -((d.padded.length - (d.padded.length - _) : Nat) : Int)
      omega

/-- Positional notation is digits and points. -/
theorem isDigit_or_point_of_mem_positional {d : Decimal} {c : Char} (h : c ∈ d.positional.toList) :
    c.isDigit ∨ c = '.' := by
  rcases positional_cases d with ⟨-, htext⟩ | ⟨whole, places, -, hpadded, -, htext⟩
  · rw [htext] at h
    rcases List.mem_append.1 h with hdigit | hzero
    · exact .inl (isDigit_of_mem_repr hdigit)
    · exact .inl (isDigit_of_mem_zeros hzero)
  · rw [htext] at h
    rcases List.mem_append.1 h with hwhole | hrest
    · exact .inl (isDigit_of_mem_padded (hpadded ▸ List.mem_append_left _ hwhole))
    · rcases List.mem_cons.1 hrest with hpoint | hplaces
      · exact .inr hpoint
      · exact .inl (isDigit_of_mem_padded (hpadded ▸ List.mem_append_right _ hplaces))

/-- Positional notation is read as a decimal of the same value. -/
theorem ofChars?_positional (d : Decimal) :
    ∃ e, ofChars? d.positional.toList = some e ∧ e.toRat = d.toRat := by
  -- Either the text is of digits alone, with zeros at the end, or the point is among them.
  rcases positional_cases d with
    ⟨hexponent, htext⟩ | ⟨whole, places, hne, hpadded, hexponent, htext⟩
  · refine ⟨_, (congrArg ofChars? htext).trans (ofChars?_digits (fun c hc => ?_) ?_), ?_⟩
    · rcases List.mem_append.1 hc with hdigit | hzero
      · exact isDigit_of_mem_repr hdigit
      · exact isDigit_of_mem_zeros hzero
    · have hpos : 0 < d.digits.repr.length := Nat.length_repr_pos
      rw [← String.length_toList] at hpos
      exact List.append_ne_nil_of_left_ne_nil (List.ne_nil_of_length_pos hpos) _
    · rw [toRat, toRat, ofDigits_append, ofDigits_repr, ofDigits_zeros, List.length_replicate]
      obtain ⟨k, hk⟩ := Int.eq_ofNat_of_zero_le hexponent
      rw [hk]
      simp
  · refine ⟨_, (congrArg ofChars? htext).trans
      (ofChars?_point (fun c hc => ?_) (fun c hc => ?_) hne), ?_⟩
    · exact isDigit_of_mem_padded (hpadded ▸ List.mem_append_left _ hc)
    · exact isDigit_of_mem_padded (hpadded ▸ List.mem_append_right _ hc)
    · rw [toRat, toRat, hpadded, ofDigits_padded, hexponent]

/-- The text of a decimal determines its value. -/
theorem toRat_of_positional_eq {d e : Decimal} (h : d.positional = e.positional) :
    d.toRat = e.toRat := by
  obtain ⟨d', hd, hdvalue⟩ := ofChars?_positional d
  obtain ⟨e', he, hevalue⟩ := ofChars?_positional e
  rw [h, he] at hd
  cases hd
  rw [← hdvalue, hevalue]

end Weir.Decimal
