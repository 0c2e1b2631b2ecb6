import FilterSql.Text.Digits

/-!
# Where the decimal point goes

A finite decimal number is a row of digits and a scale, the number of digits behind the point. The
scale may be negative, which stands for zeros not written, or exceed the number of digits, which
stands for zeros between the point and the first digit. `plain` writes all of these zeros, while
`pointAfterFirst` and `leadingExponent` are the two halves of scientific notation.
-/

namespace FilterSql.Decimal

/-- Positional notation: every place of the number with these `digits` and this `scale` is
written. -/
def plain (digits : List Char) (scale : Int) : List Char :=
  if scale ≤ 0 then digits ++ List.replicate scale.natAbs '0'
  else
    let places := scale.toNat
    if places < digits.length then
      digits.take (digits.length - places) ++ '.' :: digits.drop (digits.length - places)
    else '0' :: '.' :: List.replicate (places - digits.length) '0' ++ digits

/-- The digits with the point behind the first of them, if there are more. -/
def pointAfterFirst : List Char → List Char
  | [] => []
  | [d] => [d]
  | d :: ds => d :: '.' :: ds

/-- The exponent of the first digit, which scientific notation writes behind its mark. -/
def leadingExponent (digits : List Char) (scale : Int) : Int :=
  (digits.length : Int) - 1 - scale

end FilterSql.Decimal
