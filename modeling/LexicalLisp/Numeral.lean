/-!
# Integers and their text

Numbers are 64-bit signed integers. An exact result is kept only when `fit?`
accepts it, so nothing wraps. `decimal` writes a number, and `ofDecimal?` and
`ofHexadecimal?` give the number that a run of digits denotes.
-/
namespace LexicalLisp.Numeral

/-- Whether a 64-bit integer equals `n`. -/
def Fits (n : Int) : Prop := Int64.minValue.toInt ≤ n ∧ n ≤ Int64.maxValue.toInt

instance (n : Int) : Decidable (Fits n) := inferInstanceAs (Decidable (_ ∧ _))

/-- The 64-bit integer equal to `n`, if there is one. -/
def fit? (n : Int) : Option Int64 := if Fits n then some (Int64.ofInt n) else none

theorem fits_toInt (n : Int64) : Fits n.toInt := ⟨n.minValue_le_toInt, n.toInt_le⟩

theorem toInt_ofInt_of_fits {n : Int} (h : Fits n) : (Int64.ofInt n).toInt = n := by
  have hmin : Int64.minValue.toInt = -9223372036854775808 := rfl
  have hmax : Int64.maxValue.toInt = 9223372036854775807 := rfl
  have hsize : Int64.size = 18446744073709551616 := rfl
  unfold Fits at h
  rw [Int64.toInt_ofInt]
  exact Int.bmod_eq_of_le (by omega) (by omega)

theorem fit?_eq_some_iff {n : Int} {m : Int64} : fit? n = some m ↔ m.toInt = n := by
  unfold fit?
  split
  case isTrue h =>
    constructor
    · rintro ⟨⟩
      exact toInt_ofInt_of_fits h
    · rintro rfl
      simp
  case isFalse h =>
    simp only [reduceCtorEq, false_iff]
    rintro rfl
    exact h (fits_toInt m)

@[simp] theorem fit?_toInt (n : Int64) : fit? n.toInt = some n := fit?_eq_some_iff.2 rfl

/-- A minus sign for a negative number, then the digits without leading zeros. -/
def decimal (n : Int64) : List Char :=
  if n.toInt < 0 then '-' :: Nat.toDigits 10 n.toInt.natAbs else Nat.toDigits 10 n.toInt.natAbs

/-- The number that decimal digits denote under a sign. -/
def ofDecimal? (negative : Bool) (digits : List Char) : Option Int64 :=
  let magnitude : Int := Nat.ofDigitChars 10 digits 0
  fit? (if negative then -magnitude else magnitude)

def isHexDigit (c : Char) : Bool :=
  c.isDigit || ('a' ≤ c && c ≤ 'f') || ('A' ≤ c && c ≤ 'F')

/-- The value of one hexadecimal digit, of either case. -/
def hexDigitValue (c : Char) : Nat :=
  if c.isDigit then c.toNat - '0'.toNat
  else if 'a' ≤ c then c.toNat - 'a'.toNat + 10
  else c.toNat - 'A'.toNat + 10

/-- The number that hexadecimal digits denote. -/
def ofHexadecimal? (digits : List Char) : Option Int64 :=
  fit? (digits.foldl (fun (n : Nat) c => 16 * n + hexDigitValue c) 0 : Nat)

end LexicalLisp.Numeral
