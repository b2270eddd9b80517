import WordTiles.Line

/-!
# Double precision

Numbers of double precision have 53 significant binary digits and a greatest exponent, so that
a decimal number can be too great to be read. There are two ways to read one, which differ
shortly before the bound: `isFinite` rounds the number itself, while `isFiniteByFactors` rounds
its leading digits, the power of ten that they are multiplied with, and the product.
-/

set_option autoImplicit false

namespace WordTiles.Double

def precision : Nat := 53

/-- The exponent of half a unit in the last of the digits of the greatest doubles. -/
def halfUnit : Nat := 970

/-- The least number that rounds to no finite double: half a unit above the greatest of them. -/
def bound : Nat := (Nat.pow 2 (precision + 1) - 1) * Nat.pow 2 halfUnit

/-- Whether `n` times ten to the `exponent` rounds to a finite double. The number of
places before the point decides, except close to the bound. -/
def isFinite (n : Nat) (exponent : Int) : Bool :=
  let places := (Decimal.digits n).length + exponent
  if n = 0 ∨ places ≤ 308 then true
  else if 310 < places then false
  else
    match exponent with
    | .ofNat e => decide (n * Nat.pow 10 e < bound)
    | .negSucc e => decide (n < bound * Nat.pow 10 (e + 1))

/-! ## Reading by factors -/

/-- The nearest number with 53 significant binary digits, and of two that are equally near the
one whose last digit is even. -/
def round (n : Nat) : Nat :=
  let unit := Nat.pow 2 (n.log2 + 1 - precision)
  let below := n / unit
  let rest := n % unit
  if unit < 2 * rest ∨ (unit = 2 * rest ∧ below % 2 = 1) then (below + 1) * unit
  else below * unit

/-- The greatest number that leading digits may form: they have to fit in 64 bits. -/
def greatestLeading : Nat := 18446744073709551615

/-- How many digits of a number follow those that fit in 64 bits. -/
def surplus (n : Nat) : Nat :=
  if n ≤ greatestLeading then 0 else surplus (n / 10) + 1
termination_by n
decreasing_by
  simp only [greatestLeading] at *
  omega

/-- The greatest power of ten that is a factor. -/
def greatestPower : Nat := 308

/-- Whether `n` times ten to the `exponent` is finite when it is read as the product of its
leading digits and a power of ten, all of them rounded. Further digits are not looked at.
A quotient by a power of ten is always finite. -/
def isFiniteByFactors (n : Nat) (exponent : Int) : Bool :=
  match exponent + surplus n with
  | .negSucc _ => true
  | .ofNat e =>
    if n = 0 then true
    else if greatestPower < e then false
    else decide (round (n / Nat.pow 10 (surplus n)) * round (Nat.pow 10 e) < bound)

theorem round_of_lt {n : Nat} (h : n < Nat.pow 2 precision) : round n = n := by
  have hunit : n.log2 + 1 - precision = 0 := by
    rcases Nat.eq_zero_or_pos n with rfl | hn
    · decide
    · have := (Nat.log2_lt (by omega)).mpr h
      omega
  simp [round, hunit, Nat.mod_one]

theorem surplus_of_le {n : Nat} (h : n ≤ greatestLeading) : surplus n = 0 := by
  rw [surplus, if_pos h]

theorem pow_precision_lt_bound : Nat.pow 2 precision < bound := by
  have hpow : ∀ k, 0 < Nat.pow 2 k := fun k => Nat.two_pow_pos k
  have hdigits : Nat.pow 2 precision < Nat.pow 2 (precision + 1) - 1 := by decide
  rw [bound]
  exact Nat.lt_of_lt_of_le hdigits (Nat.le_mul_of_pos_right _ (hpow halfUnit))

theorem isFiniteByFactors_of_lt {n : Nat} (h : n < Nat.pow 2 precision) :
    isFiniteByFactors n 0 = true := by
  have hle : n ≤ greatestLeading := by
    simp only [precision, greatestLeading, Nat.pow_eq] at *
    omega
  have hone : round 1 = 1 := round_of_lt (by decide)
  have hlt : n < bound := Nat.lt_trans h pow_precision_lt_bound
  rw [isFiniteByFactors, surplus_of_le hle]
  simp [greatestPower, round_of_lt h, hone, hlt]

end WordTiles.Double
