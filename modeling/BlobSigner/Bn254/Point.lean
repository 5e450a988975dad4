import BlobSigner.Bn254.Field
/-!
# Points of BN254

The curve is `y² = x³ + 3`. A point is infinity or a pair of coordinates, which need not satisfy
the equation: the chord and tangent rules are applied to any coordinates. The rules divide, so each
operation first appears in a form that can fail (`tryAdd`, `tryDouble`, `tryMul`); the group
operations are these with the failure, which no input reaches, read as infinity.
-/
namespace BlobSigner

/-- `G1Point`. -/
inductive G1 where
  | infinity
  | affine (x y : Fq)
deriving DecidableEq

namespace G1

/-- `IsOnCurve`: the points on the curve; infinity is one of them. -/
def OnCurve : G1 → Prop
  | infinity => True
  | affine x y => y.square = x.cube + 3

instance : DecidablePred OnCurve
  | infinity => isTrue trivial
  | affine x y => inferInstanceAs (Decidable (y.square = x.cube + 3))

/-- `Generator`. -/
def generator : G1 := affine 1 2

/-- `Negate`. -/
def neg : G1 → G1
  | infinity => infinity
  | affine x y => affine x (-y)

/-! ## Chord and tangent -/

/-- The line of slope `l` through `(x₁, y₁)` meets the curve at `x₁`, at `x₂` and at a third place;
this is the third, reflected in the axis of `x`. -/
def thirdPoint (l x₁ y₁ x₂ : Fq) : G1 :=
  let x₃ := l.square - x₁ - x₂
  affine x₃ (l * (x₁ - x₃) - y₁)

/-- `Double`: the tangent at a point with `y = 0` is vertical. -/
def tryDouble : G1 → Except ArithmeticError G1
  | infinity => .ok infinity
  | affine x y =>
    if y = 0 then .ok infinity
    else match (y + y).inverse with
      | .ok i => .ok (thirdPoint (3 * x.square * i) x y x)
      | .error e => .error e

/-- `Add`: points with one `x` are doubled, the left one, unless they are opposite. -/
def tryAdd : G1 → G1 → Except ArithmeticError G1
  | infinity, Q => .ok Q
  | P, infinity => .ok P
  | affine x₁ y₁, affine x₂ y₂ =>
    if x₁ = x₂ then
      if y₁ + y₂ = 0 then .ok infinity else tryDouble (affine x₁ y₁)
    else match (x₂ - x₁).inverse with
      | .ok i => .ok (thirdPoint ((y₂ - y₁) * i) x₁ y₁ x₂)
      | .error e => .error e

/-! ## Multiples -/

/-- One binary digit of the multiplier: double, and add the point where the digit is one. -/
def ladderStep (P acc : G1) (digit : Bool) : Except ArithmeticError G1 :=
  match tryDouble acc with
  | .error e => .error e
  | .ok d => if digit then tryAdd d P else .ok d

def ladder (P : G1) : List Bool → G1 → Except ArithmeticError G1
  | [], acc => .ok acc
  | d :: ds, acc =>
    match ladderStep P acc d with
    | .error e => .error e
    | .ok acc => ladder P ds acc

/-- `MulByInteger`: the multiple by a number of any size. -/
def tryNsmul (k : Nat) (P : G1) : Except ArithmeticError G1 :=
  if P = infinity then .ok infinity else ladder P (binary k) infinity

/-- `Mul`: the multiple by a scalar. -/
def tryMul (P : G1) (k : Fr) : Except ArithmeticError G1 := tryNsmul k.val P

/-- `IsInPrimeSubgroup`: the points that the order of the scalars takes to infinity. -/
def inSubgroup? (P : G1) : Except ArithmeticError Bool := (tryNsmul r P).map (· == infinity)

/-! ## Group operations -/

/-- A failure counts as infinity. -/
def settle : Except ArithmeticError G1 → G1
  | .ok P => P
  | .error _ => infinity

def double (P : G1) : G1 := settle P.tryDouble

def add (P Q : G1) : G1 := settle (P.tryAdd Q)

def mul (P : G1) (k : Fr) : G1 := settle (P.tryMul k)

instance : Add G1 := ⟨add⟩
instance : Neg G1 := ⟨neg⟩
instance : Zero G1 := ⟨infinity⟩

/-! ## Building points -/

inductive PointError where
  | notOnCurve
  | arithmetic (e : ArithmeticError)
deriving DecidableEq, Repr

def PointError.message : PointError → String
  | .notOnCurve => "Affine coordinates are not on the BN254 G1 curve"
  | .arithmetic e => e.message

/-- `FromAffine`. -/
def ofAffine (x y : Fq) : Except PointError G1 :=
  if (affine x y).OnCurve then .ok (affine x y) else .error .notOnCurve

/-- `FromJacobian`: the point with weighted coordinates `(x / z², y / z³)`. -/
def ofJacobian (x y z : Fq) : Except PointError G1 :=
  if z = 0 then .ok infinity
  else match z.inverse with
    | .error e => .error (.arithmetic e)
    | .ok i => ofAffine (x * i.square) (y * i.cube)

end G1

end BlobSigner
