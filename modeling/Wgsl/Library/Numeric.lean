import Wgsl.Value.Operator

/-! # Numeric functions

Functions of the built-in library that work on numbers. They map over the components of vectors, and
a scalar argument goes with every component of a vector.
-/

namespace Wgsl.Library
set_option autoImplicit false

open Number (Single)

/-! ## Mapping -/

/-- A function of floats on every component. -/
def overSingles (f : Single → Single) (v : Value) : Run Value :=
  v.mapComponents fun c => (fun x => .f32 (f x)) <$> c.number

/-- A function of two floats on pairs of components. -/
def overPairs (f : Single → Single → Single) (a b : Value) : Run Value :=
  Value.zipComponents (fun x y => do return .f32 (f (← x.number) (← y.number))) a b

/-- The component of a value at a position: values that are no vectors have it everywhere. -/
def componentAt (length i : Nat) : Value → Run Value
  | .vector items =>
    match items[i]? with
    | some v => pure v
    | none => throw (RunCause.vectorLength length items.length).unplaced
  | v => pure v

/-- The greatest of some lengths. -/
def longest (lengths : List (Option Nat)) : Option Nat :=
  lengths.foldl (fun best n => match best, n with
    | some a, some b => some (max a b)
    | a, none => a
    | none, b => b) none

/-- A function on triples of components, as many as the longest vector has. -/
def zipThree (f : Value → Value → Value → Run Value) (a b c : Value) : Run Value :=
  match longest [a.vectorLength?, b.vectorLength?, c.vectorLength?] with
  | none => f a b c
  | some length =>
    .vector <$> Run.values length fun i => do
      f (← componentAt length i a) (← componentAt length i b) (← componentAt length i c)

/-- A function of three floats on triples of components. -/
def overTriples (f : Single → Single → Single → Single) : Value → Value → Value → Run Value :=
  zipThree fun a b c => do return .f32 (f (← a.number) (← b.number) (← c.number))

/-! ## Functions of one float -/

def floor (x : Single) : Single := x.toIntegral .down
def ceil (x : Single) : Single := x.toIntegral .up
def trunc (x : Single) : Single := x.toIntegral .towardZero

def sqrt (x : Single) : Single := x.lift₁ Float32.sqrt

/-- The number two. -/
def two : Single := .ofInt 2

/-- Degrees in a radian. -/
def degreesPerRadian : Single := .ofDouble 57.29577951308232

/-- Radians in a degree: the single nearest to pi, divided. -/
def radiansPerDegree : Single := Single.ofDouble 3.141592653589793 / Single.ofInt 180

/-- The logarithm of one more than a number. -/
def logOnePlus (x : Single) : Single := .ofDouble (Number.Double.logOnePlus x.toDouble)

/-- The hypotenuse of a right triangle with one leg of length one. -/
def hypotenuse (leg : Single) : Single :=
  let y := leg.toDouble
  .ofDouble (1 + y * y).sqrt

/-- Whether twice a number is too large for the format. -/
def doubleOverflows (x : Single) : Bool := x + x = .infinity

/-- The logarithm of twice a number, which may itself be too large for the format. -/
def logTwice (x : Single) : Single := x.lift₁ Float32.log + two.lift₁ Float32.log

/-- The inverse of the hyperbolic cosine, by way of the logarithm; there is none below one. -/
def acosh (x : Single) : Single :=
  if x.lt .one then .nan
  else if doubleOverflows x then logTwice x
  else (x + sqrt (x - .one) * sqrt (x + .one)).lift₁ Float32.log

/-- The inverse of the hyperbolic sine of a number that is not negative, by way of the logarithm. -/
def asinhMagnitude (x : Single) : Single :=
  if doubleOverflows x then logTwice x
  else
    let reciprocal := Single.one / x
    logOnePlus (x + x / (hypotenuse reciprocal + reciprocal))

/-- The inverse of the hyperbolic sine. -/
def asinh (x : Single) : Single := (asinhMagnitude x.abs).withSignOf x

/-- The inverse of the hyperbolic tangent, by way of the logarithm. Numbers near minus one lose
digits on the way. -/
def atanh (x : Single) : Single :=
  Single.one / two * logOnePlus (two * x / (Single.one - x))

/-- A number inside `[0, 1]`. -/
def saturate (x : Single) : Single := x.clamp .zero .one

/-- The function of one float of that name. -/
def singleFunction? : String → Option (Single → Single)
  | "acos" => some (Single.lift₁ Float32.acos)
  | "acosh" => some acosh
  | "asin" => some (Single.lift₁ Float32.asin)
  | "asinh" => some asinh
  | "atan" => some (Single.lift₁ Float32.atan)
  | "atanh" => some atanh
  | "ceil" => some ceil
  | "cos" => some (Single.lift₁ Float32.cos)
  | "cosh" => some (Single.lift₁ Float32.cosh)
  | "degrees" => some fun x => x * degreesPerRadian
  | "exp" => some (Single.lift₁ Float32.exp)
  | "exp2" => some (Single.lift₁ Float32.exp2)
  | "floor" => some floor
  | "fract" => some fun x => x - floor x
  | "inverseSqrt" => some fun x => Single.one / sqrt x
  | "log" => some (Single.lift₁ Float32.log)
  | "log2" => some (Single.lift₁ Float32.log2)
  | "quantizeToF16" => some fun x => Number.Half.toSingle (Number.Half.ofSingle x)
  | "radians" => some fun x => x * radiansPerDegree
  | "round" => some fun x => x.toIntegral .nearestEven
  | "saturate" => some saturate
  | "sin" => some (Single.lift₁ Float32.sin)
  | "sinh" => some (Single.lift₁ Float32.sinh)
  | "sqrt" => some sqrt
  | "tan" => some (Single.lift₁ Float32.tan)
  | "tanh" => some (Single.lift₁ Float32.tanh)
  | "trunc" => some trunc
  -- There are no neighbouring fragments to differ from.
  | "dpdx" | "dpdxCoarse" | "dpdxFine" | "dpdy" | "dpdyCoarse" | "dpdyFine" | "fwidth"
  | "fwidthCoarse" | "fwidthFine" => some fun _ => .zero
  | _ => none

/-! ## Functions of one number -/

/-- The magnitude of a number; the least signed integer is its own. -/
def abs : Value → Run Value
  | .i32 n => pure (.i32 (if n < 0 then -n else n))
  | .u32 n => pure (.u32 n)
  | v => (fun x => .f32 (Single.abs x)) <$> v.number

/-- The sign of a float; both zeros have the sign zero. -/
def singleSign (x : Single) : Single :=
  if x.isNaN then x else if x.eq .zero then .zero else if x.isNegative then -Single.one else .one

/-- The sign of a number, as a number of its kind. -/
def sign : Value → Run Value
  | .i32 n => pure (.i32 (if n < 0 then -1 else if n = 0 then 0 else 1))
  | v => (fun x => .f32 (singleSign x)) <$> v.number

/-- The significand inside `[0.5, 1)` and the exponent of a float. The first estimate comes from the
logarithm, which may be off by one near a power of two. -/
def splitSingle (x : Single) : Single × Int32 :=
  if x.eq .zero || !x.isFinite then (x, 0)
  else
    let exponent := Value.signedOfSingle (floor (x.abs.lift₁ Float32.log2)) + 1
    let fraction := x / Single.powerOfTwo exponent.toInt
    if Single.one.le fraction.abs then (fraction / two, exponent + 1)
    else if fraction.abs.lt (Single.one / two) then (fraction * two, exponent - 1)
    else (fraction, exponent)

/-- The ending of the name of a structure of results. -/
def resultSuffix (v : Value) : String :=
  match v.vectorLength? with
  | some n => "vec" ++ toString n ++ "_f32"
  | none => "f32"

/-- Significands and exponents. -/
def frexp (v : Value) : Run Value := do
  let fract ← overSingles (fun x => (splitSingle x).1) v
  let exp ← v.mapComponents fun c => (fun x => .i32 (splitSingle x).2) <$> c.number
  return .struct ("__frexp_result_" ++ resultSuffix v) [("fract", fract), ("exp", exp)]

/-- Fractions and whole parts. -/
def modf (v : Value) : Run Value := do
  let fract ← overSingles (fun x => x - trunc x) v
  let whole ← overSingles trunc v
  return .struct ("__modf_result_" ++ resultSuffix v) [("fract", fract), ("whole", whole)]

/-! ## Functions of several numbers -/

/-- A chosen integer in the kind of the operand that was not chosen, if that is wider. -/
def widened (chosen other : Value) : Run Value :=
  match chosen, other with
  | .i32 _, .u32 _ => chosen.convert .u32
  | .i32 _, .f32 _ => chosen.convert .f32
  | .u32 _, .f32 _ => chosen.convert .f32
  | _, _ => pure chosen

/-- The greater or the smaller of two scalars of which one is a float. A NaN gives way. -/
def extremeSingle (greater : Bool) (a b : Value) : Run Value := do
  let x ← a.number
  let y ← b.number
  if x.isNaN || y.isNaN then return .f32 (if greater then x.max y else x.min y)
  else if (if greater then y.le x else x.le y) then widened a b
  else widened b a

/-- The greater or the smaller of two integers. -/
def extremeInteger (greater : Bool) (a b : Value) : Run Value := do
  let x ← a.integer
  let y ← b.integer
  if (if greater then y ≤ x else x ≤ y) then widened a b else widened b a

/-- The greater or the smaller of two scalars. -/
def extreme (greater : Bool) (a b : Value) : Run Value :=
  match a, b with
  | .f32 _, _ => extremeSingle greater a b
  | _, .f32 _ => extremeSingle greater a b
  | _, _ => extremeInteger greater a b

def max : Value → Value → Run Value := Value.zipComponents (extreme true)
def min : Value → Value → Run Value := Value.zipComponents (extreme false)

/-- A number held from below and then from above. -/
def clamp (v lo hi : Value) : Run Value := do min (← max v lo) hi

/-- A float times a power of two. -/
def ldexp : Value → Value → Run Value :=
  Value.zipComponents fun x n => do
    return .f32 ((← x.number) * Single.powerOfTwo (← n.signed).toInt)

/-- One where the second float reaches the first, else zero. -/
def step (edge x : Single) : Single := if edge.le x then .one else .zero

/-- The point between two floats. -/
def mix (a b t : Single) : Single := a * (Single.one - t) + b * t

/-- A smooth rise from zero to one between two floats. -/
def smoothstep (lo hi x : Single) : Single :=
  let t := saturate ((x - lo) / (hi - lo))
  t * t * (Single.ofInt 3 - two * t)

/-- The second value where the condition holds, else the first. -/
def select (f t condition : Value) : Run Value :=
  match condition with
  | .vector conditions =>
    let fs := f.components
    let ts := t.components
    if fs.length = conditions.length ∧ ts.length = conditions.length then
      .vector <$> (conditions.zip (fs.zip ts)).mapM fun (c, f, t) => do
        return if ← c.truth then t else f
    else throw (RunCause.vectorLength conditions.length fs.length).unplaced
  | c => do return if ← c.truth then t else f

/-- Whether all components hold. -/
def all (v : Value) : Run Value := do return .bool ((← v.components.mapM Value.truth).all id)

/-- Whether some component holds. -/
def any (v : Value) : Run Value := do return .bool ((← v.components.mapM Value.truth).any id)

end Wgsl.Library
