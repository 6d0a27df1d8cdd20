import AnimatedChart.Spec.Selection

/-!
# Easing

An easing maps progress to eased progress. Named easings are given by a family of curves and by the end at which the
curve is slow; they are computed in single precision.
-/

namespace AnimatedChart.Timeline

open Spec

def lesser (x y : Float) : Float :=
  if x.isNaN || y.isNaN then 0 / 0
  else if x < y then x
  else if y < x then y
  else if x == 0 && 1 / x < 0 then x
  else y

def greater (x y : Float) : Float :=
  if x.isNaN || y.isNaN then 0 / 0
  else if x < y then y
  else if y < x then x
  else if x == 0 && 1 / x < 0 then y
  else x

def clamp (x lo hi : Float) : Float := greater lo (lesser hi x)

/-! ## Named easings -/

inductive Family where
  | linear
  | quad
  | cubic
  | sine
  | expo
  | circle
  | elastic
  | back
  | bounce
deriving Repr, DecidableEq, Inhabited

inductive Bend where
  | start
  | finish
  | both
deriving Repr, DecidableEq, Inhabited

def pi32 : Float32 := 3.14159265358979323846

def sin32 (x : Float32) : Float32 := x.toFloat.sin.toFloat32

def cos32 (x : Float32) : Float32 := x.toFloat.cos.toFloat32

def sqrt32 (x : Float32) : Float32 := x.toFloat.sqrt.toFloat32

def square32 (x : Float32) : Float32 := (x.toFloat * x.toFloat).toFloat32

def cube32 (x : Float32) : Float32 := (x.toFloat * (x.toFloat * x.toFloat)).toFloat32

def exp2 (x : Float32) : Float32 := ((2 : Float) ^ x.toFloat).toFloat32

def overshoot : Float32 := 1.70158

def bounceOut (t : Float32) : Float32 :=
  if t < ((1 : Float) / 2.75).toFloat32 then 7.5625 * t * t
  else if t < ((2 : Float) / 2.75).toFloat32 then
    let t := t - ((1.5 : Float) / 2.75).toFloat32
    7.5625 * t * t + 0.75
  else if t < ((2.5 : Float) / 2.75).toFloat32 then
    let t := t - ((2.25 : Float) / 2.75).toFloat32
    7.5625 * t * t + 0.9375
  else
    let t := t - ((2.625 : Float) / 2.75).toFloat32
    7.5625 * t * t + 0.984375

def bounceIn (t : Float32) : Float32 := 1 - bounceOut (1 - t)

def elasticPeriod : Float32 := 0.3

def elasticSwing (t : Float32) : Float32 :=
  sin32 ((t - elasticPeriod / 4) * (2 * pi32) / elasticPeriod)

def Family.eval (f : Family) (b : Bend) (t : Float32) : Float32 :=
  match f, b with
  | .linear, _ => t
  | .quad, .start => square32 t
  | .quad, .finish => -1 * t * (t - 2)
  | .quad, .both =>
    let t := t * 2
    if t < 1 then 0.5 * square32 t else -0.5 * ((t - 1) * (t - 3) - 1)
  | .cubic, .start => cube32 t
  | .cubic, .finish => cube32 (t - 1) + 1
  | .cubic, .both =>
    let t := t * 2
    if t < 1 then 0.5 * t * t * t
    else
      let t := t - 2
      0.5 * (t * t * t + 2)
  | .sine, .start => -1 * cos32 (t * (pi32 / 2)) + 1
  | .sine, .finish => sin32 (t * (pi32 / 2))
  | .sine, .both => -0.5 * (cos32 (pi32 * t) - 1)
  | .expo, .start => if t == 0 then 0 else exp2 (10 * (t - 1)) - 0.001
  | .expo, .finish => if t == 1 then 1 else 1.001 * (-exp2 (-10 * t) + 1)
  | .expo, .both =>
    if t == 0 then 0
    else if t == 1 then 1
    else
      let t := t * 2
      if t < 1 then 0.5 * exp2 (10 * (t - 1)) - 0.0005
      else 0.5 * 1.0005 * (-exp2 (-10 * (t - 1)) + 2)
  | .circle, .start => -1 * (sqrt32 (1 - square32 t) - 1)
  | .circle, .finish => sqrt32 (1 - square32 (t - 1))
  | .circle, .both =>
    let t := t * 2
    if t < 1 then -0.5 * (sqrt32 (1 - t * t) - 1)
    else
      let t := t - 2
      0.5 * (sqrt32 (1 - t * t) + 1)
  | .elastic, .start =>
    if t == 0 then 0
    else if t == 1 then 1
    else
      let t := t - 1
      0 - exp2 (10 * t) * elasticSwing t
  | .elastic, .finish =>
    if t == 0 then 0
    else if t == 1 then 1
    else exp2 (-10 * t) * elasticSwing t + 1
  | .elastic, .both =>
    if t == 0 then 0
    else
      let t := t * 2
      if t == 2 then 1
      else
        let t := t - 1
        if t < 0 then -0.5 * (exp2 (10 * t) * elasticSwing t)
        else exp2 (-10 * t) * elasticSwing t * 0.5 + 1
  | .back, .start => t * t * ((overshoot + 1) * t - overshoot)
  | .back, .finish =>
    let t := t - 1
    t * t * ((overshoot + 1) * t + overshoot) + 1
  | .back, .both =>
    let s := overshoot * 1.525
    let t := t * 2
    if t < 1 then 0.5 * (t * t * ((s + 1) * t - s))
    else
      let t := t - 2
      0.5 * (t * t * ((s + 1) * t + s) + 2)
  | .bounce, .start => bounceIn t
  | .bounce, .finish => bounceOut t
  | .bounce, .both => if t < 0.5 then bounceIn (t * 2) * 0.5 else bounceOut (t * 2 - 1) * 0.5 + 0.5

def families : List (String × Family × Bend) := [
  ("Quad", .quad, .both),
  ("Cubic", .cubic, .both),
  ("Poly", .cubic, .both),
  ("Sin", .sine, .both),
  ("Exp", .expo, .both),
  ("Circle", .circle, .both),
  ("Elastic", .elastic, .finish),
  ("Back", .back, .both),
  ("Bounce", .bounce, .finish)]

def easings : List (String × Family × Bend) :=
  ("easeLinear", .linear, .both) :: families.flatMap fun (name, family, bend) => [
    ("ease" ++ name, family, bend),
    ("ease" ++ name ++ "In", family, .start),
    ("ease" ++ name ++ "Out", family, .finish),
    ("ease" ++ name ++ "InOut", family, .both)]

/-- The spline through points, at a time between 0 and 1. -/
def catmullRom (points : List Float) (t : Float) : Float :=
  match points with
  | [] => 0 / 0
  | [p] => p
  | p :: ps =>
    let n := ps.length
    let pos := clamp t 0 1 * Float.ofNat n
    let i := min pos.floor.toUInt64.toNat (n - 1)
    let u := pos - Float.ofNat i
    let point (j : Nat) : Float := (p :: ps).getD (min n j) p
    let p0 := point (i - 1)
    let p1 := point i
    let p2 := point (i + 1)
    let p3 := point (i + 2)
    0.5 * (2 * p1 + (-p0 + p2) * u + (2 * p0 - 5 * p1 + 4 * p2 - p3) * u * u
      + (-p0 + 3 * p1 - 3 * p2 + p3) * u * u * u)

/-- An easing that can be computed. -/
inductive Ease where
  | named (family : Family) (bend : Bend)
  | curve (points : List Float)
deriving Repr, Inhabited

namespace Ease

def apply : Ease → Float → Float
  | named f b, t => (f.eval b (clamp t 0 1).toFloat32 + 0).toFloat
  | curve ps, t => catmullRom ps t

def ofName (name : String) : Except Error Ease :=
  match easings.find? (·.1 == name) with
  | some (_, f, b) => .ok (named f b)
  | none => .error (.new .unsupported ("unknown easing " ++ Text.quote name))

def ofSelection (a : Option Selection) : Except Error Ease :=
  match a.bind (·.select.easing) with
  | some (.curve (p :: ps)) => .ok (curve (p :: ps))
  | some (.named name) => ofName (if name.isEmpty then Spec.Easing.byDefault.name else name)
  | _ => ofName Spec.Easing.byDefault.name

end Ease
end AnimatedChart.Timeline
