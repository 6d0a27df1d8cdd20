import AnimatedChart.Timeline.Basic

/-!
# Statistics of a timeline

How long each keyframe stays on screen during one pass of the clock, holds included.
-/

namespace AnimatedChart.Timeline

def mean (xs : List Float) : Float :=
  (xs.foldl (fun (m, n) x => (m + (x - m) / (n + 1), n + 1)) ((0 : Float), (0 : Float))).1

def standardDeviation (xs : List Float) : Float :=
  let step (s : Float × Float × Float) (x : Float) : Float × Float × Float :=
    let (m, m2, n) := s
    let delta := x - m
    let m := m + delta / (n + 1)
    (m, m2 + delta * (x - m), n + 1)
  let (_, m2, _) := xs.foldl step (0, 0, 0)
  (m2 / Float.ofNat (xs.length - 1)).sqrt

/-- The median of numbers in ascending order, between the two middle ones if their count is even. -/
def median (sorted : List Float) : Float :=
  let third : Float := 1 / 3
  let n := third + 0.5 * (Float.ofNat sorted.length + third)
  let k := n.floor.toUInt64.toNat
  let f := n - n.floor
  match sorted[k - 1]?, sorted[k]? with
  | some a, some b => if k = 0 then a else a + f * (b - a)
  | _, _ => sorted.getLastD 0

structure Summary where
  keyframes : Nat
  duration : Float := 0
  mean : Float := 0
  deviation : Float := 0
  min : Float := 0
  median : Float := 0
  max : Float := 0
deriving Repr, Inhabited

def holdAt (tl : Timeline) (i : Nat) : Float :=
  let offset (i : Nat) : Float := (tl.offset? i).getD 0
  let finish := if i + 1 < tl.keyframes.length then offset (i + 1) else tl.duration
  greater 0 (finish - offset i) + tl.pauseFor (tl.keyframeAt i)

def holds (tl : Timeline) : List Float := (List.range tl.keyframes.length).map tl.holdAt

def summary (tl : Timeline) : Summary :=
  match tl.holds with
  | [] => { keyframes := 0 }
  | h :: hs =>
    let xs := h :: hs
    { keyframes := xs.length
      duration := xs.foldl (· + ·) 0
      mean := mean xs
      deviation := if xs.length > 1 then standardDeviation xs else 0
      min := hs.foldl (fun a x => if x < a then x else a) h
      median := median (xs.mergeSort fun a b => compareNumbers a b != .gt)
      max := hs.foldl (fun a x => if x > a then x else a) h }

end AnimatedChart.Timeline
