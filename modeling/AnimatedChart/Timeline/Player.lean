import AnimatedChart.Timeline.Basic

/-!
# Playing a timeline

A player advances the clock of a timeline in steps of wall-clock time.
-/

namespace AnimatedChart.Timeline

open Json

structure Player where
  clock : Float := 0
  /-- Wall-clock milliseconds played so far. -/
  now : Float := 0
  /-- When the current keyframe became current. -/
  since : Float := 0
  frame : Frame
deriving Repr, Inhabited

namespace Player

def start (tl : Timeline) : Player := { frame := tl.frameAt 0 }

def isPlaying (tl : Timeline) (p : Player) : Bool :=
  let d := tl.pauseFor p.frame.current
  d == 0 || p.now - p.since > d

def withClock (tl : Timeline) (clock : Float) (p : Player) : Player :=
  let frame := tl.frameAt clock
  { p with clock, frame, since := if frame.index = p.frame.index then p.since else p.now }

def tick (tl : Timeline) (dt : Float) (p : Player) : Player :=
  let p := { p with now := p.now + dt }
  let next := p.clock + dt
  p.withClock tl (if !p.isPlaying tl then p.clock else if next > tl.duration then 0 else next)

/-- Moves the clock to the start of a keyframe. -/
def seek (tl : Timeline) (value : Value) (p : Player) : Player :=
  p.withClock tl (((tl.keyframes.findIdx? (sameValue · value)).bind (tl.offset? ·)).getD p.clock)

end Player
end AnimatedChart.Timeline
