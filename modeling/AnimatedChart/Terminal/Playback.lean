import AnimatedChart.Terminal.Style
import AnimatedChart.Timeline.Player

/-!
# Playback on a terminal

A screen that plays the clock of a scope: a progress bar, the keyframes, and the frame.
-/

namespace AnimatedChart.Terminal

open Timeline

inductive Message where
  | tick
  | resize (width height : Int64)
  /-- A key by its name, or typed text. -/
  | key (name : String)
deriving Repr, Inhabited

structure Playback where
  name : String
  timeline : Timeline
  player : Player
  tick : Duration
  paused : Bool := false
  width : Nat := 60
deriving Inhabited

namespace Playback

def start (name : String) (tl : Timeline) (tick : Duration) : Playback :=
  { name, timeline := tl, player := .start tl, tick }

def seek (m : Playback) (i : Nat) : Playback :=
  { m with player := m.player.seek m.timeline (m.timeline.keyframeAt i) }

def step (m : Playback) (delta : Int) : Playback :=
  m.seek (((m.player.frame.index : Int) + delta) % m.timeline.keyframes.length).toNat

def quits (key : String) : Bool := key == "q" || key == "ctrl+c" || key == "esc"

def update (m : Playback) : Message → Playback
  | .tick => if m.paused then m else { m with player := m.player.tick m.timeline m.tick.toMillis }
  | .resize width _ => { m with width := (max 20 (width - 10).toInt).toNat }
  | .key k =>
    if k = " " then { m with paused := !m.paused }
    else if k = "left" ∨ k = "h" then m.step (-1)
    else if k = "right" ∨ k = "l" then m.step 1
    else if k = "home" ∨ k = "0" then m.seek 0
    else m

def filledCells (v total : Float) (width : Nat) : Nat :=
  let x := v / total * Float.ofNat width
  if total > 0 ∧ x ≥ 1 ∧ x < 9223372036854775808 then min x.toUInt64.toNat width else 0

def progressBar (v total : Float) (width : Nat) : Except Error String := do
  let filled := filledCells v total width
  return (← repeated filled '█') ++ (← repeated (width - filled) '░')

def state (m : Playback) : String :=
  if m.paused then "paused" else if m.player.isPlaying m.timeline then "playing" else "holding"

def view (m : Playback) : Except Error String := do
  let f := m.player.frame
  let tl := m.timeline
  return styled ("Playing " ++ m.name) ++ "  " ++ styled (tl.field ++ " · " ++ tl.type) ++ "\n\n"
    ++ (← progressBar f.clock tl.duration m.width) ++ " "
    ++ Duration.briefMillis f.clock ++ " / " ++ Duration.briefMillis tl.duration ++ "\n\n"
    ++ String.intercalate " " (tl.keyframes.map fun k => styled k.display) ++ "\n\n"
    ++ styled f.current.display ++ " → " ++ styled f.next.display ++ " tween " ++ Decimal.fixed 2 f.tween
    ++ "  " ++ m.state ++ "\n\n"
    ++ "space pause  ←/→ seek  0 restart  q quit"

end Playback
end AnimatedChart.Terminal
