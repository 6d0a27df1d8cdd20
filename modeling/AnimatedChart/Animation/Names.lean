import AnimatedChart.Graph.Basic
import AnimatedChart.Spec.Scope

/-!
# Names of a scope

The signals, datasets and scales that a scope adds to a graph.
-/

namespace AnimatedChart.Spec.Scope

def qualify (s : Scope) (base : String) : String := s.id.name base

def field (s : Scope) : String := s.time.field

def clock (s : Scope) : String := s.qualify "anim_clock"

def eased (s : Scope) : String := s.qualify "eased_anim_clock"

def lastTick (s : Scope) : String := s.qualify "last_tick_at"

def maxRange (s : Scope) : String := s.qualify "max_range_extent"

def index (s : Scope) : String := s.qualify "t_index"

def value (s : Scope) : String := s.qualify "anim_value"

def current (s : Scope) : String := s.qualify "anim_val_curr"

def next (s : Scope) : String := s.qualify "anim_val_next"

def tween (s : Scope) : String := s.qualify "anim_tween"

def minExtent (s : Scope) : String := s.qualify "min_extent"

def maxExtent (s : Scope) : String := s.qualify "max_extent"

def domain (s : Scope) : String := s.qualify (s.field ++ "_domain")

def notHeld (s : Scope) : String := s.qualify "is_playing_datum_pause"

def holds (s : Scope) : String := s.qualify "time_pause"

def holdDuration (s : Scope) : String := s.qualify "datum_pause_duration"

def heldSince (s : Scope) : String := s.qualify "last_datum_pause_at"

def keyframes (s : Scope) : String := s.qualify "time_keyframes"

def elapsedKeyframes (s : Scope) : String := s.qualify "time_keyframes_elapsed"

def isLinear (s : Scope) : Bool := s.time.scaleType == TimeScale.linear

def timeScale (s : Scope) : String :=
  if s.isLinear then s.qualify "time" else s.qualify ("time_" ++ s.field)

def explicitDomain (s : Scope) : List Json.Value := (s.time.scale.map (·.domain)).getD []

def timeRange? (s : Scope) : Option TimeRange := s.time.scale.bind (·.range)

end AnimatedChart.Spec.Scope

namespace AnimatedChart

open Json

def Spec.Selection.slider (a : Spec.Selection) : String := a.name ++ "_slider"

end AnimatedChart
