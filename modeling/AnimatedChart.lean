import AnimatedChart.Main
import AnimatedChart.Proofs.Scope.Time
import AnimatedChart.Proofs.Scope.Filter
import AnimatedChart.Proofs.Animation.KeyframeData
import AnimatedChart.Proofs.Animation.Resolution
import AnimatedChart.Proofs.Animation.Success
import AnimatedChart.Proofs.Animation.TimeFields
import AnimatedChart.Proofs.Animation.StaticCharts
import AnimatedChart.Proofs.Animation.Suspension
import AnimatedChart.Proofs.Animation.Looks
import AnimatedChart.Proofs.Animation.Destinations
import AnimatedChart.Proofs.Animation.Interpolation
import AnimatedChart.Proofs.Lowering.Names
import AnimatedChart.Proofs.Lowering.Order
import AnimatedChart.Proofs.Dependency.Reachability
import AnimatedChart.Proofs.Terminal.Playback
import AnimatedChart.Proofs.Timeline.Duration
import AnimatedChart.Proofs.Timeline.Join
import AnimatedChart.Proofs.Graph.Merge
import AnimatedChart.Proofs.Graph.Stability
import AnimatedChart.Proofs.Spec.Passthrough
import AnimatedChart.Proofs.Spec.Static
import AnimatedChart.Proofs.Service.Records
